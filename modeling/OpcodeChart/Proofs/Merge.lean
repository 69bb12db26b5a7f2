import OpcodeChart.Proofs.Plan

/-!
# Plans in parts

Whether a plan has a chart, and which, hangs on the entries that the plan asks for and not on their
order.  So plans can be charted in parts, and the charts put together.

* `Plan.merge p q`                  the families and the literals of two plans;
* `Plan.chart_eq_ok_iff_nodup`      **a plan has a chart when its entries are of distinct opcodes**;
* `Plan.chart_eq_ok_iff_perm`       the chart has the entries that the plan asks for;
* `Plan.chart_eq_ok_iff_of_perm`    the order of families and of literals does not matter;
* `Plan.exists_chart_merge_iff`     two plans have a chart together when their charts share no opcode;
* `Plan.get?_chart_merge`           it answers as the two charts do;
* `Plan.exists_chart_of_subperm`    a part of a plan with a chart has a chart, which agrees;
* `Plan.chart_of_parts`             **charts are made in parts, in any order**.
-/

namespace OpcodeChart.Plan

/-- the families and the literals of two plans. -/
def merge (p q : Plan) : Plan := ⟨p.families ++ q.families, p.literals ++ q.literals⟩

variable {p q : Plan} {a b c : Chart}

/-- **A plan has a chart when its entries are of distinct opcodes.** -/
theorem chart_eq_ok_iff_nodup :
    p.chart = .ok c ↔ (p.entries.map Entry.opcode).Nodup ∧ c = Chart.ofEntries p.entries := by
  rw [chart_eq_ok_iff, nodup_opcodes_entries_iff]

theorem chart_eq_ok_iff_perm : p.chart = .ok c ↔ c.entries.Perm p.entries :=
  chart_eq_ok_iff_nodup.trans Chart.entries_perm_iff.symm

theorem get?_chart (hc : p.chart = .ok c) {opcode : UInt8} {o : Operation} :
    c.get? opcode = some o ↔ ⟨opcode, o⟩ ∈ p.entries :=
  Chart.get?_eq_some_iff.trans (chart_eq_ok_iff_perm.1 hc).mem_iff

theorem mem_opcodes_chart (hc : p.chart = .ok c) {opcode : UInt8} :
    opcode ∈ c.opcodes ↔ opcode ∈ p.entries.map Entry.opcode :=
  ((chart_eq_ok_iff_perm.1 hc).map Entry.opcode).mem_iff

/-! ### another order -/

theorem entries_perm (hf : q.families.Perm p.families) (hl : q.literals.Perm p.literals) :
    q.entries.Perm p.entries :=
  ((hf.flatMap_right _).map Claim.entry).append hl

/-- plans that ask for the same entries have the same chart, or none. -/
theorem chart_eq_ok_iff_of_perm (hf : q.families.Perm p.families)
    (hl : q.literals.Perm p.literals) : q.chart = .ok c ↔ p.chart = .ok c := by
  rw [chart_eq_ok_iff_perm, chart_eq_ok_iff_perm]
  exact (entries_perm hf hl).congr_right _

/-! ### two plans together -/

/-- the literals of the first plan move before the families of the second. -/
theorem entries_merge_perm (p q : Plan) : (p.merge q).entries.Perm (p.entries ++ q.entries) := by
  show ((Family.claimsOf (p.families ++ q.families)).map Claim.entry ++
    (p.literals ++ q.literals)).Perm _
  unfold entries
  rw [Family.claimsOf_append, List.map_append, List.append_assoc, List.append_assoc]
  exact (List.perm_append_comm_assoc _ _ _).append_left _

theorem nodup_opcodes_merge_iff :
    ((p.merge q).entries.map Entry.opcode).Nodup ↔
      (p.entries.map Entry.opcode).Nodup ∧ (q.entries.map Entry.opcode).Nodup ∧
      (p.entries.map Entry.opcode).Disjoint (q.entries.map Entry.opcode) := by
  rw [((entries_merge_perm p q).map Entry.opcode).nodup_iff, List.map_append, List.nodup_append']

theorem disjoint_opcodes_iff (ha : p.chart = .ok a) (hb : q.chart = .ok b) :
    a.opcodes.Disjoint b.opcodes ↔
      (p.entries.map Entry.opcode).Disjoint (q.entries.map Entry.opcode) := by
  simp only [List.Disjoint, mem_opcodes_chart ha, mem_opcodes_chart hb]

/-- **Two plans have a chart together when both have one and the charts share no opcode.** -/
theorem exists_chart_merge_iff :
    (∃ c, (p.merge q).chart = .ok c) ↔
      ∃ a b, p.chart = .ok a ∧ q.chart = .ok b ∧ a.opcodes.Disjoint b.opcodes := by
  constructor
  · rintro ⟨c, hc⟩
    obtain ⟨hp, hq, hd⟩ := nodup_opcodes_merge_iff.1 (chart_eq_ok_iff_nodup.1 hc).1
    have ha := chart_eq_ok_iff_nodup.2 ⟨hp, rfl⟩
    have hb := chart_eq_ok_iff_nodup.2 ⟨hq, rfl⟩
    exact ⟨_, _, ha, hb, (disjoint_opcodes_iff ha hb).2 hd⟩
  · rintro ⟨a, b, ha, hb, hd⟩
    have hn := nodup_opcodes_merge_iff.2 ⟨(chart_eq_ok_iff_nodup.1 ha).1,
      (chart_eq_ok_iff_nodup.1 hb).1, (disjoint_opcodes_iff ha hb).1 hd⟩
    exact ⟨_, chart_eq_ok_iff_nodup.2 ⟨hn, rfl⟩⟩

/-- **The chart of two plans together answers as the two charts do.** -/
theorem get?_chart_merge (ha : p.chart = .ok a) (hb : q.chart = .ok b)
    (hc : (p.merge q).chart = .ok c) :
    (∀ opcode o, c.get? opcode = some o ↔ a.get? opcode = some o ∨ b.get? opcode = some o) ∧
      c.size = a.size + b.size := by
  have hp := entries_merge_perm p q
  refine ⟨fun opcode o => ?_, ?_⟩
  · rw [get?_chart hc, get?_chart ha, get?_chart hb, hp.mem_iff, List.mem_append]
  · calc c.entries.length = (p.merge q).entries.length := (chart_eq_ok_iff_perm.1 hc).length_eq
      _ = p.entries.length + q.entries.length := by rw [hp.length_eq, List.length_append]
      _ = a.entries.length + b.entries.length := by
        rw [(chart_eq_ok_iff_perm.1 ha).length_eq, (chart_eq_ok_iff_perm.1 hb).length_eq]

/-! ### a part of a plan -/

private theorem exists_append_perm_of_subperm {α : Type} {as bs : List α} (h : as.Subperm bs) :
    ∃ rest, (as ++ rest).Perm bs := by
  obtain ⟨cs, hp, hs⟩ := h
  obtain ⟨rest, hr⟩ := hs.exists_perm_append
  exact ⟨rest, (hp.symm.append_right rest).trans hr.symm⟩

/-- **A part of a plan with a chart has a chart, which agrees.** -/
theorem exists_chart_of_subperm (hf : q.families.Subperm p.families)
    (hl : q.literals.Subperm p.literals) (hc : p.chart = .ok c) :
    ∃ b, q.chart = .ok b ∧ ∀ opcode ∈ b.opcodes, c.get? opcode = b.get? opcode := by
  obtain ⟨fs, hfs⟩ := exists_append_perm_of_subperm hf
  obtain ⟨ls, hls⟩ := exists_append_perm_of_subperm hl
  -- the part and the rest make the plan in another order
  have hm : (q.merge ⟨fs, ls⟩).chart = .ok c := (chart_eq_ok_iff_of_perm hfs hls).2 hc
  obtain ⟨b, r, hb, hr, -⟩ := exists_chart_merge_iff.1 ⟨c, hm⟩
  obtain ⟨hget, -⟩ := get?_chart_merge hb hr hm
  exact ⟨b, hb, Chart.get?_eq_of_mem_opcodes fun opcode o h => (hget opcode o).2 (.inl h)⟩

/-- **Charts are made in parts, in any order**: two plans have a chart together exactly when both
have one and these share no opcode, and it is their union; families and literals in another order
have the same chart, or none; and a part of a plan with a chart has a chart, which agrees. -/
theorem chart_of_parts (p q : Plan) :
    ((∃ c, (p.merge q).chart = .ok c) ↔
      ∃ a b, p.chart = .ok a ∧ q.chart = .ok b ∧ a.opcodes.Disjoint b.opcodes) ∧
    (∀ a b c, p.chart = .ok a → q.chart = .ok b → (p.merge q).chart = .ok c →
      (∀ opcode o, c.get? opcode = some o ↔ a.get? opcode = some o ∨ b.get? opcode = some o) ∧
      c.size = a.size + b.size) ∧
    (q.families.Perm p.families → q.literals.Perm p.literals →
      ∀ c, q.chart = .ok c ↔ p.chart = .ok c) ∧
    (q.families.Subperm p.families → q.literals.Subperm p.literals →
      ∀ c, p.chart = .ok c → ∃ b, q.chart = .ok b ∧
        ∀ opcode ∈ b.opcodes, c.get? opcode = b.get? opcode) :=
  ⟨exists_chart_merge_iff, fun _ _ _ => get?_chart_merge,
    fun hf hl _ => chart_eq_ok_iff_of_perm hf hl,
    fun hf hl _ => exists_chart_of_subperm hf hl⟩

/-- pushes with a literal, and pops: together in either order, and the pops as a part of both. -/
theorem chart_of_parts_pop :
    ∃ a b c, chart ⟨[.push], [⟨0x08, .load16 .address16 .stackPointer 5⟩]⟩ = .ok a ∧
      chart ⟨[.pop], []⟩ = .ok b ∧
      chart ⟨[.push, .pop], [⟨0x08, .load16 .address16 .stackPointer 5⟩]⟩ = .ok c ∧
      c.get? 0xC5 = some (.push .BC 4) ∧ c.size = a.size + b.size ∧
      chart ⟨[.pop, .push], [⟨0x08, .load16 .address16 .stackPointer 5⟩]⟩ = .ok c ∧
      c.get? 0xF1 = some (.pop .AF 3) := by
  obtain ⟨hmerge, hunion, -, -⟩ := chart_of_parts
    ⟨[.push], [⟨0x08, .load16 .address16 .stackPointer 5⟩]⟩ ⟨[.pop], []⟩
  obtain ⟨-, -, horder, -⟩ := chart_of_parts
    ⟨[.push, .pop], [⟨0x08, .load16 .address16 .stackPointer 5⟩]⟩
    ⟨[.pop, .push], [⟨0x08, .load16 .address16 .stackPointer 5⟩]⟩
  obtain ⟨-, -, -, hpart⟩ := chart_of_parts
    ⟨[.push, .pop], [⟨0x08, .load16 .address16 .stackPointer 5⟩]⟩ ⟨[.pop], []⟩
  -- the members of both families and the literal are of distinct opcodes
  have hn : ((merge ⟨[.push], [⟨0x08, .load16 .address16 .stackPointer 5⟩]⟩
      ⟨[.pop], []⟩).entries.map Entry.opcode).Nodup := by decide
  obtain ⟨hpushes, hpops, hd⟩ := nodup_opcodes_merge_iff.1 hn
  have ha := chart_eq_ok_iff_nodup.2 ⟨hpushes, rfl⟩
  have hb := chart_eq_ok_iff_nodup.2 ⟨hpops, rfl⟩
  obtain ⟨c, hc⟩ := hmerge.2 ⟨_, _, ha, hb, (disjoint_opcodes_iff ha hb).2 hd⟩
  obtain ⟨hget, hsize⟩ := hunion _ _ c ha hb hc
  refine ⟨_, _, c, ha, hb, hc, (hget _ _).2 (.inl ((get?_chart ha).2 (by decide))), hsize,
    (horder (.swap _ _ _) (.refl _) c).2 hc, ?_⟩
  obtain ⟨b, hb', hagree⟩ := hpart (List.sublist_cons_self _ _).subperm List.nil_subperm c hc
  exact (hagree 0xF1 ((mem_opcodes_chart hb').2 (by decide))).trans
    ((get?_chart hb').2 (by decide))

end OpcodeChart.Plan
