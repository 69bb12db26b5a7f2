import OpcodeChart.Proofs.Admission
import OpcodeChart.Proofs.Draft
import OpcodeChart.Proofs.Family

/-!
# The chart of a plan

A plan has a chart unless some opcode is claimed twice, and no other error comes up.  Literals are
compared with everything before them first, families with each other only after that.

* `Family.claimsOf fs`               the claims that a list of families makes;
* `Family.nodup_claimsOf_iff`        their opcodes differ exactly when no family is repeated;
* `Plan.Free p ls`                   literals that share no opcode with each other or with a family;
* `Plan.Taken p before opcode o`     the origin that stands against a literal behind `before`;
* `Plan.chart_decided`               **the chart of a plan by the two searches for a clash**;
* `Plan.chart_holds_members_and_literals`   **when there is a chart, and what it holds**;
* `Plan.Refuses p err`               a collision that stands against the plan;
* `Plan.chart_eq_error_iff`          **what a plan fails with**;
* `exists_loadTransfer`              the chart of the standard plan.
-/

namespace OpcodeChart

open Claim

theorem Selector.validate_eq_ok (s : Selector) : s.validate = .ok () := by
  cases s with
  | register =>
    have hs := Coding.fault?_eq_none_iff.2 Coding.sound_register
    exact Coding.validate_eq_ok_iff.2 hs
  | loadPair =>
    have hs := Coding.fault?_eq_none_iff.2 Coding.sound_loadPair
    exact Coding.validate_eq_ok_iff.2 hs
  | stackPair =>
    have hs := Coding.fault?_eq_none_iff.2 Coding.sound_stackPair
    exact Coding.validate_eq_ok_iff.2 hs

theorem Selector.forM_validate_eq_ok : Selector.all.forM Selector.validate = .ok () := by
  show (do
    Selector.register.validate
    Selector.loadPair.validate
    Selector.stackPair.validate
    pure ()) = Except.ok ()
  simp only [Selector.validate_eq_ok]
  rfl

/-! ### the claims of families -/

namespace Family

def claimsOf (fs : List Family) : List Claim :=
  fs.flatMap fun f => ofEntries (.family f) f.members

variable {fs : List Family} {f : Family} {c : Claim} {opcode : UInt8}

theorem claimsOf_cons (f : Family) (fs : List Family) :
    claimsOf (f :: fs) = ofEntries (.family f) f.members ++ claimsOf fs := rfl

theorem claimsOf_append (fs gs : List Family) : claimsOf (fs ++ gs) = claimsOf fs ++ claimsOf gs :=
  List.flatMap_append

theorem mem_claimsOf_iff :
    c ∈ claimsOf fs ↔ ∃ f ∈ fs, c.origin = .family f ∧ c.entry ∈ f.members := by
  unfold claimsOf ofEntries
  rw [List.mem_flatMap]
  constructor
  · intro h
    obtain ⟨f, hf, hc⟩ := h
    obtain ⟨e, he, rfl⟩ := List.mem_map.1 hc
    exact ⟨f, hf, rfl, he⟩
  · intro h
    obtain ⟨f, hf, ho, he⟩ := h
    refine ⟨f, hf, List.mem_map.2 ⟨c.entry, he, ?_⟩⟩
    rw [← ho]

theorem mem_opcodes_claimsOf_iff :
    opcode ∈ (claimsOf fs).map Claim.opcode ↔ ∃ f ∈ fs, f.Owns opcode := by
  unfold claimsOf
  rw [List.map_flatMap, List.mem_flatMap]
  simp only [opcodes_ofEntries, mem_opcodes_iff]

/-- the origin of a claim is the one family that its opcode belongs to. -/
theorem origin_of_mem_claimsOf (hc : c ∈ claimsOf fs) :
    ∃ f ∈ fs, c.origin = .family f ∧ f.Owns c.opcode ∧ ∀ g : Family, g.Owns c.opcode → g = f := by
  obtain ⟨f, hf, ho, he⟩ := mem_claimsOf_iff.1 hc
  have howns : f.Owns c.opcode := mem_opcodes_iff.1 (List.mem_map_of_mem he)
  exact ⟨f, hf, ho, howns, fun g hg => eq_of_owns hg howns⟩

/-- **The claims of families differ in their opcodes exactly when no family is repeated.** -/
theorem nodup_claimsOf_iff : ((claimsOf fs).map Claim.opcode).Nodup ↔ fs.Nodup := by
  unfold claimsOf
  rw [List.map_flatMap]
  simp only [opcodes_ofEntries]
  rw [List.nodup_flatMap]
  have hdisj : ∀ f g : Family,
      Function.onFun List.Disjoint (fun f : Family => f.members.map Entry.opcode) f g ↔ f ≠ g := by
    intro f g
    constructor
    · intro hd e
      obtain ⟨m, ms, hm⟩ := f.exists_members_eq_cons
      have hmem : m.opcode ∈ f.members.map Entry.opcode := by
        rw [hm]
        exact List.mem_cons_self
      exact hd hmem (e ▸ hmem)
    · intro hne opcode hf hg
      exact hne (eq_of_owns (mem_opcodes_iff.1 hf) (mem_opcodes_iff.1 hg))
  constructor
  · intro h
    exact h.2.imp fun {f g} hfg => (hdisj f g).1 hfg
  · intro h
    exact ⟨fun f _ => f.nodup_opcodes_members, h.imp fun {f g} hfg => (hdisj f g).2 hfg⟩

theorem length_claimsOf (fs : List Family) :
    (claimsOf fs).length = (fs.map fun f => f.operandSpace.length).sum := by
  unfold claimsOf ofEntries
  rw [List.length_flatMap]
  simp only [List.length_map, length_members]

theorem mem_entries_claimsOf_iff {e : Entry} :
    e ∈ (claimsOf fs).map Claim.entry ↔ ∃ f ∈ fs, e ∈ f.members := by
  unfold claimsOf
  rw [List.map_flatMap, List.mem_flatMap]
  simp only [entries_ofEntries]

/-- claiming families one after another. -/
theorem foldlM_addFamily_eq (d : Draft) (fs : List Family) :
    fs.foldlM Draft.addFamily d = .ok ⟨d.claims ++ claimsOf fs⟩ := by
  induction fs generalizing d with
  | nil =>
    show Except.ok d = .ok ⟨d.claims ++ []⟩
    rw [List.append_nil]
  | cons f fs ih =>
    have hadd : d.addFamily f = .ok (d.addAll (.family f) f.members) := by
      unfold Draft.addFamily
      rw [entries_eq]
      rfl
    rw [List.foldlM_cons, hadd]
    show fs.foldlM Draft.addFamily (d.addAll (.family f) f.members) = _
    rw [ih, Draft.claims_addAll, claimsOf_cons, ← List.append_assoc]
    rfl

end Family

namespace Plan

open Family

/-- the draft of a plan hangs on its literals alone. -/
theorem draft_eq (p : Plan) :
    p.draft = (LiteralSet.gather p.literals (claimsOf p.families) >>= fun s =>
      .ok ((Draft.mk (claimsOf p.families)).addAll .literal s.entries)) := by
  unfold draft
  rw [Selector.forM_validate_eq_ok, foldlM_addFamily_eq Draft.empty p.families]
  rfl

/-- **The chart of a plan by the two searches for a clash**: first among the literals, which follow
all families, then among the families. -/
theorem chart_decided (p : Plan) :
    Decides ((clash? (claimsOf p.families) (ofEntries .literal p.literals)).or
        (clash? [] (claimsOf p.families)))
      p.chart (· = Chart.ofEntries ((claimsOf p.families).map Claim.entry ++ p.literals)) := by
  have hrun : p.chart = LiteralSet.gather p.literals (claimsOf p.families) >>= fun s =>
      ((Draft.mk (claimsOf p.families)).addAll .literal s.entries).chart := by
    unfold chart
    rw [draft_eq]
    cases LiteralSet.gather p.literals (claimsOf p.families) <;> rfl
  have hchart : ∀ s : LiteralSet, s.entries = p.literals →
      Decides ((clash? [] (claimsOf p.families)).or
          (clash? (claimsOf p.families) (ofEntries .literal p.literals)))
        ((Draft.mk (claimsOf p.families)).addAll .literal s.entries).chart
        (· = Chart.ofEntries ((claimsOf p.families).map Claim.entry ++ p.literals)) := by
    intro s hs
    rw [hs]
    exact Draft.chart_addAll_decided ⟨claimsOf p.families⟩ p.literals
  have hboth := (LiteralSet.gather_decided p.literals (claimsOf p.families)).bind hchart
  rw [hrun]
  -- what the first search finds, the second would find too, behind the families
  cases hl : clash? (claimsOf p.families) (ofEntries .literal p.literals) with
  | some x =>
    rw [hl] at hboth
    exact hboth
  | none =>
    rw [hl, Option.or_none] at hboth
    exact hboth

theorem chart_eq (p : Plan) :
    p.chart =
      match (clash? (claimsOf p.families) (ofEntries .literal p.literals)).or
        (clash? [] (claimsOf p.families)) with
      | some x => .error (collision x)
      | none => .ok (Chart.ofEntries ((claimsOf p.families).map Claim.entry ++ p.literals)) := by
  have h := p.chart_decided
  cases hx : (clash? (claimsOf p.families) (ofEntries .literal p.literals)).or
      (clash? [] (claimsOf p.families)) with
  | some x =>
    rw [hx] at h
    exact h
  | none =>
    rw [hx] at h
    obtain ⟨c, hc, rfl⟩ := h
    exact hc

/-! ### literals -/

/-- literals that share no opcode with each other or with a family of the plan. -/
def Free (p : Plan) (ls : List Entry) : Prop :=
  (ls.map Entry.opcode).Nodup ∧ ∀ e ∈ ls, ∀ f ∈ p.families, ¬ f.Owns e.opcode

instance (p : Plan) (ls : List Entry) : Decidable (p.Free ls) :=
  inferInstanceAs (Decidable ((ls.map Entry.opcode).Nodup ∧ _))

/-- the origin that stands against a literal behind the literals `before`. -/
inductive Taken (p : Plan) (before : List Entry) (opcode : UInt8) : Origin → Prop
  /-- a family of the plan, the only one that the opcode belongs to. -/
  | family {f : Family} (listed : f ∈ p.families) (owns : f.Owns opcode)
      (only : ∀ g : Family, g.Owns opcode → g = f) : Taken p before opcode (.family f)
  /-- an earlier literal, of an opcode in no family of the plan. -/
  | literal (unowned : ∀ f ∈ p.families, ¬ f.Owns opcode)
      (earlier : opcode ∈ before.map Entry.opcode) : Taken p before opcode .literal

variable {p : Plan} {ls : List Entry} {opcode : UInt8}

theorem admissible_iff_free : LiteralSet.Admissible (claimsOf p.families) ls ↔ p.Free ls := by
  unfold LiteralSet.Admissible Free
  simp only [mem_opcodes_claimsOf_iff, not_exists, not_and]

/-- the origin of the first claim of an opcode is the one family that it belongs to. -/
theorem taken_iff {before : List Entry} {o : Origin} :
    LiteralSet.Taken (claimsOf p.families) before opcode o ↔ p.Taken before opcode o := by
  refine ⟨fun h => ?_, fun h => ?_⟩
  · cases h with
    | @claim front back c split same first =>
      subst same
      have hc : c ∈ claimsOf p.families := split ▸ List.mem_append_right _ List.mem_cons_self
      obtain ⟨f, hf, ho, howns, honly⟩ := origin_of_mem_claimsOf hc
      exact ho ▸ .family hf howns honly
    | literal unclaimed earlier =>
      exact .literal (fun f hf howns => unclaimed (mem_opcodes_claimsOf_iff.2 ⟨f, hf, howns⟩)) earlier
  · cases h with
    | @family f listed owns only =>
      have hmem := mem_opcodes_claimsOf_iff.2 ⟨f, listed, owns⟩
      obtain ⟨c, hc⟩ := Option.isSome_iff_exists.1 (find?_key_isSome_iff.2 hmem)
      obtain ⟨same, front, back, split, first⟩ := first?_eq_some_iff.1 hc
      obtain ⟨g, -, ho, howns, -⟩ := origin_of_mem_claimsOf (mem_of_first? hc).1
      rw [← only g (same ▸ howns), ← ho]
      exact .claim split same first
    | literal unowned earlier =>
      refine .literal (fun hmem => ?_) earlier
      obtain ⟨f, hf, howns⟩ := mem_opcodes_claimsOf_iff.1 hmem
      exact unowned f hf howns

theorem clash?_literals_eq_none_iff :
    clash? (claimsOf p.families) (ofEntries .literal ls) = none ↔ p.Free ls :=
  LiteralSet.clash?_literals_eq_none_iff.trans admissible_iff_free

/-- the first claim of an opcode before a literal. -/
theorem first?_eq_some_iff_taken {before : List Entry} {o : Origin} :
    (first? (claimsOf p.families ++ ofEntries .literal before) opcode).map Claim.origin = some o ↔
      p.Taken before opcode o :=
  LiteralSet.first?_eq_some_iff_taken.trans taken_iff

/-- **The clash of the first literal that is not free.** -/
theorem clash?_literals_eq_some_iff {x : Claim × Claim} :
    clash? (claimsOf p.families) (ofEntries .literal ls) = some x ↔
      ∃ before e after, ls = before ++ e :: after ∧ p.Free before ∧ x.2 = ⟨.literal, e⟩ ∧
        first? (claimsOf p.families ++ ofEntries .literal before) e.opcode = some x.1 := by
  simp only [← admissible_iff_free]
  exact LiteralSet.clash?_literals_eq_some_iff

/-! ### families -/

theorem clash?_families_eq_none_iff {fs : List Family} :
    clash? [] (claimsOf fs) = none ↔ fs.Nodup :=
  clash?_nil_eq_none_iff.trans nodup_claimsOf_iff

/-- a list with a repeat has a first one. -/
private theorem exists_first_repeat {α : Type} {as : List α} (h : ¬ as.Nodup) :
    ∃ before a after, as = before ++ a :: after ∧ before.Nodup ∧ a ∈ before := by
  induction as using List.reverseRecOn with
  | nil => exact absurd List.nodup_nil h
  | append_singleton as a ih =>
    by_cases has : as.Nodup
    · refine ⟨as, a, [], rfl, has, ?_⟩
      by_contra ha
      exact h (List.nodup_append.2 ⟨has, List.nodup_singleton a, fun x hx y hy e => by
        rw [List.mem_singleton.1 hy] at e
        exact ha (e ▸ hx)⟩)
    · obtain ⟨before, x, after, rfl, hn, hx⟩ := ih has
      exact ⟨before, x, after ++ [a], List.append_assoc _ _ _, hn, hx⟩

/-- the clash of the first repeated family: its first member is claimed again. -/
theorem clash?_families_eq_some {before : List Family} {f : Family} {m : Entry} {rest : List Entry}
    (hn : before.Nodup) (hf : f ∈ before) (hm : f.members = m :: rest) (after : List Family) :
    ∃ first : Claim, first.origin = .family f ∧
      clash? [] (claimsOf (before ++ f :: after)) = some (first, ⟨.family f, m⟩) := by
  have howns : f.Owns m.opcode := by
    rw [← mem_opcodes_iff, hm]
    exact List.mem_cons_self
  have hmem : m.opcode ∈ (claimsOf before).map Claim.opcode :=
    mem_opcodes_claimsOf_iff.2 ⟨f, hf, howns⟩
  obtain ⟨first, hfirst⟩ := Option.isSome_iff_exists.1 (find?_key_isSome_iff.2 hmem)
  obtain ⟨hin, ho⟩ := mem_of_first? hfirst
  obtain ⟨g, -, hog, -, honly⟩ := origin_of_mem_claimsOf hin
  rw [ho] at honly
  have hclash : clash? [] (claimsOf before) = none := clash?_families_eq_none_iff.2 hn
  refine ⟨first, ?_, ?_⟩
  · rw [hog, honly f howns]
  · rw [claimsOf_append, claimsOf_cons, hm, clash?_append, hclash, Option.none_or]
    exact clash?_cons_of_some hfirst

/-! ### the chart, and what stands against it -/

/-- the members of the families, then the literals. -/
def entries (p : Plan) : List Entry := (claimsOf p.families).map Claim.entry ++ p.literals

theorem chart_eq_ok_iff {c : Chart} :
    p.chart = .ok c ↔ (p.families.Nodup ∧ p.Free p.literals) ∧ c = Chart.ofEntries p.entries := by
  have hiff : (clash? (claimsOf p.families) (ofEntries .literal p.literals)).or
      (clash? [] (claimsOf p.families)) = none ↔ p.families.Nodup ∧ p.Free p.literals := by
    rw [Option.or_eq_none_iff, clash?_literals_eq_none_iff, clash?_families_eq_none_iff, and_comm]
  rw [p.chart_decided.eq_ok_iff, hiff]
  rfl

theorem nodup_opcodes_entries_iff :
    (p.entries.map Entry.opcode).Nodup ↔ p.families.Nodup ∧ p.Free p.literals := by
  have hmap : p.entries.map Entry.opcode =
      (claimsOf p.families ++ ofEntries .literal p.literals).map Claim.opcode := by
    unfold entries
    rw [List.map_append, List.map_append, List.map_map, opcodes_ofEntries]
    rfl
  rw [hmap, ← clash?_nil_eq_none_iff, clash?_append, List.nil_append, Option.or_eq_none_iff,
    clash?_families_eq_none_iff, clash?_literals_eq_none_iff]

theorem nodup_opcodes_entries (hn : p.families.Nodup) (hfree : p.Free p.literals) :
    (p.entries.map Entry.opcode).Nodup :=
  nodup_opcodes_entries_iff.2 ⟨hn, hfree⟩

theorem mem_entries_iff {opcode : UInt8} {o : Operation} :
    ⟨opcode, o⟩ ∈ p.entries ↔
      (∃ f ∈ p.families, ∃ xs, f.recover? opcode = some xs ∧ f.operation xs = .ok o) ∨
        ⟨opcode, o⟩ ∈ p.literals := by
  unfold entries
  rw [List.mem_append, mem_entries_claimsOf_iff]
  simp only [mem_members_iff]
  rfl

theorem length_entries (p : Plan) :
    p.entries.length = (p.families.map fun f => f.operandSpace.length).sum + p.literals.length := by
  unfold entries
  rw [List.length_append, List.length_map, length_claimsOf]

/-- **When a plan has a chart, and what it holds**: no family is repeated and all literals are free;
then the chart has the members of the families and the literals, and nothing else. -/
theorem chart_holds_members_and_literals (p : Plan) :
    ((∃ c, p.chart = .ok c) ↔ p.families.Nodup ∧ p.Free p.literals) ∧
    ∀ c, p.chart = .ok c →
      (∀ opcode o, c.get? opcode = some o ↔
        (∃ f ∈ p.families, ∃ xs, f.recover? opcode = some xs ∧ f.operation xs = .ok o) ∨
          ⟨opcode, o⟩ ∈ p.literals) ∧
      c.size = (p.families.map fun f => f.operandSpace.length).sum + p.literals.length := by
  refine ⟨⟨fun ⟨c, hc⟩ => (chart_eq_ok_iff.1 hc).1, fun h => ⟨_, chart_eq_ok_iff.2 ⟨h, rfl⟩⟩⟩, ?_⟩
  intro c hc
  obtain ⟨⟨hn, hfree⟩, rfl⟩ := chart_eq_ok_iff.1 hc
  have hnodup := nodup_opcodes_entries hn hfree
  constructor
  · intro opcode o
    rw [Chart.get?_ofEntries_eq_some_iff hnodup, mem_entries_iff]
  · rw [Chart.size_ofEntries hnodup, length_entries]

/-- the opcode `0x76` fits the patterns of both families and belongs to neither. -/
theorem chart_holds_members_and_literals_halt :
    ∃ c, Plan.chart ⟨[.registerToPointer, .pointerToRegister], [⟨0x76, .push .AF 1⟩]⟩ = .ok c ∧
      c.get? 0x76 = some (.push .AF 1) ∧
      c.get? 0x77 = some (.load (.pointer .HL) (.register .A) 2) ∧ c.size = 15 := by
  have hspec := chart_holds_members_and_literals
    ⟨[.registerToPointer, .pointerToRegister], [⟨0x76, .push .AF 1⟩]⟩
  have hfree : Plan.Free ⟨[.registerToPointer, .pointerToRegister], [⟨0x76, .push .AF 1⟩]⟩
      [⟨0x76, .push .AF 1⟩] := by decide
  obtain ⟨c, hc⟩ := hspec.1.2 ⟨by decide, hfree⟩
  obtain ⟨hget, hsize⟩ := hspec.2 c hc
  refine ⟨c, hc, (hget _ _).2 (.inr List.mem_cons_self), (hget _ _).2 (.inl ?_), hsize⟩
  exact ⟨.registerToPointer, List.mem_cons_self, [.register .A], rfl, rfl⟩

/-- what a plan fails with. -/
inductive Refuses (p : Plan) : ChartError → Prop
  /-- the first literal that is not free, whatever the families. -/
  | literal {before after : List Entry} {e : Entry} {first : Origin}
      (split : p.literals = before ++ e :: after) (free : p.Free before)
      (taken : p.Taken before e.opcode first) :
      Refuses p (.collision e.opcode first .literal)
  /-- the first family that is repeated, at its first member; the literals are all free. -/
  | repeated {before after : List Family} {f : Family} {m : Entry} {rest : List Entry}
      (free : p.Free p.literals) (split : p.families = before ++ f :: after)
      (nodup : before.Nodup) (again : f ∈ before) (entries : f.entries = .ok (m :: rest)) :
      Refuses p (.collision m.opcode (.family f) (.family f))

/-- **What a plan fails with**: the collision of the first literal that is not free, else the
collision of the first repeated family, and nothing else. -/
theorem chart_eq_error_iff {p : Plan} {err : ChartError} :
    p.chart = .error err ↔ p.Refuses err := by
  rw [chart_eq]
  constructor
  · intro h
    cases hl : clash? (claimsOf p.families) (ofEntries .literal p.literals) with
    | some x =>
      rw [hl] at h
      cases h
      obtain ⟨first, c⟩ := x
      obtain ⟨before, e, after, hsplit, hfree, rfl, hfirst⟩ := clash?_literals_eq_some_iff.1 hl
      refine .literal hsplit hfree (first?_eq_some_iff_taken.1 ?_)
      rw [hfirst]
      rfl
    | none =>
      have hfree := clash?_literals_eq_none_iff.1 hl
      rw [hl, Option.none_or] at h
      have hrep : ¬ p.families.Nodup := by
        intro hn
        rw [clash?_families_eq_none_iff.2 hn] at h
        cases h
      obtain ⟨before, f, after, hsplit, hn, hf⟩ := exists_first_repeat hrep
      obtain ⟨m, rest, hm⟩ := f.exists_members_eq_cons
      obtain ⟨first, ho, hc⟩ := clash?_families_eq_some hn hf hm after
      rw [hsplit, hc] at h
      cases h
      show p.Refuses (.collision m.opcode first.origin (.family f))
      rw [ho]
      exact .repeated hfree hsplit hn hf (by rw [entries_eq, hm])
  · intro h
    cases h with
    | @literal before after e first hsplit hfree htaken =>
      obtain ⟨c, hc, rfl⟩ := Option.map_eq_some_iff.1 (first?_eq_some_iff_taken.2 htaken)
      have hl := clash?_literals_eq_some_iff.2
        ⟨before, e, after, hsplit, hfree, (rfl : (c, (⟨.literal, e⟩ : Claim)).2 = _), hc⟩
      rw [hl]
      rfl
    | @repeated before after f m rest hfree hsplit hn hf hm =>
      rw [entries_eq] at hm
      obtain ⟨first, ho, hc⟩ := clash?_families_eq_some hn hf (Except.ok.inj hm) after
      rw [clash?_literals_eq_none_iff.2 hfree, Option.none_or, hsplit, hc, ← ho]
      rfl

/-! ### the standard plan -/

theorem free_standard : standard.Free standardLiterals := ⟨nodup_standardLiterals, by decide⟩

end Plan

/-- **The standard plan has a chart**: the members of all families, the standard literals, and nothing
else. -/
theorem exists_loadTransfer :
    ∃ c, loadTransfer = .ok c ∧ c.size = 98 ∧
      ∀ opcode o, c.get? opcode = some o ↔
        (∃ f xs, Family.recover? f opcode = some xs ∧ f.operation xs = .ok o) ∨
          ⟨opcode, o⟩ ∈ standardLiterals := by
  have hplan : Plan.standard.families.Nodup ∧ Plan.standard.Free Plan.standard.literals :=
    ⟨Family.nodup_all, Plan.free_standard⟩
  have hn := Plan.nodup_opcodes_entries hplan.1 hplan.2
  refine ⟨_, Plan.chart_eq_ok_iff.2 ⟨hplan, rfl⟩, ?_, fun opcode o => ?_⟩
  · rw [Chart.size_ofEntries hn, Plan.length_entries]
    rfl
  · rw [Chart.get?_ofEntries_eq_some_iff hn, Plan.mem_entries_iff]
    simp only [Plan.standard, Family.mem_all, true_and]

end OpcodeChart
