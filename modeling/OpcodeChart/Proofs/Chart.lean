import Mathlib.Data.List.Perm.Subperm
import OpcodeChart.Chart
import OpcodeChart.Proofs.Outcome

/-!
# What a chart holds

A chart is a set of entries without two of one opcode; its order is no more than a normal form.

* `Chart.nodup_opcodes`            no opcode stands twice in a chart;
* `Chart.get?_eq_some_iff`         looking up an opcode finds exactly the entries;
* `Chart.size_le`                  a chart has at most 256 entries;
* `Chart.entries_insert_perm`      a new opcode joins, and nothing else changes;
* `Chart.entries_ofEntries_perm`   **entries of distinct opcodes are all kept**, in any order;
* `Chart.entries_perm_iff`         **a chart is made of its entries**, in any order.
-/

namespace OpcodeChart.Chart

theorem place_perm {e : Entry} {xs : List Entry} (h : e.opcode ∉ xs.map Entry.opcode) :
    (place e xs).Perm (e :: xs) := by
  induction xs with
  | nil => exact List.Perm.refl _
  | cons x later ih =>
    rw [List.map_cons, List.mem_cons, not_or] at h
    have hx : ¬ e.opcode = x.opcode := h.1
    by_cases hlt : e.opcode < x.opcode
    · have hp : place e (x :: later) = e :: x :: later := if_pos hlt
      rw [hp]
    · have hp : place e (x :: later) = x :: place e later := by
        show (if _ then _ else _) = _
        rw [if_neg hlt, if_neg hx]
      rw [hp]
      exact ((ih h.2).cons x).trans (List.Perm.swap e x later)

variable {c : Chart} {opcode : UInt8} {o : Operation} {e : Entry}

theorem nodup_opcodes (c : Chart) : (c.entries.map Entry.opcode).Nodup := by
  apply List.pairwise_map.2
  exact c.sorted.imp fun h => UInt8.ne_of_lt h

theorem entry?_eq_some_iff : c.entry? opcode = some e ↔ e ∈ c.entries ∧ e.opcode = opcode :=
  find?_key_eq_some_iff c.nodup_opcodes

/-- **Looking up an opcode finds exactly the entries.** -/
theorem get?_eq_some_iff : c.get? opcode = some o ↔ ⟨opcode, o⟩ ∈ c.entries := by
  unfold get?
  rw [Option.map_eq_some_iff]
  constructor
  · intro h
    obtain ⟨e, he, rfl⟩ := h
    obtain ⟨hmem, rfl⟩ := entry?_eq_some_iff.1 he
    exact hmem
  · intro h
    exact ⟨⟨opcode, o⟩, entry?_eq_some_iff.2 ⟨h, rfl⟩, rfl⟩

theorem mem_opcodes_iff : opcode ∈ c.opcodes ↔ ∃ o, c.get? opcode = some o := by
  simp only [get?_eq_some_iff]
  refine List.mem_map.trans ⟨?_, fun ⟨o, h⟩ => ⟨_, h, rfl⟩⟩
  rintro ⟨e, he, rfl⟩
  exact ⟨e.operation, he⟩

/-- a chart whose entries all stand in `d` is read alike in `d`. -/
theorem get?_eq_of_mem_opcodes {d : Chart}
    (h : ∀ opcode o, c.get? opcode = some o → d.get? opcode = some o) :
    ∀ opcode ∈ c.opcodes, d.get? opcode = c.get? opcode := by
  intro opcode hc
  obtain ⟨o, ho⟩ := mem_opcodes_iff.1 hc
  rw [ho, h opcode o ho]

/-- there are no more opcodes than bytes. -/
theorem size_le (c : Chart) : c.size ≤ 256 := by
  have hn : (c.opcodes.map UInt8.toNat).Nodup := c.nodup_opcodes.map fun _ _ => UInt8.toNat_inj.1
  have hsub : c.opcodes.map UInt8.toNat ⊆ List.range 256 := by
    intro n hmem
    obtain ⟨opcode, -, rfl⟩ := List.mem_map.1 hmem
    exact List.mem_range.2 opcode.toNat_lt
  calc c.size = (c.opcodes.map UInt8.toNat).length := by
        rw [List.length_map, opcodes, List.length_map, size]
    _ ≤ (List.range 256).length := (hn.subperm hsub).length_le
    _ = 256 := List.length_range

theorem entries_insert_perm (h : e.opcode ∉ c.entries.map Entry.opcode) :
    (c.insert e).entries.Perm (e :: c.entries) :=
  place_perm h

/-- the run of insertions, from a chart with none of the opcodes. -/
theorem entries_foldl_insert_perm (c : Chart) (es : List Entry)
    (h : ((es ++ c.entries).map Entry.opcode).Nodup) :
    (es.foldl insert c).entries.Perm (es ++ c.entries) := by
  induction es generalizing c with
  | nil => exact List.Perm.refl _
  | cons e es ih =>
    have hnew : e.opcode ∉ c.entries.map Entry.opcode := by
      rw [List.cons_append, List.map_cons, List.map_append] at h
      intro he
      exact (List.nodup_cons.1 h).1 (List.mem_append_right _ he)
    have hp : (es ++ (c.insert e).entries).Perm (e :: es ++ c.entries) :=
      ((entries_insert_perm hnew).append_left es).trans List.perm_middle
    have hnodup := (hp.map Entry.opcode).nodup_iff.2 h
    exact (ih (c.insert e) hnodup).trans hp

/-- **Entries of distinct opcodes are all kept.** -/
theorem entries_ofEntries_perm {es : List Entry} (h : (es.map Entry.opcode).Nodup) :
    (ofEntries es).entries.Perm es := by
  have hempty : es ++ empty.entries = es := List.append_nil es
  have hp := entries_foldl_insert_perm empty es (by rw [hempty]; exact h)
  rw [hempty] at hp
  exact hp

/-- what the chart of distinct opcodes answers. -/
theorem get?_ofEntries_eq_some_iff {es : List Entry} (h : (es.map Entry.opcode).Nodup) :
    (ofEntries es).get? opcode = some o ↔ ⟨opcode, o⟩ ∈ es := by
  rw [get?_eq_some_iff, (entries_ofEntries_perm h).mem_iff]

theorem size_ofEntries {es : List Entry} (h : (es.map Entry.opcode).Nodup) :
    (ofEntries es).size = es.length :=
  (entries_ofEntries_perm h).length_eq

/-- two charts with the same entries are equal, for their order is fixed. -/
theorem eq_of_entries_perm {c d : Chart} (h : c.entries.Perm d.entries) : c = d := by
  refine Chart.ext (h.eq_of_pairwise (fun a b _ _ hab hba => ?_) c.sorted d.sorted)
  exact absurd hba (UInt8.lt_asymm hab)

/-- **A chart is made of its entries**, in any order, for their opcodes are distinct. -/
theorem entries_perm_iff {c : Chart} {es : List Entry} :
    c.entries.Perm es ↔ (es.map Entry.opcode).Nodup ∧ c = ofEntries es := by
  constructor
  · intro h
    have hn : (es.map Entry.opcode).Nodup := (h.map Entry.opcode).nodup_iff.1 c.nodup_opcodes
    exact ⟨hn, eq_of_entries_perm (h.trans (entries_ofEntries_perm hn).symm)⟩
  · rintro ⟨hn, rfl⟩
    exact entries_ofEntries_perm hn

/-- a walk that is long enough yields every entry. -/
theorem take_cursor {n : Nat} (h : c.size ≤ n) : (Cursor.take n c.cursor).1 = c.entries := by
  rw [Cursor.take_eq]
  exact List.take_of_length_le h

end OpcodeChart.Chart
