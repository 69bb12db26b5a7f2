import OpcodeChart.Proofs.Draft

/-!
# Walks through a chart

A chart is read in four ways: an opcode is looked up or asked for, the opcodes are listed, and a
cursor walks the entries.  All of them read the same entries, and the walk does so at each of its
steps: what it has yielded and what it has left are the chart.

* `Cursor.Walked c k items rest`     what `k` steps of a walk through the chart `c` come to;
* `Cursor.Walked.next`               a step of the walk;
* `Cursor.Walked.take`               a walk of any length;
* `Chart.eq_iff_get?`                **equal charts answer alike**;
* `Draft.walks_and_lookups_agree`    **every way to read the chart of a draft reads its entries**.
-/

namespace OpcodeChart

namespace Cursor

variable {c : Chart} {k : Nat} {items : List Entry} {cur rest : Cursor} {e : Entry}

/-- what `k` steps of a walk through `c` come to: `items` were yielded, `rest` is left.  A step at
the end of the chart yields nothing. -/
structure Walked (c : Chart) (k : Nat) (items : List Entry) (rest : Cursor) : Prop where
  whole : items ++ rest.rest = c.entries
  count : items.length = min k c.size

theorem next?_eq_none_iff : cur.next? = none ↔ cur.rest = [] := by
  obtain ⟨_ | ⟨e, rest⟩⟩ := cur
  · exact iff_of_true rfl rfl
  · exact iff_of_false (by rintro ⟨⟩) (by rintro ⟨⟩)

theorem next?_eq_some_iff : cur.next? = some (e, rest) ↔ cur.rest = e :: rest.rest := by
  obtain ⟨_ | ⟨x, later⟩⟩ := cur
  · exact iff_of_false (by rintro ⟨⟩) (by rintro ⟨⟩)
  · obtain ⟨rest⟩ := rest
    show some (x, Cursor.mk later) = some (e, Cursor.mk rest) ↔ x :: later = e :: rest
    rw [Option.some_inj, Prod.mk.injEq, Cursor.mk.injEq, List.cons.injEq]

theorem next?_map_fst (cur : Cursor) : cur.next?.map Prod.fst = cur.rest.head? := by
  obtain ⟨_ | ⟨e, rest⟩⟩ := cur <;> rfl

namespace Walked

theorem start (c : Chart) : Walked c 0 [] c.cursor := ⟨rfl, (Nat.zero_min _).symm⟩

theorem size_eq (h : Walked c k items rest) : rest.size = c.size - min k c.size := by
  have hlen : (items ++ rest.rest).length = c.size := congrArg List.length h.whole
  rw [List.length_append, h.count] at hlen
  show rest.rest.length = _
  omega

/-- nothing is yielded out of turn. -/
theorem items_eq (h : Walked c k items rest) : items = c.entries.take (min k c.size) := by
  rw [← h.whole, ← h.count, List.take_left]

theorem rest_eq (h : Walked c k items rest) : rest.rest = c.entries.drop (min k c.size) := by
  rw [← h.whole, ← h.count, List.drop_left]

/-- what is yielded stands in the order of the chart. -/
theorem ascending (h : Walked c k items rest) :
    items.Pairwise fun a b => a.opcode < b.opcode := by
  rw [h.items_eq]
  exact c.sorted.take

/-- **A step of the walk** yields the next entry, or finds nothing left. -/
theorem next (h : Walked c k items cur) :
    (cur.next? = none ∧ Walked c (k + 1) items cur) ∨
      ∃ e rest, cur.next? = some (e, rest) ∧ Walked c (k + 1) (items ++ [e]) rest := by
  have hsize := h.size_eq
  have hcount := h.count
  cases hnext : cur.next? with
  | none =>
    have hzero : cur.size = 0 := congrArg List.length (next?_eq_none_iff.1 hnext)
    exact .inl ⟨rfl, h.whole, by omega⟩
  | some p =>
    obtain ⟨e, rest⟩ := p
    have hcur := next?_eq_some_iff.1 hnext
    have hsucc : cur.size = rest.rest.length + 1 := congrArg List.length hcur
    refine .inr ⟨e, rest, rfl, ?_, ?_⟩
    · rw [List.append_assoc, List.singleton_append, ← hcur]
      exact h.whole
    · rw [List.length_append]
      show items.length + 1 = _
      omega

/-- the entry that the next step finds, if the walk is not at the end of the chart. -/
theorem next?_fst (h : Walked c k items cur) : cur.next?.map Prod.fst = c.entries[k]? := by
  rw [next?_map_fst, h.rest_eq, List.head?_drop]
  rcases Nat.le_total k c.size with hk | hk
  · rw [Nat.min_eq_left hk]
  · rw [Nat.min_eq_right hk, List.getElem?_eq_none hk]
    exact List.getElem?_eq_none (Nat.le_refl _)

/-- **A walk of any length**, continued from any of its steps. -/
theorem take (h : Walked c k items cur) (n : Nat) :
    Walked c (k + n) (items ++ (Cursor.take n cur).1) (Cursor.take n cur).2 := by
  induction n generalizing k items cur with
  | zero =>
    rw [Cursor.take, List.append_nil]
    exact h
  | succ n ih =>
    rcases h.next with ⟨hnext, hsame⟩ | ⟨e, rest, hnext, hstep⟩
    · -- at the end, further steps change nothing but their number
      have hstop : Cursor.take (n + 1) cur = ([], cur) := by rw [Cursor.take, hnext]
      have hempty := next?_eq_none_iff.1 hnext
      have hcount := h.count
      have hsize : cur.size = 0 := congrArg List.length hempty
      have hleft := h.size_eq
      rw [hstop, List.append_nil]
      exact ⟨h.whole, by omega⟩
    · have hgo : Cursor.take (n + 1) cur =
          (e :: (Cursor.take n rest).1, (Cursor.take n rest).2) := by rw [Cursor.take, hnext]
      have hrun := ih hstep
      rw [List.append_assoc, List.singleton_append] at hrun
      rw [hgo, Nat.add_comm n 1, ← Nat.add_assoc]
      exact hrun

/-- as many steps as are left yield what is left. -/
theorem whole_take (h : Walked c k items rest) :
    items ++ (Cursor.take rest.size rest).1 = c.entries := by
  rw [take_eq]
  show items ++ rest.rest.take rest.rest.length = _
  rw [List.take_length]
  exact h.whole

end Walked

/-- a walk from the first entry. -/
theorem walked_of_take (h : Cursor.take k c.cursor = (items, rest)) : Walked c k items rest := by
  have hrun := (Walked.start c).take k
  rw [Nat.zero_add, List.nil_append, h] at hrun
  exact hrun

end Cursor

/-- **Equal charts answer alike**, and no others do. -/
theorem Chart.eq_iff_get? {a b : Chart} : a = b ↔ ∀ opcode, a.get? opcode = b.get? opcode := by
  refine ⟨fun h opcode => by rw [h], fun h => eq_of_entries_perm ?_⟩
  have hnodup (c : Chart) : c.entries.Nodup := List.Nodup.of_map Entry.opcode c.nodup_opcodes
  rw [List.perm_ext_iff_of_nodup (hnodup a) (hnodup b)]
  rintro ⟨opcode, o⟩
  rw [← get?_eq_some_iff, ← get?_eq_some_iff, h opcode]

namespace Draft

/-- **Every way to read the chart of a draft reads its entries**, in whatever order they were
claimed.  A walk of `k` steps yields the first entries, ascending, and knows how many are left;
these follow at the next steps, and after the last of them there is none.  A whole walk goes through
the listed opcodes, and yields what can be looked up; an opcode is contained exactly if it can.  A
chart that answers alike is the same chart. -/
theorem walks_and_lookups_agree {d : Draft} {c : Chart} (hc : d.chart = .ok c) :
    c.entries.Perm (d.claims.map Claim.entry) ∧
    (∀ k items rest, Cursor.take k c.cursor = (items, rest) →
      items = c.entries.take (min k c.size) ∧
      items.Pairwise (fun a b => a.opcode < b.opcode) ∧
      rest.size = c.size - min k c.size ∧
      rest.bounds = (c.size - min k c.size, some (c.size - min k c.size)) ∧
      rest.next?.map Prod.fst = c.entries[k]? ∧
      items ++ (Cursor.take rest.size rest).1 = c.entries ∧
      (items ++ (Cursor.take rest.size rest).1).map Entry.opcode = c.opcodes ∧
      ∀ opcode o, ⟨opcode, o⟩ ∈ items ++ (Cursor.take rest.size rest).1 ↔
        c.get? opcode = some o) ∧
    (∀ opcode, c.contains opcode = true ↔ ∃ o, c.get? opcode = some o) ∧
    ∀ (e : Draft) (b : Chart), e.chart = .ok b →
      (c = b ↔ ∀ opcode, c.get? opcode = b.get? opcode) := by
  refine ⟨chart_eq_ok_iff_perm.1 hc, fun k items rest hwalk => ?_, fun opcode => ?_,
    fun e b _ => Chart.eq_iff_get?⟩
  · have h := Cursor.walked_of_take hwalk
    refine ⟨h.items_eq, h.ascending, h.size_eq, ?_, h.next?_fst, h.whole_take, ?_, ?_⟩
    · rw [Cursor.bounds, h.size_eq]
    · rw [h.whole_take, Chart.opcodes]
    · intro opcode o
      rw [h.whole_take, Chart.get?_eq_some_iff]
  · rw [c.contains_eq_isSome_get?, Option.isSome_iff_exists]

/-- two pushes, claimed in descending order: the first step of a walk, and a fifth. -/
theorem walks_and_lookups_agree_push :
    ∃ c, chart ⟨[⟨.family .push, ⟨0xD5, .push .DE 4⟩⟩, ⟨.family .push, ⟨0xC5, .push .BC 4⟩⟩]⟩ =
        .ok c ∧
      Cursor.take 1 c.cursor = ([⟨0xC5, .push .BC 4⟩], ⟨[⟨0xD5, .push .DE 4⟩]⟩) ∧
      (Cursor.take 1 c.cursor).2.size = 1 ∧
      (Cursor.take 5 c.cursor).2.next?.map Prod.fst = none := by
  have hc : chart ⟨[⟨.family .push, ⟨0xD5, .push .DE 4⟩⟩,
      ⟨.family .push, ⟨0xC5, .push .BC 4⟩⟩]⟩ =
      .ok (Chart.ofEntries [⟨0xD5, .push .DE 4⟩, ⟨0xC5, .push .BC 4⟩]) :=
    chart_eq_ok_iff.2 ⟨by decide, rfl⟩
  obtain ⟨-, hwalk, -, -⟩ := walks_and_lookups_agree hc
  obtain ⟨-, -, hsize, -⟩ := hwalk 1 _ _ rfl
  obtain ⟨-, -, -, -, hnext, -⟩ := hwalk 5 _ _ rfl
  exact ⟨_, hc, rfl, hsize, hnext⟩

end Draft

end OpcodeChart
