import OpcodeChart.Proofs.Clash

/-!
# The chart of a draft

A draft has a chart exactly when no opcode is claimed twice; else the claims up to the first repeated
opcode, and nothing behind them, decide the error.  Literals may be admitted beside a draft or be
claimed at its end: the same literals pass, and the same clash is reported.

Order and origins decide how a draft without a chart is refused, but not whether it is, and they
leave no trace in a chart.  So a chart can be taken apart and drafted again in whatever order.

* `Claim.FirstRepeat cs i j first second`   where an opcode is first claimed again;
* `Claim.clash?_eq_some_of_prefix`          a clash stays the first, whatever follows;
* `Draft.chart_eq_ok_iff`                   a draft of distinct opcodes has all its entries in its
                                            chart;
* `Draft.chart_eq_ok_iff_perm`              its entries, in any order, are those of the chart;
* `Draft.exists_firstRepeat_of_not_nodup`   any other draft is refused for its first repeat;
* `Draft.chart_or_first_repeat`             **what the chart of a draft holds, or which repeat
                                            prevents it**;
* `Draft.chart_addAll_decided`              the chart of a draft with literals behind it;
* `Draft.literals_clash_alike`              **admission and drafting find the same clash**;
* `Draft.feed d batches`                    a draft fed with batches of entries, each of one origin;
* `Draft.chart_eq_ok_iff_of_entries_perm`   **drafts of the same entries have the same chart, or
                                            none**;
* `Draft.eq_iff_entries_perm`               **equal charts come from drafts of the same entries**;
* `Draft.chart_feed_eq_ok`                  a chart's entries, fed to an empty draft, make it;
* `Draft.chart_of_entries_alone`            **the chart of a draft hangs on its entries alone**.
-/

namespace OpcodeChart

open Claim

namespace Claim

/-- `second`, at `j`, is the first claim of an opcode that is claimed before; `first`, at `i`, is the
one claim of this opcode before it. -/
structure FirstRepeat (cs : List Claim) (i j : Nat) (first second : Claim) : Prop where
  lt : i < j
  first_at : cs[i]? = some first
  second_at : cs[j]? = some second
  same : first.opcode = second.opcode
  least : ∀ {a b x y}, a < b → cs[a]? = some x → cs[b]? = some y → x.opcode = y.opcode → j ≤ b
  only : ∀ {a x}, a < j → cs[a]? = some x → x.opcode = second.opcode → a = i

variable {cs before after : List Claim} {first second : Claim} {i : Nat}

theorem index_eq_of_opcode_eq (h : (cs.map Claim.opcode).Nodup) {a b : Nat} {x y : Claim}
    (hx : cs[a]? = some x) (hy : cs[b]? = some y) (e : x.opcode = y.opcode) : a = b := by
  have ha : (cs.map Claim.opcode)[a]? = some x.opcode := by
    rw [List.getElem?_map, hx]
    rfl
  have hb : (cs.map Claim.opcode)[b]? = some x.opcode := by
    rw [List.getElem?_map, hy, e]
    rfl
  obtain ⟨hlt, -⟩ := List.getElem?_eq_some_iff.1 ha
  exact (List.getElem?_inj hlt h).1 (ha.trans hb.symm)

/-- behind claims of distinct opcodes, a claim of one of these is the first repeat. -/
theorem firstRepeat_of_split (hn : (before.map Claim.opcode).Nodup) (hf : before[i]? = some first)
    (e : first.opcode = second.opcode) :
    FirstRepeat (before ++ second :: after) i before.length first second := by
  obtain ⟨hlt, -⟩ := List.getElem?_eq_some_iff.1 hf
  refine ⟨hlt, ?_, ?_, e, fun {a b x y} hab hx hy hxy => ?_, fun {a x} ha hx hxy => ?_⟩
  · rw [List.getElem?_append_left hlt, hf]
  · rw [List.getElem?_append_right (Nat.le_refl _), Nat.sub_self]
    rfl
  · -- an earlier repeat would lie in `before`, where no opcode comes twice
    by_contra hb
    rw [Nat.not_le] at hb
    rw [List.getElem?_append_left (Nat.lt_trans hab hb)] at hx
    rw [List.getElem?_append_left hb] at hy
    exact Nat.ne_of_lt hab (index_eq_of_opcode_eq hn hx hy hxy)
  · rw [List.getElem?_append_left ha] at hx
    exact index_eq_of_opcode_eq hn hx hf (hxy.trans e.symm)

/-- a clash stays the first, whatever follows. -/
theorem clash?_eq_some_of_prefix {p : Claim × Claim} (h : clash? [] before = some p)
    (hp : before <+: cs) : clash? [] cs = some p := by
  obtain ⟨later, rfl⟩ := hp
  rw [clash?_append, h, Option.some_or]

/-- the clash is the first repeat, and stands at the end of the claims that decide it. -/
theorem exists_firstRepeat (h : clash? [] cs = some (first, second)) :
    ∃ i j, FirstRepeat cs i j first second ∧ clash? [] (cs.take (j + 1)) = some (first, second) := by
  obtain ⟨before, after, rfl, hn, hf⟩ := clash?_eq_some_iff.1 h
  obtain ⟨hmem, e⟩ := mem_of_first? hf
  obtain ⟨i, hi⟩ := List.mem_iff_getElem?.1 hmem
  -- what decides the clash ends with `second`, at the index after `before`
  have htake : (before ++ second :: after).take (before.length + 1) = before ++ [second] := by
    rw [List.take_length_add_append]
    rfl
  refine ⟨i, before.length, firstRepeat_of_split (clash?_nil_eq_none_iff.1 hn) hi e, ?_⟩
  rw [htake]
  exact clash?_eq_some_iff.2 ⟨before, [], rfl, hn, hf⟩

end Claim

namespace Draft

variable {d : Draft} {c : Chart}

/-- **A draft of distinct opcodes has all its entries in its chart.** -/
theorem chart_eq_ok_iff :
    d.chart = .ok c ↔
      (d.claims.map Claim.opcode).Nodup ∧ c = Chart.ofEntries (d.claims.map Claim.entry) := by
  rw [d.chart_decided.eq_ok_iff, clash?_nil_eq_none_iff]

/-- the chart of a draft is the one with its entries, in any order. -/
theorem chart_eq_ok_iff_perm :
    d.chart = .ok c ↔ c.entries.Perm (d.claims.map Claim.entry) := by
  rw [chart_eq_ok_iff, Chart.entries_perm_iff, List.map_map]
  rfl

theorem get?_chart (hc : d.chart = .ok c) {opcode : UInt8} {o : Operation} :
    c.get? opcode = some o ↔ ⟨opcode, o⟩ ∈ d.claims.map Claim.entry :=
  Chart.get?_eq_some_iff.trans (chart_eq_ok_iff_perm.1 hc).mem_iff

theorem size_chart (hc : d.chart = .ok c) : c.size = d.size :=
  (chart_eq_ok_iff_perm.1 hc).length_eq.trans (List.length_map _)

/-- more claims than opcodes never make a chart. -/
theorem exists_error_of_size (h : 256 < d.size) : ∃ err, d.chart = .error err := by
  cases hc : d.chart with
  | error err => exact ⟨err, rfl⟩
  | ok c =>
    have hle := c.size_le
    rw [size_chart hc] at hle
    omega

/-- the first repeat of an opcode is reported, whatever follows it. -/
theorem exists_firstRepeat_of_not_nodup (hn : ¬ (d.claims.map Claim.opcode).Nodup) :
    ∃ i j first second, FirstRepeat d.claims i j first second ∧
      ∀ e : Draft, d.claims.take (j + 1) <+: e.claims →
        e.chart = .error (.collision second.opcode first.origin second.origin) := by
  cases h : clash? [] d.claims with
  | none => exact absurd (clash?_nil_eq_none_iff.1 h) hn
  | some p =>
    obtain ⟨first, second⟩ := p
    obtain ⟨i, j, hrep, hbefore⟩ := exists_firstRepeat h
    refine ⟨i, j, first, second, hrep, fun e he => ?_⟩
    rw [e.chart_decided.eq_error_iff, clash?_eq_some_of_prefix hbefore he]
    rfl

/-- **What the chart of a draft holds, or which repeat prevents it**: there is a chart exactly when
the opcodes are distinct, and it holds the claimed entries, all of them; else the first repeat is
reported, whatever follows it.  More claims than opcodes never make a chart. -/
theorem chart_or_first_repeat (d : Draft) :
    ((∃ c, d.chart = .ok c) ↔ (d.claims.map Claim.opcode).Nodup) ∧
    (∀ c, d.chart = .ok c →
      (∀ opcode o, c.get? opcode = some o ↔ ∃ x ∈ d.claims, x.entry = ⟨opcode, o⟩) ∧
      c.size = d.claims.length) ∧
    (¬ (d.claims.map Claim.opcode).Nodup → ∃ i j first second,
      FirstRepeat d.claims i j first second ∧
      d.chart = .error (.collision second.opcode first.origin second.origin) ∧
      ∀ e : Draft, d.claims.take (j + 1) <+: e.claims → e.chart = d.chart) ∧
    (256 < d.claims.length → ∃ err, d.chart = .error err) := by
  refine ⟨⟨fun ⟨c, hc⟩ => (chart_eq_ok_iff.1 hc).1, fun h => ⟨_, chart_eq_ok_iff.2 ⟨h, rfl⟩⟩⟩,
    fun c hc => ⟨fun opcode o => (get?_chart hc).trans List.mem_map, size_chart hc⟩, fun hn => ?_,
    exists_error_of_size⟩
  obtain ⟨i, j, first, second, hrep, hreport⟩ := exists_firstRepeat_of_not_nodup hn
  have hd := hreport d (List.take_prefix _ _)
  exact ⟨i, j, first, second, hrep, hd, fun e he => (hreport e he).trans hd.symm⟩

/-- a literal under the opcode of a family, whatever the family claims after it. -/
theorem chart_or_first_repeat_push :
    chart ⟨[⟨.family .push, ⟨0xC5, .push .BC 4⟩⟩, ⟨.literal, ⟨0xC5, .push .BC 3⟩⟩,
      ⟨.family .push, ⟨0xC5, .push .BC 4⟩⟩]⟩ = .error (.collision 0xC5 (.family .push) .literal) := by
  obtain ⟨-, -, hrep, -⟩ := chart_or_first_repeat
    ⟨[⟨.family .push, ⟨0xC5, .push .BC 4⟩⟩, ⟨.literal, ⟨0xC5, .push .BC 3⟩⟩]⟩
  obtain ⟨i, j, first, second, hfirst, herr, hbehind⟩ := hrep (by decide)
  have hij := hfirst.lt
  obtain ⟨hj, -⟩ := List.getElem?_eq_some_iff.1 hfirst.second_at
  change j < 2 at hj
  obtain rfl : j = 1 := by omega
  obtain rfl : i = 0 := by omega
  cases hfirst.first_at
  cases hfirst.second_at
  exact (hbehind _ ⟨[⟨.family .push, ⟨0xC5, .push .BC 4⟩⟩], rfl⟩).trans herr

/-! ### literals behind a draft -/

theorem entries_addAll (d : Draft) (ls : List Entry) :
    (d.addAll .literal ls).claims.map Claim.entry = d.claims.map Claim.entry ++ ls := by
  show (d.claims ++ ofEntries .literal ls).map Claim.entry = _
  rw [List.map_append, entries_ofEntries]

/-- the chart of a draft with literals behind it: the draft's own clash comes first. -/
theorem chart_addAll_decided (d : Draft) (ls : List Entry) :
    Decides ((clash? [] d.claims).or (clash? d.claims (ofEntries .literal ls)))
      (d.addAll .literal ls).chart
      (· = Chart.ofEntries (d.claims.map Claim.entry ++ ls)) := by
  have h := (d.addAll .literal ls).chart_decided
  rw [entries_addAll] at h
  have happend := clash?_append [] d.claims (ofEntries .literal ls)
  rw [List.nil_append] at happend
  rw [← happend]
  exact h

/-- what a draft with literals behind it holds: the entries of the draft and the literals. -/
theorem get?_chart_addAll {ls : List Entry} {q : Chart} (hc : d.chart = .ok c)
    (hq : (d.addAll .literal ls).chart = .ok q) :
    (∀ opcode o, q.get? opcode = some o ↔ c.get? opcode = some o ∨ ⟨opcode, o⟩ ∈ ls) ∧
      q.size = c.size + ls.length := by
  refine ⟨fun opcode o => ?_, ?_⟩
  · rw [get?_chart hq, get?_chart hc, entries_addAll, List.mem_append]
  · rw [size_chart hq, size_chart hc, size_addAll]

/-- **Admission and drafting find the same clash.**  Literals that are admitted beside a draft change
nothing about its errors when they are claimed at its end, and join its chart; where the admission
fails, the draft with these literals fails alike, unless it failed before. -/
theorem literals_clash_alike (d : Draft) (ls : List Entry) :
    (∀ s, LiteralSet.gather ls d.claims = .ok s →
      (∀ err, (d.addAll .literal ls).chart = .error err ↔ d.chart = .error err) ∧
      ∀ c q, d.chart = .ok c → (d.addAll .literal ls).chart = .ok q →
        (∀ opcode o, q.get? opcode = some o ↔ c.get? opcode = some o ∨ ⟨opcode, o⟩ ∈ ls) ∧
        q.size = c.size + ls.length ∧
        ∀ opcode ∈ c.opcodes, q.get? opcode = c.get? opcode) ∧
    ∀ err, LiteralSet.gather ls d.claims = .error err →
      (∀ c, d.chart = .ok c → (d.addAll .literal ls).chart = .error err) ∧
      ∀ err', d.chart = .error err' → (d.addAll .literal ls).chart = .error err' := by
  have hadmit := LiteralSet.gather_decided ls d.claims
  have hall := d.chart_addAll_decided ls
  refine ⟨fun s hs => ⟨fun err => ?_, fun c q hc hq => ?_⟩, fun err hg => ⟨fun c hc => ?_,
    fun err' hd => ?_⟩⟩
  · have hnone := hadmit.exists_ok_iff.1 ⟨s, hs⟩
    rw [hall.eq_error_iff, d.chart_decided.eq_error_iff, hnone, Option.or_none]
  · obtain ⟨hget, hsize⟩ := get?_chart_addAll hc hq
    exact ⟨hget, hsize, Chart.get?_eq_of_mem_opcodes fun opcode o h => (hget opcode o).2 (.inl h)⟩
  · have hnone := clash?_nil_eq_none_iff.2 (chart_eq_ok_iff.1 hc).1
    rw [hall.eq_error_iff, hnone, Option.none_or]
    exact hadmit.eq_error_iff.1 hg
  · obtain ⟨p, hp, rfl⟩ := Option.map_eq_some_iff.1 (d.chart_decided.eq_error_iff.1 hd)
    rw [hall.eq_error_iff, hp, Option.some_or]
    rfl

/-- beside a draft of one claim, a literal of another opcode is admitted and joins the chart; behind
it, a literal under the opcode of the claim is refused. -/
theorem literals_clash_alike_push :
    (∃ c q, chart ⟨[⟨.family .push, ⟨0xC5, .push .BC 4⟩⟩]⟩ = .ok c ∧
      chart ⟨[⟨.family .push, ⟨0xC5, .push .BC 4⟩⟩, ⟨.literal, ⟨0xE8, .pop .AF 4⟩⟩]⟩ = .ok q ∧
      q.get? 0xE8 = some (.pop .AF 4) ∧ q.get? 0xC5 = c.get? 0xC5 ∧ q.size = c.size + 1) ∧
    LiteralSet.gather [⟨0xE8, .pop .AF 4⟩, ⟨0xC5, .push .BC 3⟩]
        [⟨.family .push, ⟨0xC5, .push .BC 4⟩⟩] = .error (.collision 0xC5 (.family .push) .literal) ∧
      chart ⟨[⟨.family .push, ⟨0xC5, .push .BC 4⟩⟩, ⟨.literal, ⟨0xE8, .pop .AF 4⟩⟩,
        ⟨.literal, ⟨0xC5, .push .BC 3⟩⟩]⟩ = .error (.collision 0xC5 (.family .push) .literal) := by
  have hc : chart ⟨[⟨.family .push, ⟨0xC5, .push .BC 4⟩⟩]⟩ =
      .ok (Chart.ofEntries [⟨0xC5, .push .BC 4⟩]) := chart_eq_ok_iff.2 ⟨by decide, rfl⟩
  refine ⟨?_, ?_⟩
  · have hg : LiteralSet.gather [⟨0xE8, .pop .AF 4⟩] [⟨.family .push, ⟨0xC5, .push .BC 4⟩⟩] =
        .ok ⟨[⟨0xE8, .pop .AF 4⟩], by decide⟩ := rfl
    obtain ⟨hadmitted, -⟩ := literals_clash_alike ⟨[⟨.family .push, ⟨0xC5, .push .BC 4⟩⟩]⟩
      [⟨0xE8, .pop .AF 4⟩]
    obtain ⟨herror, hjoin⟩ := hadmitted _ hg
    cases hq : (addAll ⟨[⟨.family .push, ⟨0xC5, .push .BC 4⟩⟩]⟩ .literal
        [⟨0xE8, .pop .AF 4⟩]).chart with
    | error err => cases hc.symm.trans ((herror err).1 hq)
    | ok q =>
      obtain ⟨hget, hsize, hkeep⟩ := hjoin _ q hc hq
      exact ⟨_, q, hc, hq, (hget _ _).2 (.inr List.mem_cons_self), hkeep _ (by decide), hsize⟩
  · have hg : LiteralSet.gather [⟨0xE8, .pop .AF 4⟩, ⟨0xC5, .push .BC 3⟩]
        [⟨.family .push, ⟨0xC5, .push .BC 4⟩⟩] = .error (.collision 0xC5 (.family .push) .literal) :=
      rfl
    obtain ⟨-, hfail⟩ := literals_clash_alike ⟨[⟨.family .push, ⟨0xC5, .push .BC 4⟩⟩]⟩
      [⟨0xE8, .pop .AF 4⟩, ⟨0xC5, .push .BC 3⟩]
    exact ⟨hg, (hfail _ hg).1 _ hc⟩

variable {p q : Draft} {a b : Chart}

/-! ### feeding a draft -/

/-- further batches of entries, each of one origin. -/
def feed (d : Draft) (batches : List (Origin × List Entry)) : Draft :=
  batches.foldl (fun d batch => d.addAll batch.1 batch.2) d

theorem claims_feed (d : Draft) (batches : List (Origin × List Entry)) :
    (d.feed batches).claims =
      d.claims ++ batches.flatMap fun batch => ofEntries batch.1 batch.2 := by
  induction batches generalizing d with
  | nil => exact (List.append_nil _).symm
  | cons batch batches ih =>
    show ((d.addAll batch.1 batch.2).feed batches).claims = _
    rw [ih, claims_addAll, List.flatMap_cons, ← List.append_assoc]
    rfl

theorem entries_feed_empty (batches : List (Origin × List Entry)) :
    (empty.feed batches).claims.map Claim.entry = batches.flatMap Prod.snd := by
  rw [claims_feed]
  show (batches.flatMap fun batch => ofEntries batch.1 batch.2).map Claim.entry = _
  rw [List.map_flatMap]
  simp only [entries_ofEntries]

/-! ### the entries of a draft -/

/-- **Drafts of the same entries have the same chart, or none.** -/
theorem chart_eq_ok_iff_of_entries_perm
    (h : (q.claims.map Claim.entry).Perm (p.claims.map Claim.entry)) :
    q.chart = .ok c ↔ p.chart = .ok c := by
  rw [chart_eq_ok_iff_perm, chart_eq_ok_iff_perm]
  exact h.congr_right _

/-- **Equal charts come from drafts of the same entries**, and from no others. -/
theorem eq_iff_entries_perm (ha : p.chart = .ok a) (hb : q.chart = .ok b) :
    a = b ↔ (p.claims.map Claim.entry).Perm (q.claims.map Claim.entry) := by
  have hpa := chart_eq_ok_iff_perm.1 ha
  have hqb := chart_eq_ok_iff_perm.1 hb
  constructor
  · rintro rfl
    exact hpa.symm.trans hqb
  · intro h
    exact Chart.eq_of_entries_perm (hpa.trans (h.trans hqb.symm))

/-- a chart's entries, fed to an empty draft in any order and under any origins, make this chart. -/
theorem chart_feed_eq_ok {batches : List (Origin × List Entry)}
    (h : (batches.flatMap Prod.snd).Perm c.entries) : (empty.feed batches).chart = .ok c := by
  rw [chart_eq_ok_iff_perm, entries_feed_empty]
  exact h.symm

/-- **The chart of a draft hangs on its entries alone.**  The charts of two drafts are equal exactly
if the drafts have the same entries; drafts of the same entries, in any order and under any origins,
both have a chart or both none; and the entries that a walk through a chart yields, fed to an empty
draft in any order and under any origins, make this chart again. -/
theorem chart_of_entries_alone (p q : Draft) :
    (∀ a b, p.chart = .ok a → q.chart = .ok b →
      (a = b ↔ (p.claims.map Claim.entry).Perm (q.claims.map Claim.entry))) ∧
    ((q.claims.map Claim.entry).Perm (p.claims.map Claim.entry) →
      ((∃ b, q.chart = .ok b) ↔ ∃ a, p.chart = .ok a)) ∧
    ∀ (c : Chart) n batches, c.size ≤ n →
      (batches.flatMap Prod.snd).Perm (Cursor.take n c.cursor).1 →
      (empty.feed batches).chart = .ok c := by
  refine ⟨fun a b => eq_iff_entries_perm, fun h => ?_, fun c n batches hn h => ?_⟩
  · exact exists_congr fun c => chart_eq_ok_iff_of_entries_perm h
  · rw [Chart.take_cursor hn] at h
    exact chart_feed_eq_ok h

/-- two pushes, drafted in both orders and under two origins, then taken from the chart and drafted
again. -/
theorem chart_of_entries_alone_push :
    ∃ c, chart ⟨[⟨.family .push, ⟨0xD5, .push .DE 4⟩⟩, ⟨.literal, ⟨0xC5, .push .BC 4⟩⟩]⟩ = .ok c ∧
      chart ⟨[⟨.literal, ⟨0xC5, .push .BC 4⟩⟩, ⟨.literal, ⟨0xD5, .push .DE 4⟩⟩]⟩ = .ok c ∧
      (empty.feed [(.family .pop, [⟨0xD5, .push .DE 4⟩, ⟨0xC5, .push .BC 4⟩])]).chart = .ok c := by
  obtain ⟨hsame, hboth, hback⟩ := chart_of_entries_alone
    ⟨[⟨.family .push, ⟨0xD5, .push .DE 4⟩⟩, ⟨.literal, ⟨0xC5, .push .BC 4⟩⟩]⟩
    ⟨[⟨.literal, ⟨0xC5, .push .BC 4⟩⟩, ⟨.literal, ⟨0xD5, .push .DE 4⟩⟩]⟩
  have hperm : [(⟨0xC5, .push .BC 4⟩ : Entry), ⟨0xD5, .push .DE 4⟩].Perm
      [⟨0xD5, .push .DE 4⟩, ⟨0xC5, .push .BC 4⟩] := List.Perm.swap _ _ _
  have hc : chart ⟨[⟨.family .push, ⟨0xD5, .push .DE 4⟩⟩, ⟨.literal, ⟨0xC5, .push .BC 4⟩⟩]⟩ =
      .ok (Chart.ofEntries [⟨0xD5, .push .DE 4⟩, ⟨0xC5, .push .BC 4⟩]) :=
    chart_eq_ok_iff.2 ⟨by decide, rfl⟩
  obtain ⟨b, hb⟩ := (hboth hperm).2 ⟨_, hc⟩
  obtain rfl := (hsame _ b hc hb).2 hperm.symm
  exact ⟨_, hc, hb, hback _ 2 _ (by decide) hperm.symm⟩

end Draft

end OpcodeChart
