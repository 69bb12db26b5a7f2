import OpcodeChart.Proofs.Coding
import OpcodeChart.Proofs.Text

/-!
# The first fault of a coding

A coding that is not sound may have many faults.  The one reported is the first: a width that is no
width of a field, else what is wrong with the first pair that violates a rule, and of this pair its
own code before the first pair behind it that repeats it.

The text of the report tells the whole fault if the identities can be told apart in it: its words are
counted, and those that name an identity, a code or a width are read back.

* `Coding.Repeats pairs i j`        the pair at `j` repeats the one at `i`;
* `Coding.Violates w pairs i`       the code of the pair at `i` is too wide, or the pair is repeated;
* `Coding.FaultAt w pairs i fault`  what is wrong with the pair at `i`;
* `Coding.FirstFault t fault`       the first fault of a coding;
* `Coding.pairFault?_eq_some_iff`   the walk through the pairs ends at the first that violates a rule;
* `Coding.fault?_eq_some_iff`       **the search for faults finds the first**;
* `Coding.sound_or_first_fault`     **a coding is sound, or it is refused for its first fault**;
* `Coding.Fault.words`              the words of a reason;
* `Coding.Fault.reason_injective`   **a reason tells its fault**;
* `Coding.validate_eq_error_iff`    the error of a coding names it and its first fault.
-/

namespace OpcodeChart.Coding

variable {α : Type}

/-- the pair at `j`, behind the one at `i`, lists its identity or its code again. -/
def Repeats (pairs : List (α × UInt8)) (i j : Nat) : Prop :=
  i < j ∧ ∃ p q, pairs[i]? = some p ∧ pairs[j]? = some q ∧ (q.1 = p.1 ∨ q.2 = p.2)

/-- the pair at `j` is the first to repeat the one at `i`. -/
def RepeatedFirst (pairs : List (α × UInt8)) (i j : Nat) : Prop :=
  Repeats pairs i j ∧ ∀ k < j, ¬ Repeats pairs i k

/-- the code of the pair at `i` is too wide, or the pair is repeated. -/
def Violates (w : UInt8) (pairs : List (α × UInt8)) (i : Nat) : Prop :=
  (∃ p, pairs[i]? = some p ∧ 2 ^ w.toNat ≤ p.2.toNat) ∨ ∃ j, Repeats pairs i j

/-- what is wrong with the pair at `i`. -/
inductive FaultAt (w : UInt8) (pairs : List (α × UInt8)) (i : Nat) : Fault α → Prop
  /-- its own code, whether it is repeated or not. -/
  | tooWide {x : α} {c : UInt8} (here : pairs[i]? = some (x, c))
      (wide : 2 ^ w.toNat ≤ c.toNat) : FaultAt w pairs i (.tooWide x c w)
  /-- the first pair that repeats it has its identity, and any code. -/
  | listedTwice {j : Nat} {x : α} {c d : UInt8} (here : pairs[i]? = some (x, c))
      (fits : c.toNat < 2 ^ w.toNat) (first : RepeatedFirst pairs i j)
      (there : pairs[j]? = some (x, d)) : FaultAt w pairs i (.listedTwice x)
  /-- the first pair that repeats it has its code, and another identity. -/
  | shared {j : Nat} {x y : α} {c : UInt8} (here : pairs[i]? = some (x, c))
      (fits : c.toNat < 2 ^ w.toNat) (first : RepeatedFirst pairs i j)
      (there : pairs[j]? = some (y, c)) (other : y ≠ x) : FaultAt w pairs i (.shared x y c)

/-- the first fault of a coding: its width, or what is wrong with the first pair that violates a rule. -/
inductive FirstFault (t : Coding α) : Fault α → Prop
  | width (bad : ¬ (1 ≤ t.width.toNat ∧ t.width.toNat ≤ 8)) : FirstFault t (.width t.width)
  | pair {i : Nat} {fault : Fault α} (good : 1 ≤ t.width.toNat ∧ t.width.toNat ≤ 8)
      (least : ∀ k < i, ¬ Violates t.width t.pairs k) (found : FaultAt t.width t.pairs i fault) :
      FirstFault t fault

/-! ### one pair -/

section
variable {w : UInt8} {before later : List (α × UInt8)} {x : α} {c : UInt8} {i j : Nat}
  {fault : Fault α}

theorem FaultAt.violates {pairs : List (α × UInt8)} (h : FaultAt w pairs i fault) :
    Violates w pairs i := by
  cases h with
  | tooWide here wide => exact .inl ⟨_, here, wide⟩
  | listedTwice _ _ first _ => exact .inr ⟨_, first.1⟩
  | shared _ _ first _ _ => exact .inr ⟨_, first.1⟩

theorem getElem?_here : (before ++ (x, c) :: later)[before.length]? = some (x, c) := by simp

theorem getElem?_behind (k : Nat) :
    (before ++ (x, c) :: later)[before.length + (k + 1)]? = later[k]? := by
  rw [List.getElem?_append_right (by omega), Nat.add_sub_cancel_left, List.getElem?_cons_succ]

theorem repeats_length_iff :
    Repeats (before ++ (x, c) :: later) before.length j ↔
      ∃ k q, j = before.length + (k + 1) ∧ later[k]? = some q ∧ (q.1 = x ∨ q.2 = c) := by
  refine ⟨fun ⟨hlt, p, q, hp, hq, h⟩ => ?_, fun ⟨k, q, hj, hq, h⟩ => ?_⟩
  · obtain rfl := Option.some.inj (getElem?_here.symm.trans hp)
    obtain ⟨k, rfl⟩ : ∃ k, j = before.length + (k + 1) := ⟨j - before.length - 1, by omega⟩
    exact ⟨k, q, rfl, getElem?_behind k ▸ hq, h⟩
  · subst hj
    exact ⟨by omega, (x, c), q, getElem?_here, (getElem?_behind k).trans hq, h⟩

theorem Violates.lt_length {pairs : List (α × UInt8)} (h : Violates w pairs i) :
    i < pairs.length := by
  rcases h with ⟨p, hp, -⟩ | ⟨j, -, p, q, hp, -⟩
  · exact (List.getElem?_eq_some_iff.1 hp).1
  · exact (List.getElem?_eq_some_iff.1 hp).1

theorem violates_length_iff :
    Violates w (before ++ (x, c) :: later) before.length ↔
      2 ^ w.toNat ≤ c.toNat ∨ ∃ q ∈ later, q.1 = x ∨ q.2 = c := by
  refine or_congr (by simp) ?_
  simp only [repeats_length_iff, List.mem_iff_getElem?]
  exact ⟨fun ⟨_, k, q, _, hq, h⟩ => ⟨q, ⟨k, hq⟩, h⟩, fun ⟨q, ⟨k, hq⟩, h⟩ => ⟨_, k, q, rfl, hq, h⟩⟩

theorem faultAt_length_iff_of_wide (wide : 2 ^ w.toNat ≤ c.toNat) :
    FaultAt w (before ++ (x, c) :: later) before.length fault ↔ .tooWide x c w = fault := by
  refine ⟨fun h => ?_, fun h => h ▸ .tooWide getElem?_here wide⟩
  cases h with
  | tooWide here _ =>
    cases getElem?_here.symm.trans here
    rfl
  | listedTwice here fits _ _ | shared here fits _ _ _ =>
    cases getElem?_here.symm.trans here
    exact absurd wide (Nat.not_le.2 fits)

variable [DecidableEq α]

/-- the first pair behind that repeats this one. -/
theorem repeatedFirst_length_iff (before : List (α × UInt8)) {q : α × UInt8} :
    (∃ j, RepeatedFirst (before ++ (x, c) :: later) before.length j ∧
        (before ++ (x, c) :: later)[j]? = some q) ↔
      (later.find? fun q => q.1 = x ∨ q.2 = c) = some q := by
  rw [List.find?_eq_some_iff_getElem]
  refine ⟨fun ⟨j, ⟨hrep, hfirst⟩, hj⟩ => ?_, fun ⟨hq, k, hk, e, hfirst⟩ => ?_⟩
  · obtain ⟨k, q', rfl, hk, hq'⟩ := repeats_length_iff.1 hrep
    rw [getElem?_behind, hk] at hj
    cases hj
    obtain ⟨hlt, e⟩ := List.getElem?_eq_some_iff.1 hk
    refine ⟨decide_eq_true hq', k, hlt, e, fun m hm => ?_⟩
    rw [Bool.not_eq_true', decide_eq_false_iff_not]
    have hm' := List.getElem?_eq_getElem (Nat.lt_trans hm hlt)
    exact fun h => hfirst _ (by omega) (repeats_length_iff.2 ⟨m, _, rfl, hm', h⟩)
  · have hk' := List.getElem?_eq_some_iff.2 ⟨hk, e⟩
    refine ⟨before.length + (k + 1), ⟨repeats_length_iff.2 ⟨k, q, rfl, hk', of_decide_eq_true hq⟩,
      fun j hj hrep => ?_⟩, (getElem?_behind k).trans hk'⟩
    obtain ⟨m, r, rfl, hm, hr⟩ := repeats_length_iff.1 hrep
    obtain ⟨hlt, rfl⟩ := List.getElem?_eq_some_iff.1 hm
    have h := hfirst m (by omega)
    rw [Bool.not_eq_true', decide_eq_false_iff_not] at h
    exact h hr

theorem clash?_eq_map_find? (x : α) (c : UInt8) (later : List (α × UInt8)) :
    clash? x c later = (later.find? fun q => q.1 = x ∨ q.2 = c).map fun q =>
      if q.1 = x then .listedTwice x else .shared x q.1 c := by
  induction later with
  | nil => rfl
  | cons q later ih =>
    by_cases hx : q.1 = x <;> by_cases hc : q.2 = c <;> simp [clash?, hx, hc, ih]

/-- what is wrong with a pair, by its own code and the pairs behind it. -/
def headFault? (w : UInt8) (x : α) (c : UInt8) (later : List (α × UInt8)) : Option (Fault α) :=
  if 2 ^ w.toNat ≤ c.toNat then some (.tooWide x c w) else clash? x c later

theorem pairFault?_cons :
    pairFault? w ((x, c) :: later) = (headFault? w x c later).or (pairFault? w later) := by
  unfold headFault?
  by_cases wide : 2 ^ w.toNat ≤ c.toNat
  · rw [if_pos wide]
    exact if_pos wide
  · rw [if_neg wide]
    exact if_neg wide

theorem headFault?_eq_none_iff :
    headFault? w x c later = none ↔ ¬ Violates w (before ++ (x, c) :: later) before.length := by
  unfold headFault?
  rw [violates_length_iff, not_or]
  by_cases wide : 2 ^ w.toNat ≤ c.toNat
  · simp [wide]
  · simp [wide, clash?_eq_none_iff]

theorem faultAt_length_iff_of_fits (fits : c.toNat < 2 ^ w.toNat) :
    FaultAt w (before ++ (x, c) :: later) before.length fault ↔ clash? x c later = some fault := by
  rw [clash?_eq_map_find?, Option.map_eq_some_iff]
  refine ⟨fun h => ?_, fun ⟨q, hq, h⟩ => ?_⟩
  · cases h with
    | tooWide here wide =>
      cases getElem?_here.symm.trans here
      exact absurd fits (Nat.not_lt.2 wide)
    | listedTwice here _ first there =>
      cases getElem?_here.symm.trans here
      exact ⟨_, (repeatedFirst_length_iff before).1 ⟨_, first, there⟩, if_pos rfl⟩
    | shared here _ first there other =>
      cases getElem?_here.symm.trans here
      exact ⟨_, (repeatedFirst_length_iff before).1 ⟨_, first, there⟩, if_neg other⟩
  · obtain ⟨j, first, there⟩ := (repeatedFirst_length_iff before).2 hq
    have hrep : q.1 = x ∨ q.2 = c := by simpa using List.find?_some hq
    obtain ⟨y, d⟩ := q
    by_cases hy : y = x
    · subst hy
      rw [if_pos rfl] at h
      exact h ▸ .listedTwice getElem?_here fits first there
    · obtain rfl : d = c := hrep.resolve_left hy
      rw [if_neg hy] at h
      exact h ▸ .shared getElem?_here fits first there hy

theorem headFault?_eq_some_iff :
    headFault? w x c later = some fault ↔
      FaultAt w (before ++ (x, c) :: later) before.length fault := by
  unfold headFault?
  by_cases wide : 2 ^ w.toNat ≤ c.toNat
  · rw [if_pos wide, faultAt_length_iff_of_wide wide, Option.some.injEq]
  · rw [if_neg wide, faultAt_length_iff_of_fits (Nat.lt_of_not_le wide)]

end

/-! ### all pairs -/

section
variable {w : UInt8} {fault : Fault α}

/-- only one pair is the first to violate a rule. -/
theorem exists_faultAt_first_iff {pairs : List (α × UInt8)} {i : Nat}
    (hv : Violates w pairs i) (h : ∀ k < i, ¬ Violates w pairs k) :
    (∃ j, FaultAt w pairs j fault ∧ ∀ k < j, ¬ Violates w pairs k) ↔ FaultAt w pairs i fault := by
  refine ⟨fun ⟨j, hj, hbefore⟩ => ?_, fun hi => ⟨i, hi, h⟩⟩
  obtain rfl : j = i := by
    rcases Nat.lt_trichotomy j i with hlt | rfl | hlt
    · exact absurd hj.violates (h j hlt)
    · rfl
    · exact absurd hv (hbefore i hlt)
  exact hj

variable [DecidableEq α]

/-- the walk over `rest`, behind pairs that violate no rule. -/
theorem pairFault?_run (before : List (α × UInt8)) {rest : List (α × UInt8)}
    (h : ∀ k < before.length, ¬ Violates w (before ++ rest) k) :
    pairFault? w rest = some fault ↔ ∃ i, FaultAt w (before ++ rest) i fault ∧
      ∀ k < i, ¬ Violates w (before ++ rest) k := by
  induction rest generalizing before with
  | nil =>
    refine ⟨fun hf => (nomatch hf), fun ⟨i, hi, _⟩ => ?_⟩
    have hlt := hi.violates.lt_length
    rw [List.append_nil] at hlt
    exact absurd hi.violates (h i hlt)
  | cons p later ih =>
    obtain ⟨x, c⟩ := p
    rw [pairFault?_cons]
    by_cases hv : Violates w (before ++ (x, c) :: later) before.length
    · rw [exists_faultAt_first_iff hv h, ← headFault?_eq_some_iff]
      cases hf : headFault? w x c later with
      | none => exact absurd hv (headFault?_eq_none_iff.1 hf)
      | some fault' => rw [Option.some_or]
    · rw [headFault?_eq_none_iff.2 hv, Option.none_or, List.append_cons before (x, c) later]
      refine ih _ fun k hk => ?_
      rw [← List.append_cons]
      rw [List.length_append, List.length_singleton] at hk
      rcases Nat.lt_succ_iff_lt_or_eq.1 hk with hlt | rfl
      · exact h k hlt
      · exact hv

/-- **The walk through the pairs ends at the first that violates a rule.** -/
theorem pairFault?_eq_some_iff {pairs : List (α × UInt8)} :
    pairFault? w pairs = some fault ↔ ∃ i, FaultAt w pairs i fault ∧ ∀ k < i, ¬ Violates w pairs k :=
  pairFault?_run [] fun k hk => absurd hk (Nat.not_lt_zero k)

end

/-! ### the coding -/

section
variable [DecidableEq α] {t : Coding α} {fault : Fault α}

/-- **The search for faults finds the first.** -/
theorem fault?_eq_some_iff : t.fault? = some fault ↔ t.FirstFault fault := by
  unfold fault?
  by_cases hw : t.width = 0 ∨ 8 < t.width
  · have bad := bad_width_iff.1 hw
    rw [if_pos hw, Option.some.injEq]
    refine ⟨fun h => h ▸ .width bad, fun h => ?_⟩
    cases h with
    | width _ => rfl
    | pair good _ _ => exact absurd good bad
  · have good := not_not.1 (mt bad_width_iff.2 hw)
    rw [if_neg hw, pairFault?_eq_some_iff]
    refine ⟨fun ⟨i, found, least⟩ => .pair good least found, fun h => ?_⟩
    cases h with
    | width bad => exact absurd good bad
    | pair _ least found => exact ⟨_, found, least⟩

/-- the code `9` is too wide as well, but stands behind the pair that is repeated. -/
example : validate (α := UInt8) ⟨"byte", 2, [(1, 0), (2, 3), (3, 3), (1, 2), (4, 9)]⟩ =
    .error (.unsoundCoding "byte" "1 listed twice") := by decide

end

/-! ### reasons -/

section
variable [Spelled α] {f g : Fault α}

/-- the words of a reason. -/
def Fault.words : Fault α → List String
  | .width w => ["width", Text.decimal w, "is", "not", "a", "valid", "field", "width"]
  | .tooWide x c w =>
    ["code", Text.binary c, "for", inspect x, "exceeds", Text.decimal w, "bits"]
  | .listedTwice x => [inspect x, "listed", "twice"]
  | .shared x y c => [inspect x, "and", inspect y, "share", "code", Text.binary c]

theorem Fault.reason_eq (f : Fault α) : f.reason = " ".intercalate f.words := by
  apply String.toList_inj.1
  cases f <;> simp [reason, words]

theorem Fault.words_ne_nil (f : Fault α) : f.words ≠ [] := by cases f <;> nofun

variable [Text.Readable α]

theorem Fault.oneWord_of_mem_words (f : Fault α) : ∀ s ∈ f.words, Text.OneWord s := by
  cases f <;>
    simp [words, Text.Readable.oneWord, Text.oneWord_decimal, Text.oneWord_binary] <;> decide

/-- **A reason tells its fault**: its kind, and all that it is about. -/
theorem Fault.reason_injective (h : f.reason = g.reason) : f = g := by
  rw [reason_eq, reason_eq] at h
  have hw := Text.words_injective f.oneWord_of_mem_words g.oneWord_of_mem_words
    f.words_ne_nil g.words_ne_nil h
  -- reasons of two kinds differ in a word that both have at one place, or in their number of words
  cases f <;> cases g <;> simp [words] at hw
  case width.width => rw [Text.decimal_injective hw]
  case tooWide.tooWide =>
    obtain ⟨hcode, hname, hwidth⟩ := hw
    rw [Text.binary_injective hcode, Text.Readable.injective hname, Text.decimal_injective hwidth]
  case listedTwice.listedTwice => rw [Text.Readable.injective hw]
  case shared.shared =>
    obtain ⟨hfirst, hsecond, hcode⟩ := hw
    rw [Text.Readable.injective hfirst, Text.Readable.injective hsecond,
      Text.binary_injective hcode]

/-- **The error of a coding names it and its first fault.** -/
theorem validate_eq_error_iff [DecidableEq α] {t : Coding α} {name : String} :
    t.validate = .error (.unsoundCoding name f.reason) ↔ name = t.name ∧ t.FirstFault f := by
  unfold validate
  rw [← fault?_eq_some_iff]
  cases t.fault? with
  | none => simp
  | some fault =>
    simp only [Except.error.injEq, ChartError.unsoundCoding.injEq, Option.some.injEq]
    exact and_congr eq_comm ⟨Fault.reason_injective, congrArg Fault.reason⟩

end

end OpcodeChart.Coding
