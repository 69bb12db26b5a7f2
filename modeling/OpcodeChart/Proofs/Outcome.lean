import Mathlib.Data.List.Forall2
import Mathlib.Data.List.Nodup

/-!
# Outcomes of sequences, traversals and lookups

When a sequence of fallible steps, or a fallible step done for each member of a list, has a given
result.  A lookup by a key answers with the first member of a list whose key is the one asked for; in a
list that repeats no key it finds every member by its key, so the order of the list does not matter.

* `bind_eq_ok_iff`, `bind_eq_error_iff`    one step after another;
* `mapM_eq_ok_iff`, `mapM_eq_some_iff`     a step for each member: the results stand against the
                                           members one by one;
* `foldlM_eq_error_iff`                    a run of steps fails at the first step that fails;
* `exists_mem_of_forall₂`                  each result comes from a member;
* `getElem?_iff_of_forall₂`                a member and its result stand at the same indices, if
                                           they determine each other;
* `find?_key_eq_some_iff`                  what a lookup finds if no key is repeated;
* `find?_key_eq_of_perm`                   and that the order is of no matter.
-/

namespace OpcodeChart

section

variable {ε α β : Type}

theorem bind_eq_ok_iff {x : Except ε α} {f : α → Except ε β} {b : β} :
    (x >>= f) = .ok b ↔ ∃ a, x = .ok a ∧ f a = .ok b := by
  cases x with
  | error e =>
    constructor
    · intro h
      cases h
    · intro h
      obtain ⟨a, h, -⟩ := h
      cases h
  | ok a =>
    constructor
    · intro h
      exact ⟨a, rfl, h⟩
    · intro h
      obtain ⟨a', ha, h⟩ := h
      cases ha
      exact h

theorem bind_eq_error_iff {x : Except ε α} {f : α → Except ε β} {e : ε} :
    (x >>= f) = .error e ↔ x = .error e ∨ ∃ a, x = .ok a ∧ f a = .error e := by
  cases x with
  | error e' =>
    show Except.error e' = .error e ↔ _
    simp
  | ok a =>
    show f a = .error e ↔ _
    simp

theorem mapM_eq_ok_iff {f : α → Except ε β} {as : List α} {bs : List β} :
    as.mapM f = .ok bs ↔ List.Forall₂ (fun a b => f a = .ok b) as bs := by
  induction as generalizing bs with
  | nil =>
    rw [List.mapM_nil, List.forall₂_nil_left_iff]
    exact ⟨fun h => (Except.ok.inj h).symm, fun h => h ▸ rfl⟩
  | cons a as ih =>
    rw [List.mapM_cons, bind_eq_ok_iff, List.forall₂_cons_left_iff]
    constructor
    · intro h
      obtain ⟨b, hb, h⟩ := h
      obtain ⟨bs', hbs, h⟩ := bind_eq_ok_iff.1 h
      exact ⟨b, bs', hb, ih.1 hbs, (Except.ok.inj h).symm⟩
    · intro h
      obtain ⟨b, bs', hb, hbs, rfl⟩ := h
      exact ⟨b, hb, bind_eq_ok_iff.2 ⟨bs', ih.2 hbs, rfl⟩⟩

theorem mapM_eq_some_iff {f : α → Option β} {as : List α} {bs : List β} :
    as.mapM f = some bs ↔ List.Forall₂ (fun a b => f a = some b) as bs := by
  induction as generalizing bs with
  | nil =>
    rw [List.mapM_nil, List.forall₂_nil_left_iff]
    exact ⟨fun h => (Option.some.inj h).symm, fun h => h ▸ rfl⟩
  | cons a as ih =>
    rw [List.mapM_cons, List.forall₂_cons_left_iff]
    constructor
    · intro h
      obtain ⟨b, hb, h⟩ := Option.bind_eq_some_iff.1 h
      obtain ⟨bs', hbs, h⟩ := Option.bind_eq_some_iff.1 h
      exact ⟨b, bs', hb, ih.1 hbs, (Option.some.inj h).symm⟩
    · intro h
      obtain ⟨b, bs', hb, hbs, rfl⟩ := h
      exact Option.bind_eq_some_iff.2
        ⟨b, hb, Option.bind_eq_some_iff.2 ⟨bs', ih.2 hbs, rfl⟩⟩

/-- **A run fails at the first step that fails**: those before it succeed, and those behind it do not
matter. -/
theorem foldlM_eq_error_iff {step : β → α → Except ε β} {as : List α} {b : β} {e : ε} :
    as.foldlM step b = .error e ↔ ∃ before a after mid, as = before ++ a :: after ∧
      before.foldlM step b = .ok mid ∧ step mid a = .error e := by
  induction as generalizing b with
  | nil =>
    refine ⟨fun h => ?_, fun h => ?_⟩
    · cases h
    · obtain ⟨before, a, after, mid, h, -⟩ := h
      simp at h
  | cons a as ih =>
    rw [List.foldlM_cons, bind_eq_error_iff]
    refine ⟨fun h => ?_, fun h => ?_⟩
    · rcases h with h | ⟨b', hb, h⟩
      · exact ⟨[], a, as, b, rfl, rfl, h⟩
      · obtain ⟨before, a', after, mid, rfl, hm, he⟩ := ih.1 h
        exact ⟨a :: before, a', after, mid, rfl, bind_eq_ok_iff.2 ⟨b', hb, hm⟩, he⟩
    · obtain ⟨before, a', after, mid, hsplit, hm, he⟩ := h
      cases before with
      | nil =>
        cases hsplit
        cases hm
        exact .inl he
      | cons x before =>
        cases hsplit
        obtain ⟨b', hb, hm⟩ := bind_eq_ok_iff.1 hm
        exact .inr ⟨b', hb, ih.2 ⟨before, a', after, mid, rfl, hm, he⟩⟩

theorem exists_mem_of_forall₂ {R : α → β → Prop} {as : List α} {bs : List β}
    (h : List.Forall₂ R as bs) {b : β} (hb : b ∈ bs) : ∃ a ∈ as, R a b := by
  induction h with
  | nil => cases hb
  | @cons a _ as _ hab _ ih =>
    rcases List.mem_cons.1 hb with rfl | hb
    · exact ⟨a, List.mem_cons_self, hab⟩
    · obtain ⟨a', ha', h'⟩ := ih hb
      exact ⟨a', List.mem_cons_of_mem _ ha', h'⟩

theorem getElem?_iff_of_forall₂ {R : α → β → Prop} (hR : Relator.BiUnique R) {as : List α}
    {bs : List β} (h : List.Forall₂ R as bs) {a : α} {b : β} (hab : R a b) (i : Nat) :
    as[i]? = some a ↔ bs[i]? = some b := by
  induction h generalizing i with
  | nil => exact ⟨fun h => (nomatch h), fun h => (nomatch h)⟩
  | @cons x y as bs hxy _ ih =>
    cases i with
    | zero =>
      rw [List.getElem?_cons_zero, List.getElem?_cons_zero, Option.some.injEq, Option.some.injEq]
      exact Relator.rel_eq hR hxy hab
    | succ i =>
      rw [List.getElem?_cons_succ, List.getElem?_cons_succ]
      exact ih i

end

/-! ### lookups by a key -/

section

variable {α κ : Type} [DecidableEq κ] {f : α → κ} {k : κ} {a : α} {as bs : List α}

theorem find?_key_isSome_iff : (as.find? fun x => f x = k).isSome ↔ k ∈ as.map f := by
  rw [List.find?_isSome, List.mem_map]
  simp only [decide_eq_true_eq]

theorem key_of_find? (h : (as.find? fun x => f x = k) = some a) : f a = k := by
  simpa using List.find?_some h

/-- the member found is the first of its key. -/
theorem find?_key_eq_some_iff_split :
    (as.find? fun x => f x = k) = some a ↔
      f a = k ∧ ∃ front back, as = front ++ a :: back ∧ k ∉ front.map f := by
  rw [List.find?_eq_some_iff_append]
  simp only [decide_eq_true_eq, Bool.not_eq_true', decide_eq_false_iff_not, List.mem_map, not_exists,
    not_and]

theorem find?_key_eq_some_iff (h : (as.map f).Nodup) :
    (as.find? fun x => f x = k) = some a ↔ a ∈ as ∧ f a = k := by
  constructor
  · intro hf
    exact ⟨List.mem_of_find?_eq_some hf, key_of_find? hf⟩
  · intro hx
    obtain ⟨ha, rfl⟩ := hx
    have hsome := find?_key_isSome_iff.2 (List.mem_map_of_mem (f := f) ha)
    obtain ⟨b, hb⟩ := Option.isSome_iff_exists.1 hsome
    rw [hb, List.inj_on_of_nodup_map h (List.mem_of_find?_eq_some hb) ha (key_of_find? hb)]

theorem find?_key_eq_of_perm (h : (as.map f).Nodup) (hp : bs.Perm as) :
    (bs.find? fun x => f x = k) = as.find? fun x => f x = k := by
  have hb : (bs.map f).Nodup := (hp.map f).nodup_iff.2 h
  refine Option.ext fun a => ?_
  rw [find?_key_eq_some_iff hb, find?_key_eq_some_iff h, hp.mem_iff]

end

end OpcodeChart
