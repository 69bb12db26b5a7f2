import Mathlib.Algebra.Group.Nat.Defs
import OpcodeChart.Family
import OpcodeChart.Proofs.Outcome

/-!
# Sound codings

* `Coding.Sound t`                      the width is one to eight bits, every code fits it, and no
                                        identity and no code is listed twice;
* `Coding.fault?_eq_none_iff`           **the search for faults passes exactly the sound codings**;
* `Coding.Sound.code?_eq_some_iff`, `identity?_eq_some_iff`   both lookups find the listed pairs, so
                                        they are inverse to each other;
* `Coding.sound_iff_of_perm`            soundness does not depend on the order of the pairs;
* `Coding.lookups_inverse_in_any_order` **a coding that passes is read both ways alike, in whatever
                                        order its pairs are listed**;
* `Selector.code?_eq_some_iff`          the same for the three codings behind the selectors.
-/

namespace OpcodeChart

namespace Coding

variable {α : Type}

structure Sound (t : Coding α) : Prop where
  width_pos : 0 < t.width.toNat
  width_le : t.width.toNat ≤ 8
  fits : ∀ p ∈ t.pairs, p.2.toNat < 2 ^ t.width.toNat
  identities : (t.pairs.map Prod.fst).Nodup
  codes : (t.pairs.map Prod.snd).Nodup

private theorem not_mem_map_iff {β γ : Type} {f : β → γ} {b : γ} {bs : List β} :
    b ∉ bs.map f ↔ ∀ a ∈ bs, f a ≠ b := by
  rw [List.mem_map]
  exact ⟨fun h a ha e => h ⟨a, ha, e⟩, fun h ⟨a, ha, e⟩ => h a ha e⟩

section
variable [DecidableEq α]

theorem pairFault?_eq_none_iff {w : UInt8} {pairs : List (α × UInt8)} :
    pairFault? w pairs = none ↔ (∀ p ∈ pairs, p.2.toNat < 2 ^ w.toNat) ∧
      (pairs.map Prod.fst).Nodup ∧ (pairs.map Prod.snd).Nodup := by
  induction pairs with
  | nil =>
    constructor
    · intro _
      exact ⟨List.forall_mem_nil _, List.nodup_nil, List.nodup_nil⟩
    · intro _
      rfl
  | cons p later ih =>
    obtain ⟨x, c⟩ := p
    rw [List.forall_mem_cons, List.map_cons, List.map_cons, List.nodup_cons, List.nodup_cons]
    by_cases hc : 2 ^ w.toNat ≤ c.toNat
    · have hf : pairFault? w ((x, c) :: later) = some (.tooWide x c w) := if_pos hc
      rw [hf]
      constructor
      · intro h
        cases h
      · intro h
        exact absurd h.1.1 (Nat.not_lt.2 hc)
    · have hf : pairFault? w ((x, c) :: later) = (clash? x c later).or (pairFault? w later) :=
        if_neg hc
      rw [hf, Option.or_eq_none_iff, clash?_eq_none_iff, ih, not_mem_map_iff, not_mem_map_iff]
      constructor
      · intro h
        obtain ⟨hcl, hfit, hi, hco⟩ := h
        exact ⟨⟨Nat.lt_of_not_le hc, hfit⟩, ⟨fun p hp => (hcl p hp).1, hi⟩,
          fun p hp => (hcl p hp).2, hco⟩
      · intro h
        obtain ⟨⟨-, hfit⟩, ⟨hi1, hi⟩, hc1, hco⟩ := h
        exact ⟨fun p hp => ⟨hi1 p hp, hc1 p hp⟩, hfit, hi, hco⟩

theorem bad_width_iff {w : UInt8} : w = 0 ∨ 8 < w ↔ ¬ (0 < w.toNat ∧ w.toNat ≤ 8) := by
  rw [UInt8.lt_iff_toNat_lt, ← UInt8.toNat_inj]
  show w.toNat = 0 ∨ 8 < w.toNat ↔ _
  omega

/-- **The search for faults passes exactly the sound codings.** -/
theorem fault?_eq_none_iff {t : Coding α} : t.fault? = none ↔ t.Sound := by
  unfold fault?
  by_cases h : t.width = 0 ∨ 8 < t.width
  · rw [if_pos h]
    constructor
    · intro hf
      cases hf
    · intro hs
      exact absurd ⟨hs.width_pos, hs.width_le⟩ (bad_width_iff.1 h)
  · rw [if_neg h, pairFault?_eq_none_iff]
    rw [bad_width_iff, not_not] at h
    exact ⟨fun hp => ⟨h.1, h.2, hp.1, hp.2.1, hp.2.2⟩,
      fun hs => ⟨hs.fits, hs.identities, hs.codes⟩⟩

end

namespace Sound

variable {t : Coding α} (h : t.Sound) {x : α} {c : UInt8}
include h

theorem code?_eq_some_iff [DecidableEq α] : t.code? x = some c ↔ (x, c) ∈ t.pairs := by
  constructor
  · exact mem_of_code?
  · intro hp
    have hf := (find?_key_eq_some_iff (f := Prod.fst) h.identities).2 ⟨hp, rfl⟩
    unfold code?
    rw [hf]
    rfl

theorem identity?_eq_some_iff : t.identity? c = some x ↔ (x, c) ∈ t.pairs := by
  constructor
  · exact mem_of_identity?
  · intro hp
    have hf := (find?_key_eq_some_iff (f := Prod.snd) h.codes).2 ⟨hp, rfl⟩
    unfold identity?
    rw [hf]
    rfl

theorem lt_of_code? [DecidableEq α] (hc : t.code? x = some c) : c.toNat < 2 ^ t.width.toNat :=
  h.fits _ (mem_of_code? hc)

theorem code?_eq_of_perm [DecidableEq α] {u : Coding α} (hp : u.pairs.Perm t.pairs) (x : α) :
    u.code? x = t.code? x :=
  congrArg (Option.map Prod.snd) (find?_key_eq_of_perm (f := Prod.fst) h.identities hp)

theorem identity?_eq_of_perm {u : Coding α} (hp : u.pairs.Perm t.pairs) (c : UInt8) :
    u.identity? c = t.identity? c :=
  congrArg (Option.map Prod.fst) (find?_key_eq_of_perm (f := Prod.snd) h.codes hp)

end Sound

/-! ### the order of the pairs -/

theorem sound_iff_of_perm {t u : Coding α} (hw : u.width = t.width) (hp : u.pairs.Perm t.pairs) :
    u.Sound ↔ t.Sound := by
  have hfits : (∀ p ∈ u.pairs, p.2.toNat < 2 ^ u.width.toNat) ↔
      ∀ p ∈ t.pairs, p.2.toNat < 2 ^ t.width.toNat := by
    rw [hw]
    exact forall_congr' fun p => imp_congr_left hp.mem_iff
  have hi := (hp.map Prod.fst).nodup_iff
  have hc := (hp.map Prod.snd).nodup_iff
  exact ⟨fun h => ⟨hw ▸ h.width_pos, hw ▸ h.width_le, hfits.1 h.fits, hi.1 h.identities,
      hc.1 h.codes⟩,
    fun h => ⟨hw ▸ h.width_pos, hw ▸ h.width_le, hfits.2 h.fits, hi.2 h.identities, hc.2 h.codes⟩⟩

/-- **A coding that passes is read both ways alike**: each lookup finds exactly the listed pairs, and
all codes found fit the width.  **The order of the pairs does not matter** to whether a coding
passes, and of one that passes not to the lookups either. -/
theorem lookups_inverse_in_any_order [DecidableEq α] [Spelled α] (t : Coding α) :
    (t.validate = .ok () → ∀ x c,
      (t.code? x = some c ↔ t.identity? c = some x) ∧
      (t.identity? c = some x ↔ (x, c) ∈ t.pairs) ∧
      (t.code? x = some c → c.toNat < 2 ^ t.width.toNat)) ∧
    ∀ pairs, pairs.Perm t.pairs →
      (validate { t with pairs := pairs } = .ok () ↔ t.validate = .ok ()) ∧
      (t.validate = .ok () →
        (∀ x, code? { t with pairs := pairs } x = t.code? x) ∧
        ∀ c, identity? { t with pairs := pairs } c = t.identity? c) := by
  have hsound : ∀ u : Coding α, u.validate = .ok () ↔ u.Sound :=
    fun u => validate_eq_ok_iff.trans fault?_eq_none_iff
  refine ⟨fun ht x c => ?_, fun pairs hp => ⟨?_, fun ht => ?_⟩⟩
  · have h := (hsound t).1 ht
    exact ⟨h.code?_eq_some_iff.trans h.identity?_eq_some_iff.symm, h.identity?_eq_some_iff,
      h.lt_of_code?⟩
  · rw [hsound, hsound]
    exact sound_iff_of_perm rfl hp
  · have h := (hsound t).1 ht
    exact ⟨h.code?_eq_of_perm hp, h.identity?_eq_of_perm hp⟩

/-- bytes under codes of all eight bits, listed in the opposite order. -/
theorem lookups_inverse_in_any_order_bytes :
    validate (α := UInt8) ⟨"byte", 8, [(3, 255), (255, 0), (0, 3)]⟩ = .ok () ∧
    code? (α := UInt8) ⟨"byte", 8, [(0, 3), (255, 0), (3, 255)]⟩ 3 = some 255 ∧
    identity? (α := UInt8) ⟨"byte", 8, [(0, 3), (255, 0), (3, 255)]⟩ 255 = some 3 := by
  obtain ⟨hinv, hperm⟩ := lookups_inverse_in_any_order (α := UInt8)
    ⟨"byte", 8, [(3, 255), (255, 0), (0, 3)]⟩
  have hv : validate (α := UInt8) ⟨"byte", 8, [(3, 255), (255, 0), (0, 3)]⟩ = .ok () := rfl
  obtain ⟨-, hlook⟩ := hperm [(0, 3), (255, 0), (3, 255)] (by decide)
  obtain ⟨hcode, hidentity⟩ := hlook hv
  obtain ⟨hswap, hlisted, -⟩ := hinv hv 3 255
  have hid := hlisted.2 List.mem_cons_self
  exact ⟨hv, (hcode 3).trans (hswap.2 hid), (hidentity 255).trans hid⟩

theorem sound_register : register.Sound := fault?_eq_none_iff.1 (by decide)

theorem sound_loadPair : loadPair.Sound := fault?_eq_none_iff.1 (by decide)

theorem sound_stackPair : stackPair.Sound := fault?_eq_none_iff.1 (by decide)

end Coding

namespace Selector

/-- what a sound coding does for one sort of selections. -/
private theorem map_identity?_eq_some_iff {α : Type} [DecidableEq α] {t : Coding α} (h : t.Sound)
    {sort : α → Selection} (hs : ∀ x y, sort x = sort y → x = y) {x : α} {c : UInt8} :
    (t.identity? c).map sort = some (sort x) ↔ t.code? x = some c := by
  rw [h.code?_eq_some_iff, ← h.identity?_eq_some_iff, Option.map_eq_some_iff]
  constructor
  · intro h
    obtain ⟨y, hy, e⟩ := h
    exact hs y x e ▸ hy
  · intro hx
    exact ⟨x, hx, rfl⟩

/-- **A selector's two lookups are inverse to each other.** -/
theorem code?_eq_some_iff {s : Selector} {x : Selection} {c : UInt8} :
    s.code? x = some c ↔ s.selection? c = some x := by
  have hr : ∀ r r', Selection.register r = .register r' → r = r' :=
    fun _ _ e => Selection.register.inj e
  have hp : ∀ p p', Selection.pair p = .pair p' → p = p' := fun _ _ e => Selection.pair.inj e
  cases s with
  | register =>
    cases x with
    | register r => exact (map_identity?_eq_some_iff Coding.sound_register hr).symm
    | pair p => simp [code?, selection?]
  | loadPair =>
    cases x with
    | register r => simp [code?, selection?]
    | pair p => exact (map_identity?_eq_some_iff Coding.sound_loadPair hp).symm
  | stackPair =>
    cases x with
    | register r => simp [code?, selection?]
    | pair p => exact (map_identity?_eq_some_iff Coding.sound_stackPair hp).symm

/-- the codes of a selector are as wide as it says. -/
theorem lt_of_code? {s : Selector} {x : Selection} {c : UInt8} (h : s.code? x = some c) :
    c.toNat < 2 ^ s.width.toNat := by
  cases s <;> cases x <;> simp only [code?, reduceCtorEq] at h
  · exact Coding.sound_register.lt_of_code? h
  · exact Coding.sound_loadPair.lt_of_code? h
  · exact Coding.sound_stackPair.lt_of_code? h

end Selector

end OpcodeChart
