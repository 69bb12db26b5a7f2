import Mathlib.Data.List.Perm.Subperm
import Mathlib.Data.Set.Card
import OpcodeChart.Proofs.Codec
import OpcodeChart.Proofs.Coding

/-!
# The capacity of a coding

A sound coding has one code for each pair, and no more codes than its width has room for.  The codes
left over are holes: a field of this width can hold them, but they select nothing.

* `Coding.numbers t`                 the codes of a coding as numbers, in the order of its pairs;
* `Coding.Sound.size_le`             there are no more than the width has room for;
* `Coding.Sound.no_hole_iff`         **a coding has no hole exactly if it fills its width**;
* `Coding.Sound.ncard_identified`    as many codes have an identity as there are pairs;
* `Template.exists_decode_at_iff`    a field of a template takes every value that fits;
* `Coding.holes_or_full`             **how many codes there are, and which fields can hold a hole**.
-/

namespace OpcodeChart

namespace Coding

variable {α : Type} {t : Coding α}

def numbers (t : Coding α) : List Nat := (t.pairs.map Prod.snd).map UInt8.toNat

theorem length_numbers (t : Coding α) : t.numbers.length = t.size := by
  rw [numbers, List.length_map, List.length_map, size]

theorem identity?_isSome_iff {c : UInt8} : (t.identity? c).isSome ↔ c ∈ t.pairs.map Prod.snd := by
  rw [identity?, Option.isSome_map]
  exact find?_key_isSome_iff

theorem identity?_isSome_iff_mem_numbers {c : UInt8} :
    (t.identity? c).isSome ↔ c.toNat ∈ t.numbers := by
  rw [identity?_isSome_iff, numbers]
  exact (List.mem_map_of_injective fun _ _ => UInt8.toNat_inj.1).symm

namespace Sound

variable (h : t.Sound)
include h

theorem lt_of_identity? {c : UInt8} (hc : (t.identity? c).isSome) :
    c.toNat < 2 ^ t.width.toNat := by
  obtain ⟨p, hp, rfl⟩ := List.mem_map.1 (identity?_isSome_iff.1 hc)
  exact h.fits p hp

/-- the codes are some of the numbers below the power of the width, each once. -/
theorem numbers_subperm : t.numbers.Subperm (List.range (2 ^ t.width.toNat)) := by
  have hnodup : t.numbers.Nodup := h.codes.map fun _ _ => UInt8.toNat_inj.1
  refine List.subperm_of_subset hnodup fun n hn => ?_
  obtain ⟨c, hc, rfl⟩ := List.mem_map.1 hn
  exact List.mem_range.2 (h.lt_of_identity? (identity?_isSome_iff.2 hc))

theorem size_le : t.size ≤ 2 ^ t.width.toNat := by
  have hle := h.numbers_subperm.length_le
  rwa [length_numbers, List.length_range] at hle

/-- **A coding has no hole exactly if it fills its width.** -/
theorem no_hole_iff :
    (∀ c : UInt8, c.toNat < 2 ^ t.width.toNat → (t.identity? c).isSome) ↔
      t.size = 2 ^ t.width.toNat := by
  constructor
  · intro hall
    -- every number with room is a code, so there are as many codes
    have hsub : List.range (2 ^ t.width.toNat) ⊆ t.numbers := by
      intro n hn
      have hn := List.mem_range.1 hn
      have hle : 2 ^ t.width.toNat ≤ 2 ^ 8 := Nat.pow_le_pow_right (by omega) h.width_le
      have e : (UInt8.ofNat n).toNat = n := UInt8.toNat_ofNat_of_lt' (show n < 256 by omega)
      rw [← e] at hn ⊢
      exact identity?_isSome_iff_mem_numbers.1 (hall _ hn)
    have hge := (List.subperm_of_subset List.nodup_range hsub).length_le
    rw [length_numbers, List.length_range] at hge
    exact Nat.le_antisymm h.size_le hge
  · intro hsize c hc
    have hlen : (List.range (2 ^ t.width.toNat)).length ≤ t.numbers.length := by
      rw [length_numbers, List.length_range, hsize]
    have hp := h.numbers_subperm.perm_of_length_le hlen
    exact identity?_isSome_iff_mem_numbers.2 (hp.mem_iff.2 (List.mem_range.2 hc))

theorem exists_hole_iff :
    (∃ c : UInt8, c.toNat < 2 ^ t.width.toNat ∧ t.identity? c = none) ↔
      t.size < 2 ^ t.width.toNat := by
  rw [Nat.lt_iff_le_and_ne, and_iff_right h.size_le, ne_eq, ← h.no_hole_iff]
  simp only [not_forall, Option.not_isSome_iff_eq_none, exists_prop]

theorem ncard_identified : {c : UInt8 | (t.identity? c).isSome}.ncard = t.size := by
  have hset : {c : UInt8 | (t.identity? c).isSome} = ((t.pairs.map Prod.snd).toFinset : Set UInt8) := by
    ext c
    rw [Set.mem_ofPred_eq, identity?_isSome_iff, List.coe_toFinset, Set.mem_ofPred_eq]
  rw [hset, Set.ncard_coe_finset, List.toFinset_card_of_nodup h.codes, List.length_map, size]

end Sound

end Coding

/-- **A field of a template takes every value that fits**, whatever the other fields are. -/
theorem Template.exists_decode_at_iff {t : Template} {i : Nat} {f : Field}
    (hf : t.fields[i]? = some f) {v : UInt8} :
    (∃ opcode vs, t.decode opcode = .ok (some vs) ∧ vs[i]? = some v) ↔
      v.toNat < 2 ^ f.width.toNat := by
  obtain ⟨hi, rfl⟩ := List.getElem?_eq_some_iff.1 hf
  constructor
  · rintro ⟨opcode, vs, hd, hv⟩
    obtain ⟨hiv, rfl⟩ := List.getElem?_eq_some_iff.1 hv
    exact ((decode_eq_some_iff.1 hd).values.get hi hiv).fits
  · intro hv
    -- zero fits in every other field
    have hfit : List.Forall₂ (fun f v => v.toNat < 2 ^ f.width.toNat) t.fields
        ((t.fields.map fun _ => (0 : UInt8)).set i v) := by
      refine List.forall₂_iff_get.2 ⟨by rw [List.length_set, List.length_map], fun j hj hj' => ?_⟩
      rw [List.get_eq_getElem, List.get_eq_getElem, List.getElem_set]
      split
      · next e =>
        subst e
        exact hv
      · rw [List.getElem_map]
        exact Nat.two_pow_pos _
    obtain ⟨opcode, he⟩ := exists_encode_iff.2 hfit
    refine ⟨opcode, _, decode_eq_some_iff.2 (encode_eq_ok_iff.1 he), ?_⟩
    rw [List.getElem?_set_self (by rwa [List.length_map])]

namespace Coding

variable {α : Type} [DecidableEq α] [Spelled α] {t : Coding α}

/-- **How many codes there are, and which fields can hold a hole.**  A coding that passes has no more
pairs than its width has room for.  As many codes have an identity as there are pairs, all of them fit
the width, and every code that fits has one exactly if there are as many pairs as there is room for.
Some code that fits has none exactly if there are fewer, and then every field of this width in a
template can hold one. -/
theorem holes_or_full (ht : t.validate = .ok ()) :
    t.size ≤ 2 ^ t.width.toNat ∧
    {c : UInt8 | (t.identity? c).isSome}.ncard = t.size ∧
    (∀ c : UInt8, (t.identity? c).isSome → c.toNat < 2 ^ t.width.toNat) ∧
    ((∀ c : UInt8, c.toNat < 2 ^ t.width.toNat → (t.identity? c).isSome) ↔
      t.size = 2 ^ t.width.toNat) ∧
    ((∃ c : UInt8, c.toNat < 2 ^ t.width.toNat ∧ t.identity? c = none) ↔
      t.size < 2 ^ t.width.toNat) ∧
    ∀ (s : Template) (i : Nat) (f : Field), s.fields[i]? = some f → f.width = t.width →
      ((∃ opcode vs v, s.decode opcode = .ok (some vs) ∧ vs[i]? = some v ∧
        t.identity? v = none) ↔ t.size < 2 ^ t.width.toNat) := by
  have h : t.Sound := fault?_eq_none_iff.1 (validate_eq_ok_iff.1 ht)
  refine ⟨h.size_le, h.ncard_identified, fun _ => h.lt_of_identity?, h.no_hole_iff,
    h.exists_hole_iff, fun s i f hf hw => ?_⟩
  rw [← h.exists_hole_iff, ← hw]
  simp only [← Template.exists_decode_at_iff hf]
  constructor
  · rintro ⟨opcode, vs, v, hd, hv, hnone⟩
    exact ⟨v, ⟨opcode, vs, hd, hv⟩, hnone⟩
  · rintro ⟨v, ⟨opcode, vs, hd, hv⟩, hnone⟩
    exact ⟨opcode, vs, v, hd, hv, hnone⟩

/-- the registers leave one code of three bits free, which the lower of two fields can hold; the pairs of
the stack leave none of two bits. -/
theorem holes_or_full_register :
    register.validate = .ok () ∧ {c : UInt8 | (register.identity? c).isSome}.ncard = 7 ∧
    (∃ opcode vs v, Template.decode ⟨0b01000000, [.ofSelector 3 .register, .ofSelector 0 .register],
        rfl⟩ opcode = .ok (some vs) ∧ vs[1]? = some v ∧ register.identity? v = none) ∧
    stackPair.validate = .ok () ∧ ∀ c : UInt8, c.toNat < 4 → (stackPair.identity? c).isSome := by
  have hr : register.validate = .ok () := rfl
  have hs : stackPair.validate = .ok () := rfl
  obtain ⟨-, hcount, -, -, -, hfield⟩ := holes_or_full hr
  obtain ⟨-, -, -, hfull, -, -⟩ := holes_or_full hs
  exact ⟨hr, hcount, (hfield _ 1 (.ofSelector 0 .register) rfl rfl).2 (by decide), hs,
    hfull.2 (by decide)⟩

end Coding

end OpcodeChart
