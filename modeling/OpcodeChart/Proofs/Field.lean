import Mathlib.Algebra.Group.Nat.Defs
import OpcodeChart.Field
import OpcodeChart.Proofs.Outcome

/-!
# Bits of words and of fields

Masks and shifts, bit by bit: bit `i` of a byte `b` is `b.toNat.testBit i`, and from the eighth on all
are clear.  From these, which bits of an opcode a field covers.

A field need not lie inside the byte.  Its largest value and its mask are computed all the same,
unless the count of a shift reaches the width of the word.  The 16-bit word in the middle may lose
bits, but only bits that the cut to a byte drops anyway; so the byte at the end is the one that offset
and width call for.

* `Word.eq_of_bits`           a byte is determined by its bits;
* `Word.bit_and`, `bit_or`, `bit_not`   the bits of a conjunction, a union and a complement;
* `Word.bit_shl`, `bit_shr`   the bits of a shifted byte, for counts below its width;
* `Word.and_eq_zero_iff`      two masks are apart if no bit is set in both;
* `Field.Covers f i`          bit `i` lies in the field;
* `Field.maxValue_eq_ok_iff`  the largest value, cut to a byte, for every width below 16;
* `Field.mask_eq_ok_iff`      the mask sets exactly the covered bits, for offsets below 16 too;
* `Field.Sound f`             the field lies inside the byte and is as wide as its codes; such a
                              field has both bounds;
* `Field.ones_eq_error_iff`   the ones trap on the width, and never on the difference;
* `Field.maxValue_eq_error_iff`, `mask_eq_error_iff`   when the bounds trap;
* `Field.low_byte_of_ones`    the ones, cut to a byte, are cut off at 255;
* `Field.mask_eq_shift`       inside the byte, the mask is the largest value moved to the offset;
* `Field.bounds_or_trap`      **the bounds of every field, or the shift that traps**.
-/

namespace OpcodeChart

/-! ### masks and shifts -/

namespace Word

theorem bit_eq_false (b : UInt8) {i : Nat} (h : 8 ≤ i) : b.toNat.testBit i = false := by
  have hb : b.toNat < 2 ^ 8 := b.toNat_lt
  have hi : 2 ^ 8 ≤ 2 ^ i := Nat.pow_le_pow_right (by omega) h
  exact Nat.testBit_lt_two_pow (by omega)

theorem eq_of_bits {a b : UInt8} (h : ∀ i, a.toNat.testBit i = b.toNat.testBit i) : a = b :=
  UInt8.toNat_inj.1 (Nat.eq_of_testBit_eq h)

theorem bit_zero (i : Nat) : (0 : UInt8).toNat.testBit i = false := Nat.zero_testBit i

theorem bit_and (a b : UInt8) (i : Nat) :
    (a &&& b).toNat.testBit i = (a.toNat.testBit i && b.toNat.testBit i) := by
  rw [UInt8.toNat_and, Nat.testBit_and]

theorem bit_or (a b : UInt8) (i : Nat) :
    (a ||| b).toNat.testBit i = (a.toNat.testBit i || b.toNat.testBit i) := by
  rw [UInt8.toNat_or, Nat.testBit_or]

theorem bit_not (a : UInt8) (i : Nat) :
    (~~~a).toNat.testBit i = (decide (i < 8) && !a.toNat.testBit i) := by
  have ha : a.toNat < 2 ^ 8 := a.toNat_lt
  have e : UInt8.size - 1 - a.toNat = 2 ^ 8 - (a.toNat + 1) := by
    show 256 - 1 - a.toNat = 256 - (a.toNat + 1)
    omega
  rw [UInt8.toNat_not, e, Nat.testBit_two_pow_sub_succ ha]

theorem bit_shl (v : UInt8) {count : UInt8} (h : count < 8) (i : Nat) :
    (v <<< count).toNat.testBit i
      = (decide (i < 8) && (decide (count.toNat ≤ i) && v.toNat.testBit (i - count.toNat))) := by
  have hc : count.toNat % 8 = count.toNat := Nat.mod_eq_of_lt h
  rw [UInt8.toNat_shiftLeft, hc, Nat.testBit_mod_two_pow, Nat.testBit_shiftLeft]

theorem bit_shr (v : UInt8) {count : UInt8} (h : count < 8) (i : Nat) :
    (v >>> count).toNat.testBit i = v.toNat.testBit (count.toNat + i) := by
  have hc : count.toNat % 8 = count.toNat := Nat.mod_eq_of_lt h
  rw [UInt8.toNat_shiftRight, hc, Nat.testBit_shiftRight]

theorem and_eq_zero_iff {a b : UInt8} :
    a &&& b = 0 ↔ ∀ i, a.toNat.testBit i = true → b.toNat.testBit i = false := by
  constructor
  · intro h i ha
    have hi := bit_and a b i
    rw [h, bit_zero, ha, Bool.true_and] at hi
    exact hi.symm
  · intro h
    apply eq_of_bits
    intro i
    rw [bit_and, bit_zero]
    cases ha : a.toNat.testBit i with
    | false => rfl
    | true => rw [h i ha, Bool.and_false]

/-- a value has `w` bits at most if it is below the `w`-th power of two. -/
theorem lt_two_pow_iff {v : UInt8} {w : Nat} :
    v.toNat < 2 ^ w ↔ ∀ i, w ≤ i → v.toNat.testBit i = false := by
  constructor
  · intro h i hi
    exact Nat.testBit_lt_two_pow (Nat.lt_of_lt_of_le h (Nat.pow_le_pow_right (by omega) hi))
  · intro h
    exact Nat.lt_pow_two_of_testBit _ h

end Word

namespace Field

def Covers (f : Field) (i : Nat) : Prop :=
  f.offset.toNat ≤ i ∧ i < f.offset.toNat + f.width.toNat

instance (f : Field) (i : Nat) : Decidable (f.Covers i) :=
  inferInstanceAs (Decidable (_ ∧ _))

theorem covers_add_iff {f : Field} {i : Nat} :
    f.Covers (f.offset.toNat + i) ↔ i < f.width.toNat := by
  unfold Covers
  omega

/-! ### the bounds of any field -/

private theorem toNat_top {w : UInt8} (h : w.toNat < 16) :
    ((1 : UInt16) <<< w.toUInt16).toNat = 2 ^ w.toNat := by
  have hw : w.toUInt16.toNat % 16 = w.toNat := by
    rw [UInt8.toNat_toUInt16]
    exact Nat.mod_eq_of_lt h
  have hp : 2 ^ w.toNat < 2 ^ 16 := Nat.pow_lt_pow_right (by omega) h
  rw [UInt16.toNat_shiftLeft, hw, UInt16.toNat_one, Nat.one_shiftLeft, Nat.mod_eq_of_lt hp]

theorem ones_eq_ok_iff {f : Field} {m : UInt16} :
    f.ones = .ok m ↔ f.width.toNat < 16 ∧ m.toNat = 2 ^ f.width.toNat - 1 := by
  unfold ones onesM
  rw [bind_eq_ok_iff]
  constructor
  · intro h
    obtain ⟨top, ht, hm⟩ := h
    obtain ⟨hw, rfl⟩ := Word.shl16_eq_ok_iff.1 ht
    obtain ⟨hle, rfl⟩ := Word.sub16_eq_ok_iff.1 hm
    refine ⟨hw, ?_⟩
    rw [UInt16.toNat_sub_of_le _ _ hle, toNat_top hw, UInt16.toNat_one]
  · intro h
    obtain ⟨hw, hm⟩ := h
    have hle : 1 ≤ (1 : UInt16) <<< f.width.toUInt16 := by
      rw [UInt16.le_iff_toNat_le, toNat_top hw]
      exact Nat.one_le_two_pow
    refine ⟨_, Word.shl16_eq_ok_iff.2 ⟨hw, rfl⟩, Word.sub16_eq_ok_iff.2 ⟨hle, ?_⟩⟩
    apply UInt16.toNat_inj.1
    rw [UInt16.toNat_sub_of_le _ _ hle, toNat_top hw, UInt16.toNat_one, hm]

theorem exists_ones {f : Field} (h : f.width.toNat < 16) :
    ∃ m, f.ones = .ok m ∧ m.toNat = 2 ^ f.width.toNat - 1 := by
  have hlt : 2 ^ f.width.toNat - 1 < 2 ^ 16 :=
    Nat.lt_of_le_of_lt (Nat.sub_le _ _) (Nat.pow_lt_pow_right (by omega) h)
  have hm := UInt16.toNat_ofNat_of_lt' hlt
  exact ⟨_, ones_eq_ok_iff.2 ⟨h, hm⟩, hm⟩

theorem maxValue_eq_ok_iff {f : Field} {m : UInt8} :
    f.maxValue = .ok m ↔ f.width.toNat < 16 ∧ m.toNat = (2 ^ f.width.toNat - 1) % 256 := by
  unfold maxValue maxValueM
  rw [bind_eq_ok_iff]
  constructor
  · intro h
    obtain ⟨ones, ho, hm⟩ := h
    obtain ⟨hw, ho⟩ := ones_eq_ok_iff.1 ho
    cases hm
    exact ⟨hw, by rw [UInt16.toNat_toUInt8, ho]⟩
  · intro h
    obtain ⟨hw, hm⟩ := h
    obtain ⟨ones, ho, e⟩ := exists_ones hw
    refine ⟨ones, ho, congrArg Except.ok (UInt8.toNat_inj.1 ?_)⟩
    rw [UInt16.toNat_toUInt8, e, hm]

/-- the bits of the placed word, below the eighth: the word has lost none of them. -/
private theorem bit_placed {f : Field} {ones : UInt16}
    (ho : ones.toNat = 2 ^ f.width.toNat - 1) (h : f.offset.toNat < 16) (i : Nat) :
    (ones <<< f.offset.toUInt16).toUInt8.toNat.testBit i
      = (decide (i < 8) && decide (f.Covers i)) := by
  have hc : f.offset.toUInt16.toNat % 16 = f.offset.toNat := by
    rw [UInt8.toNat_toUInt16]
    exact Nat.mod_eq_of_lt h
  rw [UInt16.toNat_toUInt8, UInt16.toNat_shiftLeft, hc, Nat.testBit_mod_two_pow,
    Nat.testBit_mod_two_pow, Nat.testBit_shiftLeft, ho, Nat.testBit_two_pow_sub_one]
  rw [Bool.eq_iff_iff]
  simp only [Bool.and_eq_true, decide_eq_true_eq]
  unfold Covers
  omega

theorem mask_eq_ok_iff {f : Field} {m : UInt8} :
    f.mask = .ok m ↔ f.width.toNat < 16 ∧ f.offset.toNat < 16 ∧
      ∀ i, m.toNat.testBit i = (decide (i < 8) && decide (f.Covers i)) := by
  unfold mask maskM
  rw [bind_eq_ok_iff]
  constructor
  · intro h
    obtain ⟨ones, ho, h⟩ := h
    obtain ⟨hw, ho⟩ := ones_eq_ok_iff.1 ho
    obtain ⟨placed, hp, hm⟩ := bind_eq_ok_iff.1 h
    obtain ⟨hof, rfl⟩ := Word.shl16_eq_ok_iff.1 hp
    cases hm
    exact ⟨hw, hof, bit_placed ho hof⟩
  · intro h
    obtain ⟨hw, hof, hm⟩ := h
    obtain ⟨ones, ho, e⟩ := exists_ones hw
    refine ⟨ones, ho, bind_eq_ok_iff.2 ⟨_, Word.shl16_eq_ok_iff.2 ⟨hof, rfl⟩,
      congrArg Except.ok (Word.eq_of_bits fun i => ?_)⟩⟩
    rw [bit_placed e hof i, hm i]

/-! ### fields inside the byte -/

/-- the field is not empty, lies inside the byte and is as wide as its selector's codes. -/
structure Sound (f : Field) : Prop where
  width_pos : 0 < f.width.toNat
  inside : f.offset.toNat + f.width.toNat ≤ 8
  asWide : f.width = f.selector.width

namespace Sound

variable {f : Field} (h : f.Sound)
include h

theorem lt_of_covers {i : Nat} (hi : f.Covers i) : i < 8 := by
  have := h.inside
  unfold Covers at hi
  omega

theorem offset_lt : f.offset < 8 := by
  have h1 := h.width_pos
  have h2 := h.inside
  show f.offset.toNat < 8
  omega

theorem two_pow_le : 2 ^ f.width.toNat ≤ 256 := by
  have hw : f.width.toNat ≤ 8 := by
    have := h.inside
    omega
  exact Nat.pow_le_pow_right (by omega) hw

/-- a sound field has its largest value, one below the power of its width. -/
theorem exists_maxValue : ∃ m, f.maxValue = .ok m ∧ m.toNat + 1 = 2 ^ f.width.toNat := by
  have hin := h.inside
  have hle := h.two_pow_le
  have hpos : 1 ≤ 2 ^ f.width.toNat := Nat.one_le_two_pow
  have hm : (UInt8.ofNat (2 ^ f.width.toNat - 1)).toNat = 2 ^ f.width.toNat - 1 :=
    UInt8.toNat_ofNat_of_lt' (show _ < 256 by omega)
  refine ⟨UInt8.ofNat (2 ^ f.width.toNat - 1), maxValue_eq_ok_iff.2 ⟨by omega, ?_⟩, ?_⟩
  · rw [hm, Nat.mod_eq_of_lt (by omega)]
  · rw [hm]
    omega

/-- a value is above the largest exactly if it has too many bits. -/
theorem maxValue_lt_iff {m v : UInt8} (hm : f.maxValue = .ok m) :
    m < v ↔ 2 ^ f.width.toNat ≤ v.toNat := by
  obtain ⟨m', hm', e⟩ := h.exists_maxValue
  cases hm.symm.trans hm'
  rw [UInt8.lt_iff_toNat_lt, ← e]
  exact Iff.rfl

/-- a sound field has its mask, whose bits are those that the field covers. -/
theorem exists_mask : ∃ m, f.mask = .ok m ∧ ∀ i, m.toNat.testBit i = decide (f.Covers i) := by
  have hin := h.inside
  have hw := h.width_pos
  have hof : f.offset.toNat < 16 := by omega
  obtain ⟨ones, -, e⟩ := exists_ones (f := f) (by omega)
  refine ⟨_, mask_eq_ok_iff.2 ⟨by omega, hof, bit_placed e hof⟩, fun i => ?_⟩
  rw [bit_placed e hof i, Bool.eq_iff_iff]
  simp only [Bool.and_eq_true, decide_eq_true_eq]
  exact ⟨fun hi => hi.2, fun hi => ⟨h.lt_of_covers hi, hi⟩⟩

end Sound

/-! ### where the bounds trap -/

variable {f : Field} {cause : Overflow}

/-- the difference never underflows: the word from which one is taken is a power of two. -/
theorem ones_eq_error_iff : f.ones = .error cause ↔ 16 ≤ f.width.toNat ∧ cause = .shiftLeft := by
  unfold ones onesM
  rw [bind_eq_error_iff, or_iff_left]
  · exact Word.shl16_eq_error_iff
  rintro ⟨top, htop, hsub⟩
  obtain ⟨hw, -⟩ := Word.shl16_eq_ok_iff.1 htop
  obtain ⟨ones, hones, -⟩ := exists_ones (f := f) hw
  obtain ⟨top', htop', hsub'⟩ := bind_eq_ok_iff.1 hones
  cases htop.symm.trans htop'
  cases hsub.symm.trans hsub'

theorem maxValue_eq_error_iff :
    f.maxValue = .error cause ↔ 16 ≤ f.width.toNat ∧ cause = .shiftLeft := by
  unfold maxValue maxValueM
  rw [bind_eq_error_iff, or_iff_left]
  · exact ones_eq_error_iff
  rintro ⟨ones, -, h⟩
  cases h

theorem mask_eq_error_iff :
    f.mask = .error cause ↔
      (16 ≤ f.width.toNat ∨ 16 ≤ f.offset.toNat) ∧ cause = .shiftLeft := by
  unfold mask maskM
  rw [bind_eq_error_iff]
  constructor
  · rintro (h | ⟨ones, -, h⟩)
    · obtain ⟨hw, rfl⟩ := ones_eq_error_iff.1 h
      exact ⟨.inl hw, rfl⟩
    · rcases bind_eq_error_iff.1 h with h | ⟨placed, -, h⟩
      · obtain ⟨ho, rfl⟩ := Word.shl16_eq_error_iff.1 h
        exact ⟨.inr ho, rfl⟩
      · cases h
  · rintro ⟨h, rfl⟩
    by_cases hw : 16 ≤ f.width.toNat
    · exact .inl (ones_eq_error_iff.2 ⟨hw, rfl⟩)
    · obtain ⟨ones, hones, -⟩ := exists_ones (f := f) (Nat.lt_of_not_le hw)
      have ho := h.resolve_left hw
      exact .inr ⟨ones, hones, bind_eq_error_iff.2 (.inl (Word.shl16_eq_error_iff.2 ⟨ho, rfl⟩))⟩

/-! ### the bounds as numbers -/

theorem low_byte_of_ones (w : Nat) : (2 ^ w - 1) % 256 = min (2 ^ w - 1) 255 := by
  rcases Nat.le_total w 8 with h | h
  · have hle : 2 ^ w ≤ 2 ^ 8 := Nat.pow_le_pow_right (by omega) h
    omega
  · -- eight ones and more end in eight ones
    obtain ⟨k, rfl⟩ := Nat.exists_eq_add_of_le h
    have hpos : 1 ≤ 2 ^ k := Nat.one_le_two_pow
    have e : 2 ^ (8 + k) = 256 * 2 ^ k := Nat.pow_add 2 8 k
    omega

theorem exists_maxValue_of_lt (h : f.width.toNat < 16) :
    ∃ m, f.maxValue = .ok m ∧ m.toNat = min (2 ^ f.width.toNat - 1) 255 := by
  have hlt : min (2 ^ f.width.toNat - 1) 255 < 256 := by omega
  have hm := UInt8.toNat_ofNat_of_lt' hlt
  exact ⟨_, maxValue_eq_ok_iff.2 ⟨h, hm.trans (low_byte_of_ones _).symm⟩, hm⟩

theorem exists_mask_of_lt (hw : f.width.toNat < 16) (ho : f.offset.toNat < 16) :
    ∃ m, f.mask = .ok m ∧ ∀ i < 8, m.toNat.testBit i = true ↔ f.Covers i := by
  cases hm : f.mask with
  | error cause =>
    obtain ⟨h, -⟩ := mask_eq_error_iff.1 hm
    omega
  | ok m =>
    obtain ⟨-, -, hbits⟩ := mask_eq_ok_iff.1 hm
    refine ⟨m, rfl, fun i hi => ?_⟩
    rw [hbits, decide_eq_true hi, Bool.true_and, decide_eq_true_eq]

/-- **Inside the byte, the mask is the largest value moved to the offset**: no bit is lost. -/
theorem mask_eq_shift (h : f.offset.toNat + f.width.toNat ≤ 8) {m k : UInt8}
    (hm : f.maxValue = .ok m) (hk : f.mask = .ok k) :
    k.toNat = m.toNat <<< f.offset.toNat := by
  obtain ⟨-, hm⟩ := maxValue_eq_ok_iff.1 hm
  obtain ⟨-, -, hbits⟩ := mask_eq_ok_iff.1 hk
  have hle : 2 ^ f.width.toNat ≤ 2 ^ 8 := Nat.pow_le_pow_right (by omega) (by omega)
  rw [Nat.mod_eq_of_lt (by omega)] at hm
  apply Nat.eq_of_testBit_eq
  intro i
  rw [hbits, Nat.testBit_shiftLeft, hm, Nat.testBit_two_pow_sub_one, Bool.eq_iff_iff]
  simp only [Bool.and_eq_true, decide_eq_true_eq]
  unfold Covers
  omega

/-- **The bounds of every field, or the shift that traps.**  The largest value traps on a width of 16
and more, the mask on an offset of 16 and more as well, and always by the count of a shift.  Else the
largest value is one below the power of the width, or 255 if that is less, and the mask sets the bits
that the field covers; of a field inside the byte it is the largest value moved to the offset. -/
theorem bounds_or_trap (f : Field) :
    (∀ cause, f.maxValue = .error cause ↔ 16 ≤ f.width.toNat ∧ cause = .shiftLeft) ∧
    (∀ cause, f.mask = .error cause ↔
      (16 ≤ f.width.toNat ∨ 16 ≤ f.offset.toNat) ∧ cause = .shiftLeft) ∧
    (f.width.toNat < 16 → ∃ m, f.maxValue = .ok m ∧ m.toNat = min (2 ^ f.width.toNat - 1) 255) ∧
    (f.width.toNat < 16 → f.offset.toNat < 16 → ∃ k, f.mask = .ok k ∧
      ∀ i < 8, k.toNat.testBit i = true ↔ f.Covers i) ∧
    (f.offset.toNat + f.width.toNat ≤ 8 → ∃ m k, f.maxValue = .ok m ∧ f.mask = .ok k ∧
      k.toNat = m.toNat <<< f.offset.toNat) := by
  refine ⟨fun _ => maxValue_eq_error_iff, fun _ => mask_eq_error_iff, exists_maxValue_of_lt,
    exists_mask_of_lt, fun h => ?_⟩
  obtain ⟨m, hm, -⟩ := exists_maxValue_of_lt (f := f) (by omega)
  obtain ⟨k, hk, -⟩ := exists_mask_of_lt (f := f) (by omega) (by omega)
  exact ⟨m, k, hm, hk, mask_eq_shift h hm hk⟩

/-- a field far behind the byte, whose mask has no bit of it; one whose word loses four of its bits; an
empty field at the end of the byte; and an empty one whose offset traps. -/
theorem bounds_or_trap_far :
    (∃ m, maxValue ⟨15, 15, .register⟩ = .ok m ∧ m.toNat = 255) ∧
    (∃ k, mask ⟨15, 15, .register⟩ = .ok k ∧ ¬ k.toNat.testBit 7 = true) ∧
    (∃ k, mask ⟨6, 14, .register⟩ = .ok k ∧ k.toNat.testBit 7 = true ∧
      ¬ k.toNat.testBit 5 = true) ∧
    (∃ m k, maxValue ⟨8, 0, .register⟩ = .ok m ∧ mask ⟨8, 0, .register⟩ = .ok k ∧
      k.toNat = m.toNat <<< 8) ∧
    mask ⟨16, 0, .register⟩ = .error .shiftLeft := by
  obtain ⟨-, -, hmax, hfar, -⟩ := bounds_or_trap ⟨15, 15, .register⟩
  obtain ⟨j, hj, hjbits⟩ := hfar (by decide) (by decide)
  obtain ⟨-, -, -, hmask, -⟩ := bounds_or_trap ⟨6, 14, .register⟩
  obtain ⟨k, hk, hkbits⟩ := hmask (by decide) (by decide)
  obtain ⟨-, -, -, -, hinside⟩ := bounds_or_trap ⟨8, 0, .register⟩
  obtain ⟨-, htrap, -, -, -⟩ := bounds_or_trap ⟨16, 0, .register⟩
  exact ⟨hmax (by decide), ⟨j, hj, mt (hjbits 7 (by decide)).1 (by decide)⟩,
    ⟨k, hk, (hkbits 7 (by decide)).2 (by decide), mt (hkbits 5 (by decide)).1 (by decide)⟩,
    hinside (by decide), (htrap _).2 ⟨.inr (by decide), rfl⟩⟩

end Field

end OpcodeChart
