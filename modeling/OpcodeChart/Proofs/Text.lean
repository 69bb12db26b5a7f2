import Mathlib.Algebra.Group.Nat.Defs
import Mathlib.Data.List.TakeWhile
import OpcodeChart.Register

/-!
# Texts told apart

Numerals of different bytes differ, and parts put together into one text can be read off it again if
a part does not hold what separates it from the next.

* `Text.toList_decimal`, `toList_binary`         the numerals of a byte are those of its number;
* `Text.decimal_injective`, `binary_injective`   bytes differ in their numerals;
* `Text.run_append_inj`                          where a run of characters of one sort ends;
* `Text.words_injective`                         **words can be read off a text with a blank between
                                                 any two**;
* `Text.Readable α`                              each value of `α` is spelled in one word, and no two
                                                 alike.
-/

namespace OpcodeChart.Text

/-! ### numerals -/

theorem toList_decimal (b : UInt8) : (decimal b).toList = Nat.toDigits 10 b.toNat := by
  rw [decimal_eq_toString, Nat.toString_eq_repr, Nat.toList_repr]

theorem isDigit_of_mem_decimal {b : UInt8} {c : Char} (h : c ∈ (decimal b).toList) :
    c.isDigit = true := by
  rw [toList_decimal] at h
  exact Nat.isDigit_of_mem_toDigits (by decide) (by decide) h

/-- digits to a base from two to ten tell the number. -/
theorem toDigits_injective {base m n : Nat} (h1 : 1 < base) (h10 : base ≤ 10)
    (h : Nat.toDigits base m = Nat.toDigits base n) : m = n := by
  rw [← Nat.ofDigitChars_toDigits (n := m) h1 h10, h, Nat.ofDigitChars_toDigits h1 h10]

theorem decimal_injective {a b : UInt8} (h : decimal a = decimal b) : a = b := by
  have hd := congrArg String.toList h
  rw [toList_decimal, toList_decimal] at hd
  exact UInt8.toNat_inj.1 (toDigits_injective (by decide) (by decide) hd)

theorem dropWhile_bits_zero (k : Nat) :
    ((List.range k).reverse.map (0 : Nat).testBit).dropWhile (· == false) = [] := by
  rw [List.dropWhile_eq_nil_iff]
  intro bit hbit
  obtain ⟨i, -, rfl⟩ := List.mem_map.1 hbit
  rw [Nat.zero_testBit]
  rfl

/-- the bits of a number, from the highest set one down, are its binary digits. -/
theorem bitDigits_eq_toDigits {n k : Nat} (hpos : 0 < n) (h : n < 2 ^ k) :
    (((List.range k).reverse.map n.testBit).dropWhile (· == false)).map bitDigit =
      Nat.toDigits 2 n := by
  -- on both sides, the lowest bit comes last
  induction k generalizing n with
  | zero => omega
  | succ k ih =>
    have hlow : (List.range (k + 1)).reverse.map n.testBit =
        (List.range k).reverse.map (n / 2).testBit ++ [n.testBit 0] := by
      rw [List.range_succ_eq_map, List.reverse_cons, List.map_append, ← List.map_reverse,
        List.map_map, List.map_singleton]
      exact congrArg (· ++ _) (List.map_congr_left fun i _ => Nat.testBit_succ n i)
    rw [hlow, List.dropWhile_append]
    rcases Nat.lt_or_ge n 2 with hn | hn
    · obtain rfl : n = 1 := by omega
      rw [dropWhile_bits_zero k]
      rfl
    · have hhalf := ih (n := n / 2) (by omega) (by omega)
      have hbit : bitDigit (n.testBit 0) = (n % 2).digitChar := by
        rcases Nat.mod_two_eq_zero_or_one n with h | h <;> simp [Nat.testBit_zero, h, bitDigit]
      rw [if_neg, List.map_append, hhalf, List.map_singleton, hbit,
        Nat.toDigits_of_base_le (by decide) hn]
      intro hempty
      rw [List.isEmpty_iff.1 hempty] at hhalf
      exact Nat.toDigits_ne_nil hhalf.symm

/-- **The binary numeral of a byte is that of its number.** -/
theorem toList_binary (b : UInt8) :
    (binary b).toList = '0' :: 'b' :: Nat.toDigits 2 b.toNat := by
  have hlt : b.toNat < 2 ^ 8 := b.toNat_lt
  unfold binary bits
  rcases Nat.eq_zero_or_pos b.toNat with h | h
  · rw [h, dropWhile_bits_zero 8]
    rfl
  · have hdigits := bitDigits_eq_toDigits h hlt
    rw [← hdigits]
    split
    · next hnil =>
      rw [hnil] at hdigits
      exact absurd hdigits.symm Nat.toDigits_ne_nil
    · exact String.toList_ofList

theorem binary_injective {a b : UInt8} (h : binary a = binary b) : a = b := by
  have hd := congrArg String.toList h
  rw [toList_binary, toList_binary] at hd
  have htail := (List.cons.inj (List.cons.inj hd).2).2
  exact UInt8.toNat_inj.1 (toDigits_injective (by decide) (by decide) htail)

/-! ### runs of characters -/

/-- no character of the sort `p` comes first. -/
def Stops (p : Char → Bool) (r : List Char) : Prop := ∀ c ∈ r.head?, p c = false

theorem stops_cons {p : Char → Bool} {c : Char} (h : p c = false) (r : List Char) :
    Stops p (c :: r) := by
  intro x hx
  cases hx
  exact h

theorem takeWhile_append_stops {p : Char → Bool} {u r : List Char} (hu : ∀ c ∈ u, p c = true)
    (hr : Stops p r) : (u ++ r).takeWhile p = u := by
  have hnone : r.takeWhile p = [] := by
    cases r with
    | nil => rfl
    | cons c r => exact List.takeWhile_cons_of_neg (by rw [hr c rfl]; exact Bool.false_ne_true)
  rw [List.takeWhile_append_of_pos hu, hnone, List.append_nil]

/-- a run of characters of the sort `p` ends where the sort ends. -/
theorem run_append_inj {p : Char → Bool} {u v r s : List Char} (hu : ∀ c ∈ u, p c = true)
    (hv : ∀ c ∈ v, p c = true) (hr : Stops p r) (hs : Stops p s) (h : u ++ r = v ++ s) :
    u = v ∧ r = s := by
  have huv : u = v := by
    rw [← takeWhile_append_stops hu hr, h, takeWhile_append_stops hv hs]
  subst huv
  exact ⟨rfl, List.append_cancel_left h⟩

/-! ### parts with a character between them -/

theorem intercalate_cons_flatMap (sep : Char) (l : List Char) (ls : List (List Char)) :
    [sep].intercalate (l :: ls) = l ++ ls.flatMap (sep :: ·) := by
  induction ls generalizing l with
  | nil => simp
  | cons l' ls ih => rw [List.intercalate_cons_cons, ih]; simp

/-- no blank stands in `s`. -/
def OneWord (s : String) : Prop := ' ' ∉ s.toList

instance (s : String) : Decidable (OneWord s) := inferInstanceAs (Decidable (¬ _))

theorem oneWord_decimal (b : UInt8) : OneWord (decimal b) :=
  fun hblank => Bool.false_ne_true (isDigit_of_mem_decimal hblank)

theorem oneWord_binary (b : UInt8) : OneWord (binary b) := by
  unfold OneWord
  rw [toList_binary, List.mem_cons, List.mem_cons]
  rintro (h | h | h)
  · cases h
  · cases h
  · cases Nat.isDigit_of_mem_toDigits (by decide) (by decide) h

/-- **Words can be read off a text with a blank between any two.** -/
theorem words_injective {us vs : List String} (hu : ∀ u ∈ us, OneWord u)
    (hv : ∀ v ∈ vs, OneWord v) (hus : us ≠ []) (hvs : vs ≠ [])
    (h : " ".intercalate us = " ".intercalate vs) : us = vs := by
  have hsplit : ∀ ws : List String, (∀ w ∈ ws, OneWord w) → ws ≠ [] →
      List.splitOn ' ' (" ".intercalate ws).toList = ws.map String.toList := by
    intro ws hw hws
    rw [String.toList_intercalate]
    refine List.splitOn_intercalate ' ' (fun l hl => ?_) (mt List.map_eq_nil_iff.1 hws)
    obtain ⟨w, hmem, rfl⟩ := List.mem_map.1 hl
    exact hw w hmem
  have hmap := hsplit us hu hus
  rw [h, hsplit vs hv hvs] at hmap
  exact ((List.map_inj_right fun _ _ => String.toList_inj.1).1 hmap).symm

/-- each value is spelled in one word, and no two alike. -/
class Readable (α : Type) [Spelled α] : Prop where
  oneWord : ∀ x : α, OneWord (inspect x)
  injective : ∀ {x y : α}, inspect x = inspect y → x = y

instance : Readable UInt8 where
  oneWord := oneWord_decimal
  injective := decimal_injective

instance : Readable Register where
  oneWord r := by cases r <;> decide
  injective := Register.name_injective

instance : Readable Pair where
  oneWord p := by cases p <;> decide
  injective := Pair.name_injective

end OpcodeChart.Text
