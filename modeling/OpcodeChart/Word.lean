/-!
# Trapping word arithmetic

Arithmetic on machine words that reports an overflow instead of wrapping around.

* `Overflow`                               the operation that overflowed;
* `Word.add16`, `Word.sub16`               sum and difference; they trap when the result leaves the
                                           word;
* `Word.shl16`, `Word.shl8`, `Word.shr8`   shifts; they trap when the count reaches the word's width,
                                           while bits that leave the word are lost without a trap;
* `Word.Step`, `Step.run`                  an operation with its operands, and what it computes;
* `WordOps M`                              computations `M ε α` that can carry out operations, and
                                           end in a value of `α` or an error of `ε`.

Each operation has one lemma that says when it succeeds, and with what; of `shl16` a second one says
when it traps.  Functions that compute with words are written once, over `WordOps`; they run in
`Except`, where a step is its result and nothing else is kept.
-/

namespace OpcodeChart

inductive Overflow
  | add
  | subtract
  | shiftLeft
  | shiftRight
  deriving DecidableEq, Repr

def Overflow.message : Overflow → String
  | .add => "attempt to add with overflow"
  | .subtract => "attempt to subtract with overflow"
  | .shiftLeft => "attempt to shift left with overflow"
  | .shiftRight => "attempt to shift right with overflow"

namespace Word

def add16 (a b : UInt16) : Except Overflow UInt16 :=
  if a.toNat + b.toNat < UInt16.size then .ok (a + b) else .error .add

def sub16 (a b : UInt16) : Except Overflow UInt16 :=
  if b ≤ a then .ok (a - b) else .error .subtract

def shl16 (a : UInt16) (count : UInt8) : Except Overflow UInt16 :=
  if count < 16 then .ok (a <<< count.toUInt16) else .error .shiftLeft

def shl8 (a count : UInt8) : Except Overflow UInt8 :=
  if count < 8 then .ok (a <<< count) else .error .shiftLeft

def shr8 (a count : UInt8) : Except Overflow UInt8 :=
  if count < 8 then .ok (a >>> count) else .error .shiftRight

/-- a word operation with its operands. -/
inductive Step
  | add16 (a b : UInt16)
  | sub16 (a b : UInt16)
  | shl16 (a : UInt16) (count : UInt8)
  | shl8 (a count : UInt8)
  | shr8 (a count : UInt8)
  deriving DecidableEq

namespace Step

/-- the words that the operation results in. -/
@[reducible] def Result : Step → Type
  | .add16 _ _ | .sub16 _ _ | .shl16 _ _ => UInt16
  | .shl8 _ _ | .shr8 _ _ => UInt8

def run : (s : Step) → Except Overflow s.Result
  | .add16 a b => Word.add16 a b
  | .sub16 a b => Word.sub16 a b
  | .shl16 a count => Word.shl16 a count
  | .shl8 a count => Word.shl8 a count
  | .shr8 a count => Word.shr8 a count

end Step

/-- a guarded result is there exactly when its guard holds. -/
theorem guarded_eq_ok_iff {ε α : Type} {guard : Prop} [Decidable guard] {a c : α} {e : ε} :
    (if guard then Except.ok a else Except.error e) = Except.ok c ↔ guard ∧ c = a := by
  split
  · next h => exact ⟨fun hc => ⟨h, (Except.ok.inj hc).symm⟩, fun hc => hc.2 ▸ rfl⟩
  · next h => exact ⟨(nomatch ·), fun hc => absurd hc.1 h⟩

/-- a guarded result is missing exactly when its guard fails. -/
theorem guarded_eq_error_iff {ε α : Type} {guard : Prop} [Decidable guard] {a : α} {e e' : ε} :
    (if guard then Except.ok a else Except.error e) = Except.error e' ↔ ¬ guard ∧ e' = e := by
  split
  · next h => exact ⟨(nomatch ·), fun he => absurd h he.1⟩
  · next h => exact ⟨fun he => ⟨h, (Except.error.inj he).symm⟩, fun he => he.2 ▸ rfl⟩

theorem add16_eq_ok_iff {a b c : UInt16} :
    add16 a b = .ok c ↔ a.toNat + b.toNat < UInt16.size ∧ c = a + b :=
  guarded_eq_ok_iff

theorem sub16_eq_ok_iff {a b c : UInt16} : sub16 a b = .ok c ↔ b ≤ a ∧ c = a - b :=
  guarded_eq_ok_iff

theorem shl16_eq_ok_iff {a c : UInt16} {count : UInt8} :
    shl16 a count = .ok c ↔ count < 16 ∧ c = a <<< count.toUInt16 :=
  guarded_eq_ok_iff

theorem shl16_eq_error_iff {a : UInt16} {count : UInt8} {cause : Overflow} :
    shl16 a count = .error cause ↔ 16 ≤ count ∧ cause = .shiftLeft :=
  guarded_eq_error_iff.trans (and_congr_left' UInt8.not_lt)

theorem shl8_eq_ok_iff {a c count : UInt8} :
    shl8 a count = .ok c ↔ count < 8 ∧ c = a <<< count :=
  guarded_eq_ok_iff

theorem shr8_eq_ok_iff {a c count : UInt8} :
    shr8 a count = .ok c ↔ count < 8 ∧ c = a >>> count :=
  guarded_eq_ok_iff

end Word

/-- how computations carry out a word operation, and how they end with an error. -/
class WordOps (M : Type → Type → Type) where
  step : (s : Word.Step) → M Overflow s.Result
  fail {ε α : Type} : ε → M ε α
  /-- an overflow as an error of another sort. -/
  raise {ε α : Type} : (Overflow → ε) → M Overflow α → M ε α

instance : WordOps Except where
  step := Word.Step.run
  fail := .error
  raise
    | _, .ok a => .ok a
    | error, .error cause => .error (error cause)

end OpcodeChart
