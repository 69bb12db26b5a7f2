import OpcodeChart.Text

/-!
# Codings

A coding assigns bit codes of one width to identities (registers, pairs, or whatever else an opcode
field selects).  It is a list of pairs; both lookups answer with the first pair that matches, so
they are defined for a faulty coding too.

* `Coding.code? x`        the code of `x`;
* `Coding.identity? c`    the identity with code `c`;
* `Coding.identities`     the identities, as listed;
* `Coding.fault?`         what is wrong with a coding;
* `Coding.Fault.reason`   the wording of a fault.

A coding is sound when its width is one to eight bits, every code fits that width, and no identity
and no code is listed twice.  `Coding.fault?` finds the first violation: the width first, then the
pairs in order, each pair's own code before its clashes with the pairs behind it.
-/

namespace OpcodeChart

structure Coding (α : Type) where
  name : String
  /-- bits in every code. -/
  width : UInt8
  pairs : List (α × UInt8)
  deriving DecidableEq

namespace Coding

variable {α : Type}

def size (t : Coding α) : Nat := t.pairs.length

def isEmpty (t : Coding α) : Bool := t.pairs.isEmpty

def identities (t : Coding α) : List α := t.pairs.map (·.1)

def code? [DecidableEq α] (t : Coding α) (x : α) : Option UInt8 :=
  (t.pairs.find? fun p => p.1 = x).map (·.2)

def identity? (t : Coding α) (c : UInt8) : Option α :=
  (t.pairs.find? fun p => p.2 = c).map (·.1)

theorem mem_of_code? [DecidableEq α] {t : Coding α} {x : α} {c : UInt8} (h : t.code? x = some c) :
    (x, c) ∈ t.pairs := by
  obtain ⟨⟨y, d⟩, hp, rfl⟩ := Option.map_eq_some_iff.1 h
  obtain rfl : y = x := by simpa using List.find?_some hp
  exact List.mem_of_find?_eq_some hp

theorem mem_of_identity? {t : Coding α} {x : α} {c : UInt8} (h : t.identity? c = some x) :
    (x, c) ∈ t.pairs := by
  obtain ⟨⟨y, d⟩, hp, rfl⟩ := Option.map_eq_some_iff.1 h
  obtain rfl : d = c := by simpa using List.find?_some hp
  exact List.mem_of_find?_eq_some hp

theorem code?_isSome_iff [DecidableEq α] {t : Coding α} {x : α} :
    (t.code? x).isSome ↔ x ∈ t.identities := by
  simp [code?, identities]

/-! ### faults -/

inductive Fault (α : Type)
  /-- the width is no width of a field. -/
  | width (width : UInt8)
  /-- the code of an identity needs more bits than the width. -/
  | tooWide (identity : α) (code width : UInt8)
  | listedTwice (identity : α)
  /-- two identities have one code. -/
  | shared (first second : α) (code : UInt8)
  deriving DecidableEq

def Fault.reason [Spelled α] : Fault α → String
  | .width w => "width " ++ Text.decimal w ++ " is not a valid field width"
  | .tooWide x c w =>
    "code " ++ Text.binary c ++ " for " ++ inspect x ++ " exceeds " ++ Text.decimal w ++ " bits"
  | .listedTwice x => inspect x ++ " listed twice"
  | .shared x y c => inspect x ++ " and " ++ inspect y ++ " share code " ++ Text.binary c

variable [DecidableEq α]

/-- the first of the later pairs that repeats the identity `x` or its code `c`; a pair that repeats
both counts as the identity listed twice. -/
def clash? (x : α) (c : UInt8) : List (α × UInt8) → Option (Fault α)
  | [] => none
  | (y, d) :: later =>
    if y = x then some (.listedTwice x)
    else if d = c then some (.shared x y c)
    else clash? x c later

/-- the first fault among pairs whose codes have `w` bits. -/
def pairFault? (w : UInt8) : List (α × UInt8) → Option (Fault α)
  | [] => none
  | (x, c) :: later =>
    if 2 ^ w.toNat ≤ c.toNat then some (.tooWide x c w)
    else (clash? x c later).or (pairFault? w later)

def fault? (t : Coding α) : Option (Fault α) :=
  if t.width = 0 ∨ 8 < t.width then some (.width t.width) else pairFault? t.width t.pairs

theorem clash?_eq_none_iff {x : α} {c : UInt8} {later : List (α × UInt8)} :
    clash? x c later = none ↔ ∀ p ∈ later, p.1 ≠ x ∧ p.2 ≠ c := by
  induction later with
  | nil => simp [clash?]
  | cons p later ih =>
    obtain ⟨y, d⟩ := p
    by_cases hy : y = x <;> by_cases hd : d = c <;> simp [clash?, hy, hd, ih]

end Coding

end OpcodeChart
