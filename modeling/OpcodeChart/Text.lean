/-!
# Text of bytes, objects and names

How a byte is written in messages and keys, how parts are put together in JSON without blanks, and
how a message or a JSON text shows the name of a value.

* `Text.decimal b`      the decimal digits, no leading zero (`65`);
* `Text.hexByte b`      `0x` and two upper-case digits (`0x0A`);
* `Text.binaryByte b`   `0b` and all eight bits, highest first (`0b00000110`);
* `Text.binary b`       `0b` and the bits from the highest set one down (`0b110`), `0b0` for zero;
* `Text.Json.object`    an object, members in the order given;
* `Symbol.text`         a symbol in a message: `A`, or `Register(A)` with a tag;
* `Symbol.json`         a symbol in JSON: `"A"`, or `{"Register":"A"}` with a tag;
* `Spelled α`           the values of `α` have symbols.

The names and keys written here are plain words and numerals, so no character ever needs an escape.
`Text.decimal_eq_toString` says that the decimal digits are those of the number.
-/

namespace OpcodeChart

namespace Text

/-! ### bytes -/

/-- the digits `0` to `9` and `A` to `F`. -/
def digits : List Char :=
  ['0', '1', '2', '3', '4', '5', '6', '7', '8', '9', 'A', 'B', 'C', 'D', 'E', 'F']

/-- the digit of value `n`; only the low four bits count. -/
def digit (n : Nat) : Char := digits.getD (n % 16) '0'

/-- the decimal digits of a byte, highest first and without leading zeros. -/
def decimalDigits (b : UInt8) : List Nat :=
  let n := b.toNat
  if n < 10 then [n]
  else if n < 100 then [n / 10, n % 10]
  else [n / 100, n / 10 % 10, n % 10]

def decimal (b : UInt8) : String := String.ofList ((decimalDigits b).map digit)

theorem digit_eq_digitChar {n : Nat} (h : n < 10) : digit n = n.digitChar := by
  have hall : ∀ n < 10, digit n = n.digitChar := by decide
  exact hall n h

/-- **The decimal numeral of a byte is that of its number.** -/
theorem decimal_eq_toString (b : UInt8) : decimal b = toString b.toNat := by
  have hb := b.toNat_lt
  rw [Nat.toString_eq_ofList_toDigits, decimal, decimalDigits]
  generalize b.toNat = n at hb
  -- one case for each number of digits
  split
  · next h => rw [Nat.toDigits_of_lt_base h, List.map_singleton, digit_eq_digitChar h]
  · next h =>
    rw [Nat.toDigits_of_base_le (by omega) (by omega)]
    split
    · rw [Nat.toDigits_of_lt_base (by omega), List.map_cons, List.map_singleton,
        digit_eq_digitChar (by omega), digit_eq_digitChar (by omega)]
      rfl
    · rw [Nat.toDigits_of_base_le (by omega) (by omega), Nat.toDigits_of_lt_base (by omega),
        Nat.div_div_eq_div_mul, List.map_cons, List.map_cons, List.map_singleton,
        digit_eq_digitChar (by omega), digit_eq_digitChar (by omega),
        digit_eq_digitChar (by omega)]
      rfl

def hexByte (b : UInt8) : String :=
  String.ofList ['0', 'x', digit (b.toNat / 16), digit (b.toNat % 16)]

/-- the eight bits of a byte, highest first. -/
def bits (b : UInt8) : List Bool := (List.range 8).reverse.map b.toNat.testBit

def bitDigit (b : Bool) : Char := if b then '1' else '0'

def binaryByte (b : UInt8) : String := String.ofList ('0' :: 'b' :: (bits b).map bitDigit)

def binary (b : UInt8) : String :=
  match (bits b).dropWhile (· == false) with
  | [] => "0b0"
  | significant => String.ofList ('0' :: 'b' :: significant.map bitDigit)

/-! ### compact JSON -/

namespace Json

def quoted (s : String) : String := "\"" ++ s ++ "\""

def member (key value : String) : String := quoted key ++ ":" ++ value

def object (members : List (String × String)) : String :=
  "\x7b" ++ ",".intercalate (members.map fun m => member m.1 m.2) ++ "\x7d"

theorem toList_quoted (s : String) : (quoted s).toList = '"' :: s.toList ++ ['"'] := by
  simp [quoted]

end Json

end Text

/-! ### symbols -/

inductive Symbol
  | bare (name : String)
  | tagged (tag name : String)
  deriving DecidableEq

namespace Symbol

/-- the form used in messages. -/
def text : Symbol → String
  | .bare name => name
  | .tagged tag name => tag ++ "(" ++ name ++ ")"

/-- the form used in JSON. -/
def json : Symbol → String
  | .bare name => Text.Json.quoted name
  | .tagged tag name => Text.Json.object [(tag, Text.Json.quoted name)]

end Symbol

/-- values that have a symbol. -/
class Spelled (α : Type) where
  symbol : α → Symbol

/-- the message form of a value. -/
def inspect {α : Type} [Spelled α] (a : α) : String := (Spelled.symbol a).text

/-- the JSON form of a value. -/
def jsonName {α : Type} [Spelled α] (a : α) : String := (Spelled.symbol a).json

/-- the message form of a list: its members between brackets. -/
def inspectList {α : Type} [Spelled α] (as : List α) : String :=
  "[" ++ ", ".intercalate (as.map inspect) ++ "]"

/-- a byte is named by its decimal digits. -/
instance : Spelled UInt8 := ⟨fun b => .bare (Text.decimal b)⟩

end OpcodeChart
