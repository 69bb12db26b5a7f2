import OpcodeChart.Coding
import OpcodeChart.Register
import OpcodeChart.Word

/-!
# Opcode fields

A field is a range of bits inside an opcode byte, filled with codes.  A selector says which coding
supplies them; a selection is what such a value selects.  A selector has codes for selections of its
own sort alone.

* `Coding.register`           three bits for a single register; code 6 selects none, `F` has no code;
* `Coding.loadPair`           two bits for the pair of a 16-bit load; code 3 selects none;
* `Coding.stackPair`          two bits for a pair pushed or popped;
* `Selector.code? s x`        the code of the selection `x`;
* `Selector.selection? s c`   the selection with code `c`;
* `Selector.selections s`     all selections that have a code, in the order of the coding;
* `Field.ofSelector`          a field as wide as the codes of its selector;
* `Field.maxValue`            the largest value that the field can hold;
* `Field.mask`                the bits of the opcode that it covers.

The two pair codings have one width but differ in what they select, so they stay apart.

Both bounds of a field are computed in 16-bit words and cut to a byte at the end, so they trap only on
a width or an offset of 16 and more.  A function whose name ends in `M` is the one behind the name
without it, for any computations with word operations.
-/

namespace OpcodeChart

namespace Coding

/-! ### the codings of the load/transfer group -/

def register : Coding Register where
  name := "register"
  width := 3
  pairs := [(.B, 0), (.C, 1), (.D, 2), (.E, 3), (.H, 4), (.L, 5), (.A, 7)]

def loadPair : Coding Pair where
  name := "16-bit load pair"
  width := 2
  pairs := [(.BC, 0), (.DE, 1), (.HL, 2)]

def stackPair : Coding Pair where
  name := "push/pop pair"
  width := 2
  pairs := [(.BC, 0), (.DE, 1), (.HL, 2), (.AF, 3)]

end Coding

/-! ### selectors -/

/-- what the value of a field selects. -/
inductive Selection
  | register (r : Register)
  | pair (p : Pair)
  deriving DecidableEq

namespace Selection

def name : Selection → String
  | .register r => r.name
  | .pair p => p.name

instance : Spelled Selection where
  symbol
    | .register r => .tagged "Register" r.name
    | .pair p => .tagged "Pair" p.name

end Selection

inductive Selector
  | register
  | loadPair
  | stackPair
  deriving DecidableEq

namespace Selector

def all : List Selector := [.register, .loadPair, .stackPair]

/-- the name of the coding behind a selector. -/
def name : Selector → String
  | .register => Coding.register.name
  | .loadPair => Coding.loadPair.name
  | .stackPair => Coding.stackPair.name

/-- bits in every code of the selector. -/
def width : Selector → UInt8
  | .register => Coding.register.width
  | .loadPair => Coding.loadPair.width
  | .stackPair => Coding.stackPair.width

def selections : Selector → List Selection
  | .register => Coding.register.identities.map .register
  | .loadPair => Coding.loadPair.identities.map .pair
  | .stackPair => Coding.stackPair.identities.map .pair

def code? : Selector → Selection → Option UInt8
  | .register, .register r => Coding.register.code? r
  | .loadPair, .pair p => Coding.loadPair.code? p
  | .stackPair, .pair p => Coding.stackPair.code? p
  | _, _ => none

def selection? : Selector → UInt8 → Option Selection
  | .register, c => (Coding.register.identity? c).map .register
  | .loadPair, c => (Coding.loadPair.identity? c).map .pair
  | .stackPair, c => (Coding.stackPair.identity? c).map .pair

end Selector

/-! ### fields -/

structure Field where
  /-- position of the lowest bit. -/
  offset : UInt8
  width : UInt8
  selector : Selector
  deriving DecidableEq

namespace Field

def ofSelector (offset : UInt8) (selector : Selector) : Field := ⟨offset, selector.width, selector⟩

section
variable {M : Type → Type → Type} [∀ ε, Monad (M ε)] [WordOps M]

/-- as many ones as the field is wide, at the low end of a word. -/
def onesM (f : Field) : M Overflow UInt16 := do
  let top ← WordOps.step (.shl16 1 f.width)
  WordOps.step (.sub16 top 1)

def maxValueM (f : Field) : M Overflow UInt8 := do
  let ones ← f.onesM
  return ones.toUInt8

def maskM (f : Field) : M Overflow UInt8 := do
  let ones ← f.onesM
  let placed ← WordOps.step (.shl16 ones f.offset)
  return placed.toUInt8

end

abbrev ones (f : Field) : Except Overflow UInt16 := f.onesM

abbrev maxValue (f : Field) : Except Overflow UInt8 := f.maxValueM

abbrev mask (f : Field) : Except Overflow UInt8 := f.maskM

end Field

end OpcodeChart
