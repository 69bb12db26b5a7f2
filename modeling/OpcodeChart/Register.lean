import OpcodeChart.Text

/-!
# Registers and operands

The eight 8-bit registers of the processor, the four pairs that act as 16-bit registers, and the
operands: where an operation reads or writes.  Registers and pairs are ordered as declared.

* `Register.name`            the letter of a register;
* `Pair.high`, `.low`        the registers that hold the two bytes of a pair;
* `Pair.name`                the two letters, high byte first;
* `Operand.text`             the operand in assembler notation;
* `Operand.isMemory`         does it stand for memory?
* `Operand.immediateBytes`   the bytes that it takes from behind the opcode.
-/

namespace OpcodeChart

inductive Register
  | A | F | B | C | D | E | H | L
  deriving DecidableEq, Ord, Repr

namespace Register

def all : List Register := [.A, .F, .B, .C, .D, .E, .H, .L]

def name : Register → String
  | .A => "A"
  | .F => "F"
  | .B => "B"
  | .C => "C"
  | .D => "D"
  | .E => "E"
  | .H => "H"
  | .L => "L"

instance : Spelled Register := ⟨fun r => .bare r.name⟩

theorem mem_all (r : Register) : r ∈ all := by cases r <;> decide

theorem name_injective {r s : Register} (h : r.name = s.name) : r = s := by
  revert h
  cases r <;> cases s <;> decide

end Register

inductive Pair
  | BC | DE | HL | AF
  deriving DecidableEq, Ord, Repr

namespace Pair

def all : List Pair := [.BC, .DE, .HL, .AF]

/-- the register of the upper byte. -/
def high : Pair → Register
  | .BC => .B
  | .DE => .D
  | .HL => .H
  | .AF => .A

/-- the register of the lower byte. -/
def low : Pair → Register
  | .BC => .C
  | .DE => .E
  | .HL => .L
  | .AF => .F

def name (p : Pair) : String := p.high.name ++ p.low.name

instance : Spelled Pair := ⟨fun p => .bare p.name⟩

theorem mem_all (p : Pair) : p ∈ all := by cases p <;> decide

theorem name_injective {p q : Pair} (h : p.name = q.name) : p = q := by
  revert h
  cases p <;> cases q <;> decide

end Pair

inductive Operand
  | register (r : Register)
  | pair (p : Pair)
  | stackPointer
  /-- memory at the address in a pair. -/
  | pointer (p : Pair)
  /-- memory in the page `0xFF00`, at the offset in a register. -/
  | highPagePointer (r : Register)
  /-- the byte behind the opcode. -/
  | immediate8
  /-- the word behind the opcode, low byte first. -/
  | immediate16
  /-- memory in the page `0xFF00`, at the offset behind the opcode. -/
  | highPageAddress
  /-- memory at the address behind the opcode, low byte first. -/
  | address16
  /-- memory at the stack pointer. -/
  | stack
  deriving DecidableEq

namespace Operand

def text : Operand → String
  | .register r => r.name
  | .pair p => p.name
  | .stackPointer => "SP"
  | .pointer p => "(" ++ p.name ++ ")"
  | .highPagePointer r => "(" ++ r.name ++ ")"
  | .immediate8 => "d8"
  | .immediate16 => "d16"
  | .highPageAddress => "(a8)"
  | .address16 => "(a16)"
  | .stack => "(SP)"

instance : Spelled Operand where
  symbol
    | .register r => .tagged "Register" r.name
    | .pair p => .tagged "RegisterPair" p.name
    | .stackPointer => .bare "StackPointer"
    | .pointer p => .tagged "PairPointer" p.name
    | .highPagePointer r => .tagged "HighPagePointer" r.name
    | .immediate8 => .bare "Immediate8"
    | .immediate16 => .bare "Immediate16"
    | .highPageAddress => .bare "HighPageAddress"
    | .address16 => .bare "Address16"
    | .stack => .bare "Stack"

def isMemory : Operand → Bool
  | .pointer _ | .highPagePointer _ | .highPageAddress | .address16 | .stack => true
  | .register _ | .pair _ | .stackPointer | .immediate8 | .immediate16 => false

def immediateBytes : Operand → Nat
  | .immediate8 | .highPageAddress => 1
  | .immediate16 | .address16 => 2
  | .register _ | .pair _ | .stackPointer | .pointer _ | .highPagePointer _ | .stack => 0

theorem immediateBytes_le (x : Operand) : x.immediateBytes ≤ 2 := by
  cases x <;> simp [immediateBytes]

end Operand

end OpcodeChart
