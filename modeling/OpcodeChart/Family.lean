import OpcodeChart.Chart
import OpcodeChart.Template

/-!
# Instruction families, claims and errors

A family is a group of opcodes with one layout: a fixed pattern and the fields that select the
operands.  Families are ordered as declared.

| family                | opcode      | fields            | cycles |
|-----------------------|-------------|-------------------|--------|
| `registerToRegister`  | `01dddsss`  | two registers     | 1      |
| `immediateToRegister` | `00ddd110`  | register          | 2      |
| `pointerToRegister`   | `01ddd110`  | register          | 2      |
| `registerToPointer`   | `01110sss`  | register          | 2      |
| `immediateToPair`     | `00pp0001`  | pair of a load    | 3      |
| `push`                | `11pp0101`  | pair of the stack | 4      |
| `pop`                 | `11pp0001`  | pair of the stack | 3      |

A claim is an entry together with where it comes from, a family or a list of literals; two claims of
one opcode collide.  A collision is one of the errors that stand against a chart.

* `Family.name`                            the family in assembler notation;
* `Family.template`                        its opcode template;
* `Origin.text`                            the wording of an origin;
* `ChartError.message`                     the wording of an error;
* `ChartError.ofTemplate`                  work on a template inside the work on a chart;
* `Coding.validate`, `Selector.validate`   the faults of a coding as an error.
-/

namespace OpcodeChart

inductive Family
  | registerToRegister
  | immediateToRegister
  | pointerToRegister
  | registerToPointer
  | immediateToPair
  | push
  | pop
  deriving DecidableEq, Ord

namespace Family

def all : List Family :=
  [.registerToRegister, .immediateToRegister, .pointerToRegister, .registerToPointer,
    .immediateToPair, .push, .pop]

def name : Family → String
  | .registerToRegister => "LD r, r'"
  | .immediateToRegister => "LD r, d8"
  | .pointerToRegister => "LD r, (HL)"
  | .registerToPointer => "LD (HL), r"
  | .immediateToPair => "LD rr, d16"
  | .push => "PUSH rr"
  | .pop => "POP rr"

instance : Spelled Family where
  symbol
    | .registerToRegister => .bare "RegisterToRegister"
    | .immediateToRegister => .bare "ImmediateToRegister"
    | .pointerToRegister => .bare "PointerToRegister"
    | .registerToPointer => .bare "RegisterToPointer"
    | .immediateToPair => .bare "Immediate16ToPair"
    | .push => .bare "PushPair"
    | .pop => .bare "PopPair"

/-- the pattern of the family's opcodes, with zeros in place of the fields. -/
def fixed : Family → UInt8
  | .registerToRegister => 0b01000000
  | .immediateToRegister => 0b00000110
  | .pointerToRegister => 0b01000110
  | .registerToPointer => 0b01110000
  | .immediateToPair => 0b00000001
  | .push => 0b11000101
  | .pop => 0b11000001

/-- the fields of the family's opcodes, in the order of its operands. -/
def fields : Family → List Field
  | .registerToRegister => [.ofSelector 3 .register, .ofSelector 0 .register]
  | .immediateToRegister => [.ofSelector 3 .register]
  | .pointerToRegister => [.ofSelector 3 .register]
  | .registerToPointer => [.ofSelector 0 .register]
  | .immediateToPair => [.ofSelector 4 .loadPair]
  | .push => [.ofSelector 4 .stackPair]
  | .pop => [.ofSelector 4 .stackPair]

/-- machine cycles of every member. -/
def cycles : Family → UInt8
  | .registerToRegister => 1
  | .immediateToRegister => 2
  | .pointerToRegister => 2
  | .registerToPointer => 2
  | .immediateToPair => 3
  | .push => 4
  | .pop => 3

def template (f : Family) : Except Template.Fault Template := Template.ofFields f.fixed f.fields

theorem mem_all (f : Family) : f ∈ all := by cases f <;> decide

theorem nodup_all : all.Nodup := by decide

end Family

/-! ### claims -/

/-- where an entry comes from. -/
inductive Origin
  /-- the members of a family. -/
  | family (f : Family)
  /-- an opcode outside every family, given as it is. -/
  | literal
  deriving DecidableEq

def Origin.text : Origin → String
  | .family f => "family `" ++ f.name ++ "`"
  | .literal => "irregular literal"

structure Claim where
  origin : Origin
  entry : Entry
  deriving DecidableEq

def Claim.opcode (c : Claim) : UInt8 := c.entry.opcode

/-! ### errors -/

inductive ChartError
  /-- two claims of one opcode. -/
  | collision (opcode : UInt8) (first second : Origin)
  | template (fault : Template.Fault)
  /-- the coding of this name is unsound. -/
  | unsoundCoding (coding reason : String)
  /-- a family got operands that its members do not have. -/
  | operandMismatch (family : Family) (operands : String)
  /-- a coding has no code for a selection. -/
  | noCode (coding : String) (selection : Selection)
  deriving DecidableEq

def ChartError.message : ChartError → String
  | .collision opcode first second =>
    "Opcode " ++ Text.hexByte opcode ++ " produced by both " ++ first.text ++ " and " ++ second.text
  | .template fault => "Malformed template: " ++ fault.message
  | .unsoundCoding coding reason => "Invalid " ++ coding ++ " code table: " ++ reason
  | .operandMismatch family operands =>
    family.name ++ " received operands " ++ operands ++ " it cannot encode"
  | .noCode coding selection => coding ++ " has no code for " ++ selection.name

def ChartError.ofTemplate {α : Type} : Except Template.Fault α → Except ChartError α
  | .ok a => .ok a
  | .error fault => .error (.template fault)

theorem ChartError.ofTemplate_eq_ok_iff {α : Type} {x : Except Template.Fault α} {a : α} :
    ofTemplate x = .ok a ↔ x = .ok a := by
  cases x <;> simp [ofTemplate]

def Coding.validate {α : Type} [DecidableEq α] [Spelled α] (t : Coding α) :
    Except ChartError Unit :=
  match t.fault? with
  | none => .ok ()
  | some fault => .error (.unsoundCoding t.name fault.reason)

def Selector.validate : Selector → Except ChartError Unit
  | .register => Coding.register.validate
  | .loadPair => Coding.loadPair.validate
  | .stackPair => Coding.stackPair.validate

theorem Coding.validate_eq_ok_iff {α : Type} [DecidableEq α] [Spelled α] {t : Coding α} :
    t.validate = .ok () ↔ t.fault? = none := by
  unfold Coding.validate
  cases t.fault? <;> simp

end OpcodeChart
