import OpcodeChart.Register

/-!
# Operations

What one opcode does: the kind of transfer, where the data goes, where it comes from, and the
machine cycles it takes; the side effects that follow from these, and the assembler text.

* `Operation.load`, `.loadIncrement`, `.loadDecrement`, `.load16`, `.push`, `.pop`   one builder per
  kind;
* `Operation.ticks`        clock ticks, four to a machine cycle;
* `Operation.length`       bytes of the instruction, the opcode included;
* `Operation.hlStep`       what is added to `HL` after the transfer;
* `Operation.effects`      the effects of an operation, in the order of their bits;
* `Operation.effectBits`   the same as a byte with one bit per effect;
* `Operation.mnemonic`     the assembler text: `LD B, C`, `LD A, (HL+)`, `LDH (a8), A`, `PUSH BC`.
-/

namespace OpcodeChart

inductive Kind
  /-- one byte. -/
  | load
  /-- one byte through `(HL)`, then `HL` goes up by one. -/
  | loadIncrement
  /-- one byte through `(HL)`, then `HL` goes down by one. -/
  | loadDecrement
  /-- one word. -/
  | load16
  /-- a pair is stored on the stack. -/
  | push
  /-- a pair is taken from the stack. -/
  | pop
  deriving DecidableEq

instance : Spelled Kind where
  symbol
    | .load => .bare "Load"
    | .loadIncrement => .bare "LoadIncrement"
    | .loadDecrement => .bare "LoadDecrement"
    | .load16 => .bare "Load16"
    | .push => .bare "Push"
    | .pop => .bare "Pop"

structure Operation where
  kind : Kind
  destination : Operand
  source : Operand
  /-- machine cycles, the fetch of the opcode included. -/
  cycles : UInt8
  deriving DecidableEq

namespace Operation

def load (destination source : Operand) (cycles : UInt8) : Operation :=
  ⟨.load, destination, source, cycles⟩

def loadIncrement (destination source : Operand) (cycles : UInt8) : Operation :=
  ⟨.loadIncrement, destination, source, cycles⟩

def loadDecrement (destination source : Operand) (cycles : UInt8) : Operation :=
  ⟨.loadDecrement, destination, source, cycles⟩

def load16 (destination source : Operand) (cycles : UInt8) : Operation :=
  ⟨.load16, destination, source, cycles⟩

def push (p : Pair) (cycles : UInt8) : Operation := ⟨.push, .stack, .pair p, cycles⟩

def pop (p : Pair) (cycles : UInt8) : Operation := ⟨.pop, .pair p, .stack, cycles⟩

def ticks (o : Operation) : Nat := 4 * o.cycles.toNat

def length (o : Operation) : Nat := 1 + o.destination.immediateBytes + o.source.immediateBytes

def hlStep (o : Operation) : Int :=
  match o.kind with
  | .loadIncrement => 1
  | .loadDecrement => -1
  | .load | .load16 | .push | .pop => 0

end Operation

/-! ### effects -/

inductive Effect
  | readsMemory
  | writesMemory
  | immediate8
  | immediate16
  | stack
  | adjustsHL
  deriving DecidableEq

namespace Effect

def all : List Effect :=
  [.readsMemory, .writesMemory, .immediate8, .immediate16, .stack, .adjustsHL]

def bit : Effect → UInt8
  | .readsMemory => 1
  | .writesMemory => 2
  | .immediate8 => 4
  | .immediate16 => 8
  | .stack => 16
  | .adjustsHL => 32

def name : Effect → String
  | .readsMemory => "READS_MEMORY"
  | .writesMemory => "WRITES_MEMORY"
  | .immediate8 => "IMMEDIATE_8"
  | .immediate16 => "IMMEDIATE_16"
  | .stack => "STACK"
  | .adjustsHL => "ADJUSTS_HL"

theorem mem_all (e : Effect) : e ∈ all := by cases e <;> decide

end Effect

namespace Operation

def has (o : Operation) : Effect → Bool
  | .readsMemory => o.source.isMemory
  | .writesMemory => o.destination.isMemory
  | .immediate8 => o.source.immediateBytes == 1 || o.destination.immediateBytes == 1
  | .immediate16 => o.source.immediateBytes == 2 || o.destination.immediateBytes == 2
  | .stack => o.source == .stack || o.destination == .stack
  | .adjustsHL => o.hlStep != 0

def effects (o : Operation) : List Effect := Effect.all.filter o.has

def effectBits (o : Operation) : UInt8 := o.effects.foldl (fun bits e => bits ||| e.bit) 0

theorem mem_effects {o : Operation} {e : Effect} : e ∈ o.effects ↔ o.has e = true := by
  simp [effects, Effect.mem_all]

/-! ### mnemonics -/

def operandText (o : Operation) (x : Operand) : String :=
  match o.kind, x with
  | .loadIncrement, .pointer .HL => "(HL+)"
  | .loadDecrement, .pointer .HL => "(HL-)"
  | _, x => x.text

/-- does an operand lie in the high page at an offset behind the opcode? -/
def usesHighPage (o : Operation) : Bool :=
  o.destination == .highPageAddress || o.source == .highPageAddress

/-- a push and a pop show their pair alone. -/
def mnemonic (o : Operation) : String :=
  match o.kind with
  | .push => "PUSH " ++ o.source.text
  | .pop => "POP " ++ o.destination.text
  | .load | .loadIncrement | .loadDecrement | .load16 =>
    (if o.usesHighPage then "LDH " else "LD ") ++ o.operandText o.destination ++ ", "
      ++ o.operandText o.source

end Operation

end OpcodeChart
