import OpcodeChart.Family

/-!
# Members of a family

The values in the fields of an opcode are codes; here a template is read and filled by what the codes
stand for.  So a family has one member for each choice of operands.

* `Template.codes`        the codes of a list of selections, one per field;
* `Template.opcode`       the opcode that makes these selections;
* `Template.select?`      the selections that an opcode makes, none if its fixed bits differ from the
                          pattern or a field holds a value without meaning;
* `Family.operandSpace`   all choices of operands, the first operand varying slowest;
* `Family.operation`      what the member with these operands does;
* `Family.entries`        the opcode and the operation of each member;
* `Family.recover?`       the operands that an opcode selects, none outside the family.
-/

namespace OpcodeChart

/-- the code of a selection in a field. -/
def Field.code (f : Field) (x : Selection) : Except ChartError UInt8 :=
  match f.selector.code? x with
  | some c => .ok c
  | none => .error (.noCode f.selector.name x)

theorem Field.code_eq_ok_iff {f : Field} {x : Selection} {c : UInt8} :
    f.code x = .ok c ↔ f.selector.code? x = some c := by
  unfold Field.code
  cases f.selector.code? x <;> simp

namespace Template

def codes (t : Template) (xs : List Selection) : Except ChartError (List UInt8) :=
  (t.fields.zip xs).mapM fun p => p.1.code p.2

def opcode (t : Template) (xs : List Selection) : Except ChartError UInt8 := do
  let codes ← t.codes xs
  ChartError.ofTemplate (t.encode codes)

def select? (t : Template) (opcode : UInt8) : Option (List Selection) :=
  match t.decode opcode with
  | .ok (some codes) => (t.fields.zip codes).mapM fun p => p.1.selector.selection? p.2
  | .ok none => none
  | .error _ => none

end Template

/-! ### members -/

/-- all lists with one member of each given list, the first varying slowest. -/
def choices {α : Type} : List (List α) → List (List α)
  | [] => [[]]
  | xs :: rest => xs.flatMap fun x => (choices rest).map (x :: ·)

theorem cons_mem_choices_cons {α : Type} {xs ys : List α} {rest : List (List α)} {y : α} :
    y :: ys ∈ choices (xs :: rest) ↔ y ∈ xs ∧ ys ∈ choices rest := by
  simp [choices]

theorem length_of_mem_choices {α : Type} {xss : List (List α)} {ys : List α}
    (h : ys ∈ choices xss) : ys.length = xss.length := by
  induction xss generalizing ys with
  | nil => simp_all [choices]
  | cons xs rest ih =>
    simp only [choices, List.mem_flatMap, List.mem_map] at h
    obtain ⟨x, -, zs, hz, rfl⟩ := h
    simp [ih hz]

namespace Family

def operandSpace (f : Family) : List (List Selection) :=
  choices (f.fields.map fun field => field.selector.selections)

/-- what the member with the operands `xs` does, none if these are no operands of the family. -/
def operation? (f : Family) (xs : List Selection) : Option Operation :=
  match f, xs with
  | .registerToRegister, [.register d, .register s] =>
    some (.load (.register d) (.register s) f.cycles)
  | .immediateToRegister, [.register d] => some (.load (.register d) .immediate8 f.cycles)
  | .pointerToRegister, [.register d] => some (.load (.register d) (.pointer .HL) f.cycles)
  | .registerToPointer, [.register s] => some (.load (.pointer .HL) (.register s) f.cycles)
  | .immediateToPair, [.pair d] => some (.load16 (.pair d) .immediate16 f.cycles)
  | .push, [.pair s] => some (.push s f.cycles)
  | .pop, [.pair d] => some (.pop d f.cycles)
  | _, _ => none

def operation (f : Family) (xs : List Selection) : Except ChartError Operation :=
  match f.operation? xs with
  | some o => .ok o
  | none => .error (.operandMismatch f (inspectList xs))

/-- the member with the operands `xs`, encoded by the template `t`. -/
def entry (f : Family) (t : Template) (xs : List Selection) : Except ChartError Entry := do
  let opcode ← t.opcode xs
  let operation ← f.operation xs
  return ⟨opcode, operation⟩

def entries (f : Family) : Except ChartError (List Entry) := do
  let t ← ChartError.ofTemplate f.template
  f.operandSpace.mapM (f.entry t)

def recover? (f : Family) (opcode : UInt8) : Option (List Selection) :=
  match f.template with
  | .ok t => t.select? opcode
  | .error _ => none

theorem operation_eq_ok_iff {f : Family} {xs : List Selection} {o : Operation} :
    f.operation xs = .ok o ↔ f.operation? xs = some o := by
  unfold operation
  cases f.operation? xs <;> simp

end Family

end OpcodeChart
