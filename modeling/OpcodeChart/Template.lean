import OpcodeChart.Field

/-!
# Opcode templates

A template is a pattern of fixed bits and the fields that complete it to an opcode byte.  Its fields
lie inside the byte, are as wide as their codings, and share no bit with each other or with a set
bit of the pattern; every bit that no field covers is a fixed bit.  A template turns one value per
field into an opcode, and reads the values back from an opcode whose fixed bits match.

* `Template.Fault`       what can be wrong with a layout, or with the values put into its fields;
* `Template.cover`       adds one field to the bits covered so far, or says what is wrong with it;
* `Template.check`       the rules above, for a pattern and a list of fields;
* `Template`             a layout that passes the check;
* `Template.ofFields`    builds one;
* `Template.fieldMask`   the bits covered by fields, `Template.fixedMask` the other bits;
* `Template.place`       puts one value into its field;
* `Template.encode`      the opcode of a list of values, in the order of the fields;
* `Template.decode`      the values of an opcode, none if its fixed bits differ from the pattern.
-/

namespace OpcodeChart

namespace Template

/-! ### faults -/

inductive Fault
  /-- a field reaches past the eighth bit. -/
  | outOfRange (offset width : UInt8)
  | emptyField (offset : UInt8)
  /-- a field shares the bits `mask` with the fields before it. -/
  | overlap (mask : UInt8)
  /-- the fixed bits set a bit of the fields, whose bits are `mask`. -/
  | fixedOverlap (fixed mask : UInt8)
  /-- a field has another width than the codes of its coding. -/
  | widthMismatch (coding : String) (width expected : UInt8)
  /-- the number of values is not the number of fields. -/
  | fieldCount (expected actual : Nat)
  | valueTooWide (value width : UInt8)
  /-- a word operation overflowed. -/
  | overflow (cause : Overflow)
  deriving DecidableEq

namespace Fault

def message : Fault → String
  | .outOfRange offset width =>
    "Field at bit " ++ Text.decimal offset ++ " with width " ++ Text.decimal width
      ++ " does not fit in an 8-bit opcode"
  | .emptyField offset => "Field at bit " ++ Text.decimal offset ++ " has zero width"
  | .overlap mask => "Fields overlap in mask " ++ Text.binaryByte mask
  | .fixedOverlap fixed mask =>
    "Fixed bits " ++ Text.binaryByte fixed ++ " overlap field mask " ++ Text.binaryByte mask
  | .widthMismatch coding width expected =>
    "Field width " ++ Text.decimal width ++ " does not match the " ++ coding ++ " code width "
      ++ Text.decimal expected
  | .fieldCount expected actual =>
    "Expected " ++ toString expected ++ " field values, got " ++ toString actual
  | .valueTooWide value width =>
    "Value " ++ Text.hexByte value ++ " does not fit in a " ++ Text.decimal width ++ "-bit field"
  | .overflow cause => cause.message

end Fault

/-- a word operation inside the work on a template. -/
def trap {M : Type → Type → Type} [WordOps M] {α : Type} : M Overflow α → M Fault α :=
  WordOps.raise .overflow

theorem trap_eq_ok_iff {α : Type} {x : Except Overflow α} {a : α} :
    trap x = .ok a ↔ x = .ok a := by
  cases x with
  | ok b =>
    show Except.ok b = .ok a ↔ _
    rw [Except.ok.injEq, Except.ok.injEq]
  | error cause => exact ⟨(nomatch ·), (nomatch ·)⟩

/-! ### layouts -/

section
variable {M : Type → Type → Type} [∀ ε, Monad (M ε)] [WordOps M]

/-- the bits covered once `f` joins fields that cover `covered`. -/
def coverM (covered : UInt8) (f : Field) : M Fault UInt8 :=
  if f.width = 0 then WordOps.fail (.emptyField f.offset)
  else do
    let reach ← trap (WordOps.step (.add16 f.offset.toUInt16 f.width.toUInt16))
    if 8 < reach then WordOps.fail (.outOfRange f.offset f.width)
    else if f.width ≠ f.selector.width then
      WordOps.fail (.widthMismatch f.selector.name f.width f.selector.width)
    else do
      let mask ← trap f.maskM
      if covered &&& mask ≠ 0 then WordOps.fail (.overlap (covered &&& mask))
      else return covered ||| mask

/-- the rules of a layout: each field in turn, then the fixed bits. -/
def checkM (fixed : UInt8) (fields : List Field) : M Fault Unit := do
  let covered ← fields.foldlM coverM 0
  if fixed &&& covered ≠ 0 then WordOps.fail (.fixedOverlap fixed covered) else return ()

end

abbrev cover (covered : UInt8) (f : Field) : Except Fault UInt8 := coverM covered f

abbrev check (fixed : UInt8) (fields : List Field) : Except Fault Unit := checkM fixed fields

end Template

@[ext] structure Template where
  fixed : UInt8
  fields : List Field
  checked : Template.check fixed fields = .ok ()

namespace Template

def ofFields (fixed : UInt8) (fields : List Field) : Except Fault Template :=
  match h : check fixed fields with
  | .ok () => .ok ⟨fixed, fields, h⟩
  | .error fault => .error fault

theorem ofFields_eq_ok_iff {fixed : UInt8} {fields : List Field} {t : Template} :
    ofFields fixed fields = .ok t ↔ t.fixed = fixed ∧ t.fields = fields := by
  unfold ofFields
  constructor
  · intro h
    split at h
    · cases h
      exact ⟨rfl, rfl⟩
    · cases h
  · rintro ⟨rfl, rfl⟩
    have hc := t.checked
    split
    · rfl
    · next h => rw [hc] at h; cases h

theorem ofFields_eq_error_iff {fixed : UInt8} {fields : List Field} {fault : Fault} :
    ofFields fixed fields = .error fault ↔ check fixed fields = .error fault := by
  unfold ofFields
  split <;> next h => simp [h]

variable {M : Type → Type → Type} [∀ ε, Monad (M ε)] [WordOps M]

/-- the bits of the opcode covered by fields. -/
def fieldMaskM (t : Template) : M Overflow UInt8 :=
  t.fields.foldlM (fun covered f => do return covered ||| (← f.maskM)) 0

/-- the bits of the opcode that hold the fixed pattern. -/
def fixedMaskM (t : Template) : M Overflow UInt8 := do
  let covered ← t.fieldMaskM
  return ~~~covered

abbrev fieldMask (t : Template) : Except Overflow UInt8 := t.fieldMaskM

abbrev fixedMask (t : Template) : Except Overflow UInt8 := t.fixedMaskM

/-! ### opcodes -/

/-- `opcode` with `value` put into the field `f`. -/
def placeM (opcode : UInt8) (f : Field) (value : UInt8) : M Fault UInt8 := do
  let largest ← trap f.maxValueM
  if largest < value then WordOps.fail (.valueTooWide value f.width)
  else do
    let placed ← trap (WordOps.step (.shl8 value f.offset))
    return opcode ||| placed

def encodeM (t : Template) (values : List UInt8) : M Fault UInt8 :=
  if values.length ≠ t.fields.length then
    WordOps.fail (.fieldCount t.fields.length values.length)
  else (t.fields.zip values).foldlM (fun opcode p => placeM opcode p.1 p.2) t.fixed

/-- the value that `opcode` holds in the field `f`. -/
def extractM (opcode : UInt8) (f : Field) : M Overflow UInt8 := do
  let mask ← f.maskM
  WordOps.step (.shr8 (opcode &&& mask) f.offset)

def decodeM (t : Template) (opcode : UInt8) : M Overflow (Option (List UInt8)) := do
  let fixedBits ← t.fixedMaskM
  if opcode &&& fixedBits ≠ t.fixed then return none
  else return some (← t.fields.mapM (extractM opcode))

abbrev place (opcode : UInt8) (f : Field) (value : UInt8) : Except Fault UInt8 :=
  placeM opcode f value

abbrev encode (t : Template) (values : List UInt8) : Except Fault UInt8 := t.encodeM values

abbrev extract (opcode : UInt8) (f : Field) : Except Overflow UInt8 := extractM opcode f

abbrev decode (t : Template) (opcode : UInt8) : Except Overflow (Option (List UInt8)) :=
  t.decodeM opcode

end Template

end OpcodeChart
