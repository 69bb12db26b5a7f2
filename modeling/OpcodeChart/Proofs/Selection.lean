import OpcodeChart.Proofs.Coding
import OpcodeChart.Proofs.RoundTrip

/-!
# The round trip between selections and opcodes

Filling a template by selections goes through three partial maps: the code of each selection, the
opcode of the codes, and back.  One relation ties codes to what they select, field by field; the
lookups are its two directions, as encoding and decoding are the two directions of
`Template.Carries`.  The codes fit their fields because a field is as wide as the codes of its
selector.

Two templates may well match one opcode bit for bit.  They still never make selections of one opcode
if some bit that both fix differs, or if the pattern of one spells, where the other has a field, a
value that selects nothing.

* `Template.Selects fs cs xs`           the values `cs` of the fields `fs` select `xs`;
* `Template.codes_eq_ok_iff`            the codes of selections are the values that select them;
* `Template.select?_eq_some_iff`        an opcode makes the selections that it is the opcode of;
* `Template.exists_opcode`              selections with codes have an opcode;
* `Template.opcode_select?_inverse`     **the round trip, both ways**;
* `Template.Misspells t f`              the pattern of `t` spells in `f` a value without a selection;
* `Template.Parted s t`                 one of the two reasons above;
* `Template.not_parted`                 **two templates with selections of one opcode are not told
                                        apart**.
-/

namespace OpcodeChart.Template

inductive Selects : List Field → List UInt8 → List Selection → Prop
  | nil : Selects [] [] []
  | cons {f : Field} {fs : List Field} {c : UInt8} {cs : List UInt8} {x : Selection}
      {xs : List Selection} (head : f.selector.code? x = some c) (tail : Selects fs cs xs) :
      Selects (f :: fs) (c :: cs) (x :: xs)

/-- one selection per field, each with a code of the field's selector. -/
def Encodable (fields : List Field) (xs : List Selection) : Prop :=
  List.Forall₂ (fun f x => (f.selector.code? x).isSome) fields xs

/-! ### codes and what they select -/

section
variable {fs : List Field} {cs : List UInt8} {xs : List Selection}

theorem Selects.length_codes (h : Selects fs cs xs) : cs.length = fs.length := by
  induction h with
  | nil => rfl
  | cons _ _ ih => rw [List.length_cons, List.length_cons, ih]

theorem Selects.length_selections (h : Selects fs cs xs) : xs.length = fs.length := by
  induction h with
  | nil => rfl
  | cons _ _ ih => rw [List.length_cons, List.length_cons, ih]

theorem Selects.fits (h : Selects fs cs xs) (hs : ∀ f ∈ fs, f.Sound) :
    List.Forall₂ (fun f v => v.toNat < 2 ^ f.width.toNat) fs cs := by
  induction h with
  | nil => exact .nil
  | cons hc _ ih =>
    obtain ⟨hf, hs⟩ := List.forall_mem_cons.1 hs
    refine .cons ?_ (ih hs)
    rw [hf.asWide]
    exact Selector.lt_of_code? hc

theorem Selects.encodable (h : Selects fs cs xs) : Encodable fs xs := by
  induction h with
  | nil => exact .nil
  | cons hc _ ih => exact .cons (Option.isSome_iff_exists.2 ⟨_, hc⟩) ih

theorem Encodable.exists_selects (h : Encodable fs xs) : ∃ cs, Selects fs cs xs := by
  induction h with
  | nil => exact ⟨[], .nil⟩
  | cons hx _ ih =>
    obtain ⟨c, hc⟩ := Option.isSome_iff_exists.1 hx
    obtain ⟨cs, hcs⟩ := ih
    exact ⟨c :: cs, .cons hc hcs⟩

theorem exists_selects_of_codes
    (h : List.Forall₂ (fun f c => (f.selector.selection? c).isSome) fs cs) :
    ∃ xs, Selects fs cs xs := by
  induction h with
  | nil => exact ⟨[], .nil⟩
  | cons hc _ ih =>
    obtain ⟨x, hx⟩ := Option.isSome_iff_exists.1 hc
    obtain ⟨xs, hxs⟩ := ih
    exact ⟨x :: xs, .cons (Selector.code?_eq_some_iff.2 hx) hxs⟩

theorem mapM_code_eq_ok_iff (hl : xs.length = fs.length) :
    (fs.zip xs).mapM (fun p => p.1.code p.2) = .ok cs ↔ Selects fs cs xs := by
  rw [mapM_eq_ok_iff]
  constructor
  · intro h
    induction fs generalizing xs cs with
    | nil =>
      obtain rfl := List.length_eq_zero_iff.1 hl
      cases h
      exact .nil
    | cons f fs ih =>
      cases xs with
      | nil => cases hl
      | cons x xs =>
        cases h with
        | cons hc h => exact .cons (Field.code_eq_ok_iff.1 hc) (ih (Nat.succ.inj hl) h)
  · intro h
    clear hl
    induction h with
    | nil => exact .nil
    | cons hc _ ih => exact .cons (Field.code_eq_ok_iff.2 hc) ih

theorem mapM_selection?_eq_some_iff (hl : cs.length = fs.length) :
    (fs.zip cs).mapM (fun p => p.1.selector.selection? p.2) = some xs ↔ Selects fs cs xs := by
  rw [mapM_eq_some_iff]
  constructor
  · intro h
    induction fs generalizing xs cs with
    | nil =>
      obtain rfl := List.length_eq_zero_iff.1 hl
      cases h
      exact .nil
    | cons f fs ih =>
      cases cs with
      | nil => cases hl
      | cons c cs =>
        cases h with
        | cons hc h => exact .cons (Selector.code?_eq_some_iff.2 hc) (ih (Nat.succ.inj hl) h)
  · intro h
    clear hl
    induction h with
    | nil => exact .nil
    | cons hc _ ih => exact .cons (Selector.code?_eq_some_iff.1 hc) ih

end

/-! ### opcodes and what they select -/

variable {t : Template} {opcode : UInt8} {xs : List Selection}

theorem codes_eq_ok_iff {cs : List UInt8} (hl : xs.length = t.fields.length) :
    t.codes xs = .ok cs ↔ Selects t.fields cs xs :=
  mapM_code_eq_ok_iff hl

theorem opcode_eq_ok_iff :
    t.opcode xs = .ok opcode ↔ ∃ cs, t.codes xs = .ok cs ∧ t.encode cs = .ok opcode := by
  unfold Template.opcode
  rw [bind_eq_ok_iff]
  simp only [ChartError.ofTemplate_eq_ok_iff]

theorem select?_eq_some_iff_carries :
    t.select? opcode = some xs ↔ ∃ cs, t.Carries opcode cs ∧ Selects t.fields cs xs := by
  unfold select?
  constructor
  · intro h
    split at h
    · next cs hd =>
      have hc := decode_eq_some_iff.1 hd
      exact ⟨cs, hc, (mapM_selection?_eq_some_iff hc.values.length_eq.symm).1 h⟩
    · cases h
    · cases h
  · intro h
    obtain ⟨cs, hc, hs⟩ := h
    rw [decode_eq_some_iff.2 hc]
    exact (mapM_selection?_eq_some_iff hs.length_codes).2 hs

/-- **An opcode makes the selections that it is the opcode of.** -/
theorem select?_eq_some_iff :
    t.select? opcode = some xs ↔ xs.length = t.fields.length ∧ t.opcode xs = .ok opcode := by
  rw [select?_eq_some_iff_carries, opcode_eq_ok_iff]
  constructor
  · intro h
    obtain ⟨cs, hc, hs⟩ := h
    have hl := hs.length_selections
    exact ⟨hl, cs, (codes_eq_ok_iff hl).2 hs, encode_eq_ok_iff.2 hc⟩
  · intro h
    obtain ⟨hl, cs, hcs, he⟩ := h
    exact ⟨cs, encode_eq_ok_iff.1 he, (codes_eq_ok_iff hl).1 hcs⟩

theorem encodable_of_select? (h : t.select? opcode = some xs) : Encodable t.fields xs := by
  obtain ⟨cs, -, hs⟩ := select?_eq_some_iff_carries.1 h
  exact hs.encodable

/-- selections with codes have an opcode. -/
theorem exists_opcode (h : Encodable t.fields xs) : ∃ opcode, t.opcode xs = .ok opcode := by
  obtain ⟨cs, hs⟩ := h.exists_selects
  obtain ⟨opcode, he⟩ := exists_encode_iff.2 (hs.fits t.layout.sound)
  exact ⟨opcode, opcode_eq_ok_iff.2 ⟨cs, (codes_eq_ok_iff h.length_eq.symm).2 hs, he⟩⟩

/-- **Filling a template by selections and reading it back are inverse**: encodable selections have
codes, an opcode that decodes to these codes, and are what this opcode selects; an opcode whose
values all select something is the opcode of what they select; so distinct encodable selections have
distinct opcodes. -/
theorem opcode_select?_inverse {fixed : UInt8} {fields : List Field} {t : Template}
    (h : ofFields fixed fields = .ok t) :
    (∀ xs, Encodable fields xs → ∃ cs opcode, t.codes xs = .ok cs ∧ t.encode cs = .ok opcode ∧
      t.opcode xs = .ok opcode ∧ t.decode opcode = .ok (some cs) ∧ t.select? opcode = some xs) ∧
    (∀ opcode cs, t.decode opcode = .ok (some cs) →
      List.Forall₂ (fun f c => (f.selector.selection? c).isSome) fields cs →
      ∃ xs, t.select? opcode = some xs ∧ t.codes xs = .ok cs ∧ t.opcode xs = .ok opcode) ∧
    (∀ xs ys, Encodable fields xs → Encodable fields ys → xs ≠ ys → t.opcode xs ≠ t.opcode ys) := by
  obtain ⟨-, rfl⟩ := ofFields_eq_ok_iff.1 h
  have there : ∀ xs, Encodable t.fields xs → ∃ opcode, t.opcode xs = .ok opcode ∧
      t.select? opcode = some xs := by
    intro xs hx
    obtain ⟨opcode, ho⟩ := exists_opcode hx
    exact ⟨opcode, ho, select?_eq_some_iff.2 ⟨hx.length_eq.symm, ho⟩⟩
  refine ⟨fun xs hx => ?_, fun opcode cs hd hsel => ?_, fun xs ys hx hy hne => ?_⟩
  · obtain ⟨opcode, ho, hsel⟩ := there xs hx
    obtain ⟨cs, hcs, he⟩ := opcode_eq_ok_iff.1 ho
    have hd := decode_eq_some_iff.2 (encode_eq_ok_iff.1 he)
    exact ⟨cs, opcode, hcs, he, ho, hd, hsel⟩
  · have hc := decode_eq_some_iff.1 hd
    obtain ⟨xs, hs⟩ := exists_selects_of_codes hsel
    have hl := hs.length_selections
    have hcs := (codes_eq_ok_iff hl).2 hs
    have ho := opcode_eq_ok_iff.2 ⟨cs, hcs, encode_eq_ok_iff.2 hc⟩
    exact ⟨xs, select?_eq_some_iff.2 ⟨hl, ho⟩, hcs, ho⟩
  · obtain ⟨opcode, ho, hsel⟩ := there xs hx
    obtain ⟨opcode', ho', hsel'⟩ := there ys hy
    intro e
    rw [ho, ho'] at e
    cases e
    rw [hsel] at hsel'
    exact hne (Option.some.inj hsel')

/-- a pair and a register of the other pair coding, out of order and with a gap. -/
theorem opcode_select?_inverse_mixed :
    ∃ t, ofFields 0b00100000 [.ofSelector 0 .loadPair, .ofSelector 6 .stackPair,
        .ofSelector 2 .register] = .ok t ∧
      Encodable t.fields [.pair .HL, .pair .AF, .register .A] ∧
      t.select? 0b11111110 = some [.pair .HL, .pair .AF, .register .A] := by
  have h : ofFields 0b00100000 [.ofSelector 0 .loadPair, .ofSelector 6 .stackPair,
      .ofSelector 2 .register] = .ok ⟨0b00100000, [.ofSelector 0 .loadPair,
        .ofSelector 6 .stackPair, .ofSelector 2 .register], rfl⟩ := rfl
  have hx : Encodable [.ofSelector 0 .loadPair, .ofSelector 6 .stackPair, .ofSelector 2 .register]
      [.pair .HL, .pair .AF, .register .A] := .cons rfl (.cons rfl (.cons rfl .nil))
  obtain ⟨cs, opcode, hcs, he, -, -, hsel⟩ := (opcode_select?_inverse h).1 _ hx
  refine ⟨_, h, hx, ?_⟩
  cases hcs
  cases he
  exact hsel

/-! ### templates told apart -/

def Misspells (t : Template) (f : Field) : Prop :=
  (∀ i < 8, f.Covers i → t.Fixes i) ∧
    ∃ v ∈ f.values, f.Holds t.fixed v ∧ f.selector.selection? v = none

instance (t : Template) (f : Field) : Decidable (t.Misspells f) :=
  inferInstanceAs (Decidable (_ ∧ ∃ v ∈ f.values, _))

def Parted (s t : Template) : Prop :=
  (∃ i < 8, s.Fixes i ∧ t.Fixes i ∧ s.fixed.toNat.testBit i ≠ t.fixed.toNat.testBit i) ∨
    ∃ f ∈ s.fields, t.Misspells f

instance (s t : Template) : Decidable (s.Parted t) :=
  inferInstanceAs (Decidable ((∃ i < 8, _) ∨ ∃ f ∈ s.fields, _))

/-- every field of an opcode with selections holds a value that selects something. -/
theorem exists_holds_of_mem {fs : List Field} {cs : List UInt8} {xs : List Selection}
    {opcode : UInt8} (hh : List.Forall₂ (fun f v => f.Holds opcode v) fs cs) (hs : Selects fs cs xs)
    {f : Field} (hf : f ∈ fs) : ∃ c, f.Holds opcode c ∧ f.selector.selection? c ≠ none := by
  induction hs with
  | nil => cases hf
  | cons hc _ ih =>
    cases hh with
    | cons hhead htail =>
      rcases List.mem_cons.1 hf with rfl | hf
      · have hsel := Selector.code?_eq_some_iff.1 hc
        exact ⟨_, hhead, fun h => by rw [hsel] at h; cases h⟩
      · exact ih htail hf

/-- a field among fixed bits holds what the pattern spells there. -/
theorem Carries.holds_fixed {t : Template} {opcode v : UInt8} {vs : List UInt8} {f : Field}
    (hc : t.Carries opcode vs) (hf : ∀ i, f.Covers i → t.Fixes i) (hv : f.Holds t.fixed v) :
    f.Holds opcode v := by
  refine ⟨hv.fits, fun i hi => ?_⟩
  rw [← hv.bits i hi]
  exact hc.pattern _ (hf _ (Field.covers_add_iff.2 hi))

variable {s : Template} {ys : List Selection}

/-- **Two templates with selections of one opcode are not told apart.** -/
theorem not_parted (hs : s.select? opcode = some xs) (ht : t.select? opcode = some ys) :
    ¬ s.Parted t := by
  obtain ⟨cs, hsc, hsx⟩ := select?_eq_some_iff_carries.1 hs
  obtain ⟨ds, htc, -⟩ := select?_eq_some_iff_carries.1 ht
  intro h
  rcases h with ⟨i, -, hsi, hti, hne⟩ | ⟨f, hf, hfix, v, -, hv, hnone⟩
  · apply hne
    rw [← hsc.pattern i hsi, ← htc.pattern i hti]
  · have hsound := s.layout.sound f hf
    have hvo := htc.holds_fixed (fun i hi => hfix i (hsound.lt_of_covers hi) hi) hv
    obtain ⟨c, hco, hsel⟩ := exists_holds_of_mem hsc.values hsx hf
    rw [hco.unique hvo] at hsel
    exact hsel hnone

end OpcodeChart.Template
