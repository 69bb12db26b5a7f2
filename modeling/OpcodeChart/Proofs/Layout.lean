import OpcodeChart.Proofs.Field
import OpcodeChart.Template

/-!
# Layouts, and what is wrong with those that are none

The check of a layout walks through the fields with one byte, the bits covered so far.  Its invariant
is `Marks covered before`: the byte has exactly the bits set that the fields already seen cover.

Fixed bits and fields that are no layout are rejected for one fault.  It belongs to the first field
that fails, with the fields before it; only fields that all pass are compared with the fixed bits.

* `Field.Apart f g`            no bit lies in both fields;
* `Template.cover_eq_ok_iff`   one step: the next field is sound, is apart from those before, and
                               the invariant goes on;
* `Template.Layout`            sound fields, pairwise apart, none over a set bit of the pattern;
* `Template.check_eq_ok_iff`   **the check passes exactly the layouts**;
* `Template.Fixes t i`         bit `i` lies in no field;
* `Template.exists_fieldMask`, `exists_fixedMask`   both masks of a template, bit by bit;
* `Template.FieldFault before f fault`     what is wrong with the field `f` behind others;
* `Template.Malformed fixed fields fault`  what is wrong with fixed bits and fields;
* `Template.cover_eq_error_iff`            one step of the check finds what is wrong with a field;
* `Template.check_eq_error_iff`            **the check finds the first fault**;
* `Template.layout_or_first_fault`         **fields make a template if they are a layout, and are
                                           rejected for their first fault if not**.
-/

namespace OpcodeChart

def Field.Apart (f g : Field) : Prop := ∀ i, f.Covers i → ¬ g.Covers i

namespace Template

/-- the bits set in `covered` are those that the fields `fs` cover. -/
def Marks (covered : UInt8) (fs : List Field) : Prop :=
  ∀ i, covered.toNat.testBit i = true ↔ ∃ f ∈ fs, f.Covers i

namespace Marks

theorem nil : Marks 0 [] := by
  intro i
  rw [Word.bit_zero]
  simp

theorem unique {a b : UInt8} {fs : List Field} (ha : Marks a fs) (hb : Marks b fs) : a = b :=
  Word.eq_of_bits fun i => Bool.eq_iff_iff.2 ((ha i).trans (hb i).symm)

variable {covered mask : UInt8} {before : List Field} {f : Field}

theorem snoc (h : Marks covered before)
    (hf : ∀ i, mask.toNat.testBit i = decide (f.Covers i)) :
    Marks (covered ||| mask) (before ++ [f]) := by
  intro i
  rw [Word.bit_or, hf i, Bool.or_eq_true, h i, decide_eq_true_eq]
  constructor
  · intro h
    rcases h with ⟨g, hg, hi⟩ | hi
    · exact ⟨g, List.mem_append_left _ hg, hi⟩
    · exact ⟨f, List.mem_append_right _ List.mem_cons_self, hi⟩
  · intro h
    obtain ⟨g, hg, hi⟩ := h
    rcases List.mem_append.1 hg with hg | hg
    · exact .inl ⟨g, hg, hi⟩
    · rw [List.mem_singleton] at hg
      exact .inr (hg ▸ hi)

/-- the bits that a field shares with the fields before it. -/
theorem bit_and (h : Marks covered before) (hf : ∀ i, mask.toNat.testBit i = decide (f.Covers i))
    (i : Nat) :
    (covered &&& mask).toNat.testBit i = true ↔ f.Covers i ∧ ∃ g ∈ before, g.Covers i := by
  rw [Word.bit_and, hf i, Bool.and_eq_true, h i, decide_eq_true_eq, and_comm]

theorem and_eq_zero_iff (h : Marks covered before)
    (hf : ∀ i, mask.toNat.testBit i = decide (f.Covers i)) :
    covered &&& mask = 0 ↔ ∀ g ∈ before, g.Apart f := by
  rw [Word.and_eq_zero_iff]
  constructor
  · intro hz g hg i hgi hfi
    have hb := hz i ((h i).2 ⟨g, hg, hgi⟩)
    rw [hf i, decide_eq_false_iff_not] at hb
    exact hb hfi
  · intro hz i hi
    obtain ⟨g, hg, hgi⟩ := (h i).1 hi
    rw [hf i, decide_eq_false_iff_not]
    exact hz g hg i hgi

end Marks

/-! ### one field -/

/-- the sum of offset and width never leaves its word, so the comparison is the one of numbers. -/
theorem exists_reach (f : Field) :
    ∃ reach, Word.add16 f.offset.toUInt16 f.width.toUInt16 = .ok reach ∧
      reach.toNat = f.offset.toNat + f.width.toNat := by
  have ho := f.offset.toNat_lt
  have hw := f.width.toNat_lt
  have hlt : f.offset.toUInt16.toNat + f.width.toUInt16.toNat < UInt16.size := by
    rw [UInt8.toNat_toUInt16, UInt8.toNat_toUInt16]
    show _ < 65536
    omega
  refine ⟨_, Word.add16_eq_ok_iff.2 ⟨hlt, rfl⟩, ?_⟩
  rw [UInt16.toNat_add, Nat.mod_eq_of_lt hlt, UInt8.toNat_toUInt16, UInt8.toNat_toUInt16]

theorem cover_eq (covered : UInt8) (f : Field) :
    cover covered f =
      if f.width = 0 then .error (.emptyField f.offset)
      else if 8 < f.offset.toNat + f.width.toNat then .error (.outOfRange f.offset f.width)
      else if f.width ≠ f.selector.width then
        .error (.widthMismatch f.selector.name f.width f.selector.width)
      else trap f.mask >>= fun mask =>
        if covered &&& mask ≠ 0 then .error (.overlap (covered &&& mask))
        else .ok (covered ||| mask) := by
  obtain ⟨reach, hr, e⟩ := exists_reach f
  have hlt : 8 < reach ↔ 8 < f.offset.toNat + f.width.toNat := by
    rw [UInt16.lt_iff_toNat_lt, e]
    rfl
  show (if f.width = 0 then _
    else trap (Word.add16 f.offset.toUInt16 f.width.toUInt16) >>= _) = _
  rw [hr]
  show (if f.width = 0 then _ else if 8 < reach then _ else _) = _
  simp only [hlt]
  rfl

theorem sound_of_cover {covered covered' : UInt8} {f : Field}
    (h : cover covered f = .ok covered') : f.Sound := by
  rw [cover_eq] at h
  by_cases hw : f.width = 0
  · rw [if_pos hw] at h
    cases h
  · rw [if_neg hw] at h
    by_cases hr : 8 < f.offset.toNat + f.width.toNat
    · rw [if_pos hr] at h
      cases h
    · rw [if_neg hr] at h
      by_cases hs : f.width = f.selector.width
      · refine ⟨Nat.pos_of_ne_zero fun h0 => hw (UInt8.toNat_inj.1 h0), by omega, hs⟩
      · rw [if_pos hs] at h
        cases h

theorem cover_of_sound {f : Field} (h : f.Sound) {mask : UInt8} (hm : f.mask = .ok mask)
    (covered : UInt8) :
    cover covered f =
      if covered &&& mask ≠ 0 then .error (.overlap (covered &&& mask))
      else .ok (covered ||| mask) := by
  have hw : f.width ≠ 0 := fun h0 => by
    have := h.width_pos
    rw [h0] at this
    exact absurd this (Nat.lt_irrefl 0)
  have hr : ¬ 8 < f.offset.toNat + f.width.toNat := Nat.not_lt.2 h.inside
  rw [cover_eq, if_neg hw, if_neg hr, if_neg (not_not.2 h.asWide), hm]
  rfl

/-- **One step of the check.** -/
theorem cover_eq_ok_iff {covered covered' : UInt8} {before : List Field} {f : Field}
    (h : Marks covered before) :
    cover covered f = .ok covered' ↔
      f.Sound ∧ (∀ g ∈ before, g.Apart f) ∧ Marks covered' (before ++ [f]) := by
  constructor
  · intro hc
    have hs := sound_of_cover hc
    obtain ⟨mask, hm, hbits⟩ := hs.exists_mask
    rw [cover_of_sound hs hm] at hc
    by_cases hz : covered &&& mask = 0
    · rw [if_neg (not_not.2 hz)] at hc
      cases hc
      exact ⟨hs, (h.and_eq_zero_iff hbits).1 hz, h.snoc hbits⟩
    · rw [if_pos hz] at hc
      cases hc
  · intro hx
    obtain ⟨hs, ha, h'⟩ := hx
    obtain ⟨mask, hm, hbits⟩ := hs.exists_mask
    rw [cover_of_sound hs hm, if_neg (not_not.2 ((h.and_eq_zero_iff hbits).2 ha)),
      (h.snoc hbits).unique h']

/-! ### all fields -/

/-- the run of the check over `fs`, after the fields `before`. -/
theorem foldlM_cover_eq_ok_iff {fs before : List Field} {covered covered' : UInt8}
    (h : Marks covered before) :
    fs.foldlM cover covered = .ok covered' ↔
      (∀ f ∈ fs, f.Sound) ∧ fs.Pairwise Field.Apart ∧
        (∀ g ∈ before, ∀ f ∈ fs, g.Apart f) ∧ Marks covered' (before ++ fs) := by
  induction fs generalizing covered before with
  | nil =>
    rw [List.foldlM_nil, List.append_nil]
    constructor
    · intro hc
      cases hc
      exact ⟨by simp, .nil, by simp, h⟩
    · intro hx
      obtain ⟨-, -, -, h'⟩ := hx
      exact congrArg Except.ok (h.unique h')
  | cons f fs ih =>
    rw [List.foldlM_cons, bind_eq_ok_iff, List.pairwise_cons]
    have e : before ++ f :: fs = before ++ [f] ++ fs := by simp
    constructor
    · intro hx
      obtain ⟨mid, hc, hrest⟩ := hx
      obtain ⟨hs, ha, hm⟩ := (cover_eq_ok_iff h).1 hc
      obtain ⟨hss, hp, hb, h'⟩ := (ih hm).1 hrest
      refine ⟨?_, ⟨hb f (by simp), hp⟩, ?_, e ▸ h'⟩
      · exact List.forall_mem_cons.2 ⟨hs, hss⟩
      · intro g hg
        exact List.forall_mem_cons.2 ⟨ha g hg, hb g (List.mem_append_left _ hg)⟩
    · intro hy
      obtain ⟨hs, ⟨hf, hp⟩, hb, h'⟩ := hy
      obtain ⟨hs, hss⟩ := List.forall_mem_cons.1 hs
      obtain ⟨mask, -, hbits⟩ := hs.exists_mask
      have hm := h.snoc hbits
      refine ⟨covered ||| mask, (cover_eq_ok_iff h).2 ⟨hs, fun g hg => hb g hg f (by simp), hm⟩,
        (ih hm).2 ⟨hss, hp, fun g hg => ?_, e ▸ h'⟩⟩
      rcases List.mem_append.1 hg with hg | hg
      · exact fun x hx => hb g hg x (List.mem_cons_of_mem _ hx)
      · rw [List.mem_singleton] at hg
        exact hg ▸ hf

/-- the union of the masks of sound fields, after the fields `before`. -/
theorem exists_union {fs before : List Field} {covered : UInt8} (h : Marks covered before)
    (hs : ∀ f ∈ fs, f.Sound) :
    ∃ covered', fs.foldlM (fun c f => do return c ||| (← f.mask)) covered = .ok covered' ∧
      Marks covered' (before ++ fs) := by
  induction fs generalizing covered before with
  | nil => exact ⟨covered, rfl, by rwa [List.append_nil]⟩
  | cons f fs ih =>
    obtain ⟨hf, hs⟩ := List.forall_mem_cons.1 hs
    obtain ⟨mask, hm, hbits⟩ := hf.exists_mask
    obtain ⟨covered', hc, h'⟩ := ih (h.snoc hbits) hs
    refine ⟨covered', ?_, by simpa using h'⟩
    rw [List.foldlM_cons, hm]
    exact hc

/-- the rules that fixed bits and fields together keep. -/
structure Layout (fixed : UInt8) (fields : List Field) : Prop where
  sound : ∀ f ∈ fields, f.Sound
  apart : fields.Pairwise Field.Apart
  /-- no field covers a set bit of the pattern. -/
  clear : ∀ f ∈ fields, ∀ i, f.Covers i → fixed.toNat.testBit i = false

/-- **The check passes exactly the layouts.** -/
theorem check_eq_ok_iff {fixed : UInt8} {fields : List Field} :
    check fixed fields = .ok () ↔ Layout fixed fields := by
  unfold check checkM
  rw [bind_eq_ok_iff]
  constructor
  · intro h
    obtain ⟨covered, hc, h⟩ := h
    obtain ⟨hs, hp, -, hm⟩ := (foldlM_cover_eq_ok_iff Marks.nil).1 hc
    refine ⟨hs, hp, fun f hf i hi => ?_⟩
    by_cases hz : fixed &&& covered = 0
    · have hb := Word.and_eq_zero_iff.1 hz i
      rw [(hm i).2 ⟨f, hf, hi⟩] at hb
      exact Bool.eq_false_iff.2 fun h1 => Bool.false_ne_true (hb h1).symm
    · rw [if_pos hz] at h
      cases h
  · intro h
    obtain ⟨covered, -, hm⟩ := exists_union Marks.nil h.sound
    refine ⟨covered, (foldlM_cover_eq_ok_iff Marks.nil).2 ⟨h.sound, h.apart, by simp, hm⟩, ?_⟩
    have hz : fixed &&& covered = 0 := by
      rw [Word.and_eq_zero_iff]
      intro i hi
      rw [Bool.eq_false_iff]
      intro hc
      obtain ⟨f, hf, hfi⟩ := (hm i).1 hc
      rw [h.clear f hf i hfi] at hi
      exact Bool.false_ne_true hi
    rw [if_neg (not_not.2 hz)]
    rfl

theorem layout (t : Template) : Layout t.fixed t.fields := check_eq_ok_iff.1 t.checked

theorem exists_ofFields_iff {fixed : UInt8} {fields : List Field} :
    (∃ t, ofFields fixed fields = .ok t) ↔ Layout fixed fields := by
  refine ⟨fun ⟨t, ht⟩ => ?_, fun h => ?_⟩
  · obtain ⟨rfl, rfl⟩ := ofFields_eq_ok_iff.1 ht
    exact t.layout
  · exact ⟨⟨fixed, fields, check_eq_ok_iff.2 h⟩, ofFields_eq_ok_iff.2 ⟨rfl, rfl⟩⟩

/-! ### the masks of a template -/

/-- bit `i` lies in no field, so it is the bit of the pattern. -/
def Fixes (t : Template) (i : Nat) : Prop := ∀ f ∈ t.fields, ¬ f.Covers i

instance (t : Template) (i : Nat) : Decidable (t.Fixes i) :=
  inferInstanceAs (Decidable (∀ f ∈ t.fields, ¬ f.Covers i))

theorem exists_fieldMask (t : Template) : ∃ m, t.fieldMask = .ok m ∧ Marks m t.fields :=
  exists_union Marks.nil t.layout.sound

theorem fixedMask_eq_ok {t : Template} {m : UInt8} (h : t.fieldMask = .ok m) :
    t.fixedMask = .ok (~~~m) :=
  bind_eq_ok_iff.2 ⟨m, h, rfl⟩

theorem exists_fixedMask (t : Template) :
    ∃ k, t.fixedMask = .ok k ∧ ∀ i, k.toNat.testBit i = true ↔ i < 8 ∧ t.Fixes i := by
  obtain ⟨m, hm, h⟩ := t.exists_fieldMask
  refine ⟨~~~m, fixedMask_eq_ok hm, fun i => ?_⟩
  rw [Word.bit_not, Bool.and_eq_true, decide_eq_true_eq, Bool.not_eq_true', Bool.eq_false_iff,
    ne_eq, h i]
  unfold Fixes
  simp only [not_exists, not_and]

/-! ### malformed layouts -/

/-- what is wrong with the field `f` behind the fields `before`. -/
inductive FieldFault (before : List Field) (f : Field) : Fault → Prop
  | empty (zero : f.width = 0) : FieldFault before f (.emptyField f.offset)
  | outOfRange (nonzero : f.width ≠ 0) (outside : 8 < f.offset.toNat + f.width.toNat) :
      FieldFault before f (.outOfRange f.offset f.width)
  | widthMismatch (nonzero : f.width ≠ 0) (inside : f.offset.toNat + f.width.toNat ≤ 8)
      (other : f.width ≠ f.selector.width) :
      FieldFault before f (.widthMismatch f.selector.name f.width f.selector.width)
  /-- the field is sound, but shares the bits of `mask` with the fields before it. -/
  | overlap {mask : UInt8} (sound : f.Sound) (shared : mask ≠ 0)
      (bits : ∀ i, mask.toNat.testBit i = true ↔ f.Covers i ∧ ∃ g ∈ before, g.Covers i) :
      FieldFault before f (.overlap mask)

/-- what is wrong with fixed bits and fields. -/
inductive Malformed (fixed : UInt8) (fields : List Field) : Fault → Prop
  /-- the first field that fails: those before it are sound and apart. -/
  | field {before after : List Field} {f : Field} {fault : Fault}
      (split : fields = before ++ f :: after) (sound : ∀ g ∈ before, g.Sound)
      (apart : before.Pairwise Field.Apart) (fails : FieldFault before f fault) :
      Malformed fixed fields fault
  /-- all fields pass, but a fixed bit is set among theirs, which are those of `mask`. -/
  | fixed {mask : UInt8} (sound : ∀ f ∈ fields, f.Sound) (apart : fields.Pairwise Field.Apart)
      (union : Marks mask fields) (shared : fixed &&& mask ≠ 0) :
      Malformed fixed fields (.fixedOverlap fixed mask)

variable {fixed : UInt8} {fields : List Field} {fault : Fault}

/-- **One step of the check finds what is wrong with a field.** -/
theorem cover_eq_error_iff {covered : UInt8} {before : List Field} {f : Field}
    (h : Marks covered before) :
    cover covered f = .error fault ↔ FieldFault before f fault := by
  refine ⟨fun hc => ?_, fun hf => ?_⟩
  · by_cases hs : f.Sound
    · obtain ⟨mask, hm, hbits⟩ := hs.exists_mask
      rw [cover_of_sound hs hm] at hc
      by_cases hz : covered &&& mask = 0
      · rw [if_neg (not_not.2 hz)] at hc
        cases hc
      · rw [if_pos hz] at hc
        cases hc
        exact .overlap hs hz (h.bit_and hbits)
    · rw [cover_eq] at hc
      by_cases zero : f.width = 0
      · rw [if_pos zero] at hc
        cases hc
        exact .empty zero
      · rw [if_neg zero] at hc
        by_cases outside : 8 < f.offset.toNat + f.width.toNat
        · rw [if_pos outside] at hc
          cases hc
          exact .outOfRange zero outside
        · have inside := Nat.le_of_not_lt outside
          have other : f.width ≠ f.selector.width := fun e =>
            hs ⟨Nat.pos_of_ne_zero fun h0 => zero (UInt8.toNat_inj.1 h0), inside, e⟩
          rw [if_neg outside, if_pos other] at hc
          cases hc
          exact .widthMismatch zero inside other
  · cases hf with
    | empty zero => rw [cover_eq, if_pos zero]
    | outOfRange nonzero outside => rw [cover_eq, if_neg nonzero, if_pos outside]
    | widthMismatch nonzero inside other =>
      rw [cover_eq, if_neg nonzero, if_neg (Nat.not_lt.2 inside), if_pos other]
    | @overlap mask sound shared bits =>
      obtain ⟨own, hm, hbits⟩ := sound.exists_mask
      have e : covered &&& own = mask := Word.eq_of_bits fun i =>
        Bool.eq_iff_iff.2 ((h.bit_and hbits i).trans (bits i).symm)
      rw [cover_of_sound sound hm, e, if_pos shared]

/-- **The check finds the first fault.** -/
theorem check_eq_error_iff : check fixed fields = .error fault ↔ Malformed fixed fields fault := by
  unfold check checkM
  rw [bind_eq_error_iff, foldlM_eq_error_iff]
  refine ⟨fun h => ?_, fun h => ?_⟩
  · rcases h with ⟨before, f, after, covered, hsplit, hrun, hf⟩ | ⟨covered, hrun, hfix⟩
    · obtain ⟨hs, ha, -, hm⟩ := (foldlM_cover_eq_ok_iff Marks.nil).1 hrun
      exact .field hsplit hs ha ((cover_eq_error_iff hm).1 hf)
    · obtain ⟨hs, ha, -, hm⟩ := (foldlM_cover_eq_ok_iff Marks.nil).1 hrun
      by_cases hz : fixed &&& covered = 0
      · rw [if_neg (not_not.2 hz)] at hfix
        cases hfix
      · rw [if_pos hz] at hfix
        cases hfix
        exact .fixed hs ha hm hz
  · cases h with
    | @field before after f fault split sound apart fails =>
      obtain ⟨covered, -, hm⟩ := exists_union Marks.nil sound
      have hrun := (foldlM_cover_eq_ok_iff Marks.nil).2 ⟨sound, apart, by simp, hm⟩
      exact .inl ⟨before, f, after, covered, split, hrun, (cover_eq_error_iff hm).2 fails⟩
    | @fixed mask sound apart union shared =>
      have hrun := (foldlM_cover_eq_ok_iff Marks.nil).2 ⟨sound, apart, by simp, union⟩
      exact .inr ⟨mask, hrun, if_pos shared⟩

/-- **Fields make a template if they are a layout**: each is sound, no two share a bit, and no set
bit of the pattern lies in one.  **If not, they are rejected for their first fault.** -/
theorem layout_or_first_fault (fixed : UInt8) (fields : List Field) :
    ((∃ t, ofFields fixed fields = .ok t) ↔ Layout fixed fields) ∧
    ∀ fault, ofFields fixed fields = .error fault ↔ Malformed fixed fields fault := by
  refine ⟨⟨fun ⟨t, ht⟩ => ?_, fun h => ?_⟩, fun fault => ?_⟩
  · obtain ⟨rfl, rfl⟩ := ofFields_eq_ok_iff.1 ht
    exact t.layout
  · exact ⟨⟨fixed, fields, check_eq_ok_iff.2 h⟩, ofFields_eq_ok_iff.2 ⟨rfl, rfl⟩⟩
  · rw [ofFields_eq_error_iff, check_eq_error_iff]

/-- the first field leaves the byte; the second is empty, and the pattern sets bits of both. -/
example : ofFields 255 [.ofSelector 6 .register, ⟨0, 0, .register⟩] = .error (.outOfRange 6 3) := rfl

end Template

end OpcodeChart
