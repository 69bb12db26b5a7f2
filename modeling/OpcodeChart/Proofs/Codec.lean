import OpcodeChart.Proofs.Layout

/-!
# What encoding and decoding compute

An opcode carries a list of values under a template if every field holds its value and every other
bit is the bit of the pattern.  Encoding and decoding are the two directions of this one relation.

* `Field.Holds f opcode v`          the bits of `f` in `opcode` spell `v`;
* `Template.place_eq_ok_iff_holds`  one step of encoding: one field comes to hold its value;
* `Template.Carries t opcode vs`    the relation;
* `Template.encode_eq_ok_iff`       encoding finds the opcode that carries the values;
* `Template.decode_eq_some_iff`     decoding finds the values that the opcode carries;
* `Template.exists_encode_iff`      values have an opcode if there is one per field and each fits;
* `Template.decode_eq_none_iff`     decoding rejects the opcodes whose fixed bits differ;
* `Template.Misfit fields vs fault` what is wrong with the values `vs`;
* `Template.encode_eq_error_iff`    **encoding fails at the first value that does not fit**;
* `Template.bits_or_first_misfit`   **each bit of an opcode comes from one value or from the pattern,
                                    or else a misfit is reported**.

Why encoding, which only ever sets bits, makes every field hold its value: the range of a field is
clear when its turn comes, as no set bit of the pattern and no earlier field lies in it.
-/

namespace OpcodeChart

structure Field.Holds (f : Field) (opcode v : UInt8) : Prop where
  fits : v.toNat < 2 ^ f.width.toNat
  bits : ∀ i < f.width.toNat,
    opcode.toNat.testBit (f.offset.toNat + i) = v.toNat.testBit i

instance (f : Field) (opcode v : UInt8) : Decidable (f.Holds opcode v) :=
  decidable_of_iff (v.toNat < 2 ^ f.width.toNat ∧ ∀ i < f.width.toNat,
      opcode.toNat.testBit (f.offset.toNat + i) = v.toNat.testBit i)
    ⟨fun h => ⟨h.1, h.2⟩, fun h => ⟨h.fits, h.bits⟩⟩

/-- a bit in a field is a bit of the value that the field holds. -/
theorem Field.Holds.bit_of_covers {f : Field} {opcode v : UInt8} {i : Nat} (h : f.Holds opcode v)
    (hi : f.Covers i) : opcode.toNat.testBit i = v.toNat.testBit (i - f.offset.toNat) := by
  obtain ⟨j, rfl⟩ := Nat.exists_eq_add_of_le hi.1
  rw [Nat.add_sub_cancel_left]
  exact h.bits j (Field.covers_add_iff.1 hi)

/-- what a field holds hangs on its own bits. -/
theorem Field.Holds.of_agree {f : Field} {a b v : UInt8} (h : f.Holds a v)
    (hab : ∀ i, f.Covers i → b.toNat.testBit i = a.toNat.testBit i) : f.Holds b v :=
  ⟨h.fits, fun i hi => (hab _ (Field.covers_add_iff.2 hi)).trans (h.bits i hi)⟩

theorem Field.Holds.unique {f : Field} {opcode u v : UInt8} (hu : f.Holds opcode u)
    (hv : f.Holds opcode v) : u = v := by
  apply Word.eq_of_bits
  intro i
  by_cases hi : i < f.width.toNat
  · rw [← hu.bits i hi, hv.bits i hi]
  · rw [Word.lt_two_pow_iff.1 hu.fits i (by omega), Word.lt_two_pow_iff.1 hv.fits i (by omega)]

namespace Template

/-! ### one field -/

section
variable {f : Field} (hs : f.Sound)
include hs

theorem place_of_sound (opcode v : UInt8) :
    place opcode f v =
      if 2 ^ f.width.toNat ≤ v.toNat then .error (.valueTooWide v f.width)
      else .ok (opcode ||| v <<< f.offset) := by
  obtain ⟨largest, hl, -⟩ := hs.exists_maxValue
  have hshl : Word.shl8 v f.offset = .ok (v <<< f.offset) :=
    Word.shl8_eq_ok_iff.2 ⟨hs.offset_lt, rfl⟩
  show (trap f.maxValue >>= _) = _
  rw [hl]
  show (if largest < v then _ else trap (Word.shl8 v f.offset) >>= _) = _
  rw [hshl]
  simp only [hs.maxValue_lt_iff hl]
  rfl

/-- a value that fits stays inside its field. -/
theorem bit_placed {v : UInt8} (hv : v.toNat < 2 ^ f.width.toNat) (i : Nat) :
    (v <<< f.offset).toNat.testBit i
      = (decide (f.Covers i) && v.toNat.testBit (i - f.offset.toNat)) := by
  rw [Word.bit_shl v hs.offset_lt]
  by_cases hi : f.Covers i
  · rw [decide_eq_true (hs.lt_of_covers hi), decide_eq_true hi.1, decide_eq_true hi,
      Bool.true_and]
  · rw [decide_eq_false hi, Bool.false_and]
    by_cases ho : f.offset.toNat ≤ i
    · have hw : f.width.toNat ≤ i - f.offset.toNat := by
        unfold Field.Covers at hi
        omega
      rw [Word.lt_two_pow_iff.1 hv _ hw, Bool.and_false, Bool.and_false]
    · rw [decide_eq_false ho, Bool.false_and, Bool.and_false]

theorem place_eq_ok_iff {opcode opcode' v : UInt8} :
    place opcode f v = .ok opcode' ↔ v.toNat < 2 ^ f.width.toNat ∧
      ∀ i, opcode'.toNat.testBit i = (opcode.toNat.testBit i
        || (decide (f.Covers i) && v.toNat.testBit (i - f.offset.toNat))) := by
  rw [place_of_sound hs]
  constructor
  · intro h
    by_cases hv : 2 ^ f.width.toNat ≤ v.toNat
    · rw [if_pos hv] at h
      cases h
    · rw [if_neg hv] at h
      cases h
      exact ⟨Nat.lt_of_not_le hv, fun i => by
        rw [Word.bit_or, bit_placed hs (Nat.lt_of_not_le hv)]⟩
  · intro h
    obtain ⟨hv, h⟩ := h
    rw [if_neg (Nat.not_le.2 hv)]
    refine congrArg Except.ok (Word.eq_of_bits fun i => ?_)
    rw [Word.bit_or, bit_placed hs hv, h i]

/-- **One step of encoding**: a field with clear bits comes to hold the value, and nothing else
changes. -/
theorem place_eq_ok_iff_holds {opcode opcode' v : UInt8}
    (hc : ∀ i, f.Covers i → opcode.toNat.testBit i = false) :
    place opcode f v = .ok opcode' ↔ f.Holds opcode' v ∧
      ∀ i, ¬ f.Covers i → opcode'.toNat.testBit i = opcode.toNat.testBit i := by
  rw [place_eq_ok_iff hs]
  refine ⟨fun ⟨hv, h⟩ => ⟨⟨hv, fun i hi => ?_⟩, fun i hi => ?_⟩,
    fun ⟨hholds, hout⟩ => ⟨hholds.fits, fun i => ?_⟩⟩
  · have hcov := Field.covers_add_iff.2 hi
    rw [h, hc _ hcov, decide_eq_true hcov, Nat.add_sub_cancel_left, Bool.true_and, Bool.false_or]
  · rw [h, decide_eq_false hi, Bool.false_and, Bool.or_false]
  · by_cases hi : f.Covers i
    · rw [hholds.bit_of_covers hi, hc i hi, decide_eq_true hi, Bool.true_and, Bool.false_or]
    · rw [hout i hi, decide_eq_false hi, Bool.false_and, Bool.or_false]

/-- a value that fits can be put into its field. -/
theorem exists_place {v : UInt8} (hv : v.toNat < 2 ^ f.width.toNat) (opcode : UInt8) :
    ∃ opcode', place opcode f v = .ok opcode' := by
  rw [place_of_sound hs, if_neg (Nat.not_le.2 hv)]
  exact ⟨_, rfl⟩

/-- every opcode holds a value in a sound field, and it can be read. -/
theorem exists_extract (opcode : UInt8) :
    ∃ v, extract opcode f = .ok v ∧ f.Holds opcode v := by
  obtain ⟨mask, hm, hbits⟩ := hs.exists_mask
  have hb : ∀ i, ((opcode &&& mask) >>> f.offset).toNat.testBit i
      = (opcode.toNat.testBit (f.offset.toNat + i) && decide (i < f.width.toNat)) := by
    intro i
    rw [Word.bit_shr _ hs.offset_lt, Word.bit_and, hbits, decide_eq_decide.2 Field.covers_add_iff]
  refine ⟨(opcode &&& mask) >>> f.offset, ?_, Word.lt_two_pow_iff.2 fun i hi => ?_, fun i hi => ?_⟩
  · exact bind_eq_ok_iff.2 ⟨mask, hm, Word.shr8_eq_ok_iff.2 ⟨hs.offset_lt, rfl⟩⟩
  · rw [hb, decide_eq_false (Nat.not_lt.2 hi), Bool.and_false]
  · rw [hb, decide_eq_true hi, Bool.and_true]

end

/-! ### all fields -/

/-- the run of encoding over `fs`, from an opcode in which the ranges of `fs` are clear. -/
theorem foldlM_place_eq_ok_iff {fs : List Field} {vs : List UInt8} {opcode opcode' : UInt8}
    (hs : ∀ f ∈ fs, f.Sound) (ha : fs.Pairwise Field.Apart) (hl : vs.length = fs.length)
    (hc : ∀ f ∈ fs, ∀ i, f.Covers i → opcode.toNat.testBit i = false) :
    (fs.zip vs).foldlM (fun o p => place o p.1 p.2) opcode = .ok opcode' ↔
      List.Forall₂ (fun f v => f.Holds opcode' v) fs vs ∧
        ∀ i, (∀ f ∈ fs, ¬ f.Covers i) → opcode'.toNat.testBit i = opcode.toNat.testBit i := by
  induction fs generalizing vs opcode with
  | nil =>
    obtain rfl := List.length_eq_zero_iff.1 hl
    constructor
    · intro h
      cases h
      exact ⟨.nil, fun i _ => rfl⟩
    · intro h
      obtain ⟨-, h⟩ := h
      exact congrArg Except.ok (Word.eq_of_bits fun i => (h i (by simp)).symm)
  | cons f fs ih =>
    cases vs with
    | nil => cases hl
    | cons v vs =>
      obtain ⟨hf, hs⟩ := List.forall_mem_cons.1 hs
      obtain ⟨hfa, ha⟩ := List.pairwise_cons.1 ha
      obtain ⟨hcf, hcs⟩ := List.forall_mem_cons.1 hc
      have hl : vs.length = fs.length := Nat.succ.inj hl
      -- the ranges of the later fields stay clear, as `f` is apart from them
      have hclear : ∀ mid : UInt8,
          (∀ i, ¬ f.Covers i → mid.toNat.testBit i = opcode.toNat.testBit i) →
          ∀ g ∈ fs, ∀ i, g.Covers i → mid.toNat.testBit i = false := by
        intro mid hmid g hg i hi
        rw [hmid i fun h => hfa g hg i h hi]
        exact hcs g hg i hi
      rw [List.zip_cons_cons, List.foldlM_cons, bind_eq_ok_iff, List.forall₂_cons]
      constructor
      · intro hx
        obtain ⟨mid, hp, hrun⟩ := hx
        obtain ⟨hholds, hmid⟩ := (place_eq_ok_iff_holds hf hcf).1 hp
        obtain ⟨hrest, hout⟩ := (ih hs ha hl (hclear mid hmid)).1 hrun
        have hkept := hholds.of_agree fun i hi => hout i fun g hg => hfa g hg i hi
        refine ⟨⟨hkept, hrest⟩, fun i hi => ?_⟩
        obtain ⟨hif, his⟩ := List.forall_mem_cons.1 hi
        rw [hout i his, hmid i hif]
      · intro h
        obtain ⟨⟨hholds, hrest⟩, hout⟩ := h
        obtain ⟨mid, hp⟩ := exists_place hf hholds.fits opcode
        obtain ⟨hplaced, hmid⟩ := (place_eq_ok_iff_holds hf hcf).1 hp
        refine ⟨mid, hp, (ih hs ha hl (hclear mid hmid)).2 ⟨hrest, fun i hi => ?_⟩⟩
        by_cases hif : f.Covers i
        · rw [hholds.bit_of_covers hif, hplaced.bit_of_covers hif]
        · rw [hout i (List.forall_mem_cons.2 ⟨hif, hi⟩), hmid i hif]

/-- the run over fields with their values goes through exactly if every value fits. -/
theorem exists_foldlM_place_iff {ps : List (Field × UInt8)} (hs : ∀ p ∈ ps, p.1.Sound)
    (opcode : UInt8) :
    (∃ opcode', ps.foldlM (fun o p => place o p.1 p.2) opcode = .ok opcode') ↔
      ∀ p ∈ ps, p.2.toNat < 2 ^ p.1.width.toNat := by
  induction ps generalizing opcode with
  | nil => exact ⟨fun _ => List.forall_mem_nil _, fun _ => ⟨opcode, rfl⟩⟩
  | cons p ps ih =>
    obtain ⟨hp, hs⟩ := List.forall_mem_cons.1 hs
    rw [List.forall_mem_cons]
    simp only [List.foldlM_cons, bind_eq_ok_iff]
    refine ⟨fun ⟨opcode', mid, hm, ho⟩ => ?_, fun ⟨hv, hvs⟩ => ?_⟩
    · exact ⟨((place_eq_ok_iff hp).1 hm).1, (ih hs mid).1 ⟨opcode', ho⟩⟩
    · obtain ⟨mid, hm⟩ := exists_place hp hv opcode
      obtain ⟨opcode', ho⟩ := (ih hs mid).2 hvs
      exact ⟨opcode', mid, hm, ho⟩

/-- `opcode` carries the values `vs`, one per field. -/
structure Carries (t : Template) (opcode : UInt8) (vs : List UInt8) : Prop where
  values : List.Forall₂ (fun f v => f.Holds opcode v) t.fields vs
  /-- the bits that no field covers are those of the pattern. -/
  pattern : ∀ i, t.Fixes i → opcode.toNat.testBit i = t.fixed.toNat.testBit i

variable {t : Template} {opcode : UInt8} {vs : List UInt8}

/-- an opcode carries one list of values at most. -/
theorem Carries.unique {us : List UInt8} (hu : t.Carries opcode us) (hv : t.Carries opcode vs) :
    us = vs := by
  have hr : Relator.RightUnique fun (f : Field) v => f.Holds opcode v :=
    fun _ _ _ hu hv => hu.unique hv
  exact List.right_unique_forall₂' hr hu.values hv.values

theorem encode_of_length_eq (h : vs.length = t.fields.length) :
    t.encode vs = (t.fields.zip vs).foldlM (fun o p => place o p.1 p.2) t.fixed :=
  if_neg (not_not.2 h)

theorem encode_of_length_ne (h : vs.length ≠ t.fields.length) :
    t.encode vs = .error (.fieldCount t.fields.length vs.length) :=
  if_pos h

/-- **Encoding finds the opcode that carries the values.** -/
theorem encode_eq_ok_iff : t.encode vs = .ok opcode ↔ t.Carries opcode vs := by
  have hl := t.layout
  by_cases hlen : vs.length = t.fields.length
  · rw [encode_of_length_eq hlen, foldlM_place_eq_ok_iff hl.sound hl.apart hlen hl.clear]
    exact ⟨fun h => ⟨h.1, h.2⟩, fun h => ⟨h.values, h.pattern⟩⟩
  · rw [encode_of_length_ne hlen]
    constructor
    · intro h
      cases h
    · intro h
      exact absurd h.values.length_eq.symm hlen

theorem sound_of_mem_zip {p : Field × UInt8} (hp : p ∈ t.fields.zip vs) : p.1.Sound :=
  t.layout.sound _ (List.of_mem_zip hp).1

/-- **Values can be encoded exactly if there is one per field and each fits.** -/
theorem exists_encode_iff :
    (∃ opcode, t.encode vs = .ok opcode) ↔
      List.Forall₂ (fun f v => v.toNat < 2 ^ f.width.toNat) t.fields vs := by
  rw [List.forall₂_iff_zip]
  by_cases hlen : vs.length = t.fields.length
  · rw [encode_of_length_eq hlen, exists_foldlM_place_iff fun p => sound_of_mem_zip]
    exact ⟨fun h => ⟨hlen.symm, fun hp => h _ hp⟩, fun h p hp => h.2 hp⟩
  · rw [encode_of_length_ne hlen]
    exact ⟨fun ⟨_, h⟩ => (nomatch h), fun h => absurd h.1.symm hlen⟩

/-- the match of the fixed bits, bit by bit. -/
theorem and_fixedMask_eq_iff {k : UInt8} (hk : t.fixedMask = .ok k) :
    opcode &&& k = t.fixed ↔
      ∀ i, t.Fixes i → opcode.toNat.testBit i = t.fixed.toNat.testBit i := by
  obtain ⟨k', hk', hbits⟩ := t.exists_fixedMask
  rw [hk] at hk'
  cases hk'
  constructor
  · intro h i hi
    by_cases hlt : i < 8
    · rw [← h, Word.bit_and, (hbits i).2 ⟨hlt, hi⟩, Bool.and_true]
    · rw [Word.bit_eq_false _ (by omega), Word.bit_eq_false _ (by omega)]
  · intro h
    apply Word.eq_of_bits
    intro i
    rw [Word.bit_and]
    by_cases hi : t.Fixes i
    · by_cases hlt : i < 8
      · rw [(hbits i).2 ⟨hlt, hi⟩, Bool.and_true, h i hi]
      · rw [Word.bit_eq_false _ (by omega), Word.bit_eq_false t.fixed (by omega), Bool.false_and]
    · have hkf : k.toNat.testBit i = false := by
        rw [Bool.eq_false_iff]
        exact fun hb => hi ((hbits i).1 hb).2
      unfold Fixes at hi
      simp only [not_forall, not_not] at hi
      obtain ⟨f, hf, hcov⟩ := hi
      rw [hkf, Bool.and_false, t.layout.clear f hf i hcov]

theorem exists_mapM_extract {fs : List Field} (hs : ∀ f ∈ fs, f.Sound) (opcode : UInt8) :
    ∃ vs, fs.mapM (extract opcode) = .ok vs ∧
      List.Forall₂ (fun f v => f.Holds opcode v) fs vs := by
  induction fs with
  | nil => exact ⟨[], rfl, .nil⟩
  | cons f fs ih =>
    obtain ⟨hf, hs⟩ := List.forall_mem_cons.1 hs
    obtain ⟨v, hv, hholds⟩ := exists_extract hf opcode
    obtain ⟨vs, hvs, hrest⟩ := ih hs
    refine ⟨v :: vs, ?_, .cons hholds hrest⟩
    rw [List.mapM_cons, hv, hvs]
    rfl

/-- decoding by the match of the fixed bits. -/
theorem decode_eq {k : UInt8} (hk : t.fixedMask = .ok k) (opcode : UInt8) :
    ∃ vs, List.Forall₂ (fun f v => f.Holds opcode v) t.fields vs ∧
      t.decode opcode = .ok (if opcode &&& k = t.fixed then some vs else none) := by
  obtain ⟨vs, hvs, hholds⟩ := exists_mapM_extract t.layout.sound opcode
  refine ⟨vs, hholds, bind_eq_ok_iff.2 ⟨k, hk, ?_⟩⟩
  by_cases h : opcode &&& k = t.fixed
  · rw [if_pos h, if_neg (not_not.2 h)]
    exact bind_eq_ok_iff.2 ⟨vs, hvs, rfl⟩
  · rw [if_neg h, if_pos h]
    rfl

/-- **Decoding finds the values that the opcode carries.** -/
theorem decode_eq_some_iff : t.decode opcode = .ok (some vs) ↔ t.Carries opcode vs := by
  obtain ⟨k, hk, -⟩ := t.exists_fixedMask
  obtain ⟨us, hus, hd⟩ := decode_eq hk opcode
  rw [hd]
  constructor
  · intro h
    by_cases hm : opcode &&& k = t.fixed
    · rw [if_pos hm] at h
      cases h
      exact ⟨hus, (and_fixedMask_eq_iff hk).1 hm⟩
    · rw [if_neg hm] at h
      cases h
  · intro h
    have hm := (and_fixedMask_eq_iff hk).2 h.pattern
    have hu : t.Carries opcode us := ⟨hus, h.pattern⟩
    rw [if_pos hm, hu.unique h]

/-- an opcode decodes exactly when its fixed bits match. -/
theorem exists_decode_iff {k : UInt8} (hk : t.fixedMask = .ok k) :
    (∃ vs, t.decode opcode = .ok (some vs)) ↔ opcode &&& k = t.fixed := by
  obtain ⟨us, hus, -⟩ := decode_eq hk opcode
  constructor
  · intro h
    obtain ⟨vs, h⟩ := h
    exact (and_fixedMask_eq_iff hk).2 (decode_eq_some_iff.1 h).pattern
  · intro h
    exact ⟨us, decode_eq_some_iff.2 ⟨hus, (and_fixedMask_eq_iff hk).1 h⟩⟩

/-- an opcode that does not match is rejected, not trapped. -/
theorem decode_eq_none_iff {k : UInt8} (hk : t.fixedMask = .ok k) :
    t.decode opcode = .ok none ↔ opcode &&& k ≠ t.fixed := by
  obtain ⟨us, -, hd⟩ := decode_eq hk opcode
  rw [hd]
  by_cases h : opcode &&& k = t.fixed
  · simp [h]
  · simp [h]

/-! ### values that do not fit -/

/-- what is wrong with values that cannot be put into the fields. -/
inductive Misfit (fields : List Field) (vs : List UInt8) : Fault → Prop
  /-- their number, whether they fit or not. -/
  | count (other : vs.length ≠ fields.length) :
      Misfit fields vs (.fieldCount fields.length vs.length)
  /-- the first that does not fit its field. -/
  | tooWide {before after : List (Field × UInt8)} {f : Field} {v : UInt8}
      (count : vs.length = fields.length) (split : fields.zip vs = before ++ (f, v) :: after)
      (fit : ∀ p ∈ before, p.2.toNat < 2 ^ p.1.width.toNat)
      (wide : 2 ^ f.width.toNat ≤ v.toNat) : Misfit fields vs (.valueTooWide v f.width)

theorem place_eq_error_iff {f : Field} (hs : f.Sound) {opcode v : UInt8} {fault : Fault} :
    place opcode f v = .error fault ↔
      2 ^ f.width.toNat ≤ v.toNat ∧ fault = .valueTooWide v f.width := by
  rw [place_of_sound hs]
  by_cases hv : 2 ^ f.width.toNat ≤ v.toNat
  · rw [if_pos hv, and_iff_right hv, Except.error.injEq, eq_comm]
  · rw [if_neg hv]
    exact ⟨fun h => (nomatch h), fun h => absurd h.1 hv⟩

variable {fault : Fault}

/-- **Encoding fails at the first value that does not fit**, unless their number is wrong. -/
theorem encode_eq_error_iff : t.encode vs = .error fault ↔ Misfit t.fields vs fault := by
  by_cases hlen : vs.length = t.fields.length
  · rw [encode_of_length_eq hlen, foldlM_eq_error_iff]
    have hsound : ∀ {before after : List (Field × UInt8)} {p : Field × UInt8},
        t.fields.zip vs = before ++ p :: after → p.1.Sound ∧ ∀ q ∈ before, q.1.Sound := by
      intro before after p hsplit
      have hmem : ∀ q ∈ before ++ p :: after, q.1.Sound := fun q hq =>
        sound_of_mem_zip (hsplit ▸ hq)
      exact ⟨hmem p (by simp), fun q hq => hmem q (List.mem_append_left _ hq)⟩
    refine ⟨fun ⟨before, p, after, mid, hsplit, hrun, hp⟩ => ?_, fun h => ?_⟩
    · obtain ⟨hs, hss⟩ := hsound hsplit
      obtain ⟨wide, rfl⟩ := (place_eq_error_iff hs).1 hp
      exact .tooWide hlen hsplit ((exists_foldlM_place_iff hss t.fixed).1 ⟨mid, hrun⟩) wide
    · cases h with
      | count other => exact absurd hlen other
      | @tooWide before after f v _ split fit wide =>
        obtain ⟨hs, hss⟩ := hsound split
        obtain ⟨mid, hrun⟩ := (exists_foldlM_place_iff hss t.fixed).2 fit
        exact ⟨before, (f, v), after, mid, split, hrun, (place_eq_error_iff hs).2 ⟨wide, rfl⟩⟩
  · rw [encode_of_length_ne hlen, Except.error.injEq]
    refine ⟨fun h => h ▸ .count hlen, fun h => ?_⟩
    cases h with
    | count _ => rfl
    | tooWide count _ _ _ => exact absurd count hlen

/-- **Each bit of an opcode comes from one value or from the pattern, or else a misfit is reported.**
Values have an opcode exactly if there is one per field and each fits.  A bit in a field is then the
bit of the field's value, and any other bit is that of the pattern.  Else their number is wrong, or the
first value that is too wide is reported. -/
theorem bits_or_first_misfit {fixed : UInt8} {fields : List Field} {t : Template}
    (h : ofFields fixed fields = .ok t) (vs : List UInt8) :
    ((∃ opcode, t.encode vs = .ok opcode) ↔
      vs.length = fields.length ∧ ∀ p ∈ fields.zip vs, p.2.toNat < 2 ^ p.1.width.toNat) ∧
    (∀ opcode, t.encode vs = .ok opcode → ∀ i < 8,
      (∀ p ∈ fields.zip vs, p.1.Covers i →
        opcode.toNat.testBit i = p.2.toNat.testBit (i - p.1.offset.toNat)) ∧
      ((∀ f ∈ fields, ¬ f.Covers i) → opcode.toNat.testBit i = fixed.toNat.testBit i)) ∧
    ∀ fault, t.encode vs = .error fault ↔ Misfit fields vs fault := by
  obtain ⟨rfl, rfl⟩ := ofFields_eq_ok_iff.1 h
  refine ⟨?_, fun opcode he i _ => ?_, fun fault => encode_eq_error_iff⟩
  · rw [exists_encode_iff, List.forall₂_iff_zip]
    exact ⟨fun ⟨hl, hv⟩ => ⟨hl.symm, fun _ hp => hv hp⟩,
      fun ⟨hl, hv⟩ => ⟨hl.symm, fun hp => hv _ hp⟩⟩
  · have hc := encode_eq_ok_iff.1 he
    refine ⟨fun p hp hi => ?_, hc.pattern i⟩
    exact ((List.forall₂_iff_zip.1 hc.values).2 hp).bit_of_covers hi

/-- two fields out of order: values that fit, and values of which both are too wide. -/
theorem bits_or_first_misfit_gapped :
    ∃ t, ofFields 0b00100001 [.ofSelector 6 .stackPair, .ofSelector 1 .register] = .ok t ∧
      t.encode [2, 5] = .ok 0b10101011 ∧
      (0b10101011 : UInt8).toNat.testBit 7 = (2 : UInt8).toNat.testBit 1 ∧
      t.encode [4, 8] = .error (.valueTooWide 4 2) := by
  have h : ofFields 0b00100001 [.ofSelector 6 .stackPair, .ofSelector 1 .register]
      = .ok ⟨0b00100001, [.ofSelector 6 .stackPair, .ofSelector 1 .register], rfl⟩ := rfl
  obtain ⟨-, hbits, -⟩ := bits_or_first_misfit h [2, 5]
  obtain ⟨-, -, hmisfit⟩ := bits_or_first_misfit h [4, 8]
  obtain ⟨hfield, -⟩ := hbits 0b10101011 rfl 7 (by decide)
  have hsplit : List.zip [Field.ofSelector 6 .stackPair, .ofSelector 1 .register] [(4 : UInt8), 8]
      = [] ++ (.ofSelector 6 .stackPair, 4) :: [(.ofSelector 1 .register, 8)] := rfl
  exact ⟨_, h, rfl, hfield (.ofSelector 6 .stackPair, 2) (by simp) (by decide),
    (hmisfit _).2 (.tooWide rfl hsplit (List.forall_mem_nil _) (by decide))⟩

end Template

end OpcodeChart
