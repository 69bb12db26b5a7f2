import Mathlib.Algebra.BigOperators.Group.List.Basic
import Mathlib.Algebra.Group.Action.Defs
import Mathlib.Data.Set.Card
import Mathlib.Order.Interval.Finset.Nat
import OpcodeChart.Member
import OpcodeChart.Proofs.Codec

/-!
# The round trip between values and opcodes

A template is a bijection between the lists of values that fit its fields and the opcodes whose
fixed bits match the pattern.  Both sides are counted: the values are choices, one for each field, and
fields that are apart cover as many bits as their widths add up to, each of which doubles the number
of opcodes.

* `mem_choices_iff`, `length_choices`, `nodup_choices`   what `choices` lists, how much, and each once;
* `Field.values f`                    the values that fit the field;
* `Template.card_covered`             the bits that the fields cover;
* `Template.ncard_decodable`          the opcodes that decode;
* `Template.encode_decode_inverse`    **the round trip, both ways, with both counts**.
-/

namespace OpcodeChart

/-! ### lists of choices -/

section

variable {α : Type}

theorem mem_choices_iff {xss : List (List α)} {ys : List α} :
    ys ∈ choices xss ↔ List.Forall₂ (fun xs y => y ∈ xs) xss ys := by
  induction xss generalizing ys with
  | nil => rw [List.forall₂_nil_left_iff, choices, List.mem_singleton]
  | cons xs rest ih =>
    cases ys with
    | nil =>
      constructor
      · intro h
        have hl := length_of_mem_choices h
        cases hl
      · intro h
        cases h
    | cons y ys => rw [cons_mem_choices_cons, List.forall₂_cons, ih]

theorem length_choices (xss : List (List α)) :
    (choices xss).length = (xss.map List.length).prod := by
  induction xss with
  | nil => rfl
  | cons xs rest ih =>
    simp only [choices, List.length_flatMap, List.length_map, ih]
    rw [List.map_const', List.sum_replicate, smul_eq_mul, List.map_cons, List.prod_cons]

theorem nodup_choices {xss : List (List α)} (h : ∀ xs ∈ xss, xs.Nodup) :
    (choices xss).Nodup := by
  induction xss with
  | nil => exact List.nodup_singleton []
  | cons xs rest ih =>
    obtain ⟨hxs, hrest⟩ := List.forall_mem_cons.1 h
    rw [choices, List.nodup_flatMap]
    refine ⟨fun x _ => (ih hrest).map fun _ _ e => (List.cons.inj e).2, ?_⟩
    -- lists with different heads differ
    refine hxs.imp fun {x y} hxy => ?_
    intro zs hx hy
    obtain ⟨as, -, rfl⟩ := List.mem_map.1 hx
    obtain ⟨bs, -, e⟩ := List.mem_map.1 hy
    exact hxy (List.cons.inj e).1.symm

end

/-! ### the values of a field -/

def Field.values (f : Field) : List UInt8 :=
  (List.range (2 ^ f.width.toNat)).map UInt8.ofNat

theorem Field.Sound.mem_values_iff {f : Field} (h : f.Sound) {v : UInt8} :
    v ∈ f.values ↔ v.toNat < 2 ^ f.width.toNat := by
  unfold values
  rw [List.mem_map]
  constructor
  · intro hx
    obtain ⟨n, hn, rfl⟩ := hx
    have hn := List.mem_range.1 hn
    have hle := h.two_pow_le
    rw [UInt8.toNat_ofNat_of_lt' (show n < 256 by omega)]
    exact hn
  · intro hv
    exact ⟨v.toNat, List.mem_range.2 hv, UInt8.ofNat_toNat⟩

theorem Field.Sound.nodup_values {f : Field} (h : f.Sound) : f.values.Nodup := by
  refine List.Nodup.map_on (fun m hm n hn e => ?_) List.nodup_range
  have hm := List.mem_range.1 hm
  have hn := List.mem_range.1 hn
  have hle := h.two_pow_le
  have e := congrArg UInt8.toNat e
  rw [UInt8.toNat_ofNat_of_lt' (show m < 256 by omega),
    UInt8.toNat_ofNat_of_lt' (show n < 256 by omega)] at e
  exact e

namespace Template

/-! ### the covered bits -/

theorem card_covered {fs : List Field} (hs : ∀ f ∈ fs, f.Sound) (ha : fs.Pairwise Field.Apart) :
    ((Finset.range 8).filter fun i => ∃ f ∈ fs, f.Covers i).card
      = (fs.map fun f => f.width.toNat).sum := by
  induction fs with
  | nil => simp
  | cons f fs ih =>
    obtain ⟨hf, hs⟩ := List.forall_mem_cons.1 hs
    obtain ⟨hfa, ha⟩ := List.pairwise_cons.1 ha
    have hsplit : ((Finset.range 8).filter fun i => ∃ g ∈ f :: fs, g.Covers i)
        = Finset.Ico f.offset.toNat (f.offset.toNat + f.width.toNat)
          ∪ (Finset.range 8).filter fun i => ∃ g ∈ fs, g.Covers i := by
      ext i
      rw [Finset.mem_union, Finset.mem_filter, Finset.mem_filter, Finset.mem_Ico,
        Finset.mem_range, List.exists_mem_cons_iff]
      have hlt : f.Covers i → i < 8 := hf.lt_of_covers
      exact ⟨fun ⟨hi, h⟩ => h.imp id fun h => ⟨hi, h⟩,
        fun h => h.elim (fun h => ⟨hlt h, .inl h⟩) fun h => ⟨h.1, .inr h.2⟩⟩
    have hdisj : Disjoint (Finset.Ico f.offset.toNat (f.offset.toNat + f.width.toNat))
        ((Finset.range 8).filter fun i => ∃ g ∈ fs, g.Covers i) := by
      rw [Finset.disjoint_left]
      intro i hi h
      obtain ⟨g, hg, hgi⟩ := (Finset.mem_filter.1 h).2
      exact hfa g hg i (Finset.mem_Ico.1 hi) hgi
    rw [hsplit, Finset.card_union_of_disjoint hdisj, Nat.card_Ico, Nat.add_sub_cancel_left,
      ih hs ha, List.map_cons, List.sum_cons]

/-! ### the opcodes that decode -/

/-- the lists of values that fit the fields. -/
def fitting (t : Template) : List (List UInt8) := choices (t.fields.map Field.values)

theorem mem_fitting_iff {t : Template} {vs : List UInt8} :
    vs ∈ t.fitting ↔ List.Forall₂ (fun f v => v.toNat < 2 ^ f.width.toNat) t.fields vs := by
  unfold fitting
  rw [mem_choices_iff, List.forall₂_map_left_iff, List.forall₂_iff_zip, List.forall₂_iff_zip]
  apply and_congr_right
  intro _
  constructor
  · intro h f v hfv
    exact (t.layout.sound f (List.of_mem_zip hfv).1).mem_values_iff.1 (h hfv)
  · intro h f v hfv
    exact (t.layout.sound f (List.of_mem_zip hfv).1).mem_values_iff.2 (h hfv)

theorem length_fitting (t : Template) :
    t.fitting.length = 2 ^ (t.fields.map fun f => f.width.toNat).sum := by
  unfold fitting
  rw [length_choices, List.map_map]
  generalize t.fields = fs
  induction fs with
  | nil => rfl
  | cons f fs ih =>
    have hl : f.values.length = 2 ^ f.width.toNat := by
      rw [Field.values, List.length_map, List.length_range]
    rw [List.map_cons, List.prod_cons, ih, List.map_cons, List.sum_cons, Nat.pow_add]
    exact congrArg (· * _) hl

theorem nodup_fitting (t : Template) : t.fitting.Nodup := by
  apply nodup_choices
  intro values hv
  obtain ⟨f, hf, rfl⟩ := List.mem_map.1 hv
  exact (t.layout.sound f hf).nodup_values

/-- encoding maps the fitting lists one to one onto the opcodes that decode. -/
theorem ncard_decodable (t : Template) :
    {opcode | ∃ vs, t.decode opcode = .ok (some vs)}.ncard
      = 2 ^ (t.fields.map fun f => f.width.toNat).sum := by
  choose! enc henc using fun vs (h : vs ∈ t.fitting) =>
    exists_encode_iff.2 (mem_fitting_iff.1 h)
  have hcarry : ∀ vs ∈ t.fitting, t.Carries (enc vs) vs :=
    fun vs h => encode_eq_ok_iff.1 (henc vs h)
  have himage : {opcode | ∃ vs, t.decode opcode = .ok (some vs)}
      = enc '' (t.fitting.toFinset : Set (List UInt8)) := by
    ext opcode
    rw [Set.mem_image, Set.mem_ofPred_eq]
    constructor
    · intro h
      obtain ⟨vs, h⟩ := h
      have hc := decode_eq_some_iff.1 h
      have hv : vs ∈ t.fitting := mem_fitting_iff.2 (hc.values.imp fun _ _ hv => hv.fits)
      have he := henc vs hv
      rw [encode_eq_ok_iff.2 hc] at he
      exact ⟨vs, by simpa using hv, (Except.ok.inj he).symm⟩
    · intro h
      obtain ⟨vs, hv, rfl⟩ := h
      exact ⟨vs, decode_eq_some_iff.2 (hcarry vs (by simpa using hv))⟩
  have hinj : Set.InjOn enc (t.fitting.toFinset : Set (List UInt8)) := by
    intro us hu vs hv e
    have h1 := hcarry us (by simpa using hu)
    have h2 := hcarry vs (by simpa using hv)
    exact h1.unique (e ▸ h2)
  rw [himage, hinj.ncard_image, Set.ncard_coe_finset,
    List.toFinset_card_of_nodup t.nodup_fitting, length_fitting]

/-- **Encoding and decoding are inverse bijections** between the values that fit the fields and the
opcodes whose fixed bits match; the two masks split the byte, the field mask having as many bits as
the fields are wide, and each of these bits doubles the number of opcodes that decode. -/
theorem encode_decode_inverse {fixed : UInt8} {fields : List Field} {t : Template}
    (h : ofFields fixed fields = .ok t) :
    (∀ vs opcode, t.encode vs = .ok opcode ↔ t.decode opcode = .ok (some vs)) ∧
    (∀ vs, (∃ opcode, t.encode vs = .ok opcode) ↔
      List.Forall₂ (fun f v => v.toNat < 2 ^ f.width.toNat) fields vs) ∧
    (∃ mask rest, t.fieldMask = .ok mask ∧ t.fixedMask = .ok rest ∧
      (∀ opcode, (∃ vs, t.decode opcode = .ok (some vs)) ↔ opcode &&& rest = fixed) ∧
      (∀ opcode, t.decode opcode = .ok none ↔ opcode &&& rest ≠ fixed) ∧
      mask &&& rest = 0 ∧ mask ||| rest = 255 ∧
      ((Finset.range 8).filter fun i => mask.toNat.testBit i = true).card
        = (fields.map fun f => f.width.toNat).sum) ∧
    {opcode | ∃ vs, t.encode vs = .ok opcode} = {opcode | ∃ vs, t.decode opcode = .ok (some vs)} ∧
    {opcode | ∃ vs, t.decode opcode = .ok (some vs)}.ncard
      = 2 ^ (fields.map fun f => f.width.toNat).sum := by
  obtain ⟨rfl, rfl⟩ := ofFields_eq_ok_iff.1 h
  have hiff : ∀ vs opcode, t.encode vs = .ok opcode ↔ t.decode opcode = .ok (some vs) :=
    fun vs opcode => encode_eq_ok_iff.trans decode_eq_some_iff.symm
  obtain ⟨mask, hm, hbits⟩ := t.exists_fieldMask
  have hr := fixedMask_eq_ok hm
  have hcard : ((Finset.range 8).filter fun i => mask.toNat.testBit i = true).card
      = (t.fields.map fun f => f.width.toNat).sum := by
    rw [← card_covered t.layout.sound t.layout.apart]
    simp only [hbits _]
  refine ⟨hiff, fun vs => exists_encode_iff, ⟨mask, ~~~mask, hm, hr,
    fun opcode => exists_decode_iff hr, fun opcode => decode_eq_none_iff hr, UInt8.and_not_self,
    UInt8.or_not_self, hcard⟩, ?_, t.ncard_decodable⟩
  ext opcode
  exact exists_congr fun vs => hiff vs opcode

/-- two fields out of order, with gaps between and below them. -/
theorem encode_decode_inverse_gapped :
    ∃ t, ofFields 0b00100001 [.ofSelector 6 .stackPair, .ofSelector 1 .register] = .ok t ∧
      t.decode 0b10101011 = .ok (some [2, 5]) ∧
      {opcode | ∃ vs, t.decode opcode = .ok (some vs)}.ncard = 32 := by
  have h : ofFields 0b00100001 [.ofSelector 6 .stackPair, .ofSelector 1 .register]
      = .ok ⟨0b00100001, [.ofSelector 6 .stackPair, .ofSelector 1 .register], rfl⟩ := rfl
  obtain ⟨hinv, -, -, -, hcount⟩ := encode_decode_inverse h
  exact ⟨_, h, (hinv [2, 5] _).1 rfl, hcount⟩

end Template

end OpcodeChart
