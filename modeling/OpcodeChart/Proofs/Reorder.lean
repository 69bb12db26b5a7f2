import OpcodeChart.Proofs.Codec

/-!
# The order of the fields

The fields of a template are listed in some order, which is the order of the values that go in and
come out.  Nothing else hangs on it: with the fields in another order, the values move along and the
opcodes stay.

* `inOrder order xs`                 the members of `xs` at the indices `order`;
* `inOrder_perm`, `zip_inOrder`      an order of all indices rearranges a list, and two lists alike;
* `Template.layout_iff_of_perm`      rearranged fields are a layout of the same fixed bits;
* `Template.Marks.of_perm`           they cover the same bits;
* `Template.carries_inOrder_iff`     an opcode carries the values in the order of the fields;
* `Template.same_in_any_order`       **the order of the fields is the order of the values, and no more**.
-/

namespace OpcodeChart

/-! ### rearranged lists -/

section
variable {α β : Type}

/-- the members of `xs` at the indices `order`. -/
def inOrder (order : List Nat) (xs : List α) : List α := order.filterMap fun i => xs[i]?

theorem inOrder_range (xs : List α) : inOrder (List.range xs.length) xs = xs := by
  unfold inOrder
  induction xs with
  | nil => rfl
  | cons x xs ih =>
    rw [List.length_cons, List.range_succ_eq_map, List.filterMap_cons_some List.getElem?_cons_zero,
      List.filterMap_map]
    exact congrArg (x :: ·) ih

variable {order : List Nat} {xs : List α} {ys : List β}

theorem inOrder_perm (h : order.Perm (List.range xs.length)) : (inOrder order xs).Perm xs := by
  have hp := h.filterMap fun i => xs[i]?
  exact hp.trans (.of_eq (inOrder_range xs))

theorem zip_inOrder (h : xs.length = ys.length) :
    (inOrder order xs).zip (inOrder order ys) = inOrder order (xs.zip ys) := by
  unfold inOrder
  induction order with
  | nil => rfl
  | cons i order ih =>
    by_cases hi : i < xs.length
    · have hi' : i < ys.length := h ▸ hi
      have hz : i < (xs.zip ys).length := by
        rw [List.length_zip]
        omega
      rw [List.filterMap_cons_some (List.getElem?_eq_getElem hi),
        List.filterMap_cons_some (List.getElem?_eq_getElem hi'),
        List.filterMap_cons_some (List.getElem?_eq_getElem hz), List.zip_cons_cons, ih,
        List.getElem_zip]
    · have hge := Nat.le_of_not_lt hi
      have hz : (xs.zip ys).length ≤ i := by
        rw [List.length_zip]
        omega
      rw [List.filterMap_cons_none (List.getElem?_eq_none hge),
        List.filterMap_cons_none (List.getElem?_eq_none (h ▸ hge)),
        List.filterMap_cons_none (List.getElem?_eq_none hz), ih]

end

theorem Field.Apart.symm {f g : Field} (h : f.Apart g) : g.Apart f := fun i hg hf => h i hf hg

namespace Template

/-! ### rearranged fields -/

section
variable {fs gs : List Field} (hp : gs.Perm fs)
include hp

theorem layout_iff_of_perm {fixed : UInt8} : Layout fixed gs ↔ Layout fixed fs := by
  have hs : (∀ f ∈ gs, f.Sound) ↔ ∀ f ∈ fs, f.Sound :=
    forall_congr' fun f => imp_congr_left hp.mem_iff
  have ha : gs.Pairwise Field.Apart ↔ fs.Pairwise Field.Apart :=
    hp.pairwise_iff fun h => h.symm
  have hc : (∀ f ∈ gs, ∀ i, f.Covers i → fixed.toNat.testBit i = false) ↔
      ∀ f ∈ fs, ∀ i, f.Covers i → fixed.toNat.testBit i = false :=
    forall_congr' fun f => imp_congr_left hp.mem_iff
  exact ⟨fun h => ⟨hs.1 h.sound, ha.1 h.apart, hc.1 h.clear⟩,
    fun h => ⟨hs.2 h.sound, ha.2 h.apart, hc.2 h.clear⟩⟩

theorem Marks.of_perm {covered : UInt8} (h : Marks covered fs) : Marks covered gs := by
  intro i
  rw [h i]
  simp only [hp.mem_iff]

end

/-! ### rearranged templates -/

section
variable {t u : Template} (hp : u.fields.Perm t.fields)
include hp

theorem fixes_iff_of_perm {i : Nat} : u.Fixes i ↔ t.Fixes i :=
  forall_congr' fun _ => imp_congr_left hp.mem_iff

theorem exists_masks_of_perm :
    ∃ m k, t.fieldMask = .ok m ∧ u.fieldMask = .ok m ∧ t.fixedMask = .ok k ∧
      u.fixedMask = .ok k := by
  obtain ⟨m, hm, h⟩ := t.exists_fieldMask
  obtain ⟨m', hm', h'⟩ := u.exists_fieldMask
  obtain rfl : m' = m := h'.unique (h.of_perm hp)
  exact ⟨m', ~~~m', hm, hm', fixedMask_eq_ok hm, fixedMask_eq_ok hm'⟩

end

/-- carrying values is a matter of each field with its value, and not of their order. -/
theorem carries_iff_zip {t : Template} {opcode : UInt8} {vs : List UInt8}
    (hl : vs.length = t.fields.length) :
    t.Carries opcode vs ↔ (∀ p ∈ t.fields.zip vs, p.1.Holds opcode p.2) ∧
      ∀ i, t.Fixes i → opcode.toNat.testBit i = t.fixed.toNat.testBit i := by
  refine ⟨fun h => ⟨fun p hp => ?_, h.pattern⟩, fun ⟨hv, hf⟩ => ⟨?_, hf⟩⟩
  · exact (List.forall₂_iff_zip.1 h.values).2 hp
  · exact List.forall₂_iff_zip.2 ⟨hl.symm, fun hp => hv _ hp⟩

section
variable {t u : Template} {order : List Nat} (ho : order.Perm (List.range t.fields.length))
  (hfixed : u.fixed = t.fixed) (hfields : u.fields = inOrder order t.fields)
include ho hfixed hfields

/-- **An opcode carries the values in the order of the fields.** -/
theorem carries_inOrder_iff {opcode : UInt8} {vs : List UInt8} (hl : vs.length = t.fields.length) :
    u.Carries opcode (inOrder order vs) ↔ t.Carries opcode vs := by
  have hp : u.fields.Perm t.fields := hfields ▸ inOrder_perm ho
  have hvs : (inOrder order vs).Perm vs := inOrder_perm (hl ▸ ho)
  have hlu : (inOrder order vs).length = u.fields.length := by
    rw [hvs.length_eq, hl, hp.length_eq]
  have hz : (u.fields.zip (inOrder order vs)).Perm (t.fields.zip vs) := by
    rw [hfields, zip_inOrder hl.symm]
    refine inOrder_perm ?_
    rwa [List.length_zip, hl, Nat.min_self]
  rw [carries_iff_zip hlu, carries_iff_zip hl, hfixed]
  simp only [hz.mem_iff, fixes_iff_of_perm hp]

theorem encode_inOrder {vs : List UInt8} (hl : vs.length = t.fields.length) :
    (u.encode (inOrder order vs)).toOption = (t.encode vs).toOption := by
  have hiff (x : Except Fault UInt8) (a : UInt8) : x.toOption = some a ↔ x = .ok a := by
    cases x <;> simp [Except.toOption]
  refine Option.ext fun opcode => ?_
  rw [hiff, hiff, encode_eq_ok_iff, encode_eq_ok_iff]
  exact carries_inOrder_iff ho hfixed hfields hl

theorem decode_inOrder (opcode : UInt8) :
    ∃ r, t.decode opcode = .ok r ∧ u.decode opcode = .ok (r.map (inOrder order)) := by
  have hp : u.fields.Perm t.fields := hfields ▸ inOrder_perm ho
  obtain ⟨-, k, -, -, hk, hku⟩ := exists_masks_of_perm hp
  by_cases hm : opcode &&& k = t.fixed
  · obtain ⟨vs, hd⟩ := (exists_decode_iff hk).2 hm
    have hc := decode_eq_some_iff.1 hd
    have hl := hc.values.length_eq.symm
    exact ⟨some vs, hd, decode_eq_some_iff.2 ((carries_inOrder_iff ho hfixed hfields hl).2 hc)⟩
  · exact ⟨none, (decode_eq_none_iff hk).2 hm, (decode_eq_none_iff hku).2 (hfixed ▸ hm)⟩

end

/-- **The order of the fields is the order of the values, and no more.**  Fields in another order make
a template exactly if they did before.  It has the same masks; values in the new order encode to the
opcode that they had, or to none as before; and each opcode decodes to the values that it had, in the
new order, or to none as before. -/
theorem same_in_any_order (fixed : UInt8) (fields : List Field) (order : List Nat)
    (ho : order.Perm (List.range fields.length)) :
    ((∃ u, ofFields fixed (inOrder order fields) = .ok u) ↔ ∃ t, ofFields fixed fields = .ok t) ∧
    ∀ t u, ofFields fixed fields = .ok t → ofFields fixed (inOrder order fields) = .ok u →
      (∃ m k, t.fieldMask = .ok m ∧ u.fieldMask = .ok m ∧ t.fixedMask = .ok k ∧
        u.fixedMask = .ok k) ∧
      (∀ vs, vs.length = fields.length →
        (u.encode (inOrder order vs)).toOption = (t.encode vs).toOption) ∧
      ∀ opcode, ∃ r, t.decode opcode = .ok r ∧ u.decode opcode = .ok (r.map (inOrder order)) := by
  refine ⟨?_, fun t u ht hu => ?_⟩
  · rw [exists_ofFields_iff, exists_ofFields_iff]
    exact layout_iff_of_perm (inOrder_perm ho)
  · obtain ⟨rfl, rfl⟩ := ofFields_eq_ok_iff.1 ht
    obtain ⟨hfixed, hfields⟩ := ofFields_eq_ok_iff.1 hu
    exact ⟨exists_masks_of_perm (hfields ▸ inOrder_perm ho),
      fun vs hl => encode_inOrder ho hfixed hfields hl, decode_inOrder ho hfixed hfields⟩

/-- three fields, each moved to another place: their values move along, and values that do not fit are
still rejected. -/
theorem same_in_any_order_rotated :
    ∃ t u, ofFields 0 [.ofSelector 6 .stackPair, .ofSelector 3 .register,
        .ofSelector 0 .register] = .ok t ∧
      ofFields 0 [.ofSelector 0 .register, .ofSelector 6 .stackPair, .ofSelector 3 .register] =
        .ok u ∧
      t.encode [2, 5, 7] = .ok 0b10101111 ∧ (u.encode [7, 2, 5]).toOption = some 0b10101111 ∧
      t.encode [4, 8, 7] = .error (.valueTooWide 4 2) ∧ (u.encode [7, 4, 8]).toOption = none ∧
      t.decode 0b01110001 = .ok (some [1, 6, 1]) ∧ u.decode 0b01110001 = .ok (some [1, 1, 6]) := by
  obtain ⟨hiff, hsame⟩ := same_in_any_order 0
    [.ofSelector 6 .stackPair, .ofSelector 3 .register, .ofSelector 0 .register] [2, 0, 1]
    (by decide)
  have ht : ofFields 0 [.ofSelector 6 .stackPair, .ofSelector 3 .register, .ofSelector 0 .register]
      = .ok ⟨0, [.ofSelector 6 .stackPair, .ofSelector 3 .register, .ofSelector 0 .register],
        rfl⟩ := rfl
  obtain ⟨u, hu⟩ := hiff.2 ⟨_, ht⟩
  obtain ⟨-, hencode, hdecode⟩ := hsame _ u ht hu
  obtain ⟨r, hr, hru⟩ := hdecode 0b01110001
  cases hr
  exact ⟨_, u, ht, hu, rfl, hencode [2, 5, 7] rfl, rfl, hencode [4, 8, 7] rfl, rfl, hru⟩

end Template

end OpcodeChart
