import Mathlib.Data.List.Nodup
import Mathlib.Data.List.TFAE
import OpcodeChart.Proofs.Selection

/-!
# The members and the operands of a family

Every family has its template and lists one member for each choice of operands; listing the members
and recovering the operands of an opcode are two views of one relation.

Four accounts say which selections are the operands of a family: the list of choices, the recovery
from an opcode, the codes of the fields, and the sorts that have an operation.  The first three
agree.  The last takes more, for some selections of the right sort have no code.

* `Family.shape f`                   the template of the family, which always exists;
* `Family.mem_operandSpace_iff`      the choices of operands are the encodable selections;
* `Family.exists_operation_iff`      selections have an operation exactly if their sorts are those of
                                     the fields;
* `Family.members f`                 what `Family.entries` lists, which never fails;
* `Family.Lists f xs e`              `e` is the member with the operands `xs`;
* `Family.mem_members_iff`           **the members are the opcodes that select operands, with what
                                     these operands do**;
* `Family.nodup_opcodes_members`     members differ in their opcodes;
* `Family.eq_of_owns`                **no opcode belongs to two families**;
* `Selector.code?_isSome_iff`        what has no code: the register `F`, and `AF` for a load;
* `Family.not_mem_operandSpace_iff`  which selections of the right sorts are no operands;
* `Family.exists_recover?_iff`       operands are what some opcode selects;
* `Family.exists_listed`             operands, their opcode and their member stand at one index;
* `Family.operand_accounts_agree`    **where the four accounts agree, and where they differ**.

Three of the families match common opcodes bit for bit: with `110` in place of a register `01dddsss`
reads as `01ddd110` or as `01110sss`.  Only `110` being no register keeps them apart, so the
families are compared by `Template.Parted` and not by their patterns alone.
-/

namespace OpcodeChart

namespace Selector

theorem mem_selections_iff {s : Selector} {x : Selection} :
    x ∈ s.selections ↔ (s.code? x).isSome := by
  cases s <;> cases x <;> simp [selections, code?, Coding.code?_isSome_iff]

theorem nodup_selections (s : Selector) : s.selections.Nodup := by cases s <;> decide

/-- is the selection of the sort, register or pair, that the selector has codes for? -/
def suits : Selector → Selection → Bool
  | .register, .register _ | .loadPair, .pair _ | .stackPair, .pair _ => true
  | .register, .pair _ | .loadPair, .register _ | .stackPair, .register _ => false

theorem suits_of_code? {s : Selector} {x : Selection} (h : (s.code? x).isSome) :
    s.suits x = true := by
  cases s <;> cases x <;> simp_all [suits, code?]

theorem exists_register {x : Selection} (h : register.suits x = true) : ∃ r, x = .register r := by
  cases x with
  | register r => exact ⟨r, rfl⟩
  | pair p => cases h

theorem exists_pair {s : Selector} (hs : s ≠ register) {x : Selection} (h : s.suits x = true) :
    ∃ p, x = .pair p := by
  cases x with
  | pair p => exact ⟨p, rfl⟩
  | register r => cases s with
    | register => exact absurd rfl hs
    | loadPair => cases h
    | stackPair => cases h

end Selector

namespace Family

variable {f g : Family} {xs ys : List Selection} {opcode : UInt8} {e : Entry}

/-! ### the template -/

theorem check_eq_ok (f : Family) : Template.check f.fixed f.fields = .ok () := by
  cases f <;> rfl

def shape (f : Family) : Template := ⟨f.fixed, f.fields, f.check_eq_ok⟩

theorem template_eq (f : Family) : f.template = .ok f.shape :=
  Template.ofFields_eq_ok_iff.2 ⟨rfl, rfl⟩

theorem recover?_eq (f : Family) (opcode : UInt8) : f.recover? opcode = f.shape.select? opcode := by
  unfold recover?
  rw [template_eq]

/-! ### the operands -/

theorem mem_operandSpace_iff : xs ∈ f.operandSpace ↔ Template.Encodable f.fields xs := by
  unfold operandSpace Template.Encodable
  rw [mem_choices_iff, List.forall₂_map_left_iff]
  simp only [Selector.mem_selections_iff]

theorem nodup_operandSpace (f : Family) : f.operandSpace.Nodup := by
  apply nodup_choices
  intro ss hss
  obtain ⟨field, -, rfl⟩ := List.mem_map.1 hss
  exact field.selector.nodup_selections

theorem operandSpace_ne_nil (f : Family) : f.operandSpace ≠ [] := by
  cases f <;> decide

theorem mem_operandSpace_of_recover? (h : f.recover? opcode = some xs) : xs ∈ f.operandSpace := by
  rw [recover?_eq] at h
  exact mem_operandSpace_iff.2 (Template.encodable_of_select? h)

/-- one selection per field, each of the sort that the field has codes for. -/
def Suited (f : Family) (xs : List Selection) : Prop :=
  List.Forall₂ (fun field x => field.selector.suits x = true) f.fields xs

theorem suited_of_operation? {o : Operation} (h : f.operation? xs = some o) : f.Suited xs := by
  unfold operation? at h
  unfold Suited
  split at h
  case h_8 => cases h
  case h_1 => exact .cons rfl (.cons rfl .nil)
  all_goals exact .cons rfl .nil

/-- **Selections have an operation exactly if their sorts are those of the fields.** -/
theorem exists_operation_iff : (∃ o, f.operation xs = .ok o) ↔ f.Suited xs := by
  simp only [operation_eq_ok_iff]
  refine ⟨fun ⟨o, ho⟩ => suited_of_operation? ho, fun h => ?_⟩
  cases f with
  | registerToRegister =>
    obtain _ | ⟨hd, _ | ⟨hs, ⟨⟩⟩⟩ := h
    obtain ⟨d, rfl⟩ := Selector.exists_register hd
    obtain ⟨s, rfl⟩ := Selector.exists_register hs
    exact ⟨_, rfl⟩
  | immediateToRegister | pointerToRegister | registerToPointer =>
    obtain _ | ⟨hr, ⟨⟩⟩ := h
    obtain ⟨r, rfl⟩ := Selector.exists_register hr
    exact ⟨_, rfl⟩
  | immediateToPair | push | pop =>
    obtain _ | ⟨hp, ⟨⟩⟩ := h
    obtain ⟨p, rfl⟩ := Selector.exists_pair (by decide) hp
    exact ⟨_, rfl⟩

theorem suited_of_mem_operandSpace (h : xs ∈ f.operandSpace) : f.Suited xs :=
  (mem_operandSpace_iff.1 h).imp fun _ _ hx => Selector.suits_of_code? hx

theorem exists_operation (h : xs ∈ f.operandSpace) : ∃ o, f.operation xs = .ok o :=
  exists_operation_iff.2 (suited_of_mem_operandSpace h)

/-! ### the members -/

/-- `e` is the member with the operands `xs`. -/
def Lists (f : Family) (xs : List Selection) (e : Entry) : Prop :=
  f.recover? e.opcode = some xs ∧ f.operation xs = .ok e.operation

theorem lists_iff (hx : xs ∈ f.operandSpace) : f.entry f.shape xs = .ok e ↔ f.Lists xs e := by
  have hl := (mem_operandSpace_iff.1 hx).length_eq.symm
  unfold entry Lists
  rw [bind_eq_ok_iff, recover?_eq, Template.select?_eq_some_iff]
  constructor
  · intro h
    obtain ⟨opcode, ho, h⟩ := h
    obtain ⟨operation, hop, h⟩ := bind_eq_ok_iff.1 h
    cases h
    exact ⟨⟨hl, ho⟩, hop⟩
  · intro h
    obtain ⟨⟨-, ho⟩, hop⟩ := h
    exact ⟨e.opcode, ho, bind_eq_ok_iff.2 ⟨e.operation, hop, rfl⟩⟩

theorem exists_lists (hx : xs ∈ f.operandSpace) : ∃ e, f.Lists xs e := by
  have henc := mem_operandSpace_iff.1 hx
  obtain ⟨opcode, ho⟩ := Template.exists_opcode (t := f.shape) henc
  obtain ⟨operation, hop⟩ := exists_operation hx
  refine ⟨⟨opcode, operation⟩, ?_, hop⟩
  rw [recover?_eq]
  exact Template.select?_eq_some_iff.2 ⟨henc.length_eq.symm, ho⟩

theorem exists_entries (f : Family) :
    ∃ es, f.entries = .ok es ∧ List.Forall₂ f.Lists f.operandSpace es := by
  have hrun : ∀ xss, (∀ xs ∈ xss, xs ∈ f.operandSpace) →
      ∃ es, xss.mapM (f.entry f.shape) = .ok es ∧ List.Forall₂ f.Lists xss es := by
    intro xss hxss
    induction xss with
    | nil => exact ⟨[], rfl, .nil⟩
    | cons xs xss ih =>
      obtain ⟨hx, hrest⟩ := List.forall_mem_cons.1 hxss
      obtain ⟨e, he⟩ := exists_lists hx
      obtain ⟨es, hes, hl⟩ := ih hrest
      refine ⟨e :: es, ?_, .cons he hl⟩
      rw [List.mapM_cons, (lists_iff hx).2 he, hes]
      rfl
  obtain ⟨es, hes, hl⟩ := hrun f.operandSpace fun _ h => h
  refine ⟨es, ?_, hl⟩
  unfold entries
  rw [template_eq]
  exact hes

/-- what the family lists. -/
def members (f : Family) : List Entry :=
  match f.entries with
  | .ok es => es
  | .error _ => []

theorem entries_eq (f : Family) : f.entries = .ok f.members := by
  obtain ⟨es, hes, -⟩ := f.exists_entries
  unfold members
  rw [hes]

theorem forall₂_members (f : Family) : List.Forall₂ f.Lists f.operandSpace f.members := by
  obtain ⟨es, hes, hl⟩ := f.exists_entries
  rw [entries_eq] at hes
  cases hes
  exact hl

theorem length_members (f : Family) : f.members.length = f.operandSpace.length :=
  f.forall₂_members.length_eq.symm

/-- operands and opcodes determine each other. -/
theorem biUnique_recover? (f : Family) :
    Relator.BiUnique fun xs opcode => f.recover? opcode = some xs := by
  constructor
  · intro xs ys opcode hx hy
    exact Option.some.inj (hx.symm.trans hy)
  · intro xs opcode opcode' h h'
    rw [recover?_eq, Template.select?_eq_some_iff] at h h'
    exact Except.ok.inj (h.2.symm.trans h'.2)

theorem biUnique_lists (f : Family) : Relator.BiUnique f.Lists := by
  constructor
  · intro xs ys e hx hy
    exact f.biUnique_recover?.1 hx.1 hy.1
  · intro xs e e' h h'
    have ho : e.opcode = e'.opcode := f.biUnique_recover?.2 h.1 h'.1
    have hop : e.operation = e'.operation := Except.ok.inj (h.2.symm.trans h'.2)
    cases e
    cases e'
    cases ho
    cases hop
    rfl

/-- **The members are the opcodes that select operands, with what these operands do.** -/
theorem mem_members_iff : e ∈ f.members ↔ ∃ xs, f.Lists xs e := by
  constructor
  · intro he
    obtain ⟨xs, -, h⟩ := exists_mem_of_forall₂ f.forall₂_members he
    exact ⟨xs, h⟩
  · intro h
    obtain ⟨xs, h⟩ := h
    have hx := mem_operandSpace_of_recover? h.1
    exact (List.rel_mem f.biUnique_lists h f.forall₂_members).1 hx

theorem nodup_opcodes_members (f : Family) : (f.members.map Entry.opcode).Nodup := by
  have h : List.Forall₂ (fun xs opcode => f.recover? opcode = some xs) f.operandSpace
      (f.members.map Entry.opcode) :=
    List.forall₂_map_right_iff.2 (f.forall₂_members.imp fun _ _ h => h.1)
  exact (List.rel_nodup f.biUnique_recover? h).1 f.nodup_operandSpace

/-! ### the opcodes of a family -/

/-- does the opcode belong to the family? -/
def Owns (f : Family) (opcode : UInt8) : Prop := (f.recover? opcode).isSome

instance (f : Family) (opcode : UInt8) : Decidable (f.Owns opcode) :=
  inferInstanceAs (Decidable (_ = true))

theorem mem_opcodes_iff : opcode ∈ f.members.map Entry.opcode ↔ f.Owns opcode := by
  rw [List.mem_map]
  constructor
  · intro hx
    obtain ⟨e, he, rfl⟩ := hx
    obtain ⟨xs, h⟩ := mem_members_iff.1 he
    exact Option.isSome_iff_exists.2 ⟨xs, h.1⟩
  · intro h
    obtain ⟨xs, hx⟩ := Option.isSome_iff_exists.1 h
    obtain ⟨o, ho⟩ := exists_operation (mem_operandSpace_of_recover? hx)
    exact ⟨⟨opcode, o⟩, mem_members_iff.2 ⟨xs, hx, ho⟩, rfl⟩

theorem exists_members_eq_cons (f : Family) : ∃ e es, f.members = e :: es := by
  apply List.exists_cons_of_ne_nil
  intro h
  have hl := f.length_members
  rw [h] at hl
  exact f.operandSpace_ne_nil (List.length_eq_zero_iff.1 hl.symm)

/-- families are told apart by a fixed bit, or by `110` in place of a register. -/
theorem parted (h : f ≠ g) : f.shape.Parted g.shape ∨ g.shape.Parted f.shape := by
  revert h
  cases f <;> cases g <;> decide

/-- **No opcode belongs to two families.** -/
theorem eq_of_owns (hf : f.Owns opcode) (hg : g.Owns opcode) : f = g := by
  obtain ⟨xs, hx⟩ := Option.isSome_iff_exists.1 hf
  obtain ⟨ys, hy⟩ := Option.isSome_iff_exists.1 hg
  rw [recover?_eq] at hx hy
  by_contra hne
  rcases parted hne with h | h
  · exact Template.not_parted hx hy h
  · exact Template.not_parted hy hx h

end Family

/-! ### the accounts of operands -/

theorem Selector.code?_isSome_iff {s : Selector} {x : Selection} (h : s.suits x = true) :
    (s.code? x).isSome ↔ x ≠ .register .F ∧ ¬ (s = .loadPair ∧ x = .pair .AF) := by
  cases s with
  | register =>
    obtain ⟨r, rfl⟩ := exists_register h
    cases r <;> decide
  | loadPair | stackPair =>
    obtain ⟨p, rfl⟩ := exists_pair (by decide) h
    cases p <;> decide

/-- selections of the right sorts all have codes, unless one of the two exceptions is among them. -/
theorem Template.encodable_iff {fs : List Field} {xs : List Selection}
    (h : List.Forall₂ (fun field x => field.selector.suits x = true) fs xs) :
    Encodable fs xs ↔ .register .F ∉ xs ∧
      ∀ p ∈ fs.zip xs, ¬ (p.1.selector = .loadPair ∧ p.2 = .pair .AF) := by
  unfold Encodable
  induction h with
  | nil => exact ⟨fun _ => ⟨List.not_mem_nil, List.forall_mem_nil _⟩, fun _ => .nil⟩
  | cons hx _ ih =>
    rw [List.forall₂_cons, Selector.code?_isSome_iff hx, ih, List.mem_cons, not_or,
      List.zip_cons_cons, List.forall_mem_cons, ne_comm]
    exact and_and_and_comm

namespace Family

variable {f : Family} {xs : List Selection}

theorem loadPair_mem_fields_iff :
    (∃ field ∈ f.fields, field.selector = .loadPair) ↔ f = .immediateToPair := by
  cases f <;> decide

/-- **The selections of the right sorts that are no operands**: those with the register `F`, and the
pair `AF` of a load. -/
theorem not_mem_operandSpace_iff (h : f.Suited xs) :
    xs ∉ f.operandSpace ↔ .register .F ∈ xs ∨ f = .immediateToPair ∧ xs = [.pair .AF] := by
  have hload : (∃ p ∈ f.fields.zip xs, p.1.selector = .loadPair ∧ p.2 = .pair .AF) ↔
      f = .immediateToPair ∧ xs = [.pair .AF] := by
    constructor
    · rintro ⟨⟨field, x⟩, hp, hs, rfl⟩
      obtain rfl := loadPair_mem_fields_iff.1 ⟨field, (List.of_mem_zip hp).1, hs⟩
      obtain _ | ⟨-, ⟨⟩⟩ := h
      obtain ⟨-, rfl⟩ := Prod.mk.inj (List.mem_singleton.1 hp)
      exact ⟨rfl, rfl⟩
    · rintro ⟨rfl, rfl⟩
      exact ⟨_, List.mem_cons_self, rfl, rfl⟩
  rw [mem_operandSpace_iff, Template.encodable_iff h, ← hload, not_and_or, not_not]
  simp only [not_forall, not_not, exists_prop]

theorem exists_recover?_iff : (∃ opcode, f.recover? opcode = some xs) ↔ xs ∈ f.operandSpace := by
  constructor
  · rintro ⟨opcode, h⟩
    exact mem_operandSpace_of_recover? h
  · intro h
    obtain ⟨e, he⟩ := exists_lists h
    exact ⟨e.opcode, he.1⟩

/-- operands have one opcode and one operation, which are listed at the index of the operands. -/
theorem exists_listed (h : xs ∈ f.operandSpace) :
    ∃ opcode o es, (∀ other, f.recover? other = some xs ↔ other = opcode) ∧
      f.operation xs = .ok o ∧ f.entries = .ok es ∧
      ∀ i : Nat, f.operandSpace[i]? = some xs ↔ es[i]? = some ⟨opcode, o⟩ := by
  obtain ⟨⟨opcode, o⟩, hl⟩ := exists_lists h
  refine ⟨opcode, o, f.members, fun other => ?_, hl.2, f.entries_eq, fun i => ?_⟩
  · exact ⟨fun ho => f.biUnique_recover?.2 ho hl.1, fun e => e ▸ hl.1⟩
  · exact getElem?_iff_of_forall₂ f.biUnique_lists f.forall₂_members hl i

/-- **Where the four accounts of operands agree, and where they differ.**  The choices of operands
are the selections that some opcode recovers, and those with a code for each field of the template;
each is listed once, has one opcode and one operation, and its member stands at its index.
Selections have an operation exactly if their sorts are those of the fields; what then is no choice
of operands has the register `F`, or is the pair `AF` of a load. -/
theorem operand_accounts_agree (f : Family) (xs : List Selection) :
    [xs ∈ f.operandSpace,
      ∃ opcode, f.recover? opcode = some xs,
      ∃ t, f.template = .ok t ∧ Template.Encodable t.fields xs].TFAE ∧
    (xs ∈ f.operandSpace →
      f.operandSpace.count xs = 1 ∧
      ∃ opcode o es, (∀ other, f.recover? other = some xs ↔ other = opcode) ∧
        f.operation xs = .ok o ∧ f.entries = .ok es ∧
        ∀ i : Nat, f.operandSpace[i]? = some xs ↔ es[i]? = some ⟨opcode, o⟩) ∧
    ((∃ o, f.operation xs = .ok o) ↔ f.Suited xs) ∧
    ((∃ o, f.operation xs = .ok o) ∧ xs ∉ f.operandSpace ↔
      f.Suited xs ∧ (.register .F ∈ xs ∨ f = .immediateToPair ∧ xs = [.pair .AF])) := by
  have htemplate : (∃ t, f.template = .ok t ∧ Template.Encodable t.fields xs) ↔
      xs ∈ f.operandSpace := by
    rw [template_eq, mem_operandSpace_iff]
    exact ⟨fun ⟨_, ht, h⟩ => by cases ht; exact h, fun h => ⟨_, rfl, h⟩⟩
  refine ⟨?_, fun h => ⟨?_, exists_listed h⟩, exists_operation_iff, ?_⟩
  · tfae_have 1 ↔ 2 := exists_recover?_iff.symm
    tfae_have 1 ↔ 3 := htemplate.symm
    tfae_finish
  · exact List.count_eq_one_of_mem f.nodup_operandSpace h
  · rw [exists_operation_iff]
    exact and_congr_right not_mem_operandSpace_iff

/-- the last member of the grid of registers, and a pair that a load has no code for. -/
theorem operand_accounts_agree_last :
    [.register .A, .register .A] ∈ registerToRegister.operandSpace ∧
    (∃ o es, registerToRegister.operation [.register .A, .register .A] = .ok o ∧
      registerToRegister.entries = .ok es ∧ es[48]? = some ⟨0x7F, o⟩) ∧
    (∃ o, immediateToPair.operation [.pair .AF] = .ok o) ∧
      [.pair .AF] ∉ immediateToPair.operandSpace := by
  have hmem : [.register .A, .register .A] ∈ registerToRegister.operandSpace := by decide
  obtain ⟨-, hlisted, -⟩ := operand_accounts_agree .registerToRegister [.register .A, .register .A]
  obtain ⟨-, opcode, o, es, hrec, ho, hes, hindex⟩ := hlisted hmem
  obtain rfl : 0x7F = opcode := (hrec 0x7F).1 rfl
  obtain ⟨-, -, -, hhole⟩ := operand_accounts_agree .immediateToPair [.pair .AF]
  exact ⟨hmem, ⟨o, es, ho, hes, (hindex 48).1 rfl⟩,
    hhole.2 ⟨.cons rfl .nil, .inr ⟨rfl, rfl⟩⟩⟩

end Family

end OpcodeChart
