import OpcodeChart.Proofs.Json
import OpcodeChart.Proofs.Merge

/-!
# What a mnemonic tells

A mnemonic is a word and its arguments.  No two operands are written alike, a step of `HL` included,
and neither a blank nor a comma stands in one; so the first blank ends the word, the first comma the
destination, and the text tells all that was written.  What is not written is lost: the cycles, the
stack of a push or a pop, and of a load whatever its kind does beside a step of `HL`.

The mnemonic of an operation names the only member of a family that it can be; kind and cycles, which a
mnemonic leaves out, decide whether it is.

* `Operand.Written`                 an operand as an operation writes it;
* `Mnemonic`, `Operation.shown`     the parts of a mnemonic, and those that an operation writes;
* `Mnemonic.text_injective`         **a text has the parts of one mnemonic**;
* `Operation.Alike o q`             what operations of one mnemonic have in common;
* `Operation.mnemonic_eq_iff`       **operations of one mnemonic are alike, and no others**;
* `Mnemonic.member?`                the family and the operands of which a mnemonic tells;
* `Plan.mnemonic_ne`                **no mnemonic stands twice in a chart**;
* `Operation.mnemonics_tell_apart`  both of these;
* `Operation.member?`               the member that does what the operation does;
* `Operation.member?_eq_some_iff`   **the operations that are recognised are those of members**;
* `Operation.member?_standardLiterals`   no standard literal is recognised;
* `Family.operations_tell_members`  **no two members do the same, and none does what a standard literal
                                    does**.
-/

namespace OpcodeChart

namespace Operand

def all : List Operand :=
  Register.all.map .register ++ Pair.all.map .pair ++ Pair.all.map .pointer ++
    Register.all.map .highPagePointer ++
    [.stackPointer, .immediate8, .immediate16, .highPageAddress, .address16, .stack]

theorem mem_all (x : Operand) : x ∈ all := by
  cases x with
  | register r | highPagePointer r => simp [all, r.mem_all]
  | pair p | pointer p => simp [all, p.mem_all]
  | stackPointer | immediate8 | immediate16 | highPageAddress | address16 | stack => decide

/-- an operand as an operation writes it. -/
inductive Written
  | plain (x : Operand)
  /-- `(HL)`, where `HL` goes up by one. -/
  | increment
  /-- `(HL)`, where `HL` goes down by one. -/
  | decrement
  deriving DecidableEq

namespace Written

def text : Written → String
  | .plain x => x.text
  | .increment => "(HL+)"
  | .decrement => "(HL-)"

def all : List Written := Operand.all.map .plain ++ [.increment, .decrement]

theorem mem_all (w : Written) : w ∈ all := by
  cases w with
  | plain x => exact List.mem_append_left _ (List.mem_map_of_mem x.mem_all)
  | increment | decrement => decide

theorem text_injective {v w : Written} (h : v.text = w.text) : v = w := by
  have hnodup : (all.map text).Nodup := by decide
  exact List.inj_on_of_nodup_map hnodup v.mem_all w.mem_all h

/-- no operand has a comma. -/
theorem bne_comma_of_mem_text (w : Written) : ∀ c ∈ w.text.toList, (c != ',') = true := by
  have hall : ∀ w ∈ all, w.text.toList.all (· != ',') = true := by decide
  exact List.all_eq_true.1 (hall w w.mem_all)

end Written

theorem text_injective {x y : Operand} (h : x.text = y.text) : x = y :=
  Written.plain.inj (Written.text_injective h)

end Operand

open Operand (Written)

/-! ### the parts of a mnemonic -/

/-- what a mnemonic shows. -/
inductive Mnemonic
  | push (source : Operand)
  | pop (destination : Operand)
  | load (destination source : Written)
  deriving DecidableEq

namespace Mnemonic

/-- the word before the arguments. -/
inductive Verb
  | push
  | pop
  | load
  /-- a load that reaches the high page at an offset behind the opcode. -/
  | loadHigh
  deriving DecidableEq

namespace Verb

def text : Verb → String
  | .push => "PUSH"
  | .pop => "POP"
  | .load => "LD"
  | .loadHigh => "LDH"

theorem text_injective {v w : Verb} (h : v.text = w.text) : v = w := by
  revert h
  cases v <;> cases w <;> decide

/-- no word has a blank. -/
theorem bne_blank_of_mem_text (v : Verb) : ∀ c ∈ v.text.toList, (c != ' ') = true := by
  have hall : v.text.toList.all (· != ' ') = true := by cases v <;> decide
  exact List.all_eq_true.1 hall

end Verb

def verb : Mnemonic → Verb
  | .push _ => .push
  | .pop _ => .pop
  | .load destination source =>
    if destination = .plain .highPageAddress ∨ source = .plain .highPageAddress then .loadHigh
    else .load

def arguments : Mnemonic → String
  | .push source => source.text
  | .pop destination => destination.text
  | .load destination source => destination.text ++ ", " ++ source.text

def text (m : Mnemonic) : String := m.verb.text ++ " " ++ m.arguments

/-- the first blank ends the word. -/
theorem verb_and_arguments_of_text {m n : Mnemonic} (h : m.text = n.text) :
    m.verb = n.verb ∧ m.arguments = n.arguments := by
  have hsplit (m : Mnemonic) :
      m.text.toList = m.verb.text.toList ++ ' ' :: m.arguments.toList := by
    rw [text, String.toList_append, String.toList_append, List.append_assoc]
    rfl
  have hlists := congrArg String.toList h
  rw [hsplit, hsplit] at hlists
  obtain ⟨hv, ha⟩ := Text.run_append_inj m.verb.bne_blank_of_mem_text n.verb.bne_blank_of_mem_text
    (Text.stops_cons rfl _) (Text.stops_cons rfl _) hlists
  obtain ⟨-, ha⟩ := List.cons.inj ha
  exact ⟨Verb.text_injective (String.toList_inj.1 hv), String.toList_inj.1 ha⟩

/-- the first comma ends the destination. -/
theorem load_arguments_injective {d s d' s' : Written}
    (h : (load d s).arguments = (load d' s').arguments) : d = d' ∧ s = s' := by
  have hsplit (d s : Written) :
      (load d s).arguments.toList = d.text.toList ++ ',' :: ' ' :: s.text.toList := by
    show (d.text ++ ", " ++ s.text).toList = _
    rw [String.toList_append, String.toList_append, List.append_assoc]
    rfl
  have hlists := congrArg String.toList h
  rw [hsplit, hsplit] at hlists
  obtain ⟨hd, hs⟩ := Text.run_append_inj d.bne_comma_of_mem_text d'.bne_comma_of_mem_text
    (Text.stops_cons rfl _) (Text.stops_cons rfl _) hlists
  obtain ⟨-, hs⟩ := List.cons.inj hs
  obtain ⟨-, hs⟩ := List.cons.inj hs
  exact ⟨Written.text_injective (String.toList_inj.1 hd),
    Written.text_injective (String.toList_inj.1 hs)⟩

theorem verb_load (d s : Written) : (load d s).verb = .loadHigh ∨ (load d s).verb = .load :=
  ite_eq_or_eq _ _ _

/-- **A text has the parts of one mnemonic**: its word tells the sort, its arguments the rest. -/
theorem text_injective {m n : Mnemonic} (h : m.text = n.text) : m = n := by
  obtain ⟨hv, ha⟩ := verb_and_arguments_of_text h
  cases m with
  | push x => cases n with
    | push y => rw [Operand.text_injective ha]
    | pop y => cases hv
    | load d s => rcases verb_load d s with hload | hload <;> cases hv.trans hload
  | pop x => cases n with
    | push y => cases hv
    | pop y => rw [Operand.text_injective ha]
    | load d s => rcases verb_load d s with hload | hload <;> cases hv.trans hload
  | load d s => cases n with
    | push y | pop y => rcases verb_load d s with hload | hload <;> cases hload.symm.trans hv
    | load d' s' =>
      obtain ⟨rfl, rfl⟩ := load_arguments_injective ha
      rfl

end Mnemonic

/-! ### what an operation writes -/

namespace Operation

variable {o q : Operation} {x y : Operand}

/-- an operand as this operation writes it. -/
def written (o : Operation) (x : Operand) : Written :=
  match o.kind, x with
  | .loadIncrement, .pointer .HL => .increment
  | .loadDecrement, .pointer .HL => .decrement
  | _, x => .plain x

theorem text_written (o : Operation) (x : Operand) : (o.written x).text = o.operandText x := by
  unfold written operandText
  cases o.kind with
  | load | load16 | push | pop => rfl
  | loadIncrement | loadDecrement => cases x with
    | pointer p => cases p <;> rfl
    | register | pair | stackPointer | highPagePointer | immediate8 | immediate16 | highPageAddress
    | address16 | stack => rfl

theorem written_of_ne (o : Operation) (hx : x ≠ .pointer .HL) : o.written x = .plain x := by
  unfold written
  split
  · exact absurd rfl hx
  · exact absurd rfl hx
  · rfl

theorem written_pointer_ne (o : Operation) (hx : x ≠ .pointer .HL) :
    o.written (.pointer .HL) ≠ .plain x := by
  unfold written
  cases o.kind with
  | loadIncrement | loadDecrement => rintro ⟨⟩
  | load | load16 | push | pop =>
    rintro ⟨⟩
    exact hx rfl

theorem written_pointer_eq_iff :
    o.written (.pointer .HL) = q.written (.pointer .HL) ↔ o.hlStep = q.hlStep := by
  unfold written hlStep
  cases o.kind <;> cases q.kind <;> decide

/-- what is written tells the operand, and of `(HL)` the step. -/
theorem written_eq_iff :
    o.written x = q.written y ↔ x = y ∧ (x = .pointer .HL → o.hlStep = q.hlStep) := by
  by_cases hx : x = .pointer .HL
  · subst hx
    by_cases hy : y = .pointer .HL
    · subst hy
      rw [written_pointer_eq_iff]
      exact ⟨fun h => ⟨rfl, fun _ => h⟩, fun h => h.2 rfl⟩
    · rw [written_of_ne q hy]
      exact iff_of_false (written_pointer_ne o hy) fun h => hy h.1.symm
  · rw [written_of_ne o hx]
    by_cases hy : y = .pointer .HL
    · subst hy
      exact iff_of_false (written_pointer_ne q hx).symm fun h => hx h.1
    · rw [written_of_ne q hy]
      exact ⟨fun h => ⟨Written.plain.inj h, fun he => absurd he hx⟩, fun h => by rw [h.1]⟩

/-- the parts of the mnemonic. -/
def shown (o : Operation) : Mnemonic :=
  match o.kind with
  | .push => .push o.source
  | .pop => .pop o.destination
  | .load | .loadIncrement | .loadDecrement | .load16 =>
    .load (o.written o.destination) (o.written o.source)

/-- the kinds that show both operands. -/
def loads : List Kind := [.load, .loadIncrement, .loadDecrement, .load16]

theorem shown_of_push (h : o.kind = .push) : o.shown = .push o.source := by
  rw [shown, h]

theorem shown_of_pop (h : o.kind = .pop) : o.shown = .pop o.destination := by
  rw [shown, h]

theorem shown_of_mem_loads (h : o.kind ∈ loads) :
    o.shown = .load (o.written o.destination) (o.written o.source) := by
  unfold shown
  cases hk : o.kind with
  | push | pop =>
    rw [hk] at h
    exact absurd h (by decide)
  | load | loadIncrement | loadDecrement | load16 => rfl

theorem kind_cases (o : Operation) : o.kind = .push ∨ o.kind = .pop ∨ o.kind ∈ loads := by
  cases o.kind <;> decide

theorem written_eq_plain_highPage_iff :
    o.written x = .plain .highPageAddress ↔ x = .highPageAddress := by
  by_cases hx : x = .pointer .HL
  · subst hx
    exact iff_of_false (written_pointer_ne o (by decide)) (by decide)
  · rw [written_of_ne o hx, Written.plain.injEq]

theorem verb_text_load (o : Operation) :
    (Mnemonic.load (o.written o.destination) (o.written o.source)).verb.text ++ " " =
      if o.usesHighPage then "LDH " else "LD " := by
  unfold Mnemonic.verb usesHighPage
  simp only [written_eq_plain_highPage_iff, Bool.or_eq_true, beq_iff_eq]
  split <;> rfl

theorem mnemonic_eq (o : Operation) : o.mnemonic = o.shown.text := by
  unfold mnemonic shown
  cases o.kind with
  | push | pop => rfl
  | load | loadIncrement | loadDecrement | load16 =>
    show _ = _ ++ " " ++ ((o.written o.destination).text ++ ", " ++ (o.written o.source).text)
    rw [verb_text_load, text_written, text_written, String.append_assoc, String.append_assoc,
      String.append_assoc]

/-- what operations of one mnemonic have in common. -/
inductive Alike (o q : Operation) : Prop
  | push (left : o.kind = .push) (right : q.kind = .push) (source : o.source = q.source)
  | pop (left : o.kind = .pop) (right : q.kind = .pop) (destination : o.destination = q.destination)
  | load (left : o.kind ∈ loads) (right : q.kind ∈ loads)
      (destination : o.destination = q.destination) (source : o.source = q.source)
      (step : o.destination = .pointer .HL ∨ o.source = .pointer .HL → o.hlStep = q.hlStep)

theorem shown_eq_of_alike (h : o.Alike q) : o.shown = q.shown := by
  cases h with
  | push ho hq hs => rw [shown_of_push ho, shown_of_push hq, hs]
  | pop ho hq hd => rw [shown_of_pop ho, shown_of_pop hq, hd]
  | load ho hq hd hs hstep =>
    rw [shown_of_mem_loads ho, shown_of_mem_loads hq,
      written_eq_iff.2 ⟨hd, fun h => hstep (.inl h)⟩,
      written_eq_iff.2 ⟨hs, fun h => hstep (.inr h)⟩]

theorem alike_of_shown_eq (h : o.shown = q.shown) : o.Alike q := by
  rcases o.kind_cases with ho | ho | ho <;> rcases q.kind_cases with hq | hq | hq
  case inl.inl =>
    rw [shown_of_push ho, shown_of_push hq] at h
    exact .push ho hq (Mnemonic.push.inj h)
  case inr.inl.inr.inl =>
    rw [shown_of_pop ho, shown_of_pop hq] at h
    exact .pop ho hq (Mnemonic.pop.inj h)
  case inr.inr.inr.inr =>
    rw [shown_of_mem_loads ho, shown_of_mem_loads hq] at h
    obtain ⟨hd, hs⟩ := Mnemonic.load.inj h
    obtain ⟨hd, hdstep⟩ := written_eq_iff.1 hd
    obtain ⟨hs, hsstep⟩ := written_eq_iff.1 hs
    exact .load ho hq hd hs fun h => h.elim hdstep hsstep
  -- the other pairs show mnemonics of two sorts
  all_goals
    simp only [shown_of_push, shown_of_pop, shown_of_mem_loads, ho, hq] at h
    cases h

theorem mnemonic_eq_iff_shown_eq : o.mnemonic = q.mnemonic ↔ o.shown = q.shown := by
  rw [mnemonic_eq, mnemonic_eq]
  exact ⟨Mnemonic.text_injective, fun h => by rw [h]⟩

/-- **Operations of one mnemonic are alike, and no others.** -/
theorem mnemonic_eq_iff : o.mnemonic = q.mnemonic ↔ o.Alike q :=
  mnemonic_eq_iff_shown_eq.trans ⟨alike_of_shown_eq, shown_eq_of_alike⟩

end Operation

/-! ### the mnemonics of a chart -/

namespace Mnemonic

/-- the family whose members have mnemonics of this form, and the operands of the member. -/
def member? : Mnemonic → Option (Family × List Selection)
  | .push (.pair s) => some (.push, [.pair s])
  | .pop (.pair d) => some (.pop, [.pair d])
  | .load (.plain (.register d)) (.plain (.register s)) =>
    some (.registerToRegister, [.register d, .register s])
  | .load (.plain (.register d)) (.plain .immediate8) => some (.immediateToRegister, [.register d])
  | .load (.plain (.register d)) (.plain (.pointer .HL)) => some (.pointerToRegister, [.register d])
  | .load (.plain (.pointer .HL)) (.plain (.register s)) => some (.registerToPointer, [.register s])
  | .load (.plain (.pair d)) (.plain .immediate16) => some (.immediateToPair, [.pair d])
  | _ => none

end Mnemonic

theorem Family.member?_shown {f : Family} {xs : List Selection} {o : Operation}
    (h : f.operation xs = .ok o) : o.shown.member? = some (f, xs) := by
  rw [operation_eq_ok_iff] at h
  unfold operation? at h
  split at h
  case h_8 => cases h
  all_goals
    cases h
    rfl

/-- a standard literal has no mnemonic of a member. -/
theorem member?_shown_standardLiterals {e : Entry} (h : e ∈ standardLiterals) :
    e.operation.shown.member? = none := by
  have hall : ∀ e ∈ standardLiterals, e.operation.shown.member? = none := by decide
  exact hall e h

theorem standardLiterals_shown_inj {e e' : Entry} (h : e ∈ standardLiterals)
    (h' : e' ∈ standardLiterals) (hs : e.operation.shown = e'.operation.shown) : e = e' := by
  have hnodup : (standardLiterals.map fun e => e.operation.shown).Nodup := by decide
  exact List.inj_on_of_nodup_map hnodup h h' hs

namespace Plan

variable {p : Plan} {c : Chart} {a b : UInt8} {x y : Operation}

/-- an entry with the mnemonic of a member is that member. -/
theorem recover?_of_member? (hc : p.chart = .ok c)
    (hl : ∀ e ∈ p.literals, e ∈ standardLiterals) (hx : c.get? a = some x) {f : Family}
    {xs : List Selection} (hm : x.shown.member? = some (f, xs)) : f.recover? a = some xs := by
  rcases mem_entries_iff.1 ((get?_chart hc).1 hx) with ⟨g, -, ys, hrec, hop⟩ | hlit
  · obtain ⟨rfl, rfl⟩ := Prod.mk.inj (Option.some.inj ((Family.member?_shown hop).symm.trans hm))
    exact hrec
  · rw [member?_shown_standardLiterals (hl _ hlit)] at hm
    cases hm

/-- an entry with no mnemonic of a member is a literal. -/
theorem mem_literals_of_member? (hc : p.chart = .ok c) (hx : c.get? a = some x)
    (hm : x.shown.member? = none) : ⟨a, x⟩ ∈ p.literals := by
  rcases mem_entries_iff.1 ((get?_chart hc).1 hx) with ⟨g, -, ys, -, hop⟩ | hlit
  · rw [Family.member?_shown hop] at hm
    cases hm
  · exact hlit

/-- **No mnemonic stands twice in a chart** of families and standard literals. -/
theorem opcode_eq_of_mnemonic_eq (hc : p.chart = .ok c)
    (hl : ∀ e ∈ p.literals, e ∈ standardLiterals) (hx : c.get? a = some x) (hy : c.get? b = some y)
    (h : x.mnemonic = y.mnemonic) : a = b := by
  have hs := Operation.mnemonic_eq_iff_shown_eq.1 h
  cases hm : x.shown.member? with
  | some m =>
    obtain ⟨f, xs⟩ := m
    exact f.biUnique_recover?.2 (recover?_of_member? hc hl hx hm)
      (recover?_of_member? hc hl hy (hs ▸ hm))
  | none =>
    have hxl := hl _ (mem_literals_of_member? hc hx hm)
    have hyl := hl _ (mem_literals_of_member? hc hy (hs ▸ hm))
    exact congrArg Entry.opcode (standardLiterals_shown_inj hxl hyl hs)

end Plan

namespace Operation

/-- **What mnemonics tell apart.**  Operations have one mnemonic exactly if both push one source, or
both pop to one destination, or both load from one source to one destination, with the same step of
`HL` if one of these is `(HL)`.  So no two opcodes have one mnemonic in the chart of a plan whose
literals are standard literals. -/
theorem mnemonics_tell_apart :
    (∀ o q : Operation, o.mnemonic = q.mnemonic ↔ o.Alike q) ∧
    ∀ (p : Plan) (c : Chart), p.chart = .ok c → (∀ e ∈ p.literals, e ∈ standardLiterals) →
      ∀ a b x y, c.get? a = some x → c.get? b = some y → a ≠ b → x.mnemonic ≠ y.mnemonic :=
  ⟨fun _ _ => mnemonic_eq_iff, fun _ _ hc hl _ _ _ _ hx hy hne h =>
    hne (Plan.opcode_eq_of_mnemonic_eq hc hl hx hy h)⟩

/-- a step of `HL` shows at `(HL)`, where it tells entries of a chart apart, and nowhere else. -/
theorem mnemonics_tell_apart_step :
    (load (.register .B) (.register .C) 1).mnemonic =
      (loadIncrement (.register .B) (.register .C) 7).mnemonic ∧
    ∃ c, Plan.chart ⟨[.pointerToRegister],
        [⟨0x2A, .loadIncrement (.register .A) (.pointer .HL) 2⟩]⟩ = .ok c ∧
      c.get? 0x2A = some (.loadIncrement (.register .A) (.pointer .HL) 2) ∧
      c.get? 0x7E = some (.load (.register .A) (.pointer .HL) 2) ∧
      (loadIncrement (.register .A) (.pointer .HL) 2).mnemonic ≠
        (load (.register .A) (.pointer .HL) 2).mnemonic := by
  obtain ⟨halike, hchart⟩ := mnemonics_tell_apart
  obtain ⟨c, hc⟩ : ∃ c, Plan.chart ⟨[.pointerToRegister],
      [⟨0x2A, .loadIncrement (.register .A) (.pointer .HL) 2⟩]⟩ = .ok c :=
    ⟨_, Plan.chart_eq_ok_iff_nodup.2 ⟨by decide, rfl⟩⟩
  have hstep : c.get? 0x2A = some (.loadIncrement (.register .A) (.pointer .HL) 2) :=
    (Plan.get?_chart hc).2 (Plan.mem_entries_iff.2 (.inr List.mem_cons_self))
  have hplain : c.get? 0x7E = some (.load (.register .A) (.pointer .HL) 2) := by
    refine (Plan.get?_chart hc).2 (Plan.mem_entries_iff.2 (.inl ?_))
    exact ⟨.pointerToRegister, List.mem_cons_self, [.register .A], rfl, rfl⟩
  refine ⟨(halike _ _).2 (.load (by decide) (by decide) rfl rfl ?_), c, hc, hstep, hplain, ?_⟩
  · rintro (h | h) <;> cases h
  · exact hchart _ c hc (by decide) _ _ _ _ hstep hplain (by decide)

end Operation

/-! ### members recognised by what they do -/

namespace Operation

/-- the family and the operands of the member that does this, also where the operands have no code. -/
def member? (o : Operation) : Option (Family × List Selection) :=
  o.shown.member?.filter fun m => m.1.operation? m.2 = some o

variable {o : Operation} {f g : Family} {xs ys : List Selection}

/-- **The operations that are recognised are those of members.** -/
theorem member?_eq_some_iff : o.member? = some (f, xs) ↔ f.operation xs = .ok o := by
  rw [member?, Option.filter_eq_some_iff, decide_eq_true_eq, ← Family.operation_eq_ok_iff]
  exact and_iff_right_of_imp Family.member?_shown

theorem member?_standardLiterals {e : Entry} (h : e ∈ standardLiterals) :
    e.operation.member? = none := by
  rw [member?, member?_shown_standardLiterals h, Option.filter_none]

/-- operands that have the same operation belong to one family, and are the same. -/
theorem member_eq (hf : f.operation xs = .ok o) (hg : g.operation ys = .ok o) :
    f = g ∧ xs = ys := by
  have hm := member?_eq_some_iff.2 hf
  rw [member?_eq_some_iff.2 hg] at hm
  obtain ⟨rfl, rfl⟩ := Prod.mk.inj (Option.some.inj hm)
  exact ⟨rfl, rfl⟩

end Operation

namespace Family

/-- **No two members do the same, and none does what a standard literal does**, whether their operands
have codes or not. -/
theorem operations_tell_members :
    (∀ (f g : Family) (xs ys : List Selection) (o : Operation),
      f.operation xs = .ok o → g.operation ys = .ok o → f = g ∧ xs = ys) ∧
    ∀ e ∈ standardLiterals, ∀ (f : Family) (xs : List Selection),
      f.operation xs ≠ .ok e.operation := by
  refine ⟨fun f g xs ys o => Operation.member_eq, fun e he f xs h => ?_⟩
  have hm := Operation.member?_eq_some_iff.2 h
  rw [Operation.member?_standardLiterals he] at hm
  cases hm

/-- the register `F`, which has no code; and two literals that differ from a member in the step of `HL` and
in the source alone. -/
theorem operations_tell_members_near :
    (∃ f xs, operation f xs = .ok (.load (.register .F) .immediate8 2) ∧
      f = immediateToRegister ∧ xs = [.register .F]) ∧
    pointerToRegister.operation [.register .A] ≠
      .ok (.loadIncrement (.register .A) (.pointer .HL) 2) ∧
    registerToPointer.operation [.register .A] ≠ .ok (.load (.pointer .HL) .immediate8 3) := by
  obtain ⟨htell, hliteral⟩ := operations_tell_members
  have hF : immediateToRegister.operation [.register .F] =
      .ok (.load (.register .F) .immediate8 2) := rfl
  exact ⟨⟨_, _, hF, htell _ _ _ _ _ hF hF⟩,
    hliteral ⟨0x2A, .loadIncrement (.register .A) (.pointer .HL) 2⟩ (by decide) _ _,
    hliteral ⟨0x36, .load (.pointer .HL) .immediate8 3⟩ (by decide) _ _⟩

end Family

end OpcodeChart
