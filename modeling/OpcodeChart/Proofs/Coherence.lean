import OpcodeChart.Proofs.Merge

/-!
# Coherent operations

An operation is described five times over: by its length, its effects, its step of `HL`, its
operands and its cycles.  It is coherent when these tell one story.  Operations need not be: the
builders take any operands and cycles, and a literal may hold any operation.

* `Operation.length_eq_iff`         **the effects tell the length, unless both operands are
                                    immediates of one size**;
* `Operation.Coherent`              the five accounts agree;
* `Family.coherent_of_operation`    **every operation of a family is coherent**;
* `coherent_standardLiterals`       so are the standard literals;
* `Plan.coherent_of_mem_entries`    so is all of a chart that is not a literal of its plan;
* `Plan.coherent_chart`             **the charts of coherent literals are coherent**.
-/

namespace OpcodeChart

namespace Operation

/-- the bytes behind the opcode, as the effects tell them. -/
def immediateBytes (o : Operation) : Nat :=
  (if .immediate8 ∈ o.effects then 1 else 0) + (if .immediate16 ∈ o.effects then 2 else 0)

/-- the bytes moved through memory, as the effects tell them. -/
def memoryBytes (o : Operation) : Nat :=
  if .stack ∈ o.effects then 2
  else if .readsMemory ∈ o.effects ∨ .writesMemory ∈ o.effects then 1
  else 0

/-- the cycles in which no byte moves: one of a push, and one of a move from a pair to the stack
pointer. -/
def idleCycles (o : Operation) : Nat :=
  match o.kind, o.destination, o.source with
  | .push, _, _ => 1
  | .load16, .stackPointer, .pair _ => 1
  | _, _, _ => 0

/-- are `x` and `y` the two operands, in either order? -/
def Joins (o : Operation) (x y : Operand) : Prop :=
  o.destination = x ∧ o.source = y ∨ o.destination = y ∧ o.source = x

instance (o : Operation) (x y : Operand) : Decidable (o.Joins x y) :=
  inferInstanceAs (Decidable (_ ∨ _))

/-- **The effects tell the length, unless both operands are immediates of one size**, which an
effect counts once. -/
theorem length_eq_iff {o : Operation} :
    o.length = 1 + o.immediateBytes ↔
      (o.destination.immediateBytes = o.source.immediateBytes → o.source.immediateBytes = 0) := by
  have hd := o.destination.immediateBytes_le
  have hs := o.source.immediateBytes_le
  unfold length immediateBytes
  simp only [mem_effects, has, Bool.or_eq_true, beq_iff_eq]
  generalize o.destination.immediateBytes = d at *
  generalize o.source.immediateBytes = s at *
  split <;> split <;> omega

/-- the accounts of an operation agree. -/
structure Coherent (o : Operation) : Prop where
  length : o.length = 1 + o.immediateBytes
  /-- no byte and word follow one opcode. -/
  immediate : ¬ (.immediate8 ∈ o.effects ∧ .immediate16 ∈ o.effects)
  /-- memory is read or written, not both. -/
  memory : ¬ (.readsMemory ∈ o.effects ∧ .writesMemory ∈ o.effects)
  stack : .stack ∈ o.effects ↔ o.kind = .push ∨ o.kind = .pop
  /-- `HL` steps only in a move between `A` and `(HL)`. -/
  hlStep : o.hlStep ≠ 0 → o.Joins (.register .A) (.pointer .HL)
  /-- `(BC)` and `(DE)` stand only in a plain move of `A`. -/
  pointer : ∀ p ∈ [Pair.BC, Pair.DE], o.destination = .pointer p ∨ o.source = .pointer p →
    o.kind = .load ∧ o.Joins (.register .A) (.pointer p)
  /-- a cycle for each byte of the instruction and for each byte moved, and the idle ones. -/
  cycles : o.cycles.toNat = o.length + o.memoryBytes + o.idleCycles

instance (o : Operation) : Decidable o.Coherent :=
  decidable_of_iff
    (o.length = 1 + o.immediateBytes ∧
      ¬ (.immediate8 ∈ o.effects ∧ .immediate16 ∈ o.effects) ∧
      ¬ (.readsMemory ∈ o.effects ∧ .writesMemory ∈ o.effects) ∧
      (.stack ∈ o.effects ↔ o.kind = .push ∨ o.kind = .pop) ∧
      (o.hlStep ≠ 0 → o.Joins (.register .A) (.pointer .HL)) ∧
      (∀ p ∈ [Pair.BC, Pair.DE], o.destination = .pointer p ∨ o.source = .pointer p →
        o.kind = .load ∧ o.Joins (.register .A) (.pointer p)) ∧
      o.cycles.toNat = o.length + o.memoryBytes + o.idleCycles)
    ⟨fun ⟨h1, h2, h3, h4, h5, h6, h7⟩ => ⟨h1, h2, h3, h4, h5, h6, h7⟩,
      fun h => ⟨h.length, h.immediate, h.memory, h.stack, h.hlStep, h.pointer, h.cycles⟩⟩

example : ¬ (load .highPageAddress .immediate8 4).Coherent := by decide

end Operation

/-! ### coherence of families and literals -/

/-- **Every operation of a family is coherent**, also those of selections without a code. -/
theorem Family.coherent_of_operation {f : Family} {xs : List Selection} {o : Operation}
    (h : f.operation xs = .ok o) : o.Coherent := by
  have h := operation_eq_ok_iff.1 h
  unfold operation? at h
  split at h
  case h_8 => cases h
  -- which register or pair is selected does not matter to any account
  all_goals
    cases h
    exact of_decide_eq_true rfl

theorem Family.coherent_of_mem_members {f : Family} {e : Entry} (h : e ∈ f.members) :
    e.operation.Coherent := by
  obtain ⟨xs, hl⟩ := mem_members_iff.1 h
  exact coherent_of_operation hl.2

theorem coherent_standardLiterals : ∀ e ∈ standardLiterals, e.operation.Coherent := by
  decide

/-! ### coherence of charts -/

namespace Plan

variable {p : Plan} {c : Chart}

/-- what a chart holds besides the literals of its plan is coherent. -/
theorem coherent_of_mem_entries (hc : p.chart = .ok c) {e : Entry} (he : e ∈ c.entries)
    (hl : e ∉ p.literals) : e.operation.Coherent := by
  have hmem := (chart_eq_ok_iff_perm.1 hc).mem_iff.1 he
  unfold entries at hmem
  rcases List.mem_append.1 hmem with hf | h
  · obtain ⟨f, -, hf⟩ := Family.mem_entries_claimsOf_iff.1 hf
    exact Family.coherent_of_mem_members hf
  · exact absurd h hl

/-- **The charts of coherent literals are coherent.** -/
theorem coherent_chart (hc : p.chart = .ok c) (hl : ∀ e ∈ p.literals, e.operation.Coherent) :
    ∀ e ∈ c.entries, e.operation.Coherent := by
  intro e he
  by_cases hmem : e ∈ p.literals
  · exact hl e hmem
  · exact coherent_of_mem_entries hc he hmem

/-- **Length, effects, steps, operands and cycles agree** in every operation of a family, in the
standard literals, and in all that a chart holds besides the literals of its plan; so a chart is
coherent if these literals are. -/
theorem coherent_but_for_literals :
    (∀ (f : Family) xs o, f.operation xs = .ok o → o.Coherent) ∧
    (∀ e ∈ standardLiterals, e.operation.Coherent) ∧
    ∀ (p : Plan) c, p.chart = .ok c →
      (∀ e ∈ c.entries, e ∉ p.literals → e.operation.Coherent) ∧
      ((∀ e ∈ p.literals, e.operation.Coherent) → ∀ e ∈ c.entries, e.operation.Coherent) :=
  ⟨fun _ _ _ => Family.coherent_of_operation, coherent_standardLiterals,
    fun _ _ hc => ⟨fun _ => coherent_of_mem_entries hc, coherent_chart hc⟩⟩

/-- a pair that a load has no code for, a load beside a literal that is not coherent, and the same
load beside one that is. -/
theorem coherent_but_for_literals_load16 :
    (Operation.load16 (.pair .AF) .immediate16 3).Coherent ∧
    (∃ c, chart ⟨[.immediateToPair], [⟨0x31, .load .immediate8 .immediate8 2⟩]⟩ = .ok c ∧
      ⟨0x21, .load16 (.pair .HL) .immediate16 3⟩ ∈ c.entries ∧
      (Operation.load16 (.pair .HL) .immediate16 3).Coherent) ∧
    ∃ c, chart ⟨[.immediateToPair], [⟨0x31, .load16 .stackPointer .immediate16 3⟩]⟩ = .ok c ∧
      ∀ e ∈ c.entries, e.operation.Coherent := by
  obtain ⟨hfamily, -, hplan⟩ := coherent_but_for_literals
  obtain ⟨c, hc⟩ : ∃ c, chart ⟨[.immediateToPair], [⟨0x31, .load .immediate8 .immediate8 2⟩]⟩ =
      .ok c := ⟨_, chart_eq_ok_iff_nodup.2 ⟨by decide, rfl⟩⟩
  obtain ⟨d, hd⟩ : ∃ d, chart ⟨[.immediateToPair], [⟨0x31, .load16 .stackPointer .immediate16 3⟩]⟩ =
      .ok d := ⟨_, chart_eq_ok_iff_nodup.2 ⟨by decide, rfl⟩⟩
  have hmem : ⟨0x21, .load16 (.pair .HL) .immediate16 3⟩ ∈ c.entries :=
    (chart_eq_ok_iff_perm.1 hc).mem_iff.2 (by decide)
  exact ⟨hfamily .immediateToPair [.pair .AF] _ rfl,
    ⟨c, hc, hmem, (hplan _ c hc).1 _ hmem (by decide)⟩,
    ⟨d, hd, (hplan _ d hd).2 (by decide)⟩⟩

end Plan

end OpcodeChart
