import OpcodeChart.Proofs.Chart
import OpcodeChart.Proofs.Json

/-!
# The JSON text of a chart

The JSON text of a chart loses nothing: it is the text of one value only, and this value holds all
of the chart.  The same goes for a single entry.

* `Operation.value`, `Chart.members`               the values behind the texts;
* `Operand.symbol_injective`                       different names for different things;
* `Chart.json_injective`, `Entry.json_injective`   **nothing is lost**;
* `Chart.keys_members`                             the keys are the opcodes in decimal digits;
* `Chart.json_lossless`                            **one chart to a text, and the keys in order**.
-/

namespace OpcodeChart

open Text.Json

/-! ### symbols -/

namespace Symbol

/-- does no part of the symbol need an escape? -/
def Plain : Symbol → Prop
  | .bare name => Text.Json.Plain name
  | .tagged tag name => Text.Json.Plain tag ∧ Text.Json.Plain name

instance : (s : Symbol) → Decidable s.Plain
  | .bare name => inferInstanceAs (Decidable (Text.Json.Plain name))
  | .tagged tag name => inferInstanceAs (Decidable (Text.Json.Plain tag ∧ Text.Json.Plain name))

def value : (s : Symbol) → s.Plain → Value
  | .bare name, h => .word ⟨name, h⟩
  | .tagged tag name, h => .object (.cons ⟨tag, h.1⟩ (.word ⟨name, h.2⟩) .nil)

theorem text_value (s : Symbol) (h : s.Plain) : (s.value h).text = s.json := by
  cases s <;> rfl

theorem value_injective {s t : Symbol} {hs : s.Plain} {ht : t.Plain}
    (h : s.value hs = t.value ht) : s = t := by
  cases s <;> cases t <;> simp_all [value, Word.ext_iff]

end Symbol

theorem Kind.plain_symbol (k : Kind) : (Spelled.symbol k).Plain := by
  cases k <;> decide

theorem Operand.plain_symbol (x : Operand) : (Spelled.symbol x).Plain := by
  cases x with
  | register r | highPagePointer r => cases r <;> decide
  | pair p | pointer p => cases p <;> decide
  | _ => decide

theorem Kind.symbol_injective {k l : Kind} (h : Spelled.symbol k = Spelled.symbol l) : k = l := by
  revert h
  cases k <;> cases l <;> decide

theorem Operand.symbol_injective {x y : Operand} (h : Spelled.symbol x = Spelled.symbol y) :
    x = y := by
  cases x <;> cases y
  case register.register | highPagePointer.highPagePointer =>
    rw [Register.name_injective (Symbol.tagged.inj h).2]
  case pair.pair | pointer.pointer =>
    rw [Pair.name_injective (Symbol.tagged.inj h).2]
  -- any other two operands differ already in the tag
  all_goals simp [Spelled.symbol] at h ⊢

/-! ### operations and entries -/

def Operation.value (o : Operation) : Value :=
  .object <| .ofList
    [(.of "kind", (Spelled.symbol o.kind).value o.kind.plain_symbol),
     (.of "destination", (Spelled.symbol o.destination).value o.destination.plain_symbol),
     (.of "source", (Spelled.symbol o.source).value o.source.plain_symbol),
     (.of "cycles", .byte o.cycles)]

theorem Operation.text_value (o : Operation) : o.value.text = o.json := by
  unfold value json jsonName
  rw [Value.text, Members.texts_ofList]
  simp only [List.map_cons, List.map_nil, Symbol.text_value, Word.of, Value.text]

theorem Operation.value_injective {o q : Operation} (h : o.value = q.value) : o = q := by
  obtain ⟨kind, destination, source, cycles⟩ := o
  obtain ⟨kind', destination', source', cycles'⟩ := q
  have hms := Members.ofList_injective (Value.object.inj h)
  simp only [List.cons.injEq, Prod.mk.injEq, true_and, and_true] at hms
  obtain ⟨hk, hd, hs, hc⟩ := hms
  obtain rfl := Kind.symbol_injective (Symbol.value_injective hk)
  obtain rfl := Operand.symbol_injective (Symbol.value_injective hd)
  obtain rfl := Operand.symbol_injective (Symbol.value_injective hs)
  obtain rfl := Value.byte.inj hc
  rfl

namespace Entry

def value (e : Entry) : Value :=
  .object <| .ofList
    [(.of "opcode", .byte e.opcode), (.of "descriptor", e.operation.value)]

theorem text_value (e : Entry) : e.value.text = e.json := by
  unfold value json
  rw [Value.text, Members.texts_ofList]
  simp only [List.map_cons, List.map_nil, Operation.text_value, Word.of, Value.text]

theorem value_injective {d e : Entry} (h : d.value = e.value) : d = e := by
  obtain ⟨opcode, operation⟩ := d
  obtain ⟨opcode', operation'⟩ := e
  have hms := Members.ofList_injective (Value.object.inj h)
  simp only [List.cons.injEq, Prod.mk.injEq, true_and, and_true] at hms
  obtain ⟨hc, ho⟩ := hms
  obtain rfl := Value.byte.inj hc
  obtain rfl := Operation.value_injective ho
  rfl

/-- **The JSON text of an entry loses nothing.** -/
theorem json_injective {d e : Entry} (h : d.json = e.json) : d = e := by
  rw [← text_value, ← text_value] at h
  exact value_injective (Value.text_injective h)

/-- an entry as a member of an object: the operation under the opcode. -/
def keyed (e : Entry) : Word × Value := (.ofDecimal e.opcode, e.operation.value)

theorem keyed_injective {d e : Entry} (h : d.keyed = e.keyed) : d = e := by
  obtain ⟨opcode, operation⟩ := d
  obtain ⟨opcode', operation'⟩ := e
  obtain ⟨hk, ho⟩ := Prod.mk.inj h
  obtain rfl := Text.decimal_injective (congrArg Word.text hk)
  obtain rfl := Operation.value_injective ho
  rfl

end Entry

/-! ### charts -/

namespace Chart

/-- the operations of a chart under their opcodes, in the order of the entries. -/
def members (c : Chart) : Members := .ofList (c.entries.map Entry.keyed)

theorem text_members (c : Chart) : (Value.object c.members).text = c.json := by
  unfold members json
  rw [Value.text, Members.texts_ofList, List.map_map]
  refine congrArg object (List.map_congr_left fun e _ => ?_)
  exact congrArg (Text.decimal e.opcode, ·) e.operation.text_value

theorem keys_members (c : Chart) : c.members.keys = c.opcodes.map Text.decimal := by
  unfold members opcodes
  rw [Members.keys_ofList, List.map_map, List.map_map]
  rfl

theorem members_injective {a b : Chart} (h : a.members = b.members) : a = b :=
  Chart.ext (List.map_injective_iff.2 (fun _ _ => Entry.keyed_injective)
    (Members.ofList_injective h))

/-- the JSON text of a chart is the text of its members and of no other value. -/
theorem text_eq_json_iff {c : Chart} {v : Value} : v.text = c.json ↔ v = .object c.members := by
  rw [← text_members]
  exact ⟨Value.text_injective, congrArg Value.text⟩

/-- **The JSON text of a chart loses nothing.** -/
theorem json_injective {a b : Chart} (h : a.json = b.json) : a = b := by
  rw [← a.text_members] at h
  exact members_injective (Value.object.inj (text_eq_json_iff.1 h))

theorem sorted_opcodes (c : Chart) : c.opcodes.Pairwise (· < ·) :=
  List.pairwise_map.2 c.sorted

/-- **The JSON form is lossless.**  Charts with one text are equal, and so are entries; and the text
of a chart is the text of one value alone, an object that has the opcodes in decimal digits for its
keys, each once and in ascending order. -/
theorem json_lossless :
    (∀ a b : Chart, a.json = b.json ↔ a = b) ∧
    (∀ d e : Entry, d.json = e.json ↔ d = e) ∧
    ∀ c : Chart, ∃ members : Members, (∀ v : Value, v.text = c.json ↔ v = .object members) ∧
      members.keys = c.opcodes.map Text.decimal ∧ c.opcodes.Pairwise (· < ·) :=
  ⟨fun _ _ => ⟨json_injective, congrArg json⟩,
    fun _ _ => ⟨Entry.json_injective, congrArg Entry.json⟩,
    fun c => ⟨c.members, fun _ => text_eq_json_iff, c.keys_members, c.sorted_opcodes⟩⟩

end Chart

end OpcodeChart
