import OpcodeChart.Operation

/-!
# Opcode charts

An entry assigns an operation to an opcode, and a chart is a list of entries in strictly ascending
order of the opcode, so that equal charts have equal lists.  A cursor walks the entries of a chart and
knows exactly how many it has left.

* `Operation.json`, `Entry.json`   compact JSON, members in the order of the fields;
* `Chart.insert`      adds an entry, in place of one with the same opcode;
* `Chart.ofEntries`   inserts a list of entries, the last of an opcode staying;
* `Chart.get?`        the operation of an opcode;
* `Chart.opcodes`     the opcodes that have an operation, ascending;
* `Chart.json`        a JSON object: an opcode in decimal digits is the key of its operation;
* `Chart.cursor`      the cursor at the first entry;
* `Cursor.next?`      the next entry, and the cursor behind it;
* `Cursor.take`       up to a number of entries, and the cursor behind them;
* `Cursor.bounds`     the least and the greatest number of entries left.

`Cursor.take_eq` ties a walk to `List.take` and `List.drop`.
-/

namespace OpcodeChart

structure Entry where
  opcode : UInt8
  operation : Operation
  deriving DecidableEq

def Operation.json (o : Operation) : String :=
  Text.Json.object
    [("kind", jsonName o.kind),
     ("destination", jsonName o.destination),
     ("source", jsonName o.source),
     ("cycles", Text.decimal o.cycles)]

def Entry.json (e : Entry) : String :=
  Text.Json.object [("opcode", Text.decimal e.opcode), ("descriptor", e.operation.json)]

/-! ### charts -/

@[ext] structure Chart where
  entries : List Entry
  sorted : entries.Pairwise fun a b => a.opcode < b.opcode

instance : DecidableEq Chart := fun c d =>
  decidable_of_iff (c.entries = d.entries) ⟨Chart.ext, fun h => h ▸ rfl⟩

namespace Chart

/-- an ascending list of entries with `e` put into its place. -/
def place (e : Entry) : List Entry → List Entry
  | [] => [e]
  | x :: later =>
    if e.opcode < x.opcode then e :: x :: later
    else if e.opcode = x.opcode then e :: later
    else x :: place e later

theorem mem_place {e y : Entry} {xs : List Entry} (h : y ∈ place e xs) : y = e ∨ y ∈ xs := by
  induction xs with
  | nil => simpa [place] using h
  | cons x later ih =>
    unfold place at h
    split at h
    · simpa using h
    · split at h
      · rcases List.mem_cons.1 h with h | h
        · exact .inl h
        · exact .inr (List.mem_cons_of_mem _ h)
      · rcases List.mem_cons.1 h with h | h
        · exact .inr (h ▸ List.mem_cons_self)
        · exact (ih h).imp id (List.mem_cons_of_mem _)

theorem sorted_place (e : Entry) {xs : List Entry}
    (h : xs.Pairwise fun a b => a.opcode < b.opcode) :
    (place e xs).Pairwise fun a b => a.opcode < b.opcode := by
  induction xs with
  | nil => simp [place]
  | cons x later ih =>
    obtain ⟨hx, hl⟩ := List.pairwise_cons.1 h
    unfold place
    split
    · next hlt =>
      refine List.pairwise_cons.2 ⟨fun y hy => ?_, h⟩
      rcases List.mem_cons.1 hy with rfl | hy
      · exact hlt
      · exact UInt8.lt_trans hlt (hx y hy)
    · next hge =>
      split
      · next heq => exact List.pairwise_cons.2 ⟨fun y hy => heq ▸ hx y hy, hl⟩
      · next hne =>
        refine List.pairwise_cons.2 ⟨fun y hy => ?_, ih hl⟩
        rcases mem_place hy with rfl | hy
        · simp only [UInt8.lt_iff_toNat_lt, ← UInt8.toNat_inj] at hge hne ⊢
          omega
        · exact hx y hy

def empty : Chart := ⟨[], List.Pairwise.nil⟩

def insert (c : Chart) (e : Entry) : Chart := ⟨place e c.entries, sorted_place e c.sorted⟩

def ofEntries (es : List Entry) : Chart := es.foldl insert empty

def entry? (c : Chart) (opcode : UInt8) : Option Entry :=
  c.entries.find? fun e => e.opcode = opcode

def get? (c : Chart) (opcode : UInt8) : Option Operation := (c.entry? opcode).map Entry.operation

def contains (c : Chart) (opcode : UInt8) : Bool := (c.entry? opcode).isSome

def size (c : Chart) : Nat := c.entries.length

def isEmpty (c : Chart) : Bool := c.entries.isEmpty

def opcodes (c : Chart) : List UInt8 := c.entries.map Entry.opcode

theorem contains_eq_isSome_get? (c : Chart) (opcode : UInt8) :
    c.contains opcode = (c.get? opcode).isSome := by
  simp [contains, get?]

def json (c : Chart) : String :=
  Text.Json.object (c.entries.map fun e => (Text.decimal e.opcode, e.operation.json))

end Chart

/-! ### cursors -/

structure Cursor where
  rest : List Entry
  deriving DecidableEq

def Chart.cursor (c : Chart) : Cursor := ⟨c.entries⟩

namespace Cursor

def next? (c : Cursor) : Option (Entry × Cursor) :=
  match c.rest with
  | [] => none
  | e :: rest => some (e, ⟨rest⟩)

def size (c : Cursor) : Nat := c.rest.length

def bounds (c : Cursor) : Nat × Option Nat := (c.size, some c.size)

def take : Nat → Cursor → List Entry × Cursor
  | 0, c => ([], c)
  | n + 1, c =>
    match c.next? with
    | none => ([], c)
    | some (e, behind) =>
      let (es, last) := take n behind
      (e :: es, last)

theorem take_eq (n : Nat) (c : Cursor) : take n c = (c.rest.take n, ⟨c.rest.drop n⟩) := by
  induction n generalizing c with
  | zero => rfl
  | succ n ih =>
    obtain ⟨rest⟩ := c
    cases rest with
    | nil => rfl
    | cons e rest => simp only [take, next?, ih, List.take_succ_cons, List.drop_succ_cons]

end Cursor

end OpcodeChart
