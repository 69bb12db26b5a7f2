import OpcodeChart.Member

/-!
# Drafts and plans of charts

A draft collects claims in the order in which they are made.  It grows by whole families, which are
claimed without a look at earlier claims, and by lists of literals, which are admitted beside them one
by one.  It becomes a chart if no opcode is claimed twice.

A plan says which families and which literals a chart is made of.  The standard plan has all families,
and for literals the load and transfer opcodes that belong to none: moves of `A` through `(BC)` and
`(DE)`, the high page and absolute addresses, the moves that step `HL`, and the loads of the stack
pointer.

* `Ledger.enter`                  enters a claim into the cells of its opcode, which fails if it has an
                                  owner;
* `LiteralSet`                    literals of which no two share an opcode, in the order of their
                                  admission;
* `LiteralSet.join`               admits one literal beside earlier claims, unless its opcode is taken;
* `LiteralSet.gather`             admits a list of literals;
* `Draft.add`, `Draft.addAll`     further claims of one origin;
* `Draft.addFamily`               the members of a family;
* `Draft.addLiterals`             a list of literals, admitted beside the claims of the draft;
* `Draft.chart`                   the chart, or the first collision;
* `Plan.draft`                    checks the codings, then claims the members of the families in order,
                                  then the literals;
* `Plan.chart`                    the chart of a plan, or what stands against it;
* `Plan.standard`, `loadTransfer`   the standard plan and its chart.
-/

namespace OpcodeChart

/-! ### the ledger of opcodes -/

structure Ledger where
  cells : Vector (Option Origin) 256

namespace Ledger

def empty : Ledger := ⟨Vector.replicate 256 none⟩

def owner? (l : Ledger) (opcode : UInt8) : Option Origin :=
  have : opcode.toNat < 256 := opcode.toNat_lt
  l.cells[opcode.toNat]

def record (l : Ledger) (opcode : UInt8) (owner : Origin) : Ledger :=
  ⟨l.cells.set opcode.toNat (some owner) opcode.toNat_lt⟩

theorem owner?_empty (opcode : UInt8) : empty.owner? opcode = none := by
  simp [empty, owner?]

theorem owner?_record (l : Ledger) (opcode other : UInt8) (owner : Origin) :
    (l.record opcode owner).owner? other =
      if opcode = other then some owner else l.owner? other := by
  simp only [record, owner?, Vector.getElem_set, UInt8.toNat_inj]

def enter (l : Ledger) (c : Claim) : Except ChartError Ledger :=
  match l.owner? c.opcode with
  | some first => .error (.collision c.opcode first c.origin)
  | none => .ok (l.record c.opcode c.origin)

end Ledger

/-! ### the admission of literals -/

@[ext] structure LiteralSet where
  entries : List Entry
  distinct : (entries.map Entry.opcode).Nodup

namespace LiteralSet

def empty : LiteralSet := ⟨[], List.nodup_nil⟩

def contains (s : LiteralSet) (opcode : UInt8) : Bool := s.entries.any fun e => e.opcode == opcode

theorem contains_iff {s : LiteralSet} {opcode : UInt8} :
    s.contains opcode = true ↔ opcode ∈ s.entries.map Entry.opcode := by
  simp [contains]

/-- a set with one more literal, of an opcode that is new to it. -/
def push (s : LiteralSet) (e : Entry) (isNew : ¬ s.contains e.opcode = true) : LiteralSet where
  entries := s.entries ++ [e]
  distinct := by
    rw [contains_iff] at isNew
    rw [List.map_append, List.nodup_append]
    refine ⟨s.distinct, by simp, ?_⟩
    intro a ha b hb hab
    obtain rfl : b = e.opcode := by simpa using hb
    exact isNew (hab ▸ ha)

theorem entries_push (s : LiteralSet) (e : Entry) (isNew : ¬ s.contains e.opcode = true) :
    (s.push e isNew).entries = s.entries ++ [e] := rfl

def join (claimed : List Claim) (s : LiteralSet) (e : Entry) : Except ChartError LiteralSet :=
  match claimed.find? fun c => c.opcode = e.opcode with
  | some c => .error (.collision e.opcode c.origin .literal)
  | none =>
    if isNew : ¬ s.contains e.opcode = true then .ok (s.push e isNew)
    else .error (.collision e.opcode .literal .literal)

def gather (literals : List Entry) (claimed : List Claim) : Except ChartError LiteralSet :=
  literals.foldlM (join claimed) empty

end LiteralSet

/-! ### drafts -/

structure Draft where
  claims : List Claim
  deriving DecidableEq

namespace Draft

def empty : Draft := ⟨[]⟩

def addAll (d : Draft) (origin : Origin) (es : List Entry) : Draft :=
  ⟨d.claims ++ es.map fun e => ⟨origin, e⟩⟩

def add (d : Draft) (origin : Origin) (e : Entry) : Draft := d.addAll origin [e]

def addFamily (d : Draft) (f : Family) : Except ChartError Draft := do
  let es ← f.entries
  return d.addAll (.family f) es

def addLiterals (d : Draft) (literals : List Entry) : Except ChartError Draft := do
  let admitted ← LiteralSet.gather literals d.claims
  return d.addAll .literal admitted.entries

def size (d : Draft) : Nat := d.claims.length

def isEmpty (d : Draft) : Bool := d.claims.isEmpty

def chart (d : Draft) : Except ChartError Chart := do
  let _ ← d.claims.foldlM Ledger.enter Ledger.empty
  return Chart.ofEntries (d.claims.map Claim.entry)

theorem claims_addAll (d : Draft) (origin : Origin) (es : List Entry) :
    (d.addAll origin es).claims = d.claims ++ es.map fun e => ⟨origin, e⟩ := rfl

theorem size_addAll (d : Draft) (origin : Origin) (es : List Entry) :
    (d.addAll origin es).size = d.size + es.length := by
  simp [size, addAll]

end Draft

/-! ### plans -/

/-- the literals of the standard plan, in the order in which they are claimed. -/
def standardLiterals : List Entry :=
  [⟨0x0A, .load (.register .A) (.pointer .BC) 2⟩,
   ⟨0x1A, .load (.register .A) (.pointer .DE) 2⟩,
   ⟨0x02, .load (.pointer .BC) (.register .A) 2⟩,
   ⟨0x12, .load (.pointer .DE) (.register .A) 2⟩,
   ⟨0x36, .load (.pointer .HL) .immediate8 3⟩,
   ⟨0xF2, .load (.register .A) (.highPagePointer .C) 2⟩,
   ⟨0xE2, .load (.highPagePointer .C) (.register .A) 2⟩,
   ⟨0xF0, .load (.register .A) .highPageAddress 3⟩,
   ⟨0xE0, .load .highPageAddress (.register .A) 3⟩,
   ⟨0xFA, .load (.register .A) .address16 4⟩,
   ⟨0xEA, .load .address16 (.register .A) 4⟩,
   ⟨0x2A, .loadIncrement (.register .A) (.pointer .HL) 2⟩,
   ⟨0x3A, .loadDecrement (.register .A) (.pointer .HL) 2⟩,
   ⟨0x22, .loadIncrement (.pointer .HL) (.register .A) 2⟩,
   ⟨0x32, .loadDecrement (.pointer .HL) (.register .A) 2⟩,
   ⟨0x31, .load16 .stackPointer .immediate16 3⟩,
   ⟨0xF9, .load16 .stackPointer (.pair .HL) 2⟩]

theorem nodup_standardLiterals : (standardLiterals.map Entry.opcode).Nodup := by decide

structure Plan where
  families : List Family
  literals : List Entry
  deriving DecidableEq

namespace Plan

def standard : Plan := ⟨Family.all, standardLiterals⟩

/-- a plan with one more literal, behind the others. -/
def addLiteral (p : Plan) (e : Entry) : Plan := { p with literals := p.literals ++ [e] }

def draft (p : Plan) : Except ChartError Draft := do
  Selector.all.forM Selector.validate
  let regular ← p.families.foldlM Draft.addFamily Draft.empty
  regular.addLiterals p.literals

def chart (p : Plan) : Except ChartError Chart := do
  let d ← p.draft
  d.chart

end Plan

def loadTransfer : Except ChartError Chart := Plan.standard.chart

end OpcodeChart
