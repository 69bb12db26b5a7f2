import OpcodeChart.Draft
import OpcodeChart.Proofs.Chart

/-!
# The first clash

Two walks look for an opcode claimed twice: the ledger of a draft, and the admission of literals
beside the claims of a draft.  Both find the first claim whose opcode is claimed before, and report
it with the first claim of this opcode.

* `Claim.clash? seen cs`             the pair, for claims `cs` that follow the claims `seen`;
* `Claim.clash?_append`              a clash in a list lies in its first part or behind it;
* `Claim.clash?_eq_none_iff`         there is none exactly when no opcode comes twice;
* `Claim.clash?_eq_some_iff`         where it is;
* `Claim.Decides found x told`       the outcome `x` hangs on what a search found;
* `Claim.Decides.bind`               two outcomes one after the other hang on two searches;
* `Claim.Decides.map`                what is made of a result hangs on the same search;
* `Claim.Decides.unique`             one search leaves room for one outcome;
* `Ledger.Tracks l seen`             the invariant of the ledger: a cell names the first claim;
* `Draft.chart_decided`              **a draft becomes a chart unless there is a clash**;
* `LiteralSet.gather_decided`        **literals are all admitted unless there is a clash**.
-/

namespace OpcodeChart

namespace Claim

/-- who claimed the opcode first. -/
def first? (seen : List Claim) (opcode : UInt8) : Option Claim :=
  seen.find? fun c => c.opcode = opcode

/-- the first of the claims `cs` whose opcode is claimed before, in `seen` or in `cs`, behind the
first claim of its opcode. -/
def clash? : List Claim → List Claim → Option (Claim × Claim)
  | _, [] => none
  | seen, c :: later =>
    match first? seen c.opcode with
    | some first => some (first, c)
    | none => clash? (seen ++ [c]) later

/-- how a clash is reported. -/
def collision (p : Claim × Claim) : ChartError := .collision p.2.opcode p.1.origin p.2.origin

/-- entries as claims of one origin. -/
def ofEntries (origin : Origin) (es : List Entry) : List Claim := es.map fun e => ⟨origin, e⟩

section
variable {seen as bs cs later : List Claim} {c first : Claim} {opcode : UInt8}

theorem first?_append :
    first? (as ++ bs) opcode = (first? as opcode).or (first? bs opcode) :=
  List.find?_append

theorem first?_eq_none_iff : first? seen opcode = none ↔ opcode ∉ seen.map Claim.opcode := by
  rw [← Option.not_isSome_iff_eq_none]
  exact not_congr find?_key_isSome_iff

theorem mem_of_first? (h : first? seen opcode = some c) : c ∈ seen ∧ c.opcode = opcode :=
  ⟨List.mem_of_find?_eq_some h, key_of_find? h⟩

/-- the first claim of an opcode: behind claims of other opcodes. -/
theorem first?_eq_some_iff :
    first? seen opcode = some c ↔
      c.opcode = opcode ∧ ∃ front back, seen = front ++ c :: back ∧ opcode ∉ front.map Claim.opcode :=
  find?_key_eq_some_iff_split

theorem clash?_nil (seen : List Claim) : clash? seen [] = none := rfl

theorem clash?_cons_of_some (h : first? seen c.opcode = some first) :
    clash? seen (c :: later) = some (first, c) := by
  unfold clash?
  rw [h]

theorem clash?_cons_of_none (h : first? seen c.opcode = none) :
    clash? seen (c :: later) = clash? (seen ++ [c]) later := by
  show (match first? seen c.opcode with
    | some first => some (first, c)
    | none => clash? (seen ++ [c]) later) = _
  rw [h]

theorem clash?_cons (seen : List Claim) (c : Claim) (later : List Claim) :
    clash? seen (c :: later) =
      ((first? seen c.opcode).map (·, c)).or (clash? (seen ++ [c]) later) := by
  cases h : first? seen c.opcode with
  | some first => exact clash?_cons_of_some h
  | none => exact clash?_cons_of_none h

theorem clash?_append (seen as bs : List Claim) :
    clash? seen (as ++ bs) = (clash? seen as).or (clash? (seen ++ as) bs) := by
  induction as generalizing seen with
  | nil => rw [List.nil_append, List.append_nil, clash?_nil, Option.none_or]
  | cons a as ih =>
    rw [List.cons_append, clash?_cons, clash?_cons, ih, List.append_assoc, Option.or_assoc]
    rfl

/-- **There is no clash exactly when no opcode comes twice.** -/
theorem clash?_eq_none_iff :
    clash? seen cs = none ↔
      (cs.map Claim.opcode).Nodup ∧ ∀ c ∈ cs, c.opcode ∉ seen.map Claim.opcode := by
  induction cs generalizing seen with
  | nil => exact ⟨fun _ => ⟨List.nodup_nil, List.forall_mem_nil _⟩, fun _ => rfl⟩
  | cons c cs ih =>
    rw [List.map_cons, List.nodup_cons, List.forall_mem_cons]
    cases h : first? seen c.opcode with
    | some first =>
      obtain ⟨hmem, ho⟩ := mem_of_first? h
      rw [clash?_cons_of_some h]
      refine ⟨fun hn => (by cases hn), fun hn => absurd ?_ hn.2.1⟩
      rw [← ho]
      exact List.mem_map_of_mem hmem
    | none =>
      have hnew := first?_eq_none_iff.1 h
      rw [clash?_cons_of_none h, ih]
      simp only [List.map_append, List.map_cons, List.map_nil, List.mem_append, List.mem_singleton,
        not_or]
      constructor
      · intro hn
        refine ⟨⟨fun hc => ?_, hn.1⟩, hnew, fun d hd => (hn.2 d hd).1⟩
        obtain ⟨d, hd, e⟩ := List.mem_map.1 hc
        exact (hn.2 d hd).2 e
      · intro hn
        refine ⟨hn.1.2, fun d hd => ⟨hn.2.2 d hd, fun e => hn.1.1 ?_⟩⟩
        rw [← e]
        exact List.mem_map_of_mem hd

theorem clash?_nil_eq_none_iff : clash? [] cs = none ↔ (cs.map Claim.opcode).Nodup := by
  rw [clash?_eq_none_iff]
  exact ⟨fun h => h.1, fun h => ⟨h, fun _ _ => List.not_mem_nil⟩⟩

/-- **Where the clash is**: behind claims without a clash, at a claim whose opcode was claimed. -/
theorem clash?_eq_some_iff :
    clash? seen cs = some (first, c) ↔ ∃ before after, cs = before ++ c :: after ∧
      clash? seen before = none ∧ first? (seen ++ before) c.opcode = some first := by
  constructor
  · intro h
    induction cs generalizing seen with
    | nil => cases h
    | cons d cs ih =>
      cases hd : first? seen d.opcode with
      | some x =>
        rw [clash?_cons_of_some hd] at h
        cases h
        refine ⟨[], cs, rfl, rfl, ?_⟩
        rw [List.append_nil]
        exact hd
      | none =>
        rw [clash?_cons_of_none hd] at h
        obtain ⟨before, after, rfl, hn, hf⟩ := ih h
        refine ⟨d :: before, after, rfl, ?_, ?_⟩
        · rw [clash?_cons_of_none hd]
          exact hn
        · rw [List.append_cons]
          exact hf
  · intro h
    obtain ⟨before, after, rfl, hn, hf⟩ := h
    rw [clash?_append, hn, Option.none_or]
    exact clash?_cons_of_some hf

theorem opcodes_ofEntries (origin : Origin) (es : List Entry) :
    (ofEntries origin es).map Claim.opcode = es.map Entry.opcode := by
  unfold ofEntries
  rw [List.map_map]
  rfl

theorem entries_ofEntries (origin : Origin) (es : List Entry) :
    (ofEntries origin es).map Claim.entry = es := by
  unfold ofEntries
  rw [List.map_map]
  exact List.map_id es

end

/-! ### outcomes of a search -/

/-- the outcome `x` hangs on a search for a clash: what is found is reported, and if nothing is found
the outcome is a result as told. -/
def Decides {α : Type} (found : Option (Claim × Claim)) (x : Except ChartError α)
    (told : α → Prop) : Prop :=
  match found with
  | some p => x = .error (collision p)
  | none => ∃ a, x = .ok a ∧ told a

namespace Decides

variable {α β : Type} {found next : Option (Claim × Claim)} {x : Except ChartError α}
  {told : α → Prop}

theorem exists_ok_iff (h : Decides found x told) : (∃ a, x = .ok a) ↔ found = none := by
  cases found with
  | some p =>
    rw [show x = .error (collision p) from h]
    exact ⟨fun ⟨a, ha⟩ => (nomatch ha), fun hn => (nomatch hn)⟩
  | none =>
    obtain ⟨a, ha, -⟩ := h
    exact ⟨fun _ => rfl, fun _ => ⟨a, ha⟩⟩

theorem eq_error_iff (h : Decides found x told) {err : ChartError} :
    x = .error err ↔ found.map collision = some err := by
  cases found with
  | some p =>
    rw [show x = .error (collision p) from h]
    exact ⟨fun he => congrArg some (Except.error.inj he), fun he =>
      congrArg Except.error (Option.some.inj he)⟩
  | none =>
    obtain ⟨a, rfl, -⟩ := h
    exact ⟨fun he => (nomatch he), fun he => (nomatch he)⟩

theorem told_of_eq_ok (h : Decides found x told) {a : α} (ha : x = .ok a) : told a := by
  cases h.exists_ok_iff.1 ⟨a, ha⟩
  obtain ⟨b, hb, ht⟩ := h
  cases ha.symm.trans hb
  exact ht

/-- an outcome told in full. -/
theorem eq_ok_iff {a b : α} (h : Decides found x (· = a)) : x = .ok b ↔ found = none ∧ b = a := by
  refine ⟨fun hb => ⟨h.exists_ok_iff.1 ⟨b, hb⟩, h.told_of_eq_ok hb⟩, fun ⟨hn, e⟩ => ?_⟩
  obtain ⟨b', hb'⟩ := h.exists_ok_iff.2 hn
  rw [hb', h.told_of_eq_ok hb', e]

/-- **Two outcomes one after the other hang on two searches**, the second made if the first finds
nothing. -/
theorem bind {f : α → Except ChartError β} {toldNext : β → Prop} (h : Decides found x told)
    (hf : ∀ a, told a → Decides next (f a) toldNext) :
    Decides (found.or next) (x >>= f) toldNext := by
  cases found with
  | some p =>
    rw [show x = .error (collision p) from h]
    rfl
  | none =>
    obtain ⟨a, rfl, ht⟩ := h
    exact hf a ht

/-- what is made of a result hangs on the same search. -/
theorem map {g : α → β} {toldNext : β → Prop} (h : Decides found x told)
    (hg : ∀ a, told a → toldNext (g a)) :
    Decides found (x >>= fun a => .ok (g a)) toldNext := by
  have hnext : ∀ a, told a → Decides none (.ok (g a)) toldNext := fun a ha => ⟨g a, rfl, hg a ha⟩
  have hboth := h.bind hnext
  rw [Option.or_none] at hboth
  exact hboth

/-- outcomes that hang on one search, and are told in full alike, are equal. -/
theorem unique {y : Except ChartError α} {a : α} (hx : Decides found x (· = a))
    (hy : Decides found y (· = a)) : x = y := by
  cases found with
  | some p => exact (show x = .error (collision p) from hx).trans (Eq.symm hy)
  | none =>
    obtain ⟨_, rfl, rfl⟩ := hx
    obtain ⟨_, rfl, rfl⟩ := hy
    rfl

end Decides

end Claim

open Claim

/-! ### the ledger -/

namespace Ledger

/-- a cell names the origin of the first claim of its opcode. -/
def Tracks (l : Ledger) (seen : List Claim) : Prop :=
  ∀ opcode, l.owner? opcode = (first? seen opcode).map Claim.origin

theorem tracks_empty : empty.Tracks [] := fun opcode => owner?_empty opcode

variable {l : Ledger} {seen : List Claim}

/-- an entered claim joins those seen. -/
theorem Tracks.record (h : l.Tracks seen) {c : Claim} (hnew : first? seen c.opcode = none) :
    (l.record c.opcode c.origin).Tracks (seen ++ [c]) := by
  intro opcode
  have hc : first? [c] opcode = if c.opcode = opcode then some c else none := by
    unfold first?
    rw [List.find?_singleton]
    simp only [decide_eq_true_eq]
  rw [owner?_record, first?_append, hc, h opcode]
  by_cases e : c.opcode = opcode
  · rw [if_pos e, if_pos e, ← e, hnew]
    rfl
  · rw [if_neg e, if_neg e, Option.or_none]

/-- one claim: its opcode is new and the invariant goes on, or it clashes. -/
theorem enter_decided (h : l.Tracks seen) (c : Claim) :
    Decides ((first? seen c.opcode).map (·, c)) (l.enter c) (·.Tracks (seen ++ [c])) := by
  have ho := h c.opcode
  unfold enter
  rw [ho]
  cases hf : first? seen c.opcode with
  | some first => rfl
  | none => exact ⟨_, rfl, h.record hf⟩

/-- the run over a list of claims. -/
theorem foldlM_enter_decided (h : l.Tracks seen) (cs : List Claim) :
    Decides (clash? seen cs) (cs.foldlM enter l) (·.Tracks (seen ++ cs)) := by
  -- on the claims ahead: the ledger tracks those behind
  induction cs generalizing l seen with
  | nil =>
    refine ⟨l, rfl, ?_⟩
    rw [List.append_nil]
    exact h
  | cons c cs ih =>
    rw [List.foldlM_cons, clash?_cons, List.append_cons seen c cs]
    exact (enter_decided h c).bind fun l' ht => ih ht

end Ledger

/-- **A draft becomes a chart unless there is a clash.** -/
theorem Draft.chart_decided (d : Draft) :
    Decides (clash? [] d.claims) d.chart (· = Chart.ofEntries (d.claims.map Claim.entry)) :=
  (Ledger.foldlM_enter_decided Ledger.tracks_empty d.claims).map fun _ _ => rfl

/-! ### literals -/

namespace LiteralSet

section
variable {claimed : List Claim} {s : LiteralSet} {e : Entry}

theorem join_of_claimed {c : Claim} (h : first? claimed e.opcode = some c) :
    join claimed s e = .error (.collision e.opcode c.origin .literal) := by
  unfold join
  rw [show claimed.find? (fun c => c.opcode = e.opcode) = some c from h]

theorem join_of_unclaimed (h : first? claimed e.opcode = none) :
    join claimed s e = if isNew : ¬ s.contains e.opcode = true then .ok (s.push e isNew)
      else .error (.collision e.opcode .literal .literal) := by
  unfold join
  rw [show claimed.find? (fun c => c.opcode = e.opcode) = none from h]

/-- one literal: the set goes on by it, or it clashes with a claim or with a literal of the set. -/
theorem join_decided (claimed : List Claim) (s : LiteralSet) (e : Entry) :
    Decides ((first? (claimed ++ ofEntries .literal s.entries) e.opcode).map (·, ⟨.literal, e⟩))
      (join claimed s e) (·.entries = s.entries ++ [e]) := by
  rw [first?_append]
  cases hc : first? claimed e.opcode with
  | some c => exact join_of_claimed hc
  | none =>
    rw [join_of_unclaimed hc, Option.none_or]
    cases hs : first? (ofEntries .literal s.entries) e.opcode with
    | some x =>
      obtain ⟨hmem, ho⟩ := mem_of_first? hs
      have hin : s.contains e.opcode = true := by
        rw [contains_iff, ← opcodes_ofEntries .literal, ← ho]
        exact List.mem_map_of_mem hmem
      obtain ⟨y, -, rfl⟩ := List.mem_map.1 hmem
      exact dif_neg (not_not.2 hin)
    | none =>
      have hnew : ¬ s.contains e.opcode = true := by
        rw [contains_iff, ← opcodes_ofEntries .literal]
        exact first?_eq_none_iff.1 hs
      exact ⟨s.push e hnew, dif_pos hnew, entries_push s e hnew⟩

end

/-- the run over a list of literals. -/
theorem foldlM_join_decided (claimed : List Claim) (s : LiteralSet) (es : List Entry) :
    Decides (clash? (claimed ++ ofEntries .literal s.entries) (ofEntries .literal es))
      (es.foldlM (join claimed) s) (·.entries = s.entries ++ es) := by
  -- on the literals ahead: the set holds exactly those behind
  induction es generalizing s with
  | nil => exact ⟨s, rfl, (List.append_nil _).symm⟩
  | cons e es ih =>
    have htag : ofEntries .literal (e :: es) = ⟨.literal, e⟩ :: ofEntries .literal es := rfl
    rw [List.foldlM_cons, htag, clash?_cons]
    refine (join_decided claimed s e).bind fun s' he => ?_
    have hseen : claimed ++ ofEntries .literal s.entries ++ [⟨.literal, e⟩]
        = claimed ++ ofEntries .literal s'.entries := by
      rw [he, List.append_assoc]
      unfold ofEntries
      rw [List.map_append]
      rfl
    have hrun := ih s'
    rw [he, List.append_assoc, ← he, ← hseen] at hrun
    exact hrun

/-- **Literals are all admitted unless there is a clash.** -/
theorem gather_decided (es : List Entry) (claimed : List Claim) :
    Decides (clash? claimed (ofEntries .literal es)) (gather es claimed) (·.entries = es) := by
  have hrun := foldlM_join_decided claimed empty es
  have hseen : claimed ++ ofEntries .literal empty.entries = claimed := List.append_nil claimed
  rw [hseen] at hrun
  exact hrun

end LiteralSet

end OpcodeChart
