import OpcodeChart.Proofs.Clash

/-!
# Admission of literals

Literals are admitted beside claims, which may themselves repeat an opcode.  The first literal whose
opcode is taken ends the admission; the claims stand against it before the literals admitted so far.

* `LiteralSet.Admissible claimed ls`             literals that share no opcode with each other or with
                                                 a claim;
* `LiteralSet.Taken claimed before opcode o`     the origin that stands against a literal behind
                                                 `before`;
* `LiteralSet.first?_eq_some_iff_taken`          it is the origin of the first claim before the literal;
* `LiteralSet.clash?_literals_eq_some_iff`       the clash of the first literal that is taken;
* `LiteralSet.gather_eq_error_iff`               **the admission fails at the first literal taken**;
* `LiteralSet.admitted_or_first_taken`           **which literals are admitted, or which one is taken**;
* `LiteralSet.gather_append`                     literals admitted in two batches, the first claimed
                                                 before the second;
* `Draft.foldlM_addLiterals_eq`                  any number of batches for a draft;
* `LiteralSet.admitted_in_batches`               **admission can be split into batches**.
-/

namespace OpcodeChart

open Claim

namespace LiteralSet

/-- literals that share no opcode with each other or with a claim. -/
def Admissible (claimed : List Claim) (ls : List Entry) : Prop :=
  (ls.map Entry.opcode).Nodup ∧ ∀ e ∈ ls, e.opcode ∉ claimed.map Claim.opcode

/-- the origin that stands against a literal behind the literals `before`. -/
inductive Taken (claimed : List Claim) (before : List Entry) (opcode : UInt8) : Origin → Prop
  /-- that of the first claim of its opcode. -/
  | claim {front back : List Claim} {c : Claim} (split : claimed = front ++ c :: back)
      (same : c.opcode = opcode) (first : opcode ∉ front.map Claim.opcode) :
      Taken claimed before opcode c.origin
  /-- that of an earlier literal, if nothing is claimed. -/
  | literal (unclaimed : opcode ∉ claimed.map Claim.opcode)
      (earlier : opcode ∈ before.map Entry.opcode) : Taken claimed before opcode .literal

variable {claimed : List Claim} {ls before : List Entry} {opcode : UInt8} {o : Origin}

/-- the origin of the first claim before a literal, in the claims or in the literals before it. -/
theorem first?_eq_some_iff_taken :
    (first? (claimed ++ ofEntries .literal before) opcode).map Claim.origin = some o ↔
      Taken claimed before opcode o := by
  rw [first?_append]
  cases hc : first? claimed opcode with
  | some c =>
    obtain ⟨same, front, back, split, first⟩ := first?_eq_some_iff.1 hc
    rw [Option.some_or, Option.map_some, Option.some.injEq]
    refine ⟨fun h => h ▸ .claim split same first, fun h => ?_⟩
    cases h with
    | claim split' same' first' =>
      have hc' := first?_eq_some_iff.2 ⟨same', _, _, split', first'⟩
      cases hc.symm.trans hc'
      rfl
    | literal unclaimed _ =>
      rw [first?_eq_none_iff.2 unclaimed] at hc
      cases hc
  | none =>
    have hun := first?_eq_none_iff.1 hc
    rw [Option.none_or, Option.map_eq_some_iff]
    refine ⟨fun ⟨c, hl, ho⟩ => ?_, fun h => ?_⟩
    · obtain ⟨hmem, rfl⟩ := mem_of_first? hl
      obtain ⟨e, he, rfl⟩ := List.mem_map.1 hmem
      exact ho ▸ .literal hun (List.mem_map_of_mem he)
    · cases h with
      | claim split same _ =>
        subst split same
        exact absurd (List.mem_map_of_mem (List.mem_append_right _ List.mem_cons_self)) hun
      | literal _ earlier =>
        rw [← opcodes_ofEntries .literal] at earlier
        obtain ⟨c, hl⟩ := Option.isSome_iff_exists.1 (find?_key_isSome_iff.2 earlier)
        obtain ⟨e, -, rfl⟩ := List.mem_map.1 (List.mem_of_find?_eq_some hl)
        exact ⟨_, hl, rfl⟩

theorem clash?_literals_eq_none_iff :
    clash? claimed (ofEntries .literal ls) = none ↔ Admissible claimed ls := by
  unfold Admissible
  rw [clash?_eq_none_iff, opcodes_ofEntries]
  refine and_congr_right fun _ => ⟨fun h e he => ?_, fun h c hc => ?_⟩
  · exact h ⟨.literal, e⟩ (List.mem_map_of_mem he)
  · obtain ⟨e, he, rfl⟩ := List.mem_map.1 hc
    exact h e he

/-- **The clash of the first literal that is taken.** -/
theorem clash?_literals_eq_some_iff {x : Claim × Claim} :
    clash? claimed (ofEntries .literal ls) = some x ↔
      ∃ before e after, ls = before ++ e :: after ∧ Admissible claimed before ∧
        x.2 = ⟨.literal, e⟩ ∧
        first? (claimed ++ ofEntries .literal before) e.opcode = some x.1 := by
  obtain ⟨first, c⟩ := x
  rw [clash?_eq_some_iff]
  refine ⟨fun ⟨cs, ds, hsplit, hn, hf⟩ => ?_, fun ⟨before, e, after, hsplit, hadm, hc, hf⟩ => ?_⟩
  · obtain ⟨before, rest, rfl, rfl, hrest⟩ := List.map_eq_append_iff.1 hsplit
    obtain ⟨e, after, rfl, rfl, -⟩ := List.map_eq_cons_iff.1 hrest
    exact ⟨before, e, after, rfl, clash?_literals_eq_none_iff.1 hn, rfl, hf⟩
  · subst hsplit
    cases hc
    exact ⟨ofEntries .literal before, ofEntries .literal after, List.map_append,
      clash?_literals_eq_none_iff.2 hadm, hf⟩

/-- **The admission fails at the first literal that is taken.** -/
theorem gather_eq_error_iff {err : ChartError} :
    gather ls claimed = .error err ↔ ∃ before e after first, ls = before ++ e :: after ∧
      Admissible claimed before ∧ Taken claimed before e.opcode first ∧
      err = .collision e.opcode first .literal := by
  rw [(gather_decided ls claimed).eq_error_iff, Option.map_eq_some_iff]
  refine ⟨fun ⟨x, hx, he⟩ => ?_, fun ⟨before, e, after, first, hsplit, hadm, htaken, he⟩ => ?_⟩
  · obtain ⟨first, c⟩ := x
    obtain ⟨before, e, after, hsplit, hadm, rfl, hf⟩ := clash?_literals_eq_some_iff.1 hx
    refine ⟨before, e, after, first.origin, hsplit, hadm, first?_eq_some_iff_taken.1 ?_, he.symm⟩
    rw [hf]
    rfl
  · obtain ⟨c, hc, rfl⟩ := Option.map_eq_some_iff.1 (first?_eq_some_iff_taken.2 htaken)
    exact ⟨(c, ⟨.literal, e⟩),
      clash?_literals_eq_some_iff.2 ⟨before, e, after, hsplit, hadm, rfl, hc⟩, he.symm⟩

/-- **Which literals are admitted, or which one is taken.**  Literals are admitted exactly if they
share no opcode with each other or with a claim; the set then holds them all, in order, and contains
their opcodes and no others.  Else the first literal whose opcode is taken is reported, with the first
claim of its opcode, or with an earlier literal if there is no such claim. -/
theorem admitted_or_first_taken (ls : List Entry) (claimed : List Claim) :
    ((∃ s, gather ls claimed = .ok s) ↔
      (ls.map Entry.opcode).Nodup ∧ ∀ e ∈ ls, e.opcode ∉ claimed.map Claim.opcode) ∧
    (∀ s, gather ls claimed = .ok s →
      s.entries = ls ∧ ∀ opcode, s.contains opcode = true ↔ opcode ∈ ls.map Entry.opcode) ∧
    ∀ err, gather ls claimed = .error err ↔ ∃ before e after first, ls = before ++ e :: after ∧
      Admissible claimed before ∧ Taken claimed before e.opcode first ∧
      err = .collision e.opcode first .literal := by
  have hdecided := gather_decided ls claimed
  refine ⟨hdecided.exists_ok_iff.trans clash?_literals_eq_none_iff, fun s hs => ?_,
    fun err => gather_eq_error_iff⟩
  have he := hdecided.told_of_eq_ok hs
  exact ⟨he, fun opcode => he ▸ contains_iff⟩

/-- a literal that is admitted; one under an opcode that is claimed twice; one under the opcode of the
literal before it. -/
theorem admitted_or_first_taken_push :
    (∃ s, gather [⟨0xE8, .pop .AF 4⟩] [⟨.family .push, ⟨0xC5, .push .BC 4⟩⟩] = .ok s ∧
      s.contains 0xE8 = true) ∧
    gather [⟨0xE8, .pop .AF 4⟩, ⟨0xC5, .push .BC 3⟩]
        [⟨.family .pop, ⟨0xC5, .pop .BC 3⟩⟩, ⟨.family .push, ⟨0xC5, .push .BC 4⟩⟩] =
      .error (.collision 0xC5 (.family .pop) .literal) ∧
    gather [⟨0xE8, .pop .AF 4⟩, ⟨0xE8, .pop .AF 3⟩] [⟨.family .push, ⟨0xC5, .push .BC 4⟩⟩] =
      .error (.collision 0xE8 .literal .literal) := by
  obtain ⟨hok, hset, -⟩ := admitted_or_first_taken [⟨0xE8, .pop .AF 4⟩]
    [⟨.family .push, ⟨0xC5, .push .BC 4⟩⟩]
  obtain ⟨s, hs⟩ := hok.2 ⟨by decide, by decide⟩
  obtain ⟨-, -, hclaimed⟩ := admitted_or_first_taken [⟨0xE8, .pop .AF 4⟩, ⟨0xC5, .push .BC 3⟩]
    [⟨.family .pop, ⟨0xC5, .pop .BC 3⟩⟩, ⟨.family .push, ⟨0xC5, .push .BC 4⟩⟩]
  obtain ⟨-, -, hearlier⟩ := admitted_or_first_taken [⟨0xE8, .pop .AF 4⟩, ⟨0xE8, .pop .AF 3⟩]
    [⟨.family .push, ⟨0xC5, .push .BC 4⟩⟩]
  refine ⟨⟨s, hs, ((hset s hs).2 0xE8).2 (by decide)⟩, (hclaimed _).2 ?_, (hearlier _).2 ?_⟩
  · exact ⟨[⟨0xE8, .pop .AF 4⟩], ⟨0xC5, .push .BC 3⟩, [], .family .pop, rfl, ⟨by decide, by decide⟩,
      first?_eq_some_iff_taken.1 rfl, rfl⟩
  · exact ⟨[⟨0xE8, .pop .AF 4⟩], ⟨0xE8, .pop .AF 3⟩, [], .literal, rfl, ⟨by decide, by decide⟩,
      .literal (by decide) (by decide), rfl⟩

/-! ### batches -/

theorem ofEntries_append (origin : Origin) (l₁ l₂ : List Entry) :
    ofEntries origin (l₁ ++ l₂) = ofEntries origin l₁ ++ ofEntries origin l₂ :=
  List.map_append

/-- the admitted literals alone. -/
theorem entries_gather_decided (ls : List Entry) (claimed : List Claim) :
    Decides (clash? claimed (ofEntries .literal ls))
      (do return (← gather ls claimed).entries) (· = ls) :=
  (gather_decided ls claimed).map fun _ hs => hs

/-- **Literals admitted in two batches**: the first batch stands against the second as claims, in the
place that its literals have within one batch. -/
theorem gather_append (l₁ l₂ : List Entry) (claimed : List Claim) :
    (do return (← gather (l₁ ++ l₂) claimed).entries) =
      (do
        let s₁ ← gather l₁ claimed
        let s₂ ← gather l₂ (claimed ++ ofEntries .literal l₁)
        return s₁.entries ++ s₂.entries : Except ChartError (List Entry)) := by
  have hwhole := entries_gather_decided (l₁ ++ l₂) claimed
  rw [ofEntries_append, clash?_append] at hwhole
  refine hwhole.unique ((gather_decided l₁ claimed).bind fun s₁ h₁ => ?_)
  refine (gather_decided l₂ (claimed ++ ofEntries .literal l₁)).map fun s₂ h₂ => ?_
  rw [h₁, h₂]

end LiteralSet

namespace Draft

theorem addLiterals_decided (d : Draft) (ls : List Entry) :
    Decides (clash? d.claims (ofEntries .literal ls)) (d.addLiterals ls)
      (· = d.addAll .literal ls) :=
  (LiteralSet.gather_decided ls d.claims).map fun _ hs => congrArg (d.addAll .literal) hs

theorem addLiterals_append (d : Draft) (l₁ l₂ : List Entry) :
    d.addLiterals (l₁ ++ l₂) = d.addLiterals l₁ >>= fun d' => d'.addLiterals l₂ := by
  have hall : (d.addAll .literal l₁).addAll .literal l₂ = d.addAll .literal (l₁ ++ l₂) := by
    unfold addAll
    rw [List.map_append, List.append_assoc]
  have hwhole := d.addLiterals_decided (l₁ ++ l₂)
  rw [LiteralSet.ofEntries_append, clash?_append] at hwhole
  refine hwhole.unique ((d.addLiterals_decided l₁).bind fun d' hd => ?_)
  have h := d'.addLiterals_decided l₂
  rw [hd, hall] at h
  rw [hd]
  exact h

/-- **Literals may join a draft in any number of batches.** -/
theorem foldlM_addLiterals_eq (d : Draft) (batches : List (List Entry)) :
    batches.foldlM addLiterals d = d.addLiterals batches.flatten := by
  induction batches generalizing d with
  | nil =>
    have hnil : d.addAll .literal [] = d := congrArg Draft.mk (List.append_nil d.claims)
    exact congrArg Except.ok hnil.symm
  | cons ls batches ih =>
    rw [List.foldlM_cons, List.flatten_cons, addLiterals_append]
    exact congrArg (d.addLiterals ls >>= ·) (funext ih)

end Draft

namespace LiteralSet

/-- **Admission can be split into batches.**  Literals are admitted together exactly as in two batches
of which the second finds the first among the claims: with the same literals in the same order, or
with the same error, which is a collision with a literal; and literals join a draft alike in however
many batches. -/
theorem admitted_in_batches :
    (∀ l₁ l₂ claimed,
      (do return (← gather (l₁ ++ l₂) claimed).entries) =
        (do
          let s₁ ← gather l₁ claimed
          let s₂ ← gather l₂ (claimed ++ l₁.map fun e => ⟨.literal, e⟩)
          return s₁.entries ++ s₂.entries : Except ChartError (List Entry)) ∧
      ∀ err, gather (l₁ ++ l₂) claimed = .error err →
        ∃ opcode first, err = .collision opcode first .literal) ∧
    ∀ (d : Draft) (batches : List (List Entry)),
      batches.foldlM Draft.addLiterals d = d.addLiterals batches.flatten := by
  refine ⟨fun l₁ l₂ claimed => ⟨gather_append l₁ l₂ claimed, fun err h => ?_⟩,
    Draft.foldlM_addLiterals_eq⟩
  obtain ⟨_, e, _, first, -, -, -, rfl⟩ := gather_eq_error_iff.1 h
  exact ⟨e.opcode, first, rfl⟩

/-- beside an opcode that is claimed twice, a second batch with a literal of the first. -/
theorem admitted_in_batches_again :
    gather ([⟨0xE8, .pop .AF 4⟩] ++ [⟨0xE9, .pop .BC 4⟩, ⟨0xE8, .pop .AF 3⟩])
        [⟨.family .pop, ⟨0xC5, .pop .BC 3⟩⟩, ⟨.family .push, ⟨0xC5, .push .BC 4⟩⟩] =
      .error (.collision 0xE8 .literal .literal) ∧
    (do
      let s₁ ← gather [⟨0xE8, .pop .AF 4⟩]
        [⟨.family .pop, ⟨0xC5, .pop .BC 3⟩⟩, ⟨.family .push, ⟨0xC5, .push .BC 4⟩⟩]
      let s₂ ← gather [⟨0xE9, .pop .BC 4⟩, ⟨0xE8, .pop .AF 3⟩]
        [⟨.family .pop, ⟨0xC5, .pop .BC 3⟩⟩, ⟨.family .push, ⟨0xC5, .push .BC 4⟩⟩,
          ⟨.literal, ⟨0xE8, .pop .AF 4⟩⟩]
      return s₁.entries ++ s₂.entries) = .error (.collision 0xE8 .literal .literal) ∧
    ∃ opcode first, ChartError.collision 0xE8 .literal .literal = .collision opcode first .literal := by
  obtain ⟨hsplit, hcollision⟩ := admitted_in_batches.1 [⟨0xE8, .pop .AF 4⟩]
    [⟨0xE9, .pop .BC 4⟩, ⟨0xE8, .pop .AF 3⟩]
    [⟨.family .pop, ⟨0xC5, .pop .BC 3⟩⟩, ⟨.family .push, ⟨0xC5, .push .BC 4⟩⟩]
  have h : gather ([⟨0xE8, .pop .AF 4⟩] ++ [⟨0xE9, .pop .BC 4⟩, ⟨0xE8, .pop .AF 3⟩])
      [⟨.family .pop, ⟨0xC5, .pop .BC 3⟩⟩, ⟨.family .push, ⟨0xC5, .push .BC 4⟩⟩] =
    .error (.collision 0xE8 .literal .literal) := rfl
  rw [h] at hsplit
  exact ⟨h, hsplit.symm, hcollision _ h⟩

end LiteralSet

end OpcodeChart
