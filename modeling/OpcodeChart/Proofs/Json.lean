import OpcodeChart.Proofs.Text

/-!
# One value to a JSON text

The texts of `Text.Json` are those of a small sort of values: strings that need no escape, bytes,
and objects with their members in order.  No two values have one text.  Each value ends where its
own text says, if no digit follows: a string at its second quote, a byte before the first character
that is no digit, an object at the brace of its own level.

* `Text.Json.Value`, `Value.text`     values and their texts;
* `Members.ofList`, `Members.keys`    members from a list of them, and their keys;
* `Value.Legible`, `Members.Legible`  the text of a value, or of the members behind the first, shows
                                      what it is the text of, and where it ends;
* `Value.legible`                     **every value is legible**;
* `Value.text_injective`              **values with one text are equal**.
-/

namespace OpcodeChart.Text.Json

/-! ### values -/

/-- does each character stand for itself, without an escape? -/
def Plain (s : String) : Prop := ∀ c ∈ s.toList, ' ' ≤ c ∧ c ≠ '"' ∧ c ≠ '\\'

instance (s : String) : Decidable (Plain s) := List.decidableBAll _ s.toList

/-- a string that needs no escape. -/
@[ext] structure Word where
  text : String
  plain : Plain text

/-- a string that is seen to need no escape. -/
def Word.of (s : String) (h : Plain s := by decide) : Word := ⟨s, h⟩

theorem plain_decimal (b : UInt8) : Plain (decimal b) := by
  intro c hc
  have hdigit := isDigit_of_mem_decimal hc
  refine ⟨?_, ?_, ?_⟩
  · exact Nat.le_trans (by decide) (Char.isDigit_iff_toNat.1 hdigit).1
  · rintro rfl
    cases hdigit
  · rintro rfl
    cases hdigit

def Word.ofDecimal (b : UInt8) : Word := ⟨decimal b, plain_decimal b⟩

mutual

inductive Value
  | word (w : Word)
  | byte (b : UInt8)
  | object (members : Members)

inductive Members
  | nil
  | cons (key : Word) (value : Value) (later : Members)

end

mutual

def Value.text : Value → String
  | .word w => quoted w.text
  | .byte b => decimal b
  | .object members => object members.texts

/-- the keys and the texts of the members, in order. -/
def Members.texts : Members → List (String × String)
  | .nil => []
  | .cons key value later => (key.text, value.text) :: later.texts

end

namespace Members

def ofList : List (Word × Value) → Members
  | [] => .nil
  | m :: ms => .cons m.1 m.2 (ofList ms)

def keys : Members → List String
  | .nil => []
  | .cons key _ later => key.text :: later.keys

theorem texts_ofList (ms : List (Word × Value)) :
    (ofList ms).texts = ms.map fun m => (m.1.text, m.2.text) := by
  induction ms with
  | nil => rfl
  | cons m ms ih => rw [ofList, texts, ih, List.map_cons]

theorem keys_ofList (ms : List (Word × Value)) : (ofList ms).keys = ms.map fun m => m.1.text := by
  induction ms with
  | nil => rfl
  | cons m ms ih => rw [ofList, keys, ih, List.map_cons]

theorem ofList_injective {ms ns : List (Word × Value)} (h : ofList ms = ofList ns) : ms = ns := by
  induction ms generalizing ns with
  | nil => cases ns with
    | nil => rfl
    | cons n ns => cases h
  | cons m ms ih => cases ns with
    | nil => cases h
    | cons n ns =>
      obtain ⟨hk, hv, hl⟩ := Members.cons.inj h
      rw [Prod.ext hk hv, ih hl]

end Members

/-- the end of an object behind its first member. -/
def closing (members : List (String × String)) : List Char :=
  members.flatMap (fun m => ',' :: (member m.1 m.2).toList) ++ ['}']

theorem closing_cons (m : String × String) (members : List (String × String)) :
    closing (m :: members) = ',' :: ((member m.1 m.2).toList ++ closing members) := by
  simp [closing]

theorem toList_object_cons (m : String × String) (members : List (String × String)) :
    (object (m :: members)).toList = '{' :: ((member m.1 m.2).toList ++ closing members) := by
  simp [object, closing, String.toList_intercalate, intercalate_cons_flatMap, List.flatMap_map]

theorem toList_object_nil : (object []).toList = ['{', '}'] := rfl

theorem toList_member (key value : String) :
    (member key value).toList = (quoted key).toList ++ ':' :: value.toList := by
  simp [member]

/-! ### where a value ends -/

/-- a text that begins with the text of `v`, and not with a longer number, is read as `v`. -/
def Value.Legible (v : Value) : Prop :=
  ∀ (w : Value) (r s : List Char), Stops Char.isDigit r → Stops Char.isDigit s →
    v.text.toList ++ r = w.text.toList ++ s → v = w ∧ r = s

/-- so are members that end an object. -/
def Members.Legible (ms : Members) : Prop :=
  ∀ (ns : Members) (r s : List Char),
    closing ms.texts ++ r = closing ns.texts ++ s → ms = ns ∧ r = s

theorem quoted_append_inj {k l : Word} {r s : List Char}
    (h : (quoted k.text).toList ++ r = (quoted l.text).toList ++ s) : k = l ∧ r = s := by
  have hword : ∀ w : Word, ∀ c ∈ w.text.toList, (c != '"') = true := by
    intro w c hc
    exact bne_iff_ne.2 (w.plain c hc).2.1
  simp only [toList_quoted, List.cons_append, List.append_assoc, List.nil_append] at h
  obtain ⟨ht, hr⟩ := run_append_inj (hword k) (hword l) (stops_cons rfl r) (stops_cons rfl s)
    (List.cons.inj h).2
  exact ⟨Word.ext (String.toList_inj.1 ht), (List.cons.inj hr).2⟩

/-- what follows a member is no digit. -/
theorem stops_closing (ms : List (String × String)) (r : List Char) :
    Stops Char.isDigit (closing ms ++ r) := by
  cases ms with
  | nil => exact stops_cons rfl _
  | cons m ms => rw [closing_cons]; exact stops_cons rfl _

/-- behind the opening brace, the first member stands as behind a comma. -/
theorem closing_eq_of_object_eq {ms ns : List (String × String)} {r s : List Char}
    (h : (object ms).toList ++ r = (object ns).toList ++ s) :
    closing ms ++ r = closing ns ++ s := by
  -- a member starts with a quote, so the end of an empty object is the start of no member
  have hquote : ∀ (m : String × String) (rest : List Char) (c : Char) (s : List Char),
      (member m.1 m.2).toList ++ rest = c :: s → c = '"' := by
    intro m rest c s h
    rw [toList_member, toList_quoted] at h
    exact (List.cons.inj h).1.symm
  cases ms with
  | nil => cases ns with
    | nil => exact (List.cons.inj h).2
    | cons n ns =>
      rw [toList_object_cons, List.cons_append, List.append_assoc] at h
      cases hquote n _ _ _ (List.cons.inj h).2.symm
  | cons m ms => cases ns with
    | nil =>
      rw [toList_object_cons, List.cons_append, List.append_assoc] at h
      cases hquote m _ _ _ (List.cons.inj h).2
    | cons n ns =>
      rw [toList_object_cons, toList_object_cons] at h
      rw [closing_cons, closing_cons]
      exact congrArg (',' :: ·) (List.cons.inj h).2

/-- the first character tells the sort of a value. -/
theorem Value.exists_text_eq_cons (v : Value) : ∃ c rest, v.text.toList = c :: rest ∧
    match v with
    | .word _ => c = '"'
    | .byte _ => c.isDigit = true
    | .object _ => c = '{' := by
  cases v with
  | word k => exact ⟨'"', _, toList_quoted k.text, rfl⟩
  | byte b =>
    obtain ⟨c, rest, hc⟩ : ∃ c rest, (decimal b).toList = c :: rest := by
      apply List.exists_cons_of_ne_nil
      rw [toList_decimal]
      exact Nat.toDigits_ne_nil
    refine ⟨c, rest, hc, isDigit_of_mem_decimal (b := b) ?_⟩
    rw [hc]
    exact List.mem_cons_self
  | object ms => cases ms with
    | nil => exact ⟨'{', _, toList_object_nil, rfl⟩
    | cons k v ms => exact ⟨'{', _, toList_object_cons _ _, rfl⟩

/-- texts that go on differently begin with one character. -/
theorem Value.head_eq {v w : Value} {r s : List Char}
    (h : v.text.toList ++ r = w.text.toList ++ s) {c d : Char} {rest rest' : List Char}
    (hv : v.text.toList = c :: rest) (hw : w.text.toList = d :: rest') : c = d := by
  rw [hv, hw] at h
  exact (List.cons.inj h).1

/-! ### one case for each sort of value -/

theorem Value.legible_word (k : Word) : (Value.word k).Legible := by
  intro w r s _ _ h
  obtain ⟨c, rest, hw, hc⟩ := w.exists_text_eq_cons
  have hhead := head_eq h (toList_quoted k.text) hw
  cases w with
  | word l =>
    obtain ⟨rfl, rfl⟩ := quoted_append_inj h
    exact ⟨rfl, rfl⟩
  | byte b => rw [← hhead] at hc; cases hc
  | object ms => rw [← hhead] at hc; cases hc

theorem Value.legible_byte (b : UInt8) : (Value.byte b).Legible := by
  intro w r s hr hs h
  obtain ⟨c, rest, hv, hc⟩ := (Value.byte b).exists_text_eq_cons
  obtain ⟨d, rest', hw, hd⟩ := w.exists_text_eq_cons
  obtain rfl := head_eq h hv hw
  cases w with
  | word l => subst hd; cases hc
  | byte a =>
    obtain ⟨htext, hrest⟩ := run_append_inj (fun _ => isDigit_of_mem_decimal)
      (fun _ => isDigit_of_mem_decimal) hr hs h
    obtain rfl := decimal_injective (String.toList_inj.1 htext)
    exact ⟨rfl, hrest⟩
  | object ms => subst hd; cases hc

/-- an object is legible if its members are. -/
theorem Value.legible_object {ms : Members} (hms : ms.Legible) : (Value.object ms).Legible := by
  intro w r s _ _ h
  obtain ⟨c, rest, hv, hc⟩ := (Value.object ms).exists_text_eq_cons
  obtain ⟨d, rest', hw, hd⟩ := w.exists_text_eq_cons
  obtain rfl := head_eq h hv hw
  subst hc
  cases w with
  | word l => cases hd
  | byte a => cases hd
  | object ns =>
    obtain ⟨rfl, rfl⟩ := hms ns r s (closing_eq_of_object_eq h)
    exact ⟨rfl, rfl⟩

theorem Members.legible_nil : Members.nil.Legible := by
  intro ns r s h
  cases ns with
  | nil => exact ⟨rfl, (List.cons.inj h).2⟩
  | cons k v ns => cases (List.cons.inj h).1

theorem Members.legible_cons {k : Word} {v : Value} {ms : Members} (hv : v.Legible)
    (hms : ms.Legible) : (Members.cons k v ms).Legible := by
  intro ns r s h
  cases ns with
  | nil => cases (List.cons.inj h).1
  | cons l w ns =>
    simp only [texts, closing_cons, toList_member, List.cons_append, List.append_assoc] at h
    obtain ⟨rfl, hvalue⟩ := quoted_append_inj (List.cons.inj h).2
    obtain ⟨rfl, hlater⟩ :=
      hv w _ _ (stops_closing _ r) (stops_closing _ s) (List.cons.inj hvalue).2
    obtain ⟨rfl, rfl⟩ := hms ns r s hlater
    exact ⟨rfl, rfl⟩

mutual

/-- **Every value is legible.** -/
theorem Value.legible : ∀ v : Value, v.Legible
  | .word k => Value.legible_word k
  | .byte b => Value.legible_byte b
  | .object ms => Value.legible_object ms.legible

theorem Members.legible : ∀ ms : Members, ms.Legible
  | .nil => Members.legible_nil
  | .cons _ v ms => Members.legible_cons v.legible ms.legible

end

/-- **Values with one text are equal.** -/
theorem Value.text_injective {v w : Value} (h : v.text = w.text) : v = w := by
  have hnil : Stops Char.isDigit [] := fun _ hc => (nomatch hc)
  exact (v.legible w [] [] hnil hnil (by rw [h])).1

end OpcodeChart.Text.Json
