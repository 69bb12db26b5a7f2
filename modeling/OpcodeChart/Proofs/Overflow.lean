import OpcodeChart.Proofs.Codec

/-!
# Templates without overflows

That a computation ends without an overflow says little of the word operations on its way: which
were carried out, and with which operands?  A logged computation keeps a list of them, up to the one
that traps, if any does.  Functions over `WordOps` can run in it as they are, so the log of a function
is this function run in `Logged`.

The bounds of a field trap on a wide field, and shifts lose bits.  The check of a layout asks for a
mask only when the field lies inside the byte, so it never traps, whatever the fields; and the
fields that it lets pass keep every later word operation exact.

* `Step.Exact s`              the operation neither overflows nor loses a set bit;
* `Logged ε α`                an outcome, with the word operations that led to it;
* `Safe raise x y`            **`x` is a log of `y`, of exact operations alone, and no overflow ends
                              `y`**;
* `Safe.bind`, `Safe.foldlM`, `Safe.mapM`   safe computations put together;
* `Field.safe_mask`           a field inside the byte has an exact mask;
* `Template.safe_cover`       one step of the check, for any field;
* `Template.safe_place`       a value that is put into a sound field loses no bit;
* `Template.safe_extract`     a value that is read from a sound field neither;
* `Template.words_exact`      **checking, encoding and decoding never overflow**.
-/

namespace OpcodeChart

/-! ### logs of word operations -/

namespace Word.Step

/-- the operation neither overflows nor loses a set bit. -/
def Exact : Step → Prop
  | .add16 a b => a.toNat + b.toNat < UInt16.size
  | .sub16 a b => b.toNat ≤ a.toNat
  | .shl16 a count => count.toNat < 16 ∧ ∀ i, a.toNat.testBit i = true → i + count.toNat < 16
  | .shl8 a count => count.toNat < 8 ∧ ∀ i, a.toNat.testBit i = true → i + count.toNat < 8
  | .shr8 a count => count.toNat < 8 ∧ ∀ i, a.toNat.testBit i = true → count.toNat ≤ i

theorem Exact.exists_run {s : Step} (h : s.Exact) : ∃ a, s.run = .ok a := by
  cases s with
  | add16 a b => exact ⟨_, add16_eq_ok_iff.2 ⟨h, rfl⟩⟩
  | sub16 a b => exact ⟨_, sub16_eq_ok_iff.2 ⟨UInt16.le_iff_toNat_le.2 h, rfl⟩⟩
  | shl16 a count => exact ⟨_, shl16_eq_ok_iff.2 ⟨h.1, rfl⟩⟩
  | shl8 a count => exact ⟨_, shl8_eq_ok_iff.2 ⟨h.1, rfl⟩⟩
  | shr8 a count => exact ⟨_, shr8_eq_ok_iff.2 ⟨h.1, rfl⟩⟩

end Word.Step

open Word (Step)

/-- an outcome, with the word operations that led to it. -/
structure Logged (ε α : Type) where
  steps : List Step
  outcome : Except ε α

namespace Logged

variable {ε α β : Type}

/-- what follows an error is not carried out. -/
protected def bind (x : Logged ε α) (f : α → Logged ε β) : Logged ε β :=
  match x.outcome with
  | .ok a => ⟨x.steps ++ (f a).steps, (f a).outcome⟩
  | .error e => ⟨x.steps, .error e⟩

instance : Monad (Logged ε) where
  pure a := ⟨[], .ok a⟩
  bind := Logged.bind

instance : LawfulMonad (Logged ε) := by
  refine LawfulMonad.mk' (Logged ε) (fun x => ?_) (fun a f => rfl) (fun x f g => ?_)
  · obtain ⟨steps, e | a⟩ := x
    · rfl
    · show Logged.mk (steps ++ []) (.ok a) = _
      rw [List.append_nil]
  · obtain ⟨steps, e | a⟩ := x
    · rfl
    · show Logged.bind ⟨steps ++ (f a).steps, (f a).outcome⟩ g =
        ⟨steps ++ (Logged.bind (f a) g).steps, (Logged.bind (f a) g).outcome⟩
      obtain ⟨steps', e | b⟩ := f a
      · rfl
      · show Logged.mk (steps ++ steps' ++ (g b).steps) _ = ⟨steps ++ (steps' ++ (g b).steps), _⟩
        rw [List.append_assoc]
        rfl

instance : WordOps Logged where
  step s := ⟨[s], s.run⟩
  fail e := ⟨[], .error e⟩
  raise error x := ⟨x.steps, WordOps.raise error x.outcome⟩

end Logged

/-- `x` is a log of `y`, of exact operations alone, and no overflow ends `y`.  Computations with an
error of their own raise an overflow as one of these. -/
structure Safe {ε α : Type} (raise : Overflow → ε) (x : Logged ε α) (y : Except ε α) : Prop where
  outcome : x.outcome = y
  steps : ∀ s ∈ x.steps, s.Exact
  ends : ∀ cause, y ≠ .error (raise cause)

namespace Safe

variable {ε α β : Type} {raise : Overflow → ε}

theorem exists_ok {x : Logged Overflow α} {y : Except Overflow α} (h : Safe id x y) :
    ∃ a, y = .ok a := by
  cases y with
  | ok a => exact ⟨a, rfl⟩
  | error cause => exact absurd rfl (h.ends cause)

theorem pure (a : α) : Safe raise (Pure.pure a) (.ok a) :=
  ⟨rfl, List.forall_mem_nil _, fun _ h => nomatch h⟩

theorem fail {e : ε} (h : ∀ cause, e ≠ raise cause) :
    Safe raise (WordOps.fail e : Logged ε α) (WordOps.fail e) :=
  ⟨rfl, List.forall_mem_nil _, fun cause he => h cause (Except.error.inj he)⟩

theorem step {s : Step} (h : s.Exact) : Safe id (WordOps.step s) (WordOps.step s) := by
  refine ⟨rfl, List.forall_mem_singleton.2 h, fun cause he => ?_⟩
  obtain ⟨a, ha⟩ := h.exists_run
  cases ha.symm.trans he

/-- what follows is carried out only on a result. -/
theorem bind {x : Logged ε α} {y : Except ε α} {f : α → Logged ε β} {g : α → Except ε β}
    (h : Safe raise x y) (hf : ∀ a, y = .ok a → Safe raise (f a) (g a)) :
    Safe raise (x >>= f) (y >>= g) := by
  obtain ⟨steps, outcome⟩ := x
  obtain rfl : outcome = y := h.outcome
  cases outcome with
  | error e =>
    refine ⟨rfl, h.steps, fun cause he => h.ends cause ?_⟩
    exact congrArg Except.error (Except.error.inj he)
  | ok a =>
    have ha := hf a rfl
    refine ⟨ha.outcome, fun s hs => ?_, ha.ends⟩
    rcases List.mem_append.1 hs with hs | hs
    · exact h.steps s hs
    · exact ha.steps s hs

theorem foldlM {f : β → α → Logged ε β} {g : β → α → Except ε β} {as : List α}
    (h : ∀ a ∈ as, ∀ b, Safe raise (f b a) (g b a)) (b : β) :
    Safe raise (as.foldlM f b) (as.foldlM g b) := by
  induction as generalizing b with
  | nil => exact pure b
  | cons a as ih =>
    obtain ⟨ha, has⟩ := List.forall_mem_cons.1 h
    rw [List.foldlM_cons, List.foldlM_cons]
    exact (ha b).bind fun b' _ => ih has b'

theorem mapM {f : α → Logged ε β} {g : α → Except ε β} {as : List α}
    (h : ∀ a ∈ as, Safe raise (f a) (g a)) : Safe raise (as.mapM f) (as.mapM g) := by
  induction as with
  | nil => exact pure []
  | cons a as ih =>
    obtain ⟨ha, has⟩ := List.forall_mem_cons.1 h
    rw [List.mapM_cons, List.mapM_cons]
    exact ha.bind fun b _ => (ih has).bind fun bs _ => pure (b :: bs)

end Safe

/-! ### the bounds of a field -/

namespace Field

variable {f : Field}

theorem safe_ones (h : f.width.toNat < 16) : Safe id f.onesM f.ones := by
  have hone (i : Nat) (hi : (1 : UInt16).toNat.testBit i = true) : i + f.width.toNat < 16 := by
    have h0 : i = 0 := Nat.testBit_one_eq_true_iff_self_eq_zero.1 hi
    omega
  refine .bind (.step (s := .shl16 1 f.width) ⟨h, hone⟩) fun top htop =>
    .step (s := .sub16 top 1) ?_
  -- the difference exists, so it does not go below zero
  obtain ⟨ones, ho, -⟩ := exists_ones h
  obtain ⟨top', htop', hsub⟩ := bind_eq_ok_iff.1 ho
  cases htop.symm.trans htop'
  exact UInt16.le_iff_toNat_le.1 (Word.sub16_eq_ok_iff.1 hsub).1

theorem safe_maxValue (h : f.width.toNat < 16) : Safe id f.maxValueM f.maxValue :=
  .bind (safe_ones h) fun ones _ => .pure ones.toUInt8

/-- **A field inside the byte has an exact mask.** -/
theorem safe_mask (h : f.offset.toNat + f.width.toNat ≤ 8) : Safe id f.maskM f.mask := by
  refine .bind (safe_ones (by omega)) fun ones ho => ?_
  obtain ⟨-, hones⟩ := ones_eq_ok_iff.1 ho
  refine .bind (.step (s := .shl16 ones f.offset) ⟨by omega, fun i hi => ?_⟩) fun placed _ =>
    .pure placed.toUInt8
  rw [hones, Nat.testBit_two_pow_sub_one, decide_eq_true_eq] at hi
  omega

end Field

namespace Template

/-! ### the check -/

theorem safe_trap {α : Type} {x : Logged Overflow α} {y : Except Overflow α} (h : Safe id x y) :
    Safe Fault.overflow (trap x) (trap y) := by
  obtain ⟨a, rfl⟩ := h.exists_ok
  exact ⟨congrArg trap h.outcome, h.steps, fun _ he => nomatch he⟩

/-- **One step of the check**: the mask is asked for only of a field inside the byte. -/
theorem safe_cover (covered : UInt8) (f : Field) :
    Safe Fault.overflow (coverM covered f) (cover covered f) := by
  unfold cover coverM
  split
  · exact .fail nofun
  · refine .bind (safe_trap (.step (s := .add16 f.offset.toUInt16 f.width.toUInt16) ?_))
      fun reach hreach => ?_
    · have ho := f.offset.toNat_lt
      have hw := f.width.toNat_lt
      show f.offset.toUInt16.toNat + f.width.toUInt16.toNat < 65536
      rw [UInt8.toNat_toUInt16, UInt8.toNat_toUInt16]
      omega
    · split
      · exact .fail nofun
      · next hin =>
        split
        · exact .fail nofun
        · have hle : f.offset.toNat + f.width.toNat ≤ 8 := by
            obtain ⟨reach', hr, e⟩ := exists_reach f
            cases (trap_eq_ok_iff.1 hreach).symm.trans hr
            rw [UInt16.lt_iff_toNat_lt, e] at hin
            exact Nat.not_lt.1 hin
          refine .bind (safe_trap (Field.safe_mask hle)) fun mask _ => ?_
          split
          · exact .fail nofun
          · exact .pure _

theorem safe_check (fixed : UInt8) (fields : List Field) :
    Safe Fault.overflow (checkM fixed fields) (check fixed fields) := by
  refine .bind (.foldlM (fun f _ covered => safe_cover covered f) 0) fun covered _ => ?_
  split
  · exact .fail nofun
  · exact .pure ()

theorem ofFields_ne_overflow (fixed : UInt8) (fields : List Field) (cause : Overflow) :
    ofFields fixed fields ≠ .error (.overflow cause) :=
  fun h => (safe_check fixed fields).ends cause (ofFields_eq_error_iff.1 h)

/-! ### the masks of a template -/

theorem safe_fieldMask (t : Template) : Safe id t.fieldMaskM t.fieldMask :=
  .foldlM (fun f hf covered => .bind (Field.safe_mask (t.layout.sound f hf).inside) fun mask _ =>
    .pure (covered ||| mask)) 0

theorem safe_fixedMask (t : Template) : Safe id t.fixedMaskM t.fixedMask :=
  .bind t.safe_fieldMask fun covered _ => .pure (~~~covered)

/-! ### encoding -/

/-- **A value that is put into a sound field loses no bit**: one that would is rejected before the
shift. -/
theorem safe_place {f : Field} (hs : f.Sound) (opcode value : UInt8) :
    Safe Fault.overflow (placeM opcode f value) (place opcode f value) := by
  have hin := hs.inside
  refine .bind (safe_trap (Field.safe_maxValue (by omega))) fun largest hl => ?_
  split
  · exact .fail nofun
  · next hle =>
    rw [hs.maxValue_lt_iff (trap_eq_ok_iff.1 hl), Nat.not_le] at hle
    refine .bind (safe_trap (.step (s := .shl8 value f.offset) ⟨hs.offset_lt, fun i hi => ?_⟩))
      fun placed _ => .pure (opcode ||| placed)
    have hlt : i < f.width.toNat := by
      by_contra hge
      rw [Word.lt_two_pow_iff.1 hle i (Nat.le_of_not_lt hge)] at hi
      cases hi
    omega

theorem safe_encode (t : Template) (values : List UInt8) :
    Safe Fault.overflow (t.encodeM values) (t.encode values) := by
  unfold encode encodeM
  split
  · exact .fail nofun
  · exact .foldlM (fun p hp opcode => safe_place (sound_of_mem_zip hp) opcode p.2) t.fixed

/-! ### decoding -/

/-- a value that is read from a sound field loses no bit: those below the field are masked. -/
theorem safe_extract {f : Field} (hs : f.Sound) (opcode : UInt8) :
    Safe id (extractM opcode f) (extract opcode f) := by
  refine .bind (Field.safe_mask hs.inside) fun mask hm =>
    .step (s := .shr8 (opcode &&& mask) f.offset) ⟨hs.offset_lt, fun i hi => ?_⟩
  obtain ⟨-, -, hbits⟩ := Field.mask_eq_ok_iff.1 hm
  rw [Word.bit_and, hbits, Bool.and_eq_true, Bool.and_eq_true, decide_eq_true_eq,
    decide_eq_true_eq] at hi
  obtain ⟨-, -, hcov⟩ := hi
  exact hcov.1

theorem safe_decode (t : Template) (opcode : UInt8) :
    Safe id (t.decodeM opcode) (t.decode opcode) := by
  refine .bind t.safe_fixedMask fun fixedBits _ => ?_
  split
  · exact .pure none
  · exact .bind (.mapM fun f hf => safe_extract (t.layout.sound f hf) opcode) fun values _ =>
      .pure (some values)

/-- **Checking, encoding and decoding never overflow.**  The check, run with a log, carries out exact
operations alone for every pattern and all fields, so fields make a template or are rejected for a
fault of their own.  For the fields of a template the same holds of the largest values, of both masks,
of the encoding of every list of values and of the decoding of every opcode: no sum and no difference
leaves its word, no count reaches the width of the word that is shifted, and no set bit is shifted
out. -/
theorem words_exact (fixed : UInt8) (fields : List Field) :
    Safe Fault.overflow (checkM fixed fields) (check fixed fields) ∧
    (∀ cause, ofFields fixed fields ≠ .error (.overflow cause)) ∧
    ∀ t, ofFields fixed fields = .ok t →
      (∀ f ∈ fields, Safe id f.maxValueM f.maxValue ∧ ∃ m, f.maxValue = .ok m) ∧
      (Safe id t.fieldMaskM t.fieldMask ∧ ∃ m, t.fieldMask = .ok m) ∧
      (Safe id t.fixedMaskM t.fixedMask ∧ ∃ k, t.fixedMask = .ok k) ∧
      (∀ vs, Safe Fault.overflow (t.encodeM vs) (t.encode vs)) ∧
      ∀ opcode, Safe id (t.decodeM opcode) (t.decode opcode) ∧
        ∃ r, t.decode opcode = .ok r := by
  refine ⟨safe_check fixed fields, ofFields_ne_overflow fixed fields, fun t ht => ?_⟩
  obtain ⟨rfl, rfl⟩ := ofFields_eq_ok_iff.1 ht
  refine ⟨fun f hf => ?_, ?_, ?_, t.safe_encode, fun opcode => ?_⟩
  · have hin := (t.layout.sound f hf).inside
    have h : Safe id f.maxValueM f.maxValue := Field.safe_maxValue (by omega)
    exact ⟨h, h.exists_ok⟩
  · exact ⟨t.safe_fieldMask, t.safe_fieldMask.exists_ok⟩
  · exact ⟨t.safe_fixedMask, t.safe_fixedMask.exists_ok⟩
  · exact ⟨t.safe_decode opcode, (t.safe_decode opcode).exists_ok⟩

/-- the word operations of an encoding: for each field its largest value, then the placed value. -/
theorem words_exact_gapped :
    ∃ t, ofFields 0b00100001 [.ofSelector 6 .stackPair, .ofSelector 1 .register] = .ok t ∧
      (∃ k, t.fixedMask = .ok k) ∧
      ∀ s ∈ [Word.Step.shl16 1 2, .sub16 4 1, .shl8 2 6, .shl16 1 3, .sub16 8 1, .shl8 5 1],
        s.Exact := by
  have h : ofFields 0b00100001 [.ofSelector 6 .stackPair, .ofSelector 1 .register]
      = .ok ⟨0b00100001, [.ofSelector 6 .stackPair, .ofSelector 1 .register], rfl⟩ := rfl
  obtain ⟨-, -, hsafe⟩ := words_exact 0b00100001
    [.ofSelector 6 .stackPair, .ofSelector 1 .register]
  obtain ⟨-, -, hfixed, hencode, -⟩ := hsafe _ h
  exact ⟨_, h, hfixed.2, (hencode [2, 5]).steps⟩

/-- a field too wide for its mask is rejected before the mask is asked for. -/
example : Field.mask ⟨0, 16, .register⟩ = .error .shiftLeft ∧
    ofFields 0 [⟨0, 16, .register⟩] = .error (.outOfRange 0 16) := ⟨rfl, rfl⟩

end Template

end OpcodeChart
