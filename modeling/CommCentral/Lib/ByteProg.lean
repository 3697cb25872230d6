import Mathlib.Data.List.Basic

/-!
# Programs that read a byte stream

A `Prog ε α` reads bytes with one byte of push-back, emits values of type `ε`
and ends with a value of type `α`.  It is a tree of what the program can see:
there is a branch for every byte and one for the end of the stream.  `stuck` is
a loop that has run out of its bound.

A program knows the stream only through the bytes that it gets.  So a run that
does not meet the end of the stream is the same run when the stream goes on
(`run_append`), whatever the program is.
-/

namespace ByteStream

open Option

/-- A program that reads bytes. -/
inductive Prog (ε α : Type) : Type where
  | done (a : α)
  | stuck
  /-- The next byte, or `none` at the end of the stream. -/
  | getc (k : Option UInt8 → Prog ε α)
  /-- A byte is pushed back.  A null byte is not pushed back. -/
  | ungetc (c : UInt8) (p : Prog ε α)
  | emit (e : ε) (p : Prog ε α)

namespace Prog

variable {ε α β γ : Type}

def bind : Prog ε α → (α → Prog ε β) → Prog ε β
  | done a, f => f a
  | stuck, _ => stuck
  | getc k, f => getc fun c => (k c).bind f
  | ungetc c p, f => ungetc c (p.bind f)
  | emit e p, f => emit e (p.bind f)

instance : Monad (Prog ε) where
  pure := done
  bind := bind

/-- `Getc`. -/
def get : Prog ε (Option UInt8) := getc done

/-- `Ungetc`. -/
def unget (c : UInt8) : Prog ε Unit := ungetc c (done ())

def put (e : ε) : Prog ε Unit := emit e (done ())

structure Result (ε α : Type) where
  value : α
  out : List ε
  rest : List UInt8
  hitEof : Bool
  deriving DecidableEq, Repr

def Result.andThen (r : Result ε α) (r' : Result ε β) : Result ε β :=
  ⟨r'.value, r.out ++ r'.out, r'.rest, r.hitEof || r'.hitEof⟩

open Result

/-- A start that emits nothing leaves the result as it is. -/
@[simp] theorem Result.andThen_start (a : α) (s : List UInt8) :
    andThen (⟨a, [], s, false⟩ : Result ε α) = (id : Result ε β → Result ε β) := by
  funext r
  simp [andThen]

section

variable (a : Result ε α) (b : Result ε β)

@[simp] theorem Result.andThen_value : (a.andThen b).value = b.value := rfl

@[simp] theorem Result.andThen_rest : (a.andThen b).rest = b.rest := rfl

@[simp] theorem Result.andThen_andThen :
    andThen (a.andThen b) =
      (a.andThen ∘ b.andThen : Result ε γ → Result ε γ) := by
  funext c
  simp [andThen, Bool.or_assoc]

end

/-- The run of a program, `none` if it gets stuck. -/
def run : Prog ε α → List UInt8 → Option (Result ε α)
  | done a, s => some ⟨a, [], s, false⟩
  | stuck, _ => none
  | getc k, [] => ((k none).run []).map fun r => { r with hitEof := true }
  | getc k, c :: s => (k (some c)).run s
  | ungetc c p, s => p.run (if c = 0 then s else c :: s)
  | emit e p, s => (p.run s).map fun r => { r with out := e :: r.out }

/-! ## Runs of composed programs -/

@[simp] theorem run_pure (a : α) (s : List UInt8) :
    (pure a : Prog ε α).run s = some ⟨a, [], s, false⟩ := rfl

@[simp] theorem run_stuck (s : List UInt8) : (stuck : Prog ε α).run s = none := by
  cases s <;> rfl

@[simp] theorem run_get_nil : (get : Prog ε (Option UInt8)).run [] = some ⟨none, [], [], true⟩ := rfl

@[simp] theorem run_get_cons (c : UInt8) (s : List UInt8) :
    (get : Prog ε (Option UInt8)).run (c :: s) = some ⟨some c, [], s, false⟩ := rfl

@[simp] theorem run_unget (c : UInt8) (s : List UInt8) :
    (unget c : Prog ε Unit).run s = some ⟨(), [], if c = 0 then s else c :: s, false⟩ := by
  cases s <;> rfl

@[simp] theorem run_put (e : ε) (s : List UInt8) :
    (put e).run s = some ⟨(), [e], s, false⟩ := by
  cases s <;> rfl

theorem bind_eq (p : Prog ε α) (f : α → Prog ε β) : p >>= f = p.bind f := rfl

/-- A composed run is the run of the second program on what the first leaves. -/
@[simp] theorem run_bind (p : Prog ε α) (f : α → Prog ε β) (s : List UInt8) :
    (p >>= f).run s =
      (p.run s).bind fun r => ((f r.value).run r.rest).map r.andThen := by
  rw [bind_eq]
  induction p generalizing s with
  | done a =>
    cases s <;> simp [bind, run]
  | stuck => cases s <;> rfl
  | getc k ih =>
    cases s with
    | nil =>
      rw [bind, run, ih, run, map_bind, bind_map]
      congr 1
      funext r
      cases h : (f r.value).run r.rest <;> simp [andThen, h]
    | cons c s => exact ih (some c) s
  | ungetc c p ih =>
    rw [bind, run, ih, run]
  | emit e p ih =>
    rw [bind, run, ih, run, map_bind, bind_map]
    congr 1
    funext r
    cases h : (f r.value).run r.rest <;> simp [andThen, h]

/-! ## Locality -/

/-- A run that does not meet the end of the stream is the same when the stream
goes on. -/
theorem run_append {p : Prog ε α} {s : List UInt8} {r : Result ε α} (h : p.run s = some r)
    (heof : r.hitEof = false) (t : List UInt8) :
    p.run (s ++ t) = some { r with rest := r.rest ++ t } := by
  induction p generalizing s r with
  | done a =>
    cases s <;> cases h <;> cases t <;> rfl
  | stuck => cases s <;> cases h
  | getc k ih =>
    cases s with
    | nil =>
      rw [run, map_eq_some_iff] at h
      obtain ⟨r', -, rfl⟩ := h
      cases heof
    | cons c s => exact ih (some c) h heof
  | ungetc c p ih =>
    rw [run] at h ⊢
    have h' := ih h heof
    by_cases hc : c = 0
    · rwa [if_pos hc] at h' ⊢
    · rwa [if_neg hc] at h' ⊢
  | emit e p ih =>
    rw [run, map_eq_some_iff] at h
    obtain ⟨r', hr', rfl⟩ := h
    rw [run, ih hr' heof]
    rfl

end Prog

/-! ## Functions of the whole stream -/

/-- A function of the stream that may also look at its position, that is, at all
the bytes that are left. -/
def Scan (ε α : Type) : Type := List UInt8 → Option (Prog.Result ε α)

namespace Scan

variable {ε α : Type}

instance : Monad (Scan ε) where
  pure a := fun s => some ⟨a, [], s, false⟩
  bind p f := fun s => (p s).bind fun r => (f r.value r.rest).map r.andThen

instance : LawfulMonad (Scan ε) := by
  refine LawfulMonad.mk' _ ?_ ?_ ?_
  · intro α p
    funext s
    show ((p s).bind fun r => (some ⟨r.value, [], r.rest, false⟩).map r.andThen) = p s
    cases p s <;> simp [Prog.Result.andThen]
  · intro α β a f
    funext s
    show (f a s).map (Prog.Result.andThen ⟨a, [], s, false⟩) = f a s
    simp
  · intro α β γ p f g
    funext s
    show (((p s).bind fun r => (f r.value r.rest).map r.andThen).bind fun r =>
        (g r.value r.rest).map r.andThen) =
      (p s).bind fun r => ((f r.value r.rest).bind fun r' =>
        (g r'.value r'.rest).map r'.andThen).map r.andThen
    cases p s with
    | none => rfl
    | some r =>
      cases hf : f r.value r.rest with
      | none => simp [hf]
      | some r' =>
        simp only [bind_some, map_some, hf, map_map]
        rw [Prog.Result.andThen_andThen]
        rfl

def tell : Scan ε (List UInt8) := fun s => some ⟨s, [], s, false⟩

def seek (pos : List UInt8) : Scan ε Unit := fun _ => some ⟨(), [], pos, false⟩

end Scan

end ByteStream
