import Mathlib.Control.Basic

/-!
# Programs of atomic steps

A thread is a finite tree of atomic steps on a shared state `σ`. A step reads the state it
fires in, replaces it, may emit an event, and goes on with a program chosen by the state it
read. Loops that the source leaves unbounded carry a fuel argument (`iter`); a thread whose
fuel runs out stops for good, which is what a thread that is never scheduled again does, so a
property of every fuel is a property of every finite prefix of the unbounded program.
-/

namespace Conc

/-- A program over the shared state `σ` with events `ε`, returning an `α`. -/
inductive Prog (σ ε α : Type) : Type where
  | ret (a : α)
  | halt
  | step (ev : σ → Option ε) (upd : σ → σ) (k : σ → Prog σ ε α)

namespace Prog

variable {σ ε α β γ : Type}

def bind : Prog σ ε α → (α → Prog σ ε β) → Prog σ ε β
  | ret a, f => f a
  | halt, _ => halt
  | step ev upd k, f => step ev upd fun s => bind (k s) f

instance : Monad (Prog σ ε) where
  pure := ret
  bind := bind

@[simp] theorem pure_eq (a : α) : (pure a : Prog σ ε α) = ret a := rfl

@[simp] theorem ret_bind (a : α) (f : α → Prog σ ε β) : (ret a : Prog σ ε α) >>= f = f a := rfl

@[simp] theorem halt_bind (f : α → Prog σ ε β) : (halt : Prog σ ε α) >>= f = halt := rfl

@[simp] theorem step_bind (ev : σ → Option ε) (upd : σ → σ) (k : σ → Prog σ ε α)
    (f : α → Prog σ ε β) : step ev upd k >>= f = step ev upd fun s => k s >>= f := rfl

theorem bind_ret (p : Prog σ ε α) : p >>= ret = p := by
  induction p with
  | ret a => rfl
  | halt => rfl
  | step ev upd k ih => simp only [step_bind, ih]

theorem bind_assoc (p : Prog σ ε α) (f : α → Prog σ ε β) (g : β → Prog σ ε γ) :
    p >>= f >>= g = p >>= fun a => f a >>= g := by
  induction p with
  | ret a => rfl
  | halt => rfl
  | step ev upd k ih => simp only [step_bind, ih]

instance : LawfulMonad (Prog σ ε) :=
  LawfulMonad.mk' (Prog σ ε) (fun p => bind_ret p) (fun _ _ => rfl) bind_assoc

/-- One shared load. -/
def load (f : σ → α) : Prog σ ε α := step (fun _ => none) id fun s => ret (f s)

/-- A shared load with an event that tells the value read. -/
def watch (f : σ → α) (ev : α → Option ε) : Prog σ ε α := step (fun s => ev (f s)) id fun s => ret (f s)

/-- One shared store. -/
def store (upd : σ → σ) : Prog σ ε Unit := step (fun _ => none) upd fun _ => ret ()

/-- One atomic read-modify-write: the value is computed from the state before it. -/
def atomic (f : σ → α) (upd : σ → σ) : Prog σ ε α := step (fun _ => none) upd fun s => ret (f s)

/-- `assert`: a thread that fails it reports so and stops. -/
def check (c : Prop) [Decidable c] (e : ε) : Prog σ ε Unit :=
  if c then ret () else step (fun _ => some e) id fun _ => halt

/-- What the source computes is defined under `c` only: otherwise the thread goes no further. -/
def defined (c : Prop) [Decidable c] : Prog σ ε Unit := if c then ret () else halt

/-- An event that reads and changes nothing. -/
def emit (e : ε) : Prog σ ε Unit := step (fun _ => some e) id fun _ => ret ()

/-- A compare-and-swap: `upd` where `ok` holds, nothing otherwise; `e` is emitted on success. -/
def cas (ok : σ → Prop) [DecidablePred ok] (upd : σ → σ) (e : Option ε) : Prog σ ε Bool :=
  step (fun s => if ok s then e else none) (fun s => if ok s then upd s else s)
    fun s => ret (decide (ok s))

/-- `while` and `goto` loops: the body goes round with `inl` and leaves with `inr`. -/
def iter (body : β → Prog σ ε (β ⊕ α)) : Nat → β → Prog σ ε α
  | 0, _ => halt
  | n + 1, b => body b >>= fun
    | .inl b' => iter body n b'
    | .inr a => ret a

/-- `for` loops over a known list of indices. -/
def forEach (body : β → Prog σ ε Unit) : List β → Prog σ ε Unit
  | [] => ret ()
  | b :: bs => body b >>= fun _ => forEach body bs

/-- A `for` loop that carries a local variable. -/
def foldEach (body : γ → β → Prog σ ε γ) : γ → List β → Prog σ ε γ
  | c, [] => ret c
  | c, b :: bs => body c b >>= fun c' => foldEach body c' bs

/-- A `for` loop left at the first index that answers `true`. -/
def anyEach (body : β → Prog σ ε Bool) : List β → Prog σ ε Bool
  | [] => ret false
  | b :: bs => body b >>= fun stop => if stop then ret true else anyEach body bs

/-- The program run alone from `s`: its result and final state, `none` if it stops early. -/
def run : Prog σ ε α → σ → Option (α × σ)
  | ret a, s => some (a, s)
  | halt, _ => none
  | step _ upd k, s => run (k s) (upd s)

@[simp] theorem run_ret (a : α) (s : σ) : (ret a : Prog σ ε α).run s = some (a, s) := rfl

@[simp] theorem run_halt (s : σ) : (halt : Prog σ ε α).run s = none := rfl

@[simp] theorem run_step (ev : σ → Option ε) (upd : σ → σ) (k : σ → Prog σ ε α) (s : σ) :
    (step ev upd k).run s = (k s).run (upd s) := rfl

theorem run_bind (p : Prog σ ε α) (f : α → Prog σ ε β) (s : σ) :
    (p >>= f).run s = (p.run s).bind fun r => (f r.1).run r.2 := by
  induction p generalizing s with
  | ret a => rfl
  | halt => rfl
  | step ev upd k ih => simp only [step_bind, run_step, ih]

end Prog

end Conc
