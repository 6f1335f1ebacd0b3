import Mathlib.Data.Finmap

/-!
# Asynchronous request handlers over a shared key-value store

A handler is a program (`Prog`) over the operations it awaits: one get or put of the shared store, a clock reading,
a fresh identifier, a semaphore, and background calls that it spawns and joins. Programs are finite trees; they form
a monad, and `Fallible` adds the early return on an error.

Everything is generic in the keys `K`, the values `V`, the background calls `C` and the errors `E`.
-/

namespace Async

/-- The awaited operations. -/
inductive Op (K V C : Type) : Type
  | get (k : K)
  | put (k : K) (v : V)
  | now
  | newId
  | semaphore (n : Nat)
  | acquire
  | spawn (c : C)
  | join (h : Nat)

/-- What an operation answers. A join answers `none` when the background task panicked. -/
@[reducible] def Op.Reply {K V C : Type} (E : Type) : Op K V C → Type
  | .get _ => Except E (Option V)
  | .put _ _ => Except E Unit
  | .now => Int
  | .newId => String
  | .semaphore _ => Unit
  | .acquire => Unit
  | .spawn _ => Nat
  | .join _ => Option Bool

/-- A handler: a result, or an operation and what to do with its answer. -/
inductive Prog (K V C E α : Type) : Type
  | ret (a : α)
  | ask (o : Op K V C) (k : o.Reply E → Prog K V C E α)

namespace Prog

variable {K V C E α β γ : Type}

def bind : Prog K V C E α → (α → Prog K V C E β) → Prog K V C E β
  | .ret a, f => f a
  | .ask o k, f => .ask o fun r => (k r).bind f

instance : Monad (Prog K V C E) where
  pure := .ret
  bind := bind

theorem bind_ret : ∀ p : Prog K V C E α, p.bind .ret = p
  | .ret _ => rfl
  | .ask o k => congrArg (Prog.ask o) (funext fun r => bind_ret (k r))

theorem bind_assoc (f : α → Prog K V C E β) (g : β → Prog K V C E γ) :
    ∀ p : Prog K V C E α, (p.bind f).bind g = p.bind fun a => (f a).bind g
  | .ret _ => rfl
  | .ask o k => congrArg (Prog.ask o) (funext fun r => bind_assoc f g (k r))

instance : LawfulMonad (Prog K V C E) :=
  LawfulMonad.mk' _ bind_ret (fun _ _ => rfl) fun p f g => bind_assoc f g p

@[simp] theorem pure_eq (a : α) : (pure a : Prog K V C E α) = .ret a := rfl
@[simp] theorem ret_bind (a : α) (f : α → Prog K V C E β) : (Prog.ret a >>= f) = f a := rfl
@[simp] theorem ask_bind (o : Op K V C) (k : o.Reply E → Prog K V C E α) (f : α → Prog K V C E β) :
    (Prog.ask o k >>= f) = .ask o fun r => k r >>= f := rfl

/-- Await one operation. -/
def perform (o : Op K V C) : Prog K V C E (o.Reply E) := .ask o .ret

end Prog

/-- A handler that returns at its first error. -/
abbrev Fallible (K V C E α : Type) : Type := ExceptT E (Prog K V C E) α

namespace Fallible

variable {K V C E α β : Type}

def get (k : K) : Fallible K V C E (Option V) := .mk (Prog.perform (.get k))
def put (k : K) (v : V) : Fallible K V C E Unit := .mk (Prog.perform (.put k v))
def now : Fallible K V C E Int := .lift (Prog.perform .now)
def newId : Fallible K V C E String := .lift (Prog.perform .newId)
def semaphore (n : Nat) : Fallible K V C E Unit := .lift (Prog.perform (.semaphore n))
def acquire : Fallible K V C E Unit := .lift (Prog.perform .acquire)
def spawn (c : C) : Fallible K V C E Nat := .lift (Prog.perform (.spawn c))
def join (h : Nat) : Fallible K V C E (Option Bool) := .lift (Prog.perform (.join h))

end Fallible

end Async
