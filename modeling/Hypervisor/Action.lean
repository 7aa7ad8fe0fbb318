import Hypervisor.Error

/-!
# Actions

An action reads and changes a state and may stop before its end: with an error, which its caller
may handle, or with a panic, which nothing handles.  What it changed before it stopped stays changed.
-/

namespace Hypervisor

/-- How an action stops early. -/
inductive Stop (ε : Type) where
  | error (e : ε)
  | panic (p : Panic)
  deriving DecidableEq

/-- A step on a state `σ` that gives a result `α` or stops with an error `ε`. -/
abbrev Action (σ ε α : Type) : Type := EStateM (Stop ε) σ α

namespace Action

variable {σ τ ε ε' α : Type}

/-- Stops with an error. -/
def fail (e : ε) : Action σ ε α := fun s => .error (.error e) s

/-- Stops for good. -/
def panic (p : Panic) : Action σ ε α := fun s => .error (.panic p) s

/-- Stops with an error unless a condition holds. -/
def require (condition : Bool) (e : ε) : Action σ ε Unit :=
  if condition then pure () else fail e

/-- The value that is there, or else an error. -/
def orFail (value : Option α) (e : ε) : Action σ ε α :=
  match value with
  | some a => pure a
  | none => fail e

def ofExcept : Except ε α → Action σ ε α
  | .ok a => pure a
  | .error e => fail e

/-- Runs an action and gives its error as a value; a panic still stops. -/
def attempt (x : Action σ ε α) : Action σ ε' (Except ε α) := fun s =>
  match x s with
  | .ok a s => .ok (.ok a) s
  | .error (.error e) s => .ok (.error e) s
  | .error (.panic p) s => .error (.panic p) s

def mapError (f : ε → ε') (x : Action σ ε α) : Action σ ε' α := fun s =>
  match x s with
  | .ok a s => .ok a s
  | .error (.error e) s => .error (.error (f e)) s
  | .error (.panic p) s => .error (.panic p) s

/-- Runs an action on a part of a larger state. -/
def onPart (part : σ → τ) (update : σ → τ → σ) (x : Action τ ε α) : Action σ ε α := fun s =>
  match x (part s) with
  | .ok a t => .ok a (update s t)
  | .error e t => .error e (update s t)

variable (s : σ)

@[simp] theorem run_fail (e : ε) : (fail e : Action σ ε α).run s = .error (.error e) s := rfl

@[simp] theorem run_panic (p : Panic) : (panic p : Action σ ε α).run s = .error (.panic p) s := rfl

@[simp] theorem run_require (condition : Bool) (e : ε) :
    (require condition e : Action σ ε Unit).run s =
      if condition then .ok () s else .error (.error e) s := by
  cases condition <;> rfl

@[simp] theorem run_orFail_some (a : α) (e : ε) :
    (orFail (some a) e : Action σ ε α).run s = .ok a s := rfl

@[simp] theorem run_orFail_none (e : ε) :
    (orFail none e : Action σ ε α).run s = .error (.error e) s := rfl

@[simp] theorem run_ofExcept_ok (a : α) :
    (ofExcept (.ok a) : Action σ ε α).run s = .ok a s := rfl

@[simp] theorem run_ofExcept_error (e : ε) :
    (ofExcept (.error e) : Action σ ε α).run s = .error (.error e) s := rfl

theorem run_attempt (x : Action σ ε α) :
    (attempt x : Action σ ε' (Except ε α)).run s =
      match x.run s with
      | .ok a s => .ok (.ok a) s
      | .error (.error e) s => .ok (.error e) s
      | .error (.panic p) s => .error (.panic p) s := rfl

theorem run_mapError (f : ε → ε') (x : Action σ ε α) :
    (mapError f x).run s =
      match x.run s with
      | .ok a s => .ok a s
      | .error (.error e) s => .error (.error (f e)) s
      | .error (.panic p) s => .error (.panic p) s := rfl

theorem run_onPart (part : σ → τ) (update : σ → τ → σ) (x : Action τ ε α) :
    (onPart part update x).run s =
      match x.run (part s) with
      | .ok a t => .ok a (update s t)
      | .error e t => .error e (update s t) := rfl

end Action

end Hypervisor
