import Hypervisor.Action

/-!
# Outcomes of actions

An action ends with a result, with an error or with a panic.  `Ends` states what holds in each
case, and there is one rule for each way in which actions are put together.
-/

namespace Hypervisor.Action

variable {σ τ ε ε' α β : Type}

/-- From `s`, the action ends with a result in `Q`, with an error in `E` or with a panic in `F`. -/
def Ends (x : Action σ ε α) (s : σ) (Q : α → σ → Prop) (E : ε → σ → Prop)
    (F : Panic → σ → Prop) : Prop :=
  match x.run s with
  | .ok a t => Q a t
  | .error (.error e) t => E e t
  | .error (.panic p) t => F p t

/-- The state in which the action ends, however it does. -/
def final (x : Action σ ε α) (s : σ) : σ :=
  match x.run s with
  | .ok _ t => t
  | .error _ t => t

/-- What an action answers, whatever state it leaves. -/
def answer (x : Action σ ε α) (s : σ) : Except (Stop ε) α :=
  match x.run s with
  | .ok a _ => .ok a
  | .error e _ => .error e

section Rules

variable {s : σ} {Q Q' : α → σ → Prop} {E E' : ε → σ → Prop} {F F' : Panic → σ → Prop}

theorem ends_ok {x : Action σ ε α} {a : α} {t : σ} (h : x.run s = .ok a t) :
    x.Ends s Q E F ↔ Q a t := by
  simp only [Ends, h]

theorem ends_error {x : Action σ ε α} {e : ε} {t : σ} (h : x.run s = .error (.error e) t) :
    x.Ends s Q E F ↔ E e t := by
  simp only [Ends, h]

theorem ends_stop {x : Action σ ε α} {p : Panic} {t : σ} (h : x.run s = .error (.panic p) t) :
    x.Ends s Q E F ↔ F p t := by
  simp only [Ends, h]

theorem answer_congr {x y : Action σ ε α} {t : σ} (h : x.run s = y.run t) :
    x.answer s = y.answer t := by
  rw [answer, answer, h]

theorem final_congr {x y : Action σ ε α} {t : σ} (h : x.run s = y.run t) : x.final s = y.final t := by
  rw [final, final, h]

/-- What holds of every outcome holds of the one that is reached. -/
theorem Ends.ok {x : Action σ ε α} {a : α} {t : σ} (hx : x.Ends s Q E F)
    (h : x.run s = .ok a t) : Q a t := (ends_ok h).1 hx

theorem Ends.error {x : Action σ ε α} {e : ε} {t : σ} (hx : x.Ends s Q E F)
    (h : x.run s = .error (.error e) t) : E e t := (ends_error h).1 hx

theorem Ends.stop {x : Action σ ε α} {p : Panic} {t : σ} (hx : x.Ends s Q E F)
    (h : x.run s = .error (.panic p) t) : F p t := (ends_stop h).1 hx

/-- What holds of the outcome can be checked by running the action. -/
instance {x : Action σ ε α} [∀ a t, Decidable (Q a t)] [∀ e t, Decidable (E e t)]
    [∀ p t, Decidable (F p t)] : Decidable (x.Ends s Q E F) :=
  match h : x.run s with
  | .ok a t => decidable_of_iff (Q a t) (ends_ok h).symm
  | .error (.error e) t => decidable_of_iff (E e t) (ends_error h).symm
  | .error (.panic p) t => decidable_of_iff (F p t) (ends_stop h).symm

theorem Ends.exists_ok {x : Action σ ε α} (h : x.Ends s Q (fun _ _ => False) fun _ _ => False) :
    ∃ a t, x.run s = .ok a t ∧ Q a t := by
  cases hrun : x.run s with
  | ok a t => exact ⟨a, t, rfl, h.ok hrun⟩
  | error stop t =>
      cases stop with
      | error e => exact (h.error hrun).elim
      | panic p => exact (h.stop hrun).elim

theorem Ends.exists_error {x : Action σ ε α}
    (h : x.Ends s (fun _ _ => False) E fun _ _ => False) :
    ∃ e t, x.run s = .error (.error e) t ∧ E e t := by
  cases hrun : x.run s with
  | ok a t => exact (h.ok hrun).elim
  | error stop t =>
      cases stop with
      | error e => exact ⟨e, t, rfl, h.error hrun⟩
      | panic p => exact (h.stop hrun).elim

theorem Ends.mono {x : Action σ ε α} (h : x.Ends s Q E F) (hQ : ∀ a t, Q a t → Q' a t)
    (hE : ∀ e t, E e t → E' e t) (hF : ∀ p t, F p t → F' p t) : x.Ends s Q' E' F' := by
  simp only [Ends] at h ⊢
  split <;> rename_i heq <;> simp only [heq] at h
  · exact hQ _ _ h
  · exact hE _ _ h
  · exact hF _ _ h

/-- Two facts about one outcome. -/
theorem Ends.and {x : Action σ ε α} (h : x.Ends s Q E F) (h' : x.Ends s Q' E' F') :
    x.Ends s (fun a t => Q a t ∧ Q' a t) (fun e t => E e t ∧ E' e t)
      fun p t => F p t ∧ F' p t := by
  simp only [Ends] at h h' ⊢
  split <;> rename_i heq <;> simp only [heq] at h h'
  · exact ⟨h, h'⟩
  · exact ⟨h, h'⟩
  · exact ⟨h, h'⟩

/-- What holds however the action ends holds in its last state. -/
theorem Ends.final {x : Action σ ε α} {P : σ → Prop} (h : x.Ends s (fun _ => P) (fun _ => P) fun _ => P) :
    P (x.final s) := by
  simp only [Ends] at h
  simp only [Action.final]
  split at h <;> rename_i heq <;> simpa only [heq] using h

theorem Ends.of_forall {x : Action σ ε α} (hQ : ∀ a t, Q a t) (hE : ∀ e t, E e t)
    (hF : ∀ p t, F p t) : x.Ends s Q E F := by
  simp only [Ends]
  split
  · exact hQ _ _
  · exact hE _ _
  · exact hF _ _

@[simp] theorem ends_pure (a : α) : (pure a : Action σ ε α).Ends s Q E F ↔ Q a s := Iff.rfl

@[simp] theorem ends_fail (e : ε) : (fail e : Action σ ε α).Ends s Q E F ↔ E e s := Iff.rfl

@[simp] theorem ends_panic (p : Panic) : (panic p : Action σ ε α).Ends s Q E F ↔ F p s := Iff.rfl

@[simp] theorem ends_bind (x : Action σ ε β) (f : β → Action σ ε α) :
    (x >>= f).Ends s Q E F ↔ x.Ends s (fun b t => (f b).Ends t Q E F) E F := by
  simp only [Ends, EStateM.run_bind]
  cases h : x.run s with
  | ok b t => rfl
  | error stop t => cases stop <;> rfl

theorem Ends.stuck_bind {x : Action σ ε β} {f : β → Action σ ε α}
    (h : x.Ends s (fun _ _ => False) E F) : (x >>= f).Ends s Q E F := by
  rw [ends_bind]
  exact h.mono (fun _ _ h => h.elim) (fun _ _ h => h) fun _ _ h => h

@[simp] theorem ends_get {Q : σ → σ → Prop} :
    (get : Action σ ε σ).Ends s Q E F ↔ Q s s := Iff.rfl

@[simp] theorem ends_modify {Q : PUnit → σ → Prop} (f : σ → σ) :
    (modify f : Action σ ε PUnit).Ends s Q E F ↔ Q ⟨⟩ (f s) := Iff.rfl

@[simp] theorem ends_require {Q : Unit → σ → Prop} (condition : Bool) (e : ε) :
    (require condition e : Action σ ε Unit).Ends s Q E F ↔
      if condition then Q () s else E e s := by
  cases condition <;> rfl

@[simp] theorem ends_orFail (value : Option α) (e : ε) :
    (orFail value e : Action σ ε α).Ends s Q E F ↔
      match value with
      | some a => Q a s
      | none => E e s := by
  cases value <;> rfl

@[simp] theorem answer_orFail_eq_ok {value : Option α} {e : ε} {a : α} :
    (orFail value e : Action σ ε α).answer s = .ok a ↔ value = some a := by
  cases value <;> simp [answer]

@[simp] theorem answer_orFail_eq_error {value : Option α} {e : ε} {stop : Stop ε} :
    (orFail value e : Action σ ε α).answer s = .error stop ↔ value = none ∧ stop = .error e := by
  cases value <;> simp [answer, eq_comm]

@[simp] theorem final_orFail (value : Option α) (e : ε) :
    (orFail value e : Action σ ε α).final s = s := by
  cases value <;> rfl

@[simp] theorem ends_ofExcept (value : Except ε α) :
    (ofExcept value : Action σ ε α).Ends s Q E F ↔
      match value with
      | .ok a => Q a s
      | .error e => E e s := by
  cases value <;> rfl

@[simp] theorem ends_attempt {Q : Except ε α → σ → Prop} {E : ε' → σ → Prop}
    (x : Action σ ε α) :
    (attempt x : Action σ ε' (Except ε α)).Ends s Q E F ↔
      x.Ends s (fun a t => Q (.ok a) t) (fun e t => Q (.error e) t) F := by
  simp only [Ends, run_attempt]
  cases h : x.run s with
  | ok a t => rfl
  | error stop t => cases stop <;> rfl

@[simp] theorem ends_mapError {E : ε' → σ → Prop} (f : ε → ε') (x : Action σ ε α) :
    (mapError f x).Ends s Q E F ↔ x.Ends s Q (fun e t => E (f e) t) F := by
  simp only [Ends, run_mapError]
  cases h : x.run s with
  | ok a t => rfl
  | error stop t => cases stop <;> rfl

@[simp] theorem ends_onPart (part : σ → τ) (update : σ → τ → σ) (x : Action τ ε α) :
    (onPart part update x).Ends s Q E F ↔
      x.Ends (part s) (fun a t => Q a (update s t)) (fun e t => E e (update s t))
        (fun p t => F p (update s t)) := by
  simp only [Ends, run_onPart]
  cases h : x.run (part s) with
  | ok a t => rfl
  | error stop t => cases stop <;> rfl

@[simp] theorem ends_ite (c : Prop) [Decidable c] (x y : Action σ ε α) :
    (if c then x else y).Ends s Q E F ↔ if c then x.Ends s Q E F else y.Ends s Q E F := by
  split <;> rfl

end Rules

end Hypervisor.Action
