import Hypervisor.Proofs.Outcome

/-!
# Invariants of actions

An action upholds an invariant when it ends in the invariant however it ends, as long as it starts
in it.  Where an action reads the state, its continuation may use that the state was in the
invariant when it was read.  More may be asked of the errors.
-/

namespace Hypervisor.Action

variable {σ τ ε ε' α β : Type}

/-- From the invariant the action ends in it or with an error in `E`, and it panics only as `F`
allows. -/
def Upholds (I : σ → Prop) (F : Panic → σ → Prop) (x : Action σ ε α)
    (E : ε → σ → Prop := fun _ => I) : Prop :=
  ∀ s, I s → x.Ends s (fun _ t => I t) E F

namespace Upholds

variable {I : σ → Prop} {F : Panic → σ → Prop} {E : ε → σ → Prop} {E' : ε' → σ → Prop}

@[simp] theorem pure {a : α} : (Pure.pure a : Action σ ε α).Upholds I F E := fun _ h => h

theorem fail {e : ε} : (Action.fail e : Action σ ε α).Upholds I F := fun _ h => h

theorem fail_of {e : ε} (h : ∀ s, I s → E e s) : (Action.fail e : Action σ ε α).Upholds I F E := h

theorem panic {p : Panic} (h : ∀ s, I s → F p s) :
    (Action.panic p : Action σ ε α).Upholds I F E := h

theorem mono {x : Action σ ε α} {F' : Panic → σ → Prop} {E' : ε → σ → Prop}
    (hx : x.Upholds I F E) (hE : ∀ e s, E e s → E' e s) (hF : ∀ p s, F p s → F' p s) :
    x.Upholds I F' E' :=
  fun s h => Ends.mono (hx s h) (fun _ _ h => h) hE hF

theorem bind {x : Action σ ε β} {f : β → Action σ ε α} (hx : x.Upholds I F E)
    (hf : ∀ b, (f b).Upholds I F E) : (x >>= f).Upholds I F E := by
  intro s h
  rw [ends_bind]
  exact Ends.mono (hx s h) (fun b t ht => hf b t ht) (fun _ _ h => h) fun _ _ h => h

@[simp] theorem get : (MonadState.get : Action σ ε σ).Upholds I F E := fun _ h => h

/-- What was read is a state of the invariant. -/
theorem get_bind {f : σ → Action σ ε α} (hf : ∀ s, I s → (f s).Upholds I F E) :
    ((MonadState.get : Action σ ε σ) >>= f).Upholds I F E := by
  intro s h
  rw [ends_bind, ends_get]
  exact hf s h s h

theorem modify {g : σ → σ} (h : ∀ s, I s → I (g s)) :
    (modify g : Action σ ε PUnit).Upholds I F E := h

theorem require_of {c : Bool} {e : ε} (h : ∀ s, I s → E e s) :
    (Action.require c e : Action σ ε Unit).Upholds I F E := by
  cases c
  · exact fail_of h
  · exact pure

theorem require {c : Bool} {e : ε} : (Action.require c e : Action σ ε Unit).Upholds I F :=
  require_of fun _ h => h

theorem orFail_of {v : Option α} {e : ε} (h : ∀ s, I s → E e s) :
    (Action.orFail v e : Action σ ε α).Upholds I F E := by
  cases v
  · exact fail_of h
  · exact pure

theorem orFail {v : Option α} {e : ε} : (Action.orFail v e : Action σ ε α).Upholds I F :=
  orFail_of fun _ h => h

theorem ofExcept {v : Except ε α} : (Action.ofExcept v : Action σ ε α).Upholds I F := by
  cases v
  · exact fail
  · exact pure

theorem attempt_of {x : Action σ ε α} (hx : x.Upholds I F E) (h : ∀ e s, E e s → I s) :
    (Action.attempt x : Action σ ε' (Except ε α)).Upholds I F E' := by
  intro s hs
  rw [ends_attempt]
  exact Ends.mono (hx s hs) (fun _ _ h => h) h fun _ _ h => h

theorem attempt {x : Action σ ε α} (hx : x.Upholds I F) :
    (Action.attempt x : Action σ ε' (Except ε α)).Upholds I F E' :=
  attempt_of hx fun _ _ h => h

theorem mapError_of {x : Action σ ε α} {f : ε → ε'} (hx : x.Upholds I F E)
    (h : ∀ e s, E e s → E' (f e) s) : (Action.mapError f x).Upholds I F E' := by
  intro s hs
  rw [ends_mapError]
  exact Ends.mono (hx s hs) (fun _ _ h => h) h fun _ _ h => h

theorem mapError {x : Action σ ε α} {f : ε → ε'} (hx : x.Upholds I F) :
    (Action.mapError f x).Upholds I F :=
  mapError_of hx fun _ _ h => h

/-- Work on a part of the state, with the rest of it fixed. -/
theorem onPart {x : Action τ ε α} {part : σ → τ} {update : σ → τ → σ}
    (hupdate : ∀ s, update s (part s) = s)
    (hx : ∀ s, I s → x.Upholds (fun t => I (update s t)) (fun p t => F p (update s t))
      fun e t => E e (update s t)) : (Action.onPart part update x).Upholds I F E := by
  intro s h
  rw [ends_onPart]
  refine hx s h (part s) ?_
  show I (update s (part s))
  rw [hupdate]
  exact h

theorem ite {c : Prop} [Decidable c] {x y : Action σ ε α} (hx : c → x.Upholds I F E)
    (hy : ¬ c → y.Upholds I F E) : (if c then x else y).Upholds I F E := by
  split
  · exact hx ‹_›
  · exact hy ‹_›

theorem forM {ι : Type} {f : ι → Action σ ε PUnit} {l : List ι}
    (hf : ∀ i ∈ l, (f i).Upholds I F E) : (l.forM f).Upholds I F E := by
  induction l with
  | nil => exact pure
  | cons i l ih =>
      refine bind (hf i List.mem_cons_self) fun _ => ih ?_
      intro j hj
      exact hf j (List.mem_cons_of_mem i hj)

end Upholds

def Returns (x : Action σ ε α) (R : α → Prop) : Prop :=
  ∀ s, x.Ends s (fun a _ => R a) (fun _ _ => True) fun _ _ => True

namespace Returns

variable {R : α → Prop}

theorem pure {a : α} (h : R a) : (Pure.pure a : Action σ ε α).Returns R := fun _ => h

theorem fail {e : ε} : (Action.fail e : Action σ ε α).Returns R := fun _ => trivial

theorem bind {x : Action σ ε β} {f : β → Action σ ε α} (hf : ∀ b, (f b).Returns R) :
    (x >>= f).Returns R := by
  intro s
  rw [ends_bind]
  exact Ends.of_forall (fun b t => hf b t) (fun _ _ => trivial) fun _ _ => trivial

theorem mapError {x : Action σ ε α} (hx : x.Returns R) (f : ε → ε') :
    (Action.mapError f x).Returns R := by
  intro s
  rw [ends_mapError]
  exact hx s

theorem onPart {x : Action τ ε α} (hx : x.Returns R) {part : σ → τ} {update : σ → τ → σ} :
    (Action.onPart part update x).Returns R := by
  intro s
  rw [ends_onPart]
  exact hx (part s)

end Returns

def Raises (x : Action σ ε α) (R : ε → Prop) : Prop :=
  ∀ s, x.Ends s (fun _ _ => True) (fun e _ => R e) fun _ _ => True

namespace Raises

variable {R : ε → Prop}

theorem pure {a : α} : (Pure.pure a : Action σ ε α).Raises R := fun _ => trivial

theorem fail {e : ε} (h : R e) : (Action.fail e : Action σ ε α).Raises R := fun _ => h

theorem bind {x : Action σ ε β} {f : β → Action σ ε α} (hx : x.Raises R)
    (hf : ∀ b, (f b).Raises R) : (x >>= f).Raises R := by
  intro s
  rw [ends_bind]
  exact Ends.mono (hx s) (fun b t _ => hf b t) (fun _ _ h => h) fun _ _ h => h

theorem get : (MonadState.get : Action σ ε σ).Raises R := fun _ => trivial

theorem orFail {v : Option α} {e : ε} (h : R e) : (Action.orFail v e : Action σ ε α).Raises R := by
  cases v
  · exact fail h
  · exact pure

theorem attempt {x : Action σ ε' α} : (Action.attempt x : Action σ ε (Except ε' α)).Raises R := by
  intro s
  rw [ends_attempt]
  exact Ends.of_forall (fun _ _ => trivial) (fun _ _ => trivial) fun _ _ => trivial

theorem mapError {x : Action σ ε' α} {f : ε' → ε} (h : ∀ e, R (f e)) :
    (Action.mapError f x).Raises R := by
  intro s
  rw [ends_mapError]
  exact Ends.of_forall (fun _ _ => trivial) (fun e _ => h e) fun _ _ => trivial

theorem onPart {x : Action τ ε α} (hx : x.Raises R) {part : σ → τ} {update : σ → τ → σ} :
    (Action.onPart part update x).Raises R := by
  intro s
  rw [ends_onPart]
  exact hx (part s)

theorem upholds {x : Action σ ε α} (hx : x.Raises R) {I : σ → Prop} {F : Panic → σ → Prop}
    {E : ε → σ → Prop} (hI : x.Upholds I F) (h : ∀ e s, I s → R e → E e s) :
    x.Upholds I F E :=
  fun s hs => Ends.mono ((hI s hs).and (hx s)) (fun _ _ h => h.1) (fun e t he => h e t he.1 he.2)
    fun _ _ hp => hp.1

theorem ends {x : Action σ ε α} (hx : x.Raises fun _ => False) {I : σ → Prop}
    {F : Panic → σ → Prop} {E : ε → σ → Prop} (hI : x.Upholds I F E) {s : σ} (h : I s) :
    x.Ends s (fun _ t => I t) (fun _ _ => False) F :=
  Ends.mono ((hI s h).and (hx s)) (fun _ _ h => h.1) (fun _ _ h => h.2) fun _ _ h => h.1

end Raises

/-- The action gives no error from any state; it may still panic. -/
def Unfailing (x : Action σ ε α) : Prop := x.Raises fun _ => False

end Hypervisor.Action
