import Hypervisor.Proofs.Memory.Safe

/-!
# Actions that leave memory alone

Most of what the hypervisor does is done to processors, control blocks, registers and the log.  Such
an action is quiet: it ends with the memory that it started with.
-/

namespace Hypervisor.Action

open HasMemory Memory

variable {σ τ ε ε' α β : Type} [HasMemory σ] [HasMemory τ] {F : Panic → Prop}

/-- However the action ends, memory is as before; it panics only as `F` allows. -/
def Quiet (F : Panic → Prop) (x : Action σ ε α) : Prop :=
  ∀ s, x.Ends s (fun _ t => memory t = memory s) (fun _ t => memory t = memory s)
    (fun p t => memory t = memory s ∧ F p)

namespace Quiet

@[simp] theorem pure {a : α} : (Pure.pure a : Action σ ε α).Quiet F := fun _ => rfl

@[simp] theorem fail {e : ε} : (Action.fail e : Action σ ε α).Quiet F := fun _ => rfl

theorem bind {x : Action σ ε β} {f : β → Action σ ε α} (hx : x.Quiet F)
    (hf : ∀ b, (f b).Quiet F) : (x >>= f).Quiet F := by
  intro s
  rw [ends_bind]
  refine Ends.mono (hx s) ?_ (fun _ _ h => h) fun _ _ h => h
  intro b t ht
  rw [← ht]
  exact hf b t

@[simp] theorem get : (MonadState.get : Action σ ε σ).Quiet F := fun _ => rfl

theorem modify {g : σ → σ} (h : ∀ s, memory (g s) = memory s) :
    (modify g : Action σ ε PUnit).Quiet F := fun s => h s

@[simp] theorem require {c : Bool} {e : ε} : (Action.require c e : Action σ ε Unit).Quiet F := by
  cases c
  · exact fail
  · exact pure

@[simp] theorem orFail {v : Option α} {e : ε} : (Action.orFail v e : Action σ ε α).Quiet F := by
  cases v
  · exact fail
  · exact pure

@[simp] theorem ofExcept {v : Except ε α} : (Action.ofExcept v : Action σ ε α).Quiet F := by
  cases v
  · exact fail
  · exact pure

theorem attempt {x : Action σ ε α} (hx : x.Quiet F) :
    (Action.attempt x : Action σ ε' (Except ε α)).Quiet F := by
  intro s
  rw [ends_attempt]
  exact hx s

theorem mapError {x : Action σ ε α} (hx : x.Quiet F) (f : ε → ε') :
    (Action.mapError f x).Quiet F := by
  intro s
  rw [ends_mapError]
  exact hx s

theorem onPart {x : Action σ ε α} (hx : x.Quiet F) {part : τ → σ} {update : τ → σ → τ}
    (hpart : ∀ s, memory (part s) = memory s) (hupdate : ∀ s t, memory (update s t) = memory t) :
    (Action.onPart part update x).Quiet F := by
  intro s
  rw [ends_onPart]
  simp only [hupdate, ← hpart s]
  exact hx (part s)

theorem forM {ι : Type} {f : ι → Action σ ε PUnit} (hf : ∀ i, (f i).Quiet F) (l : List ι) :
    (l.forM f).Quiet F := by
  induction l with
  | nil => exact pure
  | cons i l ih =>
      exact bind (hf i) fun _ => ih

variable {s : σ} {P : Prop} {Q : α → σ → Prop} {E : ε → σ → Prop}

theorem safe {x : Action σ ε α} (hx : x.Quiet F) :
    x.Safe F s P (fun _ t => memory t = memory s) (fun _ t => memory t = memory s) := by
  refine Ends.mono (hx s) ?_ ?_ ?_
  · intro a t ht
    exact .of_next_eq (by rw [ht]) fun _ _ => ht
  · intro e t ht
    exact .of_next_eq (by rw [ht]) fun _ _ => ht
  · rintro p t ⟨ht, hp⟩
    exact .of_next_eq (by rw [ht]) fun _ _ => hp

theorem keeps {x : Action σ ε α} (hx : x.Quiet F) (K : Memory → Prop) :
    x.Safe F s (K (memory s)) (fun _ t => K (memory t)) (fun _ t => K (memory t)) := by
  have hsame : ∀ {t : σ}, K (memory s) → memory t = memory s → K (memory t) := by
    intro t hk ht
    rwa [ht]
  exact hx.safe.mono (fun _ h => h) (fun _ _ _ _ hk ht => hsame hk ht) fun _ _ _ _ hk ht => hsame hk ht

/-- A first step that leaves memory alone. -/
theorem step {x : Action σ ε β} {f : β → Action σ ε α} (hx : x.Quiet F)
    (hf : ∀ b t, memory t = memory s → (f b).Safe F t P Q E)
    (hE : ∀ e t, memory t = memory s → (memory s).Fits → P → E e t) :
    (x >>= f).Safe F s P Q E := by
  refine Safe.step (Ends.mono (hx s) ?_ ?_ ?_)
  · intro b t ht
    exact ⟨by rw [ht], hf b t ht⟩
  · intro e t ht
    exact .of_next_eq (by rw [ht]) fun hf hp => hE e t ht (by rw [← ht]; exact hf) hp
  · rintro p t ⟨ht, hp⟩
    exact .of_next_eq (by rw [ht]) fun _ _ => hp

end Quiet

end Hypervisor.Action

namespace Hypervisor

open Hypervisor.Action

variable {ε : Type}

/-! Reading memory leaves it alone, whether or not the page is free. -/

namespace Memory

theorem pageWords_quiet (a : Hpa) :
    (pageWords a : MemoryM ε PageWords).Quiet fun _ => True :=
  fun _ => pageWords_ends (fun _ => rfl) fun _ _ => ⟨rfl, trivial⟩

theorem virtual_quiet (a : Hpa) : (virtual a : MemoryM ε Hva).Quiet fun _ => True :=
  fun _ => virtual_ends (fun _ => rfl) fun _ _ => ⟨rfl, trivial⟩

end Memory

namespace Ept

theorem walkFrom_quiet (gpa : Gpa) (level : Nat) (table : Hpa) :
    (walkFrom gpa level table).Quiet fun _ => True := by
  have hread : ∀ s : Slot, (s.read : MemoryM EptError Entry).Quiet fun _ => True := fun s =>
    Quiet.bind (Memory.pageWords_quiet _) fun _ => Quiet.pure
  induction level generalizing table with
  | zero => exact Quiet.bind (hread _) fun _ => Quiet.bind Quiet.orFail fun _ => Quiet.pure
  | succ level ih => exact Quiet.bind (hread _) fun _ => Quiet.bind Quiet.orFail fun _ => ih _

theorem walk_quiet (t : Ept) (gpa : Gpa) : (t.walk gpa).Quiet fun _ => True :=
  Quiet.bind Quiet.orFail fun _ => walkFrom_quiet _ _ _

theorem resolve_quiet (t : Ept) (gpa : Gpa) :
    (t.resolve gpa : MemoryM ε (Option Hva)).Quiet fun _ => True := by
  refine Quiet.bind (Quiet.attempt (walk_quiet t _)) fun result => ?_
  split
  · exact Quiet.pure
  · split
    · exact Quiet.pure
    · exact Quiet.bind (Memory.virtual_quiet _) fun _ => Quiet.pure

end Ept

end Hypervisor
