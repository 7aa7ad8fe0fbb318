import Hypervisor.Machine.Basic
import Hypervisor.Proofs.Memory.References

/-!
# Safe actions

An action is safe under a condition when, as long as all addresses fit in a table entry, it ends in
one of the promised states and breaks no rule of the allocator.  The rules below run an action
symbolically: each takes off its first step.
-/

namespace Hypervisor

/-- A state with host memory in it. -/
class HasMemory (σ : Type) where
  memory : σ → Memory

instance : HasMemory Memory := ⟨fun m => m⟩

instance : HasMemory Platform := ⟨Platform.memory⟩

instance : HasMemory Host := ⟨fun h => h.memory⟩

instance : HasMemory Session := ⟨fun s => s.host.memory⟩

instance : HasMemory Machine := ⟨fun m => m.memory⟩

namespace Action

open HasMemory Memory

variable {σ τ ε ε' α β : Type} [HasMemory σ] [HasMemory τ] {F : Panic → Prop}

/-- Started under `P`, the action ends with a result in `Q` or an error in `E`, and it panics only
as `F` allows, unless addresses outgrow the entries of a table. -/
def Safe (F : Panic → Prop) (x : Action σ ε α) (s : σ) (P : Prop) (Q : α → σ → Prop)
    (E : ε → σ → Prop) : Prop :=
  x.Ends s (fun a t => (memory s).Leads (memory t) (P → Q a t))
    (fun e t => (memory s).Leads (memory t) (P → E e t))
    (fun p t => (memory s).Leads (memory t) (P → F p))

section Rules

variable {s t : σ} {P P' : Prop} {Q Q' : α → σ → Prop} {E E' : ε → σ → Prop}

theorem Safe.mono {x : Action σ ε α} (h : x.Safe F s P Q E) (hP : (memory s).Fits → P' → P)
    (hQ : ∀ a t, (memory s).Fits → (memory t).Fits → P' → Q a t → Q' a t)
    (hE : ∀ e t, (memory s).Fits → (memory t).Fits → P' → E e t → E' e t) :
    x.Safe F s P' Q' E' := by
  refine Ends.mono h ?_ ?_ ?_
  · intro a t ht
    refine ⟨ht.grows, fun hf hp => ?_⟩
    have hs := hf.of_leads ht
    exact hQ a t hs hf hp (ht.holds hf (hP hs hp))
  · intro e t ht
    refine ⟨ht.grows, fun hf hp => ?_⟩
    have hs := hf.of_leads ht
    exact hE e t hs hf hp (ht.holds hf (hP hs hp))
  · intro p t ht
    exact ⟨ht.grows, fun hf hp => ht.holds hf (hP (hf.of_leads ht) hp)⟩

theorem Safe.and {x : Action σ ε α} (h : x.Safe F s P Q E) (h' : x.Safe F s P Q' E') :
    x.Safe F s P (fun a t => Q a t ∧ Q' a t) fun e t => E e t ∧ E' e t := by
  refine Ends.mono (Ends.and h h') ?_ ?_ fun _ _ hp => hp.1
  · rintro a t ⟨ha, ha'⟩
    exact ha.imp fun hf hq hp => ⟨hq hp, ha'.holds hf hp⟩
  · rintro e t ⟨he, he'⟩
    exact he.imp fun hf hq hp => ⟨hq hp, he'.holds hf hp⟩

theorem Safe.assume {x : Action σ ε α} (h : x.Safe F s P Q E) (hP : (memory s).Fits → P' → P) :
    x.Safe F s P' Q E :=
  h.mono hP (fun _ _ _ _ _ hq => hq) fun _ _ _ _ _ he => he

/-- What a safe action promises as long as addresses fit in the end. -/
theorem Safe.ends {x : Action σ ε α} (h : x.Safe F s P Q E) (hP : (memory s).Fits → P) :
    x.Ends s (fun a t => (memory t).Fits → Q a t) (fun e t => (memory t).Fits → E e t)
      fun p t => (memory t).Fits → F p := by
  refine Ends.mono h ?_ ?_ ?_
  · intro a t ht hf
    exact ht.holds hf (hP (hf.of_leads ht))
  · intro e t ht hf
    exact ht.holds hf (hP (hf.of_leads ht))
  · intro p t ht hf
    exact ht.holds hf (hP (hf.of_leads ht))

theorem Safe.of_ok {x : Action σ ε α} (h : x.Safe F s P Q E) {a : α} (hrun : x.run s = .ok a t)
    (hf : (memory t).Fits) : (memory s).Fits ∧ (P → Q a t) := by
  have ht := Ends.ok h hrun
  exact ⟨hf.of_leads ht, ht.holds hf⟩

theorem Safe.of_error {x : Action σ ε α} (h : x.Safe F s P Q E) {e : ε}
    (hrun : x.run s = .error (.error e) t) (hf : (memory t).Fits) :
    (memory s).Fits ∧ (P → E e t) := by
  have ht := Ends.error h hrun
  exact ⟨hf.of_leads ht, ht.holds hf⟩

theorem Safe.exists {ι : Type} [Nonempty ι] {R : ι → Prop} {x : Action σ ε α}
    (h : ∀ i, x.Safe F s (R i) Q E) : x.Safe F s (∃ i, R i) Q E := by
  simp only [Safe, Ends] at h ⊢
  split <;> rename_i heq <;> simp only [heq] at h
  all_goals
    refine ⟨(h (Classical.arbitrary ι)).grows, ?_⟩
    rintro hf ⟨i, hi⟩
    exact (h i).holds hf hi

theorem Safe.exists_and {ι : Type} [Nonempty ι] {R : ι → Prop} {x : Action σ ε α}
    (h : ∀ i, x.Safe F s (P ∧ R i) Q E) : x.Safe F s (P ∧ ∃ i, R i) Q E := by
  refine (Safe.exists h).assume fun _ h => ?_
  obtain ⟨hP, i, hi⟩ := h
  exact ⟨i, hP, hi⟩

theorem Safe.pure {a : α} (h : (memory s).Fits → P → Q a s) :
    (Pure.pure a : Action σ ε α).Safe F s P Q E :=
  ⟨Nat.le_refl _, h⟩

theorem Safe.fail {e : ε} (h : (memory s).Fits → P → E e s) :
    (Action.fail e : Action σ ε α).Safe F s P Q E :=
  ⟨Nat.le_refl _, h⟩

theorem Safe.last {x : Action σ ε α} (h : (x >>= Pure.pure).Safe F s P Q E) :
    x.Safe F s P Q E := by
  rwa [bind_pure] at h

/-- A first step whose outcome is known without a condition. -/
theorem Safe.step {x : Action σ ε β} {f : β → Action σ ε α}
    (h : x.Ends s
      (fun b t => (memory s).next.toNat ≤ (memory t).next.toNat ∧ (f b).Safe F t P Q E)
      (fun e t => (memory s).Leads (memory t) (P → E e t))
      (fun p t => (memory s).Leads (memory t) (P → F p))) : (x >>= f).Safe F s P Q E := by
  rw [Safe, ends_bind]
  refine Ends.mono h ?_ (fun _ _ h => h) fun _ _ h => h
  rintro b t ⟨hn, ht⟩
  refine Ends.mono ht ?_ ?_ ?_ <;>
  · intro a u hu
    exact ⟨hn.trans hu.grows, hu.holds⟩

/-- Two actions in turn; what is known of the state in between is a condition of the second. -/
theorem Safe.bind {x : Action σ ε β} {f : β → Action σ ε α} {R : β → σ → Prop}
    (hx : x.Safe F s P R E) (hf : ∀ b t, (f b).Safe F t (P ∧ R b t) Q E) :
    (x >>= f).Safe F s P Q E := by
  rw [Safe, ends_bind]
  refine Ends.mono hx ?_ (fun _ _ h => h) fun _ _ h => h
  intro b t ht
  refine Ends.mono (hf b t) ?_ ?_ ?_ <;>
  · intro a u hu
    exact ht.andThen hu fun _ hr hq hp => hq ⟨hp, hr hp⟩

theorem Safe.bind_exists {ι : Type} [Nonempty ι] {x : Action σ ε β} {f : β → Action σ ε α}
    {R : ι → β → σ → Prop} (hx : x.Safe F s P (fun b t => ∃ i, R i b t) E)
    (hf : ∀ i b t, (f b).Safe F t (P ∧ R i b t) Q E) : (x >>= f).Safe F s P Q E :=
  Safe.bind hx fun b t => Safe.exists_and fun i => hf i b t

theorem Safe.attempt_bind {E₁ : ε → σ → Prop} {E : ε' → σ → Prop} {x : Action σ ε β}
    {f : Except ε β → Action σ ε' α} {R : β → σ → Prop} (hx : x.Safe F s P R E₁)
    (hok : ∀ b t, (f (.ok b)).Safe F t (P ∧ R b t) Q E)
    (herror : ∀ e t, (f (.error e)).Safe F t (P ∧ E₁ e t) Q E) :
    (attempt x >>= f).Safe F s P Q E := by
  rw [Safe, ends_bind, ends_attempt]
  refine Ends.mono hx ?_ ?_ fun _ _ h => h
  · intro b t ht
    refine Ends.mono (hok b t) ?_ ?_ ?_ <;>
    · intro a u hu
      exact ht.andThen hu fun _ hr hq hp => hq ⟨hp, hr hp⟩
  · intro e t ht
    refine Ends.mono (herror e t) ?_ ?_ ?_ <;>
    · intro a u hu
      exact ht.andThen hu fun _ hr hq hp => hq ⟨hp, hr hp⟩

theorem Safe.mapError {E : ε' → σ → Prop} {f : ε → ε'} {x : Action σ ε α}
    (h : x.Safe F s P Q fun e t => E (f e) t) : (Action.mapError f x).Safe F s P Q E := by
  rw [Safe, ends_mapError]
  exact h

theorem Safe.onPart {s : τ} {Q : α → τ → Prop} {E : ε → τ → Prop} (part : τ → σ)
    {update : τ → σ → τ} {x : Action σ ε α} (hpart : ∀ s, memory (part s) = memory s)
    (hupdate : ∀ s t, memory (update s t) = memory t)
    (h : x.Safe F (part s) P (fun a t => Q a (update s t)) fun e t => E e (update s t)) :
    (Action.onPart part update x).Safe F s P Q E := by
  rw [Safe, ends_onPart]
  simp only [hupdate]
  rw [Safe, hpart] at h
  exact h

theorem Safe.get_bind {f : σ → Action σ ε α} (h : (f s).Safe F s P Q E) :
    ((get : Action σ ε σ) >>= f).Safe F s P Q E := by
  refine Safe.step ?_
  rw [ends_get]
  exact ⟨Nat.le_refl _, h⟩

theorem Safe.modify_bind {g : σ → σ} {f : PUnit → Action σ ε α}
    (hg : (memory s).next = (memory (g s)).next) (h : (f ⟨⟩).Safe F (g s) P Q E) :
    ((modify g : Action σ ε PUnit) >>= f).Safe F s P Q E := by
  refine Safe.step ?_
  rw [ends_modify]
  exact ⟨by rw [hg], h⟩

theorem Safe.require_bind {c : Bool} {e : ε} {f : Unit → Action σ ε α}
    (hyes : c = true → (f ()).Safe F s P Q E)
    (hno : c = false → (memory s).Fits → P → E e s) :
    (Action.require c e >>= f).Safe F s P Q E := by
  refine Safe.step ?_
  rw [ends_require]
  cases c with
  | true => exact ⟨Nat.le_refl _, hyes rfl⟩
  | false => exact ⟨Nat.le_refl _, hno rfl⟩

theorem Safe.orFail_bind {v : Option β} {e : ε} {f : β → Action σ ε α}
    (hsome : ∀ b, v = some b → (f b).Safe F s P Q E)
    (hnone : v = none → (memory s).Fits → P → E e s) :
    (Action.orFail v e >>= f).Safe F s P Q E := by
  refine Safe.step ?_
  rw [ends_orFail]
  cases v with
  | some b => exact ⟨Nat.le_refl _, hsome b rfl⟩
  | none => exact ⟨Nat.le_refl _, hnone rfl⟩

theorem Safe.ofExcept_bind {v : Except ε β} {f : β → Action σ ε α}
    (hok : ∀ b, v = .ok b → (f b).Safe F s P Q E)
    (herror : ∀ e, v = .error e → (memory s).Fits → P → E e s) :
    (Action.ofExcept v >>= f).Safe F s P Q E := by
  refine Safe.step ?_
  rw [ends_ofExcept]
  cases v with
  | ok b => exact ⟨Nat.le_refl _, hok b rfl⟩
  | error e => exact ⟨Nat.le_refl _, herror e rfl⟩

theorem Safe.ite {c : Prop} [Decidable c] {x y : Action σ ε α} (hx : c → x.Safe F s P Q E)
    (hy : ¬c → y.Safe F s P Q E) : (if c then x else y).Safe F s P Q E := by
  split
  · exact hx ‹_›
  · exact hy ‹_›

end Rules

end Action

namespace Memory

open Hypervisor.Action

variable {ε α : Type} {F : Panic → Prop} {m : Memory} {P : Prop} {Q : α → Memory → Prop}
  {E : ε → Memory → Prop}

theorem retain_bind {p : Hpa} {f : Unit → MemoryM ε α} (hlive : P → p ∈ m.pages)
    (h : (f ()).Safe F (m.retained p) P Q E) : (retain p >>= f).Safe F m P Q E :=
  Safe.step (retain_ends (fun _ => ⟨Nat.le_refl _, h⟩)
    fun _ hfree => ⟨Nat.le_refl _, fun _ hP => absurd (hlive hP) hfree⟩)

theorem release_bind {p : Hpa} {f : Unit → MemoryM ε α} (hheld : P → 0 < m.refs p)
    (h : (f ()).Safe F (m.released p) P Q E) : (release p >>= f).Safe F m P Q E :=
  Safe.step (release_ends (fun _ => ⟨Nat.le_refl _, h⟩)
    fun _ hloose => ⟨Nat.le_refl _, fun _ hP => absurd (hheld hP) hloose⟩)

theorem pageWords_bind {a : Hpa} {f : PageWords → MemoryM ε α} (hlive : P → a.pageDown ∈ m.pages)
    (h : (f (m.words a)).Safe F m P Q E) : (pageWords a >>= f).Safe F m P Q E :=
  Safe.step (pageWords_ends (fun _ => ⟨Nat.le_refl _, h⟩)
    fun _ hfree => ⟨Nat.le_refl _, fun _ hP => absurd (hlive hP) hfree⟩)

theorem virtual_bind {a : Hpa} {f : Hva → MemoryM ε α} (hlive : P → a.pageDown ∈ m.pages)
    (h : (f ⟨a.val + directMap⟩).Safe F m P Q E) : (virtual a >>= f).Safe F m P Q E :=
  Safe.step (virtual_ends (fun _ => ⟨Nat.le_refl _, h⟩)
    fun _ hfree => ⟨Nat.le_refl _, fun _ hP => absurd (hlive hP) hfree⟩)

theorem updatePage_bind {a : Hpa} {g : PageWords → PageWords} {f : Unit → MemoryM ε α}
    (h : (f ()).Safe F (m.edited a g) P Q E) : (updatePage a g >>= f).Safe F m P Q E :=
  Safe.step (ends_updatePage.2 ⟨Nat.le_refl _, h⟩)

theorem alloc_bind {f : Option Hpa → MemoryM ε α}
    (hrefused : ∀ m', m'.pages = m.pages → m'.next = m.next → (f none).Safe F m' P Q E)
    (hgranted : ∀ m' p, m.Allocates m' p 0 → (f (some p)).Safe F m' P Q E) :
    (alloc >>= f).Safe F m P Q E := by
  refine Safe.step (alloc_ends ?_ ?_)
  · intro m' hpages hnext
    exact ⟨Nat.le_of_eq (congrArg UInt64.toNat hnext.symm), hrefused m' hpages hnext⟩
  · intro m' p hp
    have hn := hp.next
    exact ⟨show m.next.toNat ≤ m'.next.toNat by omega, hgranted m' p hp⟩

theorem allocRetained_bind_draws {f : Option Hpa → MemoryM ε α}
    (hrefused : ∀ m', m'.pages = m.pages → m'.next = m.next → m.Draws none m' →
      (f none).Safe F m' P Q E)
    (hgranted : ∀ m' p, m.Allocates m' p → m.Draws (some p) m' → (f (some p)).Safe F m' P Q E) :
    (allocRetained >>= f).Safe F m P Q E := by
  refine Safe.step (allocRetained_ends_draws ?_ ?_)
  · intro m' hpages hnext hdraws
    exact ⟨Nat.le_of_eq (congrArg UInt64.toNat hnext.symm), hrefused m' hpages hnext hdraws⟩
  · intro m' p hp hdraws
    have hn := hp.next
    exact ⟨show m.next.toNat ≤ m'.next.toNat by omega, hgranted m' p hp hdraws⟩

theorem allocRetained_bind {f : Option Hpa → MemoryM ε α}
    (hrefused : ∀ m', m'.pages = m.pages → m'.next = m.next → (f none).Safe F m' P Q E)
    (hgranted : ∀ m' p, m.Allocates m' p → (f (some p)).Safe F m' P Q E) :
    (allocRetained >>= f).Safe F m P Q E :=
  allocRetained_bind_draws (fun m' hpages hnext _ => hrefused m' hpages hnext)
    fun m' p hp _ => hgranted m' p hp

end Memory

end Hypervisor
