import Hypervisor.Guest.Lifetime
import Hypervisor.Proofs.Ept.Teardown
import Hypervisor.Proofs.Memory.Quiet

/-!
# The host and its memory

Work on the memory of a host is safe when it is safe on the memory alone.  The instructions of the
processor leave memory alone.
-/

namespace Hypervisor.Host

open Hypervisor.Action

variable {α : Type} {F : Panic → Prop} {h : Host} {P : Prop} {Q : α → Host → Prop}

theorem onMemory_safe {x : MemoryM VmError α} {E : VmError → Host → Prop}
    (hx : x.Safe F h.memory P (fun a m => Q a { h with memory := m })
      fun e m => E e { h with memory := m }) : (onMemory x).Safe F h P Q E :=
  Safe.onPart Host.toPlatform (fun _ => rfl) (fun _ _ => rfl)
    (Safe.onPart Platform.memory (fun _ => rfl) (fun _ _ => rfl) hx)

theorem onTable_safe {x : MemoryM EptError α} {E : VmError → Host → Prop}
    (hx : x.Safe F h.memory P (fun a m => Q a { h with memory := m })
      fun e m => E (.ept e) { h with memory := m }) : (onTable x).Safe F h P Q E :=
  onMemory_safe (Safe.mapError hx)

theorem onProcessor_quiet (f : Processor → Processor) : (onProcessor f).Quiet F :=
  Quiet.modify fun _ => rfl

theorem processor_quiet : processor.Quiet F := Quiet.bind Quiet.get fun _ => Quiet.pure

theorem expose_quiet (p : Primitive) (f : Option Field) : (expose p f).Quiet F := by
  refine Quiet.bind processor_quiet fun p => ?_
  refine Quiet.bind (onProcessor_quiet _) fun _ => ?_
  split
  · exact Quiet.fail
  · exact Quiet.pure

theorem invept_quiet : invept.Quiet F := by
  refine Quiet.bind (expose_quiet _ _) fun _ => ?_
  refine Quiet.bind processor_quiet fun p => ?_
  exact Quiet.bind Quiet.require fun _ => onProcessor_quiet _

theorem sayOnCpu_quiet (level : LogLevel) (text : String) : (sayOnCpu level text).Quiet F :=
  Quiet.bind Quiet.get fun _ => Quiet.modify fun _ => rfl

/-- A flush is counted when it does not fail. -/
theorem invept_ends (h : Host) : invept.Ends h
    (fun _ h' => h'.memory = h.memory ∧ h'.cpu.processor.flushes = h.cpu.processor.flushes + 1)
    (fun _ h' => h'.memory = h.memory ∧ h'.cpu.processor.flushes = h.cpu.processor.flushes)
    fun _ _ => False := by
  simp only [invept, expose, processor, onProcessor, onCpu, ends_bind, ends_get, ends_modify,
    ends_pure, ends_require]
  split
  · exact ⟨rfl, rfl⟩
  · simp only [ends_pure, and_self, ite_self]

theorem formatBlock_safe {page : Hpa} (hlive : P → page.pageDown ∈ h.memory.pages) :
    (formatBlock page).Safe F h P
      (fun _ h' => ∃ f, h'.memory = h.memory.edited page f) (fun _ h' => h'.memory = h.memory) := by
  refine processor_quiet.step (fun c h₁ hc => ?_) fun _ _ he _ _ => he
  have hc : h₁.memory = h.memory := hc
  refine Safe.require_bind (fun _ => ?_) fun _ _ _ => hc
  refine onMemory_safe (Memory.pageWords_bind (fun hP => ?_) (Safe.last (Memory.updatePage_bind ?_)))
  · rw [hc]
    exact hlive hP
  · exact Safe.pure fun _ _ => ⟨_, by rw [hc]⟩

theorem toList_pages (v : Vector Hpa 5) : v.toList = [v.get 0, v.get 1, v.get 2, v.get 3, v.get 4] := by
  refine List.ext_getElem v.length_toList fun i hi _ => ?_
  rw [v.length_toList] at hi
  interval_cases i <;> rfl

def TornDown (m : Memory) (a : Account) (roots : Set Hpa) (root : Hpa) (m' : Memory) : Prop :=
  ∃ a', m.Shrinks root a m' a' ∧ a'.Rooted roots ∧ a'.held = a.held ∧
    ∀ i, m'.entry ⟨root, i⟩ = .empty

theorem teardown_safe {a : Account} (roots : Set Hpa) {root : Hpa} {t : Ept}
    (hroot : t.root = some root) :
    (teardown t).Safe F h (h.memory.Balanced a ∧ a.Rooted roots ∧ root ∈ roots ∧
        a.level root = some 3)
      (fun _ h' => TornDown h.memory a roots root h'.memory)
      (fun _ h' => TornDown h.memory a roots root h'.memory) := by
  have hclear := Ept.clear_safe (F := F) (m := h.memory) (a := a) roots hroot
  refine Safe.bind (R := fun _ h₁ => TornDown h.memory a roots root h₁.memory)
    (onTable_safe (hclear.mono (fun _ hp => hp) (fun _ _ _ _ _ hq => hq)
    fun _ _ _ _ _ he => he.elim)) fun _ h₁ => ?_
  refine invept_quiet.safe.mono (fun _ hp => hp) ?_ ?_
  · rintro _ h₂ - - ⟨-, hdone⟩ hm
    have hm : h₂.memory = h₁.memory := hm
    rw [hm]
    exact hdone
  · rintro _ h₂ - - ⟨-, hdone⟩ hm
    have hm : h₂.memory = h₁.memory := hm
    rw [hm]
    exact hdone

theorem teardown_next (t : Ept) (h : Host) :
    (teardown t).Ends h (fun _ h' => h'.memory.next = h.memory.next)
      (fun _ h' => h'.memory.next = h.memory.next) fun _ h' => h'.memory.next = h.memory.next := by
  rw [teardown, ends_bind]
  simp only [onTable, onMemory, onPlatform, Platform.onMemory, ends_onPart, ends_mapError]
  refine Ends.mono (t.clear_next h.memory) (fun _ m' hnext => ?_) (fun _ _ h => h) fun _ _ h => h
  refine (invept_ends { h with memory := m' }).mono (fun _ h' hmemory => ?_) (fun _ h' hmemory => ?_)
    fun _ _ h => h.elim
  · rw [hmemory.1]
    exact hnext
  · rw [hmemory.1]
    exact hnext

end Hypervisor.Host
