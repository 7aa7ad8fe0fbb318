import Hypervisor.Machine.Command
import Hypervisor.Proofs.Upholds

/-!
# Parts of a machine

An action on one cpu and one guest changes these and what all cpus share; the other cpus and guests
stay as they are.
-/

namespace Hypervisor.Machine

open Hypervisor.Action

variable {α : Type} {m : Machine} {Q : α → Machine → Prop} {E : VmError → Machine → Prop}
  {F : Panic → Machine → Prop}

def withSession (m : Machine) (cpu vm : Nat) (s : Session) : Machine :=
  { m.withHost cpu s.host with vms := m.vms.setIfInBounds vm (some ⟨s.guest, s.context⟩) }

theorem onHost_ends_of {cpu : Nat} {x : HostM α} {c : Cpu} (hc : m.cpus[cpu]? = some c)
    (hx : x.Ends (m.host c) (fun a h => Q a (m.withHost cpu h)) (fun e h => E e (m.withHost cpu h))
      fun p h => F p (m.withHost cpu h)) : (onHost cpu x).Ends m Q E F := by
  have hrun : (onHost cpu x).run m =
      (onPart (fun m => m.host c) (fun m h => m.withHost cpu h) x).run m := by
    simp only [onHost, EStateM.run, hc]
  rw [← ends_onPart (fun m : Machine => m.host c) (fun m h => m.withHost cpu h) x] at hx
  rwa [Ends, hrun]

theorem onHost_ends {cpu : Nat} {x : HostM α}
    (hmissing : m.cpus[cpu]? = none → E .invalidArgument m)
    (hx : ∀ c, m.cpus[cpu]? = some c →
      x.Ends (m.host c) (fun a h => Q a (m.withHost cpu h)) (fun e h => E e (m.withHost cpu h))
        fun p h => F p (m.withHost cpu h)) : (onHost cpu x).Ends m Q E F := by
  cases hc : m.cpus[cpu]? with
  | none =>
      have hrun : (onHost cpu x).run m = .error (.error .invalidArgument) m := by
        simp only [onHost, EStateM.run, hc]
      exact (ends_error hrun).2 (hmissing hc)
  | some c => exact onHost_ends_of hc (hx c hc)

/-- Work on a guest and a cpu that are there. -/
theorem onSession_ends_of {cpu vm : Nat} {x : SessionM α} {c : Cpu} {v : Vm}
    (hc : m.cpus[cpu]? = some c) (hv : m.vms[vm]? = some (some v))
    (hx : x.Ends ⟨m.host c, v.guest, v.context⟩ (fun a s => Q a (m.withSession cpu vm s))
      (fun e s => E e (m.withSession cpu vm s)) fun p s => F p (m.withSession cpu vm s)) :
    (onSession cpu vm x).Ends m Q E F := by
  have hrun : (onSession cpu vm x).run m =
      (onPart (fun m => (⟨m.host c, v.guest, v.context⟩ : Session))
        (fun m s => m.withSession cpu vm s) x).run m := by
    simp only [onSession, EStateM.run, hc, hv]
    rfl
  rw [← ends_onPart (fun m : Machine => (⟨m.host c, v.guest, v.context⟩ : Session))
    (fun m s => m.withSession cpu vm s) x] at hx
  rwa [Ends, hrun]

theorem onSession_ends {cpu vm : Nat} {x : SessionM α} (hmissing : E .invalidArgument m)
    (hx : ∀ c v, m.cpus[cpu]? = some c → m.vms[vm]? = some (some v) →
      x.Ends ⟨m.host c, v.guest, v.context⟩ (fun a s => Q a (m.withSession cpu vm s))
        (fun e s => E e (m.withSession cpu vm s)) fun p s => F p (m.withSession cpu vm s)) :
    (onSession cpu vm x).Ends m Q E F := by
  by_cases hpresent : ∃ c v, m.cpus[cpu]? = some c ∧ m.vms[vm]? = some (some v)
  · obtain ⟨c, v, hc, hv⟩ := hpresent
    exact onSession_ends_of hc hv (hx c v hc hv)
  · have hrun : (onSession cpu vm x).run m = .error (.error .invalidArgument) m := by
      simp only [onSession, EStateM.run]
      split
      · rename_i c v hc hv
        exact absurd ⟨c, v, hc, hv⟩ hpresent
      · rfl
    exact (ends_error hrun).2 hmissing

theorem vm_ends_of {j : Nat} {f : Vm → MachineM α} {v : Vm} (hv : m.vms[j]? = some (some v))
    (hf : (f v).Ends m Q E F) : (vm j >>= f).Ends m Q E F := by
  rw [vm, bind_assoc, ends_bind, ends_get, hv]
  exact hf

theorem vm_ends {j : Nat} {f : Vm → MachineM α} (hmissing : E .invalidArgument m)
    (hf : ∀ v, m.vms[j]? = some (some v) → (f v).Ends m Q E F) : (vm j >>= f).Ends m Q E F := by
  rw [vm, bind_assoc, ends_bind, ends_get]
  split
  · exact hf _ ‹_›
  · exact hmissing

theorem table_ends {o : Option Nat} {j : Nat} {f : Ept → MachineM α}
    (hmissing : E .invalidArgument m)
    (hguest : ∀ v, m.vms[j]? = some (some v) → (f v.guest.table).Ends m Q E F)
    (htable : ∀ t ∈ m.tables, (f t).Ends m Q E F) : (Machine.table o j >>= f).Ends m Q E F := by
  cases o with
  | none =>
      rw [Machine.table, bind_assoc]
      exact vm_ends hmissing hguest
  | some o =>
      rw [Machine.table, bind_assoc, ends_bind, ends_get, ends_bind, ends_orFail]
      split
      · exact htable _ (Array.mem_of_getElem? ‹_›)
      · exact hmissing

section Invariants

variable {I : Machine → Prop} {j : Nat}

theorem done_upholds {x : MachineM Unit} (hx : x.Upholds I F) : (done x).Upholds I F :=
  Upholds.bind hx fun _ => Upholds.pure

theorem vm_upholds {f : Vm → MachineM α} (hf : ∀ v, (f v).Upholds I F) : (vm j >>= f).Upholds I F :=
  fun m h => vm_ends h fun v _ => hf v m h

theorem guest_upholds {f : Guest → MachineM α} (hf : ∀ g, (f g).Upholds I F) :
    ((do return (← vm j).guest) >>= f).Upholds I F := by
  rw [bind_assoc]
  exact vm_upholds fun v => hf v.guest

theorem table_upholds {o : Option Nat} {f : Ept → MachineM α} (hf : ∀ t, (f t).Upholds I F) :
    (Machine.table o j >>= f).Upholds I F :=
  fun m h => table_ends h (fun v _ => hf v.guest.table m h) fun t _ => hf t m h

end Invariants

theorem cpus_withHost {cpu i : Nat} {c : Cpu} {h : Host}
    (hi : (m.withHost cpu h).cpus[i]? = some c) :
    i = cpu ∧ c = h.cpu ∨ i ≠ cpu ∧ m.cpus[i]? = some c := by
  simp only [withHost, Array.getElem?_setIfInBounds] at hi
  split at hi
  · rename_i heq
    split at hi
    · exact .inl ⟨heq.symm, (Option.some.inj hi).symm⟩
    · cases hi
  · rename_i hne
    exact .inr ⟨Ne.symm hne, hi⟩

theorem cpus_withHost_self {cpu : Nat} {c : Cpu} (h : Host) (hc : m.cpus[cpu]? = some c) :
    (m.withHost cpu h).cpus[cpu]? = some h.cpu :=
  Array.getElem?_setIfInBounds_self_of_lt (Array.getElem?_eq_some_iff.1 hc).1

theorem cpus_withSession {cpu vm i : Nat} {c : Cpu} {s : Session}
    (h : (m.withSession cpu vm s).cpus[i]? = some c) :
    i = cpu ∧ c = s.host.cpu ∨ i ≠ cpu ∧ m.cpus[i]? = some c :=
  cpus_withHost h

theorem vms_withSession {cpu vm i : Nat} {v : Vm} {s : Session}
    (h : (m.withSession cpu vm s).vms[i]? = some (some v)) :
    i = vm ∧ v = ⟨s.guest, s.context⟩ ∨ i ≠ vm ∧ m.vms[i]? = some (some v) := by
  simp only [withSession, Array.getElem?_setIfInBounds] at h
  split at h
  · rename_i hi
    split at h
    · exact .inl ⟨hi.symm, (Option.some.inj (Option.some.inj h)).symm⟩
    · cases h
  · rename_i hi
    exact .inr ⟨Ne.symm hi, h⟩

/-- The cpu and the guest of the session are there. -/
theorem cpus_withSession_self {cpu vm : Nat} {c : Cpu} {s : Session} (hc : m.cpus[cpu]? = some c) :
    (m.withSession cpu vm s).cpus[cpu]? = some s.host.cpu :=
  cpus_withHost_self s.host hc

theorem vms_withSession_self {cpu vm : Nat} {v : Vm} {s : Session}
    (hv : m.vms[vm]? = some (some v)) :
    (m.withSession cpu vm s).vms[vm]? = some (some ⟨s.guest, s.context⟩) :=
  Array.getElem?_setIfInBounds_self_of_lt (Array.getElem?_eq_some_iff.1 hv).1

end Hypervisor.Machine
