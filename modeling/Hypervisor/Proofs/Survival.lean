import Hypervisor.Proofs.Aloof
import Hypervisor.Proofs.Ownership.History

/-!
# Guests and the kernel

However a run ends, the guest goes on or it is destroyed; only a guest that was not run, because
another one is on the cpu, is left alone.  The kernel itself stops only over a sum that the guest has
made too large: the address of its next instruction, or where the instruction ends that it stopped at.
-/

namespace Hypervisor

open Hypervisor.Action

/-- Nothing has happened since but that the kernel served requests. -/
def Kernel.Served (k k' : Kernel) : Prop := k' = { k with requests := k'.requests }

theorem Kernel.Served.trans {k k' k'' : Kernel} (h : k.Served k') (h' : k'.Served k'') :
    k.Served k'' := by
  rw [Served] at h'
  rw [h] at h'
  exact h'

namespace Session

def Free (s : Session) : Prop :=
  s.host.cpu.processor.faults = [] ∧ ∀ p, s.host.cpu.current = some p → p = s.guest.block

/-- No environment was destroyed since `s₀`, and the guest did not lose the cpu to another one. -/
structure Spares (s₀ s : Session) : Prop where
  same : s₀.guest.Same s.guest
  kernel : s₀.host.kernel.Served s.host.kernel
  free : s₀.Free → s.Free

def Destroys (s₀ s : Session) : Prop :=
  s.host.kernel.destroyed = s₀.host.kernel.current :: s₀.host.kernel.destroyed

def Failed (s₀ : Session) (e : VmError) (s : Session) : Prop :=
  Spares s₀ s ∧ (s₀.Free → e ≠ .foreignVmcs)

variable {s₀ s : Session}

theorem Spares.refl (s : Session) : s.Spares s := ⟨.refl _, rfl, fun h => h⟩

theorem Spares.withHost {h : Host} (hs : Spares s₀ s) (hkernel : s.host.kernel.Served h.kernel)
    (hfree : s.Free → Free { s with host := h }) : Spares s₀ { s with host := h } :=
  ⟨hs.same, hs.kernel.trans hkernel, fun h₀ => hfree (hs.free h₀)⟩

theorem Spares.destroyed (hs : Spares s₀ s) :
    s.host.kernel.destroyed = s₀.host.kernel.destroyed := by
  rw [hs.kernel]

theorem Spares.withGuest {g : Guest} (hs : Spares s₀ s) (hg : s.guest.Same g) :
    Spares s₀ { s with guest := g } := by
  refine ⟨hs.same.trans hg, hs.kernel, fun h₀ => ⟨(hs.free h₀).1, fun p hp => ?_⟩⟩
  exact ((hs.free h₀).2 p hp).trans hg.block.symm

theorem Spares.spent (hs : Spares s₀ s) (p : Primitive) (f : Option Field) :
    Spares s₀ { s with host := s.host.spent p f } :=
  hs.withHost rfl fun hfree => by
    rw [Host.spent_of_faultless hfree.1]
    exact hfree

theorem Spares.struck (hs : Spares s₀ s) {x : InjectedFault} (hx : x ∈ s.host.cpu.processor.faults)
    {t : Session} (ht : Spares s₀ t) : Failed s₀ x.error t :=
  ⟨ht, fun h₀ => absurd (hs.free h₀).1 (List.ne_nil_of_mem hx)⟩

theorem spares_aloof (s₀ : Session) : Aloof s₀.guest (Spares s₀) (fun _ _ => True) (Failed s₀) where
  same := fun h => h.same
  memory := fun _ h => h.withHost rfl fun h => h
  log := fun _ h => h.withHost rfl fun h => h
  kernel := fun _ h => h.withHost rfl fun h => h
  spent := fun p f h => h.spent p f
  context := fun _ h => ⟨h.same, h.kernel, h.free⟩
  devices := fun _ _ h => h.withGuest ⟨rfl, rfl, rfl, rfl, rfl, rfl⟩
  panic := fun _ _ _ => trivial
  back := fun h => h.1
  refused := fun {e _} he h => ⟨h, by
    rintro - rfl
    exact he.elim id id⟩
  struck := fun h _ hx _ h' => h.struck hx h'

theorem spares_programmable (s₀ : Session) :
    Programmable s₀.guest (Spares s₀) (fun _ _ => True) (Failed s₀) :=
  (spares_aloof s₀).programmable (fun _ _ h => h.withHost rfl fun h => h)
    fun _ _ _ h => h.withGuest ⟨rfl, rfl, rfl, rfl, rfl, rfl⟩

theorem Spares.clearedHost (hs : Spares s₀ s) : Spares s₀ { s with host := s.cleared.host } :=
  (hs.spent .vmclear none).withHost rfl fun hfree => hfree

theorem Spares.cleared (hs : Spares s₀ s) : Spares s₀ s.cleared :=
  hs.clearedHost.withGuest ⟨rfl, rfl, rfl, rfl, rfl, rfl⟩

theorem Spares.loaded (hs : Spares s₀ s) : Spares s₀ s.loaded :=
  (hs.spent .vmptrld none).withHost rfl fun hfree => ⟨hfree.1, fun _ hp => (Option.some.inj hp).symm⟩

theorem Spares.unloaded (hs : Spares s₀ s) : Spares s₀ s.unloaded := by
  refine hs.cleared.withHost rfl fun hfree => ⟨hfree.1, fun p hp => ?_⟩
  dsimp only at hp
  split at hp
  · cases hp
  · exact hfree.2 p hp

theorem Spares.foreign (hs : Spares s₀ s) {p : Hpa} (hp : s.host.cpu.current = some p)
    (hne : p ≠ s.guest.block) : Failed s₀ .foreignVmcs s :=
  ⟨hs, fun h₀ => absurd ((hs.free h₀).2 p hp) hne⟩

theorem load_spares : load.Upholds (Spares s₀) (fun _ _ => True) (Failed s₀) := fun _ hs =>
  load_ends (fun _ => hs.loaded) (fun _ hp hne => hs.foreign hp hne) fun _ _ => ⟨hs.spent _ _, nofun⟩

theorem activate_spares : activate.Upholds (Spares s₀) (fun _ _ => True) (Failed s₀) := fun _ hs =>
  activate_ends (fun _ => hs.cleared.loaded) (fun _ hp hne => hs.foreign hp hne)
    (fun _ _ => ⟨hs.spent _ _, nofun⟩) fun _ _ => ⟨hs.clearedHost.spent _ _, nofun⟩

theorem deactivate_spares : deactivate.Upholds (Spares s₀) fun _ _ => True := fun _ hs =>
  deactivate_ends hs.unloaded fun _ _ => hs.spent _ _

theorem launch_spares : launch.Upholds (Spares s₀) (fun _ _ => True) (Failed s₀) :=
  (spares_aloof s₀).launch (fun h => ⟨h, fun _ => nofun⟩) (fun _ _ _ h => h.withHost rfl fun h => h)
    (fun _ _ h => h.withHost rfl fun h => h) fun h => h.withGuest ⟨rfl, rfl, rfl, rfl, rfl, rfl⟩

theorem spares_runnable (s₀ : Session) :
    Runnable s₀.guest (Spares s₀) (Spares s₀) (fun _ _ => True) (Failed s₀) (Failed s₀) where
  calm := (spares_aloof s₀).plain.calm
  onCpu := spares_programmable s₀
  activate := activate_spares _
  load := load_spares _
  launch := launch_spares
  deactivate := deactivate_spares
  leave := fun h => h
  turnedAway := fun h => h.1

/-- A run spares the guest if it goes on or was not run, and destroys it otherwise. -/
theorem run_spares (s₀ : Session) : Session.run.Ends s₀
    (fun r t => r = .continued ∧ t.host.kernel.destroyed = s₀.host.kernel.destroyed ∨
      r = .exited ∧ Destroys s₀ t)
    (fun e t => (e = .foreignVmcs ∧ t.host.kernel.destroyed = s₀.host.kernel.destroyed ∨
      e ≠ .foreignVmcs ∧ Destroys s₀ t) ∧ (s₀.Free → e ≠ .foreignVmcs)) fun _ _ => True := by
  have hcalm := (spares_runnable s₀).calm
  have hdestroy : ∀ s, Spares s₀ s → Destroys s₀ s.destroyed := fun s hs => by
    show s.host.kernel.current :: s.host.kernel.destroyed = _
    rw [hs.kernel]
  refine Ends.mono (hcalm.run_ends_of (fun _ _ h => h) (fun e t h => ?_)
    (fun _ hs => hcalm.terminate_ends deactivate_spares hdestroy hs)
    ((spares_runnable s₀).runOnce_ends (.refl s₀))) ?_ ?_ fun _ _ h => h
  · exact h.elim (fun h => h.1) fun h => h.1
  · rintro r t ⟨u, hu, ⟨rfl, rfl⟩ | ⟨rfl, w, hw, rfl⟩⟩
    · exact .inl ⟨rfl, hu.destroyed⟩
    · exact .inr ⟨rfl, hw⟩
  · rintro e t ⟨u, hu, he⟩
    replace hu : Failed s₀ e u := hu.elim id id
    rcases he with ⟨rfl, rfl⟩ | ⟨hne, w, hw, rfl⟩
    · exact ⟨.inl ⟨rfl, hu.1.destroyed⟩, hu.2⟩
    · exact ⟨.inr ⟨hne, hw⟩, hu.2⟩

end Session

namespace Machine

/-- The panic is over a sum that a guest has made too large while it was on a cpu: the address of its
next instruction, or where the instruction ends that it stopped at. -/
def Overflow (i j : Nat) (p : Panic) (m : Machine) : Prop :=
  p = .addOverflow ∧ ∃ c v block, m.cpus[i]? = some c ∧ m.vms[j]? = some (some v) ∧
    c.processor.current = some block ∧
      ((m.blocks.block block).Wraps ∨ (m.blocks.block block).Overruns v.context.rip)

variable {m : Machine} {k : Callers} {i j : Nat} {c : Cpu} {v : Vm}

/-- As long as callers use what is theirs, a run ends with a result or with an error: the guest goes
on, or it is destroyed, or another guest is on the cpu or an instruction was made to fail.  It panics
over nothing but a sum that the guest has made too large. -/
theorem run_survives (h : History Command.Lawful m k) (hc : m.cpus[i]? = some c)
    (hv : m.vms[j]? = some (some v)) :
    (perform { cpu := i, vm := j, order := .run }).Ends m
      (fun a m' =>
        a = .text ExitResult.continued.text ∧ m'.kernel.destroyed = m.kernel.destroyed ∨
        a = .text ExitResult.exited.text ∧
          m'.kernel.destroyed = m.kernel.current :: m.kernel.destroyed)
      (fun e m' =>
        e = .foreignVmcs ∧ m'.kernel.destroyed = m.kernel.destroyed ∧
          ((∃ p, c.current = some p ∧ p ≠ v.guest.block) ∨ c.processor.faults ≠ []) ∨
        e ≠ .foreignVmcs ∧ m'.kernel.destroyed = m.kernel.current :: m.kernel.destroyed)
      fun p m' => m'.memory.Fits → m'.Overflow i j p := by
  have hk : m.Orderly k False := h.orderly id False.elim
  obtain ⟨root, hg⟩ := hk.lodged hv
  have hbears : Session.Bears v.guest c.region (·.Owned (m.estate k) False)
      ⟨m.host c, v.guest, v.context⟩ := ⟨.refl _, rfl, hk.owned⟩
  rw [perform, ends_bind]
  refine onSession_ends_of hc hv ?_
  refine Ends.mono ((Session.run_spares _).and (Session.run_bears hg.housed _ hbears)) ?_ ?_ ?_
  · rintro r s ⟨⟨rfl, hs⟩ | ⟨rfl, hs⟩, -⟩
    · exact .inl ⟨rfl, hs⟩
    · exact .inr ⟨rfl, hs⟩
  · rintro e s ⟨⟨⟨rfl, hs⟩ | ⟨he, hs⟩, hfree⟩, -⟩
    · refine .inl ⟨rfl, hs, ?_⟩
      by_contra hnone
      rw [not_or, not_not, not_exists] at hnone
      exact hfree ⟨hnone.2, fun p hp => not_not.1 fun hne => hnone.1 p ⟨hp, hne⟩⟩ rfl
    · exact .inr ⟨he, hs⟩
  · rintro p s ⟨-, hs⟩ hf
    obtain ⟨rfl, block, hblock, hsum⟩ := hs hf
    exact ⟨rfl, s.host.cpu, ⟨s.guest, s.context⟩, block, cpus_withSession_self hc,
      vms_withSession_self hv, hblock, hsum⟩

def overruns : List Command :=
  [{ order := .build {} }, { order := .setRegisters [(.rip, 0xffffffffffffffff)] },
   { order := .script { event := .cpuid 2 } }]

/-- The kernel stops when the guest runs then. -/
theorem run_survives_overruns : ∃ m k m', History Command.Lawful m k ∧
    (perform { order := .run }).run m = .error (.panic .addOverflow) m' ∧
      m'.Overflow 0 0 .addOverflow := by
  have hallowed : ∀ c ∈ overruns, ∀ m k, c.Lawful m k := Command.forall_lawful rfl
  obtain ⟨m, k, h, hcpu, hvm, hrun⟩ := (History.booted uniprocessor_booted).exists_after
    (P := fun m => m.cpus[0]?.isSome ∧ m.vms[0]?.join.isSome ∧
      (match (perform { order := .run }).run m with
        | .error (.panic .addOverflow) m' => decide m'.memory.Fits
        | _ => false) = true) hallowed (by decide +kernel)
  obtain ⟨c, hc⟩ := Option.isSome_iff_exists.1 hcpu
  obtain ⟨v, hv⟩ := Option.isSome_iff_exists.1 hvm
  have hv' := Option.join_eq_some_iff.1 hv
  split at hrun
  · rename_i m' hpanic
    have hsurvives := run_survives h hc hv'
    exact ⟨m, k, m', h, hpanic, hsurvives.stop hpanic (of_decide_eq_true hrun)⟩
  · cases hrun

end Machine

end Hypervisor
