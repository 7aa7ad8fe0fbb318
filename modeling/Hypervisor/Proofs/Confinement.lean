import Hypervisor.Proofs.Aloof

/-!
# A run writes to one control block

Whatever is written while a guest runs is written to the block that is current, and that is the block
of the guest from the first write on.  The blocks of all other guests stay as they are, however the run
ends.
-/

namespace Hypervisor.Session

open Hypervisor.Action

/-- Of all control blocks, only that of the guest of `s₀` has changed. -/
structure Confined (s₀ s : Session) : Prop where
  same : s₀.guest.Same s.guest
  others : ∀ p, p ≠ s₀.guest.block → s.host.blocks.block p = s₀.host.blocks.block p

structure Loaded (s₀ s : Session) : Prop extends Confined s₀ s where
  current : s.host.cpu.processor.current = some s₀.guest.block

variable {s₀ s : Session}

theorem Confined.refl (s : Session) : s.Confined s := ⟨.refl _, fun _ _ => rfl⟩

theorem Confined.withBlock (h : Confined s₀ s) (f : ControlBlock → ControlBlock) :
    Confined s₀ (s.withBlock s.guest.block f) := by
  refine ⟨h.same, fun q hq => ?_⟩
  rw [← h.others q hq]
  refine ControlBlocks.block_update_of_ne _ f ?_
  rw [h.same.block]
  exact Ne.symm hq

theorem Confined.withGuest {g : Guest} (h : Confined s₀ s) (hg : s.guest.Same g) :
    Confined s₀ { s with guest := g } :=
  ⟨h.same.trans hg, h.others⟩

theorem Loaded.current_eq {p : Hpa} (h : Loaded s₀ s)
    (hp : s.host.cpu.processor.current = some p) : p = s.guest.block := by
  rw [h.same.block]
  exact Option.some.inj (hp.symm.trans h.current)

theorem confined_aloof (s₀ : Session) : Aloof s₀.guest (Confined s₀) fun _ => Confined s₀ where
  same := Confined.same
  memory := fun _ h => ⟨h.same, h.others⟩
  log := fun _ h => ⟨h.same, h.others⟩
  kernel := fun _ h => ⟨h.same, h.others⟩
  spent := fun _ _ h => ⟨h.same, h.others⟩
  context := fun _ h => ⟨h.same, h.others⟩
  devices := fun _ _ h => h.withGuest ⟨rfl, rfl, rfl, rfl, rfl, rfl⟩
  panic := fun _ _ h => h

theorem loaded_aloof (s₀ : Session) : Aloof s₀.guest (Loaded s₀) fun _ => Confined s₀ where
  same := fun h => h.same
  memory := fun _ h => ⟨⟨h.same, h.others⟩, h.current⟩
  log := fun _ h => ⟨⟨h.same, h.others⟩, h.current⟩
  kernel := fun _ h => ⟨⟨h.same, h.others⟩, h.current⟩
  spent := fun _ _ h => ⟨⟨h.same, h.others⟩, h.current⟩
  context := fun _ h => ⟨⟨h.same, h.others⟩, h.current⟩
  devices := fun _ _ h => ⟨h.withGuest ⟨rfl, rfl, rfl, rfl, rfl, rfl⟩, h.current⟩
  panic := fun _ _ h => h.toConfined

theorem Confined.loaded (h : Confined s₀ s) : Loaded s₀ s.loaded :=
  ⟨⟨h.same, h.others⟩, congrArg some h.same.block⟩

theorem Confined.cleared (h : Confined s₀ s) : Confined s₀ s.cleared :=
  ⟨h.same.trans ⟨rfl, rfl, rfl, rfl, rfl, rfl⟩, (h.withBlock fun b => { b with launched := false }).others⟩

theorem load_loads (h : Confined s₀ s) :
    load.Ends s (fun _ t => Loaded s₀ t) (fun _ t => Confined s₀ t) fun _ t => Confined s₀ t :=
  load_ends (fun _ => h.loaded) (fun _ _ _ => h) fun _ _ => ⟨h.same, h.others⟩

theorem activate_loads (h : Confined s₀ s) :
    activate.Ends s (fun _ t => Loaded s₀ t) (fun _ t => Confined s₀ t) fun _ t => Confined s₀ t :=
  activate_ends (fun _ => h.cleared.loaded) (fun _ _ _ => h) (fun _ _ => ⟨h.same, h.others⟩)
    fun _ _ => ⟨h.same, h.cleared.others⟩

theorem deactivate_confined : deactivate.Upholds (Confined s₀) fun _ => Confined s₀ :=
  fun _ h => deactivate_ends ⟨h.cleared.same, h.cleared.others⟩ fun _ _ => ⟨h.same, h.others⟩

theorem launch_loaded : launch.Upholds (Loaded s₀) fun _ => Confined s₀ := by
  refine launch_upholds (fun launched s h => ?_) (fun _ h => ⟨⟨h.same, h.others⟩, h.current⟩)
    fun h => ⟨h.withGuest ⟨rfl, rfl, rfl, rfl, rfl, rfl⟩, h.current⟩
  rw [onHost, ends_onPart]
  refine Host.vmenter_ends (fun p e c hp _ hc => ?_) (fun _ => ⟨⟨h.same, h.others⟩, h.current⟩)
    (fun _ _ _ => ⟨⟨h.same, h.others⟩, h.current⟩) (fun p e c _ hc => ?_)
    fun _ _ => ⟨⟨h.same, h.others⟩, h.current⟩
  · obtain rfl : p = s.guest.block := h.current_eq hp
    obtain ⟨launches, resumes, hcounted⟩ := c.exists_counted launched
    refine ⟨⟨h.same, (h.withBlock fun b => b.reported e).others⟩, ?_⟩
    rw [hcounted, hc.eq]
    exact h.current
  · refine ⟨⟨h.same, h.others⟩, ?_⟩
    rw [hc.eq]
    exact h.current

theorem loaded_programmable (s₀ : Session) :
    Programmable s₀.guest (Loaded s₀) fun _ => Confined s₀ := by
  refine (loaded_aloof s₀).programmable (fun hp _ h => ?_) fun _ _ _ h => ?_
  · obtain rfl := h.current_eq hp
    exact ⟨h.withBlock _, h.current⟩
  · exact ⟨h.withGuest ⟨rfl, rfl, rfl, rfl, rfl, rfl⟩, h.current⟩

theorem confined_runnable (s₀ : Session) :
    Runnable s₀.guest (Confined s₀) (Loaded s₀) fun _ => Confined s₀ where
  calm := (confined_aloof s₀).calm
  onCpu := loaded_programmable s₀
  activate := activate_loads
  load := load_loads
  launch := launch_loaded
  deactivate := deactivate_confined
  leave := fun h => h.toConfined

/-- However a run ends, all control blocks but that of its guest are as before. -/
theorem run_confined : Session.run.Upholds (Confined s₀) fun _ => Confined s₀ :=
  (confined_runnable s₀).run_upholds fun _ h => ⟨h.same, h.others⟩

end Hypervisor.Session
