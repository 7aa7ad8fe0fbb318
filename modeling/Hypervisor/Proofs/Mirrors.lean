import Hypervisor.Proofs.Aloof

/-!
# What the hypervisor remembers of the processor

The hypervisor keeps a copy of which control block is current, of whether the processor is in VMX root
operation, and of whether the block of a guest is launched.  As long as no instruction is made to fail,
putting a guest on a cpu, running it there and taking it off again changes each copy with its original.
-/

namespace Hypervisor

open Hypervisor.Action

/-- What is remembered of the processor is so, and no instruction is made to fail. -/
structure Cpu.Mirrors (c : Cpu) : Prop where
  current : c.current = c.processor.current
  root : c.region.isSome = c.processor.root
  faultless : c.processor.faults = []

namespace Cpu.Mirrors

variable {c : Cpu}

theorem root_of_region {p : Hpa} (h : c.Mirrors) (hregion : c.region = some p) :
    c.processor.root = true := by
  rw [← h.root, hregion]
  rfl

theorem root_of_no_region (h : c.Mirrors) (hregion : c.region = none) : c.processor.root = false := by
  rw [← h.root, hregion]
  rfl

theorem no_region (h : c.Mirrors) (hroot : c.processor.root = false) : c.region = none := by
  rw [← Option.not_isSome_iff_eq_none, h.root, hroot]
  exact Bool.false_ne_true

end Cpu.Mirrors

def VmError.Drifted (e : VmError) : Prop := ∃ launched, e = .entry (.ofLaunch launched)

namespace Session

/-- The copies on the cpu and in the guest are right.  Since `s₀` no block but that of the guest has
changed its launch state. -/
structure Mirrors (s₀ s : Session) : Prop where
  same : s₀.guest.Same s.guest
  cpu : s.host.cpu.Mirrors
  launched : s.guest.launched = (s.host.blocks.block s.guest.block).launched
  others : ∀ p, p ≠ s.guest.block →
    (s.host.blocks.block p).launched = (s₀.host.blocks.block p).launched

structure Ready (s₀ s : Session) : Prop extends Mirrors s₀ s where
  current : s.host.cpu.processor.current = some s.guest.block

variable {s₀ s : Session}

theorem Mirrors.withHost {h : Host} (hs : Mirrors s₀ s) (hcpu : h.cpu = s.host.cpu)
    (hblocks : h.blocks = s.host.blocks) : Mirrors s₀ { s with host := h } := by
  refine ⟨hs.same, ?_, ?_, ?_⟩
  · rw [hcpu]
    exact hs.cpu
  · rw [hblocks]
    exact hs.launched
  · rw [hblocks]
    exact hs.others

theorem Mirrors.withGuest {g : Guest} (hs : Mirrors s₀ s) (hsame : s.guest.Same g)
    (hlaunched : g.launched = s.guest.launched) : Mirrors s₀ { s with guest := g } := by
  have hblock := hsame.block
  refine ⟨hs.same.trans hsame, hs.cpu, ?_, ?_⟩
  · rw [hlaunched, hblock]
    exact hs.launched
  · rw [hblock]
    exact hs.others

theorem Mirrors.withBlock {p : Hpa} {f : ControlBlock → ControlBlock} (hs : Mirrors s₀ s)
    (hf : ∀ b, (f b).launched = b.launched) : Mirrors s₀ (s.withBlock p f) :=
  have hsame := s.host.blocks.launched_update p hf
  ⟨hs.same, hs.cpu, hs.launched.trans (hsame _).symm, fun q hq => (hsame q).trans (hs.others q hq)⟩

theorem Ready.current_eq {p : Hpa} (h : Ready s₀ s) (hp : s.host.cpu.processor.current = some p) :
    p = s.guest.block :=
  Option.some.inj (hp.symm.trans h.current)

theorem mirrors_aloof (s₀ : Session) : Aloof s₀.guest (Mirrors s₀) fun _ _ => True where
  same := Mirrors.same
  memory := fun _ h => h.withHost rfl rfl
  log := fun _ h => h.withHost rfl rfl
  kernel := fun _ h => h.withHost rfl rfl
  spent := fun p f h => by
    rw [Host.spent_of_faultless h.cpu.faultless]
    exact h
  context := fun _ h => ⟨h.same, h.cpu, h.launched, h.others⟩
  devices := fun _ _ h => h.withGuest ⟨rfl, rfl, rfl, rfl, rfl, rfl⟩ rfl
  panic := fun _ _ _ => trivial

theorem ready_aloof (s₀ : Session) :
    Aloof s₀.guest (Ready s₀) (fun _ _ => True) fun e s => Ready s₀ s ∧ ¬e.Drifted where
  same := fun h => h.same
  memory := fun _ h => ⟨h.withHost rfl rfl, h.current⟩
  log := fun _ h => ⟨h.withHost rfl rfl, h.current⟩
  kernel := fun _ h => ⟨h.withHost rfl rfl, h.current⟩
  spent := fun p f h => by
    rw [Host.spent_of_faultless h.cpu.faultless]
    exact h
  context := fun _ h => ⟨⟨h.same, h.cpu, h.launched, h.others⟩, h.current⟩
  devices := fun _ _ h => ⟨h.withGuest ⟨rfl, rfl, rfl, rfl, rfl, rfl⟩ rfl, h.current⟩
  panic := fun _ _ _ => trivial
  back := fun h => h.1
  refused := fun {e _} he h => ⟨h, by
    rintro ⟨launched, rfl⟩
    exact he.elim id id⟩
  struck := fun h => Processor.forall_faults h.cpu.faultless

theorem not_drifted_foreignVmcs : ¬VmError.foreignVmcs.Drifted := by
  rintro ⟨launched, hl⟩
  cases hl

theorem load_mirrors (h : Mirrors s₀ s) :
    load.Ends s (fun _ t => Ready s₀ t) (fun e t => Mirrors s₀ t ∧ ¬e.Drifted) fun _ _ => True := by
  refine load_ends (fun _ => ?_) (fun _ _ _ => ⟨h, not_drifted_foreignVmcs⟩)
    (Processor.forall_faults h.cpu.faultless)
  exact ⟨⟨h.same, ⟨rfl, h.cpu.root, Processor.faultless_spent h.cpu.faultless _ _⟩, h.launched,
    h.others⟩, rfl⟩

theorem Mirrors.cleared_launched (h : Mirrors s₀ s) :
    s.cleared.guest.launched = (s.cleared.host.blocks.block s.guest.block).launched ∧
      ∀ q, q ≠ s.guest.block →
        (s.cleared.host.blocks.block q).launched = (s₀.host.blocks.block q).launched := by
  refine ⟨(Host.launched_cleared _ _).symm, fun q hq => ?_⟩
  exact (congrArg ControlBlock.launched (Host.block_cleared_of_ne _ hq)).trans (h.others q hq)

theorem activate_mirrors (h : Mirrors s₀ s) :
    activate.Ends s (fun _ t => Ready s₀ t) (fun e t => Mirrors s₀ t ∧ ¬e.Drifted)
      fun _ _ => True := by
  have hf : s.cleared.host.cpu.processor.faults = [] := Processor.faultless_spent h.cpu.faultless _ _
  refine activate_ends (fun _ => ?_) (fun _ _ _ => ⟨h, not_drifted_foreignVmcs⟩)
    (Processor.forall_faults h.cpu.faultless) (Processor.forall_faults hf)
  obtain ⟨hlaunched, hothers⟩ := h.cleared_launched
  exact ⟨⟨h.same.trans ⟨rfl, rfl, rfl, rfl, rfl, rfl⟩,
    ⟨rfl, h.cpu.root, Processor.faultless_spent hf _ _⟩, hlaunched, hothers⟩, rfl⟩

theorem deactivate_mirrors : deactivate.Upholds (Mirrors s₀) fun _ _ => True := by
  intro s h
  refine deactivate_ends ?_ (Processor.forall_faults h.cpu.faultless)
  obtain ⟨hlaunched, hothers⟩ := h.cleared_launched
  refine ⟨h.same.trans ⟨rfl, rfl, rfl, rfl, rfl, rfl⟩,
    ⟨?_, h.cpu.root, Processor.faultless_spent h.cpu.faultless _ _⟩, hlaunched, hothers⟩
  exact congrArg (fun c => if c = some s.guest.block then none else c) h.cpu.current

/-- The block is in the launch state of the guest, and both are launched then. -/
theorem launch_ready :
    launch.Upholds (Ready s₀) (fun _ _ => True) fun e s => Ready s₀ s ∧ ¬e.Drifted := by
  intro s h
  have hready : Ready s₀ { s with host := s.host.spent .enter none } :=
    (ready_aloof s₀).spent .enter none h
  have hplays : ∀ {e c}, (s.host.cpu.processor.spent .enter none).Plays e c →
      c = { s.host.cpu.processor with script := c.script } := by
    intro e c hc
    rw [Processor.spent_of_faultless h.cpu.faultless] at hc
    exact hc.eq
  simp only [launch, onHost, onContext, onGuest, ends_bind, ends_get, ends_onPart, ends_modify]
  refine Host.vmenter_ends (fun p e c hp _ hc => ?_) (fun hnone => ?_) (fun p hp hl => ?_)
    (fun p e c _ hc => ?_) (Processor.forall_faults h.cpu.faultless)
  · obtain rfl := h.current_eq hp
    obtain ⟨launches, resumes, hcounted⟩ := c.exists_counted s.guest.launched
    rw [hcounted, hplays hc]
    refine ⟨⟨h.same.trans ⟨rfl, rfl, rfl, rfl, rfl, rfl⟩,
      ⟨h.cpu.current, h.cpu.root, h.cpu.faultless⟩, ?_, fun q hq => ?_⟩, h.current⟩
    · show true = ((s.host.blocks.update s.guest.block _).block s.guest.block).launched
      rw [ControlBlocks.block_update, ControlBlock.launched_reported]
    · exact (congrArg ControlBlock.launched
        (ControlBlocks.block_update_of_ne _ _ (Ne.symm hq))).trans (h.others q hq)
  · rw [h.current] at hnone
    cases hnone
  · obtain rfl := h.current_eq hp
    exact absurd h.launched.symm hl
  · rw [hplays hc]
    refine ⟨⟨⟨h.same, ⟨h.cpu.current, h.cpu.root, h.cpu.faultless⟩, h.launched, h.others⟩,
      h.current⟩, ?_⟩
    rintro ⟨launched, hl⟩
    cases launched <;> cases hl

theorem mirrors_programmable (s₀ : Session) :
    Programmable s₀.guest (Mirrors s₀) fun _ _ => True :=
  (mirrors_aloof s₀).programmable (fun _ hf h => h.withBlock hf)
    fun _ _ _ h => h.withGuest ⟨rfl, rfl, rfl, rfl, rfl, rfl⟩ rfl

theorem ready_programmable (s₀ : Session) : Programmable s₀.guest (Ready s₀) (fun _ _ => True)
    fun e s => Ready s₀ s ∧ ¬e.Drifted :=
  (ready_aloof s₀).programmable
    (fun _ hf h => ⟨h.withBlock hf, h.current⟩)
    fun _ _ _ h => ⟨h.withGuest ⟨rfl, rfl, rfl, rfl, rfl, rfl⟩ rfl, h.current⟩

theorem mirrors_runnable (s₀ : Session) :
    Runnable s₀.guest (Mirrors s₀) (Ready s₀) (fun _ _ => True)
      (fun e s => Mirrors s₀ s ∧ ¬e.Drifted) fun e s => Ready s₀ s ∧ ¬e.Drifted where
  calm := (mirrors_aloof s₀).calm
  onCpu := ready_programmable s₀
  activate := activate_mirrors
  load := load_mirrors
  launch := launch_ready
  deactivate := deactivate_mirrors
  leave := fun h => h.toMirrors
  turnedAway := fun h => h.1

/-- However a run ends, the copies are right, and no launch state was found to have drifted. -/
theorem run_mirrors (h : Mirrors s₀ s) :
    Session.run.Ends s (fun _ t => Mirrors s₀ t) (fun e t => Mirrors s₀ t ∧ ¬e.Drifted)
      fun _ _ => True := by
  have hkernel : ∀ {s : Session} k, Mirrors s₀ s →
      Mirrors s₀ { s with host := { s.host with kernel := k } } := fun _ h => h.withHost rfl rfl
  refine Ends.mono ((mirrors_runnable s₀).run_ends (K := Mirrors s₀) (fun _ h => hkernel _ h)
    (fun _ h => hkernel _ h) (fun _ h => hkernel _ h) (fun _ _ h => h.2) (fun _ _ h => h) h) ?_ ?_
    fun _ _ h => h
  · rintro r t (⟨-, ht⟩ | ⟨-, ht⟩) <;> exact ht
  · rintro e t ⟨⟨-, ht⟩ | ⟨-, ht⟩, he⟩ <;> exact ⟨ht, he⟩

end Session

end Hypervisor
