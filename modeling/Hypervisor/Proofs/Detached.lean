import Hypervisor.Cpu.RootOperation
import Hypervisor.Proofs.Run

/-!
# Invariants of memory and devices

An invariant may say nothing of control blocks, of the processor, or of the block that is current.
Such an invariant survives every instruction, and it is kept by a run if what is done to memory keeps
it.
-/

namespace Hypervisor

structure Host.Rootless (H : Host → Prop) (F : Panic → Host → Prop)
    (E : VmError → Host → Prop := fun _ => H) : Prop extends Host.Calm H F E where
  mode : ∀ {h : Host} {c : Processor}, c.script = h.cpu.processor.script →
    c.faults = h.cpu.processor.faults → H h → H (h.withProcessor c)

/-- The invariant says nothing of control blocks, of the current block, or of the processor, but perhaps
of the faults that are left to inject. -/
structure Host.Detached (H : Host → Prop) (F : Panic → Host → Prop)
    (E : VmError → Host → Prop := fun _ => H) : Prop extends Host.Rootless H F E where
  blocks : ∀ {h} b, H h → H { h with blocks := b }
  processor : ∀ {h : Host} {c : Processor}, c.faults ⊆ h.cpu.processor.faults → H h →
    H { h with cpu := { h.cpu with processor := c } }
  current : ∀ {h} b, H h → H { h with cpu := { h.cpu with current := b } }
  entry : ∀ {e h}, H h → E (.entry e) h := by exact fun h => h
  mode := fun _ hfaults h => processor (hfaults ▸ List.Subset.refl _) h

namespace Host

open Hypervisor.Action

variable {H : Host → Prop} {F : Panic → Host → Prop} {E : VmError → Host → Prop}

namespace Calm

theorem plain (hH : Calm H F E) : Calm H F where
  overflow := hH.overflow
  log := hH.log
  kernel := hH.kernel
  spent := hH.spent

theorem require (hH : Calm H F E) {c : Bool} {e : VmError} (he : e.Rejects) :
    (Action.require c e : HostM Unit).Upholds H F E :=
  Upholds.require_of fun _ h => hH.refused he h

theorem checkSupport (hH : Calm H F E) : Host.checkSupport.Upholds H F E := by
  refine Upholds.bind Calm.processor fun p => Upholds.ite (fun _ => Upholds.pure) fun _ => ?_
  exact Upholds.bind (hH.sayOnCpu _ _) fun _ => Upholds.fail_of fun _ h => hH.refused trivial h

theorem checkEpt (hH : Calm H F E) : Host.checkEpt.Upholds H F E := by
  refine Upholds.bind Calm.processor fun p => Upholds.ite (fun _ => Upholds.pure) fun _ => ?_
  exact Upholds.bind (hH.sayOnCpu _ _) fun _ => Upholds.fail_of fun _ h => hH.refused trivial h

end Calm

namespace Rootless

theorem onProcessor (hH : Rootless H F E) {f : Processor → Processor}
    (hscript : ∀ c, (f c).script = c.script) (hfaults : ∀ c, (f c).faults = c.faults) :
    (Host.onProcessor f).Upholds H F E :=
  fun _ h => hH.mode (hscript _) (hfaults _) h

theorem vmxon (hH : Rootless H F E) : Host.vmxon.Upholds H F E := by
  refine Upholds.bind (hH.expose _ _) fun _ => Upholds.bind Calm.processor fun p => ?_
  refine Upholds.bind (hH.require trivial) fun _ => Upholds.bind (hH.require trivial) fun _ => ?_
  exact hH.onProcessor (fun _ => rfl) fun _ => rfl

theorem vmxoff (hH : Rootless H F E) : Host.vmxoff.Upholds H F E := by
  refine Upholds.bind (hH.expose _ _) fun _ => Upholds.bind Calm.processor fun p => ?_
  exact Upholds.bind (hH.require trivial) fun _ => hH.onProcessor (fun _ => rfl) fun _ => rfl

theorem prepareFixed (hH : Rootless H F E) (r : FixedRegister) :
    (Host.prepareFixed r).Upholds H F E := by
  refine Upholds.bind Calm.processor fun p => ?_
  exact Upholds.bind (hH.onProcessor (fun _ => rfl) fun _ => rfl) fun _ => hH.require trivial

theorem lockFeatureControl (hH : Rootless H F E) : Host.lockFeatureControl.Upholds H F E := by
  refine Upholds.bind Calm.processor fun p => Upholds.bind (hH.require trivial) fun _ => ?_
  refine Upholds.ite (fun _ => Upholds.pure) fun _ => ?_
  exact hH.onProcessor (fun _ => rfl) fun _ => rfl

end Rootless

namespace Detached

theorem plain (hH : Detached H F E) : Detached H F where
  toCalm := hH.toCalm.plain
  blocks := hH.blocks
  processor := hH.processor
  current := hH.current

theorem vmwrite (hH : Detached H F E) (f : Field) (w : UInt64) : (Host.vmwrite f w).Upholds H F E :=
  hH.toCalm.vmwrite fun _ hh => hH.blocks _ hh

theorem vmwriteAll (hH : Detached H F E) (writes : List (Field × UInt64)) :
    (Host.vmwriteAll writes).Upholds H F E :=
  hH.toCalm.vmwriteAll fun _ _ _ _ _ hh => hH.blocks _ hh

theorem vmclear (hH : Detached H F E) (p : Hpa) : (Host.vmclear p).Upholds H F E := by
  intro h hh
  have hspent := hH.spent .vmclear none hh
  refine vmclear_ends (hH.blocks _ (hH.processor ?_ hspent)) fun x hx => hH.struck hh x hx hspent
  exact List.Subset.refl _

theorem vmptrld (hH : Detached H F E) (p : Hpa) : (Host.vmptrld p).Upholds H F E := by
  intro h hh
  have hspent := hH.spent .vmptrld none hh
  refine vmptrld_ends (hH.processor ?_ hspent) fun x hx => hH.struck hh x hx hspent
  exact List.Subset.refl _

theorem vmenter (hH : Detached H F E) (launched : Bool) : (Host.vmenter launched).Upholds H F E := by
  intro h hh
  have hspent := hH.spent .enter none hh
  have hplayed : ∀ {e c}, (h.cpu.processor.spent .enter none).Plays e c → ∀ launches resumes,
      H (h.withProcessor { c with launches := launches, resumes := resumes }) := by
    intro e c hc launches resumes
    refine hH.processor (h := h.spent .enter none) ?_ hspent
    rw [hc.eq]
    exact List.Subset.refl _
  refine vmenter_ends (fun p e c _ _ hc => hH.blocks _ ?_) (fun _ => hH.entry hspent)
    (fun _ _ _ => hH.entry hspent) (fun p e c _ hc => hH.entry (hplayed hc c.launches c.resumes))
    fun x hx => hH.struck hh x hx hspent
  obtain ⟨launches, resumes, hcounted⟩ := c.exists_counted launched
  rw [hcounted]
  exact hplayed hc launches resumes

theorem initHostState (hH : Detached H F E) : Host.initHostState.Upholds H F E :=
  Upholds.get_bind fun _ _ => hH.vmwriteAll _

theorem initGuestState (hH : Detached H F E) : Host.initGuestState.Upholds H F E :=
  hH.vmwriteAll _

end Detached

end Host

namespace Session

open Hypervisor.Action

/-- The invariant says nothing of control blocks, of the current block, of the processor, but perhaps of
the faults that are left to inject, or of what a run changes in the guest. -/
structure Detached (g : Guest) (I : Session → Prop) (F : Panic → Session → Prop)
    (E : VmError → Session → Prop := fun _ => I) : Prop where
  same : ∀ {s}, I s → g.Same s.guest
  host : ∀ s : Session, Host.Detached (fun h => I { s with host := h })
    (fun p h => F p { s with host := h }) fun e h => E e { s with host := h }
  skip : ∀ {s : Session} {p}, s.host.cpu.processor.current = some p →
    (s.host.blocks.block p).Overruns s.context.rip → I s → F .addOverflow s
  context : ∀ {s : Session} c, I s → I { s with context := c }
  guest : ∀ {s : Session} {g'}, s.guest.Same g' → I s → I { s with guest := g' }
  resolve : ∀ gpa, (onMemory (g.table.resolve gpa)).Upholds I F
  fault : ∀ gpa, (onMemory (g.table.onAccess g.physSize gpa)).Upholds I F E
  readMsrs : (onMemory (Memory.pageWords g.guestMsrArea)).Upholds I F
  writeMsrs : ∀ f, (onMemory (Memory.updatePage g.guestMsrArea f)).Upholds I F
  memoryMap : giveMemoryMap.Upholds I F E
  bitmaps : (onMemory g.interceptEmulatedPorts).Upholds I F
  msrs : ∀ rdmsr, (onMemory (g.listMsrs rdmsr)).Upholds I F
  foreign : ∀ {s}, I s → E .foreignVmcs s := by exact fun h => h

variable {g : Guest} {I : Session → Prop} {F : Panic → Session → Prop}
  {E : VmError → Session → Prop}

theorem unlaunched_of (hguest : ∀ {s : Session} {g'}, s.guest.Same g' → I s →
      I { s with guest := g' }) : (onGuest fun g => { g with launched := false }).Upholds I F E :=
  fun _ h => hguest ⟨rfl, rfl, rfl, rfl, rfl, rfl⟩ h

theorem deactivate_of (hhost : ∀ s : Session, Host.Detached (fun h => I { s with host := h })
      (fun p h => F p { s with host := h }) fun e h => E e { s with host := h })
    (hguest : ∀ {s : Session} {g'}, s.guest.Same g' → I s → I { s with guest := g' }) :
    deactivate.Upholds I F E := by
  refine Upholds.get_bind fun s _ => ?_
  refine Upholds.bind (onHost_upholds fun t _ => (hhost t).vmclear _) fun _ => ?_
  refine Upholds.bind (unlaunched_of hguest) fun _ => onHost_upholds fun t _ => ?_
  exact fun _ h => (hhost t).current _ h

namespace Detached

theorem withBlock (hI : Detached g I F E) {s : Session} {p : Hpa} {f : ControlBlock → ControlBlock}
    (h : I s) : I (s.withBlock p f) :=
  (hI.host s).blocks _ h

theorem alert (hI : Detached g I F E) : Alert g I F E where
  same := hI.same
  host := fun s => (hI.host s).toCalm
  skip := hI.skip
  mode := fun _ _ => hI.withBlock
  context := hI.context
  rtc := fun _ => hI.guest ⟨rfl, rfl, rfl, rfl, rfl, rfl⟩
  resolve := hI.resolve
  fault := hI.fault
  readMsrs := hI.readMsrs
  writeMsrs := hI.writeMsrs
  memoryMap := hI.memoryMap
  vector := fun _ => hI.guest ⟨rfl, rfl, rfl, rfl, rfl, rfl⟩
  inject := fun _ _ => hI.withBlock
  window := fun _ _ => hI.withBlock

theorem calm (hI : Detached g I F E) : Calm g.table I F where
  table := fun h => (hI.same h).table
  host := fun s => (hI.host s).toCalm.plain
  resolve := hI.resolve

theorem checkOwner (hI : Detached g I F E) :
    checkOwner.Upholds I F fun e s => I s ∧ E e s :=
  fun _ h => checkOwner_ends (fun _ => h) fun _ _ _ => ⟨h, hI.foreign h⟩

theorem noteCurrent (hI : Detached g I F E) : noteCurrent.Upholds I F fun e s => I s ∧ E e s :=
  Upholds.get_bind fun _ _ => onHost_upholds fun s _ => fun _ h => (hI.host s).current _ h

theorem mapError (hI : Detached g I F E) {x : HostM Unit}
    (hx : ∀ {H F}, Host.Detached H F → x.Upholds H F) :
    (onHost (Action.mapError (fun _ => .vmcsInit) x)).Upholds I F fun e s => I s ∧ E e s := by
  refine onHost_upholds fun s _ h hh => ?_
  rw [ends_mapError]
  exact Ends.mono (hx (hI.host s).plain h hh) (fun _ _ ht => ht)
    (fun _ _ ht => ⟨ht, (hI.host s).refused trivial ht⟩) fun _ _ hp => hp

theorem activate_refuses (hI : Detached g I F E) :
    activate.Upholds I F fun e s => I s ∧ E e s := by
  refine Upholds.bind hI.checkOwner fun _ => Upholds.get_bind fun s _ => ?_
  refine Upholds.bind (hI.mapError fun hH => ?_) fun _ => ?_
  · exact Upholds.bind (hH.vmclear _) fun _ => hH.vmptrld _
  · exact Upholds.bind (unlaunched_of hI.guest) fun _ => hI.noteCurrent

theorem load_refuses (hI : Detached g I F E) : load.Upholds I F fun e s => I s ∧ E e s := by
  refine Upholds.bind hI.checkOwner fun _ => Upholds.get_bind fun s _ => ?_
  exact Upholds.bind (hI.mapError fun hH => hH.vmptrld _) fun _ => hI.noteCurrent

theorem activate (hI : Detached g I F E) : activate.Upholds I F :=
  hI.activate_refuses.mono (fun _ _ h => h.1) fun _ _ h => h

theorem load (hI : Detached g I F E) : load.Upholds I F :=
  hI.load_refuses.mono (fun _ _ h => h.1) fun _ _ h => h

theorem deactivate (hI : Detached g I F E) : deactivate.Upholds I F :=
  deactivate_of (fun s => (hI.host s).plain) hI.guest

theorem launch (hI : Detached g I F E) : launch.Upholds I F E :=
  launch_upholds (fun launched => onHost_upholds fun s _ => (hI.host s).vmenter launched) hI.context
    (hI.guest ⟨rfl, rfl, rfl, rfl, rfl, rfl⟩)

theorem programmable (hI : Detached g I F E) : Programmable g I F E where
  toAlert := hI.alert
  write := fun _ _ _ => hI.withBlock
  counts := fun _ _ _ => hI.guest ⟨rfl, rfl, rfl, rfl, rfl, rfl⟩
  bitmaps := hI.bitmaps
  msrs := hI.msrs

/-- While the guest is on the cpu, no more holds than before. -/
theorem runnable (hI : Detached g I F E) : Runnable g I I F (fun e s => I s ∧ E e s) E where
  calm := hI.calm
  onCpu := hI.programmable
  activate := hI.activate_refuses _
  load := hI.load_refuses _
  launch := hI.launch
  deactivate := hI.deactivate
  leave := fun h => h
  turnedAway := fun h => h.1

theorem enter (hI : Detached g I F E) : enter.Upholds I F E := by
  have henter : Session.enter = (do
      loadContext
      Session.launch
      saveContext
      onHost (ExitReason.decode Host.vmread)) := by
    simp only [Session.enter, Session.launch, bind_assoc]
  rw [henter]
  refine Upholds.bind hI.programmable.loadContext fun _ => Upholds.bind hI.launch fun _ => ?_
  exact Upholds.bind hI.alert.saveContext fun _ =>
    onHost_upholds fun t _ => (hI.host t).toCalm.decode

end Detached

end Session

end Hypervisor
