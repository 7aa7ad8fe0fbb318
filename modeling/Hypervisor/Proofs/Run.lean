import Hypervisor.Proofs.Exit.Dispatch

/-!
# Runs

A run puts the guest on the cpu, prepares its control block, enters it and handles its exit; a guest
that is given up is then taken off the cpu and destroyed.  While the guest is on the cpu more holds
than before and after, and what the last part upholds does not depend on how the guest was given up.
-/

namespace Hypervisor

def Field.controlling : List Field :=
  [.pinBasedExecControls, .processorBasedVmexecControls, .secondaryVmexecControls, .exceptionBitmap,
   .ioBitmapA, .ioBitmapB, .eptptr, .vmexitControls, .vmexitMsrStoreAddr, .vmexitMsrStoreCount,
   .vmexitMsrLoadAddr, .vmexitMsrLoadCount, .vmentryControls, .vmentryMsrLoadAddr,
   .vmentryMsrLoadCount]

namespace Session

open Hypervisor.Action

/-- What a run does up to the instruction that enters the guest. -/
def approach : SessionM Unit := do
  prepareRun
  loadContext

def launch : SessionM Unit := do
  let changed ← onHost (Host.vmenter (← get).guest.launched)
  onContext fun c => c.setAll changed
  onGuest fun g => { g with launched := true }

def handleNext : SessionM ExitResult := do
  saveContext
  let reason ← onHost (ExitReason.decode Host.vmread)
  onHost (Host.sayOnCpu .trace ("VMEXIT: " ++ reason.text))
  dispatch reason

def proceed : SessionM ExitResult := do
  launch
  handleNext

/-- A run approaches the guest and then proceeds. -/
theorem runOnce_eq : runOnce = approach >>= fun _ => proceed := by
  simp only [runOnce, enter, approach, proceed, launch, handleNext, bind_assoc]

theorem executionControls_controlling (caps : ControlCapabilities) (g : Guest) :
    ∀ w ∈ executionControls caps g, w.1 ∈ Field.controlling := by
  simp [executionControls, Field.controlling]

theorem switchControls_controlling (caps : ControlCapabilities) (g : Guest) :
    ∀ w ∈ switchControls caps g, w.1 ∈ Field.controlling := by
  simp [switchControls, Field.controlling]

def destroyed (s : Session) : Session :=
  { s with host := { s.host with kernel := s.host.kernel.destroyCurrent } }

def yielded (s : Session) : Session :=
  { s with host := { s.host with kernel := s.host.kernel.yieldNow } }

def ready (s : Session) : Session :=
  { s with guest := { s.guest with lastCpu := some s.host.cpu.id, runs := s.guest.runs + 1 } }

variable {g : Guest} {t : Ept} {I J : Session → Prop} {F : Panic → Session → Prop}
  {E P : VmError → Session → Prop} {s : Session}

theorem prepareRun_ends_of {Q : Session → Prop}
    (hfirst : s.guest.runs = 0 → prepareFirstRun.Ends s (fun _ t => Q t.ready) E F)
    (hnext : s.guest.runs ≠ 0 → prepareNextRun.Ends s (fun _ t => Q t.ready) E F) :
    prepareRun.Ends s (fun _ t => Q t) E F := by
  rw [prepareRun, ends_bind, ends_get]
  split
  · exact (ends_bind _ _).2 (hfirst ‹_›)
  · exact (ends_bind _ _).2 (hnext ‹_›)

/-- A guest is turned away if the block of another one is current; nothing changes either way. -/
theorem checkOwner_ends {Q : Unit → Session → Prop}
    (hown : (∀ p, s.host.cpu.current = some p → p = s.guest.block) → Q () s)
    (hforeign : ∀ p, s.host.cpu.current = some p → p ≠ s.guest.block → E .foreignVmcs s) :
    checkOwner.Ends s Q E F := by
  rw [checkOwner, ends_bind, ends_get]
  split
  · rename_i block hblock
    rw [ends_require]
    split
    · refine hown fun p hp => ?_
      rw [← Option.some.inj (hblock.symm.trans hp)]
      exact eq_of_beq ‹_›
    · exact hforeign block hblock fun heq => absurd (beq_iff_eq.2 heq) ‹_›
  · rename_i hnone
    exact hown fun p hp => absurd (hnone.symm.trans hp).symm (Option.some_ne_none p)

def loaded (s : Session) : Session :=
  let h := (s.host.spent .vmptrld none).loaded s.guest.block
  { s with host := { h with cpu := { h.cpu with current := some s.guest.block } } }

def cleared (s : Session) : Session :=
  { s with
    host := (s.host.spent .vmclear none).cleared s.guest.block
    guest := { s.guest with launched := false } }

def unloaded (s : Session) : Session :=
  let current := s.host.cpu.current
  let left := if current = some s.guest.block then none else current
  { s.cleared with host := { s.cleared.host with cpu := { s.cleared.host.cpu with current := left } } }

theorem load_ends {Q : Unit → Session → Prop}
    (hload : (∀ p, s.host.cpu.current = some p → p = s.guest.block) → Q () s.loaded)
    (hforeign : ∀ p, s.host.cpu.current = some p → p ≠ s.guest.block → E .foreignVmcs s)
    (hfail : ∀ x ∈ s.host.cpu.processor.faults,
      E .vmcsInit { s with host := s.host.spent .vmptrld none }) : load.Ends s Q E F := by
  rw [load, ends_bind]
  refine checkOwner_ends (fun hown => ?_) hforeign
  simp only [onHost, noteCurrent, Host.onCpu, ends_bind, ends_get, ends_onPart, ends_mapError,
    ends_modify]
  exact Host.vmptrld_ends (hload hown) hfail

theorem activate_ends {Q : Unit → Session → Prop}
    (hload : (∀ p, s.host.cpu.current = some p → p = s.guest.block) → Q () s.cleared.loaded)
    (hforeign : ∀ p, s.host.cpu.current = some p → p ≠ s.guest.block → E .foreignVmcs s)
    (hfail : ∀ x ∈ s.host.cpu.processor.faults,
      E .vmcsInit { s with host := s.host.spent .vmclear none })
    (hfail' : ∀ x ∈ s.cleared.host.cpu.processor.faults,
      E .vmcsInit { s with host := s.cleared.host.spent .vmptrld none }) : activate.Ends s Q E F := by
  rw [activate, ends_bind]
  refine checkOwner_ends (fun hown => ?_) hforeign
  simp only [onHost, onGuest, noteCurrent, Host.onCpu, ends_bind, ends_get, ends_onPart,
    ends_mapError, ends_modify]
  exact Host.vmclear_ends (Host.vmptrld_ends (hload hown) hfail') hfail

theorem deactivate_ends {Q : Unit → Session → Prop} (hclear : Q () s.unloaded)
    (hfail : ∀ x ∈ s.host.cpu.processor.faults,
      E x.error { s with host := s.host.spent .vmclear none }) : deactivate.Ends s Q E F := by
  simp only [deactivate, onHost, onGuest, Host.onCpu, ends_bind, ends_get, ends_onPart, ends_modify]
  exact Host.vmclear_ends hclear hfail

theorem launch_upholds (henter : ∀ launched, (onHost (Host.vmenter launched)).Upholds J F E)
    (hcontext : ∀ {s : Session} c, J s → J { s with context := c })
    (hlaunched : ∀ {s : Session}, J s → J { s with guest := { s.guest with launched := true } }) :
    launch.Upholds J F E := by
  refine Upholds.get_bind fun s _ => Upholds.bind (henter _) fun _ => ?_
  exact Upholds.bind (fun _ h => hcontext _ h) fun _ => fun _ h => hlaunched h

theorem Alert.handleNext (hJ : Alert g J F E) : Session.handleNext.Upholds J F E := by
  refine Upholds.bind hJ.saveContext fun _ => ?_
  refine Upholds.bind (onHost_upholds fun s _ => (hJ.host s).decode) fun reason => ?_
  exact Upholds.bind (hJ.sayOnCpu _ _) fun _ => hJ.dispatch reason

theorem Alert.proceed (hJ : Alert g J F E) (hlaunch : launch.Upholds J F E) :
    Session.proceed.Upholds J F E :=
  Upholds.bind hlaunch fun _ => hJ.handleNext

theorem Calm.terminate_ends (hI : Calm t I F) (hdeactivate : deactivate.Upholds I F)
    {K : Session → Prop} (hdestroy : ∀ s, I s → K s.destroyed) (h : I s) :
    terminate.Ends s (fun _ t => K t) (fun _ _ => False) F := by
  rw [terminate, ends_bind, ends_attempt]
  refine Ends.mono (hdeactivate s h) (fun _ t ht => hdestroy t ht) (fun e t ht => ?_)
    fun _ _ hp => hp
  show Ends _ t _ _ _
  rw [ends_bind]
  have hsay : (onHost (Host.sayOnCpu .warn ("Failed to clear the vmcs: " ++ e.message))).Upholds I F :=
    onHost_upholds fun s _ => (hI.host s).sayOnCpu _ _
  have hunfailing :
      (onHost (Host.sayOnCpu .warn ("Failed to clear the vmcs: " ++ e.message))).Unfailing :=
    Raises.onPart (Host.sayOnCpu_unfailing _ _)
  exact Ends.mono (hunfailing.ends hsay ht) (fun _ u hu => hdestroy u hu) (fun _ _ h => h)
    fun _ _ hp => hp

theorem reportFailure_unfailing (e : VmError) : (reportFailure e).Unfailing := by
  refine Raises.bind (Raises.onPart (Host.sayOnCpu_unfailing _ _)) fun _ => ?_
  refine Raises.bind Raises.get fun s => ?_
  split
  · exact Raises.onPart (Host.dump_unfailing _ _)
  · exact Raises.pure

/-- A run ends as its part up to the end of the exit does.  A guest that does not go on is given up,
unless it was not run for another one on the cpu, and the cpu is given back then.  `K` tells what is
done to give it up. -/
theorem run_ends_of_parts {Q : ExitResult → Session → Prop} {K : Session → Session → Prop}
    (hexited : ∀ u, Q .exited u → terminate.Ends u (fun _ w => K u w) (fun _ _ => False) F)
    (hfailed : ∀ e u, E e u → (reportFailure e >>= fun _ => terminate).Ends u (fun _ w => K u w)
      (fun _ _ => False) F)
    (h : runOnce.Ends s Q E F) :
    Session.run.Ends s
      (fun r t => ∃ u, Q r u ∧
        (r = .continued ∧ t = u.yielded ∨ r = .exited ∧ ∃ w, K u w ∧ t = w.yielded))
      (fun e t => ∃ u, E e u ∧
        (e = .foreignVmcs ∧ t = u ∨ e ≠ .foreignVmcs ∧ ∃ w, K u w ∧ t = w.yielded)) F := by
  rw [Session.run, ends_bind, ends_attempt]
  refine Ends.mono h ?_ ?_ fun _ _ h => h
  · intro r u hu
    cases r with
    | continued => exact ⟨u, hu, .inl ⟨rfl, rfl⟩⟩
    | exited =>
        rw [ends_bind]
        refine Ends.mono (hexited u hu) (fun _ w hw => ?_) (fun _ _ h => h.elim) fun _ _ h => h
        exact ⟨u, hu, .inr ⟨rfl, w, hw, rfl⟩⟩
  · intro e u hu
    split
    · rename_i heq
      cases heq
      exact ⟨u, hu, .inl ⟨rfl, rfl⟩⟩
    · rename_i heq
      cases heq
    · rename_i heq
      cases heq
    · rename_i hforeign heq
      cases heq
      rw [ends_bind]
      refine Ends.mono ((ends_bind _ _).1 (hfailed _ _ hu)) (fun _ v hv => ?_)
        (fun _ _ h => h.elim) fun _ _ h => h
      rw [ends_bind]
      refine Ends.mono hv (fun _ w hw => ?_) (fun _ _ h => h.elim) fun _ _ h => h
      exact ⟨u, hu, .inr ⟨fun he => hforeign (by rw [he]), w, hw, rfl⟩⟩

theorem Calm.giveUp_ends (hI : Calm t I F) {K : Session → Prop}
    (hterminate : ∀ s, I s → terminate.Ends s (fun _ t => K t) (fun _ _ => False) F) (e : VmError)
    (h : I s) :
    (Session.reportFailure e >>= fun _ => terminate).Ends s (fun _ t => K t) (fun _ _ => False) F := by
  rw [ends_bind]
  exact Ends.mono ((reportFailure_unfailing e).ends (hI.reportFailure e) h)
    (fun _ v hv => hterminate v hv) (fun _ _ h => h.elim) fun _ _ h => h

/-- What is kept to the end of the exit is kept while the guest is given up. -/
theorem Calm.run_ends_of (hI : Calm t I F) {Q : ExitResult → Session → Prop} {K : Session → Prop}
    (hQ : ∀ r s, Q r s → I s) (hE : ∀ e s, E e s → I s)
    (hterminate : ∀ s, I s → terminate.Ends s (fun _ t => K t) (fun _ _ => False) F)
    (h : runOnce.Ends s Q E F) :
    Session.run.Ends s
      (fun r t => ∃ u, Q r u ∧
        (r = .continued ∧ t = u.yielded ∨ r = .exited ∧ ∃ w, K w ∧ t = w.yielded))
      (fun e t => ∃ u, E e u ∧
        (e = .foreignVmcs ∧ t = u ∨ e ≠ .foreignVmcs ∧ ∃ w, K w ∧ t = w.yielded)) F :=
  run_ends_of_parts (fun u hu => hterminate u (hQ _ u hu))
    (fun e _ hu => hI.giveUp_ends hterminate e (hE e _ hu)) h

/-- A run ends as its part up to the end of the exit does, and gives the cpu back.  The guest is
destroyed unless it goes on, or was not run for another one on the cpu. -/
theorem Calm.run_ends (hI : Calm t I F) (hdeactivate : deactivate.Upholds I F)
    {K : Session → Prop} (hdestroy : ∀ s, I s → K s.destroyed)
    (hyield : ∀ s, I s → I s.yielded) (hyield' : ∀ s, K s → K s.yielded)
    {R : ExitResult → Prop} {R' : VmError → Prop}
    (h : runOnce.Ends s (fun r s => I s ∧ R r) (fun e s => I s ∧ R' e) F) :
    Session.run.Ends s
      (fun r s => (r = .continued ∧ I s ∨ r = .exited ∧ K s) ∧ R r)
      (fun e s => (e = .foreignVmcs ∧ I s ∨ e ≠ .foreignVmcs ∧ K s) ∧ R' e) F := by
  refine Ends.mono (hI.run_ends_of (fun _ _ h => h.1) (fun _ _ h => h.1)
    (fun _ hs => hI.terminate_ends hdeactivate hdestroy hs) h) ?_ ?_ fun _ _ h => h
  · rintro r t ⟨u, ⟨hu, hr⟩, ⟨rfl, rfl⟩ | ⟨rfl, w, hw, rfl⟩⟩
    · exact ⟨.inl ⟨rfl, hyield u hu⟩, hr⟩
    · exact ⟨.inr ⟨rfl, hyield' w hw⟩, hr⟩
  · rintro e t ⟨u, ⟨hu, he⟩, ⟨rfl, rfl⟩ | ⟨hne, w, hw, rfl⟩⟩
    · exact ⟨.inl ⟨rfl, hu⟩, he⟩
    · exact ⟨.inr ⟨hne, hyield' w hw⟩, he⟩

structure Configurable (g : Guest) (fs : List Field) (J : Session → Prop)
    (F : Panic → Session → Prop) (E : VmError → Session → Prop := fun _ => J) : Prop
    extends Alert g J F E where
  write : ∀ {s : Session} {p} f w, f ∉ fs → s.host.cpu.processor.current = some p → J s →
    J (s.withBlock p fun b => b.write f w)
  msrCount : ∀ {s : Session} n, J s → J { s with guest := { s.guest with msrCount := n } }
  bitmaps : (onMemory g.interceptEmulatedPorts).Upholds J F
  msrs : ∀ rdmsr, (onMemory (g.listMsrs rdmsr)).Upholds J F

namespace Configurable

variable {fs : List Field} (h : Configurable g fs J F E)

include h

theorem vmwriteAll (s : Session) {writes : List (Field × UInt64)} (hw : ∀ w ∈ writes, w.1 ∉ fs) :
    (Host.vmwriteAll writes).Upholds (fun h => J { s with host := h })
      (fun p h => F p { s with host := h }) fun e h => E e { s with host := h } :=
  (h.host s).vmwriteAll fun w hmem h' _ hp hs =>
    h.write (s := { s with host := h' }) w.1 w.2 (hw w hmem) hp hs

theorem vmwrite (s : Session) {f : Field} (w : UInt64) (hf : f ∉ fs) :
    (Host.vmwrite f w).Upholds (fun h => J { s with host := h })
      (fun p h => F p { s with host := h }) fun e h => E e { s with host := h } :=
  (h.host s).vmwrite fun {t} _ hp ht => h.write (s := { s with host := t }) f w hf hp ht

theorem initGuestState (hfs : ∀ w ∈ Guest.initialState, w.1 ∉ fs) :
    (onHost Host.initGuestState).Upholds J F E :=
  onHost_upholds fun s _ => h.vmwriteAll s hfs

theorem setupBitmaps : Session.setupBitmaps.Upholds J F E := by
  refine Upholds.get_bind fun s hs => ?_
  dsimp only
  rw [(h.same hs).interceptEmulatedPorts]
  exact h.toSteady.onMemory (Guest.interceptEmulatedPorts_raises g) h.bitmaps

theorem setupMsrs : Session.setupMsrs.Upholds J F E := by
  refine Upholds.bind (fun s hs => h.msrCount _ hs) fun _ => ?_
  refine Upholds.get_bind fun s hs => ?_
  rw [(h.same hs).listMsrs]
  exact h.toSteady.onMemory (Guest.listMsrs_raises g _) (h.msrs _)

theorem configureControls (hfs : ∀ f ∈ Field.controlling, f ∉ fs) :
    Session.configureControls.Upholds J F E := by
  have hrefused : ∀ {e : VmError} {s : Session}, e.Rejects → J s → E e s := h.toPlacid.refused
  refine Upholds.get_bind fun s _ => Upholds.get_bind fun s' _ => onHost_upholds fun t _ => ?_
  refine Upholds.bind (h.vmwrite t _ (hfs _ (by decide))) fun _ => ?_
  refine Upholds.bind (Upholds.require_of fun _ => hrefused trivial) fun _ => ?_
  refine Upholds.bind (h.vmwriteAll t fun w hw => hfs _ (executionControls_controlling _ _ w hw))
    fun _ => ?_
  refine Upholds.bind (Upholds.orFail_of fun _ => hrefused trivial) fun pointer => ?_
  refine Upholds.bind (h.vmwrite t _ (hfs _ (by decide))) fun _ => ?_
  exact h.vmwriteAll t fun w hw => hfs _ (switchControls_controlling _ _ w hw)

theorem loadContext (hrsp : Field.guestRsp ∉ fs) (hrip : Field.guestRip ∉ fs) :
    Session.loadContext.Upholds J F E := by
  refine Upholds.get_bind fun s _ => Upholds.bind (onHost_upholds fun t _ => h.vmwrite t _ hrsp) ?_
  exact fun _ => onHost_upholds fun t _ => h.vmwrite t _ hrip

theorem prepareGuest (hstate : ∀ w ∈ Guest.initialState, w.1 ∉ fs)
    (hcontrols : ∀ f ∈ Field.controlling, f ∉ fs) : (do
      onHost Host.initGuestState
      Session.setupBitmaps
      Session.setupMsrs
      Session.configureControls).Upholds J F E := by
  refine Upholds.bind (h.initGuestState hstate) fun _ => Upholds.bind h.setupBitmaps fun _ => ?_
  exact Upholds.bind h.setupMsrs fun _ => h.configureControls hcontrols

end Configurable

/-- The invariant survives what prepares the control block of the guest as well. -/
structure Programmable (g : Guest) (J : Session → Prop) (F : Panic → Session → Prop)
    (E : VmError → Session → Prop := fun _ => J) : Prop extends Alert g J F E where
  write : ∀ {s : Session} {p} f w, s.host.cpu.processor.current = some p → J s →
    J (s.withBlock p fun b => b.write f w)
  counts : ∀ {s : Session} msrs runs cpu, J s →
    J { s with guest := { s.guest with msrCount := msrs, runs := runs, lastCpu := cpu } }
  bitmaps : (onMemory g.interceptEmulatedPorts).Upholds J F
  msrs : ∀ rdmsr, (onMemory (g.listMsrs rdmsr)).Upholds J F

namespace Programmable

variable (h : Programmable g J F E)

include h

theorem configurable : Configurable g [] J F E where
  toAlert := h.toAlert
  write := fun f w _ => h.write f w
  msrCount := fun {s} n => h.counts n s.guest.runs s.guest.lastCpu
  bitmaps := h.bitmaps
  msrs := h.msrs

theorem vmwriteAll (s : Session) (writes : List (Field × UInt64)) :
    (Host.vmwriteAll writes).Upholds (fun h => J { s with host := h })
      (fun p h => F p { s with host := h }) fun e h => E e { s with host := h } :=
  h.configurable.vmwriteAll s fun _ _ => List.not_mem_nil

theorem initHostState : (onHost Host.initHostState).Upholds J F E :=
  onHost_upholds fun s _ => Upholds.get_bind fun _ _ => h.vmwriteAll s _

theorem initGuestState : (onHost Host.initGuestState).Upholds J F E :=
  h.configurable.initGuestState fun _ _ => List.not_mem_nil

theorem setupBitmaps : Session.setupBitmaps.Upholds J F E := h.configurable.setupBitmaps

theorem setupMsrs : Session.setupMsrs.Upholds J F E := h.configurable.setupMsrs

theorem configureControls : Session.configureControls.Upholds J F E :=
  h.configurable.configureControls fun _ _ => List.not_mem_nil

theorem loadContext : Session.loadContext.Upholds J F E :=
  h.configurable.loadContext List.not_mem_nil List.not_mem_nil

theorem prepareControls : (do
    onHost Host.initHostState
    onHost Host.initGuestState
    Session.setupBitmaps
    Session.setupMsrs
    Session.configureControls).Upholds J F E :=
  Upholds.bind h.initHostState fun _ => h.configurable.prepareGuest (fun _ _ => List.not_mem_nil)
    fun _ _ => List.not_mem_nil

theorem prepareHost : (do
    let s ← get
    if s.guest.lastCpu = some s.host.cpu.id then
      pure ()
    else
      onHost (Host.sayOnCpu .debug
        ("guest migrated from " ++ Text.option toString s.guest.lastCpu))
      onHost Host.initHostState : SessionM Unit).Upholds J F E := by
  refine Upholds.get_bind fun s _ => Upholds.ite (fun _ => Upholds.pure) fun _ => ?_
  exact Upholds.bind (h.sayOnCpu _ _) fun _ => h.initHostState

theorem prepareRun_ends (hactivate : activate.Ends s (fun _ t => J t) P F)
    (hload : load.Ends s (fun _ t => J t) P F) :
    prepareRun.Ends s (fun _ t => J t) (fun e t => P e t ∨ E e t) F := by
  have hthen : ∀ {x y : SessionM Unit}, x.Ends s (fun _ t => J t) P F → y.Upholds J F E →
      (x >>= fun _ => y).Ends s (fun _ t => J t.ready) (fun e t => P e t ∨ E e t) F := by
    intro x y hx hy
    rw [ends_bind]
    refine Ends.mono hx (fun _ t ht => ?_) (fun _ _ he => .inl he) fun _ _ hp => hp
    exact Ends.mono (hy t ht) (fun _ u hu => h.counts u.guest.msrCount _ _ hu)
      (fun _ _ he => .inr he) fun _ _ hp => hp
  exact prepareRun_ends_of (fun _ => hthen hactivate h.prepareControls) fun _ =>
    hthen hload h.prepareHost

end Programmable

/-- What is needed of two invariants to be kept by a run: `I` while the guest is not on the cpu, and
`J` while it is.  An error is in `P` if the guest could not be put on the cpu. -/
structure Runnable (g : Guest) (I J : Session → Prop) (F : Panic → Session → Prop)
    (P : VmError → Session → Prop := fun _ => I) (E : VmError → Session → Prop := fun _ => J) :
    Prop where
  calm : Calm g.table I F
  onCpu : Programmable g J F E
  activate : ∀ {s}, I s → activate.Ends s (fun _ t => J t) P F
  load : ∀ {s}, I s → load.Ends s (fun _ t => J t) P F
  launch : launch.Upholds J F E
  deactivate : deactivate.Upholds I F
  leave : ∀ {s}, J s → I s
  turnedAway : ∀ {e s}, P e s → I s := by exact fun h => h

namespace Runnable

variable (h : Runnable g I J F P E)

include h

theorem prepareRun_ends (hs : I s) :
    prepareRun.Ends s (fun _ t => J t) (fun e t => P e t ∨ E e t) F :=
  h.onCpu.prepareRun_ends (h.activate hs) (h.load hs)

/-- The guest runs up to its next exit, which is handled. -/
theorem runOnce_ends (hs : I s) :
    runOnce.Ends s (fun _ t => J t) (fun e t => P e t ∨ E e t) F := by
  rw [runOnce_eq, approach, bind_assoc, ends_bind]
  refine Ends.mono (h.prepareRun_ends hs) (fun _ t ht => ?_) (fun _ _ he => he) fun _ _ hp => hp
  have hrest := Upholds.bind h.onCpu.loadContext fun _ => h.onCpu.toAlert.proceed h.launch
  exact Ends.mono (hrest t ht) (fun _ _ ht => ht) (fun _ _ he => .inr he) fun _ _ hp => hp

/-- However a run ends, the guest is off the cpu or may be taken off it. -/
theorem run_ends {K : Session → Prop} (hdestroy : ∀ s, I s → K s.destroyed)
    (hyield : ∀ s, I s → I s.yielded) (hyield' : ∀ s, K s → K s.yielded) {R : VmError → Prop}
    (hP : ∀ e s, P e s → R e) (hE : ∀ e s, E e s → J s ∧ R e) (hs : I s) :
    Session.run.Ends s (fun r t => r = .continued ∧ I t ∨ r = .exited ∧ K t)
      (fun e t => (e = .foreignVmcs ∧ I t ∨ e ≠ .foreignVmcs ∧ K t) ∧ R e) F := by
  have honce : runOnce.Ends s (fun _ t => I t ∧ True) (fun e t => I t ∧ R e) F := by
    refine Ends.mono (h.runOnce_ends hs) (fun _ _ ht => ⟨h.leave ht, trivial⟩) ?_ fun _ _ hp => hp
    rintro e t (he | he)
    · exact ⟨h.turnedAway he, hP e t he⟩
    · exact ⟨h.leave (hE e t he).1, (hE e t he).2⟩
  exact Ends.mono (h.calm.run_ends h.deactivate hdestroy hyield hyield' (R := fun _ => True) honce)
    (fun _ _ ht => ht.1) (fun _ _ he => he) fun _ _ hp => hp

/-- An invariant that says nothing of the kernel is kept by a run. -/
theorem run_upholds (hkernel : ∀ {s : Session} k, I s →
      I { s with host := { s.host with kernel := k } })
    (hback : ∀ e s, E e s → J s := by exact fun _ _ h => h) : Session.run.Upholds I F := by
  intro s hs
  refine Ends.mono (h.run_ends (K := I) (fun _ hs => hkernel _ hs) (fun _ hs => hkernel _ hs)
    (fun _ hs => hkernel _ hs) (R := fun _ => True) (fun _ _ _ => trivial)
    (fun e s he => ⟨hback e s he, trivial⟩) hs) ?_ ?_ fun _ _ hp => hp
  · rintro r t (⟨-, ht⟩ | ⟨-, ht⟩) <;> exact ht
  · rintro e t ⟨⟨-, ht⟩ | ⟨-, ht⟩, -⟩ <;> exact ht

end Runnable

end Session

end Hypervisor
