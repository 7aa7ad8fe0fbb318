import Hypervisor.Exit.Dispatch
import Hypervisor.Proofs.Exit.Refusals
import Hypervisor.Proofs.Vmcs.Translation
import Hypervisor.Run

/-!
# Invariants of exit handling

What the handlers of exits do to a session is the work of a few steps: on the host, on the registers
and devices of the guest, and on the memory that belongs to the guest.  An invariant that survives
these survives the handling of most exits.  Those for interrupts take a few steps more, and so does a
write to a model-specific register.
-/

namespace Hypervisor

/-- Two states of one guest, which owns the same pages in both. -/
structure Guest.Same (g g' : Guest) : Prop where
  table : g'.table = g.table
  block : g'.block = g.block
  msrPage : g'.msrPage = g.msrPage
  ioBitmapA : g'.ioBitmapA = g.ioBitmapA
  ioBitmapB : g'.ioBitmapB = g.ioBitmapB
  physSize : g'.physSize = g.physSize

theorem Guest.Same.refl (g : Guest) : g.Same g := ⟨rfl, rfl, rfl, rfl, rfl, rfl⟩

theorem Guest.Same.trans {g g' g'' : Guest} (h : g.Same g') (h' : g'.Same g'') : g.Same g'' :=
  ⟨h'.table.trans h.table, h'.block.trans h.block, h'.msrPage.trans h.msrPage,
    h'.ioBitmapA.trans h.ioBitmapA, h'.ioBitmapB.trans h.ioBitmapB,
    h'.physSize.trans h.physSize⟩

theorem Guest.Same.hostMsrArea {g g' : Guest} (h : g.Same g') : g'.hostMsrArea = g.hostMsrArea :=
  h.msrPage

theorem Guest.Same.guestMsrArea {g g' : Guest} (h : g.Same g') :
    g'.guestMsrArea = g.guestMsrArea := by
  rw [Guest.guestMsrArea, Guest.guestMsrArea, h.msrPage]

theorem Guest.Same.ownPages {g g' : Guest} (h : g.Same g') : g'.ownPages = g.ownPages := by
  rw [Guest.ownPages, Guest.ownPages, h.block, h.msrPage, h.ioBitmapA, h.ioBitmapB]

theorem Guest.Same.interceptEmulatedPorts {g g' : Guest} {ε : Type} (h : g.Same g') :
    (g'.interceptEmulatedPorts : MemoryM ε Unit) = g.interceptEmulatedPorts := by
  have hport : (g'.interceptPort : UInt16 → MemoryM ε Unit) = g.interceptPort := by
    funext port
    simp only [Guest.interceptPort, Guest.bitmapPage, h.ioBitmapA, h.ioBitmapB]
  rw [Guest.interceptEmulatedPorts, Guest.interceptEmulatedPorts, hport]

theorem Guest.Same.listMsrs {g g' : Guest} {ε : Type} (h : g.Same g')
    (rdmsr : MsrIndex → UInt64) :
    (g'.listMsrs rdmsr : MemoryM ε Unit) = g.listMsrs rdmsr := by
  simp only [Guest.listMsrs, h.hostMsrArea, h.guestMsrArea]

/-- The guest cannot be moved past the instruction that stopped it. -/
def ControlBlock.Overruns (b : ControlBlock) (rip : UInt64) : Prop :=
  UInt64.size ≤ rip.toNat + (b.read .vmexitInstructionLength).toNat

namespace Session

open Hypervisor.Action

def withBlock (s : Session) (p : Hpa) (f : ControlBlock → ControlBlock) : Session :=
  { s with host := { s.host with blocks := s.host.blocks.update p f } }

/-- The invariant survives what is done for a guest without touching its state. -/
structure Calm (t : Ept) (I : Session → Prop) (F : Panic → Session → Prop)
    (E : VmError → Session → Prop := fun _ => I) : Prop where
  table : ∀ {s}, I s → s.guest.table = t
  host : ∀ s : Session, Host.Calm (fun h => I { s with host := h })
    (fun p h => F p { s with host := h }) fun e h => E e { s with host := h }
  resolve : ∀ gpa, (onMemory (t.resolve gpa)).Upholds I F
  back : ∀ {e s}, E e s → I s := by exact fun h => h

/-- The invariant survives each step that is made to handle an exit, but for those that forward
interrupts and those that write a register of the guest. -/
structure Placid (g : Guest) (I : Session → Prop) (F : Panic → Session → Prop)
    (E : VmError → Session → Prop := fun _ => I) : Prop where
  same : ∀ {s}, I s → g.Same s.guest
  host : ∀ s : Session, Host.Calm (fun h => I { s with host := h })
    (fun p h => F p { s with host := h }) fun e h => E e { s with host := h }
  skip : ∀ {s : Session} {p}, s.host.cpu.processor.current = some p →
    (s.host.blocks.block p).Overruns s.context.rip → I s → F .addOverflow s
  context : ∀ {s : Session} c, I s → I { s with context := c }
  rtc : ∀ {s : Session} i, I s → I { s with guest := { s.guest with rtcIndex := i } }
  resolve : ∀ gpa, (onMemory (g.table.resolve gpa)).Upholds I F
  fault : ∀ gpa, (onMemory (g.table.onAccess g.physSize gpa)).Upholds I F E
  readMsrs : (onMemory (Memory.pageWords g.guestMsrArea)).Upholds I F
  memoryMap : giveMemoryMap.Upholds I F E

structure Steady (g : Guest) (I : Session → Prop) (F : Panic → Session → Prop)
    (E : VmError → Session → Prop := fun _ => I) : Prop extends Placid g I F E where
  mode : ∀ {s : Session} {p} w, s.host.cpu.processor.current = some p → I s →
    I (s.withBlock p fun b => b.write .vmentryControls w)
  writeMsrs : ∀ f, (onMemory (Memory.updatePage g.guestMsrArea f)).Upholds I F

structure Roused (g : Guest) (I : Session → Prop) (F : Panic → Session → Prop)
    (E : VmError → Session → Prop := fun _ => I) : Prop extends Placid g I F E where
  vector : ∀ {s : Session} w, I s → I { s with guest := { s.guest with hostVector := w } }
  inject : ∀ {s : Session} {p} w, s.host.cpu.processor.current = some p → I s →
    I (s.withBlock p fun b => b.write .vmentryInterruptionInfo w)
  window : ∀ {s : Session} {p} on, s.host.cpu.processor.current = some p → I s →
    I (s.withBlock p fun b => b.write .processorBasedVmexecControls
      (ProcBased.withWindow on (b.read .processorBasedVmexecControls)))

/-- The invariant survives each step that is made to handle an exit. -/
structure Alert (g : Guest) (I : Session → Prop) (F : Panic → Session → Prop)
    (E : VmError → Session → Prop := fun _ => I) : Prop extends Steady g I F E, Roused g I F E

variable {g : Guest} {t : Ept} {I : Session → Prop} {F : Panic → Session → Prop}
  {E : VmError → Session → Prop} {α : Type}

theorem onHost_upholds {x : HostM α} (hx : ∀ s, I s → x.Upholds (fun h => I { s with host := h })
      (fun p h => F p { s with host := h }) fun e h => E e { s with host := h }) :
    (onHost x).Upholds I F E :=
  Upholds.onPart (fun _ => rfl) hx

theorem onMemory_ends_bind {β : Type} {x : MemoryM VmError α} {f : α → MemoryM VmError β}
    {s : Session} {Q : β → Session → Prop} {E : VmError → Session → Prop} :
    (onMemory (x >>= f)).Ends s Q E F ↔
      (onMemory x).Ends s (fun a t => (onMemory (f a)).Ends t Q E F) E F := by
  simp only [onMemory, onPlatform, onHost, Host.onPlatform, Platform.onMemory, ends_onPart,
    ends_bind]

theorem onMemory_upholds {x : MemoryM VmError α}
    (h : ∀ (s : Session) m, I s → I { s with host := { s.host with memory := m } })
    (hF : ∀ p s, I s → F p s) : (onMemory x).Upholds I F := by
  intro s hs
  simp only [onMemory, onPlatform, onHost, Host.onPlatform, Platform.onMemory, ends_onPart]
  exact Ends.of_forall (fun _ m => h s m hs) (fun _ m => h s m hs) fun p m => hF p _ (h s m hs)

theorem giveMemoryMap_upholds (hresolve : ∀ t gpa, (onMemory (Ept.resolve t gpa)).Upholds I F)
    (hfault : ∀ t size gpa, (onMemory (Ept.onAccess t size gpa)).Upholds I F)
    (hwrite : ∀ a f, (onMemory (Memory.updatePage a f)).Upholds I F)
    (hcontext : ∀ {s : Session} c, I s → I { s with context := c }) :
    giveMemoryMap.Upholds I F := by
  refine Upholds.bind ?_ fun page => Upholds.get_bind fun s _ => ?_
  · refine Upholds.get_bind fun s _ => Upholds.bind (hresolve _ _) fun r => ?_
    split
    · exact Upholds.pure
    · refine Upholds.bind (hfault _ _ _) fun _ => Upholds.bind (hresolve _ _) fun _ => ?_
      exact Upholds.orFail
  · have hlast : (onRegisters fun r => { r with rbx := Layout.memoryMap }).Upholds I F :=
      fun _ h => hcontext _ h
    split
    · exact Upholds.bind (hwrite _ _) fun _ => hlast
    · exact hlast

namespace Calm

theorem refused (hI : Calm t I F E) {e : VmError} {s : Session} (he : e.Rejects) (h : I s) :
    E e s :=
  (hI.host s).refused he h

theorem reportFailure (hI : Calm t I F E) (e : VmError) :
    (Session.reportFailure e).Upholds I F E := by
  refine Upholds.bind (onHost_upholds fun s _ => (hI.host s).sayOnCpu _ _) fun _ => ?_
  refine Upholds.get_bind fun s h => Upholds.ite (fun _ => ?_) fun _ => Upholds.pure
  rw [hI.table h]
  refine onHost_upholds fun s _ => (hI.host s).dump (fun gpa u hu => ?_) fun _ _ => hI.back
  have hupholds : (onMemory (t.resolve gpa)).Upholds I F E :=
    (onMemory_raises (Ept.resolve_raises t gpa)).upholds (hI.resolve gpa)
      fun _ _ h he => hI.refused he h
  have hresolve := hupholds { s with host := u } hu
  simp only [onMemory, onPlatform, onHost, Host.onPlatform, Host.onMemory,
    ends_onPart] at hresolve ⊢
  exact hresolve

end Calm

namespace Placid

theorem refused (hI : Placid g I F E) {e : VmError} {s : Session} (he : e.Rejects) (h : I s) : E e s :=
  (hI.host s).refused he h

theorem onMemory (hI : Placid g I F E) {x : MemoryM VmError α} (hx : x.Raises VmError.Rejects)
    (h : (Session.onMemory x).Upholds I F) : (Session.onMemory x).Upholds I F E :=
  (onMemory_raises hx).upholds h fun _ _ h he => hI.refused he h

theorem say (hI : Placid g I F E) (level : LogLevel) (text : String) :
    (Session.onHost (Host.say level text)).Upholds I F E :=
  onHost_upholds fun s _ => (hI.host s).say _ _

theorem sayOnCpu (hI : Placid g I F E) (level : LogLevel) (text : String) :
    (Session.onHost (Host.sayOnCpu level text)).Upholds I F E :=
  onHost_upholds fun s _ => (hI.host s).sayOnCpu _ _

theorem onKernel (hI : Placid g I F E) {f : Kernel → Kernel}
    (hf : ∀ k, f k = { k with requests := (f k).requests } := by exact fun _ => rfl) :
    (Session.onHost (Host.onKernel f)).Upholds I F E :=
  onHost_upholds fun s _ => (hI.host s).onKernel hf

theorem vmread (hI : Placid g I F E) (f : Field) :
    (Session.onHost (Host.vmread f)).Upholds I F E :=
  onHost_upholds fun s _ => (hI.host s).vmread _

theorem vmwrite (hI : Placid g I F E) {f : Field} {w : UInt64}
    (hw : ∀ {s : Session} {p}, s.host.cpu.processor.current = some p → I s →
      I (s.withBlock p fun b => b.write f w)) : (Session.onHost (Host.vmwrite f w)).Upholds I F E :=
  onHost_upholds fun s _ => (hI.host s).vmwrite fun {h} _ hp hh =>
    hw (s := { s with host := h }) hp hh

theorem onContext (hI : Placid g I F E) (f : Context → Context) :
    (Session.onContext f).Upholds I F E :=
  fun _ h => hI.context _ h

theorem onRegisters (hI : Placid g I F E) (f : Registers → Registers) :
    (Session.onRegisters f).Upholds I F E :=
  hI.onContext _

theorem forwardRip (hI : Placid g I F E) : Session.forwardRip.Upholds I F E := by
  intro s h
  have hspent : I { s with host := s.host.spent .vmread (some .vmexitInstructionLength) } :=
    (hI.host s).spent _ _ h
  rw [Session.forwardRip, ends_bind, onHost, ends_onPart]
  refine Host.vmread_ends (fun p hp => ?_) (fun _ => hI.refused trivial hspent) fun x hx =>
    (hI.host s).struck h x hx hspent
  rw [ends_bind, ends_get, ends_ite]
  split
  · exact hI.context _ hspent
  · exact hI.skip (p := p) hp (Nat.le_of_not_lt ‹_›) hspent

theorem continueAfter (hI : Placid g I F E) : Session.continueAfter.Upholds I F E :=
  Upholds.bind hI.forwardRip fun _ => Upholds.pure

theorem handleCpuid (hI : Placid g I F E) : Session.handleCpuid.Upholds I F E :=
  Upholds.get_bind fun _ _ => Upholds.bind (hI.onRegisters _) fun _ => hI.continueAfter

theorem readMsrs_of (hI : Placid g I F E) {s : Session} (h : I s) :
    (Session.onMemory (Memory.pageWords s.guest.guestMsrArea)).Upholds I F E := by
  rw [(hI.same h).guestMsrArea]
  exact hI.onMemory (Memory.pageWords_raises _) hI.readMsrs

theorem emulatedMsr (hI : Placid g I F E) (reason : ExitReason) (msr : MsrIndex) :
    (Session.emulatedMsr reason msr).Upholds I F E := by
  have hrefused : ∀ s, I s → E (.unhandledExit reason) s := fun _ => hI.refused trivial
  refine Upholds.bind (Upholds.require_of hrefused) fun _ => Upholds.get_bind fun s h => ?_
  refine Upholds.bind ?_ fun _ => Upholds.orFail_of hrefused
  intro t ht
  have hread := hI.readMsrs_of h t ht
  simp only [Session.onMemory, Session.onPlatform, Session.onHost, Host.onPlatform,
    Platform.onMemory, Guest.findMsr, ends_onPart, ends_bind, ends_pure] at hread ⊢
  exact hread

theorem handleRdmsr (hI : Placid g I F E) (reason : ExitReason) :
    (Session.handleRdmsr reason).Upholds I F E := by
  refine Upholds.get_bind fun _ _ => Upholds.bind (hI.emulatedMsr _ _) fun i => ?_
  refine Upholds.get_bind fun s h => Upholds.bind (hI.readMsrs_of h) fun ws => ?_
  exact Upholds.bind (hI.onRegisters _) fun _ => hI.continueAfter

theorem rejectPortAccess (hI : Placid g I F E) (reason : ExitReason) (access : PortAccess) :
    (Session.rejectPortAccess reason access).Upholds I F E :=
  Upholds.get_bind fun _ _ => Upholds.bind (hI.say _ _) fun _ =>
    Upholds.fail_of fun _ => hI.refused trivial

theorem handlePortAccess (hI : Placid g I F E) (reason : ExitReason) (access : PortAccess) :
    (Session.handlePortAccess reason access).Upholds I F E := by
  refine Upholds.ite (fun _ => ?_) fun _ => Upholds.ite (fun _ => ?_) fun _ => ?_
  · refine Upholds.get_bind fun _ _ => Upholds.bind ?_ fun _ => hI.continueAfter
    exact fun _ h => hI.rtc _ h
  · refine Upholds.get_bind fun s _ => ?_
    dsimp only
    split
    · exact Upholds.bind (hI.onRegisters _) fun _ => hI.continueAfter
    · exact hI.rejectPortAccess reason access
  · exact hI.rejectPortAccess reason access

theorem backAccess (hI : Placid g I F E) (gpa : Gpa) :
    (onPlatform (Platform.backAccess g.table g.physSize gpa)).Upholds I F E := by
  intro s h
  have hfault := hI.fault gpa s h
  simp only [Session.onMemory, onPlatform, Session.onHost, Host.onPlatform, Platform.backAccess,
    ends_bind, ends_onPart] at hfault ⊢
  refine Ends.mono hfault (fun r m hm => ?_) (fun _ _ h => h) fun _ _ h => h
  cases r with
  | handled => exact hm
  | unhandled => exact (hI.host s).log _ hm

theorem handleViolation (hI : Placid g I F E) (reason : ExitReason) (address : Option Gpa) :
    (Session.handleViolation reason address).Upholds I F E := by
  have hrefused : ∀ s, I s → E (.unhandledExit reason) s := fun _ => hI.refused trivial
  refine Upholds.bind (Upholds.orFail_of hrefused) fun gpa => Upholds.get_bind fun s h => ?_
  dsimp only
  rw [(hI.same h).table, (hI.same h).physSize]
  refine Upholds.bind (hI.backAccess gpa) fun r => ?_
  split
  · exact Upholds.pure
  · exact Upholds.fail_of hrefused

theorem sendMessage (hI : Placid g I F E) : Session.sendMessage.Upholds I F E := by
  refine Upholds.get_bind fun s h => ?_
  dsimp only
  rw [(hI.same h).table]
  split
  · refine Upholds.bind (hI.onMemory (Ept.resolve_raises _ _) (hI.resolve _)) fun page => ?_
    split
    · exact Upholds.bind hI.onKernel fun _ => Upholds.pure
    · exact Upholds.pure
  · refine Upholds.bind Upholds.pure fun page => ?_
    split
    · exact Upholds.bind hI.onKernel fun _ => Upholds.pure
    · exact Upholds.pure

theorem receiveMessage (hI : Placid g I F E) : Session.receiveMessage.Upholds I F E := by
  refine Upholds.bind hI.forwardRip fun _ => Upholds.get_bind fun s h => ?_
  refine Upholds.bind (Upholds.orFail_of fun _ => hI.refused trivial) fun _ => ?_
  exact Upholds.bind hI.onKernel fun _ => Upholds.bind (hI.onRegisters _) fun _ => Upholds.pure

theorem goBackToHost (hI : Placid g I F E) : Session.goBackToHost.Upholds I F E :=
  onHost_upholds fun s _ => Upholds.bind ((hI.host s).say _ _) fun _ => (hI.host s).onKernel

theorem handleHypercall (hI : Placid g I F E) (reason : ExitReason) :
    (Session.handleHypercall reason).Upholds I F E := by
  refine Upholds.get_bind fun s _ => ?_
  dsimp only
  split
  · exact Upholds.bind (hI.say _ _) fun _ => Upholds.fail_of fun _ => hI.refused trivial
  · exact Upholds.bind hI.memoryMap fun _ => hI.continueAfter
  · refine Upholds.bind hI.sendMessage fun _ => ?_
    exact Upholds.bind (hI.onRegisters _) fun _ => hI.continueAfter
  · exact hI.receiveMessage
  · exact Upholds.bind hI.onKernel fun _ => hI.continueAfter
  · exact Upholds.bind hI.goBackToHost fun _ => hI.continueAfter
  · refine Upholds.get_bind fun _ _ => ?_
    exact Upholds.bind (hI.onRegisters _) fun _ => hI.continueAfter

/-- Whatever made the guest stop, but for an interrupt or a write to a register, its handler upholds the
invariant. -/
theorem dispatch (hI : Placid g I F E) {reason : ExitReason}
    (hexternal : ∀ info, reason ≠ .fromGuest (.externalInterrupt info))
    (hwindow : reason ≠ .fromGuest (.code .interruptWindow))
    (hwrmsr : reason ≠ .fromGuest (.code .wrmsr)) : (Session.dispatch reason).Upholds I F E := by
  unfold Session.dispatch
  split
  · exact absurd rfl (hexternal _)
  · exact absurd rfl hwindow
  · exact hI.handleRdmsr _
  · exact absurd rfl hwrmsr
  · exact hI.handleViolation _ _
  · exact hI.handlePortAccess _ _
  · exact hI.handleCpuid
  · exact hI.handleHypercall _
  · exact Upholds.bind (hI.say _ _) fun _ => Upholds.pure
  · exact Upholds.fail_of fun _ => hI.refused trivial

theorem saveContext (hI : Placid g I F E) : Session.saveContext.Upholds I F E := by
  refine Upholds.bind (hI.vmread _) fun _ => Upholds.bind (hI.onContext _) fun _ => ?_
  exact Upholds.bind (hI.vmread _) fun _ => hI.onContext _

end Placid

namespace Steady

theorem writeMsrs_of (hI : Steady g I F E) {s : Session} (h : I s) (f : PageWords → PageWords) :
    (Session.onMemory (Memory.updatePage s.guest.guestMsrArea f)).Upholds I F E := by
  rw [(hI.same h).guestMsrArea]
  exact hI.onMemory (fun _ => trivial) (hI.writeMsrs f)

theorem handleWrmsr (hI : Steady g I F E) (reason : ExitReason) :
    (Session.handleWrmsr reason).Upholds I F E := by
  refine Upholds.get_bind fun _ _ => Upholds.bind (hI.emulatedMsr _ _) fun i => ?_
  refine Upholds.get_bind fun s h => Upholds.bind (hI.readMsrs_of h) fun ws => ?_
  have hlast : ∀ f, (do
      Session.onMemory (Memory.updatePage s.guest.guestMsrArea f)
      Session.continueAfter).Upholds I F E :=
    fun f => Upholds.bind (hI.writeMsrs_of h f) fun _ => hI.continueAfter
  refine Upholds.ite (fun _ => ?_) fun _ => hlast _
  refine Upholds.bind (onHost_upholds fun s _ => ?_) fun _ => hlast _
  refine Upholds.bind ((hI.host s).vmread _) fun _ => (hI.host s).vmwrite fun {h} _ hp hh => ?_
  exact hI.mode (s := { s with host := h }) _ hp hh

theorem dispatch (hI : Steady g I F E) {reason : ExitReason}
    (hexternal : ∀ info, reason ≠ .fromGuest (.externalInterrupt info))
    (hwindow : reason ≠ .fromGuest (.code .interruptWindow)) :
    (Session.dispatch reason).Upholds I F E := by
  by_cases hwrmsr : reason = .fromGuest (.code .wrmsr)
  · subst hwrmsr
    exact hI.handleWrmsr _
  · exact hI.toPlacid.dispatch hexternal hwindow hwrmsr

end Steady

namespace Roused

/-- Only the bit for the interrupt window changes in the primary controls. -/
theorem setWindowExiting (hI : Roused g I F E) (on : Bool) :
    (Session.setWindowExiting on).Upholds I F E := by
  intro s h
  have hread := (hI.host s).spent .vmread (some .processorBasedVmexecControls) h
  simp only [Session.setWindowExiting, onHost, ends_onPart, ends_bind]
  refine Host.vmread_ends (fun p hp => ?_) (fun _ => hI.refused trivial hread) fun x hx =>
    (hI.host s).struck h x hx hread
  have hwrite := (hI.host s).spent .vmwrite (some .processorBasedVmexecControls) hread
  refine Host.vmwrite_ends (fun q hq => ?_) (fun _ => hI.refused trivial hwrite) fun x hx =>
    (hI.host s).struck hread x hx hwrite
  obtain rfl : q = p := Option.some.inj (hq.symm.trans hp)
  exact hI.window (s := { s with host := _ }) (p := q) on hp hwrite

theorem handleExternalInterrupt (hI : Roused g I F E) (info : InterruptInfo) :
    (Session.handleExternalInterrupt info).Upholds I F E := by
  refine Upholds.bind (hI.say _ _) fun _ => Upholds.bind (fun _ h => hI.vector _ h) fun _ => ?_
  refine Upholds.bind (hI.vmread _) fun _ => Upholds.ite (fun _ => ?_) fun _ => ?_
  · exact Upholds.bind (hI.vmwrite fun hp h => hI.inject _ hp h) fun _ => Upholds.pure
  · exact Upholds.bind (hI.setWindowExiting true) fun _ => Upholds.pure

theorem handleInterruptWindow (hI : Roused g I F E) :
    Session.handleInterruptWindow.Upholds I F E := by
  refine Upholds.bind (hI.setWindowExiting false) fun _ => Upholds.get_bind fun s _ => ?_
  exact Upholds.bind (hI.vmwrite fun hp h => hI.inject _ hp h) fun _ => Upholds.pure

theorem dispatch (hI : Roused g I F E) {reason : ExitReason}
    (hwrmsr : reason ≠ .fromGuest (.code .wrmsr)) : (Session.dispatch reason).Upholds I F E := by
  by_cases hexternal : ∃ info, reason = .fromGuest (.externalInterrupt info)
  · obtain ⟨info, rfl⟩ := hexternal
    exact hI.handleExternalInterrupt info
  · by_cases hwindow : reason = .fromGuest (.code .interruptWindow)
    · subst hwindow
      exact hI.handleInterruptWindow
    · exact hI.toPlacid.dispatch (fun info h => hexternal ⟨info, h⟩) hwindow hwrmsr

end Roused

theorem Alert.dispatch (hI : Alert g I F E) (reason : ExitReason) :
    (Session.dispatch reason).Upholds I F E := by
  by_cases hwrmsr : reason = .fromGuest (.code .wrmsr)
  · subst hwrmsr
    exact hI.handleWrmsr _
  · exact hI.toRoused.dispatch hwrmsr

end Session

end Hypervisor
