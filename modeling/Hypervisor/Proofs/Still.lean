import Hypervisor.Proofs.Aloof
import Hypervisor.Proofs.Ownership.Host

/-!
# Parts of a run that leave memory alone

Much of a run is work on the processor and on control blocks: it leaves memory alone, and the guest but for
its launch state and what is counted.  That is said once for each part.
-/

namespace Hypervisor

namespace Session

open Hypervisor.Action

def Counted (g : Guest) (n : Nat) (s : Session) : Prop := g.Same s.guest ∧ s.guest.runs = n

/-- Whatever is done to the host, the guest stays as it is. -/
theorem onHost_counted {g : Guest} {n : Nat} {α : Type} {x : HostM α} :
    (onHost x).Upholds (Counted g n) fun _ _ => True := by
  intro s hs
  rw [onHost, ends_onPart]
  exact Ends.of_forall (fun _ _ => hs) (fun _ _ => hs) fun _ _ => trivial

end Session

namespace Action

open Session

/-- The action leaves memory alone, and the guest but for what it is not identified by. -/
structure Still {α : Type} (x : SessionM α) : Prop where
  quiet : x.Quiet fun _ => True
  counted : ∀ g n, x.Upholds (Counted g n) fun _ _ => True

namespace Still

variable {α β : Type}

theorem pure {a : α} : (Pure.pure a : SessionM α).Still := ⟨Quiet.pure, fun _ _ => Upholds.pure⟩

theorem get : (MonadState.get : SessionM Session).Still := ⟨Quiet.get, fun _ _ => Upholds.get⟩

theorem require {c : Bool} {err : VmError} : (Action.require c err : SessionM Unit).Still :=
  ⟨Quiet.require, fun _ _ => Upholds.require⟩

theorem bind {x : SessionM β} {f : β → SessionM α} (hx : x.Still) (hf : ∀ b, (f b).Still) :
    (x >>= f).Still :=
  ⟨hx.quiet.bind fun b => (hf b).quiet, fun g n => (hx.counted g n).bind fun b => (hf b).counted g n⟩

theorem ite {c : Prop} [Decidable c] {x y : SessionM α} (hx : x.Still) (hy : y.Still) :
    (if c then x else y).Still := by
  split
  · exact hx
  · exact hy

theorem attempt {x : SessionM α} (hx : x.Still) :
    (Action.attempt x : SessionM (Except VmError α)).Still :=
  ⟨hx.quiet.attempt, fun g n => (hx.counted g n).attempt⟩

theorem onHost {x : HostM α} (hx : x.Quiet fun _ => True) : (Session.onHost x).Still :=
  ⟨hx.onPart (fun _ => rfl) fun _ _ => rfl, fun _ _ => onHost_counted⟩

/-- Work on control blocks and the processor. -/
theorem onDetached {x : HostM α} (hx : ∀ {H F}, Host.Detached H F → x.Upholds H F) :
    (Session.onHost x).Still :=
  onHost (Host.quiet_of_detached hx)

theorem onContext (f : Context → Context) : (Session.onContext f).Still :=
  ⟨Quiet.modify fun _ => rfl, fun _ _ _ h => h⟩

theorem setLaunched (launched : Bool) :
    (onGuest fun g => { g with launched := launched }).Still :=
  ⟨Quiet.modify fun _ => rfl, fun _ _ _ h => ⟨h.1.trans ⟨rfl, rfl, rfl, rfl, rfl, rfl⟩, h.2⟩⟩

end Still

end Action

namespace Session

open Hypervisor.Action

/-- What the first run does before it intercepts the emulated ports. -/
def prelude : SessionM Unit := do
  activate
  onHost Host.initHostState
  onHost Host.initGuestState

def giveUp (err : VmError) : SessionM Unit := do
  reportFailure err
  terminate
  onHost (Host.onKernel Kernel.yieldNow)

theorem prepareFirstRun_eq : prepareFirstRun = (do
    prelude
    setupBitmaps
    setupMsrs
    configureControls) := by
  simp only [prepareFirstRun, prelude, bind_assoc]

theorem checkOwner_still : checkOwner.Still := by
  refine Still.bind Still.get fun s => ?_
  split
  · exact Still.require
  · exact Still.pure

theorem noteCurrent_still : noteCurrent.Still :=
  Still.bind Still.get fun _ => Still.onHost (Quiet.modify fun _ => rfl)

theorem activate_still : activate.Still := by
  refine Still.bind checkOwner_still fun _ => Still.bind Still.get fun s => ?_
  refine Still.bind (Still.onHost (Quiet.mapError (Host.quiet_of_detached fun hH => ?_) _)) fun _ => ?_
  · exact Upholds.bind (hH.vmclear _) fun _ => hH.vmptrld _
  · exact Still.bind (Still.setLaunched false) fun _ => noteCurrent_still

theorem load_still : load.Still := by
  refine Still.bind checkOwner_still fun _ => Still.bind Still.get fun s => ?_
  refine Still.bind (Still.onHost (Quiet.mapError (Host.quiet_of_detached fun hH => ?_) _)) fun _ => ?_
  · exact hH.vmptrld _
  · exact noteCurrent_still

theorem deactivate_still : deactivate.Still := by
  refine Still.bind Still.get fun s => Still.bind (Still.onDetached fun hH => hH.vmclear _) fun _ => ?_
  exact Still.bind (Still.setLaunched false) fun _ => Still.onHost (Quiet.modify fun _ => rfl)

theorem prelude_still : prelude.Still :=
  Still.bind activate_still fun _ => Still.bind (Still.onDetached fun hH => hH.initHostState) fun _ =>
    Still.onDetached fun hH => hH.initGuestState

theorem configureControls_still : configureControls.Still := by
  refine Still.bind Still.get fun s => Still.bind Still.get fun t => Still.onDetached fun hH => ?_
  refine Upholds.bind (hH.vmwrite _ _) fun _ => Upholds.bind Upholds.require fun _ => ?_
  refine Upholds.bind (hH.vmwriteAll _) fun _ => Upholds.bind Upholds.orFail fun pointer => ?_
  exact Upholds.bind (hH.vmwrite _ _) fun _ => hH.vmwriteAll _

theorem prepareNextRun_still : prepareNextRun.Still := by
  refine Still.bind load_still fun _ => Still.bind Still.get fun s => Still.ite Still.pure ?_
  exact Still.bind (Still.onDetached fun hH => hH.toCalm.sayOnCpu _ _) fun _ =>
    Still.onDetached fun hH => hH.initHostState

theorem loadContext_still : loadContext.Still :=
  Still.bind Still.get fun _ => Still.bind (Still.onDetached fun hH => hH.vmwrite _ _) fun _ =>
    Still.onDetached fun hH => hH.vmwrite _ _

theorem launch_still : launch.Still :=
  Still.bind Still.get fun _ => Still.bind (Still.onDetached fun hH => hH.vmenter _) fun _ =>
    Still.bind (Still.onContext _) fun _ => Still.setLaunched true

theorem saveContext_still : saveContext.Still := by
  refine Still.bind (Still.onDetached fun hH => hH.toCalm.vmread _) fun _ => ?_
  refine Still.bind (Still.onContext _) fun _ => ?_
  exact Still.bind (Still.onDetached fun hH => hH.toCalm.vmread _) fun _ => Still.onContext _

theorem onKernel_still (f : Kernel → Kernel) : (Session.onHost (Host.onKernel f)).Still :=
  Still.onHost (Quiet.modify fun _ => rfl)

theorem terminate_still : terminate.Still := by
  refine Still.bind deactivate_still.attempt fun result => ?_
  cases result with
  | ok _ => exact onKernel_still _
  | error err =>
      exact Still.bind (Still.onDetached fun hH => hH.toCalm.sayOnCpu _ _) fun _ => onKernel_still _

theorem reportFailure_still (err : VmError) : (reportFailure err).Still := by
  refine Still.bind (Still.onDetached fun hH => hH.toCalm.sayOnCpu _ _) fun _ => ?_
  exact Still.bind Still.get fun s => Still.ite (Still.onHost (Host.dump_quiet _ _)) Still.pure

theorem giveUp_still (err : VmError) : (giveUp err).Still :=
  Still.bind (reportFailure_still err) fun _ => Still.bind terminate_still fun _ => onKernel_still _

theorem enter_still : enter.Still := by
  have henter : Session.enter = (do
      loadContext
      launch
      saveContext
      onHost (ExitReason.decode Host.vmread)) := by
    simp only [Session.enter, launch, bind_assoc]
  rw [henter]
  exact Still.bind loadContext_still fun _ => Still.bind launch_still fun _ =>
    Still.bind saveContext_still fun _ => Still.onDetached fun hH => hH.toCalm.decode

section Counts

variable {g : Guest} {n : Nat}

theorem setupMsrs_counted : setupMsrs.Upholds (Counted g n) fun _ _ => True := by
  refine Upholds.bind (fun _ h => ⟨h.1.trans ⟨rfl, rfl, rfl, rfl, rfl, rfl⟩, h.2⟩) fun _ => ?_
  exact Upholds.get_bind fun _ _ => onHost_counted

theorem counted_aloof : Aloof g (Counted g n) fun _ _ => True where
  same := fun h => h.1
  memory := fun _ h => h
  log := fun _ h => h
  kernel := fun _ h => h
  spent := fun _ _ h => h
  context := fun _ h => h
  devices := fun _ _ h => ⟨h.1.trans ⟨rfl, rfl, rfl, rfl, rfl, rfl⟩, h.2⟩
  panic := fun _ _ _ => trivial

theorem counted_alert : Alert g (Counted g n) fun _ _ => True :=
  counted_aloof.alert (fun _ _ h => h) (fun _ _ h => h) fun _ _ h => h

end Counts

end Session

end Hypervisor
