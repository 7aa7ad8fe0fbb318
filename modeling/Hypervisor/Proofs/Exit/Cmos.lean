import Hypervisor.Proofs.Arrival
import Hypervisor.Proofs.Exit.Advance

/-!
# The clock chip of a guest

A guest selects a register of its clock chip at one port and reads it at the next.  In between nothing but
another selection changes which register it has selected, whatever else it stops for, and however that
ends.
-/

namespace Hypervisor

theorem Word.toNat_withLowByte (a : UInt64) (b : UInt8) :
    ((a &&& ~~~0xff) ||| b.toUInt64).toNat = a.toNat / 256 * 256 + b.toNat := by
  have hhigh : (a &&& ~~~0xff).toNat = a.toNat / 256 * 256 := toNat_and_not_two_pow a 8 (by decide)
  have hclear : (a &&& ~~~0xff).toNat % 2 ^ 8 = 0 := by
    rw [hhigh]
    exact Nat.mul_mod_left _ 256
  have hlow : b.toUInt64.toNat < 2 ^ 8 := b.toNat_lt
  rw [toNat_or_of_lt hclear hlow, hhigh, UInt8.toNat_toUInt64]

namespace Cmos

/-- The byte of a register for a guest with so many bytes of memory. The other registers have none. -/
inductive Holds (size : Nat) : UInt8 → Nat → Prop
  | baseLow : Holds size 0x15 (640 % 256)
  | baseHigh : Holds size 0x16 (640 / 256 % 256)
  | extendedLow : Holds size 0x17 ((size / 1024 - 1024) % 256)
  | extendedHigh : Holds size 0x18 ((size / 1024 - 1024) / 256 % 256)

variable {index value : UInt8} {size : UInt64}

theorem holds_of_read? (h : read? index size = some value) : Holds size.toNat index value.toNat := by
  rw [read?] at h
  split_ifs at h with h₁ h₂ h₃ h₄
  · obtain rfl := Option.some.inj h
    rw [h₁, show baseSize.toUInt8.toNat = 640 % 256 from rfl]
    exact .baseLow
  · obtain rfl := Option.some.inj h
    rw [h₂, show (baseSize >>> 8).toUInt8.toNat = 640 / 256 % 256 from rfl]
    exact .baseHigh
  · obtain rfl := Option.some.inj h
    rw [h₃, UInt8.toNat_ofNat']
    exact .extendedLow
  · obtain rfl := Option.some.inj h
    rw [h₄, UInt8.toNat_ofNat', Nat.shiftRight_eq_div_pow]
    exact .extendedHigh

theorem read?_eq_none : read? index size = none ↔ index ∉ [0x15, 0x16, 0x17, 0x18] := by
  show _ ↔ index ∉ [baseLow, baseHigh, extendedLow, extendedHigh]
  rw [read?]
  split_ifs with h₁ h₂ h₃ h₄
  · exact ⟨nofun, fun h => absurd (by simp [h₁]) h⟩
  · exact ⟨nofun, fun h => absurd (by simp [h₂]) h⟩
  · exact ⟨nofun, fun h => absurd (by simp [h₃]) h⟩
  · exact ⟨nofun, fun h => absurd (by simp [h₄]) h⟩
  · exact ⟨fun _ => by simp [h₁, h₂, h₃, h₄], fun _ => rfl⟩

end Cmos

namespace Session

open Hypervisor.Action

def Selects (index : UInt8) (size : UInt64) (s : Session) : Prop :=
  s.guest.rtcIndex = index ∧ s.guest.physSize = size

/-- The exit that the guest has when it is run next, with the session in which it is handled. -/
def exit? (s : Session) : Option (ExitReason × Session) :=
  match arrive.run s with
  | .ok reason t => some (reason, t)
  | .error _ _ => none

/-- The register that the guest selects with an exit. -/
def selected? : ExitReason × Session → Option UInt8
  | (.fromGuest (.ioInstruction access), s) =>
      if access.port = 0x70 ∧ access.isIn = false then some s.context.regs.rax.toUInt8 else none
  | _ => none

/-- The exit is handled, and the guest goes on. -/
def Handled (x : ExitReason × Session) : Prop := ∃ t, (dispatch x.1).run x.2 = .ok .continued t

instance (x : ExitReason × Session) : Decidable (Handled x) :=
  match h : (dispatch x.1).run x.2 with
  | .ok .continued t => .isTrue ⟨t, h⟩
  | .ok .exited _ => .isFalse fun ⟨_, heq⟩ => nomatch h.symm.trans heq
  | .error _ _ => .isFalse fun ⟨_, heq⟩ => nomatch h.symm.trans heq

variable {index : UInt8} {size : UInt64} {s : Session} {reason : ExitReason} {α : Type}

section Frame

theorem onHost_selects (x : HostM α) : (onHost x).Upholds (Selects index size) fun _ _ => True := by
  intro s h
  rw [onHost, ends_onPart]
  exact Ends.of_forall (fun _ _ => h) (fun _ _ => h) fun _ _ => trivial

theorem onMemory_selects (x : MemoryM VmError α) :
    (onMemory x).Upholds (Selects index size) fun _ _ => True :=
  onHost_selects _

theorem onRegisters_selects (f : Registers → Registers) :
    (onRegisters f).Upholds (Selects index size) fun _ _ => True :=
  fun _ h => h

theorem forwardRip_selects : forwardRip.Upholds (Selects index size) fun _ _ => True := by
  refine Upholds.bind (onHost_selects _) fun _ => Upholds.get_bind fun _ _ => Upholds.ite ?_ ?_
  · exact fun _ _ h => h
  · exact fun _ => Upholds.panic fun _ _ => trivial

theorem continueAfter_selects : continueAfter.Upholds (Selects index size) fun _ _ => True :=
  Upholds.bind forwardRip_selects fun _ => Upholds.pure

theorem setWindowExiting_selects (on : Bool) :
    (setWindowExiting on).Upholds (Selects index size) fun _ _ => True :=
  onHost_selects _

theorem handleExternalInterrupt_selects (info : InterruptInfo) :
    (handleExternalInterrupt info).Upholds (Selects index size) fun _ _ => True := by
  refine Upholds.bind (onHost_selects _) fun _ => Upholds.bind (fun _ h => h) fun _ => ?_
  refine Upholds.bind (onHost_selects _) fun _ => Upholds.ite (fun _ => ?_) fun _ => ?_
  · exact Upholds.bind (onHost_selects _) fun _ => Upholds.pure
  · exact Upholds.bind (setWindowExiting_selects true) fun _ => Upholds.pure

theorem handleInterruptWindow_selects :
    handleInterruptWindow.Upholds (Selects index size) fun _ _ => True := by
  refine Upholds.bind (setWindowExiting_selects false) fun _ => Upholds.get_bind fun _ _ => ?_
  exact Upholds.bind (onHost_selects _) fun _ => Upholds.pure

theorem emulatedMsr_selects (reason : ExitReason) (msr : MsrIndex) :
    (emulatedMsr reason msr).Upholds (Selects index size) fun _ _ => True := by
  refine Upholds.bind Upholds.require fun _ => Upholds.get_bind fun _ _ => ?_
  exact Upholds.bind (onMemory_selects _) fun _ => Upholds.orFail

theorem handleRdmsr_selects (reason : ExitReason) :
    (handleRdmsr reason).Upholds (Selects index size) fun _ _ => True := by
  refine Upholds.get_bind fun _ _ => Upholds.bind (emulatedMsr_selects _ _) fun _ => ?_
  refine Upholds.get_bind fun _ _ => Upholds.bind (onMemory_selects _) fun _ => ?_
  exact Upholds.bind (onRegisters_selects _) fun _ => continueAfter_selects

theorem handleWrmsr_selects (reason : ExitReason) :
    (handleWrmsr reason).Upholds (Selects index size) fun _ _ => True := by
  refine Upholds.get_bind fun _ _ => Upholds.bind (emulatedMsr_selects _ _) fun _ => ?_
  refine Upholds.get_bind fun _ _ => Upholds.bind (onMemory_selects _) fun _ => ?_
  have hwrite : ∀ x : MemoryM VmError Unit,
      (onMemory x >>= fun _ => continueAfter).Upholds (Selects index size) fun _ _ => True := fun _ =>
    Upholds.bind (onMemory_selects _) fun _ => continueAfter_selects
  refine Upholds.ite (fun _ => ?_) fun _ => hwrite _
  exact Upholds.bind (onHost_selects _) fun _ => hwrite _

theorem handleViolation_selects (reason : ExitReason) (address : Option Gpa) :
    (handleViolation reason address).Upholds (Selects index size) fun _ _ => True := by
  refine Upholds.bind Upholds.orFail fun _ => Upholds.get_bind fun _ _ => ?_
  refine Upholds.bind (onHost_selects _) fun r => ?_
  cases r
  · exact Upholds.pure
  · exact Upholds.fail

theorem handleCpuid_selects : handleCpuid.Upholds (Selects index size) fun _ _ => True :=
  Upholds.get_bind fun _ _ => Upholds.bind (onRegisters_selects _) fun _ => continueAfter_selects

theorem giveMemoryMap_selects : giveMemoryMap.Upholds (Selects index size) fun _ _ => True :=
  giveMemoryMap_upholds (fun _ _ => onMemory_selects _) (fun _ _ _ => onMemory_selects _)
    (fun _ _ => onMemory_selects _) fun _ h => h

theorem sendMessage_selects : sendMessage.Upholds (Selects index size) fun _ _ => True := by
  refine Upholds.get_bind fun s _ => ?_
  dsimp only
  split
  · refine Upholds.bind (onMemory_selects _) fun page => ?_
    split
    · exact Upholds.bind (onHost_selects _) fun _ => Upholds.pure
    · exact Upholds.pure
  · refine Upholds.bind Upholds.pure fun page => ?_
    split
    · exact Upholds.bind (onHost_selects _) fun _ => Upholds.pure
    · exact Upholds.pure

theorem receiveMessage_selects : receiveMessage.Upholds (Selects index size) fun _ _ => True := by
  refine Upholds.bind forwardRip_selects fun _ => Upholds.get_bind fun _ _ => ?_
  refine Upholds.bind Upholds.orFail fun _ => Upholds.bind (onHost_selects _) fun _ => ?_
  exact Upholds.bind (onRegisters_selects _) fun _ => Upholds.pure

theorem handleHypercall_selects (reason : ExitReason) :
    (handleHypercall reason).Upholds (Selects index size) fun _ _ => True := by
  refine Upholds.get_bind fun _ _ => ?_
  dsimp only
  split
  · exact Upholds.bind (onHost_selects _) fun _ => Upholds.fail
  · exact Upholds.bind giveMemoryMap_selects fun _ => continueAfter_selects
  · refine Upholds.bind sendMessage_selects fun _ => ?_
    exact Upholds.bind (onRegisters_selects _) fun _ => continueAfter_selects
  · exact receiveMessage_selects
  · exact Upholds.bind (onHost_selects _) fun _ => continueAfter_selects
  · exact Upholds.bind (onHost_selects _) fun _ => continueAfter_selects
  · refine Upholds.get_bind fun _ _ => ?_
    exact Upholds.bind (onRegisters_selects _) fun _ => continueAfter_selects

theorem rejectPortAccess_selects (reason : ExitReason) (access : PortAccess) :
    (rejectPortAccess reason access).Upholds (Selects index size) fun _ _ => True :=
  Upholds.get_bind fun _ _ => Upholds.bind (onHost_selects _) fun _ => Upholds.fail

theorem checkOwner_selects : checkOwner.Upholds (Selects index size) fun _ _ => True := by
  refine Upholds.get_bind fun s _ => ?_
  split
  · exact Upholds.require
  · exact Upholds.pure

theorem noteCurrent_selects : noteCurrent.Upholds (Selects index size) fun _ _ => True :=
  Upholds.get_bind fun _ _ => onHost_selects _

theorem activate_selects : activate.Upholds (Selects index size) fun _ _ => True := by
  refine Upholds.bind checkOwner_selects fun _ => Upholds.get_bind fun _ _ => ?_
  refine Upholds.bind (onHost_selects _) fun _ => Upholds.bind (fun _ h => h) fun _ => ?_
  exact noteCurrent_selects

theorem load_selects : load.Upholds (Selects index size) fun _ _ => True := by
  refine Upholds.bind checkOwner_selects fun _ => Upholds.get_bind fun _ _ => ?_
  exact Upholds.bind (onHost_selects _) fun _ => noteCurrent_selects

theorem deactivate_selects : deactivate.Upholds (Selects index size) fun _ _ => True := by
  refine Upholds.get_bind fun _ _ => Upholds.bind (onHost_selects _) fun _ => ?_
  exact Upholds.bind (fun _ h => h) fun _ => onHost_selects _

theorem setupMsrs_selects : setupMsrs.Upholds (Selects index size) fun _ _ => True :=
  Upholds.bind (fun _ h => h) fun _ => Upholds.get_bind fun _ _ => onMemory_selects _

theorem configureControls_selects : configureControls.Upholds (Selects index size) fun _ _ => True :=
  Upholds.get_bind fun _ _ => Upholds.get_bind fun _ _ => onHost_selects _

theorem prepareRun_selects : prepareRun.Upholds (Selects index size) fun _ _ => True := by
  have hfirst : prepareFirstRun.Upholds (Selects index size) fun _ _ => True := by
    refine Upholds.bind activate_selects fun _ => Upholds.bind (onHost_selects _) fun _ => ?_
    refine Upholds.bind (onHost_selects _) fun _ => Upholds.bind ?_ fun _ => ?_
    · exact Upholds.get_bind fun _ _ => onMemory_selects _
    · exact Upholds.bind setupMsrs_selects fun _ => configureControls_selects
  have hnext : prepareNextRun.Upholds (Selects index size) fun _ _ => True := by
    refine Upholds.bind load_selects fun _ => Upholds.get_bind fun s _ => ?_
    refine Upholds.ite (fun _ => Upholds.pure) fun _ => ?_
    exact Upholds.bind (onHost_selects _) fun _ => onHost_selects _
  exact fun s hs => prepareRun_ends_of (Q := Selects index size) (fun _ => hfirst s hs) fun _ =>
    hnext s hs

theorem enter_selects : enter.Upholds (Selects index size) fun _ _ => True := by
  rw [enter_eq]
  refine Upholds.bind ?_ fun _ => Upholds.bind ?_ fun _ => Upholds.bind ?_ fun _ => onHost_selects _
  · refine Upholds.get_bind fun _ _ => Upholds.bind (onHost_selects _) fun _ => onHost_selects _
  · exact launch_upholds (fun _ => onHost_selects _) (fun _ h => h) fun h => h
  · refine Upholds.bind (onHost_selects _) fun _ => Upholds.bind (fun _ h => h) fun _ => ?_
    exact Upholds.bind (onHost_selects _) fun _ => fun _ h => h

theorem arrive_selects : arrive.Upholds (Selects index size) fun _ _ => True := by
  refine Upholds.bind prepareRun_selects fun _ => Upholds.bind enter_selects fun _ => ?_
  exact Upholds.bind (onHost_selects _) fun _ => Upholds.pure

theorem terminate_selects : terminate.Upholds (Selects index size) fun _ _ => True := by
  refine Upholds.bind (Upholds.attempt deactivate_selects) fun r => ?_
  cases r
  · exact Upholds.bind (onHost_selects _) fun _ => onHost_selects _
  · exact onHost_selects _

theorem reportFailure_selects (e : VmError) :
    (reportFailure e).Upholds (Selects index size) fun _ _ => True := by
  refine Upholds.bind (onHost_selects _) fun _ => Upholds.get_bind fun _ _ => ?_
  exact Upholds.ite (fun _ => onHost_selects _) fun _ => Upholds.pure

end Frame

theorem handlePortAccess_eq (reason : ExitReason) (access : PortAccess) :
    handlePortAccess reason access =
      if access.port = 0x70 ∧ access.isIn = false then do
        let index := (← get).context.regs.rax.toUInt8
        onGuest fun g => { g with rtcIndex := index }
        continueAfter
      else if access.port = 0x71 ∧ access.isIn = true then do
        let g := (← get).guest
        match Cmos.read? g.rtcIndex g.physSize with
        | some value =>
            onRegisters fun r => { r with rax := (r.rax &&& ~~~0xff) ||| value.toUInt64 }
            continueAfter
        | none => rejectPortAccess reason access
      else rejectPortAccess reason access := by
  simp only [handlePortAccess, Bool.and_eq_true, decide_eq_true_eq, Bool.not_eq_true']
  rfl

/-- An access to the index port selects a register, even if the guest cannot be moved past the
instruction; the other accesses select none. -/
theorem handlePortAccess_selects (h : s.Selects index size) (reason : ExitReason) (access : PortAccess) :
    (handlePortAccess reason access).Ends s
      (fun _ t => t.Selects ((selected? (.fromGuest (.ioInstruction access), s)).getD index) size)
      (fun _ t => t.Selects ((selected? (.fromGuest (.ioInstruction access), s)).getD index) size)
      fun _ _ => True := by
  rw [handlePortAccess_eq]
  split
  · rename_i hselect
    have hselected : selected? (.fromGuest (.ioInstruction access), s) =
        some s.context.regs.rax.toUInt8 := if_pos hselect
    rw [hselected, ends_bind, ends_get, ends_bind]
    exact continueAfter_selects _ ⟨rfl, h.2⟩
  · rename_i hselect
    have hselected : selected? (.fromGuest (.ioInstruction access), s) = none := if_neg hselect
    rw [hselected]
    refine Upholds.ite (I := Selects index size) (fun _ => ?_) (fun _ => ?_) s h
    · refine Upholds.get_bind fun _ _ => ?_
      dsimp only
      split
      · exact Upholds.bind (onRegisters_selects _) fun _ => continueAfter_selects
      · exact rejectPortAccess_selects _ _
    · exact rejectPortAccess_selects _ _

/-- No exit but an access to the index port selects a register. -/
theorem dispatch_selects (h : s.Selects index size) (reason : ExitReason) :
    (dispatch reason).Ends s (fun _ t => t.Selects ((selected? (reason, s)).getD index) size)
      (fun _ t => t.Selects ((selected? (reason, s)).getD index) size) fun _ _ => True := by
  have hall : ∀ {x : SessionM ExitResult}, (x.Upholds (Selects index size) fun _ _ => True) →
      x.Ends s (fun _ t => t.Selects index size) (fun _ t => t.Selects index size) fun _ _ => True :=
    fun hx => hx s h
  unfold dispatch
  split
  · exact hall (handleExternalInterrupt_selects _)
  · exact hall handleInterruptWindow_selects
  · exact hall (handleRdmsr_selects _)
  · exact hall (handleWrmsr_selects _)
  · exact hall (handleViolation_selects _ _)
  · exact handlePortAccess_selects h _ _
  · exact hall handleCpuid_selects
  · exact hall (handleHypercall_selects _)
  · exact hall (Upholds.bind (onHost_selects _) fun _ => Upholds.pure)
  · rename_i hport _ _ _
    rw [selected?]
    · exact hall Upholds.fail
    · exact fun access _ heq => hport access (congrArg Prod.fst heq)

def nextSelected (index : UInt8) (s : Session) : UInt8 := (s.exit?.bind selected?).getD index

theorem runOnce_selects (h : s.Selects index size) :
    runOnce.Ends s (fun _ t => t.Selects (s.nextSelected index) size)
      (fun _ t => t.Selects (s.nextSelected index) size) fun _ _ => True := by
  have harrive := arrive_selects s h
  rw [runOnce_eq_arrive, ends_bind]
  cases hrun : arrive.run s with
  | ok reason t =>
      have hnext : s.nextSelected index = (selected? (reason, t)).getD index := by
        rw [nextSelected, exit?, hrun, Option.bind_some]
      rw [hnext]
      exact (ends_ok hrun).2 (dispatch_selects (harrive.ok hrun) reason)
  | error stop t =>
      have hnext : s.nextSelected index = index := by
        rw [nextSelected, exit?, hrun, Option.bind_none, Option.getD_none]
      rw [hnext]
      cases stop with
      | error e => exact (ends_error hrun).2 (harrive.error hrun)
      | panic p => exact (ends_stop hrun).2 trivial

/-- Giving up a guest selects no register, either. -/
theorem run_selects (h : s.Selects index size) :
    Session.run.Ends s (fun _ t => t.Selects (s.nextSelected index) size)
      (fun _ t => t.Selects (s.nextSelected index) size) fun _ _ => True := by
  have hall : ∀ {α : Type} {x : SessionM α} {t : Session},
      (x.Upholds (Selects (s.nextSelected index) size) fun _ _ => True) →
        t.Selects (s.nextSelected index) size →
          x.Ends t (fun _ u => u.Selects (s.nextSelected index) size)
            (fun _ u => u.Selects (s.nextSelected index) size) fun _ _ => True :=
    fun hx ht => hx _ ht
  rw [Session.run, ends_bind, ends_attempt]
  refine Ends.mono (runOnce_selects h) (fun r t ht => ?_) (fun e t ht => ?_) fun _ _ h => h
  · cases r with
    | continued => exact hall (Upholds.bind (onHost_selects _) fun _ => Upholds.pure) ht
    | exited =>
        refine hall (Upholds.bind terminate_selects fun _ => ?_) ht
        exact Upholds.bind (onHost_selects _) fun _ => Upholds.pure
  · have hgiven : (do
        reportFailure e
        terminate
        onHost (Host.onKernel Kernel.yieldNow)
        Action.fail e : SessionM ExitResult).Upholds (Selects (s.nextSelected index) size)
          fun _ _ => True := by
      refine Upholds.bind (reportFailure_selects _) fun _ => Upholds.bind terminate_selects fun _ => ?_
      exact Upholds.bind (onHost_selects _) fun _ => Upholds.fail
    cases e with
    | foreignVmcs => exact hall Upholds.fail ht
    | _ => exact hall hgiven ht

/-- The guest cannot be moved past the instruction that stopped it. -/
def Overruns (s : Session) : Prop := s.block.Overruns s.context.rip

instance (s : Session) : Decidable s.Overruns :=
  inferInstanceAs (Decidable (UInt64.size ≤ s.context.rip.toNat + s.length.toNat))

/-- The guest has read a byte of the clock chip into the low byte of RAX and goes on after that. -/
def Reads (s : Session) (byte : Nat) (t : Session) : Prop :=
  ∃ rax c, rax.toNat = s.context.regs.rax.toNat / 256 * 256 + byte ∧
    s.Advances { s.context.regs with rax := rax } c ∧ t = { s with context := c }

/-- The guest has selected the register that the low byte of RAX names and goes on after that. -/
def SelectsNext (s t : Session) : Prop :=
  ∃ c, s.Advances s.context.regs c ∧
    t = { s with context := c, guest := { s.guest with rtcIndex := s.context.regs.rax.toUInt8 } }

/-- The exit is rejected, and only the log has changed. -/
def Rejects (s : Session) (reason : ExitReason) (x : SessionM ExitResult) : Prop :=
  ∃ t, x.run s = .error (.error (.unhandledExit reason)) t ∧
    t = { s with host := { s.host with log := t.host.log } }

theorem Advances.not_overruns {regs : Registers} {c : Context} (h : s.Advances regs c) : ¬s.Overruns := by
  rw [Overruns, ControlBlock.Overruns, Nat.not_le]
  exact h.rip ▸ c.rip.toNat_lt

theorem Reads.not_overruns {byte : Nat} {t : Session} : s.Reads byte t → ¬s.Overruns
  | ⟨_, _, _, hc, _⟩ => hc.not_overruns

theorem SelectsNext.not_overruns {t : Session} : s.SelectsNext t → ¬s.Overruns
  | ⟨_, hc, _⟩ => hc.not_overruns

variable {access : PortAccess}

theorem rejectPortAccess_rejects (s : Session) (reason : ExitReason) (access : PortAccess) :
    s.Rejects reason (rejectPortAccess reason access) :=
  ⟨_, rfl, rfl⟩

theorem handlePortAccess_other (hread : ¬(access.port = 0x71 ∧ access.isIn = true))
    (hselect : ¬(access.port = 0x70 ∧ access.isIn = false)) :
    s.Rejects reason (handlePortAccess reason access) := by
  rw [handlePortAccess_eq, if_neg hselect, if_neg hread]
  exact rejectPortAccess_rejects s reason access

theorem not_select_of_read (hread : access.port = 0x71 ∧ access.isIn = true) :
    ¬(access.port = 0x70 ∧ access.isIn = false) := fun h =>
  Bool.false_ne_true (h.2.symm.trans hread.2)

theorem ends_handlePortAccess_read (hread : access.port = 0x71 ∧ access.isIn = true) {value : UInt8}
    (hvalue : Cmos.read? s.guest.rtcIndex s.guest.physSize = some value)
    {Q : ExitResult → Session → Prop} {E : VmError → Session → Prop} {F : Panic → Session → Prop} :
    (handlePortAccess reason access).Ends s Q E F ↔
      continueAfter.Ends { s with context := { s.context with regs := { s.context.regs with
        rax := (s.context.regs.rax &&& ~~~0xff) ||| value.toUInt64 } } } Q E F := by
  rw [handlePortAccess_eq, if_neg (not_select_of_read hread), if_pos hread, ends_bind, ends_get]
  dsimp only
  rw [hvalue, ends_bind, onRegisters, onContext, ends_modify]

theorem handlePortAccess_missing (hread : access.port = 0x71 ∧ access.isIn = true)
    (hnone : Cmos.read? s.guest.rtcIndex s.guest.physSize = none) :
    s.Rejects reason (handlePortAccess reason access) := by
  have hreject : (handlePortAccess reason access).run s = (rejectPortAccess reason access).run s := by
    rw [handlePortAccess_eq, if_neg (not_select_of_read hread), if_pos hread, EStateM.run_bind,
      EStateM.run_get]
    dsimp only
    rw [hnone]
  rw [Rejects, hreject]
  exact rejectPortAccess_rejects s reason access

theorem Rejects.not_handled {x : ExitReason × Session} (h : x.2.Rejects x.1 (dispatch x.1)) :
    ¬Handled x := by
  rintro ⟨t, ht⟩
  obtain ⟨u, hu, -⟩ := h
  exact nomatch hu.symm.trans ht

def Passes (s : Session) (Q : Session → Prop) (x : SessionM ExitResult) : Prop :=
  x.Ends s (fun r t => r = .continued ∧ Q t) (fun _ _ => False) fun p _ => p = .addOverflow ∧ s.Overruns

namespace Passes

variable {Q : Session → Prop}

theorem ok {x : SessionM ExitResult} {r : ExitResult} {t : Session} (h : s.Passes Q x)
    (hrun : x.run s = .ok r t) : r = .continued ∧ Q t := (ends_ok hrun).1 h

theorem handled_iff (h : s.Passes Q (dispatch reason)) (hQ : ∀ t, Q t → ¬s.Overruns) :
    Handled (reason, s) ↔ ¬s.Overruns := by
  constructor
  · rintro ⟨t, ht⟩
    exact hQ t (h.ok ht).2
  · intro hmoves
    obtain ⟨r, t, hrun, rfl, -⟩ :=
      (Ends.mono h (fun _ _ h => h) (fun _ _ h => h) fun _ _ h => hmoves h.2).exists_ok
    exact ⟨t, hrun⟩

theorem panics {x : SessionM ExitResult} (h : s.Passes Q x) (hQ : ∀ t, Q t → ¬s.Overruns)
    (hover : s.Overruns) : ∃ t, x.run s = .error (.panic .addOverflow) t := by
  cases hrun : x.run s with
  | ok r t => exact absurd hover (hQ t (h.ok hrun).2)
  | error stop t =>
      cases stop with
      | error e => exact (Ends.error h hrun).elim
      | panic p =>
          obtain rfl := (Ends.stop h hrun).1
          exact ⟨t, rfl⟩

end Passes

section OnCpu

variable (hon : s.Current) (hfaults : s.host.cpu.processor.faults = [])

include hon hfaults

theorem continueAfter_passes {t : Session} {regs : Registers} (hhost : t.host = s.host)
    (hcontext : t.context = { s.context with regs := regs }) :
    continueAfter.Ends t
      (fun r u => r = .continued ∧ ∃ c, s.Advances regs c ∧ u = { t with context := c })
      (fun _ _ => False) fun p _ => p = .addOverflow ∧ s.Overruns := by
  have hmasked : Masked (fun _ => 0) s t :=
    (Masked.refl _ s).congr (congrArg (·.blocks) hhost) (congrArg (·.cpu) hhost)
  rw [continueAfter, ends_bind]
  refine Ends.mono (forwardRip_ends hmasked hon rfl hcontext) ?_ (fun _ _ h => h hfaults) fun _ _ h => h
  rintro - _ ⟨c, hc, rfl⟩
  refine ⟨rfl, c, hc, ?_⟩
  rw [Host.spent_of_faultless (hhost ▸ hfaults)]

theorem handlePortAccess_select (hselect : access.port = 0x70 ∧ access.isIn = false) :
    s.Passes s.SelectsNext (handlePortAccess reason access) := by
  rw [handlePortAccess_eq, if_pos hselect, Passes, ends_bind, ends_get, ends_bind, onGuest, ends_modify]
  refine Ends.mono (continueAfter_passes hon hfaults rfl rfl) ?_ (fun _ _ h => h) fun _ _ h => h
  rintro r _ ⟨hr, c, hc, rfl⟩
  exact ⟨hr, c, hc, rfl⟩

theorem handlePortAccess_read (hread : access.port = 0x71 ∧ access.isIn = true) {value : UInt8}
    (hvalue : Cmos.read? s.guest.rtcIndex s.guest.physSize = some value) :
    s.Passes (s.Reads value.toNat) (handlePortAccess reason access) := by
  rw [Passes, ends_handlePortAccess_read hread hvalue]
  refine Ends.mono (continueAfter_passes hon hfaults rfl rfl) ?_ (fun _ _ h => h) fun _ _ h => h
  rintro r _ ⟨hr, c, hc, rfl⟩
  exact ⟨hr, _, c, Word.toNat_withLowByte _ _, hc, rfl⟩

end OnCpu

/-- A port access is handled as by the clock chip of a guest with so many bytes of memory that has
selected a register. -/
structure ClockChip (index : UInt8) (size : Nat) (access : PortAccess) (s : Session) : Prop where
  /-- A read from the data port is handled if the register has a byte and the guest can be moved on. -/
  handled : access.port = 0x71 ∧ access.isIn = true →
    (Handled (.fromGuest (.ioInstruction access), s) ↔
      index ∈ [0x15, 0x16, 0x17, 0x18] ∧ ¬s.Overruns)
  /-- Then nothing but the low byte of RAX and the instruction pointer have changed. -/
  reads : access.port = 0x71 ∧ access.isIn = true →
    ∀ r t, (dispatch (.fromGuest (.ioInstruction access))).run s = .ok r t →
      r = .continued ∧ ∃ byte, Cmos.Holds size index byte ∧ s.Reads byte t
  /-- The other registers have no byte. -/
  missing : access.port = 0x71 ∧ access.isIn = true → index ∉ [0x15, 0x16, 0x17, 0x18] →
    s.Rejects (.fromGuest (.ioInstruction access)) (dispatch (.fromGuest (.ioInstruction access)))
  /-- A write to the index port is handled if the guest can be moved on. -/
  selected : access.port = 0x70 ∧ access.isIn = false →
    (Handled (.fromGuest (.ioInstruction access), s) ↔ ¬s.Overruns)
  /-- Then the low byte of RAX is selected. -/
  selects : access.port = 0x70 ∧ access.isIn = false →
    ∀ r t, (dispatch (.fromGuest (.ioInstruction access))).run s = .ok r t →
      r = .continued ∧ s.SelectsNext t
  /-- A guest that cannot be moved on stops the kernel. -/
  overruns : access.port = 0x71 ∧ access.isIn = true ∧ index ∈ [0x15, 0x16, 0x17, 0x18] ∨
      access.port = 0x70 ∧ access.isIn = false → s.Overruns →
    ∃ t, (dispatch (.fromGuest (.ioInstruction access))).run s = .error (.panic .addOverflow) t
  /-- No other access is emulated. -/
  other : ¬(access.port = 0x71 ∧ access.isIn = true) → ¬(access.port = 0x70 ∧ access.isIn = false) →
    s.Rejects (.fromGuest (.ioInstruction access)) (dispatch (.fromGuest (.ioInstruction access)))

theorem clockChip (hon : s.Current) (hfaults : s.host.cpu.processor.faults = [])
    (h : s.Selects index size) (access : PortAccess) : s.ClockChip index size.toNat access := by
  obtain ⟨rfl, rfl⟩ := h
  have hselect : access.port = 0x70 ∧ access.isIn = false →
      s.Passes s.SelectsNext (dispatch (.fromGuest (.ioInstruction access))) := fun hselect =>
    handlePortAccess_select hon hfaults hselect
  have hselected : ∀ t, s.SelectsNext t → ¬s.Overruns := fun _ ht => ht.not_overruns
  have hother : ¬(access.port = 0x71 ∧ access.isIn = true) → ¬(access.port = 0x70 ∧ access.isIn = false) →
      s.Rejects (.fromGuest (.ioInstruction access)) (dispatch (.fromGuest (.ioInstruction access))) :=
    fun hread hselect => handlePortAccess_other hread hselect
  -- the register has a byte, or else a read is rejected
  cases hvalue : Cmos.read? s.guest.rtcIndex s.guest.physSize with
  | none =>
      have hindex : s.guest.rtcIndex ∉ [0x15, 0x16, 0x17, 0x18] := Cmos.read?_eq_none.1 hvalue
      have hreject : access.port = 0x71 ∧ access.isIn = true → s.Rejects
          (.fromGuest (.ioInstruction access)) (dispatch (.fromGuest (.ioInstruction access))) :=
        fun hread => handlePortAccess_missing hread hvalue
      exact {
        handled := fun hread => iff_of_false (hreject hread).not_handled fun h => hindex h.1
        reads := fun hread r t hrun => by
          obtain ⟨u, hu, -⟩ := hreject hread
          exact nomatch hu.symm.trans hrun
        missing := fun hread _ => hreject hread
        selected := fun h => (hselect h).handled_iff hselected
        selects := fun h _ _ hrun => (hselect h).ok hrun
        overruns := fun h hover =>
          (hselect (h.resolve_left fun hread => hindex hread.2.2)).panics hselected hover
        other := hother }
  | some value =>
      have hindex : s.guest.rtcIndex ∈ [0x15, 0x16, 0x17, 0x18] := by
        by_contra hnot
        exact nomatch hvalue.symm.trans (Cmos.read?_eq_none.2 hnot)
      have hread : access.port = 0x71 ∧ access.isIn = true →
          s.Passes (s.Reads value.toNat) (dispatch (.fromGuest (.ioInstruction access))) := fun hread =>
        handlePortAccess_read hon hfaults hread hvalue
      have hmoved : ∀ t, s.Reads value.toNat t → ¬s.Overruns := fun _ ht => ht.not_overruns
      exact {
        handled := fun h => ((hread h).handled_iff hmoved).trans (and_iff_right hindex).symm
        reads := fun h r t hrun =>
          ((hread h).ok hrun).imp_right fun ht => ⟨_, Cmos.holds_of_read? hvalue, ht⟩
        missing := fun _ hnot => absurd hindex hnot
        selected := fun h => (hselect h).handled_iff hselected
        selects := fun h _ _ hrun => (hselect h).ok hrun
        overruns := fun h hover => by
          obtain ⟨hport, hin, -⟩ | h := h
          · exact (hread ⟨hport, hin⟩).panics hmoved hover
          · exact (hselect h).panics hselected hover
        other := hother }

/-- While no instruction is made to fail, a run that ends with a result or an error has handled every
selection of a register: the kernel stops for a guest that cannot be moved past it. -/
theorem run_handles {x : ExitReason × Session} (hexit : s.exit? = some x)
    (hselected : (selected? x).isSome = true) (hfaults : x.2.host.cpu.processor.faults = []) :
    Session.run.Ends s (fun _ _ => Handled x) (fun _ _ => Handled x) fun _ _ => True := by
  rw [exit?] at hexit
  split at hexit
  · rename_i reason t harrive
    obtain rfl := Option.some.inj hexit
    have hon : t.Current := (arrive_current s).ok harrive
    have hpasses : ∃ Q, t.Passes Q (dispatch reason) := by
      unfold selected? at hselected
      split at hselected
      · rename_i access u heq
        cases heq
        split at hselected
        · exact ⟨_, handlePortAccess_select hon hfaults ‹_›⟩
        · cases hselected
      · cases hselected
    obtain ⟨Q, hpasses⟩ := hpasses
    rw [Session.run, ends_bind, ends_attempt, runOnce_eq_arrive, ends_bind]
    refine (ends_ok harrive).2 ?_
    cases hrun : (dispatch reason).run t with
    | ok r u =>
        obtain rfl := (hpasses.ok hrun).1
        exact (ends_ok hrun).2 (Ends.of_forall (fun _ _ => ⟨u, hrun⟩) (fun _ _ => ⟨u, hrun⟩)
          fun _ _ => trivial)
    | error stop u =>
        cases stop with
        | error e => exact (Ends.error hpasses hrun).elim
        | panic p => exact (ends_stop hrun).2 trivial
  · cases hexit

end Session

end Hypervisor
