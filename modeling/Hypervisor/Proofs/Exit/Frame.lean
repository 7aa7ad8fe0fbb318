import Hypervisor.Proofs.Exit.Service

/-!
# What handling an exit changes

An exit that is handled leaves the guest where it was, or moves it past the instruction that it
stopped at and puts the results of that instruction into its registers.  Of its control block only
what interrupts are forwarded with changes, and the mode that it runs in.  An exit that nothing
handles changes nothing but the log.
-/

namespace Hypervisor

/-- The bits of the control block that change when an interrupt is forwarded. -/
def Field.interruptMask : Field → UInt64
  | .vmentryInterruptionInfo => ~~~0
  | .processorBasedVmexecControls => ProcBased.interruptWindowExiting.bits
  | _ => 0

/-- The bits of the control block that change when the guest enters long mode. -/
def Field.longModeMask : Field → UInt64
  | .vmentryControls => EntryControl.longModeGuest.bits
  | _ => 0

/-- The bits of the guest's control block that the handler of an exit may change. -/
def ExitReason.mask : ExitReason → Field → UInt64
  | .fromGuest (.externalInterrupt _) | .fromGuest (.code .interruptWindow) => Field.interruptMask
  | .fromGuest (.code .wrmsr) => Field.longModeMask
  | _ => fun _ => 0

theorem ProcBased.withWindow_and_not (on : Bool) (w : UInt64) :
    withWindow on w &&& ~~~interruptWindowExiting.bits = w &&& ~~~interruptWindowExiting.bits := by
  cases on with
  | true =>
      rw [withWindow, if_pos rfl, Word.or_and, UInt64.and_not_self, UInt64.or_zero]
  | false =>
      rw [withWindow, if_neg Bool.false_ne_true, UInt64.and_assoc, UInt64.and_self]

/-- The guest's value of a switched register, if it is listed. -/
def Guest.msr? (g : Guest) (m : Memory) (msr : MsrIndex) : Option UInt64 :=
  let word := (m.words g.guestMsrArea).word
  let start := areaStart g.guestMsrArea
  ((List.range g.msrCount).find? fun i => (word (start + 2 * i)).toUInt32 == msr).map fun i =>
    word (start + 2 * i + 1)

/-- The registers in which CPUID answers. The first leaf does not show the VMX bit. -/
def Registers.withCpuid (r : Registers) (result : CpuidResult) : Registers :=
  { r with
    rax := result.eax.toUInt64, rbx := result.ebx.toUInt64
    rcx := (if r.rax.toUInt32 = 1 then result.ecx &&& ~~~CpuidResult.vmxBit
      else result.ecx).toUInt64
    rdx := result.edx.toUInt64 }

namespace Session

open Hypervisor.Action

/-- The guest after its devices have seen an exit. -/
def devices (s : Session) : ExitReason → Guest
  | .fromGuest (.externalInterrupt info) => { s.guest with hostVector := info.raw }
  | .fromGuest (.ioInstruction access) =>
      if access.port = rtcPort && !access.isIn then
        { s.guest with rtcIndex := s.context.regs.rax.toUInt8 }
      else s.guest
  | _ => s.guest

/-- The context in which the guest goes on after an exit that was handled. -/
inductive Continues (s : Session) : ExitReason → Context → Prop where
  | interrupted (info : InterruptInfo) :
      Continues s (.fromGuest (.externalInterrupt info)) s.context
  | accepting : Continues s (.fromGuest (.code .interruptWindow)) s.context
  | backed (access : Violation) (address : Option Gpa) :
      Continues s (.fromGuest (.eptViolation access address)) s.context
  | cpuid {c : Context} (h : s.Advances (s.context.regs.withCpuid (s.host.cpu.processor.cpuid
        s.context.regs.rax.toUInt32 s.context.regs.rcx.toUInt32)) c) :
      Continues s (.fromGuest (.code .cpuid)) c
  | rdmsr {c : Context} {w : UInt64} (hmsr : s.context.regs.rcx.toUInt32 = MsrIndex.efer)
      (hw : s.guest.msr? s.host.memory .efer = some w)
      (h : s.Advances { s.context.regs with rdx := w >>> 32, rax := w &&& 0xffffffff } c) :
      Continues s (.fromGuest (.code .rdmsr)) c
  | wrmsr {c : Context} (hmsr : s.context.regs.rcx.toUInt32 = MsrIndex.efer)
      (h : s.Advances s.context.regs c) : Continues s (.fromGuest (.code .wrmsr)) c
  | select {c : Context} {access : PortAccess} (hport : access.port = rtcPort)
      (hout : access.isIn = false) (h : s.Advances s.context.regs c) :
      Continues s (.fromGuest (.ioInstruction access)) c
  | read {c : Context} {access : PortAccess} {value : UInt8} (hport : access.port = rtcPort + 1)
      (hin : access.isIn = true)
      (hvalue : Cmos.read? s.guest.rtcIndex s.guest.physSize = some value)
      (h : s.Advances
        { s.context.regs with rax := (s.context.regs.rax &&& ~~~0xff) ||| value.toUInt64 } c) :
      Continues s (.fromGuest (.ioInstruction access)) c
  | served {c : Context} {call : Hypercall}
      (hcall : Hypercall.ofNumber? s.context.regs.rax = some call)
      (h : s.Advances (s.answer call) c) : Continues s (.fromGuest (.code .vmcall)) c

/-- What the handling of an exit makes of a session. -/
structure Framed (reason : ExitReason) (s t : Session) : Prop extends Masked reason.mask s t where
  context : s.Continues reason t.context
  guest : t.guest = s.devices reason

/-- The handler of an exit lets the guest go on as it should.  If it does not accept the exit, only
the log has changed. -/
def Frames (reason : ExitReason) (s : Session) (x : SessionM ExitResult) : Prop :=
  x.Ends s (fun r t => r = .continued → Framed reason s t)
    (fun e t => s.host.cpu.processor.faults = [] → ∀ r, e = .unhandledExit r →
      r = reason ∧ t = { s with host := { s.host with log := t.host.log } }) fun _ _ => True

variable {reason : ExitReason} {s t : Session} {regs : Registers}

theorem mask_length (reason : ExitReason) : reason.mask .vmexitInstructionLength = 0 := by
  unfold ExitReason.mask
  split <;> rfl

theorem continueAfter_framed (hon : s.Current) (ht : Masked reason.mask s t)
    (hguest : t.guest = s.devices reason) (hcontext : t.context = { s.context with regs := regs })
    (hc : ∀ {c}, s.Advances regs c → s.Continues reason c) :
    continueAfter.Ends t (fun r u => r = .continued → Framed reason s u)
      (fun _ _ => s.host.cpu.processor.faults ≠ []) fun _ _ => True := by
  refine Ends.mono (continueAfter_ends ht hon (mask_length reason) hcontext) ?_ (fun _ _ h => h)
    fun _ _ _ => trivial
  rintro r u ⟨-, hu, hguest', hadvances⟩ -
  exact ⟨hu, hc hadvances, hguest'.trans hguest⟩

theorem Frames.of_ends {x : SessionM ExitResult} (h : x.Ends s
      (fun r t => r = .continued → Framed reason s t)
      (fun _ _ => s.host.cpu.processor.faults ≠ []) fun _ _ => True) : Frames reason s x :=
  Ends.mono h (fun _ _ h => h) (fun _ _ hf hnone => absurd hnone hf) fun _ _ h => h

theorem frames_fail : Frames reason s (Action.fail (.unhandledExit reason)) := by
  rintro - r hr
  cases hr
  exact ⟨rfl, rfl⟩

theorem frames_say_fail (level : LogLevel) (text : String) :
    Frames reason s (onHost (Host.say level text) >>= fun _ => Action.fail (.unhandledExit reason)) := by
  rintro - r hr
  cases hr
  exact ⟨rfl, rfl⟩

theorem rejectPortAccess_frames (access : PortAccess) :
    Frames reason s (rejectPortAccess reason access) := by
  rw [rejectPortAccess, Frames, ends_bind, ends_get]
  exact frames_say_fail _ _

theorem handleCpuid_frames (hon : s.Current) :
    Frames (.fromGuest (.code .cpuid)) s handleCpuid := by
  refine Frames.of_ends ?_
  rw [handleCpuid, ends_bind, ends_get, ends_bind]
  exact continueAfter_framed hon ((Masked.refl _ s).congr rfl rfl) rfl rfl fun h => .cpuid h

theorem handlePortAccess_frames (hon : s.Current) (access : PortAccess) :
    Frames (.fromGuest (.ioInstruction access)) s
      (handlePortAccess (.fromGuest (.ioInstruction access)) access) := by
  rw [handlePortAccess]
  split
  · rename_i hselect
    refine Frames.of_ends ?_
    rw [ends_bind, ends_get, ends_bind]
    have hdevices : s.devices (.fromGuest (.ioInstruction access)) =
        { s.guest with rtcIndex := s.context.regs.rax.toUInt8 } := if_pos hselect
    simp only [Bool.and_eq_true, decide_eq_true_eq, Bool.not_eq_true'] at hselect
    exact continueAfter_framed hon ((Masked.refl _ s).congr rfl rfl) hdevices.symm rfl fun h =>
      .select hselect.1 hselect.2 h
  · rename_i hselect
    have hdevices : s.devices (.fromGuest (.ioInstruction access)) = s.guest := if_neg hselect
    split
    · rename_i hread
      simp only [Bool.and_eq_true, decide_eq_true_eq] at hread
      rw [Frames, ends_bind, ends_get]
      dsimp only
      split
      · rename_i value hvalue
        refine Frames.of_ends ?_
        rw [ends_bind]
        exact continueAfter_framed hon ((Masked.refl _ s).congr rfl rfl) hdevices.symm rfl fun h =>
          .read hread.1 hread.2 hvalue h
      · exact rejectPortAccess_frames access
    · exact rejectPortAccess_frames access

theorem handleHypercall_frames (hon : s.Current) :
    Frames (.fromGuest (.code .vmcall)) s (handleHypercall (.fromGuest (.code .vmcall))) := by
  have hall : ∀ {α : Type} (x : SessionM α),
      x.Ends s (fun _ _ => True) (fun _ _ => True) fun _ _ => True := fun _ =>
    Ends.of_forall (fun _ _ => trivial) (fun _ _ => trivial) fun _ _ => trivial
  refine Ends.mono (handleHypercall_ends hon (hall _) (fun _ => hall _) fun _ _ _ => trivial) ?_ ?_
    fun _ _ h => h
  · rintro r t ⟨-, call, hcall, ht⟩ -
    exact ⟨ht.toMasked, .served hcall ht.context, ht.guest⟩
  · rintro e t he hfaults r rfl
    cases he hfaults with
    | unknown => exact ⟨rfl, rfl⟩
    | memory _ hmemory _ => exact (hmemory.handled r rfl).elim

theorem emulatedMsr_ends (msr : MsrIndex) :
    (emulatedMsr reason msr).Ends s
      (fun i t => t = s ∧ msr = .efer ∧
        s.guest.msr? s.host.memory .efer = some ((s.host.memory.words s.guest.guestMsrArea).word i))
      (fun e t => e = .unhandledExit reason ∧ t = s) fun _ _ => True := by
  rw [emulatedMsr, ends_bind, ends_require]
  split
  · rename_i hmsr
    simp only [Guest.findMsr, ends_bind, ends_get, ends_onMemory, ends_pure]
    refine Memory.pageWords_ends (fun _ => ?_) fun _ _ => trivial
    rw [ends_orFail]
    split
    · rename_i i hi
      obtain ⟨j, hj, rfl⟩ := Option.map_eq_some_iff.1 hi
      refine ⟨rfl, beq_iff_eq.1 hmsr, ?_⟩
      rw [Guest.msr?, hj]
      rfl
    · exact ⟨rfl, rfl⟩
  · exact ⟨rfl, rfl⟩

theorem pageWords_ends_bind {α : Type} {a : Hpa} {f : PageWords → SessionM α} {Q : α → Session → Prop}
    {E : VmError → Session → Prop} (h : (f (s.host.memory.words a)).Ends s Q E fun _ _ => True) :
    (onMemory (Memory.pageWords a) >>= f).Ends s Q E fun _ _ => True := by
  rw [ends_bind, ends_onMemory]
  exact Memory.pageWords_ends (fun _ => h) fun _ _ => trivial

theorem handleRdmsr_frames (hon : s.Current) :
    Frames (.fromGuest (.code .rdmsr)) s (handleRdmsr (.fromGuest (.code .rdmsr))) := by
  rw [Frames, handleRdmsr, ends_bind, ends_get, ends_bind]
  refine Ends.mono (emulatedMsr_ends _) ?_ ?_ fun _ _ h => h
  · rintro i _ ⟨rfl, hmsr, hw⟩
    rw [ends_bind, ends_get]
    refine pageWords_ends_bind (Frames.of_ends ?_)
    rw [ends_bind]
    exact continueAfter_framed hon ((Masked.refl _ _).congr rfl rfl) rfl rfl fun h =>
      .rdmsr hmsr hw h
  · rintro _ _ ⟨rfl, rfl⟩ - r hr
    cases hr
    exact ⟨rfl, rfl⟩

theorem longMode_ends (hon : s.Current) :
    (onHost do
      let controls ← Host.vmread .vmentryControls
      Host.vmwrite .vmentryControls (controls ||| EntryControl.longModeGuest.bits) : SessionM Unit).Ends s
      (fun _ t => Masked Field.longModeMask s t ∧ t.guest = s.guest ∧ t.context = s.context ∧
        t.host.memory = s.host.memory ∧ t.block = s.block.write .vmentryControls
          (s.block.read .vmentryControls ||| EntryControl.longModeGuest.bits))
      (fun _ _ => s.host.cpu.processor.faults ≠ []) fun _ _ => True := by
  have hread := Masked.refl Field.longModeMask s |>.spent .vmread (some .vmentryControls)
  rw [onHost, ends_onPart, ends_bind]
  refine Host.vmread_ends (fun p hp => ?_) (fun hnone => ?_) fun _ hx => List.ne_nil_of_mem hx
  · obtain rfl : p = s.guest.block := Option.some.inj (hp.symm.trans hon)
    refine Host.vmwrite_revises (hread.current hon) (fun h hrev hblock => ?_) fun _ _ _ _ hf h0 =>
      hf (hread.faultless h0)
    refine ⟨hread.write hrev hblock ?_, rfl, rfl, hrev.memory, hblock⟩
    show (s.block.read _ ||| _) &&& ~~~EntryControl.longModeGuest.bits = _
    rw [Word.or_and, UInt64.and_not_self, UInt64.or_zero]
    rfl
  · exact absurd (hon.symm.trans hnone) (Option.some_ne_none _)

theorem handleWrmsr_frames (hon : s.Current) :
    Frames (.fromGuest (.code .wrmsr)) s (handleWrmsr (.fromGuest (.code .wrmsr))) := by
  rw [Frames, handleWrmsr, ends_bind, ends_get, ends_bind]
  refine Ends.mono (emulatedMsr_ends _) ?_ ?_ fun _ _ h => h
  · rintro i _ ⟨rfl, hmsr, -⟩
    rename_i s
    have hrest : ∀ {t} (w : UInt64), Masked Field.longModeMask s t → t.guest = s.guest →
        t.context = s.context →
        (onMemory (Memory.updatePage s.guest.guestMsrArea fun ws => ws.setWord i w) >>= fun _ =>
          continueAfter).Ends t (fun r u => r = .continued → Framed (.fromGuest (.code .wrmsr)) s u)
            (fun _ _ => s.host.cpu.processor.faults ≠ []) fun _ _ => True := by
      intro t w ht hguest hcontext
      rw [ends_bind, ends_onMemory, Memory.ends_updatePage]
      exact continueAfter_framed hon (ht.congr rfl rfl) hguest hcontext fun h => .wrmsr hmsr h
    rw [ends_bind, ends_get]
    refine pageWords_ends_bind (Frames.of_ends ?_)
    dsimp only
    split
    · rw [ends_bind]
      refine Ends.mono (longMode_ends hon) ?_ (fun _ _ h => h) fun _ _ h => h
      rintro - t ⟨ht, hguest, hcontext, -⟩
      exact hrest _ ht hguest hcontext
    · exact hrest _ (.refl _ s) rfl rfl
  · rintro _ _ ⟨rfl, rfl⟩ - r hr
    cases hr
    exact ⟨rfl, rfl⟩

theorem interruptMask_info (w v : UInt64) :
    w &&& ~~~Field.interruptMask .vmentryInterruptionInfo =
      v &&& ~~~Field.interruptMask .vmentryInterruptionInfo := by
  rw [Field.interruptMask, UInt64.not_not, UInt64.and_zero, UInt64.and_zero]

theorem setWindowExiting_masked {on : Bool} (hon : s.Current) (ht : Masked Field.interruptMask s t)
    (hblock : t.guest.block = s.guest.block) {Q : Unit → Session → Prop}
    (hQ : ∀ h, Masked Field.interruptMask s { t with host := h } → Q () { t with host := h }) :
    (setWindowExiting on).Ends t Q (fun _ _ => s.host.cpu.processor.faults ≠ []) fun _ _ => True := by
  have hcurrent : t.Current := by
    rw [Current, hblock]
    exact ht.current hon
  refine setWindowExiting_ends hcurrent (fun h hrev hwritten => hQ h ?_) fun hf _ _ h0 =>
    hf (ht.faultless h0)
  rw [block, hblock] at hwritten
  rw [hblock] at hrev
  refine ht.write hrev hwritten ?_
  rw [← ht.fields]
  exact ProcBased.withWindow_and_not _ _

theorem handleExternalInterrupt_frames (hon : s.Current) (info : InterruptInfo) :
    Frames (.fromGuest (.externalInterrupt info)) s (handleExternalInterrupt info) := by
  refine Frames.of_ends ?_
  simp only [handleExternalInterrupt, onHost, onGuest, Host.say, Host.onPlatform, Platform.say,
    ends_bind, ends_onPart, ends_modify]
  have hread : ∀ l, Masked Field.interruptMask s
      { s with guest := s.devices (.fromGuest (.externalInterrupt info)),
               host := { s.host with log := l }.spent .vmread (some .guestRflags) } := fun l =>
    (Masked.refl _ s).congr (u := { s with host := { s.host with log := l } }) rfl rfl
      |>.spent _ _ |>.congr rfl rfl
  refine Host.vmread_ends (fun p hp => ?_) (fun hnone => ?_) fun _ hx => List.ne_nil_of_mem hx
  · obtain rfl : p = s.guest.block := Option.some.inj (hp.symm.trans hon)
    rw [ends_ite]
    split
    · simp only [ends_bind, ends_onPart, ends_pure]
      refine Host.vmwrite_revises hon (fun h hrev hblock _ => ?_) fun _ _ _ _ hf h0 =>
        hf ((hread _).faultless h0)
      exact ⟨(hread _).write hrev hblock (interruptMask_info _ _), .interrupted info, rfl⟩
    · rw [ends_bind]
      exact setWindowExiting_masked hon (hread _) rfl fun h hmasked _ =>
        ⟨hmasked, .interrupted info, rfl⟩
  · exact absurd (hon.symm.trans hnone) (Option.some_ne_none _)

theorem handleInterruptWindow_frames (hon : s.Current) :
    Frames (.fromGuest (.code .interruptWindow)) s handleInterruptWindow := by
  refine Frames.of_ends ?_
  rw [handleInterruptWindow, ends_bind]
  refine setWindowExiting_masked hon (.refl _ s) rfl fun h hmasked => ?_
  simp only [ends_bind, ends_get, onHost, ends_onPart, ends_pure]
  refine Host.vmwrite_revises (hmasked.current hon) (fun h' hrev hblock _ => ?_) fun _ _ _ _ hf h0 =>
    hf (hmasked.faultless h0)
  exact ⟨hmasked.write hrev hblock (interruptMask_info _ _), .accepting, rfl⟩

end Session

namespace Ept

open Hypervisor.Action

theorem onAccess_unhandled (t : Ept) (physSize : UInt64) (gpa : Gpa) (m : Memory) :
    (t.onAccess physSize gpa).Ends m (fun r m' => r = .unhandled → m' = m)
      (fun e _ => e.OfMemory) fun _ _ => True := by
  have hstate : (t.onAccess physSize gpa).Ends m (fun r m' => r = .unhandled → m' = m)
      (fun _ _ => True) fun _ _ => True := by
    rw [onAccess]
    split
    · rw [ends_bind]
      exact Ends.of_forall (fun _ _ h => by cases h) (fun _ _ => trivial) fun _ _ => trivial
    · rw [ends_bind]
      refine Ends.of_forall (fun _ _ => ?_) (fun _ _ => trivial) fun _ _ => trivial
      rw [ends_bind]
      exact Ends.of_forall (fun _ _ h => by cases h) (fun _ _ => trivial) fun _ _ => trivial
    · exact fun _ => rfl
  exact Ends.mono (hstate.and (onAccess_raises t physSize gpa m)) (fun _ _ h => h.1)
    (fun _ _ h => h.2) fun _ _ _ => trivial

end Ept

namespace Session

open Hypervisor.Action

variable {reason : ExitReason} {s : Session}

theorem handleViolation_frames (access : Violation) (address : Option Gpa) :
    Frames (.fromGuest (.eptViolation access address)) s
      (handleViolation (.fromGuest (.eptViolation access address)) address) := by
  rw [Frames, handleViolation, ends_bind, ends_orFail]
  cases address with
  | none => exact frames_fail (s := s)
  | some gpa =>
      simp only [ends_bind, ends_get, onPlatform, onHost, Host.onPlatform, Platform.backAccess,
        Platform.onMemory, ends_onPart]
      refine Ends.mono (Ept.onAccess_unhandled _ _ gpa _) ?_ ?_ fun _ _ h => h
      · intro r m hm
        cases r with
        | handled => exact fun _ => ⟨(Masked.refl _ s).congr rfl rfl, .backed _ _, rfl⟩
        | unhandled =>
            obtain rfl := hm rfl
            rintro - r hr
            cases hr
            exact ⟨rfl, rfl⟩
      · rintro e m he - r rfl
        exact (he.handled r rfl).elim

theorem dispatch_frames (hon : s.Current) (reason : ExitReason) : Frames reason s (dispatch reason) := by
  unfold dispatch
  split
  · exact handleExternalInterrupt_frames hon _
  · exact handleInterruptWindow_frames hon
  · exact handleRdmsr_frames hon
  · exact handleWrmsr_frames hon
  · exact handleViolation_frames _ _
  · exact handlePortAccess_frames hon _
  · exact handleCpuid_frames hon
  · exact handleHypercall_frames hon
  · exact fun h => by cases h
  · exact frames_fail

/-- Every exit is handled as the guest expects it.  It goes on where it was, or once behind its
instruction with the results in its registers; of its control block only what interrupts are
forwarded with has changed, or the mode of the guest; of its devices only the one that is concerned.
If the exit is not accepted, nothing but the log has changed. -/
theorem dispatch_frame (hon : s.Current) (reason : ExitReason) :
    (dispatch reason).Ends s (fun r t => r = .continued → Framed reason s t)
      (fun e t => s.host.cpu.processor.faults = [] → ∀ r, e = .unhandledExit r →
        r = reason ∧ t = { s with host := { s.host with log := t.host.log } })
      fun _ _ => True :=
  dispatch_frames hon reason

/-- A guest that asks for the features of the processor is told them, and goes on behind CPUID. -/
theorem dispatch_frame_cpuid : ∃ t,
    (dispatch (.fromGuest (.code .cpuid))).run HandledExit.sample = .ok .continued t ∧
      Framed (.fromGuest (.code .cpuid)) HandledExit.sample t := by
  have hhandled : (dispatch (.fromGuest (.code .cpuid))).Ends HandledExit.sample
      (fun r _ => r = .continued) (fun _ _ => False) fun _ _ => False := by decide +kernel
  have hcurrent : HandledExit.sample.Current := by decide +kernel
  obtain ⟨_, t, hrun, rfl⟩ := hhandled.exists_ok
  exact ⟨t, hrun, (dispatch_frame hcurrent _).ok hrun rfl⟩

end Session

end Hypervisor
