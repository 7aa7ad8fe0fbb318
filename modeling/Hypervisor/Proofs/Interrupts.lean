import Hypervisor.Proofs.Entry

/-!
# Interrupts reach the guest once

The word of an external interrupt is put into the control block of the guest at once, or when the guest
stops for the interrupt window.  One word can wait for the window: as long as no interrupt arrives while
one waits, the words are put into the block once each and in the order in which they arrived.
-/

namespace Hypervisor

namespace ProcBased

theorem withWindow_true_and (controls : UInt64) :
    withWindow true controls &&& interruptWindowExiting.bits = interruptWindowExiting.bits := by
  rw [withWindow, if_pos rfl, UInt64.or_comm, UInt64.and_comm, Word.and_or, UInt64.and_self,
    UInt64.and_comm, Word.or_and_absorb]

theorem withWindow_false_and (controls : UInt64) :
    withWindow false controls &&& interruptWindowExiting.bits = 0 := by
  rw [withWindow, if_neg Bool.false_ne_true, UInt64.and_assoc, UInt64.not_and_self,
    UInt64.and_zero]

end ProcBased

def ExitReason.interrupts : ExitReason → List UInt32
  | .fromGuest (.externalInterrupt info) => [info.raw]
  | _ => []

theorem ExitReason.interrupts_eq_nil {reason : ExitReason}
    (h : ∀ info, reason ≠ .fromGuest (.externalInterrupt info)) : reason.interrupts = [] := by
  unfold interrupts
  split
  · exact absurd rfl (h _)
  · rfl

namespace Session

open Hypervisor.Action

def block (s : Session) : ControlBlock := s.host.blocks.block s.guest.block

/-- The control block of the guest is current in the processor. -/
def Current (s : Session) : Prop := s.host.cpu.processor.current = some s.guest.block

instance (s : Session) : Decidable s.Current := inferInstanceAs (Decidable (_ = _))

/-- The guest is to stop as soon as it accepts interrupts. -/
def AwaitsWindow (s : Session) : Prop :=
  s.block.read .processorBasedVmexecControls &&& ProcBased.interruptWindowExiting.bits ≠ 0

instance (s : Session) : Decidable s.AwaitsWindow := inferInstanceAs (Decidable (_ ≠ _))

def controls (s : Session) : UInt64 := s.block.read .processorBasedVmexecControls

theorem awaitsWindow_iff (s : Session) :
    s.AwaitsWindow ↔ s.controls &&& ProcBased.interruptWindowExiting.bits ≠ 0 := Iff.rfl

/-- The guest accepts interrupts. -/
def AcceptsInterrupts (s : Session) : Prop :=
  s.block.read .guestRflags &&& Rflags.interrupts.bits ≠ 0

instance (s : Session) : Decidable s.AcceptsInterrupts := inferInstanceAs (Decidable (_ ≠ _))

/-- The word that the next entry injects. -/
def entryInfo (s : Session) : UInt64 := s.block.read .vmentryInterruptionInfo

/-- The words that wait for the guest to accept interrupts. -/
def waiting (s : Session) : List UInt32 := if s.AwaitsWindow then [s.guest.hostVector] else []

/-- The words that were put into the control block of the guest between two states. -/
def injected (s t : Session) : List UInt32 :=
  if t.entryInfo = s.entryInfo then [] else [t.entryInfo.toUInt32]

variable {s₀ s t u : Session} {fs : List Field}

theorem waiting_eq (h : s.AwaitsWindow) : s.waiting = [s.guest.hostVector] := if_pos h

theorem waiting_eq_nil (h : ¬ s.AwaitsWindow) : s.waiting = [] := if_neg h

theorem eq_of_mem_waiting {w : UInt32} (h : w ∈ s.waiting) : w = s.guest.hostVector := by
  rw [waiting] at h
  split at h
  · exact List.mem_singleton.1 h
  · exact absurd h List.not_mem_nil

theorem waiting_congr (hvector : t.guest.hostVector = s.guest.hostVector)
    (hwindow : t.AwaitsWindow ↔ s.AwaitsWindow) : t.waiting = s.waiting := by
  rw [waiting, waiting, hvector]
  exact if_congr hwindow rfl rfl

theorem injected_of_eq (h : t.entryInfo = s.entryInfo) : injected s t = [] := if_pos h

theorem injected_word {w : UInt32} (h : t.entryInfo = w.toUInt64) (hne : s.entryInfo ≠ w.toUInt64) :
    injected s t = [w] := by
  have hput : t.entryInfo ≠ s.entryInfo := by
    rw [h]
    exact Ne.symm hne
  rw [injected, if_neg hput, h, UInt32.toUInt32_toUInt64]

/-- The guest is on the cpu, its last interrupt is the same, and so are some fields of its block.
Nothing was added to the script. -/
structure Keeps (fs : List Field) (s₀ s : Session) : Prop where
  same : s₀.guest.Same s.guest
  vector : s.guest.hostVector = s₀.guest.hostVector
  current : s.host.cpu.processor.current = some s₀.guest.block
  script : s.host.cpu.processor.script ⊆ s₀.host.cpu.processor.script
  fields : ∀ f ∈ fs,
    (s.host.blocks.block s₀.guest.block).read f = s₀.block.read f

namespace Keeps

theorem refl (h : s.Current) : Keeps fs s s := ⟨.refl _, rfl, h, List.Subset.refl _, fun _ _ => rfl⟩

theorem block (h : Keeps fs s₀ s) {f : Field} (hf : f ∈ fs) : s.block.read f = s₀.block.read f := by
  rw [Session.block, h.same.block]
  exact h.fields f hf

theorem withBlock {p : Hpa} {f : ControlBlock → ControlBlock} (h : Keeps fs s₀ s)
    (hp : s.host.cpu.processor.current = some p)
    (hread : ∀ b, ∀ g ∈ fs, (f b).read g = b.read g) : Keeps fs s₀ (s.withBlock p f) := by
  obtain rfl : p = s₀.guest.block := Option.some.inj (hp.symm.trans h.current)
  refine ⟨h.same, h.vector, h.current, h.script, fun g hg => ?_⟩
  show ((s.host.blocks.update s₀.guest.block f).block s₀.guest.block).read g = _
  rw [ControlBlocks.block_update, hread _ g hg]
  exact h.fields g hg

end Keeps

theorem keeps_memory {α : Type} (x : MemoryM VmError α) :
    (onMemory x).Upholds (Keeps fs s₀) fun _ _ => True :=
  onMemory_upholds (fun _ _ h => ⟨h.same, h.vector, h.current, h.script, h.fields⟩) fun _ _ _ => trivial

theorem keeps_placid (s₀ : Session) : Placid s₀.guest (Keeps fs s₀) fun _ _ => True where
  same := Keeps.same
  host := fun s =>
    { overflow := fun _ _ _ => trivial
      log := fun _ h => ⟨h.same, h.vector, h.current, h.script, h.fields⟩
      kernel := fun _ h => ⟨h.same, h.vector, h.current, h.script, h.fields⟩
      spent := fun _ _ h => ⟨h.same, h.vector, h.current, h.script, h.fields⟩ }
  skip := fun _ _ _ => trivial
  context := fun _ h => ⟨h.same, h.vector, h.current, h.script, h.fields⟩
  rtc := fun _ h => ⟨h.same.trans ⟨rfl, rfl, rfl, rfl, rfl, rfl⟩, h.vector, h.current, h.script,
    h.fields⟩
  resolve := fun _ => keeps_memory _
  fault := fun _ => keeps_memory _
  readMsrs := keeps_memory _
  memoryMap := giveMemoryMap_upholds (fun _ _ => keeps_memory _) (fun _ _ _ => keeps_memory _)
    (fun _ _ => keeps_memory _) fun _ h => ⟨h.same, h.vector, h.current, h.script, h.fields⟩

theorem keeps_steady (s₀ : Session) (hfs : Field.vmentryControls ∉ fs) :
    Steady s₀.guest (Keeps fs s₀) fun _ _ => True where
  toPlacid := keeps_placid s₀
  mode := fun w hp h => h.withBlock hp fun b _ hg =>
    ControlBlock.read_write_of_ne b w fun heq => hfs (heq ▸ hg)
  writeMsrs := fun _ => keeps_memory _

theorem setWindowExiting_ends {on : Bool} (hon : s.Current) {Q : Unit → Session → Prop}
    {E : VmError → Session → Prop} {F : Panic → Session → Prop}
    (hQ : ∀ h, s.host.Revises s.guest.block h →
      h.blocks.block s.guest.block = s.block.write .processorBasedVmexecControls
        (ProcBased.withWindow on (s.block.read .processorBasedVmexecControls)) →
      Q () { s with host := h })
    (hE : s.host.cpu.processor.faults ≠ [] → ∀ e t, E e t) :
    (setWindowExiting on).Ends s Q E F := by
  rw [setWindowExiting, onHost, ends_onPart, ends_bind]
  refine Host.vmread_ends (fun p hp => ?_) (fun hnone => ?_) fun x hx =>
    hE (List.ne_nil_of_mem hx) x.error _
  · obtain rfl : p = s.guest.block := Option.some.inj (hp.symm.trans hon)
    have hspent := Host.Revises.spent s.host s.guest.block .vmread
      (some .processorBasedVmexecControls)
    refine Host.vmwrite_revises hon (fun h hr hblock => ?_) fun e h _ _ hf => hE ?_ e _
    · exact hQ h (hspent.trans hr) hblock
    · exact fun h0 => hf (hspent.faultless h0)
  · exact absurd (hon.symm.trans hnone) (Option.some_ne_none _)

/-- What an external interrupt makes of a session: its word is put into the block, or it waits. -/
structure Forwarded (w : UInt32) (s t : Session) : Prop where
  vector : t.guest.hostVector = w
  word : t.entryInfo = w.toUInt64 ∧ (t.AwaitsWindow ↔ s.AwaitsWindow) ∨
    t.entryInfo = s.entryInfo ∧ t.AwaitsWindow

/-- What an interrupt window makes of a session: the last word is put into the block. -/
structure Delivered (s t : Session) : Prop where
  word : t.entryInfo = s.guest.hostVector.toUInt64
  closed : ¬ t.AwaitsWindow

structure Interrupted (w : UInt32) (s t : Session) : Prop where
  guest : t.guest = { s.guest with hostVector := w }
  accepted : s.AcceptsInterrupts → t.entryInfo = w.toUInt64 ∧ t.controls = s.controls
  withheld : ¬ s.AcceptsInterrupts →
    t.entryInfo = s.entryInfo ∧ t.controls = ProcBased.withWindow true s.controls

structure Opened (s t : Session) : Prop where
  guest : t.guest = s.guest
  word : t.entryInfo = s.guest.hostVector.toUInt64
  controls : t.controls = ProcBased.withWindow false s.controls

theorem awaitsWindow_withWindow {on : Bool} {w : UInt64}
    (h : t.controls = ProcBased.withWindow on w) : t.AwaitsWindow ↔ on = true := by
  rw [awaitsWindow_iff, h]
  cases on with
  | true =>
      rw [ProcBased.withWindow_true_and]
      exact ⟨fun _ => rfl, fun _ => by decide⟩
  | false =>
      rw [ProcBased.withWindow_false_and]
      exact ⟨fun hne => absurd rfl hne, nofun⟩

theorem Interrupted.forwarded {w : UInt32} (h : Interrupted w s t) : Forwarded w s t := by
  refine ⟨by rw [h.guest], ?_⟩
  by_cases haccepts : s.AcceptsInterrupts
  · obtain ⟨hput, hcontrols⟩ := h.accepted haccepts
    refine .inl ⟨hput, ?_⟩
    rw [awaitsWindow_iff, hcontrols, awaitsWindow_iff]
  · obtain ⟨hleft, hcontrols⟩ := h.withheld haccepts
    exact .inr ⟨hleft, (awaitsWindow_withWindow hcontrols).2 rfl⟩

theorem Opened.delivered (h : Opened s t) : Delivered s t :=
  ⟨h.word, fun hopen => Bool.false_ne_true ((awaitsWindow_withWindow h.controls).1 hopen)⟩

theorem truncate_contains_interrupts (w : UInt64) :
    (Flags.truncate w : Rflags).contains Rflags.interrupts = true ↔ w &&& Rflags.interrupts.bits ≠ 0 := by
  have hknown : rflagsFlags.known &&& Rflags.interrupts.bits = Rflags.interrupts.bits := by decide
  rw [Flags.contains, Flags.truncate, UInt64.and_assoc, hknown, beq_iff_eq]
  exact Word.and_bit_eq_self_iff w (k := 9) rfl

theorem handleExternalInterrupt_interrupts (hon : s.Current) (info : InterruptInfo) :
    (handleExternalInterrupt info).Ends s (fun r t => r = .continued ∧ Interrupted info.raw s t)
      (fun _ _ => s.host.cpu.processor.faults ≠ []) fun _ _ => False := by
  simp only [handleExternalInterrupt, onHost, onGuest, Host.say, Host.onPlatform, Platform.say,
    ends_bind, ends_onPart, ends_modify]
  have hspent := Host.Revises.spent s.host s.guest.block .vmread (some .guestRflags)
  refine Host.vmread_ends (fun p hp => ?_) (fun hnone => ?_) fun _ hx => List.ne_nil_of_mem hx
  · obtain rfl : p = s.guest.block := Option.some.inj (hp.symm.trans hon)
    have haccepts := truncate_contains_interrupts (s.block.read .guestRflags)
    rw [ends_ite]
    split
    · rename_i hcontains
      simp only [ends_bind, ends_onPart, ends_pure]
      refine Host.vmwrite_revises hon (fun h _ hblock => ⟨trivial, rfl, fun _ => ⟨?_, ?_⟩, fun hnot => ?_⟩)
        fun _ _ _ _ hf h0 => hf (hspent.faultless h0)
      · show (h.blocks.block s.guest.block).read _ = _
        rw [hblock, ControlBlock.read_write]
      · show (h.blocks.block s.guest.block).read _ = _
        rw [hblock, ControlBlock.read_write_of_ne _ _ (by decide)]
        rfl
      · exact absurd (haccepts.1 hcontains) hnot
    · rename_i hcontains
      rw [ends_bind]
      refine setWindowExiting_ends (by exact hon)
        (fun h _ hblock => ⟨rfl, rfl, fun haccept => ?_, fun _ => ⟨?_, ?_⟩⟩)
        fun hf _ _ h0 => hf (hspent.faultless h0)
      · exact absurd (haccepts.2 haccept) hcontains
      · show (h.blocks.block s.guest.block).read _ = _
        rw [hblock, ControlBlock.read_write_of_ne _ _ (by decide)]
        rfl
      · show (h.blocks.block s.guest.block).read _ = _
        rw [hblock, ControlBlock.read_write]
        rfl
  · exact absurd (hon.symm.trans hnone) (Option.some_ne_none _)

theorem handleExternalInterrupt_ends (hon : s.Current) (info : InterruptInfo) :
    (handleExternalInterrupt info).Ends s (fun r t => r = .continued ∧ Forwarded info.raw s t)
      (fun _ _ => s.host.cpu.processor.faults ≠ []) fun _ _ => False :=
  Ends.mono (handleExternalInterrupt_interrupts hon info) (fun _ _ h => ⟨h.1, h.2.forwarded⟩)
    (fun _ _ h => h) fun _ _ h => h

theorem handleInterruptWindow_opens (hon : s.Current) :
    handleInterruptWindow.Ends s (fun r t => r = .continued ∧ Opened s t)
      (fun _ _ => s.host.cpu.processor.faults ≠ []) fun _ _ => False := by
  rw [handleInterruptWindow, ends_bind]
  refine setWindowExiting_ends hon (fun h hr hblock => ?_) fun hf _ _ => hf
  have hcontrols : (h.blocks.block s.guest.block).read .processorBasedVmexecControls =
      ProcBased.withWindow false s.controls := by
    rw [hblock, ControlBlock.read_write, controls]
  simp only [ends_bind, ends_get, onHost, ends_onPart, ends_pure]
  refine Host.vmwrite_revises (hr.current.trans hon) (fun h' _ hblock' => ⟨trivial, rfl, ?_, ?_⟩)
    fun _ _ _ _ hf h0 => hf (hr.faultless h0)
  · show (h'.blocks.block s.guest.block).read _ = _
    rw [hblock', ControlBlock.read_write]
  · show (h'.blocks.block s.guest.block).read _ = _
    rw [hblock', ControlBlock.read_write_of_ne _ _ (by decide), hcontrols]

theorem handleInterruptWindow_ends (hon : s.Current) :
    handleInterruptWindow.Ends s (fun r t => r = .continued ∧ Delivered s t)
      (fun _ _ => s.host.cpu.processor.faults ≠ []) fun _ _ => False :=
  Ends.mono (handleInterruptWindow_opens hon) (fun _ _ h => ⟨h.1, h.2.delivered⟩)
    (fun _ _ h => h) fun _ _ h => h

/-- Another exit puts no word into the block, and what waits stays. -/
theorem dispatch_keeps {reason : ExitReason} (hon : s.Current)
    (hexternal : ∀ info, reason ≠ .fromGuest (.externalInterrupt info))
    (hwindow : reason ≠ .fromGuest (.code .interruptWindow)) :
    (dispatch reason).Ends s
      (fun _ t => Keeps [.processorBasedVmexecControls, .vmentryInterruptionInfo] s t)
      (fun _ _ => True) fun _ _ => True := by
  have hsteady : Steady s.guest (Keeps [.processorBasedVmexecControls, .vmentryInterruptionInfo] s)
      fun _ _ => True := keeps_steady s (by decide)
  exact Ends.mono (hsteady.dispatch hexternal hwindow s (.refl hon)) (fun _ _ h => h)
    (fun _ _ _ => trivial) fun _ _ _ => trivial

/-- Between two exits of a guest its controls and its last interrupt stay.  The word that was to be
injected may be gone, and anything else may have happened. -/
structure Resumes (s t : Session) : Prop where
  guest : s.guest.Same t.guest
  vector : t.guest.hostVector = s.guest.hostVector
  window : t.AwaitsWindow ↔ s.AwaitsWindow

/-- Between two exits of a guest its controls and its last interrupt stay; anything else may have
happened. -/
structure Carries (s t : Session) : Prop where
  guest : s.guest.Same t.guest
  vector : t.guest.hostVector = s.guest.hostVector
  controls : t.controls = s.controls

theorem Keeps.carries (h : Keeps fs s t) (hfs : .processorBasedVmexecControls ∈ fs) :
    s.Carries t :=
  ⟨h.same, h.vector, h.block hfs⟩

theorem Carries.resumes (h : s.Carries t) : s.Resumes t := by
  refine ⟨h.guest, h.vector, ?_⟩
  rw [awaitsWindow_iff, h.controls, awaitsWindow_iff]

theorem Keeps.resumes (h : Keeps fs s t) (hfs : .processorBasedVmexecControls ∈ fs) :
    s.Resumes t :=
  (h.carries hfs).resumes

theorem Resumes.waiting (h : Resumes s t) : t.waiting = s.waiting :=
  waiting_congr h.vector h.window

end Session

/-- An exit, with the session before and after its handler. -/
structure HandledExit where
  reason : ExitReason
  before : Session
  after : Session

namespace HandledExit

open Hypervisor.Action Session

/-- The handler went well.  A guest stops for the interrupt window only if it is told to. -/
structure Valid (x : HandledExit) : Prop where
  current : x.before.Current
  handled : ∃ r, (dispatch x.reason).run x.before = .ok r x.after
  window : x.reason = .fromGuest (.code .interruptWindow) → x.before.AwaitsWindow

/-- The words of the interrupts that the exit reports. -/
def reported (x : HandledExit) : List UInt32 := x.reason.interrupts

/-- The words that the handler puts into the control block of the guest. -/
def injected (x : HandledExit) : List UInt32 := Session.injected x.before x.after

/-- The entry before the exit has consumed the word that was to be injected: what is left is none
of the words in question. -/
def Consumed (x : HandledExit) (words : List UInt32) : Prop :=
  ∀ w ∈ words, x.before.entryInfo ≠ w.toUInt64

instance (x : HandledExit) (words : List UInt32) : Decidable (x.Consumed words) :=
  List.decidableBAll _ words

theorem Consumed.mono {x : HandledExit} {ws ws' : List UInt32} (h : x.Consumed ws)
    (hsub : ∀ w ∈ ws', w ∈ ws) : x.Consumed ws' :=
  fun w hw => h w (hsub w hw)

/-- What waits before an exit and what it reports is injected or waits after it, unless the exit
reports an interrupt while another one waits. -/
theorem Valid.balance {x : HandledExit} (h : x.Valid)
    (hfree : x.reported ≠ [] → ¬ x.before.AwaitsWindow)
    (hconsumed : x.Consumed (x.before.waiting ++ x.reported)) :
    x.before.waiting ++ x.reported = x.injected ++ x.after.waiting := by
  obtain ⟨reason, s, t⟩ := x
  obtain ⟨hon, ⟨r, hrun⟩, hopen⟩ := h
  dsimp only at hon hrun hopen
  by_cases hexternal : ∃ info, reason = .fromGuest (.externalInterrupt info)
  · obtain ⟨info, rfl⟩ := hexternal
    obtain ⟨-, hvector, hword⟩ := (handleExternalInterrupt_ends hon info).ok hrun
    have hclosed : ¬ s.AwaitsWindow := hfree (List.cons_ne_nil _ _)
    show s.waiting ++ [info.raw] = Session.injected s t ++ t.waiting
    rcases hword with ⟨hput, hwindow⟩ | ⟨hleft, hwaits⟩
    · have hne : s.entryInfo ≠ info.raw.toUInt64 :=
        hconsumed _ (List.mem_append_right _ List.mem_cons_self)
      rw [waiting_eq_nil hclosed, waiting_eq_nil fun h => hclosed (hwindow.1 h),
        injected_word hput hne]
      rfl
    · rw [waiting_eq_nil hclosed, waiting_eq hwaits, injected_of_eq hleft, hvector]
  · by_cases hwindow : reason = .fromGuest (.code .interruptWindow)
    · subst hwindow
      obtain ⟨-, hput, hclosed⟩ := (handleInterruptWindow_ends hon).ok hrun
      show s.waiting ++ [] = Session.injected s t ++ t.waiting
      have hwaits := waiting_eq (hopen rfl)
      have hne : s.entryInfo ≠ s.guest.hostVector.toUInt64 := by
        refine hconsumed _ (List.mem_append_left _ ?_)
        rw [hwaits]
        exact List.mem_cons_self
      rw [hwaits, waiting_eq_nil hclosed, injected_word hput hne]
    · have hkeeps := (dispatch_keeps hon (fun info h => hexternal ⟨info, h⟩) hwindow).ok hrun
      have hnone : reason.interrupts = [] :=
        ExitReason.interrupts_eq_nil fun info h => hexternal ⟨info, h⟩
      show s.waiting ++ reason.interrupts = Session.injected s t ++ t.waiting
      rw [hnone, (hkeeps.resumes (by decide)).waiting, injected_of_eq (hkeeps.block (by decide)),
        List.append_nil, List.nil_append]

/-- The exits are handled one after the other, from `s` to `t`. -/
inductive Sequence : Session → List HandledExit → Session → Prop where
  | done {s} : Sequence s [] s
  | exit {s t x xs} : s.Resumes x.before → x.Valid → Sequence x.after xs t → Sequence s (x :: xs) t

/-- As long as no interrupt arrives while one waits, every word that is reported is put into the
control block once and in turn, but for one that still waits, and the next interrupt window puts
that one into the block. -/
theorem interrupts_injected_once {s t : Session} {exits : List HandledExit}
    (h : Sequence s exits t)
    (hfree : ∀ x ∈ exits, x.reported ≠ [] → ¬ x.before.AwaitsWindow)
    (hconsumed : ∀ x ∈ exits, x.Consumed (s.waiting ++ exits.flatMap reported)) :
    s.waiting ++ exits.flatMap reported = exits.flatMap injected ++ t.waiting ∧
      ∀ w ∈ t.waiting, ∀ u, t.Resumes u → u.Current →
        (dispatch (.fromGuest (.code .interruptWindow))).Ends u
          (fun r v => r = .continued ∧ v.entryInfo = w.toUInt64 ∧ v.waiting = [])
          (fun _ _ => u.host.cpu.processor.faults ≠ []) fun _ _ => False := by
  refine ⟨?_, ?_⟩
  · induction h with
    | done => exact (List.append_nil _)
    | @exit s t x xs hresumes hx _ ih =>
        have hbalance := hx.balance (hfree x List.mem_cons_self)
          ((hconsumed x List.mem_cons_self).mono fun w hw => ?_)
        · have htail := ih (fun y hy => hfree y (List.mem_cons_of_mem x hy)) fun y hy =>
            (hconsumed y (List.mem_cons_of_mem x hy)).mono fun w hw => ?_
          · calc s.waiting ++ (x :: xs).flatMap reported
                = (x.before.waiting ++ x.reported) ++ xs.flatMap reported := by
                    rw [hresumes.waiting, List.append_assoc, List.flatMap_cons]
              _ = x.injected ++ (x.after.waiting ++ xs.flatMap reported) := by
                    rw [hbalance, List.append_assoc]
              _ = (x :: xs).flatMap injected ++ t.waiting := by
                    rw [htail, ← List.append_assoc, List.flatMap_cons]
          · have hleft : w ∈ x.after.waiting → w ∈ x.before.waiting ++ x.reported := by
              rw [hbalance]
              exact List.mem_append_right _
            rw [hresumes.waiting] at hleft
            simp only [List.mem_append, List.flatMap_cons] at hw hleft ⊢
            tauto
        · rw [hresumes.waiting] at hw
          simp only [List.mem_append, List.flatMap_cons] at hw ⊢
          tauto
  · intro w hw u hresumes hon
    refine Ends.mono (handleInterruptWindow_ends hon) ?_ (fun _ _ h => h) fun _ _ h => h
    rintro r v ⟨hr, hput, hclosed⟩
    refine ⟨hr, ?_, waiting_eq_nil hclosed⟩
    rw [hput, hresumes.vector, eq_of_mem_waiting hw]

def of (reason : ExitReason) (s : Session) : HandledExit where
  reason := reason
  before := s
  after := match (dispatch reason).run s with
    | .ok _ t => t
    | .error _ t => t

theorem valid_of {reason : ExitReason} {s : Session} (hcurrent : s.Current)
    (h : (dispatch reason).Ends s (fun _ _ => True) (fun _ _ => False) fun _ _ => False)
    (hwindow : reason = .fromGuest (.code .interruptWindow) → s.AwaitsWindow) :
    (of reason s).Valid := by
  obtain ⟨r, t, hrun, -⟩ := h.exists_ok
  exact ⟨hcurrent, ⟨r, by simp only [of, hrun]⟩, hwindow⟩

def goneOn (s : Session) (rflags : UInt64) : Session :=
  s.withBlock s.guest.block fun b => (b.write .vmentryInterruptionInfo 0).write .guestRflags rflags

theorem carries_goneOn (s : Session) (rflags : UInt64) : s.Carries (goneOn s rflags) := by
  have hblock : (goneOn s rflags).block =
      (s.block.write .vmentryInterruptionInfo 0).write .guestRflags rflags :=
    ControlBlocks.block_update _ _ _
  refine ⟨.refl _, rfl, ?_⟩
  rw [controls, hblock, ControlBlock.read_write_of_ne _ _ (by decide),
    ControlBlock.read_write_of_ne _ _ (by decide), controls]

theorem resumes_goneOn (s : Session) (rflags : UInt64) : s.Resumes (goneOn s rflags) :=
  (carries_goneOn s rflags).resumes

def sample : Session where
  host := { cpu := { id := 0, processor := { Processor.fresh with current := some ⟨0x1001000⟩ } } }
  guest :=
    { table := ⟨some ⟨0x1000000⟩⟩, block := ⟨0x1001000⟩, msrPage := ⟨0x1002000⟩
      ioBitmapA := ⟨0x1003000⟩, ioBitmapB := ⟨0x1004000⟩, exceptionBitmap := 0
      physSize := 0x1000000 }
  context := {}

/-- Exits of the guest: an interrupt that it does not accept yet, another exit, the interrupt window,
and an interrupt that it accepts. -/
def trial : List HandledExit :=
  let first := of (.fromGuest (.externalInterrupt ⟨0x80000020⟩)) (goneOn sample 0x2)
  let second := of (.fromGuest (.code .cpuid)) (goneOn first.after 0x2)
  let third := of (.fromGuest (.code .interruptWindow)) (goneOn second.after 0x202)
  let fourth := of (.fromGuest (.externalInterrupt ⟨0x80000021⟩)) (goneOn third.after 0x202)
  [first, second, third, fourth]

theorem interrupts_injected_once_trial : ∃ t, Sequence sample trial t ∧
    trial.flatMap injected = [0x80000020, 0x80000021] := by
  have hsequence : Sequence sample trial _ :=
    .exit (resumes_goneOn _ _) (valid_of (by decide +kernel) (by decide +kernel) nofun) <|
    .exit (resumes_goneOn _ _) (valid_of (by decide +kernel) (by decide +kernel) nofun) <|
    .exit (resumes_goneOn _ _)
      (valid_of (by decide +kernel) (by decide +kernel) fun _ => by decide +kernel) <|
    .exit (resumes_goneOn _ _) (valid_of (by decide +kernel) (by decide +kernel) nofun) .done
  have hbalance := (interrupts_injected_once hsequence (by decide +kernel) (by decide +kernel)).1
  rw [waiting_eq_nil (by decide +kernel), waiting_eq_nil (by decide +kernel), List.append_nil] at hbalance
  exact ⟨_, hsequence, hbalance.symm⟩

end HandledExit

end Hypervisor
