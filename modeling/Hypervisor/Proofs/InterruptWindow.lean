import Hypervisor.Proofs.Arrival
import Hypervisor.Proofs.Exit.Frame
import Hypervisor.Proofs.Vmcs.Controls

/-!
# When a guest stops for the interrupt window

Of the primary controls that a guest was configured with, only the bit for the interrupt window ever
changes.  It is set as long as an interrupt waits that the guest did not accept when it arrived.  The
word that an interrupt window puts into the control block is that of the last interrupt.
-/

namespace Hypervisor

namespace ProcBased

theorem withWindow_withWindow (on on' : Bool) (w : UInt64) :
    withWindow on (withWindow on' w) = withWindow on w := by
  have hkept := withWindow_and_not on' w
  cases on with
  | true =>
      rw [withWindow, if_pos rfl, Word.or_eq_and_not_or, hkept, ← Word.or_eq_and_not_or, withWindow,
        if_pos rfl]
  | false =>
      rw [withWindow, if_neg Bool.false_ne_true, hkept, withWindow, if_neg Bool.false_ne_true]

theorem withWindow_false_of_clear {w : UInt64} (h : w &&& interruptWindowExiting.bits = 0) :
    withWindow false w = w := by
  rw [withWindow, if_neg Bool.false_ne_true]
  exact Word.and_not_of_and_eq_zero h

end ProcBased

namespace Session

open Hypervisor.Action

variable {s : Session}

/-- The guest can be configured with its window closed. -/
def MayCloseWindow (s : Session) : Prop :=
  s.capabilities.procBased &&& ProcBased.interruptWindowExiting.bits = 0

instance (s : Session) : Decidable s.MayCloseWindow := inferInstanceAs (Decidable (_ = _))

/-- The primary controls that the guest is configured with. -/
def primaryControls (s : Session) : UInt64 :=
  (adjustControls wantedProcBased s.capabilities.procBased).toUInt64

theorem primaryControls_and_window (h : s.MayCloseWindow) :
    s.primaryControls &&& ProcBased.interruptWindowExiting.bits = 0 := by
  have hwanted : wantedProcBased.toUInt64 &&& ProcBased.interruptWindowExiting.bits = 0 := rfl
  have hrequired : s.capabilities.procBased.toUInt32.toUInt64 &&&
      ProcBased.interruptWindowExiting.bits = 0 := by
    rw [← h, ← UInt64.toNat_inj, UInt64.toNat_and, UInt64.toNat_and, UInt32.toNat_toUInt64,
      UInt64.toNat_toUInt32, show ProcBased.interruptWindowExiting.bits.toNat = 2 ^ 2 from rfl,
      Nat.and_two_pow, Nat.and_two_pow, Nat.testBit_mod_two_pow]
    rfl
  rw [primaryControls, adjustControls, UInt32.toUInt64_and, UInt32.toUInt64_or, UInt64.and_assoc,
    UInt64.and_comm (UInt32.toUInt64 _) ProcBased.interruptWindowExiting.bits, ← UInt64.and_assoc,
    Word.or_and, hwanted, hrequired, UInt64.or_zero, UInt64.zero_and]

theorem configureControls_controls (hon : s.Current) :
    configureControls.Ends s
      (fun _ t => t.guest = s.guest ∧ t.controls = s.primaryControls) (fun _ _ => True)
      fun _ _ => False := by
  refine configureControls_revises hon (fun h pointer _ _ _ hblock => ⟨rfl, ?_⟩) fun _ _ _ _ => trivial
  show (h.blocks.block s.guest.block).read _ = _
  rw [hblock]
  exact read_configured_primary _ _ _ _

end Session

/-- An exit that was dispatched, with what its handler returned. -/
structure DispatchedExit extends HandledExit where
  result : Except VmError ExitResult

namespace DispatchedExit

open Hypervisor.Action Session

/-- The handler took the session from before to after, and returned that. -/
structure Ran (x : DispatchedExit) : Prop where
  current : x.before.Current
  dispatched : (attempt (dispatch x.reason) : SessionM (Except VmError ExitResult)).run x.before =
    .ok x.result x.after

def Handled (x : DispatchedExit) : Prop := x.result.isOk

/-- No instruction of the handler was made to fail. -/
def Faultless (x : DispatchedExit) : Prop := x.before.host.cpu.processor.faults = []

def IsWindow (x : DispatchedExit) : Prop := x.reason = .fromGuest (.code .interruptWindow)

/-- The exit reports an interrupt that is to wait, as the guest does not accept it. -/
structure Withheld (x : DispatchedExit) : Prop where
  handled : x.Handled
  interrupt : x.reported ≠ []
  masked : ¬ x.before.AcceptsInterrupts

instance (x : DispatchedExit) : Decidable x.IsWindow := inferInstanceAs (Decidable (_ = _))

instance (x : DispatchedExit) : Decidable x.Handled := inferInstanceAs (Decidable (_ = true))

instance (x : DispatchedExit) : Decidable x.Faultless :=
  decidable_of_iff (x.before.host.cpu.processor.faults.isEmpty = true) List.isEmpty_iff

/-- The exits of a guest, the latest first, that were dispatched from `s` to `t`. -/
inductive History : Session → List DispatchedExit → Session → Prop where
  | none {s} : History s [] s
  | next {s t x xs} : History s xs t → t.Carries x.before → x.Ran → History s (x :: xs) x.after

/-- The exits after the last interrupt window. -/
def sinceWindow (xs : List DispatchedExit) : List DispatchedExit := xs.takeWhile fun x => ¬ x.IsWindow

/-- The word of the last interrupt that the exits report, and zero if there is none. -/
def lastInterrupt (xs : List DispatchedExit) : UInt32 :=
  (xs.flatMap fun x => x.reported).headD 0

section Step

variable {x : DispatchedExit} {xs : List DispatchedExit} {s t : Session} {c : UInt64}

theorem Ran.outcome (h : x.Ran) {Q : ExitResult → Session → Prop} {E : VmError → Session → Prop}
    {F : Panic → Session → Prop} (hends : (dispatch x.reason).Ends x.before Q E F) :
    (∀ r, x.result = .ok r → Q r x.after) ∧ ∀ e, x.result = .error e → E e x.after := by
  have hends' : (attempt (dispatch x.reason) : SessionM (Except VmError ExitResult)).Ends x.before
      (fun r t => (∀ a, r = .ok a → Q a t) ∧ ∀ e, r = .error e → E e t) (fun _ _ => True) F := by
    rw [ends_attempt]
    exact Ends.mono hends (fun a t ht => ⟨by rintro _ ⟨⟩; exact ht, nofun⟩)
      (fun e t ht => ⟨nofun, by rintro _ ⟨⟩; exact ht⟩) fun _ _ h => h
  exact hends'.ok h.dispatched

theorem Ran.handled (h : x.Ran) (hfaults : x.Faultless) {Q : ExitResult → Session → Prop}
    {F : Panic → Session → Prop} (hends : (dispatch x.reason).Ends x.before Q
      (fun _ _ => x.before.host.cpu.processor.faults ≠ []) F) :
    x.Handled ∧ ∃ r, Q r x.after := by
  obtain ⟨hok, herror⟩ := h.outcome hends
  cases hresult : x.result with
  | ok r => exact ⟨by rw [Handled, hresult]; rfl, r, hok r hresult⟩
  | error e => exact absurd hfaults (herror e hresult)

/-- An interrupt that the guest does not accept makes it stop for the window. -/
theorem Ran.external (h : x.Ran) (hfaults : x.Faultless) {info : InterruptInfo}
    (hreason : x.reason = .fromGuest (.externalInterrupt info)) :
    x.Handled ∧ x.after.guest.hostVector = info.raw ∧
      (x.Withheld → x.after.controls = ProcBased.withWindow true x.before.controls) ∧
      (¬ x.Withheld → x.after.controls = x.before.controls) ∧
      (x.before.AcceptsInterrupts → x.after.entryInfo = info.raw.toUInt64) := by
  have hends := handleExternalInterrupt_interrupts h.current info
  obtain ⟨hhandled, r, -, hx⟩ := h.handled hfaults (by rw [hreason]; exact hends)
  have hreported : x.reported ≠ [] := by
    rw [HandledExit.reported, hreason]
    exact List.cons_ne_nil _ _
  refine ⟨hhandled, by rw [hx.guest], fun hw => (hx.withheld hw.masked).2, fun hw => ?_,
    fun haccepts => (hx.accepted haccepts).1⟩
  have haccepts : x.before.AcceptsInterrupts :=
    by_contra fun hmasked => hw ⟨hhandled, hreported, hmasked⟩
  exact (hx.accepted haccepts).2

/-- The window closes when the guest stops for it, and the last interrupt is put into the block. -/
theorem Ran.window (h : x.Ran) (hfaults : x.Faultless) (hreason : x.IsWindow) :
    x.Handled ∧ x.after.guest.hostVector = x.before.guest.hostVector ∧
      x.after.entryInfo = x.before.guest.hostVector.toUInt64 ∧
      x.after.controls = ProcBased.withWindow false x.before.controls := by
  have hends := handleInterruptWindow_opens h.current
  obtain ⟨hhandled, r, -, hx⟩ := h.handled hfaults (by rw [show x.reason = _ from hreason]; exact hends)
  exact ⟨hhandled, by rw [hx.guest], hx.word, hx.controls⟩

theorem Ran.other (h : x.Ran) (hexternal : ∀ info, x.reason ≠ .fromGuest (.externalInterrupt info))
    (hwindow : ¬ x.IsWindow) :
    x.reported = [] ∧ x.after.guest.hostVector = x.before.guest.hostVector ∧
      x.after.controls = x.before.controls := by
  have hkeeps : ∀ t, Keeps [.processorBasedVmexecControls] x.before t →
      t.guest.hostVector = x.before.guest.hostVector ∧ t.controls = x.before.controls :=
    fun t ht => ⟨ht.vector, ht.block List.mem_cons_self⟩
  have hsteady : Steady x.before.guest (Keeps [.processorBasedVmexecControls] x.before)
    fun _ _ => True := keeps_steady x.before (by decide)
  obtain ⟨hok, herror⟩ := h.outcome (hsteady.dispatch hexternal hwindow x.before (.refl h.current))
  refine ⟨ExitReason.interrupts_eq_nil hexternal, ?_⟩
  cases hresult : x.result with
  | ok r => exact hkeeps _ (hok r hresult)
  | error e => exact hkeeps _ (herror e hresult)

theorem Ran.vector (h : x.Ran) (hfaults : x.Faultless)
    (hbefore : x.before.guest.hostVector = lastInterrupt xs) :
    x.after.guest.hostVector = lastInterrupt (x :: xs) := by
  have hnone : x.reported = [] → lastInterrupt (x :: xs) = lastInterrupt xs := by
    intro h
    rw [lastInterrupt, List.flatMap_cons, h, List.nil_append, ← lastInterrupt]
  by_cases hexternal : ∃ info, x.reason = .fromGuest (.externalInterrupt info)
  · obtain ⟨info, hreason⟩ := hexternal
    rw [(h.external hfaults hreason).2.1, lastInterrupt, List.flatMap_cons, HandledExit.reported,
      hreason]
    rfl
  · by_cases hwindow : x.IsWindow
    · have hreported : x.reported = [] := by
        rw [HandledExit.reported, show x.reason = _ from hwindow]
        rfl
      rw [(h.window hfaults hwindow).2.1, hbefore, hnone hreported]
    · obtain ⟨hreported, hvector, -⟩ := h.other (fun info h => hexternal ⟨info, h⟩) hwindow
      rw [hvector, hbefore, hnone hreported]

structure Follows (c : UInt64) (xs : List DispatchedExit) (t : Session) : Prop where
  controls : t.controls = ProcBased.withWindow t.AwaitsWindow c
  waits : t.AwaitsWindow ↔ ∃ x ∈ sinceWindow xs, x.Withheld

theorem Follows.congr (h : Follows c xs s) (hcontrols : t.controls = s.controls) :
    Follows c xs t := by
  have hwindow : t.AwaitsWindow ↔ s.AwaitsWindow := by
    rw [awaitsWindow_iff, hcontrols, awaitsWindow_iff]
  refine ⟨?_, hwindow.trans h.waits⟩
  rw [hcontrols, h.controls]
  exact congrArg (ProcBased.withWindow · c) (decide_eq_decide.2 hwindow.symm)

theorem controls_eq_withWindow {on : Bool} (h : t.controls = ProcBased.withWindow on c) :
    t.controls = ProcBased.withWindow t.AwaitsWindow c := by
  have hon : decide t.AwaitsWindow = on := by
    rw [Bool.eq_iff_iff, decide_eq_true_eq]
    exact awaitsWindow_withWindow h
  rw [hon, h]

theorem sinceWindow_cons (hx : ¬ x.IsWindow) : sinceWindow (x :: xs) = x :: sinceWindow xs :=
  List.takeWhile_cons_of_pos (decide_eq_true hx)

theorem sinceWindow_cons_window (hx : x.IsWindow) : sinceWindow (x :: xs) = [] :=
  List.takeWhile_cons_of_neg fun h => of_decide_eq_true h hx

theorem Follows.pass (h : Follows c xs s) (hwindow : ¬ x.IsWindow) (hwithheld : ¬ x.Withheld)
    (hcontrols : t.controls = s.controls) : Follows c (x :: xs) t := by
  obtain ⟨htcontrols, hwaits⟩ := h.congr hcontrols
  refine ⟨htcontrols, hwaits.trans ?_⟩
  rw [sinceWindow_cons hwindow]
  constructor
  · rintro ⟨y, hy, hyw⟩
    exact ⟨y, List.mem_cons_of_mem x hy, hyw⟩
  · rintro ⟨y, hy, hyw⟩
    rcases List.mem_cons.1 hy with rfl | hy
    · exact absurd hyw hwithheld
    · exact ⟨y, hy, hyw⟩

theorem Follows.close (hwindow : x.IsWindow) (hcontrols : t.controls = ProcBased.withWindow false c) :
    Follows c (x :: xs) t := by
  refine ⟨controls_eq_withWindow hcontrols, iff_of_false (fun ht => ?_) ?_⟩
  · exact Bool.false_ne_true ((awaitsWindow_withWindow hcontrols).1 ht)
  · rw [sinceWindow_cons_window hwindow]
    rintro ⟨y, hy, -⟩
    exact List.not_mem_nil hy

theorem Follows.open (hwithheld : x.Withheld) (hwindow : ¬ x.IsWindow)
    (hcontrols : t.controls = ProcBased.withWindow true c) : Follows c (x :: xs) t := by
  refine ⟨controls_eq_withWindow hcontrols,
    iff_of_true ((awaitsWindow_withWindow hcontrols).2 rfl) ⟨x, ?_, hwithheld⟩⟩
  rw [sinceWindow_cons hwindow]
  exact List.mem_cons_self

theorem Follows.step (h : Follows c xs s) (hcarries : s.Carries x.before) (hran : x.Ran)
    (hfaults : x.Faultless) : Follows c (x :: xs) x.after := by
  have hbefore : Follows c xs x.before := h.congr hcarries.controls
  by_cases hexternal : ∃ info, x.reason = .fromGuest (.externalInterrupt info)
  · obtain ⟨info, hreason⟩ := hexternal
    obtain ⟨-, -, hwithheld, hpassed, -⟩ := hran.external hfaults hreason
    have hwindow : ¬ x.IsWindow := by
      rw [IsWindow, hreason]
      nofun
    by_cases hw : x.Withheld
    · refine Follows.open hw hwindow ?_
      rw [hwithheld hw, hbefore.controls, ProcBased.withWindow_withWindow]
    · exact hbefore.pass hwindow hw (hpassed hw)
  · have hwithheld : ¬ x.Withheld := fun h => h.interrupt <|
      ExitReason.interrupts_eq_nil fun info h => hexternal ⟨info, h⟩
    by_cases hwindow : x.IsWindow
    · refine Follows.close hwindow ?_
      rw [(hran.window hfaults hwindow).2.2.2, hbefore.controls, ProcBased.withWindow_withWindow]
    · obtain ⟨-, -, hcontrols⟩ := hran.other (fun info h => hexternal ⟨info, h⟩) hwindow
      exact hbefore.pass hwindow hwithheld hcontrols

end Step

variable {s₀ s t : Session} {xs : List DispatchedExit} {c : UInt64}

namespace History

theorem follows (h : History s xs t) (hfaults : ∀ x ∈ xs, x.Faultless) (hs : Follows c [] s) :
    Follows c xs t := by
  induction h with
  | none => exact hs
  | @next _ x _ _ hcarries hran ih =>
      exact (ih fun y hy => hfaults y (List.mem_cons_of_mem x hy)).step hcarries hran
        (hfaults x List.mem_cons_self)

theorem vector (h : History s xs t) (hfaults : ∀ x ∈ xs, x.Faultless)
    (hs : s.guest.hostVector = 0) : t.guest.hostVector = lastInterrupt xs := by
  induction h with
  | none => exact hs
  | @next _ x _ _ hcarries hran ih =>
      exact hran.vector (hfaults x List.mem_cons_self) <|
        hcarries.vector.trans (ih fun y hy => hfaults y (List.mem_cons_of_mem x hy))

/-- Each exit was dispatched after those before it. -/
theorem earlier (h : History s xs t) {x : DispatchedExit} {ys : List DispatchedExit}
    (hsuffix : x :: ys <:+ xs) : ∃ u, History s ys u ∧ u.Carries x.before ∧ x.Ran := by
  induction h with
  | none => exact absurd (List.eq_nil_of_suffix_nil hsuffix) (List.cons_ne_nil _ _)
  | next hrest hcarries hran ih =>
      rcases List.suffix_cons_iff.1 hsuffix with heq | hsuffix
      · obtain ⟨rfl, rfl⟩ := List.cons.inj heq
        exact ⟨_, hrest, hcarries, hran⟩
      · exact ih hsuffix

end History

/-- From the configuration of a guest to which no interrupt was reported, the controls of the guest
are those that it was configured with but for the bit for the interrupt window.  While no instruction is
made to fail, that bit is set exactly as long as an interrupt waits that the guest did not accept.  Every
window puts the word of the last interrupt into the block, and an interrupt that the guest accepts its
own. -/
theorem awaits_window_iff_withheld (hconfigured : configureControls.run s₀ = .ok () s)
    (hon : s₀.Current) (hmay : s₀.MayCloseWindow) (hnew : s₀.guest.hostVector = 0)
    (h : History s xs t) (hfaults : ∀ x ∈ xs, x.Faultless) :
    t.controls &&& ~~~ProcBased.interruptWindowExiting.bits = s₀.primaryControls ∧
      (t.AwaitsWindow ↔ ∃ x ∈ sinceWindow xs, x.Withheld) ∧
      (∀ x earlier, x :: earlier <:+ xs → x.IsWindow →
        x.Handled ∧ x.after.entryInfo = (lastInterrupt earlier).toUInt64) ∧
      ∀ x ∈ xs, ∀ info, x.reason = .fromGuest (.externalInterrupt info) →
        x.Handled ∧ (x.before.AcceptsInterrupts → x.after.entryInfo = info.raw.toUInt64) := by
  obtain ⟨hguest, hcontrols⟩ := (configureControls_controls hon).ok hconfigured
  have hclear := primaryControls_and_window hmay
  have hstart : s.guest.hostVector = 0 := by
    rw [hguest, hnew]
  have hclosed : s.controls = ProcBased.withWindow false s₀.primaryControls := by
    rw [hcontrols, ProcBased.withWindow_false_of_clear hclear]
  have hnot : ¬ s.AwaitsWindow := fun hw =>
    Bool.false_ne_true ((awaitsWindow_withWindow hclosed).1 hw)
  have hfollows := h.follows hfaults ⟨controls_eq_withWindow hclosed,
    iff_of_false hnot fun ⟨x, hx, _⟩ => List.not_mem_nil hx⟩
  refine ⟨?_, hfollows.waits, fun x earlier hx hwindow => ?_, fun x hx info hreason => ?_⟩
  · rw [hfollows.controls, ProcBased.withWindow_and_not]
    exact Word.and_not_of_and_eq_zero hclear
  · obtain ⟨u, hu, hcarries, hran⟩ := h.earlier hx
    have hmem : ∀ y ∈ x :: earlier, y.Faultless := fun y hy => hfaults y (hx.subset hy)
    obtain ⟨hhandled, -, hword, -⟩ := hran.window (hmem x List.mem_cons_self) hwindow
    rw [hword, hcarries.vector, hu.vector (fun y hy => hmem y (List.mem_cons_of_mem x hy)) hstart]
    exact ⟨hhandled, rfl⟩
  · obtain ⟨before, after, rfl⟩ := List.append_of_mem hx
    obtain ⟨_, _, _, hran⟩ := h.earlier (List.suffix_append _ _)
    obtain ⟨hhandled, -, -, -, hword⟩ := hran.external (hfaults x hx) hreason
    exact ⟨hhandled, hword⟩

def of (reason : ExitReason) (s : Session) : DispatchedExit where
  reason := reason
  before := s
  after := (dispatch reason).final s
  result := match (dispatch reason).run s with
    | .ok r _ => .ok r
    | .error (.error e) _ => .error e
    | .error (.panic _) _ => .ok .exited

theorem ran_of {reason : ExitReason} {s : Session} (hon : s.Current)
    (h : (dispatch reason).Ends s (fun _ _ => True) (fun _ _ => True) fun _ _ => False) :
    (of reason s).Ran := by
  refine ⟨hon, ?_⟩
  simp only [of, final, run_attempt]
  cases hrun : (dispatch reason).run s with
  | ok r t => rfl
  | error stop t =>
      cases stop with
      | error e => rfl
      | panic p => exact (h.stop hrun).elim

def configured : Session := configureControls.final HandledExit.sample

theorem run_configured : configureControls.run HandledExit.sample = .ok () configured := by
  have hends : configureControls.Ends HandledExit.sample (fun _ _ => True)
      (fun _ _ => False) fun _ _ => False := by decide +kernel
  obtain ⟨_, s, hrun, -⟩ := hends.exists_ok
  rw [configured, final, hrun]

def interrupted : DispatchedExit :=
  of (.fromGuest (.externalInterrupt ⟨0x80000020⟩)) (HandledExit.goneOn configured 0x2)

/-- Exits of the guest, the last one first: two interrupts that it does not accept, with another exit
between them, the interrupt window, and one more interrupt that it does not accept. -/
def trial : List DispatchedExit :=
  let second := of (.fromGuest (.code .cpuid)) (HandledExit.goneOn interrupted.after 0x2)
  let third := of (.fromGuest (.externalInterrupt ⟨0x80000021⟩)) (HandledExit.goneOn second.after 0x2)
  let fourth := of (.fromGuest (.code .interruptWindow)) (HandledExit.goneOn third.after 0x202)
  let fifth := of (.fromGuest (.externalInterrupt ⟨0x80000022⟩)) (HandledExit.goneOn fourth.after 0x2)
  [fifth, fourth, third, second, interrupted]

theorem awaits_window_iff_withheld_trial : ∃ t, History configured trial t ∧
    (∀ x ∈ trial, x.Faultless) ∧ t.AwaitsWindow ∧
    ∃ x ∈ trial, x.IsWindow ∧ x.after.entryInfo = 0x80000021 := by
  have hhistory : History configured trial _ :=
    .next (.next (.next (.next (.next .none
      (HandledExit.carries_goneOn _ _) (ran_of (by decide +kernel) (by decide +kernel)))
      (HandledExit.carries_goneOn _ _) (ran_of (by decide +kernel) (by decide +kernel)))
      (HandledExit.carries_goneOn _ _) (ran_of (by decide +kernel) (by decide +kernel)))
      (HandledExit.carries_goneOn _ _) (ran_of (by decide +kernel) (by decide +kernel)))
      (HandledExit.carries_goneOn _ _) (ran_of (by decide +kernel) (by decide +kernel))
  have hfaults : ∀ x ∈ trial, x.Faultless := by decide +kernel
  obtain ⟨-, hwaits, hwindow, -⟩ := awaits_window_iff_withheld run_configured
    (by decide +kernel) (by decide +kernel) rfl hhistory hfaults
  refine ⟨_, hhistory, hfaults, hwaits.2 ⟨_, List.mem_cons_self, ?_⟩, _,
    List.mem_cons_of_mem _ List.mem_cons_self, rfl, ?_⟩
  · exact ⟨by decide +kernel, by decide +kernel, by decide +kernel⟩
  · exact (hwindow _ _ (List.suffix_cons _ _) rfl).2

end DispatchedExit

end Hypervisor
