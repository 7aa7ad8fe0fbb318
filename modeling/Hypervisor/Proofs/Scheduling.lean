import Hypervisor.Proofs.Entry
import Hypervisor.Proofs.Machine

/-!
# Every entry uses the table of the guest

Guests are put on cpus, run there and taken off again in any order.  Each entry finds the secondary
controls in force and the pointer to the guest's own table, but the table is enabled only if the
processor on which the guest ran first has extended page tables: the first run asks the processor
for secondary controls alone, and later runs ask for nothing.
-/

namespace Hypervisor

/-- The commands that put a guest on a cpu, run it there and take it off again. -/
def Order.Schedules : Order → Prop
  | .run | .activate | .load | .deactivate => True
  | _ => False

namespace Session

open Hypervisor.Action

variable {s₀ s : Session} {ept : Bool}

theorem Entered.played {c : Processor} {e : ScriptedExit} (hs : Entered s₀ ept s)
    (hc : (s.host.cpu.processor.spent .enter none).Plays e c) :
    e.Honest ∧ ∀ x ∈ c.script, x.Honest :=
  hc.forall hs.honest fun _ hw => absurd hw List.not_mem_nil

theorem Entered.reported {c : Processor} {e : ScriptedExit} {launched : Bool} (hs : Entered s₀ ept s)
    (hc : (s.host.cpu.processor.spent .enter none).Plays e c) :
    Entered s₀ ept { s with
      host := { s.host.withProcessor (c.counted launched) with
        blocks := s.host.blocks.update s₀.guest.block fun b => b.reported e } } := by
  obtain ⟨hhonest, hscript⟩ := hs.played hc
  have hsame : ∀ b : ControlBlock, b.SameTranslation (b.reported e) := by
    intro b
    have hlaunch : b.SameTranslation { b with launched := true } :=
      ControlBlock.sameTranslation_of_fields rfl
    refine (hlaunch.trans (ControlBlock.sameTranslation_writeAll ?_)).trans
      (ControlBlock.sameTranslation_writeAll hhonest)
    exact e.event.report_not_translating
  obtain ⟨launches, resumes, hcounted⟩ := c.exists_counted launched
  have hmsrs : (c.counted launched).msrs = s.host.cpu.processor.msrs := by
    rw [hcounted, hc.eq]
    rfl
  have hcurrent : (c.counted launched).current = s.host.cpu.processor.current := by
    rw [hcounted, hc.eq]
    rfl
  have hhonests : ∀ x ∈ (c.counted launched).script, x.Honest := by
    rw [hcounted]
    exact hscript
  refine ⟨⟨hs.same, hmsrs.trans hs.msrs, hhonests, fun q hq => ?_⟩, hs.runs,
    hcurrent.trans hs.current, ?_⟩
  · exact (ControlBlocks.block_update_of_ne _ _ (Ne.symm hq)).trans (hs.others q hq)
  · show ((s.host.blocks.update s₀.guest.block _).block s₀.guest.block).Programmed _ _
    rw [ControlBlocks.block_update]
    exact (hsame _).programmed hs.programmed

theorem vmenter_upholds (launched : Bool) :
    (onHost (Host.vmenter launched)).Upholds (Entered s₀ ept) fun _ _ => True := by
  intro s hs
  rw [onHost, ends_onPart]
  have hspent : Entered s₀ ept { s with host := s.host.spent .enter none } :=
    ((entered_alert s₀ ept).host s).spent _ _ hs
  refine Host.vmenter_ends (fun p e c hp _ hc => ?_) (fun _ => hspent) (fun _ _ _ => hspent)
    (fun p e c _ hc => ?_) fun _ _ => hspent
  · obtain rfl : p = s₀.guest.block := Option.some.inj (hp.symm.trans hs.current)
    exact hs.reported hc
  · have heq := hc.eq
    exact ⟨⟨hs.same, by rw [heq]; exact hs.msrs, (hs.played hc).2, hs.others⟩, hs.runs,
      by rw [heq]; exact hs.current, hs.programmed⟩

/-- What a run leaves behind; `idle` tells whether no guest was entered. -/
structure Left (s₀ : Session) (ept : Bool) (idle : Prop) (s : Session) : Prop where
  kept : Kept s₀ ept s
  unentered : idle → Unentered s₀ s

theorem Left.switched {idle : Prop} {h : Host} (hl : Left s₀ ept idle s)
    (hs : s.host.Switches s₀.guest.block h) : Left s₀ ept idle { s with host := h } :=
  ⟨hl.kept.switched hs, fun hi => (hl.unentered hi).switched hs⟩

theorem left_calm (s₀ : Session) (ept : Bool) (idle : Prop) :
    Calm s₀.guest.table (Left s₀ ept idle) fun _ _ => True where
  table := fun h => h.kept.same.table
  host := fun s =>
    { overflow := fun _ _ _ => trivial
      log := fun _ h => h.switched (s := { s with host := _ }) (Host.switches_of_blocks _ rfl rfl)
      kernel := fun _ h => h.switched (s := { s with host := _ }) (Host.switches_of_blocks _ rfl rfl)
      spent := fun _ _ h =>
        h.switched (s := { s with host := _ }) (Host.switches_of_blocks _ rfl rfl) }
  resolve := fun _ => onMemory_upholds
    (fun _ _ h => h.switched (Host.switches_of_blocks _ rfl rfl)) fun _ _ _ => trivial

theorem deactivate_upholds (idle : Prop) :
    deactivate.Upholds (Left s₀ ept idle) fun _ _ => True := by
  intro s hl
  have hblock := hl.kept.same.block
  refine deactivate_ends ?_ fun _ _ => ?_
  · have hguest : Left s₀ ept idle { s with guest := { s.guest with launched := false } } :=
      ⟨⟨⟨hl.kept.same.trans ⟨rfl, rfl, rfl, rfl, rfl, rfl⟩, hl.kept.msrs, hl.kept.honest,
        hl.kept.others⟩, hl.kept.programmed, hl.kept.counted⟩, fun hi =>
        ⟨(hl.unentered hi).launches, (hl.unentered hi).resumes⟩⟩
    refine hguest.switched ?_
    rw [← hblock]
    exact Host.switches_of_launched rfl rfl
  · exact hl.switched (Host.switches_of_blocks _ rfl rfl)

/-- The guest has not run, and the processor lets it not have secondary controls. -/
def Blocked (s : Session) : Prop :=
  s.guest.runs = 0 ∧ s.capabilities.hasSecondaryControls = false

/-- A run that is blocked fails without an entry. -/
theorem run_ends_left (h₀ : Kept s₀ ept s₀)
    (hept : s₀.guest.runs = 0 → ept = s₀.capabilities.hasEpt) :
    Session.run.Ends s₀ (fun _ t => Left s₀ ept s₀.Blocked t ∧ ¬ s₀.Blocked)
      (fun e t => Left s₀ ept s₀.Blocked t ∧
        (s₀.Blocked → s₀.Clean → e = .eptUnsupported)) fun _ _ => True := by
  have hlaunch : launch.Upholds (Entered s₀ ept) fun _ _ => True :=
    launch_upholds vmenter_upholds (entered_alert s₀ ept).context fun h =>
      ⟨⟨h.same.trans ⟨rfl, rfl, rfl, rfl, rfl, rfl⟩, h.msrs, h.honest, h.others⟩, h.runs, h.current,
        h.programmed⟩
  have hproceed := (entered_alert s₀ ept).proceed hlaunch
  have hkernel : ∀ {s : Session} k, Left s₀ ept s₀.Blocked s →
      Left s₀ ept s₀.Blocked { s with host := { s.host with kernel := k } } :=
    fun _ h => h.switched (Host.switches_of_blocks _ rfl rfl)
  have honce : runOnce.Ends s₀ (fun _ t => Left s₀ ept s₀.Blocked t ∧ ¬ s₀.Blocked)
      (fun e t => Left s₀ ept s₀.Blocked t ∧ (s₀.Blocked → s₀.Clean → e = .eptUnsupported))
      fun _ _ => True := by
    rw [runOnce_eq, ends_bind]
    refine Ends.mono (approach_ends h₀ hept) ?_ ?_ fun _ _ _ => trivial
    · rintro _ t ⟨hentered, hunentered, hsecondary⟩
      have hfree : ¬ s₀.Blocked := fun hb =>
        absurd ((hsecondary hb.1).symm.trans hb.2) Bool.noConfusion
      refine Ends.mono (hproceed t hentered) ?_ ?_ fun _ _ h => h
      · exact fun _ u hu => ⟨⟨hu.kept, fun hb => absurd hb hfree⟩, hfree⟩
      · exact fun _ u hu => ⟨⟨hu.kept, fun hb => absurd hb hfree⟩, fun hb => absurd hb hfree⟩
    · exact fun e t h => ⟨⟨h.1, fun _ => h.2.1⟩, fun _ hclean => (h.2.2 hclean).2.2⟩
  refine Ends.mono ((left_calm s₀ ept s₀.Blocked).run_ends (deactivate_upholds _)
    (fun _ h => hkernel _ h) (fun _ h => hkernel _ h) (fun _ h => hkernel _ h) honce) ?_ ?_
    fun _ _ h => h
  · rintro r t ⟨⟨-, ht⟩ | ⟨-, ht⟩, hr⟩ <;> exact ⟨ht, hr⟩
  · rintro e t ⟨⟨-, ht⟩ | ⟨-, ht⟩, he⟩ <;> exact ⟨ht, he⟩

def Upkeep {α : Type} (x : SessionM α) : Prop :=
  ∀ s₀ ept, Kept s₀ ept s₀ → (s₀.guest.runs = 0 → ept = s₀.capabilities.hasEpt) →
    x.Ends s₀ (fun _ t => Kept s₀ ept t) (fun _ t => Kept s₀ ept t) fun _ _ => True

theorem run_upkeep : Upkeep Session.run := by
  intro s₀ ept h₀ hept
  exact Ends.mono (run_ends_left h₀ hept) (fun _ _ h => h.1.kept) (fun _ _ h => h.1.kept)
    fun _ _ h => h

theorem activate_upkeep : Upkeep activate := by
  intro s₀ ept h₀ _
  exact Ends.mono (activate_approaches h₀) (fun _ _ h => h.toKept) (fun _ _ h => h.toKept)
    fun _ _ _ => trivial

theorem load_upkeep : Upkeep load := by
  intro s₀ ept h₀ _
  exact Ends.mono (load_approaches h₀) (fun _ _ h => h.toKept) (fun _ _ h => h.toKept)
    fun _ _ _ => trivial

theorem deactivate_upkeep : Upkeep deactivate := by
  intro s₀ ept h₀ _
  exact Ends.mono (deactivate_upholds False s₀ ⟨h₀, False.elim⟩) (fun _ _ h => h.kept)
    (fun _ _ h => h.kept) fun _ _ h => h

/-- The run reaches the instruction that enters the guest, in state `t`. -/
def Reaches (s t : Session) : Prop := approach.run s = .ok () t

end Session

namespace Machine

open Hypervisor.Action Session

/-- Guests that have not run yet, each with a control block of its own, on cpus where guests cannot
write controls. -/
structure Unscheduled (m : Machine) : Prop where
  unrun : ∀ (i : Nat) (v : Vm), m.vms[i]? = some (some v) → v.guest.runs = 0
  distinct : ∀ (i j : Nat) (v w : Vm), m.vms[i]? = some (some v) → m.vms[j]? = some (some w) →
    v.guest.block = w.guest.block → i = j
  honest : ∀ (i : Nat) (c : Cpu), m.cpus[i]? = some c → ∀ e ∈ c.processor.script, ScriptedExit.Honest e

def runs (m : Machine) (i : Nat) : Nat :=
  match m.vms[i]? with
  | some (some v) => v.guest.runs
  | _ => 0

/-- On which cpu each guest ran first, after a command that led to machine `m`. -/
def settle (home : Nat → Option Nat) (c : Command) (m : Machine) (i : Nat) : Option Nat :=
  if i = c.vm ∧ home i = none ∧ m.runs i ≠ 0 then some c.cpu else home i

/-- The machines that scheduling guests leads to, with the cpu on which each guest ran first. -/
inductive Scheduled (m₀ : Machine) : (Nat → Option Nat) → Machine → Prop
  | start : Scheduled m₀ (fun _ => none) m₀
  | done {home : Nat → Option Nat} {m m' : Machine} {c : Command} {a : Answer} :
      Scheduled m₀ home m → c.order.Schedules → (perform c).run m = .ok a m' →
      Scheduled m₀ (settle home c m') m'
  | failed {home : Nat → Option Nat} {m m' : Machine} {c : Command} {e : VmError} :
      Scheduled m₀ home m → c.order.Schedules → (perform c).run m = .error (.error e) m' →
      Scheduled m₀ (settle home c m') m'

structure Schedule (m₀ : Machine) (home : Nat → Option Nat) (m : Machine) : Prop where
  cpus : ∀ (i : Nat) (c : Cpu), m.cpus[i]? = some c → ∃ c₀ : Cpu, m₀.cpus[i]? = some c₀ ∧
    c.processor.msrs = c₀.processor.msrs ∧ ∀ e ∈ c.processor.script, ScriptedExit.Honest e
  vms : ∀ (i : Nat) (v : Vm), m.vms[i]? = some (some v) → ∃ v₀ : Vm, m₀.vms[i]? = some (some v₀) ∧
    v₀.guest.Same v.guest
  idle : ∀ (i : Nat) (v : Vm), m.vms[i]? = some (some v) → v.guest.runs = 0 → home i = none
  programmed : ∀ (i : Nat) (v : Vm), m.vms[i]? = some (some v) → v.guest.runs ≠ 0 →
    ∃ (k : Nat) (c : Cpu), home i = some k ∧ m₀.cpus[k]? = some c ∧
      (m.blocks.block v.guest.block).Programmed v.guest.table c.capabilities.hasEpt

theorem Schedule.start {m₀ : Machine} (h₀ : m₀.Unscheduled) :
    Schedule m₀ (fun _ => none) m₀ where
  cpus := fun i c hc => ⟨c, hc, rfl, h₀.honest i c hc⟩
  vms := fun _ v hv => ⟨v, hv, .refl _⟩
  idle := fun _ _ _ _ => rfl
  programmed := fun i v hv hruns => absurd (h₀.unrun i v hv) hruns

section Step

variable {m₀ m : Machine} {home : Nat → Option Nat} {c : Command} {cpu : Cpu} {v : Vm}

theorem runs_of_vm {i : Nat} (h : m.vms[i]? = some (some v)) : m.runs i = v.guest.runs := by
  rw [runs, h]

theorem exists_vm_of_runs {i : Nat} (h : m.runs i ≠ 0) :
    ∃ v, m.vms[i]? = some (some v) ∧ v.guest.runs ≠ 0 := by
  simp only [runs] at h
  split at h
  · exact ⟨_, ‹_›, h⟩
  · exact absurd rfl h

theorem Schedule.distinct {i j : Nat} {w : Vm} (h : Schedule m₀ home m) (h₀ : m₀.Unscheduled)
    (hv : m.vms[i]? = some (some v)) (hw : m.vms[j]? = some (some w))
    (heq : v.guest.block = w.guest.block) : i = j := by
  obtain ⟨v₀, hv₀, hvsame⟩ := h.vms i v hv
  obtain ⟨w₀, hw₀, hwsame⟩ := h.vms j w hw
  refine h₀.distinct i j v₀ w₀ hv₀ hw₀ ?_
  rw [← hvsame.block, ← hwsame.block, heq]

/-- The session of a command, with whether the block of its guest has the table enabled. -/
theorem Schedule.kept (h : Schedule m₀ home m) (hcpu : m.cpus[c.cpu]? = some cpu)
    (hv : m.vms[c.vm]? = some (some v)) :
    ∃ ept, Kept ⟨m.host cpu, v.guest, v.context⟩ ept ⟨m.host cpu, v.guest, v.context⟩ ∧
      (v.guest.runs = 0 → ept = cpu.capabilities.hasEpt) ∧
      (v.guest.runs ≠ 0 → ∃ k c₀, home c.vm = some k ∧ m₀.cpus[k]? = some c₀ ∧
        ept = c₀.capabilities.hasEpt) := by
  obtain ⟨-, -, -, hhonest⟩ := h.cpus c.cpu cpu hcpu
  have hwithin : Within ⟨m.host cpu, v.guest, v.context⟩ ⟨m.host cpu, v.guest, v.context⟩ :=
    ⟨.refl _, rfl, hhonest, fun _ _ => rfl⟩
  by_cases hruns : v.guest.runs = 0
  · exact ⟨_, ⟨hwithin, fun h => absurd hruns h, id⟩, fun _ => rfl, fun h => absurd hruns h⟩
  · obtain ⟨k, c₀, hk, hc₀, hprogrammed⟩ := h.programmed c.vm v hv hruns
    exact ⟨_, ⟨hwithin, fun _ => hprogrammed, id⟩, fun h => absurd h hruns,
      fun _ => ⟨k, c₀, hk, hc₀, rfl⟩⟩

/-- A session that keeps the block of its guest programmed keeps every block programmed. -/
theorem Schedule.step {ept : Bool} {s : Session} (h₀ : m₀.Unscheduled) (h : Schedule m₀ home m)
    (hcpu : m.cpus[c.cpu]? = some cpu) (hv : m.vms[c.vm]? = some (some v))
    (hfirst : v.guest.runs = 0 → ept = cpu.capabilities.hasEpt)
    (hlater : v.guest.runs ≠ 0 → ∃ k c₀, home c.vm = some k ∧ m₀.cpus[k]? = some c₀ ∧
      ept = c₀.capabilities.hasEpt)
    (hs : Kept ⟨m.host cpu, v.guest, v.context⟩ ept s) :
    Schedule m₀ (settle home c (m.withSession c.cpu c.vm s)) (m.withSession c.cpu c.vm s) where
  cpus := by
    intro i x hx
    rcases cpus_withSession hx with ⟨rfl, rfl⟩ | ⟨-, hx⟩
    · obtain ⟨c₀, hc₀, hmsrs, -⟩ := h.cpus c.cpu cpu hcpu
      exact ⟨c₀, hc₀, hs.msrs.trans hmsrs, hs.honest⟩
    · exact h.cpus i x hx
  vms := by
    intro i w hw
    rcases vms_withSession hw with ⟨rfl, rfl⟩ | ⟨-, hw⟩
    · obtain ⟨v₀, hv₀, hsame⟩ := h.vms c.vm v hv
      exact ⟨v₀, hv₀, hsame.trans hs.same⟩
    · exact h.vms i w hw
  idle := by
    intro i w hw hruns
    rcases vms_withSession hw with ⟨rfl, rfl⟩ | ⟨hi, hw⟩
    · have hzero : v.guest.runs = 0 := by
        by_contra hne
        exact hs.counted hne hruns
      rw [settle, runs_of_vm hw, if_neg fun hset => hset.2.2 hruns]
      exact h.idle c.vm v hv hzero
    · rw [settle, if_neg fun hset => hi hset.1]
      exact h.idle i w hw hruns
  programmed := by
    intro i w hw hruns
    rcases vms_withSession hw with ⟨rfl, rfl⟩ | ⟨hi, hw⟩
    · have hblock := hs.programmed hruns
      rw [← hs.same.block, ← hs.same.table] at hblock
      by_cases hzero : v.guest.runs = 0
      · obtain ⟨c₀, hc₀, hmsrs, -⟩ := h.cpus c.cpu cpu hcpu
        rw [settle, runs_of_vm hw, if_pos ⟨rfl, h.idle c.vm v hv hzero, hruns⟩]
        refine ⟨c.cpu, c₀, rfl, hc₀, ?_⟩
        rw [← Cpu.capabilities_congr hmsrs, ← hfirst hzero]
        exact hblock
      · obtain ⟨k, c₀, hk, hc₀, hept⟩ := hlater hzero
        rw [settle, if_neg fun hset => by rw [hk] at hset; cases hset.2.1]
        refine ⟨k, c₀, hk, hc₀, ?_⟩
        rw [← hept]
        exact hblock
    · obtain ⟨k, c₀, hk, hc₀, hprogrammed⟩ := h.programmed i w hw hruns
      have hne : w.guest.block ≠ v.guest.block := fun heq => hi (h.distinct h₀ hw hv heq)
      rw [settle, if_neg fun hset => hi hset.1]
      refine ⟨k, c₀, hk, hc₀, ?_⟩
      rw [show (m.withSession c.cpu c.vm s).blocks.block w.guest.block =
        m.blocks.block w.guest.block from hs.others w.guest.block hne]
      exact hprogrammed

theorem Schedule.settled (h : Schedule m₀ home m) : settle home c m = home := by
  funext i
  refine if_neg ?_
  rintro ⟨rfl, hnone, hruns⟩
  obtain ⟨v, hv, hne⟩ := exists_vm_of_runs hruns
  obtain ⟨k, -, hk, -⟩ := h.programmed c.vm v hv hne
  rw [hnone] at hk
  cases hk

theorem onSession_schedule {α : Type} {x : SessionM α} (h₀ : m₀.Unscheduled)
    (h : Schedule m₀ home m) (hx : Upkeep x) :
    (onSession c.cpu c.vm x).Ends m (fun _ m' => Schedule m₀ (settle home c m') m')
      (fun _ m' => Schedule m₀ (settle home c m') m') fun _ _ => True := by
  refine onSession_ends ?_ fun cpu v hcpu hv => ?_
  · rw [h.settled]
    exact h
  · obtain ⟨ept, hkept, hfirst, hlater⟩ := h.kept hcpu hv
    exact Ends.mono (hx _ ept hkept hfirst) (fun _ s hs => h.step h₀ hcpu hv hfirst hlater hs)
      (fun _ s hs => h.step h₀ hcpu hv hfirst hlater hs) fun _ _ h => h

/-- No scheduling command breaks what scheduling maintains. -/
theorem perform_schedule (h₀ : m₀.Unscheduled) (h : Schedule m₀ home m)
    (hc : c.order.Schedules) :
    (perform c).Ends m (fun _ m' => Schedule m₀ (settle home c m') m')
      (fun _ m' => Schedule m₀ (settle home c m') m') fun _ _ => True := by
  obtain ⟨cpu, vm, table, order⟩ := c
  cases order with
  | run => exact (ends_bind _ _).2 (onSession_schedule h₀ h run_upkeep)
  | activate => exact (ends_bind _ _).2 (onSession_schedule h₀ h activate_upkeep)
  | load => exact (ends_bind _ _).2 (onSession_schedule h₀ h load_upkeep)
  | deactivate => exact (ends_bind _ _).2 (onSession_schedule h₀ h deactivate_upkeep)
  | _ => exact hc.elim

theorem Scheduled.schedule (h₀ : m₀.Unscheduled) (h : Scheduled m₀ home m) :
    Schedule m₀ home m := by
  induction h with
  | start => exact .start h₀
  | done _ hc hrun ih => exact (ends_ok hrun).1 (perform_schedule h₀ ih hc)
  | failed _ hc hrun ih => exact (ends_error hrun).1 (perform_schedule h₀ ih hc)

/-- Whether the table is enabled, in terms of the cpu on which the guest ran first. -/
theorem Schedule.enabled_iff {ept : Bool} {i j : Nat} (h : Schedule m₀ home m)
    (hcpu : m.cpus[i]? = some cpu)
    (hfirst : v.guest.runs = 0 → ept = cpu.capabilities.hasEpt)
    (hlater : v.guest.runs ≠ 0 → ∃ k c₀, home j = some k ∧ m₀.cpus[k]? = some c₀ ∧
      ept = c₀.capabilities.hasEpt) :
    ept = true ↔ ∃ k c₀, (if v.guest.runs = 0 then some i else home j) = some k ∧
      m₀.cpus[k]? = some c₀ ∧ c₀.capabilities.hasEpt = true := by
  have hhome : ∃ k c₀, (if v.guest.runs = 0 then some i else home j) = some k ∧
      m₀.cpus[k]? = some c₀ ∧ ept = c₀.capabilities.hasEpt := by
    by_cases hruns : v.guest.runs = 0
    · obtain ⟨c₀, hc₀, hmsrs, -⟩ := h.cpus i cpu hcpu
      rw [if_pos hruns]
      exact ⟨i, c₀, rfl, hc₀, (hfirst hruns).trans (congrArg _ (Cpu.capabilities_congr hmsrs))⟩
    · rw [if_neg hruns]
      exact hlater hruns
  obtain ⟨k, c₀, hk, hc₀, hept⟩ := hhome
  constructor
  · intro htrue
    exact ⟨k, c₀, hk, hc₀, hept.symm.trans htrue⟩
  · rintro ⟨k', c₀', hk', hc₀', htrue⟩
    have hkk : k' = k := Option.some.inj (hk'.symm.trans hk)
    subst hkk
    have hcc : c₀' = c₀ := Option.some.inj (hc₀'.symm.trans hc₀)
    subst hcc
    exact hept.trans htrue

end Step

/-- Where the run of guest `v` on cpu `i` reaches the instruction that enters the guest, the control
block of the guest is current, its secondary controls are in force, and it points to the table of the
guest.  The table is enabled exactly if the processor on which the guest ran first has extended page
tables.  The first run only asks for secondary controls: without these it fails before the entry,
and with them it reaches the entry, as any later run does. -/
theorem entry_enables_table_iff {m₀ m : Machine} {home : Nat → Option Nat} (h₀ : m₀.Unscheduled)
    (h : Scheduled m₀ home m) {i j : Nat} {c : Cpu} {v : Vm} (hc : m.cpus[i]? = some c)
    (hv : m.vms[j]? = some (some v)) :
    let s : Session := ⟨m.host c, v.guest, v.context⟩
    (∀ t, s.Reaches t →
      let b := t.host.blocks.block v.guest.block
      t.host.cpu.processor.current = some v.guest.block ∧
      b.read .processorBasedVmexecControls &&& ProcBased.activateSecondary.bits ≠ 0 ∧
      (∃ root, v.guest.table.root = some root ∧ b.read .eptptr = root.val ||| 0x18) ∧
      (b.read .secondaryVmexecControls &&& ProcBased2.enableEpt.bits ≠ 0 ↔
        ∃ k c₀, (if v.guest.runs = 0 then some i else home j) = some k ∧ m₀.cpus[k]? = some c₀ ∧
          c₀.capabilities.hasEpt = true)) ∧
    (s.Blocked → (∀ t, ¬ s.Reaches t) ∧ (∀ r t, Session.run.run s ≠ .ok r t) ∧
      ∀ e t, Session.run.run s = .error (.error e) t →
        s.Unentered t ∧ (s.Clean → e = .eptUnsupported)) ∧
    (s.Clean → ¬ s.Blocked → ∃ t, s.Reaches t) := by
  have hschedule := h.schedule h₀
  obtain ⟨ept, hkept, hfirst, hlater⟩ :=
    hschedule.kept (c := { cpu := i, vm := j, order := .run }) hc hv
  have happroach := approach_ends hkept hfirst
  have hrun := run_ends_left hkept hfirst
  refine ⟨fun t ht => ?_, fun hblocked => ⟨fun t ht => ?_, fun r t ht => ?_, fun e t ht => ?_⟩,
    fun hclean hfree => ?_⟩
  · obtain ⟨hentered, -⟩ := (ends_ok ht).1 happroach
    obtain ⟨hsecondary, henabled, hpointer⟩ := hentered.programmed
    refine ⟨hentered.current, hsecondary, ?_, henabled.trans ?_⟩
    · obtain ⟨root, hroot, hval⟩ := Option.map_eq_some_iff.1 hpointer
      exact ⟨root, hroot, hval.symm⟩
    · exact hschedule.enabled_iff hc hfirst hlater
  · obtain ⟨-, -, hsecondary⟩ := (ends_ok ht).1 happroach
    exact absurd ((hsecondary hblocked.1).symm.trans hblocked.2) Bool.noConfusion
  · exact ((ends_ok ht).1 hrun).2 hblocked
  · obtain ⟨hleft, hwhy⟩ := (ends_error ht).1 hrun
    exact ⟨hleft.unentered hblocked, hwhy hblocked⟩
  · simp only [Ends] at happroach
    split at happroach
    · exact ⟨_, ‹_›⟩
    · obtain ⟨-, -, hwhy⟩ := happroach
      obtain ⟨hruns, hsecondary, -⟩ := hwhy hclean
      exact absurd ⟨hruns, hsecondary⟩ hfree
    · exact absurd hclean happroach

def tablelessCpu : Cpu where
  id := 0
  processor := Processor.fresh.wrmsr .procBasedControls2 0x00537ffd00000000

def newVm : Vm where
  guest :=
    { table := ⟨some ⟨0x1000000⟩⟩, block := ⟨0x1001000⟩, msrPage := ⟨0x1002000⟩
      ioBitmapA := ⟨0x1003000⟩, ioBitmapB := ⟨0x1004000⟩, exceptionBitmap := 0
      physSize := Layout.defaultSize }
  context := { rip := Layout.entryPoint, rsp := Layout.entryPoint }

def tableless : Machine where
  memory := { Memory.fresh with
    pages := ((∅ : Std.ExtTreeMap Hpa Page).insert ⟨0x1002000⟩ {}).insert ⟨0x1003000⟩ {} }
  cpus := #[tablelessCpu]
  vms := #[some newVm]

/-- The guest is entered, and its memory is not translated. -/
theorem tableless_enters : ∃ t,
    Reaches ⟨tableless.host tablelessCpu, newVm.guest, newVm.context⟩ t ∧
      (t.host.blocks.block newVm.guest.block).read .secondaryVmexecControls &&&
        ProcBased2.enableEpt.bits = 0 := by
  have hcpu : ∀ (i : Nat) (c : Cpu), tableless.cpus[i]? = some c → i = 0 ∧ c = tablelessCpu := by
    intro i c hc
    cases i with
    | zero => exact ⟨rfl, (Option.some.inj hc).symm⟩
    | succ i => cases hc
  have hvm : ∀ (i : Nat) (v : Vm), tableless.vms[i]? = some (some v) → i = 0 ∧ v = newVm := by
    intro i v hv
    cases i with
    | zero => exact ⟨rfl, (Option.some.inj (Option.some.inj hv)).symm⟩
    | succ i => cases hv
  have hstart : tableless.Unscheduled := by
    refine ⟨fun i v hv => ?_, fun i j v w hv hw _ => ?_, fun i c hc e he => ?_⟩
    · rw [(hvm i v hv).2]
      rfl
    · rw [(hvm i v hv).1, (hvm j w hw).1]
    · rw [(hcpu i c hc).2] at he
      cases he
  obtain ⟨hentry, -, hreach⟩ := entry_enables_table_iff hstart .start
    (i := 0) (j := 0) (c := tablelessCpu) (v := newVm) rfl rfl
  obtain ⟨t, ht⟩ := hreach ⟨rfl, .inl rfl, by decide, by decide⟩ fun hblocked =>
    absurd hblocked.2 (by decide)
  refine ⟨t, ht, ?_⟩
  obtain ⟨-, -, -, henabled⟩ := hentry t ht
  by_contra hset
  obtain ⟨k, c₀, hk, hc₀, hept⟩ := henabled.1 hset
  rw [(hcpu k c₀ hc₀).2] at hept
  exact absurd hept (by decide)

end Machine

end Hypervisor
