import Hypervisor.Proofs.Aloof
import Hypervisor.Proofs.Arrival
import Hypervisor.Proofs.Exit.Emulation
import Hypervisor.Proofs.Vmcs.HostState

/-!
# The extended-feature register on the way to an exit

The first run of a guest lists the switched registers and writes the controls, and the guest's value is
zero then.  No other run does so: on the way to any later exit the register page and the entry controls
stay as the last handler left them.
-/

namespace Hypervisor.Session

open Hypervisor.Action

structure Stopped (host controls value : UInt64) (s₀ s : Session) : Prop where
  same : s₀.guest.Same s.guest
  current : s.Current
  runs : s.guest.runs ≠ 0
  coherent : s.guest.Coherent s.host.toPlatform host controls value

/-- The guest is on the cpu, and the registers of the processor are as they were.  Nothing was added to
the script. -/
structure Seated (s₀ s : Session) : Prop where
  same : s₀.guest.Same s.guest
  current : s.host.cpu.processor.current = some s₀.guest.block
  script : s.host.cpu.processor.script ⊆ s₀.host.cpu.processor.script
  msrs : s.host.cpu.processor.msrs = s₀.host.cpu.processor.msrs

variable {s₀ s t : Session} {fs : List Field} {host controls value : UInt64}

/-- The value of the guest's entry controls that the first run writes. -/
def firstControls (c : Cpu) : UInt64 := (adjustControls wantedEntry c.capabilities.entry).toUInt64

theorem read_configured_entry (caps : ControlCapabilities) (g : Guest) (pointer : UInt64)
    (b : ControlBlock) : (configured caps g pointer b).read .vmentryControls =
      (adjustControls wantedEntry caps.entry).toUInt64 :=
  ControlBlock.read_writeAll_of_mem _ (by simp [switchControls]) (by simp [switchControls])

theorem Arrives.coherent (h : Arrives fs s₀ s) (hfs : .vmentryControls ∈ fs)
    (hs : s₀.guest.Coherent s₀.host.toPlatform host controls value) :
    s.guest.Coherent s.host.toPlatform host controls value where
  switches := by
    obtain ⟨hcount, hlive, haligned, hlists⟩ := hs.switches
    rw [← h.memory, ← h.same.msrPage] at hlive hlists
    rw [← h.same.msrPage] at haligned
    exact ⟨h.count.trans hcount, hlive, haligned, hlists⟩
  modes := hs.modes.congr (h.toKeeps.block hfs)

theorem Arrives.stopped (h : Arrives fs s₀ s) (hfs : .vmentryControls ∈ fs)
    (hruns : s₀.guest.runs ≠ 0) (hs : s₀.guest.Coherent s₀.host.toPlatform host controls value) :
    Stopped host controls value s₀ s where
  same := h.same
  current := by
    rw [Current, h.same.block]
    exact h.current
  runs := Nat.ne_of_gt (Nat.lt_of_lt_of_le (Nat.pos_of_ne_zero hruns) h.runs)
  coherent := h.coherent hfs hs

theorem seated_aloof (s₀ : Session) : Aloof s₀.guest (Seated s₀) fun _ _ => True where
  same := Seated.same
  memory := fun _ h => ⟨h.same, h.current, h.script, h.msrs⟩
  log := fun _ h => ⟨h.same, h.current, h.script, h.msrs⟩
  kernel := fun _ h => ⟨h.same, h.current, h.script, h.msrs⟩
  spent := fun _ _ h => ⟨h.same, h.current, h.script, h.msrs⟩
  context := fun _ h => ⟨h.same, h.current, h.script, h.msrs⟩
  devices := fun _ _ h => ⟨h.same.trans ⟨rfl, rfl, rfl, rfl, rfl, rfl⟩, h.current, h.script, h.msrs⟩
  panic := fun _ _ _ => trivial

theorem seated_programmable (s₀ : Session) :
    Programmable s₀.guest (Seated s₀) fun _ _ => True :=
  (seated_aloof s₀).programmable (fun _ _ h => ⟨h.same, h.current, h.script, h.msrs⟩)
    fun _ _ _ h => ⟨h.same.trans ⟨rfl, rfl, rfl, rfl, rfl, rfl⟩, h.current, h.script, h.msrs⟩

theorem activate_seated (s : Session) :
    activate.Ends s (fun _ t => Seated s t) (fun _ _ => True) fun _ _ => True :=
  activate_ends (fun _ => ⟨⟨rfl, rfl, rfl, rfl, rfl, rfl⟩, rfl, List.Subset.refl _, rfl⟩)
    (fun _ _ _ => trivial) (fun _ _ => trivial) fun _ _ => trivial

theorem setupMsrs_switches (h : Seated s₀ s) (haligned : s₀.guest.msrPage.isPageAligned = true) :
    setupMsrs.Ends s
      (fun _ t => Seated s₀ t ∧
        t.guest.Switches t.host.memory (s₀.host.cpu.processor.rdmsr .efer) 0)
      (fun _ _ => True) fun _ _ => True := by
  rw [← h.same.msrPage] at haligned
  simp only [setupMsrs, onGuest, ends_bind, ends_modify, ends_get, ends_onMemory]
  refine Ends.mono (Guest.listMsrs_ends (g := { s.guest with msrCount := switchedMsrs.length }) rfl
    haligned _) (fun _ m hm => ?_) (fun _ _ _ => trivial) fun _ _ _ => trivial
  refine ⟨⟨h.same.trans ⟨rfl, rfl, rfl, rfl, rfl, rfl⟩, h.current, h.script, h.msrs⟩, ?_⟩
  rw [← Processor.rdmsr_congr h.msrs]
  exact hm

theorem configureControls_coherent (h : Seated s₀ s) (hs : s.guest.Switches s.host.memory host 0) :
    configureControls.Ends s
      (fun _ t => Seated s₀ t ∧
        t.guest.Coherent t.host.toPlatform host (firstControls s₀.host.cpu) 0)
      (fun _ _ => True) fun _ _ => True := by
  have hcurrent : s.host.cpu.processor.current = some s.guest.block := by
    rw [h.same.block]
    exact h.current
  refine configureControls_revises hcurrent (fun t pointer hrev _ _ hblock => ?_)
    fun _ _ _ _ => trivial
  obtain ⟨fs, hcpu⟩ := hrev.processor
  refine ⟨?_, ⟨?_, .initial ?_⟩⟩
  · refine ⟨h.same, ?_, ?_, ?_⟩
    all_goals
      dsimp only
      rw [hcpu]
    · exact h.current
    · exact h.script
    · exact h.msrs
  · show s.guest.Switches t.memory host 0
    rw [hrev.memory]
    exact hs
  · show (t.blocks.block s.guest.block).read .vmentryControls = _
    rw [hblock, read_configured_entry, capabilities, firstControls, Cpu.capabilities_congr h.msrs]

theorem prepareFirstRun_coherent (haligned : s.guest.msrPage.isPageAligned = true) :
    prepareFirstRun.Ends s
      (fun _ t => Seated s t ∧ t.guest.Coherent t.host.toPlatform
        (s.host.cpu.processor.rdmsr .efer) (firstControls s.host.cpu) 0)
      (fun _ _ => True) fun _ _ => True := by
  have hseat : ∀ {x : SessionM Unit} {t : Session}, x.Upholds (Seated s) (fun _ _ => True) →
      Seated s t → x.Ends t (fun _ u => Seated s u) (fun _ _ => True) fun _ _ => True := fun hx ht =>
    Ends.mono (hx _ ht) (fun _ _ h => h) (fun _ _ _ => trivial) fun _ _ h => h
  have hI := seated_programmable s
  rw [prepareFirstRun, ends_bind]
  refine Ends.mono (activate_seated s) (fun _ t ht => ?_) (fun _ _ h => h) fun _ _ h => h
  rw [ends_bind]
  refine Ends.mono (hseat hI.initHostState ht) (fun _ t ht => ?_) (fun _ _ h => h) fun _ _ h => h
  rw [ends_bind]
  refine Ends.mono (hseat hI.initGuestState ht) (fun _ t ht => ?_) (fun _ _ h => h) fun _ _ h => h
  rw [ends_bind]
  refine Ends.mono (hseat hI.setupBitmaps ht) (fun _ t ht => ?_) (fun _ _ h => h) fun _ _ h => h
  rw [ends_bind]
  refine Ends.mono (setupMsrs_switches ht haligned) (fun _ t ht => ?_) (fun _ _ h => h) fun _ _ h => h
  exact configureControls_coherent ht.1 ht.2

variable (hscript : ∀ e ∈ s.host.cpu.processor.script, e.Leaves [.vmentryControls])

include hscript

/-- At the first exit the register is coherent, whichever cpu the guest ran on. -/
theorem arrive_first (hruns : s.guest.runs = 0) (haligned : s.guest.msrPage.isPageAligned = true) :
    arrive.Ends s
      (fun _ t => Stopped (s.host.cpu.processor.rdmsr .efer) (firstControls s.host.cpu) 0 s t)
      (fun _ _ => True) fun _ _ => True := by
  rw [arrive, ends_bind, prepareRun, ends_bind, ends_get, if_pos hruns, ends_bind]
  refine Ends.mono (prepareFirstRun_coherent haligned) (fun _ t ht => ?_) (fun _ _ h => h)
    fun _ _ h => h
  obtain ⟨hseated, hcoherent⟩ := ht
  let u : Session := t.ready
  have hon : u.Current := by
    show t.host.cpu.processor.current = some t.guest.block
    rw [hseated.same.block]
    exact hseated.current
  have hu : u.guest.Coherent u.host.toPlatform (s.host.cpu.processor.rdmsr .efer)
      (firstControls s.host.cpu) 0 :=
    ⟨⟨hcoherent.switches.count, hcoherent.switches.live, hcoherent.switches.aligned,
      hcoherent.switches.lists⟩, hcoherent.modes⟩
  have hleft : ∀ e ∈ u.host.cpu.processor.script, e.Leaves [.vmentryControls] := fun e he =>
    hscript e (hseated.script he)
  refine Ends.mono (x := untilExit) (untilExit_arrives (by decide) hleft u (Arrives.refl hon))
    (fun _ v hv => ?_) (fun _ _ _ => trivial) fun _ _ h => h
  have hstopped := hv.stopped List.mem_cons_self (Nat.succ_ne_zero _) hu
  have hsame : s.guest.Same u.guest := hseated.same.trans ⟨rfl, rfl, rfl, rfl, rfl, rfl⟩
  exact ⟨hsame.trans hstopped.same, hstopped.current, hstopped.runs, hstopped.coherent⟩

/-- At a later exit the register is as it was. -/
theorem arrive_next (hruns : s.guest.runs ≠ 0)
    (hs : s.guest.Coherent s.host.toPlatform host controls value) :
    arrive.Ends s (fun _ t => Stopped host controls value s t) (fun _ _ => True) fun _ _ => True :=
  Ends.mono (arrive_arrives (by decide) hruns hscript)
    (fun _ _ h => h.stopped List.mem_cons_self hruns hs) (fun _ _ h => h) fun _ _ h => h

end Hypervisor.Session
