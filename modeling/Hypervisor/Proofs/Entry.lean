import Hypervisor.Proofs.Aloof
import Hypervisor.Proofs.Memory.References
import Hypervisor.Proofs.Vmcs.Controls

/-!
# The way to an entry

When a guest is entered, its own control block is current on the cpu, and the block selects the
translation that it was given on the first run.  The first run programs the block, and nothing that
follows touches the controls in question.
-/

namespace Hypervisor

/-- The guest writes no field that decides how its memory is translated, as no guest can. -/
def ScriptedExit.Honest (e : ScriptedExit) : Prop := ∀ w ∈ e.fields, w.1 ∉ Field.translating

theorem Cpu.hostState_not_translating (c : Cpu) : ∀ w ∈ c.hostState, w.1 ∉ Field.translating := by
  simp [hostState, Field.translating]

structure Host.Switches (h : Host) (p : Hpa) (h' : Host) : Prop where
  processor : ∃ fs c,
    h'.cpu.processor = { h.cpu.processor with faults := fs, current := c }
  others : ∀ q, q ≠ p → h'.blocks.block q = h.blocks.block q
  fields : (h'.blocks.block p).fields = (h.blocks.block p).fields

theorem Host.switches_of_blocks {h h' : Host} {fs : List InjectedFault} {c : Option Hpa} (p : Hpa)
    (hcpu : h'.cpu.processor = { h.cpu.processor with faults := fs, current := c })
    (hblocks : h'.blocks = h.blocks) : h.Switches p h' := by
  refine ⟨⟨fs, c, hcpu⟩, fun q _ => ?_, ?_⟩
  · rw [hblocks]
  · rw [hblocks]

theorem Host.switches_of_launched {h h' : Host} {fs : List InjectedFault} {c : Option Hpa} {p : Hpa}
    (hcpu : h'.cpu.processor = { h.cpu.processor with faults := fs, current := c })
    (hblocks : h'.blocks = h.blocks.update p fun b => { b with launched := false }) :
    h.Switches p h' := by
  refine ⟨⟨fs, c, hcpu⟩, fun q hq => ?_, ?_⟩
  · rw [hblocks, ControlBlocks.block_update_of_ne _ _ (Ne.symm hq)]
  · rw [hblocks, ControlBlocks.block_update]

namespace Session

open Hypervisor.Action

structure Within (s₀ s : Session) : Prop where
  same : s₀.guest.Same s.guest
  msrs : s.host.cpu.processor.msrs = s₀.host.cpu.processor.msrs
  honest : ∀ e ∈ s.host.cpu.processor.script, e.Honest
  others : ∀ p, p ≠ s₀.guest.block → s.host.blocks.block p = s₀.host.blocks.block p

/-- The guest of `s₀`, once it has run, has a block that selects its table. -/
structure Kept (s₀ : Session) (ept : Bool) (s : Session) : Prop extends Within s₀ s where
  programmed : s.guest.runs ≠ 0 →
    (s.host.blocks.block s₀.guest.block).Programmed s₀.guest.table ept
  counted : s₀.guest.runs ≠ 0 → s.guest.runs ≠ 0

structure Entered (s₀ : Session) (ept : Bool) (s : Session) : Prop extends Within s₀ s where
  runs : s.guest.runs ≠ 0
  current : s.host.cpu.processor.current = some s₀.guest.block
  programmed : (s.host.blocks.block s₀.guest.block).Programmed s₀.guest.table ept

/-- No guest was entered since `s₀`. -/
structure Unentered (s₀ s : Session) : Prop where
  launches : s.host.cpu.processor.launches = s₀.host.cpu.processor.launches
  resumes : s.host.cpu.processor.resumes = s₀.host.cpu.processor.resumes

/-- Nothing but the capabilities of the processor can keep the guest from being entered. -/
structure Clean (s : Session) : Prop where
  faultless : s.host.cpu.processor.faults = []
  owner : s.host.cpu.current = none ∨ s.host.cpu.current = some s.guest.block
  root : s.guest.table.root ≠ none
  live : ∀ a ∈ [s.guest.ioBitmapA, s.guest.hostMsrArea, s.guest.guestMsrArea],
    a.pageDown ∈ s.host.memory.pages

variable {s₀ s t : Session} {ept : Bool}

theorem Entered.kept (h : Entered s₀ ept s) : Kept s₀ ept s :=
  ⟨h.toWithin, fun _ => h.programmed, fun _ => h.runs⟩

theorem Unentered.refl (s : Session) : Unentered s s := ⟨rfl, rfl⟩

theorem Entered.memory (m : Memory) (h : Entered s₀ ept s) :
    Entered s₀ ept { s with host := { s.host with memory := m } } :=
  ⟨⟨h.same, h.msrs, h.honest, h.others⟩, h.runs, h.current, h.programmed⟩

theorem Kept.switched {h : Host} (hk : Kept s₀ ept s) (hs : s.host.Switches s₀.guest.block h) :
    Kept s₀ ept { s with host := h } := by
  obtain ⟨fs, c, hcpu⟩ := hs.processor
  refine ⟨⟨hk.same, ?_, ?_, ?_⟩, ?_, hk.counted⟩
  · rw [hcpu]
    exact hk.msrs
  · rw [hcpu]
    exact hk.honest
  · intro q hq
    rw [hs.others q hq]
    exact hk.others q hq
  · intro hruns
    exact (ControlBlock.sameTranslation_of_fields hs.fields).programmed (hk.programmed hruns)

theorem Unentered.switched {h : Host} {p : Hpa} (hu : Unentered s₀ s) (hs : s.host.Switches p h) :
    Unentered s₀ { s with host := h } := by
  obtain ⟨fs, c, hcpu⟩ := hs.processor
  refine ⟨?_, ?_⟩
  · rw [hcpu]
    exact hu.launches
  · rw [hcpu]
    exact hu.resumes

theorem Entered.withBlock {p : Hpa} {f : ControlBlock → ControlBlock} (h : Entered s₀ ept s)
    (hp : s.host.cpu.processor.current = some p)
    (hsame : (s.host.blocks.block p).SameTranslation (f (s.host.blocks.block p))) :
    Entered s₀ ept (s.withBlock p f) := by
  obtain rfl : p = s₀.guest.block := Option.some.inj (hp.symm.trans h.current)
  refine ⟨⟨h.same, h.msrs, h.honest, fun q hq => ?_⟩, h.runs, h.current, ?_⟩
  · exact (ControlBlocks.block_update_of_ne _ f (Ne.symm hq)).trans (h.others q hq)
  · show ((s.host.blocks.update s₀.guest.block f).block s₀.guest.block).Programmed _ _
    rw [ControlBlocks.block_update]
    exact hsame.programmed h.programmed

theorem entered_aloof (s₀ : Session) (ept : Bool) :
    Aloof s₀.guest (Entered s₀ ept) fun _ _ => True where
  same := fun h => h.same
  memory := fun m h => h.memory m
  log := fun _ h => ⟨⟨h.same, h.msrs, h.honest, h.others⟩, h.runs, h.current, h.programmed⟩
  kernel := fun _ h => ⟨⟨h.same, h.msrs, h.honest, h.others⟩, h.runs, h.current, h.programmed⟩
  spent := fun _ _ h => ⟨⟨h.same, h.msrs, h.honest, h.others⟩, h.runs, h.current, h.programmed⟩
  context := fun _ h => ⟨⟨h.same, h.msrs, h.honest, h.others⟩, h.runs, h.current, h.programmed⟩
  devices := fun _ _ h => ⟨⟨h.same.trans ⟨rfl, rfl, rfl, rfl, rfl, rfl⟩, h.msrs, h.honest, h.others⟩,
    h.runs, h.current, h.programmed⟩
  panic := fun _ _ _ => trivial

theorem entered_alert (s₀ : Session) (ept : Bool) :
    Alert s₀.guest (Entered s₀ ept) fun _ _ => True :=
  (entered_aloof s₀ ept).alert
    (fun w hp h => h.withBlock hp (ControlBlock.sameTranslation_write w (by decide)))
    (fun w hp h => h.withBlock hp (ControlBlock.sameTranslation_write w (by decide)))
    fun on hp h => h.withBlock hp
      (ControlBlock.sameTranslation_primary (ProcBased.withWindow_and_secondary on _))

structure Waiting (s₀ : Session) (ept : Bool) (n : Nat) (s : Session) : Prop extends
    Kept s₀ ept s, Unentered s₀ s where
  runs : s.guest.runs = n
  faultless : s₀.host.cpu.processor.faults = [] → s.host.cpu.processor.faults = []
  live : ∀ p ∈ s₀.host.memory.pages, p ∈ s.host.memory.pages

/-- On its way to the entry, the guest has its block current. -/
structure Approaching (s₀ : Session) (ept : Bool) (n : Nat) (s : Session) : Prop extends
    Waiting s₀ ept n s where
  current : s.host.cpu.processor.current = some s₀.guest.block

/-- The guest was not entered, and could not have been for more than its processor. -/
structure Stuck (s₀ : Session) (ept : Bool) (s : Session) : Prop extends
    Kept s₀ ept s, Unentered s₀ s where
  unclean : ¬ s₀.Clean

namespace Waiting

variable {n : Nat}

theorem stuck (ha : Waiting s₀ ept n s) (h : ¬ s₀.Clean) : Stuck s₀ ept s :=
  ⟨ha.toKept, ha.toUnentered, h⟩

theorem unclean_of_faults (ha : Waiting s₀ ept n s) (h : s.host.cpu.processor.faults ≠ []) :
    ¬ s₀.Clean :=
  fun hclean => h (ha.faultless hclean.faultless)

theorem switched (ha : Waiting s₀ ept n s) {h : Host} (hs : s.host.Switches s₀.guest.block h)
    (hmemory : h.memory = s.host.memory)
    (hfaults : s.host.cpu.processor.faults = [] → h.cpu.processor.faults = []) :
    Waiting s₀ ept n { s with host := h } := by
  refine ⟨ha.toKept.switched hs, ha.toUnentered.switched hs, ha.runs, ?_, ?_⟩
  · exact fun h0 => hfaults (ha.faultless h0)
  · rw [hmemory]
    exact ha.live

theorem spent (ha : Waiting s₀ ept n s) (p : Primitive) (f : Option Field) :
    Waiting s₀ ept n { s with host := s.host.spent p f } :=
  ha.switched (Host.switches_of_blocks _ rfl rfl) rfl fun h0 => Processor.faultless_spent h0 _ _

theorem struck (ha : Waiting s₀ ept n s) {x : InjectedFault} (hx : x ∈ s.host.cpu.processor.faults)
    (p : Primitive) (f : Option Field) : Stuck s₀ ept { s with host := s.host.spent p f } :=
  (ha.spent p f).stuck (ha.unclean_of_faults (List.ne_nil_of_mem hx))

theorem clearedHost (ha : Waiting s₀ ept n s) :
    Waiting s₀ ept n { s with host := s.cleared.host } := by
  refine ha.switched (Host.switches_of_launched rfl ?_) rfl fun h0 => Processor.faultless_spent h0 _ _
  rw [← ha.same.block]
  rfl

theorem cleared (ha : Waiting s₀ ept n s) : Waiting s₀ ept n s.cleared :=
  have hc := ha.clearedHost
  ⟨⟨⟨hc.same.trans ⟨rfl, rfl, rfl, rfl, rfl, rfl⟩, hc.msrs, hc.honest, hc.others⟩, hc.programmed,
    hc.counted⟩, ⟨hc.launches, hc.resumes⟩, hc.runs, hc.faultless, hc.live⟩

theorem loaded (ha : Waiting s₀ ept n s) : Approaching s₀ ept n s.loaded :=
  ⟨ha.switched (Host.switches_of_blocks _ rfl rfl) rfl fun h0 => Processor.faultless_spent h0 _ _,
    congrArg some ha.same.block⟩

end Waiting

namespace Approaching

variable {n : Nat}

theorem revises {h : Host} (ha : Approaching s₀ ept n s) (hr : s.host.Revises s₀.guest.block h)
    (hprogrammed : s.guest.runs ≠ 0 →
      (h.blocks.block s₀.guest.block).Programmed s₀.guest.table ept) :
    Approaching s₀ ept n { s with host := h } := by
  obtain ⟨fs, hcpu⟩ := hr.processor
  have hproc : h.cpu.processor = { s.host.cpu.processor with faults := fs } := by rw [hcpu]
  refine ⟨⟨⟨⟨ha.same, ?_, ?_, ?_⟩, hprogrammed, ha.counted⟩, ⟨?_, ?_⟩, ha.runs, ?_, ?_⟩, ?_⟩
  · rw [hproc]
    exact ha.msrs
  · rw [hproc]
    exact ha.honest
  · intro q hq
    rw [hr.others q hq]
    exact ha.others q hq
  · rw [hproc]
    exact ha.launches
  · rw [hproc]
    exact ha.resumes
  · exact fun h0 => hr.faultless (ha.faultless h0)
  · intro p hp
    rw [hr.memory]
    exact ha.live p hp
  · rw [hproc]
    exact ha.current

theorem revises_same {h : Host} (ha : Approaching s₀ ept n s)
    (hr : s.host.Revises s₀.guest.block h)
    (hsame : (s.host.blocks.block s₀.guest.block).SameTranslation (h.blocks.block s₀.guest.block)) :
    Approaching s₀ ept n { s with host := h } :=
  ha.revises hr fun hruns => hsame.programmed (ha.programmed hruns)

theorem vmwriteAll {writes : List (Field × UInt64)} (ha : Approaching s₀ ept n s)
    (hw : ∀ w ∈ writes, w.1 ∉ Field.translating) :
    (onHost (Host.vmwriteAll writes)).Ends s (fun _ t => Approaching s₀ ept n t)
      (fun _ t => Stuck s₀ ept t) fun _ _ => ¬ s₀.Clean := by
  rw [onHost, ends_onPart]
  refine Host.vmwriteAll_revises ha.current (fun h hr hblock => ?_)
    fun e h done hr hdone hblock hf => ?_
  · refine ha.revises_same hr ?_
    rw [hblock]
    exact ControlBlock.sameTranslation_writeAll hw
  · refine (ha.revises_same hr ?_).stuck (ha.unclean_of_faults hf)
    rw [hblock]
    exact ControlBlock.sameTranslation_writeAll fun w hmem => hw w (hdone.subset hmem)

theorem vmwrite {f : Field} {w : UInt64} (ha : Approaching s₀ ept n s)
    (hf : f ∉ Field.translating) :
    (onHost (Host.vmwrite f w)).Ends s (fun _ t => Approaching s₀ ept n t)
      (fun _ t => Stuck s₀ ept t) fun _ _ => ¬ s₀.Clean := by
  rw [onHost, ends_onPart]
  refine Host.vmwrite_revises ha.current (fun h hr hblock => ?_) fun e h hr hblock hfault => ?_
  · refine ha.revises_same hr ?_
    rw [hblock]
    exact ControlBlock.sameTranslation_write w hf
  · refine (ha.revises_same hr ?_).stuck (ha.unclean_of_faults hfault)
    rw [hblock]
    exact .refl _

theorem editPage {a : Hpa} {f : PageWords → PageWords} (ha : Approaching s₀ ept n s)
    (hlive : s₀.Clean → a.pageDown ∈ s₀.host.memory.pages) :
    (onMemory (Memory.editPage a f)).Ends s (fun _ t => Approaching s₀ ept n t)
      (fun _ t => Stuck s₀ ept t) fun _ _ => ¬ s₀.Clean := by
  simp only [onMemory, onPlatform, onHost, Host.onPlatform, Platform.onMemory, ends_onPart]
  refine Memory.editPage_ends (fun _ => ?_) fun _ hfree hclean => hfree (ha.live _ (hlive hclean))
  refine ⟨⟨⟨⟨ha.same, ha.msrs, ha.honest, ha.others⟩, ha.programmed, ha.counted⟩, ⟨ha.launches, ha.resumes⟩,
    ha.runs, ha.faultless, fun p hp => ?_⟩, ha.current⟩
  exact (Memory.mem_edited f).2 (ha.live p hp)

theorem guest {g : Guest} (ha : Approaching s₀ ept n s) (hsame : s.guest.Same g)
    (hruns : s.guest.runs ≤ g.runs)
    (hprogrammed : g.runs ≠ 0 →
      (s.host.blocks.block s₀.guest.block).Programmed s₀.guest.table ept) :
    Approaching s₀ ept g.runs { s with guest := g } :=
  ⟨⟨⟨⟨ha.same.trans hsame, ha.msrs, ha.honest, ha.others⟩, hprogrammed,
    fun h0 => Nat.pos_iff_ne_zero.1 ((Nat.pos_of_ne_zero (ha.counted h0)).trans_le hruns)⟩,
    ⟨ha.launches, ha.resumes⟩, rfl, ha.faultless, ha.live⟩, ha.current⟩

theorem count (ha : Approaching s₀ ept n s)
    (hprogrammed : (s.host.blocks.block s₀.guest.block).Programmed s₀.guest.table ept)
    {cpu : Option Nat} :
    Approaching s₀ ept (n + 1)
      { s with guest := { s.guest with lastCpu := cpu, runs := s.guest.runs + 1 } } := by
  have hguest := ha.guest (g := { s.guest with lastCpu := cpu, runs := s.guest.runs + 1 })
    ⟨rfl, rfl, rfl, rfl, rfl, rfl⟩ (Nat.le_succ _) fun _ => hprogrammed
  exact ha.runs ▸ hguest

theorem entered (ha : Approaching s₀ ept (n + 1) s) : Entered s₀ ept s := by
  have hruns : s.guest.runs ≠ 0 := by
    rw [ha.runs]
    exact Nat.succ_ne_zero n
  exact ⟨ha.toWithin, hruns, ha.current, ha.programmed hruns⟩

theorem said (ha : Approaching s₀ ept n s) (l : Array LogLine) :
    Approaching s₀ ept n { s with host := { s.host with log := l } } :=
  ⟨⟨⟨⟨ha.same, ha.msrs, ha.honest, ha.others⟩, ha.programmed, ha.counted⟩, ⟨ha.launches, ha.resumes⟩,
    ha.runs, ha.faultless, ha.live⟩, ha.current⟩

end Approaching

theorem initHostState_ends {n : Nat} (ha : Approaching s₀ ept n s) :
    (onHost Host.initHostState).Ends s (fun _ t => Approaching s₀ ept n t)
      (fun _ t => Stuck s₀ ept t) fun _ _ => ¬ s₀.Clean := by
  have hwrites := ha.vmwriteAll s.host.cpu.hostState_not_translating
  rw [onHost, ends_onPart] at hwrites ⊢
  rw [Host.initHostState, ends_bind, ends_get]
  exact hwrites

theorem initGuestState_ends {n : Nat} (ha : Approaching s₀ ept n s) :
    (onHost Host.initGuestState).Ends s (fun _ t => Approaching s₀ ept n t)
      (fun _ t => Stuck s₀ ept t) fun _ _ => ¬ s₀.Clean := by
  have hfields : ∀ w ∈ Guest.initialState, w.1 ∉ Field.translating := by
    simp [Guest.initialState, Guest.dataSegment, Field.translating]
  rw [Host.initGuestState]
  exact ha.vmwriteAll hfields

theorem unclean_of_foreign {p : Hpa} (hp : s.host.cpu.current = some p) (hne : p ≠ s.guest.block) :
    ¬ s.Clean := by
  intro hclean
  rcases hclean.owner with hnone | hown
  · exact absurd (hnone.symm.trans hp).symm (Option.some_ne_none p)
  · exact hne (Option.some.inj (hp.symm.trans hown))

theorem Kept.waiting (h₀ : Kept s₀ ept s₀) : Waiting s₀ ept s₀.guest.runs s₀ :=
  ⟨h₀, .refl s₀, rfl, id, fun _ hp => hp⟩

theorem load_approaches (h₀ : Kept s₀ ept s₀) :
    load.Ends s₀ (fun _ t => Approaching s₀ ept s₀.guest.runs t) (fun _ t => Stuck s₀ ept t)
      fun _ _ => ¬ s₀.Clean :=
  load_ends (fun _ => h₀.waiting.loaded)
    (fun _ hp hne => h₀.waiting.stuck (unclean_of_foreign hp hne))
    fun _ hx => h₀.waiting.struck hx _ _

theorem activate_approaches (h₀ : Kept s₀ ept s₀) :
    activate.Ends s₀ (fun _ t => Approaching s₀ ept s₀.guest.runs t) (fun _ t => Stuck s₀ ept t)
      fun _ _ => ¬ s₀.Clean :=
  activate_ends (fun _ => h₀.waiting.cleared.loaded)
    (fun _ hp hne => h₀.waiting.stuck (unclean_of_foreign hp hne))
    (fun _ hx => h₀.waiting.struck hx _ _) fun _ hx => h₀.waiting.clearedHost.struck hx _ _

theorem setupBitmaps_ends {n : Nat} (ha : Approaching s₀ ept n s) :
    setupBitmaps.Ends s (fun _ t => Approaching s₀ ept n t) (fun _ t => Stuck s₀ ept t)
      fun _ _ => ¬ s₀.Clean := by
  have hedit : ∀ (port : UInt16) (t : Session), port < 0x8000 → Approaching s₀ ept n t →
      (onMemory (s.guest.interceptPort port)).Ends t (fun _ t => Approaching s₀ ept n t)
        (fun _ t => Stuck s₀ ept t) fun _ _ => ¬ s₀.Clean := by
    intro port t hport ht
    refine ht.editPage fun hclean => ?_
    rw [Guest.bitmapPage, if_pos hport, ha.same.ioBitmapA]
    exact hclean.live _ (by simp)
  have hlast : ∀ t, Approaching s₀ ept n t →
      (onMemory (s.guest.interceptPort (rtcPort + 1) >>= fun _ => pure ())).Ends t
        (fun _ t => Approaching s₀ ept n t) (fun _ t => Stuck s₀ ept t) fun _ _ => ¬ s₀.Clean := by
    intro t ht
    rw [onMemory_ends_bind]
    exact Ends.mono (hedit (rtcPort + 1) t (by decide) ht) (fun _ _ h => h) (fun _ _ h => h)
      fun _ _ h => h
  rw [setupBitmaps, ends_bind, ends_get]
  refine onMemory_ends_bind.2 ?_
  exact Ends.mono (hedit rtcPort s (by decide) ha) (fun _ t ht => hlast t ht) (fun _ _ h => h)
    fun _ _ h => h

theorem setupMsrs_ends {n : Nat} (ha : Approaching s₀ ept n s) :
    setupMsrs.Ends s (fun _ t => Approaching s₀ ept n t) (fun _ t => Stuck s₀ ept t)
      fun _ _ => ¬ s₀.Clean := by
  have hcount : Approaching s₀ ept n
      { s with guest := { s.guest with msrCount := switchedMsrs.length } } := by
    have hguest := ha.guest (g := { s.guest with msrCount := switchedMsrs.length })
      ⟨rfl, rfl, rfl, rfl, rfl, rfl⟩ le_rfl ha.programmed
    exact ha.runs ▸ hguest
  rw [setupMsrs, ends_bind, onGuest, ends_modify, ends_bind, ends_get]
  refine onMemory_ends_bind.2 ?_
  refine Ends.mono (hcount.editPage fun hclean => ?_) (fun _ t ht => ?_) (fun _ _ h => h)
    fun _ _ h => h
  · rw [hcount.same.hostMsrArea]
    exact hclean.live _ (by simp)
  · refine ht.editPage fun hclean => ?_
    rw [hcount.same.guestMsrArea]
    exact hclean.live _ (by simp)

/-- The first run succeeds on a processor with secondary controls and fails on any other, unless
something else is in the way. -/
theorem prepareFirstRun_ends (h₀ : Kept s₀ ept s₀) (hruns : s₀.guest.runs = 0)
    (hept : ept = s₀.capabilities.hasEpt) :
    prepareFirstRun.Ends s₀
      (fun _ t => Approaching s₀ ept 0 t ∧ s₀.capabilities.hasSecondaryControls = true ∧
        (t.host.blocks.block s₀.guest.block).Programmed s₀.guest.table ept)
      (fun e t => Kept s₀ ept t ∧ Unentered s₀ t ∧
        (s₀.Clean → s₀.capabilities.hasSecondaryControls = false ∧ e = .eptUnsupported))
      fun _ _ => ¬ s₀.Clean := by
  have hstuck : ∀ (e : VmError) (t : Session), Stuck s₀ ept t → Kept s₀ ept t ∧ Unentered s₀ t ∧
      (s₀.Clean → s₀.capabilities.hasSecondaryControls = false ∧ e = .eptUnsupported) :=
    fun e t h => ⟨h.toKept, h.toUnentered, fun hclean => absurd hclean h.unclean⟩
  have hactivate := activate_approaches h₀
  rw [hruns] at hactivate
  rw [prepareFirstRun, ends_bind]
  refine Ends.mono hactivate (fun _ s₁ a₁ => ?_) hstuck fun _ _ h => h
  rw [ends_bind]
  refine Ends.mono (initHostState_ends a₁) (fun _ s₂ a₂ => ?_) hstuck fun _ _ h => h
  rw [ends_bind]
  refine Ends.mono (initGuestState_ends a₂) (fun _ s₃ a₃ => ?_) hstuck fun _ _ h => h
  rw [ends_bind]
  refine Ends.mono (setupBitmaps_ends a₃) (fun _ s₄ a₄ => ?_) hstuck fun _ _ h => h
  rw [ends_bind]
  refine Ends.mono (setupMsrs_ends a₄) (fun _ s₅ a₅ => ?_) hstuck fun _ _ h => h
  have hcaps : s₅.capabilities = s₀.capabilities := Cpu.capabilities_congr a₅.msrs
  have hnever : s₅.guest.runs ≠ 0 → False := fun h => h a₅.runs
  have hblock := a₅.same.block
  refine configureControls_ends (by rw [hblock]; exact a₅.current) ?_ ?_
  · intro h hr hsecondary hprogrammed
    rw [hblock] at hr
    rw [hblock, a₅.same.table, hcaps, ← hept] at hprogrammed
    rw [hcaps] at hsecondary
    exact ⟨a₅.revises hr fun h => (hnever h).elim, hsecondary, hprogrammed⟩
  · intro e h hr hwhy
    rw [hblock] at hr
    rw [a₅.same.table, hcaps] at hwhy
    have ha := a₅.revises hr fun h => (hnever h).elim
    exact ⟨ha.toKept, ha.toUnentered, fun hclean => hwhy (a₅.faultless hclean.faultless) hclean.root⟩

theorem loadContext_ends {n : Nat} (ha : Approaching s₀ ept n s) :
    loadContext.Ends s (fun _ t => Approaching s₀ ept n t) (fun _ t => Stuck s₀ ept t)
      fun _ _ => ¬ s₀.Clean := by
  rw [loadContext, ends_bind, ends_get, ends_bind]
  refine Ends.mono (ha.vmwrite (by decide)) (fun _ t ht => ?_) (fun _ _ h => h) fun _ _ h => h
  exact ht.vmwrite (by decide)

theorem prepareNextRun_ends (h₀ : Kept s₀ ept s₀) :
    prepareNextRun.Ends s₀ (fun _ t => Approaching s₀ ept s₀.guest.runs t)
      (fun _ t => Stuck s₀ ept t) fun _ _ => ¬ s₀.Clean := by
  rw [prepareNextRun, ends_bind]
  refine Ends.mono (load_approaches h₀) (fun _ s₁ a₁ => ?_) (fun _ _ h => h) fun _ _ h => h
  rw [ends_bind, ends_get]
  split
  · exact a₁
  · rw [ends_bind]
    exact initHostState_ends (a₁.said _)

theorem prepareRun_ends (h₀ : Kept s₀ ept s₀)
    (hept : s₀.guest.runs = 0 → ept = s₀.capabilities.hasEpt) :
    prepareRun.Ends s₀
      (fun _ t => Approaching s₀ ept (s₀.guest.runs + 1) t ∧
        (s₀.guest.runs = 0 → s₀.capabilities.hasSecondaryControls = true))
      (fun e t => Kept s₀ ept t ∧ Unentered s₀ t ∧
        (s₀.Clean → s₀.guest.runs = 0 ∧ s₀.capabilities.hasSecondaryControls = false ∧
          e = .eptUnsupported))
      fun _ _ => ¬ s₀.Clean := by
  refine prepareRun_ends_of (fun hruns => ?_) fun hruns => ?_
  · refine Ends.mono (prepareFirstRun_ends h₀ hruns (hept hruns)) ?_ ?_ fun _ _ h => h
    · rintro _ t ⟨ha, hsecondary, hprogrammed⟩
      refine ⟨?_, fun _ => hsecondary⟩
      rw [hruns]
      exact ha.count hprogrammed
    · exact fun e t h => ⟨h.1, h.2.1, fun hclean => ⟨hruns, h.2.2 hclean⟩⟩
  · refine Ends.mono (prepareNextRun_ends h₀) ?_ ?_ fun _ _ h => h
    · intro _ t ha
      refine ⟨ha.count (ha.programmed ?_), fun h => absurd h hruns⟩
      rw [ha.runs]
      exact hruns
    · exact fun e t h => ⟨h.toKept, h.toUnentered, fun hclean => absurd hclean h.unclean⟩

/-- What a run does up to the instruction that enters the guest. -/
theorem approach_ends (h₀ : Kept s₀ ept s₀)
    (hept : s₀.guest.runs = 0 → ept = s₀.capabilities.hasEpt) :
    approach.Ends s₀
      (fun _ t => Entered s₀ ept t ∧ Unentered s₀ t ∧
        (s₀.guest.runs = 0 → s₀.capabilities.hasSecondaryControls = true))
      (fun e t => Kept s₀ ept t ∧ Unentered s₀ t ∧
        (s₀.Clean → s₀.guest.runs = 0 ∧ s₀.capabilities.hasSecondaryControls = false ∧
          e = .eptUnsupported))
      fun _ _ => ¬ s₀.Clean := by
  rw [approach, ends_bind]
  refine Ends.mono (prepareRun_ends h₀ hept) ?_ (fun _ _ h => h) fun _ _ h => h
  rintro _ t ⟨ha, hsecondary⟩
  refine Ends.mono (loadContext_ends ha) ?_ ?_ fun _ _ h => h
  · intro _ u hu
    exact ⟨hu.entered, hu.toUnentered, hsecondary⟩
  · exact fun e u h => ⟨h.toKept, h.toUnentered, fun hclean => absurd hclean h.unclean⟩

end Session

end Hypervisor
