import Hypervisor.Proofs.Aloof
import Hypervisor.Proofs.Vmcs.HostState

/-!
# Where a guest is at home

The state of the host is written into the control block on the first run of a guest, and again when the
guest runs on another cpu than the last time.  In between, the block keeps the state of the cpu on which
the guest ran last, whatever becomes of the guest.
-/

namespace Hypervisor

/-- The cpu is still `c₀`.  It takes the state of the host whenever it is written, and no exit in its
script writes any of it. -/
structure Cpu.Remains (c₀ c : Cpu) : Prop where
  id : c.id = c₀.id
  segments : c.segments = c₀.segments
  receptive : c.processor.Receptive
  discreet : ∀ e ∈ c.processor.script, e.Discreet

theorem Cpu.Remains.spent {c₀ : Cpu} {h : Host} (hc : c₀.Remains h.cpu) (p : Primitive)
    (f : Option Field) : c₀.Remains (h.spent p f).cpu :=
  ⟨hc.id, hc.segments, hc.receptive.spent p f, hc.discreet⟩

namespace Session

open Hypervisor.Action ControlBlock

/-- What running the guest of `s₀` leaves alone. -/
structure Around (s₀ s : Session) : Prop where
  same : s₀.guest.Same s.guest
  cpu : s₀.host.cpu.Remains s.host.cpu
  others : ∀ p, p ≠ s₀.guest.block → s.host.blocks.block p = s₀.host.blocks.block p

/-- The guest of `s₀` has its block current on the cpu.  It has run so often, on this cpu last, and the
block is as `B` says. -/
structure Boarded (s₀ : Session) (runs : Nat) (last : Option Nat) (B : ControlBlock → Prop)
    (s : Session) : Prop extends Around s₀ s where
  current : s.host.cpu.processor.current = some s₀.guest.block
  runs : s.guest.runs = runs
  last : s.guest.lastCpu = last
  block : B (s.host.blocks.block s₀.guest.block)

/-- A guest that has run has a block that returns to the cpu on which it ran last: it is as in `s₀`, or
it has got the state of this cpu since. -/
structure Resident (s₀ s : Session) : Prop extends Around s₀ s where
  home : s.guest.runs ≠ 0 →
    s₀.guest.runs ≠ 0 ∧ s.guest.lastCpu = s₀.guest.lastCpu ∧
      Agree Field.returning (s₀.host.blocks.block s₀.guest.block)
        (s.host.blocks.block s₀.guest.block) ∨
    s.guest.lastCpu = some s₀.host.cpu.id ∧
      (s.host.blocks.block s₀.guest.block).ReturnsTo s₀.host.cpu

def Familiar (s : Session) : Prop :=
  s.guest.runs ≠ 0 → s.guest.lastCpu = some s.host.cpu.id →
    (s.host.blocks.block s.guest.block).ReturnsTo s.host.cpu

variable {s₀ s t : Session} {n : Nat} {last : Option Nat} {B : ControlBlock → Prop}

theorem Around.withHost {h : Host} (hs : Around s₀ s) (hcpu : s₀.host.cpu.Remains h.cpu)
    (hblocks : ∀ p, p ≠ s₀.guest.block → h.blocks.block p = s.host.blocks.block p) :
    Around s₀ { s with host := h } :=
  ⟨hs.same, hcpu, fun p hp => (hblocks p hp).trans (hs.others p hp)⟩

theorem boarded_aloof (s₀ : Session) (n : Nat) (last : Option Nat) (B : ControlBlock → Prop) :
    Aloof s₀.guest (Boarded s₀ n last B) fun _ _ => True where
  same := fun h => h.same
  memory := fun _ h => ⟨⟨h.same, h.cpu, h.others⟩, h.current, h.runs, h.last, h.block⟩
  log := fun _ h => ⟨⟨h.same, h.cpu, h.others⟩, h.current, h.runs, h.last, h.block⟩
  kernel := fun _ h => ⟨⟨h.same, h.cpu, h.others⟩, h.current, h.runs, h.last, h.block⟩
  spent := fun p f h => ⟨⟨h.same, h.cpu.spent p f, h.others⟩, h.current, h.runs, h.last, h.block⟩
  context := fun _ h => ⟨⟨h.same, h.cpu, h.others⟩, h.current, h.runs, h.last, h.block⟩
  devices := fun _ _ h => ⟨⟨h.same.trans ⟨rfl, rfl, rfl, rfl, rfl, rfl⟩, h.cpu, h.others⟩, h.current,
    h.runs, h.last, h.block⟩
  panic := fun _ _ _ => trivial

theorem Boarded.withBlock {p : Hpa} {f : ControlBlock → ControlBlock} (h : Boarded s₀ n last B s)
    (hp : s.host.cpu.processor.current = some p) (hf : ∀ b, B b → B (f b)) :
    Boarded s₀ n last B (s.withBlock p f) := by
  obtain rfl : p = s₀.guest.block := Option.some.inj (hp.symm.trans h.current)
  refine ⟨h.toAround.withHost h.cpu fun q hq => ?_, h.current, h.runs, h.last, ?_⟩
  · exact ControlBlocks.block_update_of_ne _ f (Ne.symm hq)
  · show B ((s.host.blocks.update s₀.guest.block f).block s₀.guest.block)
    rw [ControlBlocks.block_update]
    exact hf _ h.block

theorem Boarded.write {p : Hpa} {f : Field} (w : UInt64)
    (h : Boarded s₀ n last (·.ReturnsTo s₀.host.cpu) s)
    (hp : s.host.cpu.processor.current = some p) (hf : f ∉ Field.returning) :
    Boarded s₀ n last (·.ReturnsTo s₀.host.cpu) (s.withBlock p fun b => b.write f w) :=
  h.withBlock hp fun _ hb => hb.of_agree (agree_write w hf)

theorem boarded_configurable (s₀ : Session) (n : Nat) (last : Option Nat) :
    Configurable s₀.guest Field.returning
      (Boarded s₀ n last (·.ReturnsTo s₀.host.cpu)) fun _ _ => True where
  toAlert := (boarded_aloof s₀ n last _).alert (fun w hp h => h.write w hp (by decide))
    (fun w hp h => h.write w hp (by decide)) fun on hp h =>
      h.withBlock hp fun _ hb => hb.of_agree (agree_write _ (by decide))
  write := fun _ w hf hp h => h.write w hp hf
  msrCount := fun _ h => ⟨⟨h.same.trans ⟨rfl, rfl, rfl, rfl, rfl, rfl⟩, h.cpu, h.others⟩, h.current,
    h.runs, h.last, h.block⟩
  bitmaps := (boarded_aloof s₀ n last _).onMemory _
  msrs := fun _ => (boarded_aloof s₀ n last _).onMemory _

theorem initHostState_boards (h : Boarded s₀ n last B s) :
    (onHost Host.initHostState).Ends s
      (fun _ t => Boarded s₀ n last (·.ReturnsTo s₀.host.cpu) t) (fun _ _ => False)
      fun _ _ => False := by
  rw [onHost, ends_onPart, Host.initHostState, ends_bind, ends_get]
  have hfits : ∀ x ∈ s.host.cpu.processor.faults, ∀ w ∈ s.host.cpu.hostState,
      ¬ x.fits .vmwrite (some w.1) :=
    fun x hx w hw => h.cpu.receptive x hx w.1 (s.host.cpu.hostState_host w hw)
  refine Host.vmwriteAll_passes hfits h.current fun h' hr hblock => ?_
  obtain ⟨fs, hcpu⟩ := hr.processor
  have hremains : s₀.host.cpu.Remains h'.cpu := by
    refine ⟨?_, ?_, h.cpu.receptive.mono hr.faults, ?_⟩
    · rw [hcpu]
      exact h.cpu.id
    · rw [hcpu]
      exact h.cpu.segments
    · rw [hcpu]
      exact h.cpu.discreet
  refine ⟨h.toAround.withHost hremains hr.others, hr.current.trans h.current, h.runs, h.last, ?_⟩
  show (h'.blocks.block s₀.guest.block).ReturnsTo _
  rw [hblock]
  exact (returnsTo_writeAll _ _).congr h.cpu.segments.symm

theorem Around.resident (h₀ : Around s₀ s₀) : Resident s₀ s₀ :=
  ⟨h₀, fun hruns => .inl ⟨hruns, rfl, .refl _ _⟩⟩

theorem Resident.withHost {h : Host} (hs : Resident s₀ s) (hcpu : s₀.host.cpu.Remains h.cpu)
    (hothers : ∀ p, p ≠ s₀.guest.block → h.blocks.block p = s.host.blocks.block p)
    (hfields : (h.blocks.block s₀.guest.block).fields =
      (s.host.blocks.block s₀.guest.block).fields) : Resident s₀ { s with host := h } := by
  have hagree : Agree Field.returning (s.host.blocks.block s₀.guest.block)
      (h.blocks.block s₀.guest.block) := agree_of_fields hfields
  refine ⟨hs.toAround.withHost hcpu hothers, fun hruns => ?_⟩
  rcases hs.home hruns with ⟨hran, hlast, hblock⟩ | ⟨hlast, hblock⟩
  · exact .inl ⟨hran, hlast, hblock.trans hagree⟩
  · exact .inr ⟨hlast, hblock.of_agree hagree⟩

theorem Resident.spent (hs : Resident s₀ s) (p : Primitive) (f : Option Field) :
    Resident s₀ { s with host := s.host.spent p f } :=
  hs.withHost (hs.cpu.spent p f) (fun _ _ => rfl) rfl

theorem Resident.cleared (hs : Resident s₀ s) :
    Resident s₀ { s with host := s.host.cleared s₀.guest.block } := by
  refine hs.withHost ?_ (fun q hq => s.host.block_cleared_of_ne hq) ?_
  · exact ⟨hs.cpu.id, hs.cpu.segments, hs.cpu.receptive, hs.cpu.discreet⟩
  · rw [Host.cleared, ControlBlocks.block_update]

theorem load_boards (h₀ : Around s₀ s₀) :
    load.Ends s₀
      (fun _ t => Boarded s₀ s₀.guest.runs s₀.guest.lastCpu
        (Agree Field.returning (s₀.host.blocks.block s₀.guest.block)) t)
      (fun _ t => Resident s₀ t) fun _ _ => True := by
  refine load_ends (fun _ => ?_) (fun _ _ _ => h₀.resident) fun _ _ => h₀.resident.spent _ _
  have hcpu := h₀.cpu.spent .vmptrld none
  exact ⟨⟨h₀.same, ⟨hcpu.id, hcpu.segments, hcpu.receptive, hcpu.discreet⟩, h₀.others⟩, rfl, rfl,
    rfl, .refl _ _⟩

theorem activate_boards (h₀ : Around s₀ s₀) :
    activate.Ends s₀
      (fun _ t => Boarded s₀ s₀.guest.runs s₀.guest.lastCpu
        (Agree Field.returning (s₀.host.blocks.block s₀.guest.block)) t)
      (fun _ t => Resident s₀ t) fun _ _ => True := by
  have hspent := h₀.resident.spent .vmclear none
  have hcleared := hspent.cleared
  refine activate_ends (fun _ => ?_) (fun _ _ _ => h₀.resident) (fun _ _ => hspent) fun _ _ =>
    hcleared.spent _ _
  have hcpu := hcleared.cpu.spent .vmptrld none
  refine ⟨⟨h₀.same.trans ⟨rfl, rfl, rfl, rfl, rfl, rfl⟩, ⟨hcpu.id, hcpu.segments, hcpu.receptive,
    hcpu.discreet⟩, hcleared.others⟩, rfl, rfl, rfl, agree_of_fields ?_⟩
  show ((s₀.host.cleared s₀.guest.block).blocks.block s₀.guest.block).fields = _
  rw [Host.cleared, ControlBlocks.block_update]

theorem Boarded.unrun (h : Boarded s₀ 0 last B s) : Resident s₀ s :=
  ⟨h.toAround, fun hruns => absurd h.runs hruns⟩

theorem Boarded.resident (h : Boarded s₀ n (some s₀.host.cpu.id) (·.ReturnsTo s₀.host.cpu) s) :
    Resident s₀ s :=
  ⟨h.toAround, fun _ => .inr ⟨h.last, h.block⟩⟩

theorem Boarded.visiting (h : Boarded s₀ s₀.guest.runs s₀.guest.lastCpu
    (Agree Field.returning (s₀.host.blocks.block s₀.guest.block)) s) : Resident s₀ s :=
  ⟨h.toAround, fun hruns => .inl ⟨h.runs ▸ hruns, h.last, h.block⟩⟩

theorem prepareFirstRun_boards (h₀ : Around s₀ s₀) (hruns : s₀.guest.runs = 0) :
    prepareFirstRun.Ends s₀
      (fun _ t => Boarded s₀ s₀.guest.runs s₀.guest.lastCpu (·.ReturnsTo s₀.host.cpu) t)
      (fun _ t => Resident s₀ t) fun _ _ => True := by
  rw [prepareFirstRun, ends_bind]
  refine Ends.mono (activate_boards h₀) (fun _ s hs => ?_) (fun _ _ h => h) fun _ _ h => h
  rw [ends_bind]
  refine Ends.mono (initHostState_boards hs) (fun _ t ht => ?_) (fun _ _ h => h.elim)
    fun _ _ h => h.elim
  have hprepare := (boarded_configurable s₀ s₀.guest.runs s₀.guest.lastCpu).prepareGuest
    Guest.initialState_not_returning (by decide)
  exact Ends.mono (hprepare t ht) (fun _ _ h => h) (fun _ _ h => (hruns ▸ h).unrun) fun _ _ h => h

theorem prepareNextRun_boards (h₀ : Around s₀ s₀) (hruns : s₀.guest.runs ≠ 0)
    (hhome : s₀.Familiar) :
    prepareNextRun.Ends s₀
      (fun _ t => Boarded s₀ s₀.guest.runs s₀.guest.lastCpu (·.ReturnsTo s₀.host.cpu) t)
      (fun _ t => Resident s₀ t) fun _ _ => True := by
  rw [prepareNextRun, ends_bind]
  refine Ends.mono (load_boards h₀) (fun _ s hs => ?_) (fun _ _ h => h) fun _ _ h => h
  rw [ends_bind, ends_get]
  split
  · rename_i hlast
    rw [hs.last, hs.cpu.id] at hlast
    exact ⟨hs.toAround, hs.current, hs.runs, hs.last, (hhome hruns hlast).of_agree hs.block⟩
  · have hsay : ∀ text, (onHost (Host.sayOnCpu .debug text)).Upholds
        (Boarded s₀ s₀.guest.runs s₀.guest.lastCpu
          (Agree Field.returning (s₀.host.blocks.block s₀.guest.block))) fun _ _ => True :=
      fun text => onHost_upholds fun t _ => ((boarded_aloof s₀ _ _ _).host t).sayOnCpu _ _
    rw [ends_bind]
    refine Ends.mono (hsay _ s hs) (fun _ t ht => ?_) (fun _ _ h => h.visiting) fun _ _ h => h
    exact Ends.mono (initHostState_boards ht) (fun _ _ h => h) (fun _ _ h => h.elim)
      fun _ _ h => h.elim

/-- Where the guest is entered, its block returns to this cpu. -/
theorem approach_boards (h₀ : Around s₀ s₀) (hhome : s₀.Familiar) :
    approach.Ends s₀
      (fun _ t => Boarded s₀ (s₀.guest.runs + 1) (some s₀.host.cpu.id)
        (·.ReturnsTo s₀.host.cpu) t)
      (fun _ t => Resident s₀ t) fun _ _ => True := by
  have hcount : ∀ {x : SessionM Unit}, (x.Ends s₀
      (fun _ t => Boarded s₀ s₀.guest.runs s₀.guest.lastCpu (·.ReturnsTo s₀.host.cpu) t)
      (fun _ t => Resident s₀ t) fun _ _ => True) → x.Ends s₀
        (fun _ t => Boarded s₀ (s₀.guest.runs + 1) (some s₀.host.cpu.id) (·.ReturnsTo s₀.host.cpu)
          t.ready)
        (fun _ t => Resident s₀ t) fun _ _ => True := by
    refine fun hx => Ends.mono hx (fun _ s hs => ?_) (fun _ _ h => h) fun _ _ h => h
    exact ⟨⟨hs.same.trans ⟨rfl, rfl, rfl, rfl, rfl, rfl⟩, hs.cpu, hs.others⟩, hs.current,
      congrArg (· + 1) hs.runs, congrArg some hs.cpu.id, hs.block⟩
  have hprepare : prepareRun.Ends s₀
      (fun _ t => Boarded s₀ (s₀.guest.runs + 1) (some s₀.host.cpu.id)
        (·.ReturnsTo s₀.host.cpu) t)
      (fun _ t => Resident s₀ t) fun _ _ => True :=
    prepareRun_ends_of (fun hruns => hcount (prepareFirstRun_boards h₀ hruns)) fun hruns =>
      hcount (prepareNextRun_boards h₀ hruns hhome)
  have hload := (boarded_configurable s₀ (s₀.guest.runs + 1) (some s₀.host.cpu.id)).loadContext
    (by decide) (by decide)
  rw [approach, ends_bind]
  refine Ends.mono hprepare (fun _ s hs => ?_) (fun _ _ h => h) fun _ _ h => h
  exact Ends.mono (hload s hs) (fun _ _ h => h) (fun _ _ h => h.resident) fun _ _ h => h

theorem launch_boards :
    launch.Upholds (Boarded s₀ n last (·.ReturnsTo s₀.host.cpu)) fun _ _ => True := by
  have haloof := boarded_aloof s₀ n last (·.ReturnsTo s₀.host.cpu)
  refine launch_upholds (fun launched s hs => ?_) haloof.context fun h =>
    ⟨⟨h.same.trans ⟨rfl, rfl, rfl, rfl, rfl, rfl⟩, h.cpu, h.others⟩, h.current, h.runs, h.last, h.block⟩
  have hplayed : ∀ e c launches resumes, (s.host.cpu.processor.spent .enter none).Plays e c →
      e.Discreet ∧ Boarded s₀ n last (·.ReturnsTo s₀.host.cpu) { s with
        host := s.host.withProcessor { c with launches := launches, resumes := resumes } } := by
    intro e c launches resumes hc
    have hcpu := hs.cpu.spent .enter none
    obtain ⟨he, hscript⟩ := hc.forall hcpu.discreet fun _ h => absurd h List.not_mem_nil
    rw [hc.eq]
    exact ⟨he, hs.toAround.withHost ⟨hcpu.id, hcpu.segments, hcpu.receptive, hscript⟩
      fun _ _ => rfl, hs.current, hs.runs, hs.last, hs.block⟩
  have hspent := haloof.spent .enter none hs
  rw [onHost, ends_onPart]
  refine Host.vmenter_ends (fun p e c hp _ hc => ?_) (fun _ => hspent) (fun _ _ _ => hspent)
    (fun p e c _ hc => ?_) fun _ _ => hspent
  · obtain ⟨launches, resumes, hcounted⟩ := c.exists_counted launched
    obtain ⟨he, hboarded⟩ := hplayed e c launches resumes hc
    have hcurrent := hboarded.current.trans (hs.current.symm.trans hp)
    rw [hcounted]
    exact hboarded.withBlock hcurrent fun b hb => hb.of_agree (agree_reported b he)
  · exact (hplayed e c c.launches c.resumes hc).2

theorem resident_calm (s₀ : Session) :
    Calm s₀.guest.table (Resident s₀) fun _ _ => True where
  table := fun h => h.same.table
  host := fun s =>
    { overflow := fun _ _ _ => trivial
      log := fun _ h => h.withHost (s := { s with host := _ }) h.cpu (fun _ _ => rfl) rfl
      kernel := fun _ h => h.withHost (s := { s with host := _ }) h.cpu (fun _ _ => rfl) rfl
      spent := fun p f h => h.spent p f }
  resolve := fun _ => onMemory_upholds (fun _ _ h => h.withHost h.cpu (fun _ _ => rfl) rfl)
    fun _ _ _ => trivial

theorem deactivate_resides : deactivate.Upholds (Resident s₀) fun _ _ => True := by
  intro s hs
  have hspent := hs.spent .vmclear none
  refine deactivate_ends ?_ fun _ _ => hspent
  have hcleared := hspent.cleared
  rw [← hs.same.block] at hcleared
  exact ⟨⟨hs.same.trans ⟨rfl, rfl, rfl, rfl, rfl, rfl⟩, ⟨hcleared.cpu.id, hcleared.cpu.segments,
    hcleared.cpu.receptive, hcleared.cpu.discreet⟩, hcleared.others⟩, hcleared.home⟩

def Resides {α : Type} (x : SessionM α) : Prop :=
  ∀ s₀, Around s₀ s₀ → s₀.Familiar →
    x.Ends s₀ (fun _ t => Resident s₀ t) (fun _ t => Resident s₀ t) fun _ _ => True

theorem run_resides : Resides Session.run := by
  intro s₀ h₀ hhome
  have hkernel : ∀ {s : Session} k, Resident s₀ s →
      Resident s₀ { s with host := { s.host with kernel := k } } :=
    fun _ h => h.withHost h.cpu (fun _ _ => rfl) rfl
  have honce : runOnce.Ends s₀ (fun _ t => Resident s₀ t) (fun _ t => Resident s₀ t)
      fun _ _ => True := by
    rw [runOnce_eq, ends_bind]
    refine Ends.mono (approach_boards h₀ hhome) (fun _ s hs => ?_) (fun _ _ h => h) fun _ _ h => h
    have hproceed := (boarded_configurable s₀ (s₀.guest.runs + 1) (some s₀.host.cpu.id)).toAlert.proceed
      launch_boards
    exact Ends.mono (hproceed s hs) (fun _ _ h => h.resident) (fun _ _ h => h.resident) fun _ _ h => h
  have hterminate : ∀ s, Resident s₀ s →
      terminate.Ends s (fun _ t => Resident s₀ t) (fun _ _ => False) fun _ _ => True :=
    fun s hs => (resident_calm s₀).terminate_ends deactivate_resides (fun _ h => hkernel _ h) hs
  refine Ends.mono ((resident_calm s₀).run_ends_of (fun _ _ h => h) (fun _ _ h => h) hterminate honce)
    ?_ ?_ fun _ _ h => h
  · rintro r t ⟨u, hu, ⟨-, rfl⟩ | ⟨-, w, hw, rfl⟩⟩
    · exact hkernel _ hu
    · exact hkernel _ hw
  · rintro e t ⟨u, hu, ⟨-, rfl⟩ | ⟨-, w, hw, rfl⟩⟩
    · exact hu
    · exact hkernel _ hw

theorem activate_resides : Resides activate := fun _ h₀ _ =>
  Ends.mono (activate_boards h₀) (fun _ _ h => h.visiting) (fun _ _ h => h) fun _ _ h => h

theorem load_resides : Resides load := fun _ h₀ _ =>
  Ends.mono (load_boards h₀) (fun _ _ h => h.visiting) (fun _ _ h => h) fun _ _ h => h

end Session

end Hypervisor
