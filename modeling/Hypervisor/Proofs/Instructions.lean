import Hypervisor.Host
import Hypervisor.Proofs.Outcome

/-!
# What the VMX instructions do

Each instruction first meets the injected faults, which wear off, and then does its work or finds
that it cannot.
-/

namespace Hypervisor

theorem Processor.rdmsr_congr {c c' : Processor} (h : c.msrs = c'.msrs) : c.rdmsr = c'.rdmsr := by
  funext msr
  rw [rdmsr, rdmsr, h]

namespace InjectedFault

variable {p : Primitive} {f : Option Field} {faults : List InjectedFault} {x : InjectedFault}

theorem exists_of_mem_strike (hx : x ∈ (strike p f faults).2) :
    ∃ y ∈ faults, y.fits = x.fits ∧ y.error = x.error := by
  induction faults with
  | nil => exact absurd hx List.not_mem_nil
  | cons y faults ih =>
      have hkept : ∀ {z : InjectedFault}, y.fits = z.fits ∧ y.error = z.error → x ∈ z :: faults →
          ∃ y' ∈ y :: faults, y'.fits = x.fits ∧ y'.error = x.error := by
        intro z hz hmem
        rcases List.mem_cons.1 hmem with rfl | hmem
        · exact ⟨y, List.mem_cons_self, hz⟩
        · exact ⟨x, List.mem_cons_of_mem y hmem, rfl, rfl⟩
      have hpassed : ∀ {z : InjectedFault}, y.fits = z.fits ∧ y.error = z.error →
          x ∈ z :: (strike p f faults).2 →
            ∃ y' ∈ y :: faults, y'.fits = x.fits ∧ y'.error = x.error := by
        intro z hz hmem
        rcases List.mem_cons.1 hmem with rfl | hmem
        · exact ⟨y, List.mem_cons_self, hz⟩
        · obtain ⟨y', hy', hfits⟩ := ih hmem
          exact ⟨y', List.mem_cons_of_mem y hy', hfits⟩
      simp only [strike] at hx
      split at hx
      · split at hx
        · exact hpassed ⟨by rfl, by rfl⟩ hx
        · split at hx
          · exact hkept ⟨by rfl, by rfl⟩ hx
          · exact hpassed ⟨by rfl, by rfl⟩ hx
          · exact hkept ⟨by rfl, by rfl⟩ hx
      · exact hpassed ⟨by rfl, by rfl⟩ hx

theorem exists_fits_of_mem_strike (hx : x ∈ (strike p f faults).2) :
    ∃ y ∈ faults, y.fits = x.fits := by
  obtain ⟨y, hy, hfits, -⟩ := exists_of_mem_strike hx
  exact ⟨y, hy, hfits⟩

theorem exists_of_strike {e : VmError} (he : (strike p f faults).1 = some e) :
    ∃ x ∈ faults, x.error = e := by
  induction faults with
  | nil => cases he
  | cons y faults ih =>
      have hpassed : (strike p f faults).1 = some e → ∃ x ∈ y :: faults, x.error = e := by
        intro hrest
        obtain ⟨x, hx, herror⟩ := ih hrest
        exact ⟨x, List.mem_cons_of_mem y hx, herror⟩
      simp only [strike] at he
      split at he
      · split at he
        · exact hpassed he
        · split at he
          · exact ⟨y, List.mem_cons_self, Option.some.inj he⟩
          · exact hpassed he
          · exact ⟨y, List.mem_cons_self, Option.some.inj he⟩
      · exact hpassed he

theorem strike_eq_none (h : ∀ y ∈ faults, ¬ y.fits p f) : (strike p f faults).1 = none := by
  induction faults with
  | nil => rfl
  | cons y faults ih =>
      rw [strike, if_neg (h y List.mem_cons_self)]
      exact ih fun y hy => h y (List.mem_cons_of_mem _ hy)

end InjectedFault

def Processor.spent (c : Processor) (p : Primitive) (f : Option Field) : Processor :=
  { c with faults := (InjectedFault.strike p f c.faults).2 }

theorem Processor.spent_of_faultless {c : Processor} (h : c.faults = []) (p : Primitive)
    (f : Option Field) : c.spent p f = c := by
  cases c
  cases h
  rfl

theorem Processor.forall_faults {c : Processor} {P : InjectedFault → Prop} (h : c.faults = []) :
    ∀ x ∈ c.faults, P x := by
  rw [h]
  exact List.forall_mem_nil P

theorem Processor.faultless_spent {c : Processor} (h : c.faults = []) (p : Primitive)
    (f : Option Field) : (c.spent p f).faults = [] := by
  rw [spent_of_faultless h]
  exact h

/-- No fault that is left to inject tells of a refused allocation. -/
def Processor.Candid (c : Processor) : Prop := ∀ x ∈ c.faults, x.error.errno ≠ -4

theorem Processor.Candid.of_subset {c c' : Processor} (h : c.Candid) (hfaults : c'.faults ⊆ c.faults) :
    c'.Candid :=
  fun x hx => h x (hfaults hx)

theorem Processor.Candid.spent {c : Processor} (h : c.Candid) (p : Primitive) (f : Option Field) :
    (c.spent p f).Candid := by
  intro x hx
  obtain ⟨y, hy, -, herror⟩ := InjectedFault.exists_of_mem_strike hx
  rw [← herror]
  exact h y hy

def Processor.Plays (c : Processor) (e : ScriptedExit) (c' : Processor) : Prop :=
  c.script = [] ∧ e = { event := .exit 0xc } ∧ c' = c ∨
    ∃ rest, c.script = e :: rest ∧ c' = { c with script := rest }

theorem Processor.Plays.eq {c c' : Processor} {e : ScriptedExit} (h : c.Plays e c') :
    c' = { c with script := c'.script } := by
  obtain ⟨-, -, rfl⟩ | ⟨rest, -, rfl⟩ := h
  · rfl
  · rfl

theorem Processor.Plays.forall {c c' : Processor} {e : ScriptedExit} {P : ScriptedExit → Prop}
    (h : c.Plays e c') (hc : ∀ x ∈ c.script, P x) (hhalt : P { event := .exit 0xc }) :
    P e ∧ ∀ x ∈ c'.script, P x := by
  obtain ⟨-, rfl, rfl⟩ | ⟨rest, hscript, rfl⟩ := h
  · exact ⟨hhalt, hc⟩
  · rw [hscript] at hc
    exact ⟨hc e List.mem_cons_self, fun x hx => hc x (List.mem_cons_of_mem e hx)⟩

def Processor.counted (c : Processor) (launched : Bool) : Processor :=
  if launched then { c with resumes := c.resumes + 1 } else { c with launches := c.launches + 1 }

theorem Processor.exists_counted (c : Processor) (launched : Bool) : ∃ launches resumes,
    c.counted launched = { c with launches := launches, resumes := resumes } := by
  cases launched with
  | false => exact ⟨_, _, rfl⟩
  | true => exact ⟨_, _, rfl⟩

def ControlBlock.reported (b : ControlBlock) (e : ScriptedExit) : ControlBlock :=
  ({ b with launched := true }.writeAll e.event.report).writeAll e.fields

def InstructionError.ofLaunch (launched : Bool) : InstructionError :=
  if launched then .vmresumeWithNonlaunchedVmcs else .vmlaunchWithNonclearVmcs

@[simp] theorem ControlBlock.launched_writeAll (b : ControlBlock) (writes : List (Field × UInt64)) :
    (b.writeAll writes).launched = b.launched := by
  induction writes generalizing b with
  | nil => rfl
  | cons w writes ih => exact ih _

@[simp] theorem ControlBlock.launched_reported (b : ControlBlock) (e : ScriptedExit) :
    (b.reported e).launched = true := by
  rw [reported, launched_writeAll, launched_writeAll]

theorem ControlBlocks.launched_update (bs : ControlBlocks) (p : Hpa) {f : ControlBlock → ControlBlock}
    (hf : ∀ b, (f b).launched = b.launched) (q : Hpa) :
    ((bs.update p f).block q).launched = (bs.block q).launched := by
  by_cases hq : p = q
  · rw [hq, block_update, hf]
  · rw [block_update_of_ne _ f hq]

namespace Host

open Hypervisor.Action

def withProcessor (h : Host) (c : Processor) : Host := { h with cpu := { h.cpu with processor := c } }

/-- The host after a call of an instruction was met by the injected faults. -/
def spent (h : Host) (p : Primitive) (f : Option Field) : Host :=
  h.withProcessor (h.cpu.processor.spent p f)

def cleared (h : Host) (p : Hpa) : Host :=
  { h.withProcessor { h.cpu.processor with
      current := if h.cpu.processor.current = some p then none else h.cpu.processor.current }
    with blocks := h.blocks.update p fun b => { b with launched := false } }

def loaded (h : Host) (p : Hpa) : Host := h.withProcessor { h.cpu.processor with current := some p }

@[simp] theorem launched_cleared (h : Host) (p : Hpa) :
    ((h.cleared p).blocks.block p).launched = false := by
  rw [cleared, ControlBlocks.block_update]

theorem block_cleared_of_ne (h : Host) {p q : Hpa} (hq : q ≠ p) :
    (h.cleared p).blocks.block q = h.blocks.block q :=
  ControlBlocks.block_update_of_ne _ _ (Ne.symm hq)

theorem spent_of_faultless {h : Host} (hf : h.cpu.processor.faults = []) (p : Primitive)
    (f : Option Field) : h.spent p f = h := by
  rw [spent, Processor.spent_of_faultless hf]
  rfl

section Rules

variable {h : Host} {E : VmError → Host → Prop} {F : Panic → Host → Prop}

theorem expose_ends {p : Primitive} {f : Option Field} {Q : Unit → Host → Prop}
    (hpass : Q () (h.spent p f))
    (hstrike : ∀ x ∈ h.cpu.processor.faults, E x.error (h.spent p f)) :
    (expose p f).Ends h Q E F := by
  simp only [expose, processor, onProcessor, onCpu, ends_bind, ends_get, ends_modify, ends_pure]
  split
  · rename_i e he
    obtain ⟨x, hx, rfl⟩ := InjectedFault.exists_of_strike he
    exact hstrike x hx
  · exact hpass

theorem expose_passes {p : Primitive} {f : Option Field} {Q : Unit → Host → Prop}
    (hfits : ∀ x ∈ h.cpu.processor.faults, ¬ x.fits p f) (hpass : Q () (h.spent p f)) :
    (expose p f).Ends h Q E F := by
  simp only [expose, processor, onProcessor, onCpu, ends_bind, ends_get, ends_modify, ends_pure,
    InjectedFault.strike_eq_none hfits]
  exact hpass

theorem vmread_ends {f : Field} {Q : UInt64 → Host → Prop}
    (hread : ∀ p, h.cpu.processor.current = some p →
      Q ((h.blocks.block p).read f) (h.spent .vmread (some f)))
    (hnone : h.cpu.processor.current = none → E (.vmxOperation .unknown) (h.spent .vmread (some f)))
    (hstrike : ∀ x ∈ h.cpu.processor.faults, E x.error (h.spent .vmread (some f))) :
    (vmread f).Ends h Q E F := by
  rw [vmread, ends_bind]
  refine expose_ends ?_ hstrike
  simp only [currentBlock, processor, ends_bind, ends_get, ends_pure, ends_orFail]
  split
  · exact hread _ ‹_›
  · exact hnone ‹_›

theorem vmwrite_ends {f : Field} {w : UInt64} {Q : Unit → Host → Prop}
    (hwrite : ∀ p, h.cpu.processor.current = some p →
      Q () { h.spent .vmwrite (some f) with blocks := h.blocks.update p fun b => b.write f w })
    (hnone : h.cpu.processor.current = none →
      E (.vmxOperation .unknown) (h.spent .vmwrite (some f)))
    (hstrike : ∀ x ∈ h.cpu.processor.faults, E x.error (h.spent .vmwrite (some f))) :
    (vmwrite f w).Ends h Q E F := by
  rw [vmwrite, ends_bind]
  refine expose_ends ?_ hstrike
  simp only [currentBlock, processor, ends_bind, ends_get, ends_pure, ends_orFail, ends_modify]
  split
  · exact hwrite _ ‹_›
  · exact hnone ‹_›

theorem vmclear_ends {p : Hpa} {Q : Unit → Host → Prop}
    (hclear : Q () ((h.spent .vmclear none).cleared p))
    (hfail : ∀ x ∈ h.cpu.processor.faults, E x.error (h.spent .vmclear none)) :
    (vmclear p).Ends h Q E F := by
  rw [vmclear, ends_bind]
  exact expose_ends hclear hfail

theorem vmptrld_ends {p : Hpa} {Q : Unit → Host → Prop}
    (hload : Q () ((h.spent .vmptrld none).loaded p))
    (hfail : ∀ x ∈ h.cpu.processor.faults, E x.error (h.spent .vmptrld none)) :
    (vmptrld p).Ends h Q E F := by
  rw [vmptrld, ends_bind]
  exact expose_ends hload hfail

theorem nextExit_ends {Q : ScriptedExit → Host → Prop}
    (hnext : ∀ e c, h.cpu.processor.Plays e c → Q e (h.withProcessor c)) :
    nextExit.Ends h Q E F := by
  simp only [nextExit, processor, ends_bind, ends_get, ends_pure]
  split
  · exact hnext _ _ (.inl ⟨‹_›, rfl, rfl⟩)
  · exact hnext _ _ (.inr ⟨_, ‹_›, rfl⟩)

/-- The guest is entered only in the launch state that its block is in. -/
theorem vmenter_ends {launched : Bool} {Q : List (Register × UInt64) → Host → Prop}
    (hentered : ∀ p e c, h.cpu.processor.current = some p →
      (h.blocks.block p).launched = launched → (h.cpu.processor.spent .enter none).Plays e c →
        Q e.regs { h.withProcessor (c.counted launched) with
          blocks := h.blocks.update p fun b => b.reported e })
    (hnone : h.cpu.processor.current = none → E (.entry .unknown) (h.spent .enter none))
    (hlaunch : ∀ p, h.cpu.processor.current = some p → (h.blocks.block p).launched ≠ launched →
      E (.entry (.ofLaunch launched)) (h.spent .enter none))
    (hrefused : ∀ p e c, h.cpu.processor.current = some p →
      (h.cpu.processor.spent .enter none).Plays e c → E (.entry .invalidCs) (h.withProcessor c))
    (hstrike : ∀ x ∈ h.cpu.processor.faults, E x.error (h.spent .enter none)) :
    (vmenter launched).Ends h Q E F := by
  have hcurrent : (h.spent .enter none).cpu.processor.current = h.cpu.processor.current := rfl
  rw [vmenter, ends_bind]
  refine expose_ends ?_ hstrike
  simp only [processor, bind_assoc, pure_bind]
  rw [ends_bind, ends_get, ends_bind, ends_orFail, hcurrent]
  cases hp : h.cpu.processor.current with
  | none => exact hnone hp
  | some p =>
      have hblock : (h.spent .enter none).blocks.block p = h.blocks.block p := rfl
      have hplay : (h.blocks.block p).launched = launched → (nextExit >>= fun next => do
          Action.require (next.event != .entryFailure) (.entry .invalidCs)
          onProcessor fun p =>
            if launched then { p with resumes := p.resumes + 1 }
            else { p with launches := p.launches + 1 }
          modify fun h => { h with
            blocks := h.blocks.update p fun b =>
              ({ b with launched := true }.writeAll next.event.report).writeAll next.fields }
          return next.regs).Ends (h.spent .enter none) Q E F := by
        intro hlaunched
        rw [ends_bind]
        refine nextExit_ends fun e c hc => ?_
        rw [ends_bind, ends_require]
        split
        · exact hentered p e c hp hlaunched hc
        · exact hrefused p e c hp hc
      dsimp only
      rw [ends_bind, ends_get, ends_bind, ends_require, ends_bind, ends_require, hblock]
      cases hwas : (h.blocks.block p).launched <;> cases launched
      · exact hplay hwas
      · exact hlaunch p hp (by rw [hwas]; decide)
      · exact hlaunch p hp (by rw [hwas]; decide)
      · exact hplay hwas

end Rules

end Host

end Hypervisor
