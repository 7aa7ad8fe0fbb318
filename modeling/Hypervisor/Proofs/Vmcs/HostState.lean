import Hypervisor.Proofs.Vmcs.Writes
import Hypervisor.Vmcs.State

/-!
# The host that a guest exits into

At an exit the processor takes the state of the host from the control block: segments, tables and the
place to go on.  Two blocks that agree on these fields return to the same host.
-/

namespace Hypervisor

/-- The fields that tell where the processor goes on in the host. -/
def Field.returning : List Field :=
  [.hostEsSelector, .hostSsSelector, .hostDsSelector, .hostFsSelector, .hostGsSelector,
   .hostCsSelector, .hostTrSelector, .hostIdtrBase, .hostGdtrBase, .hostFsBase, .hostGsBase,
   .hostTrBase, .hostRip]

def Field.host : List Field := [.hostCr0, .hostCr3, .hostCr4] ++ returning

theorem Cpu.hostState_host (c : Cpu) : ∀ w ∈ c.hostState, w.1 ∈ Field.host := by
  simp [hostState, Field.host, Field.returning]

/-- The processor takes the state of the host: no write of it is made to fail. -/
def Processor.Receptive (c : Processor) : Prop :=
  ∀ x ∈ c.faults, ∀ f ∈ Field.host, ¬ x.fits .vmwrite (some f)

theorem Processor.Receptive.mono {c c' : Processor} (h : c.Receptive)
    (hfaults : ∀ x ∈ c'.faults, ∃ y ∈ c.faults, y.fits = x.fits) : c'.Receptive := by
  intro x hx f hf
  obtain ⟨y, hy, hfits⟩ := hfaults x hx
  rw [← hfits]
  exact h y hy f hf

theorem Processor.Receptive.spent {c : Processor} (h : c.Receptive) (p : Primitive)
    (f : Option Field) : (c.spent p f).Receptive :=
  h.mono fun _ hx => InjectedFault.exists_fits_of_mem_strike hx

/-- The guest writes no field that tells where the host goes on, as no guest can. -/
def ScriptedExit.Discreet (e : ScriptedExit) : Prop := ∀ w ∈ e.fields, w.1 ∉ Field.returning

instance (e : ScriptedExit) : Decidable e.Discreet :=
  inferInstanceAs (Decidable (∀ w ∈ e.fields, w.1 ∉ Field.returning))

theorem ScriptedEvent.report_not_returning (e : ScriptedEvent) :
    ∀ w ∈ e.report, w.1 ∉ Field.returning := by
  cases e <;> simp [report, Field.returning]

theorem Guest.initialState_not_returning : ∀ w ∈ initialState, w.1 ∉ Field.returning := by
  decide

namespace ControlBlock

variable {b b' b'' : ControlBlock} {fs : List Field} {c c' : Cpu}

def Agree (fs : List Field) (b b' : ControlBlock) : Prop := ∀ f ∈ fs, b'.read f = b.read f

theorem Agree.refl (fs : List Field) (b : ControlBlock) : Agree fs b b := fun _ _ => rfl

theorem Agree.trans (h : Agree fs b b') (h' : Agree fs b' b'') : Agree fs b b'' :=
  fun f hf => (h' f hf).trans (h f hf)

theorem agree_of_fields (h : b'.fields = b.fields) : Agree fs b b' := fun f _ => by
  rw [read, read, h]

theorem agree_write {f : Field} (w : UInt64) (hf : f ∉ fs) : Agree fs b (b.write f w) :=
  fun _ hg => read_write_of_ne b w fun heq => hf (heq ▸ hg)

theorem agree_writeAll {writes : List (Field × UInt64)} (hw : ∀ w ∈ writes, w.1 ∉ fs) :
    Agree fs b (b.writeAll writes) := fun f hf =>
  read_writeAll_of_notMem b fun hmem => by
    obtain ⟨w, hwrite, rfl⟩ := List.mem_map.1 hmem
    exact hw w hwrite hf

theorem agree_reported (b : ControlBlock) {e : ScriptedExit} (he : e.Discreet) :
    Agree Field.returning b (b.reported e) := by
  have hlaunched : Agree Field.returning b { b with launched := true } := agree_of_fields rfl
  exact (hlaunched.trans (agree_writeAll e.event.report_not_returning)).trans (agree_writeAll he)

/-- At an exit with this block the processor goes on in the host of the cpu. -/
structure ReturnsTo (b : ControlBlock) (c : Cpu) : Prop where
  code : b.read .hostCsSelector = c.segments.code.toUInt64
  data : ∀ f ∈ [Field.hostEsSelector, .hostSsSelector, .hostDsSelector, .hostFsSelector,
    .hostGsSelector], b.read f = c.segments.data.toUInt64
  task : b.read .hostTrSelector = c.segments.tss.toUInt64
  taskBase : b.read .hostTrBase = c.segments.tssBase
  interrupts : b.read .hostIdtrBase = Processor.idtrBase
  descriptors : b.read .hostGdtrBase = Processor.gdtrBase
  fsBase : b.read .hostFsBase = 0
  gsBase : b.read .hostGsBase = 0
  rip : b.read .hostRip = Processor.exitLabel

theorem ReturnsTo.of_agree (h : b.ReturnsTo c) (hb : Agree Field.returning b b') : b'.ReturnsTo c where
  code := (hb _ (by decide)).trans h.code
  data := fun f hf => (hb f (by revert f; decide)).trans (h.data f hf)
  task := (hb _ (by decide)).trans h.task
  taskBase := (hb _ (by decide)).trans h.taskBase
  interrupts := (hb _ (by decide)).trans h.interrupts
  descriptors := (hb _ (by decide)).trans h.descriptors
  fsBase := (hb _ (by decide)).trans h.fsBase
  gsBase := (hb _ (by decide)).trans h.gsBase
  rip := (hb _ (by decide)).trans h.rip

theorem ReturnsTo.congr (h : b.ReturnsTo c) (hsegments : c'.segments = c.segments) :
    b.ReturnsTo c' := by
  obtain ⟨code, data, task, taskBase, interrupts, descriptors, fsBase, gsBase, rip⟩ := h
  rw [← hsegments] at code data task taskBase
  exact ⟨code, data, task, taskBase, interrupts, descriptors, fsBase, gsBase, rip⟩

/-- Writing the state of the host makes the guest exit into it. -/
theorem returnsTo_writeAll (b : ControlBlock) (c : Cpu) : (b.writeAll c.hostState).ReturnsTo c := by
  have hnodup : (c.hostState.map Prod.fst).Nodup := by simp [Cpu.hostState]
  have hread : ∀ f w, (f, w) ∈ c.hostState → (b.writeAll c.hostState).read f = w :=
    fun f w => read_writeAll_of_mem b hnodup
  constructor
  · exact hread _ _ (by simp [Cpu.hostState])
  · intro f hf
    refine hread f _ ?_
    simp only [List.mem_cons, List.not_mem_nil, or_false] at hf
    rcases hf with rfl | rfl | rfl | rfl | rfl <;> simp [Cpu.hostState]
  all_goals exact hread _ _ (by simp [Cpu.hostState])

end ControlBlock

end Hypervisor
