import Hypervisor.Proofs.Instructions
import Hypervisor.Proofs.Vmcs.Translation

/-!
# Writing a control block

Writes go to the current control block and leave everything else alone.  They fail only if no block
is current or if a fault was injected.
-/

namespace Hypervisor

namespace ControlBlock

theorem read_writeAll_of_notMem (b : ControlBlock) {f : Field} {writes : List (Field × UInt64)}
    (h : f ∉ writes.map Prod.fst) : (b.writeAll writes).read f = b.read f := by
  induction writes generalizing b with
  | nil => rfl
  | cons w writes ih =>
      simp only [List.map_cons, List.mem_cons, not_or] at h
      have hrest := ih (b.write w.1 w.2) h.2
      have hfirst := read_write_of_ne b w.2 (Ne.symm h.1)
      exact hrest.trans hfirst

theorem read_writeAll_cons (b : ControlBlock) {f : Field} {w : UInt64}
    {writes : List (Field × UInt64)} (h : f ∉ writes.map Prod.fst) :
    (b.writeAll ((f, w) :: writes)).read f = w := by
  have hrest := read_writeAll_of_notMem (b.write f w) h
  rwa [read_write] at hrest

theorem read_writeAll_of_mem (b : ControlBlock) {f : Field} {w : UInt64}
    {writes : List (Field × UInt64)} (hnodup : (writes.map Prod.fst).Nodup)
    (h : (f, w) ∈ writes) : (b.writeAll writes).read f = w := by
  induction writes generalizing b with
  | nil => exact absurd h List.not_mem_nil
  | cons x writes ih =>
      rw [List.map_cons, List.nodup_cons] at hnodup
      rcases List.mem_cons.1 h with rfl | hrest
      · exact read_writeAll_cons b hnodup.1
      · exact ih (b.write x.1 x.2) hnodup.2 hrest

end ControlBlock

namespace Host

open Hypervisor.Action

/-- Only block `p` and the injected faults may have changed, and no fault was added. -/
structure Revises (h : Host) (p : Hpa) (h' : Host) : Prop where
  memory : h'.memory = h.memory
  processor : ∃ fs, h'.cpu = { h.cpu with processor := { h.cpu.processor with faults := fs } }
  others : ∀ q, q ≠ p → h'.blocks.block q = h.blocks.block q
  faults : ∀ x ∈ h'.cpu.processor.faults, ∃ y ∈ h.cpu.processor.faults, y.fits = x.fits

namespace Revises

variable {h h' h'' : Host} {p : Hpa}

theorem refl (h : Host) (p : Hpa) : h.Revises p h := 
  ⟨rfl, ⟨_, rfl⟩, fun _ _ => rfl, fun x hx => ⟨x, hx, rfl⟩⟩

theorem trans (h₁ : h.Revises p h') (h₂ : h'.Revises p h'') : h.Revises p h'' := by
  refine ⟨h₂.memory.trans h₁.memory, ?_, ?_, fun x hx => ?_⟩
  · obtain ⟨fs, hfs⟩ := h₁.processor
    obtain ⟨fs', hfs'⟩ := h₂.processor
    exact ⟨fs', by rw [hfs', hfs]⟩
  · intro q hq
    rw [h₂.others q hq, h₁.others q hq]
  · obtain ⟨y, hy, hfits⟩ := h₂.faults x hx
    obtain ⟨z, hz, hfits'⟩ := h₁.faults y hy
    exact ⟨z, hz, hfits'.trans hfits⟩

theorem faultless (h₁ : h.Revises p h') (hf : h.cpu.processor.faults = []) :
    h'.cpu.processor.faults = [] := by
  refine List.eq_nil_iff_forall_not_mem.2 fun x hx => ?_
  obtain ⟨y, hy, -⟩ := h₁.faults x hx
  rw [hf] at hy
  exact absurd hy List.not_mem_nil

theorem current (h₁ : h.Revises p h') : h'.cpu.processor.current = h.cpu.processor.current := by
  obtain ⟨fs, hfs⟩ := h₁.processor
  rw [hfs]

theorem spent (h : Host) (p : Hpa) (i : Primitive) (f : Option Field) : h.Revises p (h.spent i f) := by
  exact ⟨rfl, ⟨_, rfl⟩, fun _ _ => rfl, fun _ hx => InjectedFault.exists_fits_of_mem_strike hx⟩

end Revises

section Rules

variable {h : Host} {p : Hpa} {E : VmError → Host → Prop} {F : Panic → Host → Prop}
  {Q : Unit → Host → Prop}

theorem vmwrite_revises {f : Field} {w : UInt64} (hp : h.cpu.processor.current = some p)
    (hQ : ∀ h', h.Revises p h' → h'.blocks.block p = (h.blocks.block p).write f w → Q () h')
    (hE : ∀ e h', h.Revises p h' → h'.blocks.block p = h.blocks.block p →
      h.cpu.processor.faults ≠ [] → E e h') :
    (vmwrite f w).Ends h Q E F := by
  refine vmwrite_ends (fun q hq => ?_) (fun hnone => ?_) fun x hx => ?_
  · have hqp : q = p := Option.some.inj (hq.symm.trans hp)
    subst q
    have hspent := Revises.spent h p .vmwrite (some f)
    refine hQ _ ⟨rfl, hspent.processor, fun q hq => ?_, hspent.faults⟩ ?_
    · exact ControlBlocks.block_update_of_ne _ _ (Ne.symm hq)
    · exact ControlBlocks.block_update _ _ _
  · exact absurd (hp.symm.trans hnone) (Option.some_ne_none _)
  · exact hE x.error _ (Revises.spent h p _ _) rfl (List.ne_nil_of_mem hx)

/-- Writes in turn to the block that is current; a fault stops them, perhaps after some. -/
theorem vmwriteAll_revises {writes : List (Field × UInt64)}
    (hp : h.cpu.processor.current = some p)
    (hQ : ∀ h', h.Revises p h' → h'.blocks.block p = (h.blocks.block p).writeAll writes → Q () h')
    (hE : ∀ e h' done, h.Revises p h' → done <+: writes →
      h'.blocks.block p = (h.blocks.block p).writeAll done → h.cpu.processor.faults ≠ [] →
      E e h') :
    (vmwriteAll writes).Ends h Q E F := by
  induction writes generalizing h with
  | nil => exact hQ h (.refl h p) rfl
  | cons w writes ih =>
      show (vmwrite w.1 w.2 >>= fun _ => vmwriteAll writes).Ends h Q E F
      rw [ends_bind]
      refine vmwrite_revises hp (fun h₁ hrev hblock => ?_) fun e h₁ hrev hblock hf => ?_
      · refine ih (hrev.current.trans hp) (fun h₂ hrev' hblock' => ?_) ?_
        · exact hQ h₂ (hrev.trans hrev') (by rw [hblock', hblock]; rfl)
        · intro e h₂ done hrev' hdone hblock' hf
          refine hE e h₂ (w :: done) (hrev.trans hrev') (List.cons_prefix_cons.2 ⟨rfl, hdone⟩) ?_
            fun hnone => hf (hrev.faultless hnone)
          rw [hblock', hblock]
          rfl
      · exact hE e h₁ [] hrev List.nil_prefix hblock hf

theorem vmwriteAll_passes {writes : List (Field × UInt64)}
    (hfits : ∀ x ∈ h.cpu.processor.faults, ∀ w ∈ writes, ¬ x.fits .vmwrite (some w.1))
    (hp : h.cpu.processor.current = some p)
    (hQ : ∀ h', h.Revises p h' → h'.blocks.block p = (h.blocks.block p).writeAll writes →
      Q () h') :
    (vmwriteAll writes).Ends h Q E F := by
  induction writes generalizing h with
  | nil => exact hQ h (.refl h p) rfl
  | cons w writes ih =>
      show (vmwrite w.1 w.2 >>= fun _ => vmwriteAll writes).Ends h Q E F
      have hspent := Revises.spent h p .vmwrite (some w.1)
      simp only [vmwrite, currentBlock, processor, bind_assoc, pure_bind, ends_bind]
      refine expose_passes (fun x hx => hfits x hx w List.mem_cons_self) ?_
      rw [ends_get, ends_orFail, hspent.current, hp]
      show Ends _ _ _ _ _
      have hrev : h.Revises p { h.spent .vmwrite (some w.1) with
          blocks := h.blocks.update p fun b => b.write w.1 w.2 } :=
        ⟨rfl, hspent.processor, fun q hq => ControlBlocks.block_update_of_ne _ _ (Ne.symm hq),
          hspent.faults⟩
      rw [ends_modify]
      refine ih (fun x hx w' hw' => ?_) hp fun h' hrev' hblock => hQ h' (hrev.trans hrev') ?_
      · obtain ⟨y, hy, hfits'⟩ := hspent.faults x hx
        rw [← hfits']
        exact hfits y hy w' (List.mem_cons_of_mem w hw')
      · rw [hblock]
        show ((h.blocks.update p _).block p).writeAll writes = _
        rw [ControlBlocks.block_update]
        rfl

end Rules

end Host

end Hypervisor
