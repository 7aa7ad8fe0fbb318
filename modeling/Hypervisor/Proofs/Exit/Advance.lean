import Hypervisor.Proofs.Interrupts

/-!
# Moving past an instruction

A guest that goes on after its exit was handled has moved past the instruction that it stopped at, by
the length that the processor reports.  Meanwhile only some bits of its control block may change.
-/

namespace Hypervisor

namespace Session

open Hypervisor.Action

def length (s : Session) : UInt64 := s.block.read .vmexitInstructionLength

/-- The guest has moved past the instruction that it stopped at, and its registers are `regs`. -/
structure Advances (s : Session) (regs : Registers) (c : Context) : Prop where
  regs : c.regs = regs
  rip : c.rip.toNat = s.context.rip.toNat + s.length.toNat
  rsp : c.rsp = s.context.rsp

/-- From `s` to `t` the guest's control block is the same outside `mask`, and every other one is the
same.  Of the processor only the injected faults have changed, and none was added. -/
structure Masked (mask : Field → UInt64) (s t : Session) : Prop where
  fields : ∀ f, (t.host.blocks.block s.guest.block).read f &&& ~~~mask f =
    s.block.read f &&& ~~~mask f
  launched : (t.host.blocks.block s.guest.block).launched = s.block.launched
  others : ∀ p, p ≠ s.guest.block → t.host.blocks.block p = s.host.blocks.block p
  cpu : ∃ fs, t.host.cpu = { s.host.cpu with processor := { s.host.cpu.processor with faults := fs } }
  faultless : s.host.cpu.processor.faults = [] → t.host.cpu.processor.faults = []

variable {mask : Field → UInt64} {s t u : Session} {regs : Registers}

namespace Masked

theorem refl (mask : Field → UInt64) (s : Session) : Masked mask s s :=
  ⟨fun _ => rfl, rfl, fun _ _ => rfl, ⟨_, rfl⟩, id⟩

/-- Only the processor and the control blocks count. -/
theorem congr (h : Masked mask s t) (hblocks : u.host.blocks = t.host.blocks)
    (hcpu : u.host.cpu = t.host.cpu) : Masked mask s u where
  fields := by
    rw [hblocks]
    exact h.fields
  launched := by
    rw [hblocks]
    exact h.launched
  others := by
    rw [hblocks]
    exact h.others
  cpu := by
    rw [hcpu]
    exact h.cpu
  faultless := by
    rw [hcpu]
    exact h.faultless

theorem current (h : Masked mask s t) (hon : s.Current) :
    t.host.cpu.processor.current = some s.guest.block := by
  obtain ⟨fs, hfs⟩ := h.cpu
  rw [hfs]
  exact hon

theorem read (h : Masked mask s t) {f : Field} (hf : mask f = 0) :
    (t.host.blocks.block s.guest.block).read f = s.block.read f := by
  have hfield := h.fields f
  rwa [hf, UInt64.not_zero, UInt64.and_neg_one, UInt64.and_neg_one] at hfield

theorem spent (h : Masked mask s t) (p : Primitive) (f : Option Field) :
    Masked mask s { t with host := t.host.spent p f } where
  fields := h.fields
  launched := h.launched
  others := h.others
  cpu := by
    obtain ⟨fs, hfs⟩ := h.cpu
    refine ⟨(t.host.cpu.processor.spent p f).faults, ?_⟩
    show { t.host.cpu with processor := t.host.cpu.processor.spent p f } = _
    rw [hfs]
    rfl
  faultless := fun hf => Processor.faultless_spent (h.faultless hf) p f

theorem write (h : Masked mask s t) {host : Host} (hrev : t.host.Revises s.guest.block host)
    {f : Field} {w : UInt64}
    (hblock : host.blocks.block s.guest.block = (t.host.blocks.block s.guest.block).write f w)
    (hw : w &&& ~~~mask f = s.block.read f &&& ~~~mask f) :
    Masked mask s { t with host := host } where
  fields := fun g => by
    dsimp only
    rw [hblock]
    by_cases hg : f = g
    · subst hg
      rw [ControlBlock.read_write, hw]
    · rw [ControlBlock.read_write_of_ne _ _ hg, h.fields]
  launched := by
    dsimp only
    rw [hblock]
    exact h.launched
  others := fun p hp => (hrev.others p hp).trans (h.others p hp)
  cpu := by
    obtain ⟨fs, hfs⟩ := h.cpu
    obtain ⟨fs', hfs'⟩ := hrev.processor
    exact ⟨fs', by rw [hfs', hfs]⟩
  faultless := fun hf => hrev.faultless (h.faultless hf)

end Masked

theorem forwardRip_ends (h : Masked mask s t) (hon : s.Current)
    (hlength : mask .vmexitInstructionLength = 0)
    (hcontext : t.context = { s.context with regs := regs }) :
    forwardRip.Ends t
      (fun _ u => ∃ c, s.Advances regs c ∧
        u = { t with host := t.host.spent .vmread (some .vmexitInstructionLength), context := c })
      (fun _ _ => s.host.cpu.processor.faults ≠ [])
      fun p _ => p = .addOverflow ∧ UInt64.size ≤ s.context.rip.toNat + s.length.toNat := by
  rw [forwardRip, ends_bind, onHost, ends_onPart]
  refine Host.vmread_ends (fun p hp => ?_) (fun hnone => ?_) fun _ hx hfaults =>
    List.ne_nil_of_mem hx (h.faultless hfaults)
  · obtain rfl : p = s.guest.block := Option.some.inj (hp.symm.trans (h.current hon))
    rw [h.read hlength, ends_bind, ends_get, ends_ite]
    dsimp only
    rw [hcontext]
    split
    · rename_i hfits
      refine ⟨{ s.context with regs := regs, rip := s.context.rip + s.length }, ⟨rfl, ?_, rfl⟩, rfl⟩
      exact (UInt64.toNat_add _ _).trans (Nat.mod_eq_of_lt hfits)
    · exact ⟨rfl, Nat.le_of_not_lt ‹_›⟩
  · exact absurd ((h.current hon).symm.trans hnone) (Option.some_ne_none _)

theorem continueAfter_ends (h : Masked mask s t) (hon : s.Current)
    (hlength : mask .vmexitInstructionLength = 0)
    (hcontext : t.context = { s.context with regs := regs }) :
    continueAfter.Ends t
      (fun r u => r = .continued ∧ Masked mask s u ∧ u.guest = t.guest ∧
        s.Advances regs u.context)
      (fun _ _ => s.host.cpu.processor.faults ≠ [])
      fun _ _ => UInt64.size ≤ s.context.rip.toNat + s.length.toNat := by
  rw [continueAfter, ends_bind]
  refine Ends.mono (forwardRip_ends h hon hlength hcontext) ?_ (fun _ _ h => h) fun _ _ h => h.2
  rintro - u ⟨c, hc, rfl⟩
  exact ⟨rfl, (h.spent _ _).congr rfl rfl, rfl, hc⟩

end Session

end Hypervisor
