import Hypervisor.Proofs.Exit.Frame
import Hypervisor.Proofs.Guest.MsrArea

/-!
# Emulating the extended-feature register

The guest's value of the register is in its register page, and whether the guest runs in long mode is a
bit of its entry controls.  The two agree: the bit is set when the guest enables long mode, and it is
never cleared.  A value is read and written in the lower halves of two registers.
-/

namespace Hypervisor

namespace Registers

/-- The word whose upper half is in `edx` and whose lower half is in `eax`. -/
def edxEax (r : Registers) : UInt64 := (r.rdx.toUInt32.toUInt64 <<< 32) ||| r.rax.toUInt32.toUInt64

theorem edxEax_eq (r : Registers) : r.edxEax = (r.rdx <<< 32) ||| (r.rax &&& 0xffffffff) := by
  rw [edxEax, Word.shiftLeft_toUInt32, Word.and_half]

def withEdxEax (r : Registers) (w : UInt64) : Registers :=
  { r with rdx := w >>> 32, rax := w &&& 0xffffffff }

theorem edxEax_withEdxEax (r : Registers) (w : UInt64) : (r.withEdxEax w).edxEax = w := by
  have hlow : w &&& 0xffffffff &&& 0xffffffff = w &&& 0xffffffff := by
    rw [UInt64.and_assoc, UInt64.and_self]
  rw [edxEax_eq, withEdxEax, hlow, Word.halves]

/-- The upper halves of both registers are zero then. -/
theorem withEdxEax_lt (r : Registers) (w : UInt64) :
    (r.withEdxEax w).rdx.toNat < 2 ^ 32 ∧ (r.withEdxEax w).rax.toNat < 2 ^ 32 := by
  have hlt := w.toNat_lt
  constructor
  · show (w >>> 32).toNat < 2 ^ 32
    rw [Word.toNat_shiftRight_half]
    omega
  · show (w &&& 0xffffffff).toNat < 2 ^ 32
    rw [Word.toNat_and_half]
    exact Nat.mod_lt _ (by decide)

end Registers

/-- The entry controls are `controls`, but perhaps for the mode of the guest, which is long mode if
`efer` enables that. -/
structure ControlBlock.Modes (b : ControlBlock) (controls efer : UInt64) : Prop where
  longMode : efer &&& eferLongMode ≠ 0 →
    b.read .vmentryControls &&& EntryControl.longModeGuest.bits ≠ 0
  others : b.read .vmentryControls &&& ~~~EntryControl.longModeGuest.bits =
    controls &&& ~~~EntryControl.longModeGuest.bits

namespace ControlBlock.Modes

variable {b b' : ControlBlock} {controls efer value : UInt64}

theorem initial (h : b.read .vmentryControls = controls) : b.Modes controls 0 :=
  ⟨fun hset => absurd UInt64.zero_and hset, by rw [h]⟩

theorem congr (h : b.Modes controls efer)
    (hread : b'.read .vmentryControls = b.read .vmentryControls) : b'.Modes controls efer := by
  constructor
  · rw [hread]
    exact h.longMode
  · rw [hread]
    exact h.others

theorem stay (h : b.Modes controls efer)
    (hedge : efer &&& eferLongMode ≠ 0 ∨ value &&& eferLongMode = 0) : b.Modes controls value :=
  ⟨fun hset => h.longMode (hedge.resolve_right hset), h.others⟩

theorem enter (h : b.Modes controls efer) (value : UInt64) :
    (b.write .vmentryControls
      (b.read .vmentryControls ||| EntryControl.longModeGuest.bits)).Modes controls value := by
  refine ⟨fun _ => ?_, ?_⟩
  · rw [read_write, Word.or_and, UInt64.and_self]
    intro hzero
    have hbit := congrArg (· &&& EntryControl.longModeGuest.bits) hzero
    rw [Word.or_and, UInt64.and_self, UInt64.zero_and, UInt64.or_eq_zero_iff] at hbit
    exact absurd hbit.2 (by decide)
  · rw [read_write, Word.or_and, UInt64.and_not_self, UInt64.or_zero]
    exact h.others

end ControlBlock.Modes

/-- The register page lists the register with a value of the host and one of the guest, and the mode of
the guest agrees with its value. -/
structure Guest.Coherent (g : Guest) (p : Platform) (host controls value : UInt64) : Prop where
  switches : g.Switches p.memory host value
  modes : (p.blocks.block g.block).Modes controls value

namespace Session

open Hypervisor.Action

variable {reason : ExitReason} {s : Session} {host controls value : UInt64}

theorem continueAfter_moves (s : Session) : continueAfter.Ends s
    (fun _ t => ∃ c, t = { s with
      host := s.host.spent .vmread (some .vmexitInstructionLength), context := c })
    (fun _ _ => True) fun _ _ => True := by
  rw [continueAfter, ends_bind, forwardRip, ends_bind, onHost, ends_onPart]
  refine Host.vmread_ends (fun p _ => ?_) (fun _ => trivial) fun _ _ => trivial
  rw [ends_bind, ends_get, ends_ite]
  split
  · exact ⟨_, rfl⟩
  · trivial

theorem emulatedMsr_efer (h : s.guest.Switches s.host.memory host value) (msr : MsrIndex) :
    (emulatedMsr reason msr).Ends s (fun i t => t = s ∧ msr = .efer ∧ i = 257)
      (fun _ _ => msr ≠ .efer) fun _ _ => False := by
  rw [emulatedMsr, ends_bind, ends_require]
  split
  · rename_i hmsr
    rw [ends_bind, ends_get, ends_bind, ends_onMemory]
    refine Ends.mono h.findMsr_ends ?_ (fun _ _ => False.elim) fun _ _ => False.elim
    rintro i m ⟨rfl, rfl⟩
    exact ⟨rfl, beq_iff_eq.1 hmsr, rfl⟩
  · rename_i hmsr
    exact fun he => hmsr (beq_iff_eq.2 he)

/-- The guest reads the value in the lower halves of two registers, whose upper halves are zero. -/
theorem handleRdmsr_answers (h : s.guest.Switches s.host.memory host value) (hon : s.Current)
    (hmsr : s.context.regs.rcx.toUInt32 = MsrIndex.efer) :
    (handleRdmsr reason).Ends s
      (fun r t => r = .continued ∧ s.Advances (s.context.regs.withEdxEax value) t.context)
      (fun _ _ => s.host.cpu.processor.faults ≠ [])
      fun _ _ => UInt64.size ≤ s.context.rip.toNat + s.length.toNat := by
  rw [handleRdmsr, ends_bind, ends_get, ends_bind]
  refine Ends.mono (emulatedMsr_efer h _) ?_ (fun _ _ hne => absurd hmsr hne) fun _ _ => False.elim
  rintro _ _ ⟨rfl, -, rfl⟩
  rename_i s
  rw [ends_bind, ends_get, ends_bind, ends_onMemory]
  refine Memory.pageWords_ends (fun _ => ?_) fun _ hfree => absurd ?_ hfree
  · dsimp only
    rw [Guest.words_guestMsrArea h.aligned, h.lists.guest, ends_bind]
    have hmasked := Masked.refl (fun _ => 0) s
    refine Ends.mono (x := continueAfter) (continueAfter_ends (s := s) (hmasked.congr rfl rfl) hon rfl rfl)
      ?_ (fun _ _ h => h) fun _ _ h => h
    exact fun _ _ hu => ⟨hu.1, hu.2.2.2⟩
  · rw [Guest.guestMsrArea_pageDown h.aligned]
    exact h.live

/-- A value that the guest writes is kept, and the mode of the guest agrees with it. -/
theorem handleWrmsr_coherent (h : s.guest.Coherent s.host.toPlatform host controls value)
    (hon : s.Current) :
    (handleWrmsr reason).Ends s
      (fun _ t => s.context.regs.rcx.toUInt32 = MsrIndex.efer ∧
        t.guest.Coherent t.host.toPlatform host controls s.context.regs.edxEax)
      (fun _ _ => True) fun _ _ => True := by
  rw [handleWrmsr, ends_bind, ends_get, ends_bind]
  refine Ends.mono (emulatedMsr_efer h.switches _) ?_ (fun _ _ _ => trivial) fun _ _ => False.elim
  rintro _ _ ⟨rfl, hmsr, rfl⟩
  rename_i s
  have hrest : ∀ {t : Session}, t.guest = s.guest → t.host.memory = s.host.memory →
      t.block.Modes controls s.context.regs.edxEax →
        (onMemory (Memory.updatePage s.guest.guestMsrArea fun ws =>
          ws.setWord 257 s.context.regs.edxEax) >>= fun _ => continueAfter).Ends t
            (fun _ u => s.context.regs.rcx.toUInt32 = MsrIndex.efer ∧
              u.guest.Coherent u.host.toPlatform host controls s.context.regs.edxEax)
            (fun _ _ => True) fun _ _ => True := by
    intro t hguest hmemory hmodes
    rw [ends_bind, ends_onMemory, Memory.ends_updatePage]
    refine Ends.mono (continueAfter_moves _) ?_ (fun _ _ h => h) fun _ _ h => h
    rintro _ u ⟨c, rfl⟩
    refine ⟨hmsr, ?_, hmodes⟩
    show t.guest.Switches (t.host.memory.edited s.guest.guestMsrArea fun ws =>
      ws.setWord 257 s.context.regs.edxEax) host s.context.regs.edxEax
    rw [hguest, hmemory]
    exact h.switches.edited _
  rw [ends_bind, ends_get]
  refine pageWords_ends_bind ?_
  rw [Guest.words_guestMsrArea h.switches.aligned, h.switches.lists.guest, ← Registers.edxEax_eq]
  dsimp only
  split
  · rw [ends_bind]
    refine Ends.mono (longMode_ends hon) ?_ (fun _ _ _ => trivial) fun _ _ h => h
    rintro - t ⟨-, hguest, -, hmemory, hblock⟩
    refine hrest hguest hmemory ?_
    rw [hblock]
    exact h.modes.enter _
  · rename_i hedge
    refine hrest rfl rfl (h.modes.stay ?_)
    simpa [Bool.and_eq_true, beq_iff_eq, bne_iff_ne, or_iff_not_imp_left] using hedge

theorem devices_eq (s : Session) (reason : ExitReason) :
    ∃ i w, s.devices reason = { s.guest with rtcIndex := i, hostVector := w } := by
  unfold devices
  split
  · exact ⟨_, _, rfl⟩
  · split
    · exact ⟨_, _, rfl⟩
    · exact ⟨_, _, rfl⟩
  · exact ⟨_, _, rfl⟩

theorem Framed.read_entryControls {t : Session} (h : Framed reason s t)
    (hwrmsr : reason ≠ .fromGuest (.code .wrmsr)) :
    (t.host.blocks.block s.guest.block).read .vmentryControls = s.block.read .vmentryControls := by
  refine h.toMasked.read ?_
  unfold ExitReason.mask
  split
  · rfl
  · rfl
  · exact absurd rfl hwrmsr
  · rfl

theorem Framed.coherent {t : Session} (h : Framed reason s t)
    (hwrmsr : reason ≠ .fromGuest (.code .wrmsr))
    (hs : s.guest.Coherent s.host.toPlatform host controls value)
    (hlive : s.guest.msrPage ∈ t.host.memory.pages)
    (hwords : t.host.memory.words s.guest.msrPage = s.host.memory.words s.guest.msrPage) :
    t.guest.Coherent t.host.toPlatform host controls value := by
  obtain ⟨i, w, hdevices⟩ := s.devices_eq reason
  rw [h.guest, hdevices]
  refine ⟨⟨hs.switches.count, hlive, hs.switches.aligned, ?_⟩, ?_⟩
  · show (t.host.memory.words s.guest.msrPage).Lists host value
    rw [hwords]
    exact hs.switches.lists
  · exact hs.modes.congr (h.read_entryControls hwrmsr)

end Session

end Hypervisor
