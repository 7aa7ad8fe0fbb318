import Hypervisor.Proofs.RootOperation

/-!
# What entering VMX root operation does to the registers

Entering VMX root operation sets one bit in each of two control registers and locks the feature-control
register, if it is not locked yet.  No other register changes, but locking clears the bits of the
feature-control register that have no name.
-/

namespace Hypervisor

open Word

namespace Processor

theorem rdmsr_wrmsr (c : Processor) (msr msr' : MsrIndex) (w : UInt64) :
    (c.wrmsr msr w).rdmsr msr' = if msr' = msr then w else c.rdmsr msr' := by
  by_cases h : msr' = msr
  · subst msr'
    simp [rdmsr, wrmsr]
  · simp [rdmsr, wrmsr, Std.ExtTreeMap.getElem?_insert, h, Ne.symm h]

@[simp] theorem fixed_withFixed (c : Processor) (r r' : FixedRegister) (w : UInt64) :
    (c.withFixed r w).fixed r' = if r = r' then w else c.fixed r' := by
  cases r <;> cases r' <;> rfl

def withNeeded (c : Processor) (r : FixedRegister) : Processor := c.withFixed r (c.fixed r ||| r.needed)

/-- The feature-control register is open and permits VMX operation, and `w` is what it is locked to. -/
structure LocksTo (c : Processor) (w : UInt64) : Prop where
  opened : c.rdmsr .featureControl &&& FeatureControl.lock.bits = 0
  permitted : Within FeatureControl.vmxOutsideSmx.bits (c.rdmsr .featureControl)
  value : w = (c.rdmsr .featureControl &&& featureControlFlags.known) ||| FeatureControl.lock.bits

/-- The processor `c'` has the registers of `c`, perhaps prepared for VMX root operation. -/
structure Prepared (c c' : Processor) : Prop where
  fixed : ∀ r, c'.fixed r = c.fixed r ∨ c'.fixed r = c.fixed r ||| r.needed
  control : c'.rdmsr .featureControl = c.rdmsr .featureControl ∨
    c.LocksTo (c'.rdmsr .featureControl)
  others : ∀ msr, msr ≠ .featureControl → c'.rdmsr msr = c.rdmsr msr

namespace Prepared

variable {c c' d : Processor}

theorem refl (c : Processor) : c.Prepared c := ⟨fun _ => .inl rfl, .inl rfl, fun _ _ => rfl⟩

theorem congr (h : c.Prepared c') (hfixed : d.fixed = c'.fixed) (hmsrs : d.msrs = c'.msrs) :
    c.Prepared d := by
  have hrdmsr := rdmsr_congr hmsrs
  refine ⟨?_, ?_, fun msr hmsr => ?_⟩
  · rw [hfixed]
    exact h.fixed
  · rw [hrdmsr]
    exact h.control
  · rw [hrdmsr]
    exact h.others msr hmsr

theorem withNeeded (h : c.Prepared c') (r : FixedRegister) : c.Prepared (c'.withNeeded r) := by
  refine ⟨fun r' => ?_, h.control, h.others⟩
  rw [Processor.withNeeded, fixed_withFixed]
  split_ifs with heq
  · subst r'
    rcases h.fixed r with hr | hr
    · exact .inr (by rw [hr])
    · exact .inr (by rw [hr, UInt64.or_assoc, UInt64.or_self])
  · exact h.fixed r'

theorem lock (h : c.Prepared c') {w : UInt64} (hw : c'.LocksTo w) :
    c.Prepared (c'.wrmsr .featureControl w) := by
  have hsame : c'.rdmsr .featureControl = c.rdmsr .featureControl := by
    refine h.control.resolve_right fun hlocked => ?_
    have hopened := hw.opened
    rw [hlocked.value, Word.or_and, UInt64.and_self, UInt64.or_comm, Word.or_and_absorb] at hopened
    exact absurd hopened (by decide)
  refine ⟨h.fixed, .inr ?_, fun msr hmsr => ?_⟩
  · rw [rdmsr_wrmsr, if_pos rfl]
    obtain ⟨hopened, hpermitted, hvalue⟩ := hw
    rw [hsame] at hopened hpermitted hvalue
    exact ⟨hopened, hpermitted, hvalue⟩
  · rw [rdmsr_wrmsr, if_neg hmsr, h.others msr hmsr]

end Prepared

end Processor

namespace Host

open Hypervisor.Action

/-- The invariant that the registers of `c` are at most prepared. -/
theorem prepared_enduring (c : Processor) : Enduring fun h : Host => c.Prepared h.cpu.processor where
  overflow := fun _ _ _ => trivial
  log := fun _ h => h
  kernel := fun _ h => h
  spent := fun _ _ h => h.congr rfl rfl
  memory := fun _ _ h => h
  flush := fun _ h => h.congr rfl rfl

variable {c : Processor}

theorem lockFeatureControl_prepared :
    lockFeatureControl.Upholds (fun h => c.Prepared h.cpu.processor) fun _ _ => True := by
  intro h hh
  simp only [lockFeatureControl, processor, onProcessor, onCpu, bind_assoc, pure_bind, ends_bind,
    ends_get, ends_require, ends_ite, ends_pure, ends_modify, Flags.contains_truncate]
  split
  · rename_i hpermitted
    split
    · exact hh
    · rename_i hopened
      rw [Within, UInt64.and_comm,
        Word.and_bit_eq_self_iff _ (show FeatureControl.lock.bits.toNat = 2 ^ 0 from rfl),
        not_not] at hopened
      exact hh.lock ⟨hopened, hpermitted, rfl⟩
  · exact hh

theorem enterRoot_prepared (region : Hpa) :
    (enterRoot region).Upholds (fun h => c.Prepared h.cpu.processor) fun _ _ => True := by
  have hendures := prepared_enduring c
  refine Upholds.bind (hendures.formatBlock region) fun _ => ?_
  have hfixed : ∀ r, (prepareFixed r).Upholds (fun h => c.Prepared h.cpu.processor) fun _ _ => True := by
    intro r h hh
    simp only [prepareFixed, processor, onProcessor, onCpu, bind_assoc, pure_bind, ends_bind, ends_get,
      ends_modify, ends_require]
    split <;> exact hh.withNeeded r
  refine Upholds.bind (hfixed _) fun _ => Upholds.bind (hfixed _) fun _ => ?_
  refine Upholds.bind lockFeatureControl_prepared fun _ => Upholds.bind (hendures.expose _ _) fun _ => ?_
  refine Upholds.bind Calm.processor fun p => Upholds.bind Upholds.require fun _ => ?_
  refine Upholds.bind Upholds.require fun _ => ?_
  exact fun _ hh => Processor.Prepared.congr hh rfl rfl

/-- Whether or not VMX root operation is entered, two bits of control registers and the lock of the
feature-control register are all that is set.  Bits that have no name are kept everywhere but in the
feature-control register, which loses them when it is locked. -/
theorem vmxOn_prepares (h : Host) :
    vmxOn.Ends h (fun _ h' => h.cpu.processor.Prepared h'.cpu.processor)
      (fun _ h' => h.cpu.processor.Prepared h'.cpu.processor) fun _ _ => True := by
  have hendures := prepared_enduring h.cpu.processor
  exact hendures.vmxOn_of enterRoot_prepared (fun _ _ hh => hh) h (.refl _)

/-- Bit 20 has no name, and is lost. -/
example :
    let c := Processor.fresh.wrmsr .featureControl 0x100004
    (vmxOn.final { cpu := { id := 0, processor := c } }).cpu.processor.rdmsr .featureControl = 0x5 := by
  decide +kernel

end Host

end Hypervisor
