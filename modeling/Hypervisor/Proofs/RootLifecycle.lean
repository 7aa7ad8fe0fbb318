import Hypervisor.Proofs.Guest.Construction
import Hypervisor.Proofs.Machine
import Hypervisor.Proofs.Ownership.History
import Hypervisor.Proofs.RootPreparation

/-!
# The life of VMX root operation

Cpus enter and leave VMX root operation in any order, while their registers and the limit on
allocations change.  Each cpu that is in it has given up a page of its own, and nothing else takes a page:
there are as many more live pages as there are cpus in VMX root operation.
-/

namespace Hypervisor

open Hypervisor.Action Word

namespace Memory

variable {m m' : Memory} {ε : Type} {E : ε → Memory → Prop} {F : Panic → Memory → Prop}

/-- The next allocation succeeds: the limit permits it, and there is an address for the page. -/
def Grants (m : Memory) : Prop := m.budget ≠ some 0 ∧ m.next.toNat < 0xffff000000000000

/-- An allocation succeeds exactly if it is granted, and only adds a page. -/
theorem allocRetained_grants :
    (allocRetained : MemoryM ε (Option Hpa)).Ends m
      (fun r m' => match r with
        | none => ¬ m.Grants ∧ m'.pages = m.pages ∧ m'.next = m.next
        | some p => m.Grants ∧ m.Allocates m' p)
      E F := by
  have halloc : (alloc : MemoryM ε (Option Hpa)).Ends m (fun r _ => r.isSome = true ↔ m.Grants)
      (fun _ _ => False) fun _ _ => False := by
    by_cases hbudget : m.budget = some 0
    · simp [alloc, Ends, EStateM.run, hbudget, Grants]
    · by_cases hnext : m.next < 0xffff000000000000
      · have hgrants : m.Grants := ⟨hbudget, UInt64.lt_iff_toNat_lt.1 hnext⟩
        simp [alloc, Ends, EStateM.run, hbudget, Address.ofWord?, Space.isValid, hnext, hgrants]
      · have hgrants : ¬ m.Grants := fun h => hnext (UInt64.lt_iff_toNat_lt.2 h.2)
        simp [alloc, Ends, EStateM.run, hbudget, Address.ofWord?, Space.isValid, hnext, hgrants]
  have hretained : (allocRetained : MemoryM ε (Option Hpa)).Ends m
      (fun r _ => r.isSome = true ↔ m.Grants) (fun _ _ => True) fun _ _ => True := by
    rw [allocRetained, ends_bind]
    refine Ends.mono halloc (fun r m₁ hr => ?_) (fun _ _ h => h.elim) fun _ _ h => h.elim
    cases r with
    | none => exact hr
    | some p =>
        show Ends _ m₁ _ _ _
        rw [ends_bind]
        exact retain_ends (fun _ => hr) fun _ _ => trivial
  have heffect : (allocRetained : MemoryM ε (Option Hpa)).Ends m
      (fun r m' => match r with
        | none => m'.pages = m.pages ∧ m'.next = m.next
        | some p => m.Allocates m' p)
      (fun _ _ => False) fun _ _ => False :=
    allocRetained_ends (fun _ hpages hnext => ⟨hpages, hnext⟩) fun _ _ hm => hm
  refine Ends.mono (hretained.and heffect) (fun r m' hr => ?_) (fun _ _ h => h.2.elim)
    fun _ _ h => h.2.elim
  cases r with
  | none => exact ⟨fun h => absurd (hr.1.2 h) Bool.false_ne_true, hr.2⟩
  | some p => exact ⟨hr.1.1 rfl, hr.2⟩

end Memory

theorem obeysFixedBits_iff {value fixed0 fixed1 : UInt64} :
    obeysFixedBits value fixed0 fixed1 = true ↔ Within fixed0 value ∧ Within value fixed1 := by
  rw [obeysFixedBits, Bool.and_eq_true, beq_iff_eq, beq_iff_eq, Within, UInt64.and_comm fixed0]
  refine and_congr_right fun _ => ⟨fun h => ?_, fun h => ?_⟩
  · have hnot := Word.and_not_of_and_eq_zero h
    rwa [UInt64.not_not] at hnot
  · rw [← h, UInt64.and_assoc, UInt64.and_not_self, UInt64.and_zero]

namespace Processor

/-- With the bit that VMX operation needs, a control register has all bits that must be set and no others
than may be. -/
def Obeys (c : Processor) (r : FixedRegister) : Prop :=
  Within (c.rdmsr r.mustBeSet) (c.fixed r ||| r.needed) ∧
    Within (c.fixed r ||| r.needed) (c.rdmsr r.mayBeSet)

/-- What a processor must report before it enters VMX root operation. -/
structure Eligible (c : Processor) : Prop where
  supported : (c.cpuid 1 0).ecx &&& CpuidResult.vmxBit ≠ 0
  fits : VmxBasic.regionSize (c.rdmsr .vmxBasic) ≤ pageSize
  fixed : ∀ r, c.Obeys r
  permitted : Within FeatureControl.vmxOutsideSmx.bits (c.rdmsr .featureControl)

end Processor

namespace Host

variable {h : Host} {region : Hpa} {E : VmError → Host → Prop} {F : Panic → Host → Prop}

theorem formatBlock_formats (hlive : region.pageDown ∈ h.memory.pages) :
    (formatBlock region).Ends h
      (fun _ h' => VmxBasic.regionSize (h.cpu.processor.rdmsr .vmxBasic) ≤ pageSize ∧
        ∃ f, h' = { h with memory := h.memory.edited region f })
      (fun _ h' => ¬ VmxBasic.regionSize (h.cpu.processor.rdmsr .vmxBasic) ≤ pageSize ∧ h' = h)
      F := by
  rw [formatBlock, ends_bind, processor, ends_bind, ends_get, ends_pure, ends_bind, ends_require]
  split_ifs with hsize
  · rw [decide_eq_true_eq] at hsize
    simp only [onMemory, onPlatform, Platform.onMemory, ends_onPart]
    exact Memory.editPage_ends (fun _ => ⟨hsize, _, rfl⟩) fun _ hfree => absurd hlive hfree
  · rw [decide_eq_true_eq] at hsize
    exact ⟨hsize, rfl⟩

theorem prepareFixed_ends (r : FixedRegister) :
    (prepareFixed r).Ends h
      (fun _ h' => h.cpu.processor.Obeys r ∧ h' = h.withProcessor (h.cpu.processor.withNeeded r))
      (fun _ h' => ¬ h.cpu.processor.Obeys r ∧ h' = h.withProcessor (h.cpu.processor.withNeeded r))
      F := by
  simp only [prepareFixed, processor, onProcessor, onCpu, bind_assoc, pure_bind, ends_bind, ends_get,
    ends_modify, ends_require, obeysFixedBits_iff]
  split
  · exact ⟨‹_›, rfl⟩
  · exact ⟨‹_›, rfl⟩

theorem lockFeatureControl_ends :
    lockFeatureControl.Ends h
      (fun _ h' =>
        Within FeatureControl.vmxOutsideSmx.bits (h.cpu.processor.rdmsr .featureControl) ∧
          ∃ msrs, h' = h.withProcessor { h.cpu.processor with msrs := msrs })
      (fun _ h' =>
        ¬ Within FeatureControl.vmxOutsideSmx.bits (h.cpu.processor.rdmsr .featureControl) ∧ h' = h)
      F := by
  simp only [lockFeatureControl, processor, onProcessor, onCpu, bind_assoc, pure_bind, ends_bind,
    ends_get, ends_require, ends_ite, ends_pure, ends_modify, Flags.contains_truncate]
  split
  · rename_i hpermitted
    split
    · exact ⟨hpermitted, _, rfl⟩
    · exact ⟨hpermitted, _, rfl⟩
  · exact ⟨‹_›, trivial⟩

theorem vmxon_enters (hroot : h.cpu.processor.root = false) (hfaults : h.cpu.processor.faults = [])
    (hcr4 : h.cpu.processor.cr4 &&& Cr4.vmxEnable.bits ≠ 0) :
    vmxon.Ends h (fun _ h' => h' = h.withProcessor { h.cpu.processor with root := true }) E F := by
  rw [vmxon, ends_bind]
  refine expose_ends ?_ (Processor.forall_faults hfaults)
  rw [spent_of_faultless hfaults]
  simp only [processor, onProcessor, onCpu, bind_assoc, pure_bind, ends_bind, ends_get, ends_require,
    ends_modify, hroot, Bool.not_false, if_true, bne_iff_ne]
  rw [if_pos hcr4]
  rfl

def Stamps (m : Memory) (p : Hpa) (m' : Memory) : Prop := m' = m ∨ ∃ f, m' = m.edited p f

theorem Stamps.regular {m m' : Memory} (h : Stamps m region m') (hm : m.Regular) : m'.Regular := by
  obtain rfl | ⟨f, rfl⟩ := h
  · exact hm
  · exact hm.edited f

theorem Stamps.adds {m m₁ m' : Memory} {S : Set Hpa} (h : Stamps m₁ region m') (hm : m.Adds S m₁) :
    m.Adds S m' := by
  obtain rfl | ⟨f, rfl⟩ := h
  · exact hm
  · exact hm.edited f

/-- With a live page, a processor enters VMX root operation exactly if it is eligible. -/
theorem enterRoot_enters (hlive : region.pageDown ∈ h.memory.pages)
    (hroot : h.cpu.processor.root = false) (hfaults : h.cpu.processor.faults = [])
    (hsupported : (h.cpu.processor.cpuid 1 0).ecx &&& CpuidResult.vmxBit ≠ 0) :
    (enterRoot region).Ends h
      (fun _ h' => h.cpu.processor.Eligible ∧ Stamps h.memory region h'.memory)
      (fun _ h' => ¬ h.cpu.processor.Eligible ∧ Stamps h.memory region h'.memory) F := by
  rw [enterRoot, ends_bind]
  refine Ends.mono (formatBlock_formats hlive) (fun _ h₁ hh₁ => ?_)
    (fun _ h₁ hh₁ => ⟨fun he => hh₁.1 he.fits, .inl (by rw [hh₁.2])⟩) fun _ _ h => h
  obtain ⟨hfits, f, rfl⟩ := hh₁
  have hstamped : Stamps h.memory region (h.memory.edited region f) := .inr ⟨f, rfl⟩
  rw [ends_bind]
  refine Ends.mono (prepareFixed_ends _) (fun _ h₂ hh₂ => ?_)
    (fun _ h₂ hh₂ => ⟨fun he => hh₂.1 (he.fixed .cr0), by rw [hh₂.2]; exact hstamped⟩) fun _ _ h => h
  obtain ⟨hcr0, rfl⟩ := hh₂
  rw [ends_bind]
  refine Ends.mono (prepareFixed_ends _) (fun _ h₃ hh₃ => ?_)
    (fun _ h₃ hh₃ => ⟨fun he => hh₃.1 (he.fixed .cr4), by rw [hh₃.2]; exact hstamped⟩) fun _ _ h => h
  obtain ⟨hcr4, rfl⟩ := hh₃
  rw [ends_bind]
  refine Ends.mono lockFeatureControl_ends (fun _ h₄ hh₄ => ?_)
    (fun _ h₄ hh₄ => ⟨fun he => hh₄.1 he.permitted, by rw [hh₄.2]; exact hstamped⟩) fun _ _ h => h
  obtain ⟨hpermitted, msrs, rfl⟩ := hh₄
  have henabled : (h.cpu.processor.cr4 ||| Cr4.vmxEnable.bits) &&& Cr4.vmxEnable.bits ≠ 0 := by
    rw [Word.or_and, UInt64.and_self, UInt64.or_comm, Word.or_and_absorb]
    decide
  refine Ends.mono (vmxon_enters (E := fun _ _ => False) hroot hfaults henabled) (fun _ h₅ hh₅ => ?_)
    (fun _ _ h => h.elim) fun _ _ h => h
  have hfixed : ∀ r, h.cpu.processor.Obeys r := by
    intro r
    cases r with
    | cr0 => exact hcr0
    | cr4 => exact hcr4
  refine ⟨⟨hsupported, hfits, hfixed, hpermitted⟩, ?_⟩
  rw [hh₅]
  exact hstamped

theorem checkSupport_ends :
    checkSupport.Ends h
      (fun _ h' => (h.cpu.processor.cpuid 1 0).ecx &&& CpuidResult.vmxBit ≠ 0 ∧ h' = h)
      (fun _ h' => ¬ (h.cpu.processor.cpuid 1 0).ecx &&& CpuidResult.vmxBit ≠ 0 ∧
        h'.memory = h.memory ∧ h'.cpu = h.cpu) F := by
  simp only [checkSupport, processor, bind_assoc, pure_bind, ends_bind, ends_get, ends_ite, ends_pure,
    bne_iff_ne]
  split
  · exact ⟨‹_›, trivial⟩
  · exact ⟨‹_›, rfl, rfl⟩

/-- With a page that was added to memory, the cpu enters VMX root operation if its processor is eligible,
and else gives the page back. -/
private theorem enterGiven_ends {m : Memory} (hregular : h.memory.Regular)
    (hadds : m.Adds {region} h.memory) (hmirrors : h.cpu.Mirrors) (hregion : h.cpu.region = none)
    (hsupported : (h.cpu.processor.cpuid 1 0).ecx &&& CpuidResult.vmxBit ≠ 0) :
    (do
      match ← attempt (enterRoot region) with
      | .ok () =>
          onCpu fun c => { c with region := some region }
          sayOnCpu .info "Entered VMX root operation."
      | .error e =>
          onMemory (Memory.release region)
          fail e : HostM Unit).Ends h
      (fun _ h' => h.cpu.processor.Eligible ∧ h'.cpu.Mirrors ∧ h'.memory.Regular ∧
        h'.cpu.region = some region ∧ m.Adds {region} h'.memory)
      (fun _ h' => ¬ h.cpu.processor.Eligible ∧ h'.cpu.Mirrors ∧ h'.memory.Regular ∧
        h'.cpu.region = none ∧ m.Adds ∅ h'.memory)
      fun _ _ => False := by
  have hmem : region ∈ h.memory.pages := (hadds.live region).2 (.inl rfl)
  have hlive : region.pageDown ∈ h.memory.pages := by
    rw [Address.pageDown_of_isPageAligned (hregular.page hmem).1]
    exact hmem
  have hout : h.cpu.processor.root = false := hmirrors.root_of_no_region hregion
  have hfollows : Follows h none false h :=
    ⟨hregion, hout, hmirrors.current, hmirrors.faultless, fun _ => rfl, Nat.le_refl _⟩
  rw [ends_bind, ends_attempt]
  refine Ends.mono ((enterRoot_follows region hfollows).and
    (enterRoot_enters (F := fun _ _ => False) hlive hout hmirrors.faultless hsupported))
    (fun _ h₁ hh₁ => ?_) (fun e h₁ hh₁ => ?_) fun _ _ h => h.2
  · obtain ⟨hfollows, heligible, hstamps⟩ := hh₁
    exact ⟨heligible, ⟨hfollows.current, hfollows.root.symm, hfollows.faultless⟩,
      hstamps.regular hregular, rfl, hstamps.adds hadds⟩
  · obtain ⟨hfollows, heligible, hstamps⟩ := hh₁
    have hadds₁ : m.Adds {region} h₁.memory := hstamps.adds hadds
    show Ends _ h₁ _ _ _
    rw [ends_bind, onMemory, onPlatform, Platform.onMemory, ends_onPart, ends_onPart]
    refine Memory.release_ends (fun _ => ?_) fun _ hloose => ?_
    · refine ⟨heligible, ⟨hfollows.current, ?_, hfollows.faultless⟩,
        (hstamps.regular hregular).released, hfollows.region, ?_⟩
      · show h₁.cpu.region.isSome = h₁.cpu.processor.root
        rw [hfollows.region, hfollows.root]
        rfl
      · exact Memory.Adds.released (by simpa using hadds₁) (Set.notMem_empty region)
    · have hone : h₁.memory.refs region = 1 := hadds₁.single region rfl
      exact hloose (hone ▸ Nat.one_pos)

/-- A cpu outside VMX root operation enters it exactly if its processor is eligible and a page can be had,
and takes that page; otherwise all pages and references are as before. -/
theorem vmxOn_enters (hregular : h.memory.Regular) (hmirrors : h.cpu.Mirrors)
    (hregion : h.cpu.region = none) :
    vmxOn.Ends h
      (fun _ h' => (h.cpu.processor.Eligible ∧ h.memory.Grants) ∧ h'.cpu.Mirrors ∧ h'.memory.Regular ∧
        ∃ p, h'.cpu.region = some p ∧ h.memory.Adds {p} h'.memory)
      (fun _ h' => ¬ (h.cpu.processor.Eligible ∧ h.memory.Grants) ∧ h'.cpu.Mirrors ∧
        h'.memory.Regular ∧ h'.cpu.region = none ∧ h.memory.Adds ∅ h'.memory)
      fun _ _ => False := by
  rw [vmxOn, ends_bind, ends_get, hregion, if_neg (by decide), ends_bind]
  refine Ends.mono checkSupport_ends (fun _ h₁ hh₁ => ?_) (fun _ h₁ hh₁ => ?_) fun _ _ h => h
  · obtain ⟨hsupported, rfl⟩ := hh₁
    rw [ends_bind, onMemory, onPlatform, Platform.onMemory, ends_onPart, ends_onPart]
    refine Ends.mono (Memory.allocRetained_grants (E := fun _ _ => False)) (fun r m₁ hr => ?_)
      (fun _ _ h => h.elim) fun _ _ h => h
    rw [ends_bind, ends_orFail]
    cases r with
    | none =>
        obtain ⟨hgrants, hpages, hnext⟩ := hr
        exact ⟨fun h => hgrants h.2, hmirrors, hregular.of_eq hpages hnext, hregion,
          (Memory.Adds.refl _).of_pages_eq hpages⟩
    | some region =>
        obtain ⟨hgrants, hm⟩ := hr
        have hadds : h₁.memory.Adds {region} m₁ := by
          simpa using (Memory.Adds.refl h₁.memory).allocates hm (hregular.next_notMem hm.address)
        have hgiven := enterGiven_ends (h := { h₁ with memory := m₁ }) (hregular.allocates hm) hadds
          hmirrors hregion hsupported
        refine Ends.mono hgiven (fun _ h₂ hh₂ => ?_) (fun _ h₂ hh₂ => ?_) fun _ _ h => h
        · obtain ⟨heligible, hmirrors₂, hregular₂, hregion₂, hadds₂⟩ := hh₂
          exact ⟨⟨heligible, hgrants⟩, hmirrors₂, hregular₂, region, hregion₂, hadds₂⟩
        · exact ⟨fun h => hh₂.1 h.1, hh₂.2⟩
  · obtain ⟨hsupported, hmemory, hcpu⟩ := hh₁
    rw [hmemory, hcpu]
    exact ⟨fun h => hsupported h.1.supported, hmirrors, hregular, hregion, .refl _⟩

theorem vmxOff_leaves {p : Hpa} (hregular : h.memory.Regular) (hmirrors : h.cpu.Mirrors)
    (hregion : h.cpu.region = some p) (hrefs : h.memory.refs p = 1) :
    vmxOff.Ends h
      (fun _ h' => h'.cpu.Mirrors ∧ h'.memory.Regular ∧ h'.cpu.region = none ∧
        h'.cpu.current = none ∧ h'.cpu.processor.current = none ∧
        h'.memory = h.memory.released p)
      (fun _ _ => False) fun _ _ => False := by
  have hroot : h.cpu.processor.root = true := hmirrors.root_of_region hregion
  rw [vmxOff, ends_bind, ends_get, hregion]
  show Ends _ h _ _ _
  rw [ends_bind, vmxoff, ends_bind]
  refine expose_ends ?_ (Processor.forall_faults hmirrors.faultless)
  rw [spent_of_faultless hmirrors.faultless]
  simp only [processor, onProcessor, onCpu, bind_assoc, pure_bind, ends_bind, ends_get, ends_require,
    ends_modify, hroot, if_true, onMemory, onPlatform, Platform.onMemory, ends_onPart]
  refine Memory.release_ends (fun _ => ?_) fun _ hloose => ?_
  · exact ⟨⟨rfl, rfl, hmirrors.faultless⟩, hregular.released, trivial, trivial, trivial, rfl⟩
  · exact hloose (hrefs ▸ Nat.one_pos)

end Host

/-- A cpu enters or leaves VMX root operation, or something changes on which that depends. -/
def Order.Toggles : Order → Prop
  | .vmxOn | .vmxOff | .setMsr .. | .setCpuid .. | .setCpuidEcx .. | .setControlRegisters ..
  | .limitAllocations _ => True
  | _ => False

namespace Machine

variable {m₀ m : Machine} {i : Nat} {c : Cpu} {t : Host}

/-- The machines that such orders lead to, whether they succeed or fail. -/
inductive Toggled (m₀ : Machine) : Machine → Prop
  | start : Toggled m₀ m₀
  | next {m : Machine} {c : Command} (before : Toggled m₀ m) (toggles : c.order.Toggles) :
      Toggled m₀ ((perform c).final m)

/-- The number of cpus in VMX root operation. -/
def rooted (m : Machine) : Nat := m.cpus.countP fun c => c.processor.root

structure Accounted (m₀ m : Machine) : Prop where
  regular : m.memory.Regular
  mirrors : ∀ {i : Nat} {c : Cpu}, m.cpus[i]? = some c → c.Mirrors
  held : ∀ {i : Nat} {c : Cpu} {p}, m.cpus[i]? = some c → c.region = some p → m.memory.refs p = 1
  apart : ∀ {i j : Nat} {c d : Cpu} {p}, m.cpus[i]? = some c → m.cpus[j]? = some d →
    c.region = some p → d.region = some p → i = j
  count : m.memory.pages.size = m₀.memory.pages.size + m.rooted

theorem withHost_host (hc : m.cpus[i]? = some c) : m.withHost i (m.host c) = m := by
  have hcpus : m.cpus.setIfInBounds i c = m.cpus := by
    refine Array.ext_getElem? fun j => ?_
    rw [Array.getElem?_setIfInBounds]
    split_ifs with hj hlt
    · rw [← hj, hc]
    · exact absurd (Array.getElem?_eq_some_iff.1 hc).1 hlt
    · rfl
  show { m with cpus := m.cpus.setIfInBounds i c } = m
  rw [hcpus]

theorem rooted_withHost (hc : m.cpus[i]? = some c) :
    (m.withHost i t).rooted + (if c.processor.root then 1 else 0) =
      m.rooted + if t.cpu.processor.root then 1 else 0 := by
  obtain ⟨hi, rfl⟩ := Array.getElem?_eq_some_iff.1 hc
  have hset : m.cpus.setIfInBounds i t.cpu = m.cpus.set i t.cpu hi := by
    rw [Array.setIfInBounds, dif_pos hi]
  have hcount : m.cpus[i].processor.root = true → 0 < m.rooted := fun hroot =>
    Array.countP_pos_iff.2 ⟨m.cpus[i], Array.getElem_mem hi, hroot⟩
  show (m.cpus.setIfInBounds i t.cpu).countP _ + _ = _
  rw [hset, Array.countP_set hi]
  show m.rooted - _ + _ + _ = _
  cases hroot : m.cpus[i].processor.root with
  | false => simp
  | true =>
      have hpos := hcount hroot
      simp only [if_true]
      omega

namespace Accounted

theorem withHost (h : m₀.Accounted m) (hc : m.cpus[i]? = some c) (hregular : t.memory.Regular)
    (hmirrors : t.cpu.Mirrors) (hheld : ∀ p, t.cpu.region = some p → t.memory.refs p = 1)
    (hothers : ∀ (j : Nat) d q, j ≠ i → m.cpus[j]? = some d → d.region = some q →
      t.memory.refs q = 1 ∧ t.cpu.region ≠ some q)
    (hcount : t.memory.pages.size + (if c.processor.root then 1 else 0) =
      m.memory.pages.size + if t.cpu.processor.root then 1 else 0) :
    m₀.Accounted (m.withHost i t) where
  regular := hregular
  mirrors := fun hd => by
    obtain ⟨-, rfl⟩ | ⟨-, hd⟩ := cpus_withHost hd
    · exact hmirrors
    · exact h.mirrors hd
  held := fun hd hq => by
    obtain ⟨-, rfl⟩ | ⟨hne, hd⟩ := cpus_withHost hd
    · exact hheld _ hq
    · exact (hothers _ _ _ hne hd hq).1
  apart := fun hd he hq hr => by
    obtain ⟨hi, rfl⟩ | ⟨hi, hd⟩ := cpus_withHost hd <;>
      obtain ⟨hj, rfl⟩ | ⟨hj, he⟩ := cpus_withHost he
    · exact hi.trans hj.symm
    · exact absurd hq (hothers _ _ _ hj he hr).2
    · exact absurd hr (hothers _ _ _ hi hd hq).2
    · exact h.apart hd he hq hr
  count := by
    have hrooted := rooted_withHost (t := t) hc
    have hold := h.count
    show t.memory.pages.size = _
    omega

theorem withProcessor (h : m₀.Accounted m) (hc : m.cpus[i]? = some c) {p : Processor}
    (hroot : p.root = c.processor.root) (hcurrent : p.current = c.processor.current)
    (hfaults : p.faults = c.processor.faults) :
    m₀.Accounted (m.withHost i ((m.host c).withProcessor p)) := by
  have hmirrors := h.mirrors hc
  refine h.withHost hc h.regular ⟨?_, ?_, ?_⟩ (fun q hq => h.held hc hq) ?_ ?_
  · exact hmirrors.current.trans hcurrent.symm
  · exact hmirrors.root.trans hroot.symm
  · exact hfaults.trans hmirrors.faultless
  · exact fun j d q hj hd hq => ⟨h.held hd hq, fun hr => hj (h.apart hd hc hq hr)⟩
  · show _ + _ = _ + if p.root = true then 1 else 0
    rw [hroot]
    rfl

theorem entered {p : Hpa} (h : m₀.Accounted m) (hc : m.cpus[i]? = some c) (hout : c.region = none)
    (hregular : t.memory.Regular) (hmirrors : t.cpu.Mirrors) (hregion : t.cpu.region = some p)
    (hadds : m.memory.Adds {p} t.memory) : m₀.Accounted (m.withHost i t) := by
  have hlive : ∀ {j : Nat} {d : Cpu} {q}, m.cpus[j]? = some d → d.region = some q →
      q ∈ m.memory.pages := fun hd hq => Memory.mem_of_refs_pos (h.held hd hq ▸ Nat.one_pos)
  refine h.withHost hc hregular hmirrors (fun q hq => ?_) (fun j d q hj hd hq => ?_) ?_
  · exact hadds.single q (Option.some.inj (hq.symm.trans hregion))
  · refine ⟨(hadds.kept q (hlive hd hq)).trans (h.held hd hq), fun hr => ?_⟩
    have hqp : q = p := Option.some.inj (hr.symm.trans hregion)
    exact hadds.new q hqp (hlive hd hq)
  · rw [hadds.size, Set.ncard_singleton, (h.mirrors hc).root_of_no_region hout,
      hmirrors.root_of_region hregion]
    rfl

theorem stayed (h : m₀.Accounted m) (hc : m.cpus[i]? = some c) (hout : c.region = none)
    (hregular : t.memory.Regular) (hmirrors : t.cpu.Mirrors) (hregion : t.cpu.region = none)
    (hadds : m.memory.Adds ∅ t.memory) : m₀.Accounted (m.withHost i t) := by
  refine h.withHost hc hregular hmirrors (fun q hq => ?_) (fun j d q _ hd hq => ?_) ?_
  · rw [hregion] at hq
    cases hq
  · refine ⟨(hadds.refs_eq q).trans (h.held hd hq), ?_⟩
    rw [hregion]
    exact (Option.some_ne_none q).symm
  · rw [hadds.size, Set.ncard_empty, (h.mirrors hc).root_of_no_region hout,
      hmirrors.root_of_no_region hregion]
    rfl

theorem left {p : Hpa} (h : m₀.Accounted m) (hc : m.cpus[i]? = some c) (hin : c.region = some p)
    (hregular : t.memory.Regular) (hmirrors : t.cpu.Mirrors) (hregion : t.cpu.region = none)
    (hadds : t.memory.Adds {p} m.memory) : m₀.Accounted (m.withHost i t) := by
  refine h.withHost hc hregular hmirrors (fun q hq => ?_) (fun j d q hj hd hq => ?_) ?_
  · rw [hregion] at hq
    cases hq
  · have hqp : q ≠ p := fun he => hj (h.apart hd hc hq (he ▸ hin))
    have hmem : q ∈ m.memory.pages := Memory.mem_of_refs_pos (h.held hd hq ▸ Nat.one_pos)
    have hlive : q ∈ t.memory.pages := ((hadds.live q).1 hmem).resolve_left hqp
    refine ⟨(hadds.kept q hlive).symm.trans (h.held hd hq), ?_⟩
    rw [hregion]
    exact (Option.some_ne_none q).symm
  · have hsize : m.memory.pages.size = t.memory.pages.size + 1 := by
      rw [hadds.size, Set.ncard_singleton]
    rw [hsize, (h.mirrors hc).root_of_region hin, hmirrors.root_of_no_region hregion]
    rfl

end Accounted

theorem ends_done {x : MachineM Unit} {Q : Answer → Machine → Prop} {E : VmError → Machine → Prop}
    {F : Panic → Machine → Prop} :
    (done x).Ends m Q E F ↔ x.Ends m (fun _ m' => Q .done m') E F := by
  rw [done, ends_bind]
  exact Iff.rfl

/-- A cpu has entered VMX root operation and taken a page for it. -/
def EntersRoot (m : Machine) (i : Nat) (m' : Machine) : Prop :=
  ∃ c p, m'.cpus[i]? = some c ∧ c.processor.root = true ∧ c.region = some p ∧
    m.memory.Adds {p} m'.memory

/-- A cpu is still outside VMX root operation, and the same pages have as many references as before. -/
def StaysOutside (m : Machine) (i : Nat) (m' : Machine) : Prop :=
  ∃ c, m'.cpus[i]? = some c ∧ c.processor.root = false ∧ c.region = none ∧
    (∀ q, q ∈ m'.memory.pages ↔ q ∈ m.memory.pages) ∧ ∀ q, m'.memory.refs q = m.memory.refs q

/-- A cpu has left VMX root operation with no block current, and released its page. -/
def LeavesRoot (m : Machine) (i : Nat) (m' : Machine) : Prop :=
  ∃ c d p, m.cpus[i]? = some c ∧ c.region = some p ∧ m'.cpus[i]? = some d ∧
    d.processor.root = false ∧ d.region = none ∧ d.current = none ∧ d.processor.current = none ∧
    m'.memory.Adds {p} m.memory

theorem run_vmxOn_inside (hc : m.cpus[i]? = some c) (hin : c.region ≠ none) :
    (perform { cpu := i, order := .vmxOn }).run m = .ok .done m := by
  have hends : (perform { cpu := i, order := .vmxOn }).Ends m (fun a m' => a = .done ∧ m' = m)
      (fun _ _ => False) fun _ _ => False := by
    refine ends_done.2 (onHost_ends_of hc ?_)
    have hsome : (m.host c).cpu.region.isSome = true := Option.isSome_iff_ne_none.2 hin
    rw [Host.vmxOn, ends_bind, ends_get, if_pos hsome]
    exact ⟨rfl, withHost_host hc⟩
  obtain ⟨_, _, hrun, rfl, rfl⟩ := hends.exists_ok
  exact hrun

theorem run_vmxOff_outside (hc : m.cpus[i]? = some c) (hout : c.region = none) :
    (perform { cpu := i, order := .vmxOff }).run m = .ok .done m := by
  have hends : (perform { cpu := i, order := .vmxOff }).Ends m (fun a m' => a = .done ∧ m' = m)
      (fun _ _ => False) fun _ _ => False := by
    have hnone : (m.host c).cpu.region = none := hout
    refine ends_done.2 (onHost_ends_of hc ?_)
    rw [Host.vmxOff, ends_bind, ends_get, hnone]
    exact ⟨rfl, withHost_host hc⟩
  obtain ⟨_, _, hrun, rfl, rfl⟩ := hends.exists_ok
  exact hrun

namespace Accounted

theorem vmxOn (h : m₀.Accounted m) (hc : m.cpus[i]? = some c) (hout : c.region = none) :
    (perform { cpu := i, order := .vmxOn }).Ends m
      (fun _ m' => (c.processor.Eligible ∧ m.memory.Grants) ∧ m.EntersRoot i m' ∧ m₀.Accounted m')
      (fun _ m' => ¬ (c.processor.Eligible ∧ m.memory.Grants) ∧ m.StaysOutside i m' ∧ m₀.Accounted m')
      fun _ _ => False := by
  refine ends_done.2 (onHost_ends_of hc ?_)
  refine Ends.mono (Host.vmxOn_enters h.regular (h.mirrors hc) hout) (fun _ t ht => ?_)
    (fun _ t ht => ?_) fun _ _ h => h
  · obtain ⟨hconditions, hmirrors, hregular, p, hregion, hadds⟩ := ht
    exact ⟨hconditions,
      ⟨t.cpu, p, cpus_withHost_self t hc, hmirrors.root_of_region hregion, hregion, hadds⟩,
      h.entered hc hout hregular hmirrors hregion hadds⟩
  · obtain ⟨hconditions, hmirrors, hregular, hregion, hadds⟩ := ht
    have hpages : ∀ q, q ∈ t.memory.pages ↔ q ∈ m.memory.pages := fun q =>
      (hadds.live q).trans (or_iff_right (Set.notMem_empty q))
    exact ⟨hconditions,
      ⟨t.cpu, cpus_withHost_self t hc, hmirrors.root_of_no_region hregion, hregion, hpages,
        hadds.refs_eq⟩,
      h.stayed hc hout hregular hmirrors hregion hadds⟩

theorem vmxOff {p : Hpa} (h : m₀.Accounted m) (hc : m.cpus[i]? = some c) (hin : c.region = some p) :
    (perform { cpu := i, order := .vmxOff }).Ends m (fun _ m' => m.LeavesRoot i m' ∧ m₀.Accounted m')
      (fun _ _ => False) fun _ _ => False := by
  refine ends_done.2 (onHost_ends_of hc ?_)
  have hone : m.memory.refs p = 1 := h.held hc hin
  refine Ends.mono (Host.vmxOff_leaves h.regular (h.mirrors hc) hin hone) (fun _ t ht => ?_)
    (fun _ _ h => h) fun _ _ h => h
  obtain ⟨hmirrors, hregular, hregion, hcurrent, hloaded, hmemory⟩ := ht
  have hadds : t.memory.Adds {p} m.memory := by
    rw [hmemory]
    exact .of_released hone
  exact ⟨⟨c, t.cpu, p, hc, hin, cpus_withHost_self t hc, hmirrors.root_of_no_region hregion, hregion,
    hcurrent, hloaded, hadds⟩, h.left hc hin hregular hmirrors hregion hadds⟩

/-- Such orders keep the account, and none of them panics. -/
theorem perform (h : m₀.Accounted m) {c : Command} (hc : c.order.Toggles) :
    (Machine.perform c).Ends m (fun _ m' => m₀.Accounted m') (fun _ m' => m₀.Accounted m')
      fun _ _ => False := by
  obtain ⟨i, vm, table, order⟩ := c
  have hprocessor : ∀ {f : Processor → Processor}, (∀ p, (f p).root = p.root) →
      (∀ p, (f p).current = p.current) → (∀ p, (f p).faults = p.faults) →
        (done (onHost i (Host.onProcessor f))).Ends m (fun _ m' => m₀.Accounted m')
          (fun _ m' => m₀.Accounted m') fun _ _ => False := fun hroot hcurrent hfaults =>
    ends_done.2 (onHost_ends (fun _ => h) fun c hc =>
      h.withProcessor hc (hroot c.processor) (hcurrent c.processor) (hfaults c.processor))
  cases order <;> try exact hc.elim
  case limitAllocations n =>
    exact ends_done.2 ⟨⟨h.regular.aligned, h.regular.page⟩, h.mirrors, h.held, h.apart, h.count⟩
  case setMsr msr value => exact hprocessor (fun _ => rfl) (fun _ => rfl) fun _ => rfl
  case setCpuid leaf subleaf result =>
    cases subleaf with
    | none => exact hprocessor (fun _ => rfl) (fun _ => rfl) fun _ => rfl
    | some _ => exact hprocessor (fun _ => rfl) (fun _ => rfl) fun _ => rfl
  case setCpuidEcx leaf ecx => exact hprocessor (fun _ => rfl) (fun _ => rfl) fun _ => rfl
  case setControlRegisters cr0 cr4 => exact hprocessor (fun _ => rfl) (fun _ => rfl) fun _ => rfl
  case vmxOn =>
    cases hcpu : m.cpus[i]? with
    | none => exact ends_done.2 (onHost_ends (fun _ => h) fun c hc => by rw [hcpu] at hc; cases hc)
    | some c =>
        by_cases hin : c.region = none
        · exact Ends.mono (h.vmxOn hcpu hin) (fun _ _ hm => hm.2.2) (fun _ _ hm => hm.2.2)
            fun _ _ h => h
        · exact (ends_ok (run_vmxOn_inside hcpu hin)).2 h
  case vmxOff =>
    cases hcpu : m.cpus[i]? with
    | none => exact ends_done.2 (onHost_ends (fun _ => h) fun c hc => by rw [hcpu] at hc; cases hc)
    | some c =>
        cases hin : c.region with
        | none => exact (ends_ok (run_vmxOff_outside hcpu hin)).2 h
        | some p =>
            exact Ends.mono (h.vmxOff hcpu hin) (fun _ _ hm => hm.2) (fun _ _ h => h.elim)
              fun _ _ h => h

theorem start (hregular : m.memory.Regular)
    (houtside : ∀ c ∈ m.cpus, c.Mirrors ∧ c.processor.root = false) : m.Accounted m := by
  have hmem : ∀ {i : Nat} {c : Cpu}, m.cpus[i]? = some c → c ∈ m.cpus := fun hc =>
    Array.mem_of_getElem? hc
  have hnone : ∀ {i : Nat} {c : Cpu}, m.cpus[i]? = some c → c.region = none := by
    intro i c hc
    obtain ⟨hmirrors, hroot⟩ := houtside c (hmem hc)
    exact hmirrors.no_region hroot
  refine ⟨hregular, fun hc => (houtside _ (hmem hc)).1, fun hc hp => ?_, fun hc _ hp _ => ?_, ?_⟩
  · rw [hnone hc] at hp
    cases hp
  · rw [hnone hc] at hp
    cases hp
  · have hrooted : m.rooted = 0 := Array.countP_eq_zero.2 fun c hc => by
      rw [(houtside c hc).2]
      exact Bool.false_ne_true
    rw [hrooted, Nat.add_zero]

theorem of_toggled (hregular : m₀.memory.Regular)
    (houtside : ∀ c ∈ m₀.cpus, c.Mirrors ∧ c.processor.root = false) (h : m₀.Toggled m) :
    m₀.Accounted m := by
  induction h with
  | start => exact start hregular houtside
  | next _ htoggles ih =>
      exact Ends.final (Ends.mono (ih.perform htoggles) (fun _ _ h => h) (fun _ _ h => h)
        fun _ _ h => h.elim)

end Accounted

/-- However cpus enter and leave VMX root operation, there are as many more live pages as there are cpus in
it.  A cpu enters exactly if its processor is eligible and a page can be had; if not, no page and no
reference is changed.  To enter it twice or to leave it twice changes nothing, and whoever leaves it
releases the page that was taken. -/
theorem toggled_accounted (hregular : m₀.memory.Regular)
    (houtside : ∀ c ∈ m₀.cpus, c.Mirrors ∧ c.processor.root = false) (h : m₀.Toggled m) :
    m.memory.pages.size = m₀.memory.pages.size + m.rooted ∧
      ∀ (i : Nat) c, m.cpus[i]? = some c →
        c.region.isSome = c.processor.root ∧
        (c.processor.root = false →
          (perform { cpu := i, order := .vmxOff }).run m = .ok .done m ∧
          (perform { cpu := i, order := .vmxOn }).Ends m
            (fun _ m' => (c.processor.Eligible ∧ m.memory.Grants) ∧ m.EntersRoot i m')
            (fun _ m' => ¬ (c.processor.Eligible ∧ m.memory.Grants) ∧ m.StaysOutside i m')
            fun _ _ => False) ∧
        (c.processor.root = true →
          (perform { cpu := i, order := .vmxOn }).run m = .ok .done m ∧
          (perform { cpu := i, order := .vmxOff }).Ends m (fun _ m' => m.LeavesRoot i m')
            (fun _ _ => False) fun _ _ => False) := by
  have haccounted := Accounted.of_toggled hregular houtside h
  refine ⟨haccounted.count, fun i c hc =>
    ⟨(haccounted.mirrors hc).root, fun hroot => ?_, fun hroot => ?_⟩⟩
  · have hout : c.region = none := (haccounted.mirrors hc).no_region hroot
    refine ⟨run_vmxOff_outside hc hout, ?_⟩
    exact Ends.mono (haccounted.vmxOn hc hout) (fun _ _ hm => ⟨hm.1, hm.2.1⟩)
      (fun _ _ hm => ⟨hm.1, hm.2.1⟩) fun _ _ h => h
  · have hin : c.region.isSome = true := by rw [(haccounted.mirrors hc).root, hroot]
    obtain ⟨p, hp⟩ := Option.isSome_iff_exists.1 hin
    refine ⟨run_vmxOn_inside hc (hp ▸ Option.some_ne_none p), ?_⟩
    exact Ends.mono (haccounted.vmxOff hc hp) (fun _ _ hm => hm.1) (fun _ _ h => h) fun _ _ h => h

/-- Two cpus enter VMX root operation, and the first one leaves it again. -/
theorem toggled_accounted_twice : ∃ m₀ m : Machine, m₀.Toggled m ∧ m.rooted = 1 ∧
    m.memory.pages.size = m₀.memory.pages.size + 1 ∧
      ∃ c, m.cpus[1]? = some c ∧ c.processor.root = true ∧
        (perform { cpu := 1, order := .vmxOn }).run m = .ok .done m := by
  let m₀ : Machine := { cpus := #[{ id := 0 }, { id := 1 }] }
  let m₁ := (perform { order := .vmxOn }).final m₀
  let m₂ := (perform { cpu := 1, order := .vmxOn }).final m₁
  let m₃ := (perform { order := .vmxOff }).final m₂
  have htoggled : m₀.Toggled m₃ := .next (.next (.next .start trivial) trivial) trivial
  have houtside : ∀ c ∈ m₀.cpus, c.Mirrors ∧ c.processor.root = false := by
    intro c hc
    have hcpu : c = { id := 0 } ∨ c = { id := 1 } := by simpa [m₀] using hc
    rcases hcpu with rfl | rfl <;> exact ⟨⟨rfl, rfl, rfl⟩, rfl⟩
  obtain ⟨hsize, hlaws⟩ := toggled_accounted (Memory.fresh_regular none) houtside htoggled
  have hrooted : m₃.rooted = 1 := by decide +kernel
  have hroot : (m₃.cpus[1]?.any fun c => c.processor.root) = true := by decide +kernel
  obtain ⟨c, hc, hroot⟩ := (Option.any_eq_true _ _).1 hroot
  exact ⟨m₀, m₃, htoggled, hrooted, hrooted ▸ hsize, c, hc, hroot, ((hlaws 1 c hc).2.2 hroot).1⟩

end Machine

end Hypervisor
