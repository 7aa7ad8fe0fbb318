import Hypervisor.Proofs.Ownership.Extent
import Hypervisor.Proofs.Ownership.Undisturbed

/-!
# Guests stay within their extents

Whatever callers ask for and whatever guests do, a guest has pages within its extent only, as long as
callers map no page that serves the hypervisor, nor work on a guest's table as on one of no guest.
-/

namespace Hypervisor

/-- Callers map pages for a guest as far as its size allows, and have its faults backed for the size
that it has. -/
def Command.Sized (c : Command) (m : Machine) : Prop :=
  match c.order with
  | .map .. | .insertPage .. => False
  | .access physSize _ | .populateAll physSize =>
      c.table = none ∧ ∀ v, m.vms[c.vm]? = some (some v) → physSize = v.guest.physSize
  | _ => True

namespace Machine

open Hypervisor.Action Memory

variable {m m' : Machine} {k : Callers} {i j : Nat} {v : Vm} {α β : Type}

def Confined (m : Machine) : Prop := m.memory.Fits → m.memory.Confines m.vms

def Stays (m : Machine) (x : MachineM α) : Prop :=
  x.Ends m (fun _ m' => m'.Confined) (fun _ m' => m'.Confined) fun _ _ => True

theorem Rests.confined (h : m.Rests m') (hc : m.Confined) : m'.Confined := by
  unfold Confined
  rw [h.memory, h.vms]
  exact hc

theorem shelters_estate : (m.estate k).Shelters m.vms :=
  fun _ _ hv hr => mem_roots_of_vm hv hr

theorem Orderly.bounded (h : m.Orderly k False) (hc : m.Confined) (hf : m.memory.Fits) :
    m.memory.Bounded (m.estate k) m.vms := by
  refine ⟨h.owned hf, shelters_estate, fun v w r hv hw hr hr' => ?_, hc hf⟩
  obtain ⟨a, hm⟩ := h.owned hf
  obtain ⟨i, hi⟩ := Array.mem_iff_getElem?.1 hv
  obtain ⟨j, hj⟩ := Array.mem_iff_getElem?.1 hw
  obtain rfl := eq_of_root_eq hm.nodup hi hj hr hr'
  cases hi.symm.trans hj
  rfl

theorem confines_of_same {memory : Memory} {vms vms' : Array (Option Vm)} (h : memory.Confines vms)
    (hsame : ∀ v, some v ∈ vms' → ∃ w, some w ∈ vms ∧ w.guest.Same v.guest) : memory.Confines vms' := by
  intro v r hv hr n hn
  obtain ⟨w, hw, hguest⟩ := hsame v hv
  rw [hguest.table] at hr
  rw [hguest.physSize] at hn
  exact h w r hw hr n hn

section Work

variable (h : m.Orderly k False) (hc : m.Confined)

include h hc

theorem onPlatform_stays {x : PlatformM α}
    (hx : x.Safe (fun _ => True) m.toPlatform (m.memory.Bounded (m.estate k) m.vms)
      (fun _ p => p.memory.Confines m.vms) fun _ p => p.memory.Confines m.vms) :
    Stays m (onPlatform x) := by
  rw [Stays, Machine.onPlatform, ends_onPart]
  exact Ends.mono (hx.ends (h.bounded hc)) (fun _ _ hp => hp) (fun _ _ hp => hp) fun _ _ _ => trivial

theorem onMemory_stays {x : MemoryM VmError α}
    (hx : x.Safe (fun _ => True) m.memory (m.memory.Bounded (m.estate k) m.vms)
      (fun _ memory => memory.Confines m.vms) fun _ memory => memory.Confines m.vms) :
    Stays m (onMemory x) :=
  onPlatform_stays h hc (Safe.onPart Platform.memory (fun _ => rfl) (fun _ _ => rfl) hx)

theorem onTable_stays {x : MemoryM EptError α}
    (hx : x.Safe (fun _ => True) m.memory (m.memory.Bounded (m.estate k) m.vms)
      (fun _ memory => memory.Confines m.vms) fun _ memory => memory.Confines m.vms) :
    Stays m (onTable x) :=
  onMemory_stays h hc (Safe.mapError hx)

theorem onMemory_stays_of_bounded {x : MemoryM VmError α}
    (hx : x.Safe (fun _ => True) m.memory (m.memory.Bounded (m.estate k) m.vms)
      (fun _ memory => memory.Bounded (m.estate k) m.vms) fun _ memory =>
        memory.Bounded (m.estate k) m.vms) :
    Stays m (onMemory x) :=
  onMemory_stays h hc (hx.mono (fun _ hp => hp) (fun _ _ _ _ _ hp => hp.confines)
    fun _ _ _ _ _ hp => hp.confines)

theorem onHost_stays {x : HostM α}
    (hx : ∀ c, m.cpus[i]? = some c → x.Safe (fun _ => True) (m.host c)
      (m.memory.Bounded (m.estate k) m.vms) (fun _ h => h.memory.Confines m.vms)
      fun _ h => h.memory.Confines m.vms) :
    Stays m (onHost i x) :=
  onHost_ends (fun _ => hc) fun c hi => Ends.mono ((hx c hi).ends (h.bounded hc))
    (fun _ _ hp => hp) (fun _ _ hp => hp) fun _ _ _ => trivial

theorem root_stays {x : HostM α} (hx : ∀ {e : Estate} {c : Cpu},
      Carried (·.Confines m.vms) e False → x.Safe (fun _ => True) (m.host c)
        (m.memory.Owned (e.giveAll c.region.toList) False ∧ m.memory.Confines m.vms)
        (fun _ h => h.memory.Confines m.vms) fun _ h => h.memory.Confines m.vms) :
    Stays m (onHost i x) := by
  refine onHost_stays h hc fun c hi => ?_
  obtain ⟨e, he, -⟩ := exists_estate_withHost (k := k) hi
  have hroots : e.Shelters m.vms := by
    have hshelters := shelters_estate (m := m) (k := k)
    rw [he] at hshelters
    exact hshelters
  refine (hx (carried_confines hroots)).assume fun _ hp => ⟨?_, hp.confines⟩
  rw [← he]
  exact hp.owned

omit h in
theorem vm_stays {f : Vm → MachineM α}
    (hf : ∀ v, m.vms[j]? = some (some v) → Stays m (f v)) : Stays m (vm j >>= f) :=
  vm_ends hc hf

theorem guest_stays {f : Guest → MachineM α}
    (hf : ∀ v r, some v ∈ m.vms → v.guest.Lodged r (m.estate k) False → Stays m (f v.guest)) :
    Stays m ((do return (← vm j).guest) >>= f) := by
  rw [bind_assoc]
  refine vm_stays hc fun v hv => ?_
  obtain ⟨r, hg⟩ := h.lodged hv
  exact hf v r (Array.mem_of_getElem? hv) hg

theorem guestTable_stays {f : Ept → MachineM α}
    (hf : ∀ v r, m.vms[j]? = some (some v) → v.guest.Lodged r (m.estate k) False →
      Stays m (f v.guest.table)) : Stays m (Machine.table none j >>= f) := by
  rw [Machine.table, bind_assoc]
  refine vm_stays hc fun v hv => ?_
  obtain ⟨r, hg⟩ := h.lodged hv
  exact hf v r hv hg

theorem table_stays {o : Option Nat} {f : Ept → MachineM α}
    (hf : ∀ t r, t.root = some r → r ∈ (m.estate k).roots → Stays m (f t)) :
    Stays m (Machine.table o j >>= f) :=
  h.table_ends hc hf

theorem onSession_stays {cpu : Nat} {x : SessionM α}
    (hx : ∀ {g root K}, g.Housed root K → ∀ r,
      x.Upholds (Session.Bears g r K) fun _ _ => True) : Stays m (onSession cpu j x) := by
  refine onSession_ends hc fun c v _ hv => ?_
  obtain ⟨root, hg⟩ := h.lodged hv
  have hmem : some v ∈ m.vms := Array.mem_of_getElem? hv
  have hback : ∀ {s : Session}, s.Bears v.guest c.region (·.Bounded (m.estate k) m.vms) →
      (m.withSession cpu j s).Confined := by
    intro s hs hf
    refine confines_of_same (hs.2.2 hf).confines fun w hw => ?_
    obtain ⟨i, hi⟩ := Array.mem_iff_getElem?.1 hw
    rcases vms_withSession hi with ⟨-, rfl⟩ | ⟨-, hold⟩
    · exact ⟨v, hmem, hs.1⟩
    · exact ⟨w, Array.mem_of_getElem? hold, .refl _⟩
  exact Ends.mono (hx (hg.housed_bounded hmem) c.region _ ⟨.refl _, rfl, h.bounded hc⟩)
    (fun _ _ hs => hback hs) (fun _ _ hs => hback hs) fun _ _ _ => trivial

theorem session_stays {cpu : Nat} {x : SessionM α}
    (hx : ∀ {g J F}, Session.Detached g J F → x.Upholds J F) : Stays m (onSession cpu j x) :=
  onSession_stays h hc fun hg _ =>
    (hx (Session.bears_detached hg)).mono (fun _ _ h => h) fun _ _ _ => trivial

end Work

theorem Stays.answer {x : MachineM α} {f : α → β} (hx : Stays m x) :
    Stays m (x >>= fun a => pure (f a)) :=
  (ends_bind _ _).2 hx

theorem free_stays (h : m.Orderly k False) (hc : m.Confined) :
    Stays m (do onHost i (Host.freeGuest (← takeVm j).guest)) := by
  rw [takeVm, bind_assoc]
  refine vm_stays hc fun v hv => ?_
  obtain ⟨r, hr⟩ := h.vms hv
  have hleft : ∀ w, some w ∈ (m.without j).vms → some w ∈ m.vms := by
    intro w hw
    obtain ⟨l, hl⟩ := Array.mem_iff_getElem?.1 hw
    rw [without, Array.getElem?_setIfInBounds] at hl
    split_ifs at hl
    · cases hl
    · exact Array.mem_of_getElem? hl
  have hconfines : ∀ {memory : Memory}, memory.Confines m.vms → memory.Confines (m.without j).vms :=
    fun hm w s hw hs => hm w s (hleft w hw) hs
  rw [Stays, bind_assoc, ends_bind, ends_modify, pure_bind]
  refine onHost_ends (fun _ hf => hconfines (hc hf)) fun c _ => ?_
  have hends := (Host.freeGuest_confines (F := fun _ => True) (h := (m.without j).host c) hr
    (e := (m.without j).estate k) shelters_estate).ends fun hf => by
      have howned := h.owned hf
      rw [estate_take_vm hv] at howned
      exact ⟨howned, hconfines (hc hf)⟩
  exact Ends.mono hends (fun _ _ hp => hp) (fun _ _ hp => hp) fun _ _ _ => trivial

theorem build_stays (h : m.Orderly k False) (hc : m.Confined) (config : GuestConfig) :
    Stays m (do
      let g ← onHost i (Host.buildGuest config)
      addVm g
      return Answer.guest g) := by
  have hroots : (m.estate k).Shelters m.vms := shelters_estate
  rw [Stays, ends_bind]
  refine onHost_ends (fun _ => hc) fun c _ => ?_
  have hends := (Host.buildGuest_founds (F := fun _ => True) (h := m.host c)
    (carried_confines hroots) (Host.founds_welcomes hroots config)).ends fun hf => ⟨h.owned hf, hc hf⟩
  refine Ends.mono hends (fun g h' hg => ?_) (fun _ _ he hf => (he hf).2) fun _ _ _ => trivial
  rw [addVm, ends_bind, ends_modify]
  intro hf v r hv hr
  rcases Array.mem_push.1 hv with hold | hnew
  · exact (hg hf).2.1 v r hold hr
  · cases hnew
    exact (hg hf).2.2 r hr

theorem addressOf_stays {source : HostPlace} {f : Hva → MachineM α}
    (hsource : m.Shares source) (hf : ∀ v, m.Lends v → Stays m (f v)) :
    Stays m (onMemory (addressOf source) >>= f) :=
  addressOf_ends hsource (fun v _ => hf v) trivial

/-- No command lets a guest leave its extent. -/
theorem perform_stays {c : Command} (h : m.Orderly k False) (hc : m.Confined) (hl : c.Lawful m k)
    (hs : c.Sized m) : Stays m (perform c) := by
  by_cases hquiet : c.order.Quiet
  · exact Ends.mono (perform_quiet hquiet m ⟨rfl, rfl⟩) (fun _ _ hm => hm.confined hc)
      (fun _ _ hm => hm.confined hc) fun _ _ _ => trivial
  obtain ⟨cpu, vm, index, order⟩ := c
  cases order with
  | alloc => exact (onMemory_stays h hc alloc_confines).answer
  | allocRetained => exact (onMemory_stays h hc allocRetained_confines).answer
  | retain page => exact (onMemory_stays h hc (retain_confines hl)).answer
  | release page => exact (onMemory_stays h hc (release_confines hl)).answer
  | limitAllocations n =>
      exact (onMemory_stays h hc (Safe.last (Safe.modify_bind rfl (Safe.pure fun _ hb =>
        hb.confines_of_pages_eq rfl)))).answer
  | poke page offset bytes =>
      have hfree : m.memory.Unowned (m.estate k) page.pageDown := hl.2
      exact (onMemory_stays h hc (editPage_confines hl.1 hfree _)).answer
  | newTable =>
      rw [Stays]
      refine (ends_bind _ _).2 (Ends.mono (onTable_stays h hc Ept.new_confines) (fun t m' hm' => ?_)
        (fun _ _ he => he) fun _ _ _ => trivial)
      exact hm'
  | tableWithRoot root => exact hl.elim
  | lookup gpa create edits =>
      obtain rfl : edits = [] := hl
      exact table_stays h hc fun t r hr hmem =>
        (onTable_stays h hc (Ept.edit_confines hr hmem create)).answer
  | map source gpa perm overwrite => exact hs.elim
  | insertPage page gpa perm => exact hs.elim
  | teardown =>
      exact Stays.answer (table_stays h hc fun t r hr hmem =>
        onHost_stays h hc fun _ _ => Host.teardown_confines hr hmem)
  | access physSize gpa =>
      obtain ⟨hindex, hsize⟩ := hs
      obtain rfl : index = none := hindex
      refine guestTable_stays h hc fun v r hv hg => Stays.answer ?_
      rw [hsize v hv]
      have haccess := hg.onAccess_bounded (F := fun _ => True) (m := m.memory)
        (Array.mem_of_getElem? hv) gpa
      have hbacked := Platform.backAccess_safe (K := (·.Bounded (m.estate k) m.vms)) haccess
      exact onPlatform_stays h hc (hbacked.mono (fun _ hp => hp) (fun _ _ _ _ _ hp => hp.confines)
        fun _ _ _ _ _ hp => hp.confines)
  | populateAll physSize =>
      obtain ⟨hindex, hsize⟩ := hs
      obtain rfl : index = none := hindex
      refine Stays.answer (guestTable_stays h hc fun v r hv hg => ?_)
      rw [hsize v hv]
      exact onMemory_stays_of_bounded h hc (hg.populateAll_bounded (Array.mem_of_getElem? hv))
  | build config => exact build_stays h hc config
  | free => exact (free_stays h hc).answer
  | mapFromHost source writable gpa perm =>
      refine Stays.answer (guest_stays h hc fun v r hv hg => addressOf_stays hl fun a ha => ?_)
      exact onMemory_stays_of_bounded h hc (hg.mapFromHost_bounded hv ha writable gpa perm)
  | setupMsrs => exact (session_stays h hc fun hJ => hJ.programmable.setupMsrs).answer
  | setupBitmaps =>
      refine Stays.answer (guest_stays h hc fun v r hv hg => onMemory_stays_of_bounded h hc ?_)
      exact (hg.housed_bounded hv).interceptEmulatedPorts
  | interceptPort port =>
      refine Stays.answer (guest_stays h hc fun v r hv hg => onMemory_stays_of_bounded h hc ?_)
      exact (hg.housed_bounded hv).interceptPort port
  | guestMsr msr value =>
      refine guest_stays h hc fun v r hv hg => Stays.answer (onMemory_stays_of_bounded h hc ?_)
      have hhoused := hg.housed_bounded hv
      exact hhoused.exchangeMsr hhoused.msrs hhoused.guestMsrArea_pageDown
  | hostMsr msr value =>
      refine guest_stays h hc fun v r hv hg => Stays.answer (onMemory_stays_of_bounded h hc ?_)
      have hhoused := hg.housed_bounded hv
      exact hhoused.exchangeMsr hhoused.msrs hhoused.hostMsrArea_pageDown
  | setRegisters writes =>
      refine Stays.answer (vm_stays hc fun v hv hf => ?_)
      refine confines_of_same (hc hf) fun w hw => ?_
      obtain ⟨l, hl⟩ := Array.mem_iff_getElem?.1 hw
      rw [Array.getElem?_setIfInBounds] at hl
      split_ifs at hl
      · cases hl
        exact ⟨v, Array.mem_of_getElem? hv, .refl _⟩
      · exact ⟨w, Array.mem_of_getElem? hl, .refl _⟩
  | vmxOn =>
      exact Stays.answer (root_stays h hc fun hK => Host.vmxOn_carries hK)
  | vmxOff =>
      exact Stays.answer (root_stays h hc fun hK => Host.vmxOff_carries hK)
  | activate => exact (session_stays h hc fun hJ => hJ.activate).answer
  | load => exact (session_stays h hc fun hJ => hJ.load).answer
  | deactivate => exact (session_stays h hc fun hJ => hJ.deactivate).answer
  | configureControls =>
      exact (session_stays h hc fun hJ => hJ.programmable.configureControls).answer
  | enter => exact (session_stays h hc fun hJ => hJ.enter).answer
  | run =>
      exact (onSession_stays h hc fun hg _ => (Session.run_bears hg).mono (fun _ _ h => h)
        fun _ _ _ => trivial).answer
  | handleExit fields regs handling =>
      exact session_stays h hc fun hJ => hJ.programmable.handleExit fields regs handling
  | _ => exact absurd trivial hquiet

/-- Callers use what is theirs, and a guest's table as that of a guest of its size. -/
def Measured (c : Command) (m : Machine) (k : Callers) : Prop := c.Lawful m k ∧ c.Sized m

theorem History.confined (h : History Measured m k) : m.Orderly k False ∧ m.Confined :=
  h.invariant (fun hm => ⟨hm.orderly, fun _ v r hv => by
      rw [hm.vms] at hv
      exact absurd hv (Array.not_mem_empty _)⟩)
    fun hm hc => Ends.mono ((perform_keeps hm.1 hc.1 False.elim).and
      (perform_stays hm.1 hm.2 hc.1 hc.2)) (fun _ _ h => h) (fun _ _ h => h) fun _ _ _ => trivial

/-- A guest has pages only below its size, in the low memory that every guest has, and where the text
buffer is.  A fault anywhere else is not handled, and nothing is mapped for it. -/
theorem guests_within_extents (h : History Measured m k) (hf : m.memory.Fits)
    (hv : m.vms[j]? = some (some v)) :
    (∀ g p, m.page? j g = some p → g.number ∈ Region.extent v.guest.physSize) ∧
      ∀ g : Gpa, v.guest.physSize ≤ g.val → Layout.holeStart ≤ g.val →
        (g.val < videoBuffer ∨ videoBuffer + pageSize ≤ g.val) → ∀ memory,
          (v.guest.table.onAccess v.guest.physSize g).run memory = .ok .unhandled memory := by
  obtain ⟨hk, hc⟩ := h.confined
  refine ⟨fun g p hp => ?_, fun g hsize hlow hbuffer memory => ?_⟩
  · obtain ⟨a, hm⟩ := hk.owned hf
    obtain ⟨w, r, perm, hw, hroot, -, hmap⟩ := translation_of_page? hp hk hm
    cases hv.symm.trans hw
    by_contra hn
    rw [hc hf v r (Array.mem_of_getElem? hw) hroot _ hn] at hmap
    cases hmap
  · exact Ept.onAccess_unmapped (Region.of_eq_unmapped hsize hlow hbuffer) _ memory

def touchesHigh : List Command :=
  [{ order := .build { physSize := 0x203000 } },
   { order := .script { event := .eptViolation 0x200000 } }, { order := .run }]

/-- It has that page, and none past its size. -/
theorem guests_within_extents_touchesHigh : ∃ m k v, History Measured m k ∧ m.memory.Fits ∧
    m.vms[0]? = some (some v) ∧ v.guest.physSize = 0x203000 ∧ m.page? 0 ⟨0x200000⟩ ≠ none ∧
      m.page? 0 ⟨0x203000⟩ = none := by
  have hallowed : ∀ c ∈ touchesHigh, ∀ m k, Measured c m k := by
    intro c hc m k
    simp only [touchesHigh, List.mem_cons, List.not_mem_nil, or_false] at hc
    rcases hc with rfl | rfl | rfl <;> exact ⟨trivial, trivial⟩
  obtain ⟨m, k, h, hf, hsize, hp⟩ := (History.booted uniprocessor_booted).exists_after
    (P := fun m => m.memory.Fits ∧ (m.vms[0]?.join.map fun v => v.guest.physSize) = some 0x203000 ∧
      m.page? 0 ⟨0x200000⟩ ≠ none) hallowed (by decide +kernel)
  obtain ⟨v, hv, hphys⟩ := Option.map_eq_some_iff.1 hsize
  have hvm := Option.join_eq_some_iff.1 hv
  refine ⟨m, k, v, h, hf, hvm, hphys, hp, Option.eq_none_iff_forall_ne_some.2 fun p hp' => ?_⟩
  have hin := (guests_within_extents h hf hvm).1 _ p hp'
  rw [hphys] at hin
  rcases hin with hsize | hlow | hbuffer
  · exact absurd hsize (by decide)
  · exact absurd hlow (by decide)
  · exact absurd hbuffer (by decide)

/-- The page at an address past the size of a guest, other than that of the text buffer. -/
def pageBeyond? (m : Machine) (j : Nat) (g : Gpa) : Option Hpa :=
  m.vms[j]?.join.bind fun v =>
    if v.guest.physSize ≤ g.val ∧ g.number ≠ Region.bufferNumber then m.page? j g else none

def touchesLow : List Command :=
  [{ order := .build { physSize := 0x1000 } },
   { order := .script { event := .eptViolation 0x5000 } }, { order := .run }]

def handsOutTable : List Command :=
  [{ order := .build { physSize := 0x203000 } },
   { order := .script { event := .eptViolation 0x200000 } }, { order := .run },
   { order := .mapFromHost (.inPage ⟨0x1008000⟩ 0) true ⟨0x6000⟩ Permission.full },
   { order := .setRegisters [(.rax, 1)] }, { order := .script { event := .exit 0x12 } },
   { order := .run }]

/-- A guest can have pages past its size: in the low memory if it is smaller than that, and wherever the
memory map happens to be read as entries of a table that a caller has mapped for the guest. -/
theorem guests_beyond_size :
    (uniprocessor.after touchesLow).bind (pageBeyond? · 0 ⟨0x5000⟩) = some ⟨0x1005000⟩ ∧
      (uniprocessor.after handsOutTable).bind (pageBeyond? · 0 ⟨0x206000⟩) = some ⟨0x1400006000⟩ := by
  decide +kernel

end Machine

end Hypervisor
