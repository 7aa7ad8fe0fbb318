import Hypervisor.Proofs.Confinement
import Hypervisor.Proofs.Detached
import Hypervisor.Proofs.RootOperation
import Hypervisor.Proofs.Ownership.History

/-!
# The copies never drift

On every cpu the hypervisor remembers which control block is current and whether the processor is in
VMX root operation, and in every guest whether its block is launched.  These are copies of what the
processors know.  No command makes a copy differ from its original, in whatever order guests are put on
cpus, run there, moved and freed, as long as no instruction is made to fail and no guest is entered
without being put on the cpu.
-/

namespace Hypervisor

open Hypervisor.Action

namespace Session

theorem past_detached (g : Guest) (n : Nat) :
    Detached g (fun s => g.Same s.guest ∧ s.host.memory.Past n) fun _ _ => True := by
  have hmemory : ∀ {α} {x : MemoryM VmError α}, (x.Upholds (Memory.Past n) fun _ _ => True) →
      (onMemory x).Upholds (fun s => g.Same s.guest ∧ s.host.memory.Past n) fun _ _ => True := by
    intro α x hx s hs
    simp only [onMemory, onPlatform, onHost, Host.onPlatform, Platform.onMemory, ends_onPart]
    exact Ends.mono (hx _ hs.2) (fun _ _ h => ⟨hs.1, h⟩) (fun _ _ h => ⟨hs.1, h⟩) fun _ _ h => h
  exact
    { same := fun h => h.1
      host := fun _ =>
        { overflow := fun _ _ _ => trivial
          log := fun _ h => h
          kernel := fun _ h => h
          spent := fun _ _ h => h
          blocks := fun _ h => h
          processor := fun _ h => h
          current := fun _ h => h }
      skip := fun _ _ _ => trivial
      context := fun _ h => h
      guest := fun hg h => ⟨h.1.trans hg, h.2⟩
      resolve := fun gpa => hmemory (Ept.resolve_past _ gpa)
      fault := fun gpa => hmemory (Ept.onAccess_past _ _ gpa)
      readMsrs := hmemory (Memory.pageWords_past _)
      writeMsrs := fun f => hmemory (Memory.updatePage_past _ f)
      memoryMap := giveMemoryMap_upholds (fun t gpa => hmemory (Ept.resolve_past t gpa))
        (fun t size gpa => hmemory (Ept.onAccess_past t size gpa))
        (fun a f => hmemory (Memory.updatePage_past a f)) fun _ h => h
      bitmaps := hmemory (Guest.interceptEmulatedPorts_past g)
      msrs := fun rdmsr => hmemory (Guest.listMsrs_past g rdmsr) }

end Session

namespace Memory

variable {n : Nat} {ε : Type}

theorem addressOf_past (source : HostPlace) :
    (addressOf source : MemoryM ε Hva).Upholds (Past n) fun _ _ => True := by
  cases source with
  | inPage page offset =>
      refine Upholds.bind (virtual_past page) fun v => ?_
      split
      · exact Upholds.pure
      · exact Upholds.panic fun _ _ => trivial
  | «at» address => exact Upholds.pure

theorem exchangeMsr_past (area : Hpa) (count : Nat) (msr : MsrIndex) (value : Option UInt64) :
    (exchangeMsr area count msr value : MemoryM ε _).Upholds (Past n) fun _ _ => True := by
  refine Upholds.bind ?_ fun i => ?_
  · exact Upholds.bind (pageWords_past area) fun _ => Upholds.pure
  · split
    · exact Upholds.pure
    · refine Upholds.bind (pageWords_past area) fun _ => ?_
      split
      · exact Upholds.bind (updatePage_past area _) fun _ => Upholds.pure
      · exact Upholds.pure

end Memory

/-- The order makes no instruction fail, and enters no guest that is not put on the cpu first. -/
def Order.Regular : Order → Prop
  | .inject _ | .enter => False
  | _ => True

namespace Machine

/-- All copies are right.  Every guest has a control block of its own, and only blocks in pages that were
handed out are launched. -/
structure Tracked (m : Machine) : Prop where
  cpus : ∀ {i : Nat} {c : Cpu}, m.cpus[i]? = some c → c.Mirrors
  launched : ∀ {j : Nat} {v : Vm}, m.vms[j]? = some (some v) →
    v.guest.launched = (m.blocks.block v.guest.block).launched
  known : ∀ {j : Nat} {v : Vm}, m.vms[j]? = some (some v) →
    m.memory.Past (v.guest.block.val.toNat + 1)
  distinct : ∀ {i j : Nat} {v w : Vm}, m.vms[i]? = some (some v) → m.vms[j]? = some (some w) →
    v.guest.block = w.guest.block → i = j
  unused : ∀ p, (m.blocks.block p).launched = true → m.memory.Past (p.val.toNat + 1)

def Tracks {α : Type} (m : Machine) (x : MachineM α) : Prop :=
  x.Ends m (fun _ m' => m'.Tracked) (fun _ m' => m'.Tracked) fun _ _ => True

variable {m m' : Machine} {i j : Nat} {c : Cpu} {v : Vm} {α β : Type}

theorem Tracked.withPlatform {p : Platform} (h : m.Tracked)
    (hlaunched : ∀ q, (p.blocks.block q).launched = (m.blocks.block q).launched)
    (hpast : p.memory.Past m.memory.next.toNat) : Tracked { m with toPlatform := p } where
  cpus := h.cpus
  launched := fun hv => (h.launched hv).trans (hlaunched _).symm
  known := fun hv => Nat.le_trans (h.known hv) hpast
  distinct := h.distinct
  unused := fun q hq => Nat.le_trans (h.unused q ((hlaunched q).symm.trans hq)) hpast

theorem Tracked.withHost {h' : Host} (h : m.Tracked) (hh : (m.host c).Mirrors h') :
    (m.withHost i h').Tracked := by
  obtain ⟨r, hh⟩ := hh
  have hplatform := h.withPlatform hh.launched hh.past
  refine ⟨fun hi => ?_, hplatform.launched, hplatform.known, hplatform.distinct, hplatform.unused⟩
  obtain ⟨-, rfl⟩ | ⟨-, hi⟩ := cpus_withHost hi
  · refine ⟨hh.current, ?_, hh.faultless⟩
    rw [hh.region, hh.root]
  · exact h.cpus hi

theorem Tracked.withSession {s : Session} (h : m.Tracked) (hv : m.vms[j]? = some (some v))
    (hs : Session.Mirrors ⟨m.host c, v.guest, v.context⟩ s)
    (hpast : s.host.memory.Past m.memory.next.toNat) : (m.withSession i j s).Tracked := by
  have hblock : s.guest.block = v.guest.block := hs.same.block
  refine ⟨fun hc => ?_, fun {k w} hw => ?_, fun {k w} hw => ?_, fun {k l w w'} hw hw' heq => ?_,
    fun p hp => ?_⟩
  · obtain ⟨-, rfl⟩ | ⟨-, hc⟩ := cpus_withSession hc
    · exact hs.cpu
    · exact h.cpus hc
  · obtain ⟨-, rfl⟩ | ⟨hk, hw⟩ := vms_withSession hw
    · exact hs.launched
    · have hne : w.guest.block ≠ s.guest.block := by
        rw [hblock]
        exact fun heq => hk (h.distinct hw hv heq)
      exact (h.launched hw).trans (hs.others _ hne).symm
  · obtain ⟨-, rfl⟩ | ⟨-, hw⟩ := vms_withSession hw
    · refine Nat.le_trans ?_ hpast
      rw [hblock]
      exact h.known hv
    · exact Nat.le_trans (h.known hw) hpast
  · have hold : ∀ {k : Nat} {w : Vm}, (m.withSession i j s).vms[k]? = some (some w) →
        ∃ w₀, m.vms[k]? = some (some w₀) ∧ w₀.guest.block = w.guest.block := by
      intro k w hw
      obtain ⟨rfl, rfl⟩ | ⟨-, hw⟩ := vms_withSession hw
      · exact ⟨v, hv, hblock.symm⟩
      · exact ⟨w, hw, rfl⟩
    obtain ⟨w₀, hw₀, hb⟩ := hold hw
    obtain ⟨w₁, hw₁, hb'⟩ := hold hw'
    exact h.distinct hw₀ hw₁ (hb.trans (heq.trans hb'.symm))
  · refine Nat.le_trans ?_ hpast
    by_cases he : p = s.guest.block
    · rw [he, hblock]
      exact h.known hv
    · exact h.unused p ((hs.others p he).symm.trans hp)

theorem Tracked.withVms {vms : Array (Option Vm)} (h : m.Tracked)
    (hold : ∀ {k : Nat} {w : Vm}, vms[k]? = some (some w) →
      ∃ w₀, m.vms[k]? = some (some w₀) ∧ w₀.guest = w.guest) : Tracked { m with vms := vms } := by
  refine ⟨h.cpus, fun hw => ?_, fun hw => ?_, fun hw hw' heq => ?_, h.unused⟩
  · obtain ⟨w₀, hw₀, hg⟩ := hold hw
    rw [← hg]
    exact h.launched hw₀
  · obtain ⟨w₀, hw₀, hg⟩ := hold hw
    rw [← hg]
    exact h.known hw₀
  · obtain ⟨w₀, hw₀, hg⟩ := hold hw
    obtain ⟨w₁, hw₁, hg'⟩ := hold hw'
    rw [← hg, ← hg'] at heq
    exact h.distinct hw₀ hw₁ heq

theorem Tracked.push_vm (h : m.Tracked) (hv : v.guest.launched = false)
    (hknown : m.memory.Past (v.guest.block.val.toNat + 1))
    (hnew : ∀ {j : Nat} {w : Vm}, m.vms[j]? = some (some w) → w.guest.block ≠ v.guest.block)
    (hblock : (m.blocks.block v.guest.block).launched = false) :
    Tracked { m with vms := m.vms.push (some v) } := by
  have hcases : ∀ {j : Nat} {w : Vm}, (m.vms.push (some v))[j]? = some (some w) →
      j = m.vms.size ∧ w = v ∨ m.vms[j]? = some (some w) := by
    intro j w hw
    rw [Array.getElem?_push] at hw
    split at hw
    · exact .inl ⟨‹_›, (Option.some.inj (Option.some.inj hw)).symm⟩
    · exact .inr hw
  refine ⟨h.cpus, fun hw => ?_, fun hw => ?_, fun hw hw' heq => ?_, h.unused⟩
  · obtain ⟨-, rfl⟩ | hw := hcases hw
    · exact hv.trans hblock.symm
    · exact h.launched hw
  · obtain ⟨-, rfl⟩ | hw := hcases hw
    · exact hknown
    · exact h.known hw
  · obtain ⟨rfl, rfl⟩ | hold := hcases hw
    · obtain ⟨rfl, -⟩ | hold' := hcases hw'
      · rfl
      · exact absurd heq.symm (hnew hold')
    · obtain ⟨-, rfl⟩ | hold' := hcases hw'
      · exact absurd heq (hnew hold)
      · exact h.distinct hold hold' heq

section Work

variable {x : MachineM α} {f : α → MachineM β}

theorem Tracks.bind (hx : m.Tracks x) (hf : ∀ a {m' : Machine}, m'.Tracked → m'.Tracks (f a)) :
    m.Tracks (x >>= f) := by
  rw [Tracks, ends_bind]
  exact Ends.mono hx (fun a _ h => hf a h) (fun _ _ h => h) fun _ _ h => h

theorem Tracks.answer {f : α → β} (hx : m.Tracks x) : m.Tracks (x >>= fun a => pure (f a)) :=
  hx.bind fun _ _ h => h

theorem vm_tracks {f : Vm → MachineM α} (h : m.Tracked)
    (hf : ∀ v, m.vms[j]? = some (some v) → m.Tracks (f v)) : m.Tracks (vm j >>= f) :=
  vm_ends h hf

theorem guest_tracks {f : Guest → MachineM α} (h : m.Tracked) (hf : ∀ g, m.Tracks (f g)) :
    m.Tracks ((do return (← vm j).guest) >>= f) := by
  rw [bind_assoc]
  exact vm_tracks h fun v _ => hf v.guest

theorem table_tracks {o : Option Nat} {f : Ept → MachineM α} (h : m.Tracked)
    (hf : ∀ t, m.Tracks (f t)) : m.Tracks (Machine.table o j >>= f) :=
  table_ends h (fun v _ => hf v.guest.table) fun t _ => hf t

theorem onPlatform_tracks {x : PlatformM α} (h : m.Tracked)
    (hx : ∀ bs n, x.Upholds (fun p : Platform => p.blocks = bs ∧ p.memory.Past n) fun _ _ => True) :
    m.Tracks (onPlatform x) := by
  have hback : ∀ {p : Platform}, p.blocks = m.blocks ∧ p.memory.Past m.memory.next.toNat →
      Tracked { m with toPlatform := p } :=
    fun hp => h.withPlatform (fun q => by rw [hp.1]) hp.2
  rw [Tracks, onPlatform, ends_onPart]
  exact Ends.mono (hx m.blocks m.memory.next.toNat m.toPlatform ⟨rfl, Nat.le_refl _⟩)
    (fun _ _ hp => hback hp) (fun _ _ hp => hback hp) fun _ _ h => h

theorem onMemory_tracks {x : MemoryM VmError α} (h : m.Tracked)
    (hx : ∀ n, x.Upholds (Memory.Past n) fun _ _ => True) : m.Tracks (onMemory x) := by
  refine onPlatform_tracks h fun bs n p hp => ?_
  rw [Platform.onMemory, ends_onPart]
  exact Ends.mono (hx n p.memory hp.2) (fun _ _ hm => ⟨hp.1, hm⟩) (fun _ _ hm => ⟨hp.1, hm⟩)
    fun _ _ h => h

theorem onTable_tracks {x : MemoryM EptError α} (h : m.Tracked)
    (hx : ∀ n, x.Upholds (Memory.Past n) fun _ _ => True) : m.Tracks (onTable x) :=
  onMemory_tracks h fun n => Upholds.mapError (hx n)

theorem onHost_tracks {x : HostM α} (h : m.Tracked)
    (hx : ∀ h₀, x.Upholds (Host.Mirrors h₀) fun _ _ => True) : m.Tracks (onHost i x) := by
  refine onHost_ends (fun _ => h) fun c hc => ?_
  have hcpu := h.cpus hc
  have hstart : (m.host c).Mirrors (m.host c) :=
    ⟨c.region, rfl, hcpu.root.symm, hcpu.current, hcpu.faultless, fun _ => rfl, Nat.le_refl _⟩
  exact Ends.mono (hx _ _ hstart) (fun _ _ hh => h.withHost hh) (fun _ _ hh => h.withHost hh)
    fun _ _ h => h

theorem steady_tracks {x : HostM α} (h : m.Tracked)
    (hx : ∀ h₀ r on, x.Upholds (Host.Follows h₀ r on) fun _ _ => True) : m.Tracks (onHost i x) := by
  refine onHost_tracks h ?_
  rintro h₀ h' ⟨r, hh⟩
  exact Ends.mono (hx h₀ r _ h' hh) (fun _ _ hh => ⟨r, hh⟩) (fun _ _ hh => ⟨r, hh⟩) fun _ _ h => h

theorem onSession_tracks {x : SessionM α} (h : m.Tracked)
    (hx : ∀ s₀, x.Upholds (Session.Mirrors s₀) fun _ _ => True)
    (hmemory : ∀ (g : Guest) n, x.Upholds (fun s => g.Same s.guest ∧ s.host.memory.Past n) fun _ _ => True) :
    m.Tracks (onSession i j x) := by
  refine onSession_ends h fun c v hc hv => ?_
  have hstart : Session.Mirrors ⟨m.host c, v.guest, v.context⟩ ⟨m.host c, v.guest, v.context⟩ :=
    ⟨.refl _, h.cpus hc, h.launched hv, fun _ _ => rfl⟩
  have hpast := hmemory v.guest m.memory.next.toNat ⟨m.host c, v.guest, v.context⟩
    ⟨.refl _, Nat.le_refl _⟩
  exact Ends.mono ((hx _ _ hstart).and hpast) (fun _ _ hs => h.withSession hv hs.1 hs.2.2)
    (fun _ _ hs => h.withSession hv hs.1 hs.2.2) fun _ _ _ => trivial

theorem build_tracks (h : m.Tracked) (config : GuestConfig) {f : Guest → MachineM α}
    (hf : ∀ g {m' : Machine}, m'.Tracked → m'.Tracks (f g)) : m.Tracks (do
      let g ← onHost i (Host.buildGuest config)
      addVm g
      f g) := by
  have hbuild : (onHost i (Host.buildGuest config)).Ends m
      (fun g m' => ∀ context, Tracked { m' with vms := m'.vms.push (some ⟨g, context⟩) })
      (fun _ m' => m'.Tracked) fun _ _ => True := by
    refine onHost_ends (fun _ => h) fun c hc => ?_
    have hcpu := h.cpus hc
    have hstart : (m.host c).Follows c.region c.region.isSome (m.host c) :=
      ⟨rfl, hcpu.root.symm, hcpu.current, hcpu.faultless, fun _ => rfl, Nat.le_refl _⟩
    have hkept := (Host.follows_enduring (m.host c) c.region c.region.isSome).buildGuest config _ hstart
    have hnew := (Host.buildGuest_issued config (m.host c)).and
      (Host.buildGuest_returns config (m.host c))
    refine Ends.mono (hkept.and hnew) (fun g h' hg => ?_) (fun _ _ hh => h.withHost ⟨_, hh.1⟩)
      fun _ _ _ => trivial
    obtain ⟨hh, ⟨hlow, hhigh⟩, hreturned⟩ := hg
    have hfresh : ¬m.memory.Past (g.block.val.toNat + 1) := fun hpast =>
      absurd (Nat.lt_of_lt_of_le hpast hlow) (Nat.lt_irrefl _)
    intro context
    refine (h.withHost ⟨_, hh⟩).push_vm hreturned.launched hhigh (fun hw heq => ?_) ?_
    · exact hfresh (heq ▸ h.known hw)
    · rw [← Bool.not_eq_true]
      exact fun hlaunched => hfresh (h.unused _ ((hh.launched _).symm.trans hlaunched))
  rw [Tracks, ends_bind]
  refine Ends.mono hbuild (fun g m' hg => ?_) (fun _ _ h => h) fun _ _ h => h
  rw [addVm, ends_bind, ends_modify]
  exact hf g (hg _)

theorem free_tracks (h : m.Tracked) :
    m.Tracks (do onHost i (Host.freeGuest (← takeVm j).guest)) := by
  rw [takeVm, bind_assoc]
  refine vm_tracks h fun v hv => ?_
  rw [Tracks, bind_assoc, ends_bind, ends_modify, pure_bind]
  refine steady_tracks (h.withVms fun {k w} hw => ?_) fun h₀ r on =>
    (Host.follows_enduring h₀ r on).freeGuest v.guest
  rw [Array.getElem?_setIfInBounds] at hw
  split_ifs at hw
  · cases hw
  · exact ⟨w, hw, rfl⟩

theorem onContext_tracks (h : m.Tracked) (f : Context → Context) :
    m.Tracks (onContext j f) := by
  rw [onContext]
  refine vm_tracks h fun v hv => h.withVms fun {k w} hw => ?_
  rw [Array.getElem?_setIfInBounds] at hw
  split_ifs at hw with hk
  · cases hw
    exact ⟨v, hk ▸ hv, rfl⟩
  · exact ⟨w, hw, rfl⟩

theorem addTable_tracks (h : m.Tracked) (t : Ept) : m.Tracks (addTable t) :=
  ⟨h.cpus, h.launched, h.known, h.distinct, h.unused⟩

theorem onKernel_tracks (h : m.Tracked) (f : Kernel → Kernel) :
    m.Tracks (onPlatform (Platform.onKernel f)) :=
  onPlatform_tracks h fun _ _ _ hp => hp

/-- No command but those that are left out makes a copy differ from its original. -/
theorem perform_tracks {c : Command} (h : m.Tracked) (hc : c.order.Regular) :
    m.Tracks (perform c) := by
  obtain ⟨cpu, vm, index, order⟩ := c
  have hsay : ∀ level text bs n, (Platform.say level text).Upholds
      (fun p : Platform => p.blocks = bs ∧ p.memory.Past n) fun _ _ => True := fun _ _ _ _ _ hp => hp
  have hprocessor : ∀ {f : Processor → Processor}, (∀ c, (f c).root = c.root) →
      (∀ c, (f c).current = c.current) → (∀ c : Processor, c.faults = [] → (f c).faults = []) →
        m.Tracks (done (onHost cpu (Host.onProcessor f))) := fun hroot hcurrent hfaults =>
    (steady_tracks h fun _ _ _ => Host.onProcessor_follows hroot hcurrent hfaults).answer
  -- Each command is settled by the rule for the part of the machine that it works on.
  cases order with
  | alloc => exact (onMemory_tracks h fun _ => Memory.alloc_past).answer
  | allocRetained => exact (onMemory_tracks h fun _ => Memory.allocRetained_past).answer
  | retain page => exact (onMemory_tracks h fun _ => Memory.retain_past page).answer
  | release page => exact (onMemory_tracks h fun _ => Memory.release_past page).answer
  | refs pages => exact h
  | limitAllocations n =>
      have hlimit : ∀ k, (modify fun m => { m with budget := some n } : MemoryM VmError PUnit).Upholds
          (Memory.Past k) fun _ _ => True := fun _ _ hm => hm
      exact (onMemory_tracks h hlimit).answer
  | peek page offset count => exact (onMemory_tracks h fun _ => Memory.pageWords_past page).answer
  | poke page offset bytes => exact (onMemory_tracks h fun _ => Memory.editPage_past page _).answer
  | newTable =>
      refine (onTable_tracks h fun _ => Ept.new_past).bind fun t m' h' => ?_
      exact (addTable_tracks h' t).answer
  | tableWithRoot root => exact (addTable_tracks h ⟨root⟩).answer
  | tableRoot => exact table_tracks h fun _ => h
  | tablePointer => exact table_tracks h fun _ => h
  | lookup gpa create edits =>
      exact table_tracks h fun t => (onTable_tracks h fun _ => Ept.edit_past t gpa create edits).answer
  | walk gpa => exact table_tracks h fun t => (onTable_tracks h fun _ => Ept.walk_past t gpa).answer
  | resolve gpa =>
      refine table_tracks h fun t => (onMemory_tracks h fun _ => Ept.resolve_past t gpa).bind ?_
      exact fun _ _ h' => h'
  | map source gpa perm overwrite =>
      refine (table_tracks h fun t => ?_).answer
      refine (onMemory_tracks h fun _ => Memory.addressOf_past source).bind fun v _ h' => ?_
      exact onTable_tracks h' fun _ => Ept.map_past t v gpa perm overwrite
  | insertPage page gpa perm =>
      exact (table_tracks h fun t => onTable_tracks h fun _ => Ept.insertPage_past t page gpa perm).answer
  | teardown =>
      refine (table_tracks h fun t => steady_tracks h fun h₀ r on => ?_).answer
      exact (Host.follows_enduring h₀ r on).teardown t
  | access physSize gpa =>
      refine table_tracks h fun t => (onPlatform_tracks h fun bs n => ?_).answer
      refine Upholds.bind (fun p hp => ?_) fun fault => ?_
      · rw [Platform.onMemory, ends_onPart]
        exact Ends.mono (Ept.onAccess_past t physSize gpa p.memory hp.2) (fun _ _ hm => ⟨hp.1, hm⟩)
          (fun _ _ hm => ⟨hp.1, hm⟩) fun _ _ h => h
      · cases fault with
        | handled => exact Upholds.pure
        | unhandled => exact Upholds.bind (hsay _ _ _ _) fun _ => Upholds.pure
  | populateAll physSize =>
      exact (table_tracks h fun t => onMemory_tracks h fun _ => Ept.populateAll_past t physSize).answer
  | build config => exact build_tracks h config fun _ _ h' => h'
  | free => exact (free_tracks h).answer
  | mapFromHost source writable gpa perm =>
      refine (guest_tracks h fun g => ?_).answer
      refine (onMemory_tracks h fun _ => Memory.addressOf_past source).bind fun v _ h' => ?_
      refine onMemory_tracks h' fun _ => Upholds.bind Upholds.require fun _ => ?_
      exact Upholds.mapError (Ept.map_past _ _ _ _ _)
  | setupMsrs =>
      exact (onSession_tracks h (fun s₀ => (Session.mirrors_programmable s₀).setupMsrs)
        fun g n => (Session.past_detached g n).programmable.setupMsrs).answer
  | setupBitmaps =>
      exact (guest_tracks h fun g => onMemory_tracks h fun _ =>
        Guest.interceptEmulatedPorts_past g).answer
  | interceptPort port =>
      exact (guest_tracks h fun g => onMemory_tracks h fun _ => Memory.editPage_past _ _).answer
  | isPortIntercepted port =>
      exact guest_tracks h fun g => (onMemory_tracks h fun _ =>
        Upholds.bind (Memory.pageWords_past _) fun _ => Upholds.pure).answer
  | guestMsr msr value =>
      exact guest_tracks h fun g => (onMemory_tracks h fun _ => Memory.exchangeMsr_past _ _ _ _).answer
  | hostMsr msr value =>
      exact guest_tracks h fun g => (onMemory_tracks h fun _ => Memory.exchangeMsr_past _ _ _ _).answer
  | setRegisters writes => exact (onContext_tracks h _).answer
  | setMsr msr value => exact hprocessor (fun _ => rfl) (fun _ => rfl) fun _ h => h
  | readMsr msr => exact (steady_tracks h fun _ _ _ => Host.Calm.processor).answer
  | setCpuid leaf subleaf result =>
      cases subleaf with
      | none => exact hprocessor (fun _ => rfl) (fun _ => rfl) fun _ h => h
      | some subleaf => exact hprocessor (fun _ => rfl) (fun _ => rfl) fun _ h => h
  | setCpuidEcx leaf ecx => exact hprocessor (fun _ => rfl) (fun _ => rfl) fun _ h => h
  | setControlRegisters cr0 cr4 => exact hprocessor (fun _ => rfl) (fun _ => rfl) fun _ h => h
  | failInvept => exact hprocessor (fun _ => rfl) (fun _ => rfl) fun _ h => h
  | inject fault => exact hc.elim
  | clearFaults => exact hprocessor (fun _ => rfl) (fun _ => rfl) fun _ _ => rfl
  | script exit => exact hprocessor (fun _ => rfl) (fun _ => rfl) fun _ h => h
  | cpuId =>
      exact (steady_tracks h fun _ _ _ => Upholds.get_bind fun _ _ => Upholds.pure).answer
  | checkSupport => exact (steady_tracks h fun h₀ r on => (Host.follows_enduring h₀ r on).checkSupport).answer
  | checkEpt => exact (steady_tracks h fun h₀ r on => (Host.follows_enduring h₀ r on).checkEpt).answer
  | vmxOn => exact (onHost_tracks h fun _ => Host.vmxOn_mirrors).answer
  | vmxOff => exact (onHost_tracks h fun _ => Host.vmxOff_mirrors).answer
  | activate =>
      exact (onSession_tracks h (fun _ _ hs => Ends.mono (Session.activate_mirrors hs)
        (fun _ _ h => h.toMirrors) (fun _ _ h => h.1) fun _ _ h => h) fun g n => (Session.past_detached g n).activate).answer
  | load =>
      exact (onSession_tracks h (fun _ _ hs => Ends.mono (Session.load_mirrors hs)
        (fun _ _ h => h.toMirrors) (fun _ _ h => h.1) fun _ _ h => h) fun g n => (Session.past_detached g n).load).answer
  | deactivate =>
      exact (onSession_tracks h (fun _ => Session.deactivate_mirrors) fun g n => (Session.past_detached g n).deactivate).answer
  | initHostState =>
      exact (steady_tracks h fun _ _ _ =>
        Upholds.get_bind fun _ _ => Host.vmwriteAll_follows _).answer
  | initGuestState => exact (steady_tracks h fun _ _ _ => Host.vmwriteAll_follows _).answer
  | configureControls =>
      exact (onSession_tracks h (fun s₀ => (Session.mirrors_programmable s₀).configureControls)
        fun g n => (Session.past_detached g n).programmable.configureControls).answer
  | writeFields writes => exact (steady_tracks h fun _ _ _ => Host.vmwriteAll_follows writes).answer
  | readField field =>
      exact (steady_tracks h fun h₀ r on => (Host.follows_enduring h₀ r on).vmread field).answer
  | exitReason =>
      exact (steady_tracks h fun h₀ r on => (Host.follows_enduring h₀ r on).decode).answer
  | enter => exact hc.elim
  | run =>
      exact (onSession_tracks h (fun _ _ hs => Ends.mono (Session.run_mirrors hs)
        (fun _ _ h => h) (fun _ _ h => h.1) fun _ _ h => h)
        fun g n => (Session.past_detached g n).runnable.run_upholds fun _ h => h).answer
  | dump =>
      refine (guest_tracks h fun g => steady_tracks h fun h₀ r on => ?_).answer
      exact Upholds.get_bind fun _ _ => (Host.follows_enduring h₀ r on).dump fun gpa =>
        (Host.follows_enduring h₀ r on).onMemory fun _ => Ept.resolve_past g.table gpa
  | handleExit fields regs handling =>
      exact onSession_tracks h (fun s₀ => (Session.mirrors_programmable s₀).handleExit fields regs handling)
        fun g n => (Session.past_detached g n).programmable.handleExit fields regs handling
  | setGuests ids => exact (onKernel_tracks h _).answer
  | setFileServer id => exact (onKernel_tracks h _).answer
  | setMessageStatus status => exact (onKernel_tracks h _).answer
  | listGuests =>
      refine (onPlatform_tracks h fun bs n => Upholds.get_bind fun p _ => ?_).answer
      refine Upholds.bind (hsay _ _ bs n) fun _ => ?_
      exact Upholds.bind (Upholds.forM fun _ _ => hsay _ _ bs n) fun _ => Upholds.pure
  | resumeGuest n =>
      refine (onPlatform_tracks h fun bs n => Upholds.get_bind fun p _ => ?_).answer
      split
      · refine Upholds.bind (fun _ hp => hp) fun _ => ?_
        exact Upholds.bind (hsay _ _ bs n) fun _ => Upholds.pure
      · exact Upholds.bind (hsay _ _ bs n) fun _ => Upholds.pure
  | stageDiskImage => exact (onKernel_tracks h _).bind fun _ _ h' => h'
  | diskImage => exact h

end Work

theorem Booted.tracked (h : m.Booted) : m.Tracked := by
  have hnone : ∀ {j : Nat} {v : Vm}, m.vms[j]? ≠ some (some v) := fun hv => by
    rw [h.vms] at hv
    cases hv
  refine ⟨fun hc => ?_, fun hv => absurd hv hnone, fun hv => absurd hv hnone,
    fun hv => absurd hv hnone, fun p hp => ?_⟩
  · have hidle := h.idle _ (Array.mem_of_getElem? hc)
    refine ⟨hidle.current.trans hidle.loaded.symm, ?_, hidle.faults⟩
    rw [hidle.region, hidle.root]
    rfl
  · rw [h.blocks] at hp
    cases hp

theorem History.tracked (h : History (fun c _ _ => c.order.Regular) m k) : m.Tracked :=
  h.invariant Booted.tracked perform_tracks

/-- A control block has changed only if it is that of the guest with an index, and no other guest's. -/
def WritesBlock (m : Machine) (j : Nat) (m' : Machine) : Prop :=
  ∀ p, m'.blocks.block p ≠ m.blocks.block p →
    (∃ v, m.vms[j]? = some (some v) ∧ v.guest.block = p) ∧
      ∀ k w, m.vms[k]? = some (some w) → w.guest.block = p → k = j

theorem Tracked.writesBlock {s : Session} (h : m.Tracked) (hv : m.vms[j]? = some (some v))
    (hs : Session.Confined ⟨m.host c, v.guest, v.context⟩ s) :
    m.WritesBlock j (m.withSession i j s) := by
  intro p hp
  obtain rfl : p = v.guest.block := by
    by_contra hne
    exact hp (hs.others p hne)
  exact ⟨⟨v, hv, rfl⟩, fun k w hw heq => h.distinct hw hv heq⟩

/-- A run finds no launch state to have drifted, and writes to no other guest's block. -/
theorem Tracked.run_ends (h : m.Tracked) (i j : Nat) :
    (perform { cpu := i, vm := j, order := .run }).Ends m (fun _ m' => m.WritesBlock j m')
      (fun e m' => ¬e.Drifted ∧ m.WritesBlock j m') fun _ m' => m.WritesBlock j m' := by
  have hsession : (onSession i j Session.run).Ends m (fun _ m' => m.WritesBlock j m')
      (fun e m' => ¬e.Drifted ∧ m.WritesBlock j m') fun _ m' => m.WritesBlock j m' := by
    refine onSession_ends ⟨?_, fun p hp => absurd rfl hp⟩ fun c v hc hv => ?_
    · rintro ⟨launched, he⟩
      cases he
    · have hmirrors : Session.Mirrors ⟨m.host c, v.guest, v.context⟩ ⟨m.host c, v.guest, v.context⟩ :=
        ⟨.refl _, h.cpus hc, h.launched hv, fun _ _ => rfl⟩
      exact Ends.mono ((Session.run_mirrors hmirrors).and (Session.run_confined _ (.refl _)))
        (fun _ _ hs => h.writesBlock hv hs.2)
        (fun _ _ hs => ⟨hs.1.2, h.writesBlock hv hs.2⟩) fun _ _ hs => h.writesBlock hv hs.2
  rw [perform, ends_bind]
  exact Ends.mono hsession (fun _ _ h => h) (fun _ _ h => h) fun _ _ h => h

/-- In every history without injected faults, each cpu knows which control block is current and whether
it is in VMX root operation, and each guest knows whether its block is launched.  No run then fails
because a block is in the other launch state, and a run writes to the block of its own guest only. -/
theorem copies_never_drift (h : History (fun c _ _ => c.order.Regular) m k) :
    (∀ (i : Nat) (c : Cpu), m.cpus[i]? = some c →
      c.current = c.processor.current ∧ c.region.isSome = c.processor.root) ∧
    (∀ (j : Nat) (v : Vm), m.vms[j]? = some (some v) →
      v.guest.launched = (m.blocks.block v.guest.block).launched) ∧
    ∀ i j, (perform { cpu := i, vm := j, order := .run }).Ends m (fun _ m' => m.WritesBlock j m')
      (fun e m' => e ≠ .entry .vmlaunchWithNonclearVmcs ∧ e ≠ .entry .vmresumeWithNonlaunchedVmcs ∧
        m.WritesBlock j m') fun _ m' => m.WritesBlock j m' := by
  have htracked := h.tracked
  refine ⟨fun i c hc => ?_, fun j v hv => htracked.launched hv, fun i j => ?_⟩
  · exact ⟨(htracked.cpus hc).current, (htracked.cpus hc).root⟩
  · refine Ends.mono (htracked.run_ends i j) (fun _ _ h => h) (fun e m' he => ?_) fun _ _ h => h
    exact ⟨fun heq => he.1 ⟨false, heq⟩, fun heq => he.1 ⟨true, heq⟩, he.2⟩

def dual : Machine where
  cpus := #[{ id := 0 }, { id := 1 }]

theorem dual_booted : dual.Booted := by
  refine ⟨rfl, rfl, rfl, rfl, fun c hc => ?_⟩
  obtain rfl | rfl : c = { id := 0 } ∨ c = { id := 1 } := by simpa [dual] using hc
  · exact ⟨rfl, rfl, rfl, rfl, rfl⟩
  · exact ⟨rfl, rfl, rfl, rfl, rfl⟩

def migrates : List Command :=
  [{ order := .vmxOn }, { cpu := 1, order := .vmxOn }, { order := .build {} },
   { order := .script { event := .cpuid 2 } }, { order := .run }, { order := .deactivate },
   { cpu := 1, order := .script { event := .cpuid 2 } }, { cpu := 1, order := .run }]

/-- The guest is launched on the second cpu then. -/
theorem copies_never_drift_migrates : ∃ m k v, History (fun c _ _ => c.order.Regular) m k ∧
    m.vms[0]? = some (some v) ∧ (m.blocks.block v.guest.block).launched = true := by
  have hallowed : ∀ c ∈ migrates, ∀ (_ : Machine) (_ : Callers), c.order.Regular := by
    intro c hc _ _
    simp only [migrates, List.mem_cons, List.not_mem_nil, or_false] at hc
    rcases hc with rfl | rfl | rfl | rfl | rfl | rfl | rfl | rfl <;> exact trivial
  obtain ⟨m, k, h, hlaunched⟩ := (History.booted dual_booted).exists_after
    (P := fun m => (m.vms[0]?.join.map fun v => v.guest.launched) = some true) hallowed
    (by decide +kernel)
  obtain ⟨v, hv, htrue⟩ := Option.map_eq_some_iff.1 hlaunched
  have hvm := Option.join_eq_some_iff.1 hv
  exact ⟨m, k, v, h, hvm, ((copies_never_drift h).2.1 0 v hvm).symm.trans htrue⟩

end Machine

end Hypervisor
