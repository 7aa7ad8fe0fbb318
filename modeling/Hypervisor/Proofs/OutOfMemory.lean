import Hypervisor.Proofs.Guest.Construction
import Hypervisor.Proofs.Ownership.History
import Hypervisor.Proofs.Ownership.MemoryMap

/-!
# Running out of memory

Pages are allocated for tables, for the memory of guests and for VMX root operation, and each time the
limit may be reached.  Whoever asked then gets the status that says so, and gets it for no other reason:
the error changes on its way, a guest is given up in between, but the status stays what it was.  What
can keep it from the caller is a panic while the state of the guest is logged.
-/

namespace Hypervisor

open Hypervisor.Action Memory

theorem VmError.Rejects.errno_ne {e : VmError} (h : e.Rejects) : e.errno ≠ -4 := by
  intro he
  obtain rfl | rfl := errno_eq_iff.1 he <;> exact h

namespace Session

def Counts (g : Guest) (r : Option Hpa) (K R : Memory → Prop) (s : Session) : Prop :=
  Bears g r K s ∧ s.host.cpu.processor.Candid ∧ R s.host.memory

def Tells (g : Guest) (r : Option Hpa) (K : Memory → Prop) (k : Nat) (e : VmError) : Session → Prop :=
  Counts g r K fun m => m.Fits → m.Reports k e

def Wrapped (s : Session) : Prop :=
  ∃ p, s.host.cpu.processor.current = some p ∧ (s.host.blocks.block p).Wraps

def Halts (k : Nat) (p : Panic) (s : Session) : Prop :=
  s.host.memory.Fits → p = .addOverflow ∧ s.host.memory.Refused k

def Wrecks (p : Panic) (s : Session) : Prop := s.host.memory.Fits → p = .addOverflow ∧ s.Wrapped

variable {g : Guest} {root : Hpa} {r : Option Hpa} {K R : Memory → Prop} {k : Nat} {s : Session}
  {F : Panic → Session → Prop} {α : Type}

theorem onMemory_counts {x : MemoryM VmError α} {E : VmError → Memory → Prop}
    (hx : ∀ m : Memory, x.Safe (fun _ => False) m (K m) (fun _ => K) fun _ => K)
    (hR : x.Upholds R (fun _ _ => True) E) (hF : ∀ p s, ¬s.host.memory.Fits → F p s) :
    (onMemory x).Upholds (Counts g r K R) F fun e => Counts g r K (E e) := by
  intro s hs
  have hcounts : (onMemory x).Ends s
      (fun _ t => t.host.cpu.processor.Candid ∧ R t.host.memory)
      (fun e t => t.host.cpu.processor.Candid ∧ E e t.host.memory) fun _ _ => True :=
    ends_onMemory.2 (Ends.mono (hR _ hs.2.2) (fun _ _ h => ⟨hs.2.1, h⟩) (fun _ _ h => ⟨hs.2.1, h⟩)
      fun _ _ h => h)
  exact Ends.mono ((onMemory_upholds_bears hx s hs.1).and hcounts) (fun _ _ h => h) (fun _ _ h => h)
    fun p t h => hF p t h.1.not_fits

theorem counts_host (hR : ∀ m, R m → m.Refused k)
    (hoverflow : ∀ {s : Session}, s.Wrapped → Counts g r K R s → F .addOverflow s) (s : Session) :
    Host.Detached (fun h => Counts g r K R { s with host := h })
      (fun p h => F p { s with host := h }) fun e h => Tells g r K k e { s with host := h } where
  overflow := fun hp hwraps h => hoverflow ⟨_, hp, hwraps⟩ h
  log := fun _ h => h
  kernel := fun _ h => h
  spent := fun p f h => ⟨h.1, h.2.1.spent p f, h.2.2⟩
  refused := fun he h => ⟨h.1, h.2.1, fun _ => (hR _ h.2.2).reports he.errno_ne⟩
  struck := fun h x hx _ h' => ⟨h'.1, h'.2.1, fun _ => (hR _ h'.2.2).reports (h.2.1 x hx)⟩
  blocks := fun _ h => h
  processor := fun hfaults h => ⟨h.1, h.2.1.of_subset hfaults, h.2.2⟩
  current := fun _ h => h
  entry := fun h => ⟨h.1, h.2.1, fun _ => (hR _ h.2.2).reports (by simp [VmError.errno])⟩

theorem counts_onMemory {x : MemoryM VmError α}
    (hx : ∀ m : Memory, x.Safe (fun _ => False) m (K m) (fun _ => K) fun _ => K)
    (hk : x.Upholds (Memory.Refused k) (fun _ _ => True) fun e m => m.Reports k e)
    (hF : ∀ p s, ¬s.host.memory.Fits → F p s) :
    (onMemory x).Upholds (Counts g r K (Memory.Refused k)) F (Tells g r K k) :=
  (onMemory_counts hx hk hF).mono (fun _ _ h => ⟨h.1, h.2.1, fun _ => h.2.2⟩) fun _ _ h => h

theorem onAccess_maps (hg : g.Visited root K) {m : Memory} :
    (g.table.onAccess g.physSize ⟨Layout.memoryMap⟩).Safe (fun _ => False) m (K m)
      (fun _ m' => m'.translation root (⟨Layout.memoryMap⟩ : Gpa).number ≠ none)
      fun _ _ => True := by
  have hram : Region.of (⟨Layout.memoryMap⟩ : Gpa) g.physSize = .ram := if_pos (by decide)
  rw [Ept.onAccess, hram]
  refine Safe.assume (Safe.exists fun a => ?_) fun _ h => hg.balanced h
  refine Safe.bind_exists ((Ept.populate_fills hg.root).mono (fun _ h => h) (fun _ _ _ _ _ h => h)
    fun _ _ _ _ _ _ => trivial) fun a' _ m' => Safe.pure fun _ h => ?_
  obtain ⟨-, p, -, hmap⟩ := h.2.inside rfl
  rw [Address.number_pageDown] at hmap
  rw [hmap]
  exact Option.some_ne_none _

/-- No error but that of a refused allocation says that there is no place for the memory map. -/
theorem memoryMapPage_counts (hg : g.Visited root K) (hF : ∀ p s, ¬s.host.memory.Fits → F p s) :
    memoryMapPage.Upholds (Counts g r K (Memory.Refused k)) F (Tells g r K k) := by
  have hresolve : ∀ gpa, (onMemory (g.table.resolve gpa)).Upholds (Counts g r K (Memory.Refused k)) F
      (Tells g r K k) := fun gpa =>
    counts_onMemory (fun _ => hg.resolve_keeps gpa) (Ept.resolve_upholds _ gpa) hF
  intro s hs
  rw [memoryMapPage, ends_bind, ends_get]
  dsimp only
  rw [hs.1.1.table, hs.1.1.physSize, ends_bind]
  refine Ends.mono (hresolve _ s hs) (fun v t ht => ?_) (fun _ _ h => h) fun _ _ hp => hp
  cases v with
  | some page => exact ht
  | none =>
      have hfault : (onMemory (g.table.onAccess g.physSize ⟨Layout.memoryMap⟩)).Upholds
          (Counts g r K (Memory.Refused k)) F (Tells g r K k) :=
        counts_onMemory (fun _ => hg.fault _) (Ept.onAccess_reports _ _ _) hF
      show Ends _ t _ _ _
      rw [ends_bind]
      refine Ends.mono ((hfault t ht).and (onMemory_bears (onAccess_maps hg) ht.1)) ?_
        (fun _ _ h => h.1) fun _ _ hp => hp.1
      rintro - u ⟨hu, hmapped⟩
      have hreturns := resolve_returns (s := u) (P := u.host.memory.Fits) ⟨Layout.memoryMap⟩
        (hu.1.1.table ▸ hg.root) fun hf => hg.balanced (hu.1.2.2 hf)
      rw [hu.1.1.table] at hreturns
      rw [ends_bind]
      refine Ends.mono ((hresolve _ u hu).and hreturns) ?_ (fun _ _ h => h.1) fun _ _ hp => hp.1
      rintro v w ⟨hw, rfl, hv⟩
      rw [ends_orFail]
      cases v with
      | some page => exact hw
      | none =>
          refine ⟨hw.1, hw.2.1, fun hf => ?_⟩
          exact absurd (Option.map_eq_none_iff.1 (hv hf).symm) (hmapped.2.2 hf)

theorem giveMemoryMap_counts (hg : g.Visited root K) (hF : ∀ p s, ¬s.host.memory.Fits → F p s) :
    giveMemoryMap.Upholds (Counts g r K (Memory.Refused k)) F (Tells g r K k) := by
  intro s hs
  have hcounts : giveMemoryMap.Ends s
      (fun _ t => t.host.cpu.processor.Candid ∧ t.host.memory.Refused k) (Tells g r K k) F := by
    rw [giveMemoryMap, ends_bind]
    refine Ends.mono (memoryMapPage_counts hg hF s hs) (fun page t ht => ?_) (fun _ _ h => h)
      fun _ _ hp => hp
    rw [ends_bind, ends_get]
    cases t.host.memory.physical? page with
    | none => exact ht.2
    | some p => exact ht.2
  exact Ends.mono ((giveMemoryMap_bears hg s hs.1).and hcounts) (fun _ _ h => h) (fun _ _ h => h.2)
    fun _ _ hp => hp.2

theorem counts_detached (hg : g.Housed root K) :
    Session.Detached g (Counts g r K (Memory.Refused k)) (Halts k) (Tells g r K k) := by
  have hsteady := refused_steady k
  have hF : ∀ p (s : Session), ¬s.host.memory.Fits → Halts k p s := fun _ _ hf h => absurd h hf
  exact
    { same := fun h => h.1.1
      host := counts_host (fun _ h => h) fun _ h _ => ⟨rfl, h.2.2⟩
      skip := fun _ _ h _ => ⟨rfl, h.2.2⟩
      context := fun _ h => h
      guest := fun hsame h => ⟨⟨h.1.1.trans hsame, h.1.2⟩, h.2⟩
      resolve := fun gpa => onMemory_counts (fun _ => hg.resolve_keeps gpa)
        (Ept.resolve_upholds _ gpa) hF
      fault := fun gpa => counts_onMemory (fun _ => hg.fault gpa) (Ept.onAccess_reports _ _ _) hF
      readMsrs := onMemory_counts (fun _ => hg.readMsrs) (pageWords_upholds _) hF
      writeMsrs := fun f => onMemory_counts (fun _ => hg.writeMsrs f) (hsteady.updatePage _ f) hF
      memoryMap := giveMemoryMap_counts hg.toVisited hF
      bitmaps := onMemory_counts (fun _ => hg.interceptEmulatedPorts)
        (Guest.interceptEmulatedPorts_upholds hsteady g) hF
      msrs := fun rdmsr => onMemory_counts (fun _ => hg.listMsrs rdmsr)
        (Guest.listMsrs_upholds hsteady g rdmsr) hF
      foreign := fun h => ⟨h.1, h.2.1, fun _ => h.2.2.reports (by decide)⟩ }

theorem memory_host (m : Memory) (s : Session) :
    Host.Detached (fun h => Counts g r K (· = m) { s with host := h })
      (fun p h => Wrecks p { s with host := h })
      fun e h => Tells g r K m.refused e { s with host := h } :=
  counts_host (fun _ h => congrArg refused h) (fun h _ _ => ⟨rfl, h⟩) s

theorem memory_calm (hg : g.Visited root K) (m : Memory) :
    Calm g.table (Counts g r K (· = m)) Wrecks where
  table := fun h => h.1.1.table
  host := fun s => (memory_host m s).toCalm.plain
  resolve := fun gpa => onMemory_counts (fun _ => hg.resolve_keeps gpa) (Ept.resolve_upholds _ gpa)
    fun _ _ hf h => absurd h hf

theorem terminate_memory (hg : g.Visited root K) {m : Memory} (hs : Counts g r K (· = m) s) :
    terminate.Ends s (fun _ t => t.host.memory = m) (fun _ _ => False) Wrecks := by
  have hdeactivate : deactivate.Upholds (Counts g r K (· = m)) Wrecks :=
    deactivate_of (fun s => (memory_host m s).plain) fun hsame h => ⟨⟨h.1.1.trans hsame, h.1.2⟩, h.2⟩
  exact (memory_calm hg m).terminate_ends hdeactivate (fun _ h => h.2.2) hs

/-- The status of a run tells whether an allocation was refused, although the state of the guest is
logged and the guest is given up in between. -/
theorem run_counts (hg : g.Housed root K) (hs : Counts g r K (Memory.Refused k) s) :
    Session.run.Ends s (fun _ t => t.host.memory.refused = k)
      (fun e t => t.host.memory.Fits → t.host.memory.Reports k e)
      fun p t => t.host.memory.Fits →
        p = .addOverflow ∧ (t.host.memory.refused = k ∨ t.Wrapped) := by
  have hwrecks : ∀ p (t : Session), Wrecks p t → t.host.memory.Fits →
      p = .addOverflow ∧ (t.host.memory.refused = k ∨ t.Wrapped) :=
    fun _ _ h hf => ⟨(h hf).1, .inr (h hf).2⟩
  have honce : runOnce.Ends s (fun _ => Counts g r K (Memory.Refused k)) (Tells g r K k) fun p t =>
      t.host.memory.Fits → p = .addOverflow ∧ (t.host.memory.refused = k ∨ t.Wrapped) :=
    Ends.mono ((counts_detached hg).runnable.runOnce_ends hs) (fun _ _ h => h)
      (fun _ _ h => h.elim (fun h => h.2) id) fun _ _ h hf => ⟨(h hf).1, .inl (h hf).2⟩
  refine Ends.mono (run_ends_of_parts (K := fun u w => w.host.memory = u.host.memory)
    (fun u hu => ?_) (fun e u hu => ?_) honce) ?_ ?_ fun _ _ h => h
  · exact Ends.mono (terminate_memory hg.toVisited ⟨hu.1, hu.2.1, rfl⟩) (fun _ _ h => h)
      (fun _ _ h => h) hwrecks
  · exact Ends.mono ((memory_calm hg.toVisited _).giveUp_ends
      (fun _ h => terminate_memory hg.toVisited h) e ⟨hu.1, hu.2.1, rfl⟩) (fun _ _ h => h)
        (fun _ _ h => h) hwrecks
  · rintro result t ⟨u, hu, ⟨-, rfl⟩ | ⟨-, w, hw, rfl⟩⟩
    · exact hu.2.2
    · exact (congrArg refused hw).trans hu.2.2
  · rintro e t ⟨u, hu, ⟨-, rfl⟩ | ⟨-, w, hw, rfl⟩⟩
    · exact hu.2.2
    · show w.host.memory.Fits → w.host.memory.Reports k e
      rw [hw]
      exact hu.2.2

end Session

namespace Host

variable {k : Nat}

theorem candid_rootless : Rootless (fun h => h.cpu.processor.Candid ∧ h.memory.Refused k)
    (fun _ _ => True) fun e h =>
      (h.cpu.processor.Candid ∧ h.memory.Refused k) ∧ e.errno ≠ -4 where
  overflow := fun _ _ _ => trivial
  log := fun _ h => h
  kernel := fun _ h => h
  spent := fun p f h => ⟨h.1.spent p f, h.2⟩
  refused := fun he h => ⟨h, he.errno_ne⟩
  struck := fun h x hx _ h' => ⟨h', h.1 x hx⟩
  mode := fun _ hfaults h => ⟨h.1.of_subset (hfaults ▸ List.Subset.refl _), h.2⟩

theorem enterRoot_candid (page : Hpa) :
    (enterRoot page).Upholds (fun h => h.cpu.processor.Candid ∧ h.memory.Refused k)
      (fun _ _ => True) fun e h =>
        (h.cpu.processor.Candid ∧ h.memory.Refused k) ∧ e.errno ≠ -4 := by
  have hroot := candid_rootless (k := k)
  have hformat : (formatBlock page).Upholds
      (fun h => h.cpu.processor.Candid ∧ h.memory.Refused k) (fun _ _ => True) fun e h =>
        (h.cpu.processor.Candid ∧ h.memory.Refused k) ∧ e.errno ≠ -4 := by
    refine Upholds.bind Calm.processor fun c => Upholds.bind (hroot.require trivial) fun _ => ?_
    intro h hh
    simp only [onMemory, onPlatform, Platform.onMemory, ends_onPart]
    exact editPage_ends (fun _ => hh) fun _ _ => trivial
  refine Upholds.bind hformat fun _ => Upholds.bind (hroot.prepareFixed _) fun _ => ?_
  refine Upholds.bind (hroot.prepareFixed _) fun _ => Upholds.bind hroot.lockFeatureControl fun _ => ?_
  exact hroot.vmxon

theorem vmxOn_reports : vmxOn.Upholds (fun h => h.cpu.processor.Candid ∧ h.memory.Refused k)
    (fun _ _ => True) fun e h => h.memory.Reports k e := by
  have hroot := candid_rootless (k := k)
  refine Upholds.get_bind fun _ _ => Upholds.ite (fun _ => Upholds.pure) fun _ => ?_
  refine Upholds.bind (hroot.checkSupport.mono (fun _ _ h => h.1.2.reports h.2) fun _ _ h => h) ?_
  intro _ h hh
  rw [ends_bind]
  simp only [onMemory, onPlatform, Platform.onMemory, ends_onPart]
  refine allocRetained_ends_draws (fun m₁ _ _ hr => ?_) fun m₁ page _ hr => ?_
  · exact hr.1.trans (congrArg (· + 1) hh.2)
  · have hh₁ : m₁.Refused k := hr.1.trans hh.2
    rw [ends_bind, ends_orFail]
    show Ends _ _ _ _ _
    rw [ends_bind, ends_attempt]
    refine Ends.mono (enterRoot_candid page _ ⟨hh.1, hh₁⟩) (fun _ h₂ hh₂ => ?_)
      (fun e h₂ hh₂ => ?_) fun _ _ h => h
    · rw [ends_bind, onCpu, ends_modify]
      exact hh₂
    · rw [ends_bind, ends_onPart, ends_onPart]
      exact release_ends (fun _ => Refused.reports hh₂.1.2 hh₂.2) fun _ _ => trivial

end Host

theorem Platform.backAccess_reports {k : Nat} (t : Ept) (physSize : UInt64) (gpa : Gpa) :
    (backAccess t physSize gpa).Upholds (fun p => p.memory.Refused k) (fun _ _ => True)
      fun e p => p.memory.Reports k e := by
  intro p hp
  simp only [backAccess, onMemory, ends_bind, ends_onPart]
  refine Ends.mono (Ept.onAccess_reports t physSize gpa p.memory hp) (fun fault m hm => ?_)
    (fun _ _ h => h) fun _ _ h => h
  cases fault with
  | handled => exact hm
  | unhandled => exact hm

/-- The order may need pages. -/
def Order.Allocates : Order → Prop
  | .newTable | .lookup .. | .map .. | .insertPage .. | .mapFromHost .. | .access ..
  | .populateAll _ | .build _ | .vmxOn | .handleExit .. | .run => True
  | _ => False

namespace Machine

/-- On a cpu, the address of the next instruction of the guest does not fit in a word. -/
def Wrapped (m : Machine) (i : Nat) : Prop :=
  ∃ c p, m.cpus[i]? = some c ∧ c.processor.current = some p ∧ (m.blocks.block p).Wraps

/-- As long as addresses fit, the status of an error tells whether an allocation was refused, and
without an error none was.  Nothing but a sum panics, and an allocation was refused before that only if
`P` says so. -/
def Faithful {α : Type} (P : Machine → Prop) (m : Machine) (x : MachineM α) : Prop :=
  x.Ends m (fun _ m' => m'.memory.refused = m.memory.refused)
    (fun e m' => m'.memory.Fits → (e.errno = -4 ↔ m.memory.refused < m'.memory.refused))
    fun p m' => m'.memory.Fits →
      p = .addOverflow ∧ (m'.memory.refused = m.memory.refused ∨ P m')

variable {P : Machine → Prop} {m : Machine} {k : Callers} {c : Command} {H : Prop} {α β : Type}

theorem Faithful.answer {x : MachineM α} {f : α → β} (hx : m.Faithful P x) :
    m.Faithful P (x >>= fun a => pure (f a)) :=
  (ends_bind _ _).2 hx

theorem faithful_missing :
    m.memory.Fits → (VmError.invalidArgument.errno = -4 ↔ m.memory.refused < m.memory.refused) :=
  fun _ => by simp [VmError.errno]

theorem onPlatform_faithful {x : PlatformM α} {Q : α → Platform → Prop}
    {E : VmError → Platform → Prop} (hH : m.memory.Fits → H)
    (hx : x.Safe (fun _ => False) m.toPlatform H Q E)
    (hk : x.Upholds (fun p => p.memory.Refused m.memory.refused) (fun _ _ => True)
      fun e p => p.memory.Reports m.memory.refused e) : m.Faithful P (onPlatform x) := by
  rw [Faithful, onPlatform, ends_onPart]
  exact Ends.mono ((hx.ends hH).and (hk m.toPlatform rfl)) (fun _ _ h => h.2)
    (fun _ _ h _ => h.2.shortage_iff) fun _ _ h hf => (h.1 hf).elim

theorem onMemory_faithful {x : MemoryM VmError α} {Q : α → Memory → Prop}
    {E : VmError → Memory → Prop} (hH : m.memory.Fits → H)
    (hx : x.Safe (fun _ => False) m.memory H Q E)
    (hk : x.Upholds (Memory.Refused m.memory.refused) (fun _ _ => True)
      fun e m' => m'.Reports m.memory.refused e) : m.Faithful P (onMemory x) :=
  onPlatform_faithful (Q := fun a p => Q a p.memory) (E := fun e p => E e p.memory) hH
    (Safe.onPart Platform.memory (fun _ => rfl) (fun _ _ => rfl) hx)
    (Upholds.onPart (fun _ => rfl) fun _ _ => hk)

theorem onTable_faithful {x : MemoryM EptError α} {Q : α → Memory → Prop}
    {E : EptError → Memory → Prop} (hH : m.memory.Fits → H)
    (hx : x.Safe (fun _ => False) m.memory H Q E)
    (hk : x.Upholds (Memory.Refused m.memory.refused) (fun _ _ => True)
      (Blames .outOfMemory m.memory.refused)) : m.Faithful P (onTable x) :=
  onMemory_faithful (E := fun _ _ => True) hH (Safe.mapError (hx.mono (fun _ h => h)
    (fun _ _ _ _ _ h => h) fun _ _ _ _ _ _ => trivial))
      (Upholds.mapError_of hk fun _ _ h => h.reports_ept)

theorem build_faithful (h : m.Orderly k False) (i : Nat) (config : GuestConfig) :
    m.Faithful P (onHost i (Host.buildGuest config)) := by
  refine onHost_ends (fun _ => faithful_missing) fun c _ => ?_
  have hsafe := Host.buildGuest_safe (F := fun _ => False) (h := m.host c) (e := m.estate k) config
    (I := False) False.elim
  exact Ends.mono ((hsafe.ends h.owned).and (Host.buildGuest_reports config)) (fun _ _ h => h.2)
    (fun _ _ h => h.2) fun _ _ h hf => (h.1 hf).elim

theorem vmxOn_faithful (h : m.Orderly k False) {i : Nat}
    (hcandid : ∀ c, m.cpus[i]? = some c → c.processor.Candid) :
    m.Faithful P (onHost i Host.vmxOn) := by
  refine onHost_ends (fun _ => faithful_missing) fun c hc => ?_
  obtain ⟨e, he, -⟩ := exists_estate_withHost (k := k) hc
  have hsafe := Host.vmxOn_carries (F := fun _ => False) (h := m.host c) (e := e) (I := False)
    carried_true
  have howned : m.memory.Fits → m.memory.Owned (e.giveAll c.region.toList) False ∧ True := fun hf =>
    ⟨he ▸ h.owned hf, trivial⟩
  exact Ends.mono ((hsafe.ends howned).and (Host.vmxOn_reports (m.host c) ⟨hcandid c hc, rfl⟩))
    (fun _ _ h => h.2.2) (fun _ _ h _ => h.2.shortage_iff) fun _ _ h hf => (h.1 hf).elim

theorem onSession_faithful (h : m.Orderly k False) {i j : Nat}
    (hcandid : ∀ c, m.cpus[i]? = some c → c.processor.Candid) {x : SessionM α}
    (hx : ∀ {c g root K s}, m.cpus[i]? = some c → Guest.Housed g root K →
      Session.Counts g c.region K (Memory.Refused m.memory.refused) s →
        x.Ends s (fun _ t => t.host.memory.refused = m.memory.refused)
          (fun e t => t.host.memory.Fits → t.host.memory.Reports m.memory.refused e)
          fun p t => t.host.memory.Fits → p = .addOverflow ∧
            (t.host.memory.refused = m.memory.refused ∨ P (m.withSession i j t))) :
    m.Faithful P (onSession i j x) := by
  refine onSession_ends faithful_missing fun c v hc hv => ?_
  obtain ⟨root, hg⟩ := h.lodged hv
  have hcounts : Session.Counts v.guest c.region (·.Owned (m.estate k) False)
      (Memory.Refused m.memory.refused) ⟨m.host c, v.guest, v.context⟩ :=
    ⟨⟨.refl _, rfl, h.owned⟩, hcandid c hc, rfl⟩
  exact Ends.mono (hx hc hg.housed hcounts) (fun _ _ h => h)
    (fun _ _ h hf => (h hf).shortage_iff) fun _ _ h => h

/-- Out of memory is reported faithfully. -/
theorem perform_faithful (h : m.Orderly k False) (hc : c.Lawful m k) (ho : c.order.Allocates)
    (hcandid : ∀ x, m.cpus[c.cpu]? = some x → x.processor.Candid) :
    m.Faithful (fun m' => c.order = .run ∧ m'.Wrapped c.cpu) (perform c) := by
  obtain ⟨cpu, vm, index, order⟩ := c
  cases order with
  | newTable =>
      rw [perform, Faithful, ends_bind]
      exact Ends.mono (onTable_faithful h.owned Ept.new_owned Ept.new_blames) (fun _ _ h => h)
        (fun _ _ h => h) fun _ _ h => h
  | lookup gpa create edits =>
      obtain rfl : edits = [] := hc
      exact h.table_ends faithful_missing fun t r hr hmem => Faithful.answer
        (onTable_faithful h.owned (Ept.edit_owned hr hmem create) (Ept.edit_blames t gpa create []))
  | map source gpa perm overwrite =>
      refine Faithful.answer (h.table_ends faithful_missing fun t r hr hmem =>
        addressOf_ends hc (fun v _ hv => ?_) fun _ => ⟨rfl, .inl rfl⟩)
      exact onTable_faithful h.owned (Ept.map_owned hr hmem id v perm overwrite hv)
        (Ept.map_blames t v gpa perm overwrite)
  | insertPage page gpa perm =>
      refine Faithful.answer (h.table_ends faithful_missing fun t r hr hmem => ?_)
      exact onTable_faithful h.owned (Ept.insertPage_owned hr hmem id page perm hc.1 hc.2)
        (Ept.insertPage_blames t page gpa perm)
  | access physSize gpa =>
      refine h.table_ends faithful_missing fun t r hr hmem => Faithful.answer ?_
      exact onPlatform_faithful h.owned (Platform.backAccess_safe
        (K := (·.Owned (m.estate k) False)) (Ept.onAccess_owned hr hmem physSize False.elim))
          (Platform.backAccess_reports t physSize gpa)
  | populateAll physSize =>
      refine Faithful.answer (h.table_ends faithful_missing fun t r hr hmem => ?_)
      exact onMemory_faithful h.owned (Ept.populateAll_owned hr hmem physSize False.elim)
        ((Ept.populateAll_blames t physSize).mono (fun _ _ h => h.reports) fun _ _ h => h)
  | build config =>
      rw [perform, Faithful, ends_bind]
      exact Ends.mono (build_faithful h cpu config) (fun _ _ h => h) (fun _ _ h => h) fun _ _ h => h
  | mapFromHost source writable gpa perm =>
      refine Faithful.answer (h.guest_ends faithful_missing fun g r hg =>
        addressOf_ends hc (fun v _ hv => ?_) fun _ => ⟨rfl, .inl rfl⟩)
      exact onMemory_faithful h.owned (hg.mapFromHost_owned id hv writable gpa perm)
        (g.mapFromHost_reports v writable gpa perm)
  | vmxOn => exact Faithful.answer (vmxOn_faithful h hcandid)
  | run =>
      refine Faithful.answer (onSession_faithful h hcandid fun hx hg hs => ?_)
      refine Ends.mono (Session.run_counts hg hs) (fun _ _ h => h) (fun _ _ h => h)
        fun p t ht hf => ?_
      obtain ⟨rfl, hsame | ⟨q, hq, hwraps⟩⟩ := ht hf
      · exact ⟨rfl, .inl hsame⟩
      · exact ⟨rfl, .inr ⟨rfl, _, q, cpus_withSession_self hx, hq, hwraps⟩⟩
  | handleExit fields regs handling =>
      refine onSession_faithful h hcandid fun _ hg hs => ?_
      exact Ends.mono ((Session.counts_detached hg).programmable.handleExit fields regs handling _ hs)
        (fun _ _ h => h.2.2) (fun _ _ h => h.2.2) fun _ _ h hf => ⟨(h hf).1, .inl (h hf).2⟩
  | _ => exact ho.elim

/-- Whatever has happened before, a call that needs pages fails with the status of a refused allocation
if and only if one was refused. -/
theorem out_of_memory_reported (h : History Command.Lawful m k) (hc : c.Lawful m k)
    (ho : c.order.Allocates) (hcandid : ∀ x, m.cpus[c.cpu]? = some x → x.processor.Candid) :
    (perform c).Ends m (fun _ m' => m'.memory.refused = m.memory.refused)
      (fun e m' => m'.memory.Fits → (e.errno = -4 ↔ m.memory.refused < m'.memory.refused))
      fun p m' => m'.memory.Fits → p = .addOverflow ∧
        (m'.memory.refused = m.memory.refused ∨ c.order = .run ∧ m'.Wrapped c.cpu) :=
  perform_faithful (h.orderly id False.elim) hc ho hcandid

/-- A guest at the end of its address space touches its memory when no page is left for it.  Its code
segment starts at `base`. -/
def starves (base : UInt64) : List Command :=
  [{ order := .build {} }, { order := .limitAllocations 0 },
   { order := .setRegisters [(.rip, 0xffffffffffffffff)] },
   { order := .script { event := .eptViolation 0x5000, fields := [(.guestCsBase, base)] } }]

theorem starves_lawful (base : UInt64) : ∀ c ∈ starves base, ∀ m k, c.Lawful m k :=
  Command.forall_lawful rfl

/-- The guest is given up, and its run has the status of a refused allocation. -/
theorem out_of_memory_reported_starves : ∃ m k m', History Command.Lawful m k ∧
    Order.run.Allocates ∧ (∀ x, m.cpus[0]? = some x → x.processor.Candid) ∧
      (perform { order := .run }).run m = .error (.error .noMemory) m' ∧ m'.memory.Fits ∧
        (VmError.noMemory.errno = -4 ↔ m.memory.refused < m'.memory.refused) := by
  obtain ⟨m, k, h, hfaults, hrun⟩ := (History.booted uniprocessor_booted).exists_after
    (P := fun m => (m.cpus[0]?.map fun c => c.processor.faults.isEmpty) = some true ∧
      (match (perform { order := .run }).run m with
        | .error (.error .noMemory) m' => decide m'.memory.Fits
        | _ => false) = true) (starves_lawful 0) (by decide +kernel)
  have hcandid : ∀ x, m.cpus[0]? = some x → x.processor.Candid := by
    intro x hx
    obtain ⟨c, hc, hempty⟩ := Option.map_eq_some_iff.1 hfaults
    cases hc.symm.trans hx
    exact Processor.forall_faults (List.isEmpty_iff.1 hempty)
  split at hrun
  · rename_i m' hfailed
    have hf : m'.memory.Fits := of_decide_eq_true hrun
    exact ⟨m, k, m', h, trivial, hcandid, hfailed, hf,
      (out_of_memory_reported (c := { order := .run }) h trivial trivial hcandid).error hfailed hf⟩
  · cases hrun

/-- When the address of the guest's next instruction does not fit in a word, the kernel stops while it
logs the state of the guest, and nobody is told that an allocation was refused. -/
theorem refusal_swallowed : ∃ m k m', History Command.Lawful m k ∧
    (perform { order := .run }).run m = .error (.panic .addOverflow) m' ∧ m'.memory.Fits ∧
      m.memory.refused < m'.memory.refused := by
  obtain ⟨m, k, h, hrun⟩ := (History.booted uniprocessor_booted).exists_after
    (P := fun m => (match (perform { order := .run }).run m with
        | .error (.panic .addOverflow) m' =>
            decide (m'.memory.Fits ∧ m.memory.refused < m'.memory.refused)
        | _ => false) = true) (starves_lawful 1) (by decide +kernel)
  split at hrun
  · rename_i m' hstopped
    obtain ⟨hf, hrefused⟩ := of_decide_eq_true hrun
    exact ⟨m, k, m', h, hstopped, hf, hrefused⟩
  · cases hrun

end Machine

end Hypervisor
