import Hypervisor.Proofs.Machine
import Hypervisor.Proofs.Ownership.Session

/-!
# Machines and ownership

The estate of a machine is that of its tables, its guests and its cpus.  What changes one of these
changes its share alone, so that work on a host or on a session is work on a machine.
-/

namespace Hypervisor

section Shares

variable {α β : Type} {f : α → List β} {l : List α} {i : Nat} {x : α}

private theorem exists_flatMap_set (h : l[i]? = some x) :
    ∃ rest : Multiset β, ((l.flatMap f : List β) : Multiset β) = f x + rest ∧
      ∀ y, (((l.set i y).flatMap f : List β) : Multiset β) = f y + rest := by
  obtain ⟨hi, hx⟩ := List.getElem?_eq_some_iff.1 h
  have hshare : ∀ y, (((l.set i y).flatMap f : List β) : Multiset β) =
      f y + (((l.take i).flatMap f ++ (l.drop (i + 1)).flatMap f : List β) : Multiset β) := by
    intro y
    rw [List.set_eq_take_append_cons_drop, if_pos hi, List.flatMap_append, List.flatMap_cons,
      ← Multiset.coe_add, ← Multiset.coe_add, ← Multiset.coe_add]
    exact add_left_comm _ _ _
  refine ⟨_, ?_, hshare⟩
  rw [← hshare x, ← hx, List.set_getElem_self]

private theorem flatMap_set_eq (h : l[i]? = some x) {y : α} (hy : f y = f x) :
    (l.set i y).flatMap f = l.flatMap f := by
  obtain ⟨hi, hx⟩ := List.getElem?_eq_some_iff.1 h
  rw [List.flatMap_def, List.flatMap_def, List.map_set, hy, ← hx, ← List.getElem_map f,
    List.set_getElem_self]
  exact Nat.lt_of_lt_of_eq hi (List.length_map f).symm

end Shares

def Vm.roots (v : Option Vm) : List Hpa := v.elim [] fun v => v.guest.table.root.toList

/-- The other pages of the guest. -/
def Vm.pages (v : Option Vm) : List Hpa := v.elim [] fun v => v.guest.ownPages

namespace Machine

/-- The pages with a role in the machine. -/
def estate (m : Machine) (k : Callers) : Estate :=
  { k with
    roots := ((m.tables.toList.flatMap fun t => t.root.toList : List Hpa) : Multiset Hpa) +
      (m.vms.toList.flatMap Vm.roots : List Hpa)
    others := ((m.vms.toList.flatMap Vm.pages : List Hpa) : Multiset Hpa) +
      (m.cpus.toList.flatMap fun c => c.region.toList : List Hpa) }

variable {m : Machine} {k : Callers} {i j : Nat} {r p : Hpa} {t : Ept} {v : Vm} {c : Cpu}

theorem mem_roots_of_table (ht : t ∈ m.tables) (hr : t.root = some r) :
    r ∈ (m.estate k).roots := by
  apply Multiset.mem_add.2
  left
  rw [Multiset.mem_coe, List.mem_flatMap]
  exact ⟨t, Array.mem_toList_iff.2 ht, Option.mem_toList.2 hr⟩

theorem mem_roots_of_vm (hv : some v ∈ m.vms) (hr : v.guest.table.root = some r) :
    r ∈ (m.estate k).roots := by
  apply Multiset.mem_add.2
  right
  rw [Multiset.mem_coe, List.mem_flatMap]
  exact ⟨some v, Array.mem_toList_iff.2 hv, Option.mem_toList.2 hr⟩

theorem mem_others_of_vm (hv : some v ∈ m.vms) (hp : p ∈ v.guest.ownPages) :
    p ∈ (m.estate k).others := by
  apply Multiset.mem_add.2
  left
  rw [Multiset.mem_coe, List.mem_flatMap]
  exact ⟨some v, Array.mem_toList_iff.2 hv, hp⟩

theorem mem_others_of_cpu (hc : c ∈ m.cpus) (hp : c.region = some p) :
    p ∈ (m.estate k).others := by
  apply Multiset.mem_add.2
  right
  rw [Multiset.mem_coe, List.mem_flatMap]
  exact ⟨c, Array.mem_toList_iff.2 hc, Option.mem_toList.2 hp⟩

theorem exists_estate_withHost (hc : m.cpus[i]? = some c) :
    ∃ e : Estate, m.estate k = e.giveAll c.region.toList ∧
      ∀ h, (m.withHost i h).estate k = e.giveAll h.cpu.region.toList := by
  rw [← Array.getElem?_toList] at hc
  obtain ⟨rest, hrest, hset⟩ := exists_flatMap_set (f := fun c : Cpu => c.region.toList) hc
  refine ⟨{ m.estate k with others := (m.vms.toList.flatMap Vm.pages : List Hpa) + rest }, ?_,
    fun h => ?_⟩
  · rw [estate, hrest, Estate.giveAll]
    exact congrArg _ (add_left_comm _ _ _)
  · rw [estate, withHost, Array.toList_setIfInBounds, hset, Estate.giveAll]
    exact congrArg _ (add_left_comm _ _ _)

theorem estate_withSession {s : Session} (hc : m.cpus[i]? = some c)
    (hv : m.vms[j]? = some (some v)) (hregion : s.host.cpu.region = c.region)
    (hguest : v.guest.Same s.guest) : (m.withSession i j s).estate k = m.estate k := by
  rw [← Array.getElem?_toList] at hc hv
  have hroots : Vm.roots (some ⟨s.guest, s.context⟩) = Vm.roots (some v) := by
    simp only [Vm.roots, Option.elim_some, hguest.table]
  have hpages : Vm.pages (some ⟨s.guest, s.context⟩) = Vm.pages (some v) := by
    simp only [Vm.pages, Option.elim_some, hguest.ownPages]
  simp only [estate, withSession, withHost, Array.toList_setIfInBounds, flatMap_set_eq hv hroots,
    flatMap_set_eq hv hpages,
    flatMap_set_eq (f := fun c : Cpu => c.region.toList) hc (congrArg Option.toList hregion)]

theorem estate_setContext (hv : m.vms[j]? = some (some v)) (context : Context) :
    estate { m with vms := m.vms.setIfInBounds j (some { v with context := context }) } k =
      m.estate k := by
  rw [← Array.getElem?_toList] at hv
  have hroots : Vm.roots (some { v with context := context }) = Vm.roots (some v) := rfl
  have hpages : Vm.pages (some { v with context := context }) = Vm.pages (some v) := rfl
  simp only [estate, Array.toList_setIfInBounds, flatMap_set_eq hv hroots,
    flatMap_set_eq hv hpages]

theorem estate_push_table (ht : t.root = some r) :
    estate { m with tables := m.tables.push t } k = (m.estate k).plant r := by
  have hshare : (((m.tables.push t).toList.flatMap fun t => t.root.toList : List Hpa) :
      Multiset Hpa) = {r} + (m.tables.toList.flatMap fun t => t.root.toList : List Hpa) := by
    rw [Array.toList_push, List.flatMap_append, List.flatMap_singleton, ht, Option.toList_some,
      ← Multiset.coe_add, Multiset.coe_singleton, add_comm]
  rw [estate, hshare, add_assoc, Multiset.singleton_add]
  rfl

theorem estate_push_vm :
    estate { m with vms := m.vms.push (some v) } k = (m.estate k).lodge v.guest := by
  have hshare : ∀ f : Option Vm → List Hpa,
      (((m.vms.push (some v)).toList.flatMap f : List Hpa) : Multiset Hpa) =
        f (some v) + (m.vms.toList.flatMap f : List Hpa) := by
    intro f
    rw [Array.toList_push, List.flatMap_append, List.flatMap_singleton, ← Multiset.coe_add, add_comm]
  rw [estate, hshare, hshare, add_left_comm, add_assoc]
  rfl

/-- A guest takes its pages with it. -/
theorem estate_take_vm (hv : m.vms[j]? = some (some v)) :
    m.estate k = (estate { m with vms := m.vms.setIfInBounds j none } k).lodge v.guest := by
  rw [← Array.getElem?_toList] at hv
  obtain ⟨roots, hroots, hroots'⟩ := exists_flatMap_set (f := Vm.roots) hv
  obtain ⟨pages, hpages, hpages'⟩ := exists_flatMap_set (f := Vm.pages) hv
  have hgap : ((Vm.roots none : List Hpa) : Multiset Hpa) + roots = roots := zero_add roots
  have hgap' : ((Vm.pages none : List Hpa) : Multiset Hpa) + pages = pages := zero_add pages
  rw [estate, estate, Array.toList_setIfInBounds, hroots, hpages, hroots' none, hpages' none,
    hgap, hgap', add_left_comm, add_assoc]
  rfl

/-- Every table has a root, and memory is sound for the estate as long as addresses fit. -/
structure Orderly (k : Callers) (I : Prop) (m : Machine) : Prop where
  tables : ∀ t ∈ m.tables, ∃ r, t.root = some r
  vms : ∀ {j : Nat} {v : Vm}, m.vms[j]? = some (some v) → ∃ r, v.guest.table.root = some r
  sizes : ∀ {j : Nat} {v : Vm}, m.vms[j]? = some (some v) → I → v.guest.physSize.toNat ≤ 2 ^ 48
  whole : ∀ {j : Nat} {v : Vm}, m.vms[j]? = some (some v) → v.guest.physSize.toNat % 4096 = 0
  owned : m.memory.Fits → m.memory.Owned (m.estate k) I

/-- Nothing goes wrong but the sum of addresses that do not fit in a word. -/
def Overflows (p : Panic) (m : Machine) : Prop := m.memory.Fits → p = .addOverflow

def Keeps {α : Type} (k : Callers) (I : Prop) (m : Machine) (x : MachineM α) : Prop :=
  x.Ends m (fun _ m' => m'.Orderly k I) (fun _ m' => m'.Orderly k I) Overflows

section Work

open Hypervisor.Action Memory

variable {k' : Callers} {I : Prop} {m' : Machine} {α β : Type}

theorem Orderly.of_owned (h : m.Orderly k I) (htables : m'.tables = m.tables) (hvms : m'.vms = m.vms)
    (howned : m'.memory.Fits → m'.memory.Owned (m'.estate k') I) : m'.Orderly k' I where
  tables := by
    rw [htables]
    exact h.tables
  vms := by
    rw [hvms]
    exact h.vms
  sizes := by
    rw [hvms]
    exact h.sizes
  whole := by
    rw [hvms]
    exact h.whole
  owned := howned

theorem Orderly.push_table (h : m.Orderly k I) (hr : t.root = some r) {p : Platform}
    (howned : p.memory.Fits → p.memory.Owned ((m.estate k).plant r) I) :
    Orderly k I { m with toPlatform := p, tables := m.tables.push t } where
  tables := by
    intro t' ht'
    cases Array.mem_push.1 ht' with
    | inl hold => exact h.tables t' hold
    | inr hnew => exact ⟨r, hnew ▸ hr⟩
  vms := h.vms
  sizes := h.sizes
  whole := h.whole
  owned := by
    intro hf
    have hplant := howned hf
    rwa [← estate_push_table hr] at hplant

theorem Orderly.push_vm (h : m.Orderly k I) (htables : m'.tables = m.tables) (hvms : m'.vms = m.vms)
    (hr : v.guest.table.root = some r) (hsize : I → v.guest.physSize.toNat ≤ 2 ^ 48)
    (hwhole : v.guest.physSize.toNat % 4096 = 0)
    (howned : m'.memory.Fits → m'.memory.Owned ((m'.estate k).lodge v.guest) I) :
    Orderly k I { m' with vms := m'.vms.push (some v) } := by
  have hcases : ∀ {j : Nat} {w : Vm}, (m'.vms.push (some v))[j]? = some (some w) →
      w = v ∨ m.vms[j]? = some (some w) := by
    intro j w hw
    rw [Array.getElem?_push, hvms] at hw
    split at hw
    · exact .inl (Option.some.inj (Option.some.inj hw)).symm
    · exact .inr hw
  refine ⟨?_, fun hw => ?_, fun hw => ?_, fun hw => ?_, fun hf => ?_⟩
  · rw [htables]
    exact h.tables
  · obtain rfl | hw := hcases hw
    · exact ⟨r, hr⟩
    · exact h.vms hw
  · obtain rfl | hw := hcases hw
    · exact hsize
    · exact h.sizes hw
  · obtain rfl | hw := hcases hw
    · exact hwhole
    · exact h.whole hw
  · rw [estate_push_vm]
    exact howned hf

theorem Orderly.take_vm (h : m.Orderly k I) (htables : m'.tables = m.tables)
    (hvms : m'.vms = m.vms.setIfInBounds j none)
    (howned : m'.memory.Fits → m'.memory.Owned (m'.estate k) I) : m'.Orderly k I := by
  have hold : ∀ {i : Nat} {w : Vm}, m'.vms[i]? = some (some w) → m.vms[i]? = some (some w) := by
    intro i w hw
    rw [hvms, Array.getElem?_setIfInBounds] at hw
    split_ifs at hw
    · cases hw
    · exact hw
  refine ⟨?_, fun hw => h.vms (hold hw), fun hw => h.sizes (hold hw), fun hw => h.whole (hold hw),
    howned⟩
  rw [htables]
  exact h.tables

theorem Orderly.setContext (h : m.Orderly k I) (hv : m.vms[j]? = some (some v)) (context : Context) :
    Orderly k I { m with vms := m.vms.setIfInBounds j (some { v with context := context }) } := by
  have hold : ∀ {i : Nat} {w : Vm},
      (m.vms.setIfInBounds j (some { v with context := context }))[i]? = some (some w) →
        ∃ (i' : Nat) (w' : Vm), m.vms[i']? = some (some w') ∧ w'.guest = w.guest := by
    intro i w hw
    rw [Array.getElem?_setIfInBounds] at hw
    split_ifs at hw
    · cases hw
      exact ⟨j, v, hv, rfl⟩
    · exact ⟨i, w, hw, rfl⟩
  refine ⟨h.tables, fun hw => ?_, fun hw => ?_, fun hw => ?_, fun hf => ?_⟩
  · obtain ⟨i', w', hw', hguest⟩ := hold hw
    rw [← hguest]
    exact h.vms hw'
  · obtain ⟨i', w', hw', hguest⟩ := hold hw
    rw [← hguest]
    exact h.sizes hw'
  · obtain ⟨i', w', hw', hguest⟩ := hold hw
    rw [← hguest]
    exact h.whole hw'
  · rw [estate_setContext hv]
    exact h.owned hf

theorem Orderly.lodged (h : m.Orderly k I) (hv : m.vms[j]? = some (some v)) :
    ∃ r, v.guest.Lodged r (m.estate k) I := by
  obtain ⟨r, hr⟩ := h.vms hv
  have hmem : some v ∈ m.vms := Array.mem_of_getElem? hv
  exact ⟨r, hr, mem_roots_of_vm hmem hr, fun p hp => mem_others_of_vm hmem hp, h.sizes hv⟩

theorem Keeps.bind {x : MachineM α} {f : α → MachineM β} (hx : Keeps k I m x)
    (hf : ∀ a {m'}, m'.Orderly k I → Keeps k I m' (f a)) : Keeps k I m (x >>= f) := by
  rw [Keeps, ends_bind]
  exact Ends.mono hx (fun a _ h => hf a h) (fun _ _ h => h) fun _ _ hp => hp

theorem Keeps.answer {x : MachineM α} {f : α → β} (hx : Keeps k I m x) :
    Keeps k I m (x >>= fun a => pure (f a)) :=
  (ends_bind _ _).2 hx

theorem vm_keeps (h : m.Orderly k I) {f : Vm → MachineM α}
    (hf : ∀ v, m.vms[j]? = some (some v) → Keeps k I m (f v)) : Keeps k I m (vm j >>= f) :=
  vm_ends h hf

section Parts

variable {Q : α → Machine → Prop} {E : VmError → Machine → Prop} {F : Panic → Machine → Prop}

theorem Orderly.guest_ends (h : m.Orderly k I) {f : Guest → MachineM α}
    (hmissing : E .invalidArgument m)
    (hf : ∀ g r, g.Lodged r (m.estate k) I → (f g).Ends m Q E F) :
    ((do return (← vm j).guest) >>= f).Ends m Q E F := by
  rw [bind_assoc]
  refine vm_ends hmissing fun v hv => ?_
  obtain ⟨r, hg⟩ := h.lodged hv
  exact hf v.guest r hg

theorem Orderly.table_ends (h : m.Orderly k I) {o : Option Nat} {f : Ept → MachineM α}
    (hmissing : E .invalidArgument m)
    (hf : ∀ t r, t.root = some r → r ∈ (m.estate k).roots → (f t).Ends m Q E F) :
    (Machine.table o j >>= f).Ends m Q E F := by
  refine Machine.table_ends hmissing (fun v hv => ?_) fun t ht => ?_
  · obtain ⟨r, hg⟩ := h.lodged hv
    exact hf v.guest.table r hg.root hg.mem
  · obtain ⟨r, hr⟩ := h.tables t ht
    exact hf t r hr (mem_roots_of_table ht hr)

end Parts

theorem guest_keeps (h : m.Orderly k I) {f : Guest → MachineM α}
    (hf : ∀ g r, g.Lodged r (m.estate k) I → Keeps k I m (f g)) :
    Keeps k I m ((do return (← vm j).guest) >>= f) :=
  h.guest_ends h hf

theorem table_keeps (h : m.Orderly k I) {o : Option Nat} {f : Ept → MachineM α}
    (hf : ∀ t r, t.root = some r → r ∈ (m.estate k).roots → Keeps k I m (f t)) :
    Keeps k I m (Machine.table o j >>= f) :=
  h.table_ends h hf

theorem onPlatform_ends {x : PlatformM α} {Q : α → Memory → Prop} {Q' : α → Machine → Prop}
    (h : m.Orderly k I) (hx : x.Safe (· = .addOverflow) m.toPlatform (m.memory.Owned (m.estate k) I)
      (fun a p => Q a p.memory) fun _ p => p.memory.Owned (m.estate k) I)
    (hQ : ∀ a p, (p.memory.Fits → Q a p.memory) → Q' a { m with toPlatform := p }) :
    (onPlatform x).Ends m Q' (fun _ m' => m'.Orderly k I) Overflows := by
  rw [Machine.onPlatform, ends_onPart]
  exact Ends.mono (hx.ends h.owned) (fun a p ha => hQ a p ha) (fun _ _ he => h.of_owned rfl rfl he)
    fun _ _ hp => hp

theorem onPlatform_keeps {x : PlatformM α} (h : m.Orderly k I)
    (hx : x.Safe (· = .addOverflow) m.toPlatform (m.memory.Owned (m.estate k) I)
      (fun _ p => p.memory.Owned (m.estate k) I) fun _ p => p.memory.Owned (m.estate k) I) :
    Keeps k I m (onPlatform x) :=
  onPlatform_ends (Q := fun _ memory => memory.Owned (m.estate k) I) h hx
    fun _ _ hm => h.of_owned rfl rfl hm

theorem quiet_keeps {x : PlatformM α} (h : m.Orderly k I) (hx : x.Quiet (· = .addOverflow)) :
    Keeps k I m (onPlatform x) := by
  have hsame : ∀ {p : Platform}, m.memory.Owned (m.estate k) I →
      HasMemory.memory p = HasMemory.memory m.toPlatform → p.memory.Owned (m.estate k) I := by
    intro p howned hp
    have hp : p.memory = m.memory := hp
    rwa [hp]
  exact onPlatform_keeps h (hx.safe.mono (fun _ hp => hp) (fun _ _ _ _ ho hp => hsame ho hp)
    fun _ _ _ _ ho hp => hsame ho hp)

theorem onMemory_ends {x : MemoryM VmError α} {Q : α → Memory → Prop} {Q' : α → Machine → Prop}
    (h : m.Orderly k I) (hx : x.Safe (· = .addOverflow) m.memory (m.memory.Owned (m.estate k) I) Q
      fun _ memory => memory.Owned (m.estate k) I)
    (hQ : ∀ a p, (p.memory.Fits → Q a p.memory) → Q' a { m with toPlatform := p }) :
    (onMemory x).Ends m Q' (fun _ m' => m'.Orderly k I) Overflows :=
  onPlatform_ends h (Safe.onPart Platform.memory (fun _ => rfl) (fun _ _ => rfl) hx) hQ

theorem onMemory_changes {x : MemoryM VmError α} {K : α → Callers} (h : m.Orderly k I)
    (hx : x.Safe (· = .addOverflow) m.memory (m.memory.Owned (m.estate k) I)
      (fun a memory => memory.Owned (m.estate (K a)) I) fun _ memory => memory.Owned (m.estate k) I) :
    (onMemory x).Ends m (fun a m' => m'.Orderly (K a) I) (fun _ m' => m'.Orderly k I) Overflows :=
  onMemory_ends h hx fun _ _ hm => h.of_owned rfl rfl hm

theorem onMemory_keeps {x : MemoryM VmError α} (h : m.Orderly k I)
    (hx : x.Safe (· = .addOverflow) m.memory (m.memory.Owned (m.estate k) I)
      (fun _ memory => memory.Owned (m.estate k) I) fun _ memory => memory.Owned (m.estate k) I) :
    Keeps k I m (onMemory x) :=
  onMemory_changes h hx

theorem onTable_keeps {x : MemoryM EptError α} (h : m.Orderly k I)
    (hx : x.Safe (· = .addOverflow) m.memory (m.memory.Owned (m.estate k) I)
      (fun _ memory => memory.Owned (m.estate k) I) fun _ memory => memory.Owned (m.estate k) I) :
    Keeps k I m (onTable x) :=
  onMemory_keeps h (Safe.mapError hx)

theorem onHost_keeps {x : HostM α} (h : m.Orderly k I) (hx : ∀ r,
      x.Upholds (Host.Bears r (m.estate k) I) fun p h => h.memory.Fits → p = .addOverflow) :
    Keeps k I m (onHost i x) := by
  refine onHost_ends (fun _ => h) fun c hc => ?_
  obtain ⟨e, he, hset⟩ := exists_estate_withHost (k := k) hc
  have hback : ∀ {h' : Host}, h'.Bears c.region (m.estate k) I → (m.withHost i h').Orderly k I := by
    intro h' hh
    refine h.of_owned rfl rfl fun hf => ?_
    rw [hset, hh.1, ← he]
    exact hh.2 hf
  exact Ends.mono (hx c.region (m.host c) ⟨rfl, h.owned⟩) (fun _ _ hh => hback hh)
    (fun _ _ hh => hback hh) fun _ _ hp => hp

theorem detached_keeps {x : HostM α} (h : m.Orderly k I)
    (hx : ∀ {H F}, Host.Detached H F → x.Upholds H F) : Keeps k I m (onHost i x) :=
  onHost_keeps h fun _ => hx (Host.bears_detached rfl)

theorem onProcessor_keeps (h : m.Orderly k I) (f : Processor → Processor) :
    Keeps k I m (onHost i (Host.onProcessor f)) :=
  onHost_keeps h fun _ _ hh => hh

theorem root_keeps {x : HostM α} (h : m.Orderly k I) (hx : ∀ e : Estate,
      x.Upholds (Host.Holds e I) fun p h => h.memory.Fits → p = .addOverflow) :
    Keeps k I m (onHost i x) := by
  refine onHost_ends (fun _ => h) fun c hc => ?_
  obtain ⟨e, he, hset⟩ := exists_estate_withHost (k := k) hc
  have hback : ∀ {h' : Host}, h'.Holds e I → (m.withHost i h').Orderly k I := by
    intro h' hh
    refine h.of_owned rfl rfl fun hf => ?_
    rw [hset]
    exact hh.2 hf
  have hholds : (m.host c).Holds e I := by
    refine ⟨rfl, fun hf => ?_⟩
    have howned := h.owned hf
    rwa [he] at howned
  exact Ends.mono (hx e _ hholds) (fun _ _ hh => hback hh) (fun _ _ hh => hback hh) fun _ _ hp => hp

theorem onHost_ends_of_safe {x : HostM α} {P : Prop} {Q : α → Memory → Prop}
    {E : VmError → Memory → Prop} {Q' : α → Machine → Prop} {E' : VmError → Machine → Prop}
    (hP : m.memory.Fits → P) (hmissing : m.cpus[i]? = none → E' .invalidArgument m)
    (hregion : ∀ r, x.Upholds (fun h : Host => h.cpu.region = r) fun _ _ => True)
    (hx : ∀ c, x.Safe (· = .addOverflow) (m.host c) P (fun a h => Q a h.memory)
      fun e h => E e h.memory)
    (hQ : ∀ a h, (m.withHost i h).estate k = m.estate k → (h.memory.Fits → Q a h.memory) →
      Q' a (m.withHost i h))
    (hE : ∀ e h, (m.withHost i h).estate k = m.estate k → (h.memory.Fits → E e h.memory) →
      E' e (m.withHost i h)) : (onHost i x).Ends m Q' E' Overflows := by
  refine onHost_ends hmissing fun c hc => ?_
  obtain ⟨e, he, hset⟩ := exists_estate_withHost (k := k) hc
  have hsame : ∀ {h : Host}, h.cpu.region = c.region → (m.withHost i h).estate k = m.estate k := by
    intro h hh
    rw [hset, hh, he]
  exact Ends.mono ((hregion c.region (m.host c) rfl).and ((hx c).ends hP))
    (fun a h hh => hQ a h (hsame hh.1) hh.2) (fun e h hh => hE e h (hsame hh.1) hh.2)
    fun _ _ hp => hp.2

theorem onSession_keeps {x : SessionM α} (h : m.Orderly k I)
    (hx : ∀ {g : Guest} {root e}, g.Lodged root e I → ∀ r,
      x.Upholds (Session.Bears g r (·.Owned e I)) Session.Overflows) :
    Keeps k I m (onSession i j x) := by
  refine onSession_ends h fun c v hc hv => ?_
  obtain ⟨root, hg⟩ := h.lodged hv
  have hback : ∀ {s : Session}, s.Bears v.guest c.region (·.Owned (m.estate k) I) →
      (m.withSession i j s).Orderly k I := by
    intro s hs
    have hs' := hg.of_same hs.1
    refine ⟨h.tables, fun hw => ?_, fun hw => ?_, fun hw => ?_, fun hf => ?_⟩
    · obtain ⟨-, rfl⟩ | ⟨-, hw⟩ := vms_withSession hw
      · exact ⟨root, hs'.root⟩
      · exact h.vms hw
    · obtain ⟨-, rfl⟩ | ⟨-, hw⟩ := vms_withSession hw
      · exact hs'.size
      · exact h.sizes hw
    · obtain ⟨-, rfl⟩ | ⟨-, hw⟩ := vms_withSession hw
      · show s.guest.physSize.toNat % 4096 = 0
        rw [hs.1.physSize]
        exact h.whole hv
      · exact h.whole hw
    · rw [estate_withSession hc hv hs.2.1 hs.1]
      exact hs.2.2 hf
  have hbears : Session.Bears v.guest c.region (·.Owned (m.estate k) I)
      ⟨m.host c, v.guest, v.context⟩ := ⟨.refl _, rfl, h.owned⟩
  exact Ends.mono (hx hg c.region _ hbears) (fun _ _ hs => hback hs) (fun _ _ hs => hback hs)
    fun _ _ hp hf => (hp hf).1

theorem session_keeps {x : SessionM α} (h : m.Orderly k I)
    (hx : ∀ {g : Guest} {J F}, Session.Detached g J F → x.Upholds J F) :
    Keeps k I m (onSession i j x) :=
  onSession_keeps h fun hg _ =>
    (hx (Session.bears_detached hg.housed)).mono (fun _ _ h => h) fun _ _ h => h.1

end Work

end Machine

end Hypervisor
