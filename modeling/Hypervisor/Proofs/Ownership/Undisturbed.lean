import Hypervisor.Proofs.Confinement
import Hypervisor.Proofs.Ownership.Isolation
import Hypervisor.Proofs.Ownership.Neighbours

/-!
# Guests do not disturb each other

Two guests may share nothing but the text buffer in its place.  A step of one of them then leaves alone
everything that belongs to the other one: its control block, what its addresses are translated to, what
is in its memory and in the pages that serve it, and what the hypervisor remembers of it.
-/

namespace Hypervisor

theorem Host.blocks_enduring (b : ControlBlocks) : Enduring fun h : Host => h.blocks = b where
  overflow := fun _ _ _ => trivial
  log := fun _ h => h
  kernel := fun _ h => h
  spent := fun _ _ h => h
  memory := fun _ _ h => h
  flush := fun _ h => h

theorem Session.setupMsrs_confined (s₀ : Session) :
    Session.setupMsrs.Upholds (Confined s₀) fun _ => Confined s₀ :=
  Action.Upholds.bind (fun _ h => h.withGuest ⟨rfl, rfl, rfl, rfl, rfl, rfl⟩) fun _ =>
    Action.Upholds.get_bind fun _ _ => (confined_aloof s₀).onMemory _

/-- The command is a step of its guest: a run, a fault, a part of a run, or the end of the guest. -/
def Command.Steps (c : Command) : Prop :=
  match c.order with
  | .access .. => c.table = none
  | .run | .setupMsrs | .setupBitmaps | .interceptPort _ | .deactivate | .free => True
  | _ => False

namespace Machine

open Hypervisor.Action Memory

/-- Two guests have the same page only in the place of the text buffer. -/
def Apart (m : Machine) (i j : Nat) : Prop :=
  ∀ g g' p, m.page? i g = some p → m.page? j g' = some p →
    g.number = Region.bufferNumber ∧ g'.number = Region.bufferNumber

/-- What belongs to the guest with an index is in `m'` as it is in `m`. -/
structure Undisturbed (m : Machine) (j : Nat) (w : Vm) (m' : Machine) : Prop where
  vm : m'.vms[j]? = some (some w)
  block : m'.blocks.block w.guest.block = m.blocks.block w.guest.block
  walk : ∀ g, (w.guest.table.walk g).answer m'.memory = (w.guest.table.walk g).answer m.memory
  resolve : ∀ g, (w.guest.table.resolve g : MemoryM VmError (Option Hva)).answer m'.memory =
    (w.guest.table.resolve g : MemoryM VmError (Option Hva)).answer m.memory
  memory : ∀ {g p}, m.page? j g = some p →
    p ∈ m'.memory.pages ∧ m'.memory.words p = m.memory.words p
  own : ∀ p ∈ w.guest.ownPages, p ∈ m'.memory.pages ∧ m'.memory.words p = m.memory.words p

variable {m m' : Machine} {k : Callers} {i j : Nat} {v w : Vm} {r s p : Hpa} {g : Gpa} {a : Account}
  {α : Type}

theorem exists_number (n : PageNumber) : ∃ g : Gpa, g.number = n := by
  refine ⟨⟨UInt64.ofNat (n.toNat * 4096)⟩, BitVec.eq_of_toNat_eq ?_⟩
  have hn := n.isLt
  rw [Address.toNat_number, UInt64.toNat_ofNat']
  omega

theorem page?_eq (hw : m.vms[j]? = some (some w)) (hs : w.guest.table.root = some s)
    (hb : m.memory.Balanced a) (hlevel : a.level s = some 3) :
    m.page? j g = m.memory.mapped s g.number := by
  have hends := Ept.walk_ends (m := m.memory) (g := g) (P := True) hs fun _ => ⟨hb, hlevel⟩
  rw [page?, hw, Option.join_some, Option.bind_some, mapped]
  cases hrun : (w.guest.table.walk g).run m.memory with
  | ok e m' =>
      have hfst : Prod.fst ∘ (fun p : Hpa => (p, e.permission)) = id := rfl
      rw [← ((hends.ok hrun).2 trivial).2, Entry.mapping, Option.map_map, hfst, Option.map_id_apply]
  | error stop m' =>
      cases stop with
      | error err => rw [((hends.error hrun).2 trivial).2, Option.map_none]
      | panic p => exact absurd trivial (hends.stop hrun).2

def without (m : Machine) (i : Nat) : Machine := { m with vms := m.vms.setIfInBounds i none }

theorem vms_without (hne : i ≠ j) : (m.without i).vms[j]? = m.vms[j]? :=
  Array.getElem?_setIfInBounds_ne hne

theorem Orderly.lodged_without (h : m.Orderly k False) (hw : m.vms[j]? = some (some w)) (hne : i ≠ j) :
    ∃ s, w.guest.Lodged s ((m.without i).estate k) False := by
  obtain ⟨s, hs⟩ := h.vms hw
  have hmem : some w ∈ (m.without i).vms := Array.mem_of_getElem? (vms_without hne ▸ hw)
  exact ⟨s, hs, mem_roots_of_vm hmem hs, fun p hp => mem_others_of_vm hmem hp, False.elim⟩

theorem Orderly.ownPages_disjoint (h : m.Orderly k False) (hv : m.vms[i]? = some (some v))
    (hw : m.vms[j]? = some (some w)) (hne : i ≠ j) {memory : Memory}
    (howned : memory.Owned (m.estate k) False) : ∀ p ∈ v.guest.ownPages, p ∉ w.guest.ownPages := by
  obtain ⟨s, hs⟩ := h.lodged_without hw hne
  obtain ⟨a, hm⟩ := howned
  rw [estate_take_vm hv] at hm
  exact fun p hp hmem => hm.not_holds_own hs hp (.inl hmem)

/-- The guest `w` is beside the guest `v`, from which it is apart. -/
structure Neighbours (k : Callers) (m : Machine) (i j : Nat) (v w : Vm) (r s : Hpa) : Prop where
  orderly : m.Orderly k False
  left : m.vms[i]? = some (some v)
  right : m.vms[j]? = some (some w)
  root : v.guest.table.root = some r
  lodged : w.guest.Lodged s ((m.without i).estate k) False
  ne : i ≠ j
  apart : m.Apart i j

theorem Orderly.neighbours (h : m.Orderly k False) (hv : m.vms[i]? = some (some v))
    (hw : m.vms[j]? = some (some w)) (hne : i ≠ j) (hapart : m.Apart i j) :
    ∃ r s, Neighbours k m i j v w r s := by
  obtain ⟨r, hr⟩ := h.vms hv
  obtain ⟨s, hs⟩ := h.lodged_without hw hne
  exact ⟨r, s, h, hv, hw, hr, hs, hne, hapart⟩

namespace Neighbours

variable (hn : Neighbours k m i j v w r s)

include hn

theorem estate_eq : m.estate k = ((m.without i).estate k).lodge v.guest := estate_take_vm hn.left

theorem housed : v.guest.Housed r (m.memory.Beside w.guest s r (m.estate k)) := by
  rw [hn.estate_eq]
  exact hn.lodged.housed_beside hn.root

theorem beside (hf : m.memory.Fits) : m.memory.Beside w.guest s r (m.estate k) m.memory := by
  obtain ⟨a, hm⟩ := hn.orderly.owned hf
  rw [hn.estate_eq] at hm ⊢
  have hmem := Estate.mem_roots_lodge (e := (m.without i).estate k) hn.root
  have hs := hn.lodged.lodge (g := v.guest)
  refine ⟨⟨a, hm⟩, .refl hm hs, ?_⟩
  rintro p perm hp (hown | ⟨n, perm', hmap⟩)
  · exact (hm.separate hmem hp).2 (hs.own p hown)
  · obtain ⟨g', rfl⟩ := exists_number n
    have hleft : m.page? i ⟨Layout.memoryMap⟩ = some p := by
      rw [page?_eq hn.left hn.root hm.balanced (hm.level hmem), mapped, hp, Option.map_some]
    have hright : m.page? j g' = some p := by
      rw [page?_eq hn.right hs.root hm.balanced (hm.level hs.mem), mapped, hmap, Option.map_some]
    exact absurd (hn.apart _ _ p hleft hright).1 (by decide)

end Neighbours

theorem Undisturbed.of_spares {e : Estate} (hw : m.vms[j]? = some (some w))
    (hs : w.guest.Lodged s e False) (hm' : m'.memory.Owned e False)
    (h : m.memory.Spares w.guest s m'.memory) (hvm : m'.vms[j]? = m.vms[j]?)
    (hblock : m'.blocks.block w.guest.block = m.blocks.block w.guest.block) :
    Undisturbed m j w m' := by
  obtain ⟨a, hb, hlevel⟩ := h.balanced
  obtain ⟨a', hm'⟩ := hm'
  have hlevel' := hm'.level hs.mem
  have hheld : ∀ {p}, m.memory.Holds w.guest s p →
      p ∈ m'.memory.pages ∧ m'.memory.words p = m.memory.words p :=
    fun hp => ⟨hm'.holds_live hs (h.holds.2 hp), h.words hp⟩
  refine ⟨hvm.trans hw, hblock, fun g => ?_, fun g => ?_, fun {g p} hp => ?_, fun p hp => ?_⟩
  · rw [Ept.answer_walk hs.root hm'.balanced hlevel', Ept.answer_walk hs.root hb hlevel,
      h.translation]
  · rw [Ept.answer_resolve hs.root hm'.balanced hlevel', Ept.answer_resolve hs.root hb hlevel,
      h.translation]
  · rw [page?_eq hw hs.root hb hlevel, mapped, Option.map_eq_some_iff] at hp
    obtain ⟨⟨q, perm⟩, hmap, rfl⟩ := hp
    exact hheld (.inr ⟨_, perm, hmap⟩)
  · exact hheld (.inl hp)

theorem Neighbours.undisturbed (hn : Neighbours k m i j v w r s)
    (h : m.memory.Beside w.guest s r (m.estate k) m'.memory) (hvm : m'.vms[j]? = m.vms[j]?)
    (hblocks : ∀ p, p ≠ v.guest.block → m'.blocks.block p = m.blocks.block p) :
    Undisturbed m j w m' := by
  rw [hn.estate_eq] at h
  refine .of_spares hn.right hn.lodged.lodge h.owned h.spares hvm (hblocks _ fun he => ?_)
  obtain ⟨a, hm⟩ := h.owned
  have hown : w.guest.block ∈ v.guest.ownPages := by
    rw [he]
    exact List.mem_cons_self
  exact hm.not_holds_own hn.lodged hown (.inl List.mem_cons_self)

def Leaves (m : Machine) (j : Nat) (w : Vm) (x : MachineM α) : Prop :=
  x.Ends m (fun _ m' => m'.memory.Fits → Undisturbed m j w m')
    (fun _ m' => m'.memory.Fits → Undisturbed m j w m')
    fun _ m' => m'.memory.Fits → Undisturbed m j w m'

/-- What is answered does not matter. -/
theorem Leaves.answer {β : Type} {x : MachineM α} {f : α → β} (hx : Leaves m j w x) :
    Leaves m j w (x >>= fun a => pure (f a)) :=
  (ends_bind _ _).2 hx

namespace Neighbours

variable (hn : Neighbours k m i j v w r s) {cpu : Nat}

include hn

theorem onPlatform_leaves {x : PlatformM α}
    (hx : x.Safe (fun _ => False) m.toPlatform
      (m.memory.Beside w.guest s r (m.estate k) m.memory)
      (fun _ p => m.memory.Beside w.guest s r (m.estate k) p.memory)
      fun _ p => m.memory.Beside w.guest s r (m.estate k) p.memory)
    (hblocks : x.Upholds (fun p => p.blocks = m.blocks) fun _ _ => True) :
    Leaves m j w (onPlatform x) := by
  have hback : ∀ {p : Platform},
      (p.memory.Fits → m.memory.Beside w.guest s r (m.estate k) p.memory) ∧ p.blocks = m.blocks →
      p.memory.Fits → Undisturbed m j w { m with toPlatform := p } :=
    fun hp hf => hn.undisturbed (hp.1 hf) rfl fun q _ => by rw [hp.2]
  rw [Leaves, Machine.onPlatform, ends_onPart]
  exact Ends.mono ((hx.ends hn.beside).and (hblocks _ rfl)) (fun _ _ hp => hback hp)
    (fun _ _ hp => hback hp) fun _ _ hp hf => (hp.1 hf).elim

/-- Work on memory that keeps every invariant. -/
theorem onMemory_leaves {x : MemoryM VmError α}
    (hx : ∀ {K m}, v.guest.Housed r K → x.Safe (fun _ => False) m (K m) (fun _ => K) fun _ => K) :
    Leaves m j w (onMemory x) := by
  refine hn.onPlatform_leaves
    (Safe.onPart Platform.memory (fun _ => rfl) (fun _ _ => rfl) (hx hn.housed)) fun p hp => ?_
  rw [Platform.onMemory, ends_onPart]
  exact .of_forall (fun _ _ => hp) (fun _ _ => hp) fun _ _ => trivial

/-- A fault of the neighbour is backed. -/
theorem access_leaves (physSize : UInt64) (gpa : Gpa) :
    Leaves m j w (onPlatform (Platform.backAccess v.guest.table physSize gpa)) := by
  refine hn.onPlatform_leaves (Platform.backAccess_safe ?_) ?_
  · rw [hn.estate_eq]
    exact hn.lodged.onAccess_beside hn.root physSize gpa
  · refine Upholds.bind (fun p hp => ?_) fun fault => ?_
    · rw [Platform.onMemory, ends_onPart]
      exact .of_forall (fun _ _ => hp) (fun _ _ => hp) fun _ _ => trivial
    · cases fault with
      | handled => exact Upholds.pure
      | unhandled => exact Upholds.bind (fun p hp => hp) fun _ => Upholds.pure

/-- The neighbour is freed. -/
theorem free_ends : (onHost cpu (Host.freeGuest v.guest)).Ends (m.without i)
    (fun _ m' => m'.memory.Fits → Undisturbed m j w m')
    (fun _ m' => m'.memory.Fits → Undisturbed m j w m')
    fun _ m' => m'.memory.Fits → Undisturbed m j w m' := by
  have hvm : (m.without i).vms[j]? = m.vms[j]? := vms_without hn.ne
  refine onHost_ends (fun _ hf => hn.undisturbed (hn.beside hf) hvm fun _ _ => rfl) fun c _ => ?_
  have hsafe := (Host.freeGuest_beside (F := fun _ => False) (h := (m.without i).host c) m.memory
    hn.lodged hn.root).ends fun hf => by
      have hstart := hn.beside hf
      rw [hn.estate_eq] at hstart
      exact ⟨hstart.owned, hstart.spares⟩
  have hblocks : (Host.freeGuest v.guest).Upholds (fun h => h.blocks = m.blocks) fun _ _ => True :=
    (Host.blocks_enduring m.blocks).freeGuest v.guest
  have hback : ∀ {h : Host}, (h.memory.Fits → h.memory.Owned ((m.without i).estate k) False ∧
        m.memory.Spares w.guest s h.memory) ∧ h.blocks = m.blocks →
      h.memory.Fits → Undisturbed m j w ((m.without i).withHost cpu h) := by
    intro h hh hf
    obtain ⟨howned, hspares⟩ := hh.1 hf
    refine .of_spares hn.right hn.lodged howned hspares hvm ?_
    show h.blocks.block _ = _
    rw [hh.2]
  exact Ends.mono (hsafe.and (hblocks _ rfl)) (fun _ _ hh => hback hh) (fun _ _ hh => hback hh)
    fun _ _ hp hf => (hp.1 hf).elim

end Neighbours

theorem Orderly.undisturbed (h : m.Orderly k False) (hw : m.vms[j]? = some (some w))
    (hf : m.memory.Fits) : Undisturbed m j w m := by
  obtain ⟨a, hm⟩ := h.owned hf
  obtain ⟨s, hs⟩ := h.lodged hw
  exact .of_spares hw hs ⟨a, hm⟩ (.refl hm hs) rfl rfl

section Steps

variable (h : m.Orderly k False) (hw : m.vms[j]? = some (some w)) (hne : i ≠ j)
  (hapart : m.Apart i j)

include h hw hne hapart

/-- Either the neighbour is there, or nothing happens. -/
theorem vm_leaves {f : Vm → MachineM α}
    (hf : ∀ v r s, Neighbours k m i j v w r s → Leaves m j w (f v)) :
    Leaves m j w (Machine.vm i >>= f) := by
  refine vm_ends (h.undisturbed hw) fun v hv => ?_
  obtain ⟨r, s, hn⟩ := h.neighbours hv hw hne hapart
  exact hf v r s hn

theorem guest_leaves {f : Guest → MachineM α}
    (hf : ∀ v r s, Neighbours k m i j v w r s → Leaves m j w (f v.guest)) :
    Leaves m j w ((do return (← Machine.vm i).guest) >>= f) := by
  rw [bind_assoc]
  exact vm_leaves h hw hne hapart hf

theorem table_leaves {f : Ept → MachineM α}
    (hf : ∀ v r s, Neighbours k m i j v w r s → Leaves m j w (f v.guest.table)) :
    Leaves m j w (Machine.table none i >>= f) := by
  rw [Machine.table, bind_assoc]
  exact vm_leaves h hw hne hapart hf

/-- Work on a session that keeps every invariant of memory, and writes to the control block of its
guest only. -/
theorem onSession_leaves {cpu : Nat} {x : SessionM α}
    (hbears : ∀ {g root K}, g.Housed root K → ∀ r,
      x.Upholds (Session.Bears g r K) (Session.Stops g r K))
    (hconfined : ∀ s₀, x.Upholds (Session.Confined s₀) fun _ => Session.Confined s₀) :
    Leaves m j w (onSession cpu i x) := by
  refine onSession_ends (h.undisturbed hw) fun c v _ hv => ?_
  obtain ⟨r, s, hn⟩ := h.neighbours hv hw hne hapart
  have hback : ∀ {t : Session},
      t.Bears v.guest c.region (m.memory.Beside w.guest s r (m.estate k)) ∧
        Session.Confined ⟨m.host c, v.guest, v.context⟩ t →
      (m.withSession cpu i t).memory.Fits → Undisturbed m j w (m.withSession cpu i t) :=
    fun ht hf => hn.undisturbed (ht.1.2.2 hf) (Array.getElem?_setIfInBounds_ne hne) ht.2.others
  exact Ends.mono ((hbears hn.housed c.region _ ⟨.refl _, rfl, hn.beside⟩).and
    (hconfined _ _ (.refl _))) (fun _ _ ht => hback ht) (fun _ _ ht => hback ht)
    fun _ _ ht => hback ⟨ht.1.2, ht.2⟩

end Steps

/-- Guests that have nothing in common but the text buffer do not disturb each other: however a step of
one of them ends, everything that belongs to the other one is as it was. -/
theorem steps_undisturbing (h : History Command.Lawful m k) {c : Command} (hc : c.Steps)
    (hw : m.vms[j]? = some (some w)) (hne : c.vm ≠ j) (hapart : m.Apart c.vm j) :
    (perform c).Ends m (fun _ m' => m'.memory.Fits → Undisturbed m j w m')
      (fun _ m' => m'.memory.Fits → Undisturbed m j w m')
      fun _ m' => m'.memory.Fits → Undisturbed m j w m' := by
  have hk : m.Orderly k False := h.orderly id False.elim
  obtain ⟨cpu, vm, index, order⟩ := c
  cases order with
  | run =>
      exact (onSession_leaves hk hw hne hapart
        (fun hg _ => (Session.bears_detached hg).runnable.run_upholds fun _ h => h)
        fun _ => Session.run_confined).answer
  | access physSize gpa =>
      obtain rfl : index = none := hc
      exact table_leaves hk hw hne hapart fun v r s hn => (hn.access_leaves physSize gpa).answer
  | setupMsrs =>
      exact (onSession_leaves hk hw hne hapart
        (fun hg _ => (Session.bears_detached hg).programmable.setupMsrs)
        Session.setupMsrs_confined).answer
  | setupBitmaps =>
      exact (guest_leaves hk hw hne hapart fun v r s hn =>
        hn.onMemory_leaves fun hg => hg.interceptEmulatedPorts).answer
  | interceptPort port =>
      exact (guest_leaves hk hw hne hapart fun v r s hn =>
        hn.onMemory_leaves fun hg => hg.interceptPort port).answer
  | deactivate =>
      exact (onSession_leaves hk hw hne hapart
        (fun hg _ => (Session.bears_detached hg).deactivate)
        fun _ => Session.deactivate_confined).answer
  | free =>
      refine Leaves.answer ?_
      rw [takeVm, bind_assoc]
      refine vm_leaves hk hw hne hapart fun v r s hn => ?_
      rw [Leaves, bind_assoc, ends_bind, ends_modify, pure_bind]
      exact hn.free_ends
  | _ => exact hc.elim

theorem Orderly.apart (h : m.Orderly k True) (hf : m.memory.Fits) (hne : i ≠ j) : m.Apart i j := by
  obtain ⟨a, hm⟩ := h.owned hf
  have hisolated := hm.isolated trivial
  intro g g' p hp hp'
  obtain ⟨v, r, perm, hv, hroot, hr, hmap⟩ := translation_of_page? hp h hm
  obtain ⟨w, s, perm', hw, hroot', hs, hmap'⟩ := translation_of_page? hp' h hm
  by_cases hvideo : p = ⟨videoBuffer⟩
  · exact ⟨(hisolated.buffer r hr _ p perm hmap).1 hvideo,
      (hisolated.buffer s hs _ p perm' hmap').1 hvideo⟩
  · obtain ⟨rfl, -⟩ := hm.translation_inj (hisolated.single p hvideo) hr hs hmap hmap'
    exact absurd (eq_of_root_eq hm.nodup hv hw hroot hroot') hne

def touchesAgain : List Command :=
  touches ++ [{ order := .script { event := .eptViolation 0x6000 } }]

/-- The other one does not notice. -/
theorem steps_undisturbing_touches : ∃ m k w m', History Command.Lawful m k ∧ m.Apart 0 1 ∧
    m.vms[1]? = some (some w) ∧ (∃ a, (perform { order := .run }).run m = .ok a m') ∧
      m'.memory.Fits ∧ m.page? 0 ⟨0x6000⟩ ≠ m'.page? 0 ⟨0x6000⟩ ∧ Undisturbed m 1 w m' := by
  have hsize : Layout.defaultSize.toNat ≤ 2 ^ 48 := by decide
  have hallowed : ∀ c ∈ touchesAgain, ∀ m k, Isolated c m k := by
    intro c hc m k
    simp only [touchesAgain, touches, List.mem_append, List.mem_cons, List.not_mem_nil,
      or_false] at hc
    rcases hc with (rfl | rfl | rfl | rfl) | rfl
    · exact ⟨trivial, hsize⟩
    · exact ⟨trivial, hsize⟩
    · exact ⟨trivial, hsize⟩
    · exact ⟨trivial, hsize⟩
    · exact ⟨trivial, trivial⟩
  obtain ⟨m, k, h, hvm, hf, hrun⟩ := (History.booted uniprocessor_booted).exists_after
    (P := fun m => m.vms[1]?.join.isSome ∧ m.memory.Fits ∧
      (perform { order := .run }).Ends m
        (fun _ m' => m'.memory.Fits ∧ m.page? 0 ⟨0x6000⟩ ≠ m'.page? 0 ⟨0x6000⟩)
        (fun _ _ => False) fun _ _ => False) hallowed (by decide +kernel)
  obtain ⟨w, hw⟩ := Option.isSome_iff_exists.1 hvm
  have hw' := Option.join_eq_some_iff.1 hw
  have hlawful : History Command.Lawful m k := h.mono fun _ _ _ hc => hc.1
  have hapart : m.Apart 0 1 :=
    (h.orderly (I := True) (fun hc => hc.1) fun _ => fun hc => hc.2).apart hf (by decide)
  have hends := steps_undisturbing hlawful (c := { order := .run }) trivial hw' (by decide) hapart
  cases hstep : (perform { order := .run }).run m with
  | ok a m' =>
      obtain ⟨hf', hnew⟩ := hrun.ok hstep
      exact ⟨m, k, w, m', hlawful, hapart, hw', ⟨a, hstep⟩, hf', hnew, hends.ok hstep hf'⟩
  | error stop m' =>
      cases stop with
      | error e => exact (hrun.error hstep).elim
      | panic p => exact (hrun.stop hstep).elim

end Machine

end Hypervisor
