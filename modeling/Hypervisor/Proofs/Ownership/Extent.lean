import Hypervisor.Proofs.Ownership.Neighbours

/-!
# The extent of guest memory

However memory is backed, a guest has pages at three places only: below its size, in the low memory
that is the same for all guests, and where the text buffer is.  What is done to one table opens no
place in another one, and what is done to pages that are no tables opens none at all.
-/

namespace Hypervisor

namespace Region

/-- Where a guest of a given size may have pages: below its size, in the low memory that every guest
has, and in the place of the text buffer. -/
def extent (physSize : UInt64) : Set PageNumber :=
  {n | n.toNat * 4096 < physSize.toNat ∨ n.toNat * 4096 < Layout.holeStart.toNat ∨ n = bufferNumber}

variable {g : Gpa} {physSize : UInt64}

theorem number_mem_extent_of_lt (h : g.val < physSize) : g.number ∈ extent physSize := by
  have hlt := UInt64.lt_iff_toNat_lt.1 h
  left
  rw [Address.toNat_number]
  omega

theorem number_mem_extent_of_ram (h : of g physSize = ram) : g.number ∈ extent physSize := by
  rcases of_eq_ram.1 h with hlow | ⟨-, hhigh⟩
  · right
    left
    rw [Address.toNat_number, show Layout.holeStart.toNat = 0xa0000 from rfl]
    omega
  · exact number_mem_extent_of_lt (UInt64.lt_iff_toNat_lt.2 hhigh)

theorem number_mem_extent_of_videoBuffer (h : of g physSize = videoBuffer) :
    g.number ∈ extent physSize :=
  .inr (.inr (number_of_videoBuffer h))

theorem ramNumbers_subset_extent : ramNumbers physSize ⊆ extent physSize := by
  rintro n ⟨g, -, hram, rfl⟩
  exact number_mem_extent_of_ram hram

/-- Nothing backs an address past the size and the low memory but the text buffer. -/
theorem of_eq_unmapped (hsize : physSize ≤ g.val) (hlow : Layout.holeStart ≤ g.val)
    (hbuffer : g.val < Hypervisor.videoBuffer ∨ Hypervisor.videoBuffer + pageSize ≤ g.val) :
    of g physSize = unmapped := by
  have hsize := UInt64.le_iff_toNat_le.1 hsize
  have hlow : 0xa0000 ≤ g.val.toNat := UInt64.le_iff_toNat_le.1 hlow
  have hbuffer : g.val.toNat < 0xb8000 ∨ 0xb9000 ≤ g.val.toNat :=
    hbuffer.imp UInt64.lt_iff_toNat_lt.1 UInt64.le_iff_toNat_le.1
  cases hregion : of g physSize with
  | ram =>
      rcases of_eq_ram.1 hregion with h | h <;> omega
  | videoBuffer =>
      have h := of_eq_videoBuffer.1 hregion
      omega
  | unmapped => rfl

end Region

/-- Where nothing backs an address, the guest is told so and nothing else happens. -/
theorem Ept.onAccess_unmapped {g : Gpa} {physSize : UInt64} (h : Region.of g physSize = .unmapped)
    (tab : Ept) (m : Memory) : (tab.onAccess physSize g).run m = .ok .unhandled m := by
  rw [Ept.onAccess, h]
  rfl

def Estate.Shelters (e : Estate) (vms : Array (Option Vm)) : Prop :=
  ∀ v r, some v ∈ vms → v.guest.table.root = some r → r ∈ e.roots

theorem Estate.Shelters.lodge {e : Estate} {vms : Array (Option Vm)} (h : e.Shelters vms) (g : Guest) :
    (e.lodge g).Shelters vms :=
  fun v r hv hr => Multiset.mem_add.2 (.inr (h v r hv hr))

namespace Memory

open Hypervisor.Action

def Confines (m : Memory) (vms : Array (Option Vm)) : Prop :=
  ∀ v r, some v ∈ vms → v.guest.table.root = some r →
    ∀ n ∉ Region.extent v.guest.physSize, m.translation r n = none

/-- Memory is sound, every guest has a root of its own, and it has pages within its extent only. -/
structure Bounded (m : Memory) (e : Estate) (vms : Array (Option Vm)) : Prop where
  owned : m.Owned e False
  shelters : e.Shelters vms
  sizes : ∀ v w r, some v ∈ vms → some w ∈ vms → v.guest.table.root = some r →
    w.guest.table.root = some r → v.guest.physSize = w.guest.physSize
  confines : m.Confines vms

variable {m m' : Memory} {e e' : Estate} {a a' : Account} {vms : Array (Option Vm)} {p r : Hpa}
  {n : PageNumber} {S : Set PageNumber} {perm : Permission}

/-- No guest gets a page at a new place. -/
theorem Confines.step (h : m.Confines vms)
    (hstep : ∀ v r, some v ∈ vms → v.guest.table.root = some r →
      ∀ n ∉ Region.extent v.guest.physSize, m'.translation r n = none ∨
        m'.translation r n = m.translation r n) : m'.Confines vms := by
  intro v r hv hr n hn
  rcases hstep v r hv hr n hn with hnone | hsame
  · exact hnone
  · rw [hsame, h v r hv hr n hn]

theorem Sound.confines_of_words (hm : m.Sound e False a) (h : m.Confines vms)
    (hroots : e.Shelters vms)
    (hwords : ∀ t k, a.level t = some k → m'.words t = m.words t) : m'.Confines vms :=
  h.step fun v r hv hr _ _ =>
    .inr (hm.balanced.translation_eq hwords (hm.level (hroots v r hv hr)))

theorem carried_confines (hroots : e.Shelters vms) :
    Carried (·.Confines vms) e False where
  pages := fun hm hpages h =>
    hm.confines_of_words h hroots fun _ _ _ => by rw [words, words, hpages]
  allocates := fun hm hnew h => hm.confines_of_words h hroots fun _ _ => hm.words_allocates hnew
  edited := fun f hm hp h =>
    hm.confines_of_words h hroots fun _ _ =>
      hm.balanced.words_edited f (hm.other (Multiset.mem_add.2 (.inl hp)))
  lasts := fun hm h => by
    refine hm.confines_of_words h hroots fun t k ht => words_released ?_
    exact hm.giveBack.balanced.table_pageDown_live (k := k) ht

theorem Populates.confines (hx : m.Populates a r S m' a') (hm : m.Sound e False a)
    (h : m.Confines vms) (hroots : e.Shelters vms)
    (hS : ∀ v, some v ∈ vms → v.guest.table.root = some r → S ⊆ Region.extent v.guest.physSize) :
    m'.Confines vms := by
  refine h.step fun v s hv hs n hn => .inr ?_
  by_cases he : s = r
  · subst s
    exact hx.outside fun hmem => hn (hS v hv hs hmem)
  · exact hx.others n (hm.level (hroots v s hv hs)) he

theorem Maps.confines (hx : m.Maps a r n p perm m' a') (hm : m.Sound e False a) (h : m.Confines vms)
    (hroots : e.Shelters vms)
    (hn : ∀ v, some v ∈ vms → v.guest.table.root = some r → n ∈ Region.extent v.guest.physSize) :
    m'.Confines vms := by
  refine h.step fun v s hv hs n' hn' => .inr ?_
  rw [hx.translation n' (hm.level (hroots v s hv hs)), if_neg]
  rintro ⟨rfl, rfl⟩
  exact hn' (hn v hv hs)

theorem Extends.confines (hx : m.Extends a m' a') (hm : m.Sound e False a) (h : m.Confines vms)
    (hroots : e.Shelters vms) :
    m'.Confines vms :=
  h.step fun v s hv hs n _ => .inr (hx.translation n (hm.level (hroots v s hv hs)))

theorem confines_of_tornDown (hd : Host.TornDown m a {r | r ∈ e.roots} r m') (hm : m.Sound e False a)
    (h : m.Confines vms)
    (hroots : e.Shelters vms) :
    m'.Confines vms := by
  obtain ⟨a', hs, -, -, hempty⟩ := hd
  refine h.step fun v s hv hr n _ => ?_
  by_cases he : s = r
  · subst s
    exact .inl (Shape.translationFrom_of_empty hempty)
  · exact .inr (hs.translation n (hm.level (hroots v s hv hr)) he)

namespace Bounded

theorem of_confines (h : m.Bounded e vms) (hm' : m'.Owned e False) (hc : m'.Confines vms) :
    m'.Bounded e vms :=
  ⟨hm', h.shelters, h.sizes, hc⟩

theorem edited (h : m.Bounded e vms) (hm : m.Sound e False a) (f : PageWords → PageWords)
    (hp : a.level p.pageDown = none) : (m.edited p f).Bounded e vms :=
  h.of_confines ⟨a, hm.edited hp⟩
    (hm.confines_of_words h.confines h.shelters fun _ _ => hm.balanced.words_edited f hp)

theorem of_extends (h : m.Bounded e vms) (hm : m.Sound e False a) (hx : m.Extends a m' a') :
    m'.Bounded e vms :=
  h.of_confines ⟨a', hm.of_extends hx⟩ (hx.confines hm h.confines h.shelters)

end Bounded

theorem safe_bounded {F : Panic → Prop} {ε α : Type} {x : MemoryM ε α} {Q : α → Memory → Prop}
    {E : ε → Memory → Prop}
    (hx : ∀ a, x.Safe F m (m.Sound e False a ∧ m.Bounded e vms) Q E) :
    x.Safe F m (m.Bounded e vms) Q E := by
  refine (Safe.exists hx).assume fun _ h => ?_
  obtain ⟨a, hm⟩ := h.owned
  exact ⟨a, hm, h⟩

theorem Bounded.confines_of_words (h : m.Bounded e vms)
    (hwords : ∀ a, m.Sound e False a → ∀ t k, a.level t = some k → m'.words t = m.words t) :
    m'.Confines vms := by
  obtain ⟨a, hm⟩ := h.owned
  exact hm.confines_of_words h.confines h.shelters (hwords a hm)

theorem Bounded.confines_of_pages_eq (h : m.Bounded e vms) (hpages : m'.pages = m.pages) :
    m'.Confines vms :=
  h.confines_of_words fun _ _ _ _ _ => by rw [words, words, hpages]

section Pages

variable {F : Panic → Prop} {ε : Type}

theorem alloc_confines : (alloc : MemoryM ε (Option Hpa)).Safe F m (m.Bounded e vms)
    (fun _ m' => m'.Confines vms) (fun _ m' => m'.Confines vms) :=
  Safe.last (alloc_bind (fun _ hpages _ => Safe.pure fun _ h => h.confines_of_pages_eq hpages)
    fun _ _ hnew => Safe.pure fun _ h => h.confines_of_words fun _ hm _ _ => hm.words_allocates hnew)

theorem allocRetained_confines : (allocRetained : MemoryM ε (Option Hpa)).Safe F m (m.Bounded e vms)
    (fun _ m' => m'.Confines vms) (fun _ m' => m'.Confines vms) :=
  Safe.last (allocRetained_bind (fun _ hpages _ => Safe.pure fun _ h => h.confines_of_pages_eq hpages)
    fun _ _ hnew => Safe.pure fun _ h => h.confines_of_words fun _ hm _ _ => hm.words_allocates hnew)

theorem retain_confines (hp : p ∈ m.pages) : (retain p : MemoryM ε Unit).Safe F m (m.Bounded e vms)
    (fun _ m' => m'.Confines vms) (fun _ m' => m'.Confines vms) :=
  Safe.last (retain_bind (fun _ => hp) (Safe.pure fun _ h =>
    h.confines_of_words fun _ _ _ _ _ => words_retained _))

theorem release_confines (hp : 0 < e.held p) :
    (release p : MemoryM ε Unit).Safe F m (m.Bounded e vms) (fun _ m' => m'.Confines vms)
      (fun _ m' => m'.Confines vms) := by
  refine Safe.last (release_bind (fun h => ?_) (Safe.pure fun _ h => ?_))
  · obtain ⟨a, hm⟩ := h.owned
    have hheld := hm.held p
    have hle := hm.balanced.held_le_refs p
    omega
  · refine h.confines_of_words fun a hm t k ht => words_released ?_
    exact (hm.released hp).balanced.table_pageDown_live (k := k) ht

theorem editPage_confines (hlive : p.pageDown ∈ m.pages) (hp : m.Unowned e p.pageDown)
    (f : PageWords → PageWords) :
    (editPage p f : MemoryM ε Unit).Safe F m (m.Bounded e vms) (fun _ m' => m'.Confines vms)
      (fun _ m' => m'.Confines vms) :=
  pageWords_bind (fun _ => hlive) (Safe.last (updatePage_bind (Safe.pure fun _ h =>
    h.confines_of_words fun _ hm _ _ => hm.balanced.words_edited f (hm.level_of_unowned hp))))

end Pages

end Memory

namespace Guest

open Hypervisor.Action Memory

variable {F : Panic → Prop} {m : Memory} {e : Estate} {vms : Array (Option Vm)} {r : Hpa} {v : Vm}

theorem Lodged.onAccess_bounded (hg : v.guest.Lodged r e False) (hv : some v ∈ vms) (gpa : Gpa) :
    (v.guest.table.onAccess v.guest.physSize gpa).Safe F m (m.Bounded e vms)
      (fun _ m' => m'.Bounded e vms) (fun _ m' => m'.Bounded e vms) := by
  refine safe_bounded fun a => (Ept.onAccess_safe (a := a) hg.root v.guest.physSize).mono
    (fun _ h => ⟨h.1.balanced, h.1.level hg.mem, h.1.buffer_live⟩) ?_ ?_
  · rintro fault m' - - ⟨hm, h⟩ ⟨a', haccess⟩
    cases haccess with
    | ram hregion hpop =>
        refine h.of_confines ⟨a', hm.of_populates False.elim hpop⟩
          (hpop.confines hm h.confines h.shelters fun w hw hr => ?_)
        rw [h.sizes w v r hw hv hr hg.root, Set.singleton_subset_iff]
        exact Region.number_mem_extent_of_ram hregion
    | videoBuffer hregion _ hmaps =>
        refine h.of_confines
          ⟨a', hm.of_maps hm.buffer_live hm.buffer hm.buffer_notMem_others False.elim hmaps⟩
          (hmaps.confines hm h.confines h.shelters fun w hw hr => ?_)
        rw [h.sizes w v r hw hv hr hg.root]
        exact Region.number_mem_extent_of_videoBuffer hregion
    | unmapped => exact h
  · rintro err m' - - ⟨hm, h⟩ ⟨a', hx⟩
    exact h.of_extends hm hx

theorem Lodged.populateAll_bounded (hg : v.guest.Lodged r e False) (hv : some v ∈ vms) :
    (v.guest.table.populateAll v.guest.physSize).Safe F m (m.Bounded e vms)
      (fun _ m' => m'.Bounded e vms) (fun _ m' => m'.Bounded e vms) := by
  have hback : ∀ {m' a a' S}, m.Sound e False a ∧ m.Bounded e vms →
      S ⊆ Region.ramNumbers v.guest.physSize → m.Populates a r S m' a' → m'.Bounded e vms := by
    rintro m' a a' S ⟨hm, h⟩ hS hpop
    refine h.of_confines ⟨a', hm.of_populates False.elim hpop⟩
      (hpop.confines hm h.confines h.shelters fun w hw hr => ?_)
    rw [h.sizes w v r hw hv hr hg.root]
    exact hS.trans Region.ramNumbers_subset_extent
  refine safe_bounded fun a => (Ept.populateAll_safe (a := a) hg.root v.guest.physSize).mono
    (fun _ h => ⟨h.1.balanced, h.1.level hg.mem⟩) ?_ ?_
  · rintro _ m' - - h ⟨a', hpop⟩
    exact hback h le_rfl hpop
  · rintro err m' - - h ⟨a', S, hS, hpop⟩
    exact hback h hS hpop

theorem Lodged.mapFromHost_bounded (hg : v.guest.Lodged r e False) (hv : some v ∈ vms) {source : Hva}
    (hsource : ∀ p, m.physical? source = some p → m.Unowned e p.pageDown) (writable : Bool)
    (gpa : Gpa) (perm : Permission) :
    (v.guest.mapFromHost source writable gpa perm).Safe F m (m.Bounded e vms)
      (fun _ m' => m'.Bounded e vms) (fun _ m' => m'.Bounded e vms) := by
  refine Safe.require_bind (fun hrequired => Safe.mapError ?_) fun _ _ h => h
  have hlt : gpa.val < v.guest.physSize := by
    simp only [Bool.and_eq_true, decide_eq_true_eq] at hrequired
    exact hrequired.1.1.2
  refine safe_bounded fun a => (Ept.map_safe (a := a) hg.root source gpa perm false).mono
    (fun _ h => ⟨h.1.balanced, h.1.level hg.mem⟩) ?_ ?_
  · rintro _ m' - - ⟨hm, h⟩ ⟨a', p, hp, hlive, -, hmaps⟩
    have hfree := hsource p hp
    rw [Address.pageDown_of_isPageAligned (hm.balanced.page hlive).1] at hfree
    refine h.of_confines
      ⟨a', hm.of_maps hlive (hm.level_of_unowned hfree) hfree.2 False.elim hmaps⟩
      (hmaps.confines hm h.confines h.shelters fun w hw hr => ?_)
    rw [h.sizes w v r hw hv hr hg.root]
    exact Region.number_mem_extent_of_lt hlt
  · rintro err m' - - ⟨hm, h⟩ ⟨a', hx⟩
    exact h.of_extends hm hx

theorem Lodged.housed_bounded (hg : v.guest.Lodged r e False) (hv : some v ∈ vms) :
    v.guest.Housed r (·.Bounded e vms) where
  root := hg.root
  balanced := fun h => by
    obtain ⟨a, hm⟩ := h.owned
    exact ⟨a, hm.balanced, hm.level hg.mem⟩
  live := fun h hp => by
    obtain ⟨a, hm⟩ := h.owned
    exact hm.other_live (hg.own _ hp)
  own := fun f h hp => by
    obtain ⟨a, hm⟩ := h.owned
    exact h.edited hm f (hm.other (hg.own _ hp))
  leaf := fun f h hp => by
    obtain ⟨a, hm⟩ := h.owned
    refine h.edited hm f ?_
    rw [Address.pageDown_of_isPageAligned (hm.balanced.page (hm.target_live hg.mem hp)).1]
    exact (hm.separate hg.mem hp).1
  fault := fun gpa => hg.onAccess_bounded hv gpa

end Guest

namespace Ept

open Hypervisor.Action Memory

variable {F : Panic → Prop} {m : Memory} {e : Estate} {vms : Array (Option Vm)} {r : Hpa} {tab : Ept}
  {g : Gpa}

theorem edit_confines (hroot : tab.root = some r) (hmem : r ∈ e.roots) (create : Bool) :
    (tab.edit g create []).Safe F m (m.Bounded e vms) (fun _ m' => m'.Confines vms)
      (fun _ m' => m'.Confines vms) := by
  refine safe_bounded fun a => Safe.bind (R := fun s m' => m'.Confines vms ∧
    s.table.pageDown ∈ m'.pages) ((lookup_safe (a := a) hroot).mono
      (fun _ h => ⟨h.1.balanced, h.1.level hmem⟩) ?_ ?_) fun s m' => Safe.last ?_
  · rintro s m' - - ⟨hm, h⟩ ⟨a', hx, hs⟩
    have hm' := hm.of_extends hx
    refine ⟨hx.confines hm h.confines h.shelters, hx.balanced.table_pageDown_live (k := 0) ?_⟩
    exact hx.balanced.shape.level_of_leafFrom (hm'.level hmem) hs
  · rintro err m' - - ⟨hm, h⟩ ⟨a', hx⟩
    exact hx.confines hm h.confines h.shelters
  · exact Slot.read_bind (fun h => h.2.2) (Safe.pure fun _ h => h.2.1)

theorem new_confines :
    Ept.new.Safe F m (m.Bounded e vms) (fun _ m' => m'.Confines vms) (fun _ m' => m'.Confines vms) :=
  Safe.bind allocRetained_confines fun _ _ =>
    Safe.orFail_bind (fun _ _ => Safe.pure fun _ h => h.2) fun _ _ h => h.2

end Ept

namespace Host

open Hypervisor.Action Memory

variable {F : Panic → Prop} {h : Host} {e : Estate} {vms : Array (Option Vm)} {g : Guest} {r : Hpa}

theorem teardown_confines {t : Ept} (hroot : t.root = some r) (hmem : r ∈ e.roots) :
    (teardown t).Safe F h (h.memory.Bounded e vms) (fun _ h' => h'.memory.Confines vms)
      (fun _ h' => h'.memory.Confines vms) := by
  refine (Safe.exists (R := fun a => h.memory.Sound e False a ∧ h.memory.Bounded e vms) fun a => ?_).assume
    fun _ hb => ?_
  · exact (teardown_safe (a := a) {r | r ∈ e.roots} hroot).mono
      (fun _ hp => ⟨hp.1.balanced, hp.1.rooted, hmem, hp.1.level hmem⟩)
      (fun _ _ _ _ hp hd => confines_of_tornDown hd hp.1 hp.2.confines hp.2.shelters)
      fun _ _ _ _ hp hd => confines_of_tornDown hd hp.1 hp.2.confines hp.2.shelters
  · obtain ⟨a, hm⟩ := hb.owned
    exact ⟨a, hm, hb⟩

theorem freeGuest_confines (hroot : g.table.root = some r) (hroots : e.Shelters vms) :
    (freeGuest g).Safe F h (h.memory.Owned (e.lodge g) False ∧ h.memory.Confines vms)
      (fun _ h' => h'.memory.Confines vms) (fun _ h' => h'.memory.Confines vms) :=
  (freeGuest_lasts hroot (carried_confines hroots).lasts
    fun hm hd hc => confines_of_tornDown hd hm hc (hroots.lodge g)).mono (fun _ hp => hp)
    (fun _ _ _ _ _ hp => hp.2) fun _ _ _ _ _ hp => hp.2

def Welcomes (vms : Array (Option Vm)) (g : Guest) (m : Memory) : Prop :=
  m.Confines vms ∧ ∀ r, g.table.root = some r → ∀ n ∉ Region.extent g.physSize, m.translation r n = none

/-- A guest is built within its extent, and the others stay within theirs. -/
theorem founds_welcomes (hroots : e.Shelters vms) (config : GuestConfig) :
    Founds (·.Confines vms) (Welcomes vms) config e False where
  first := fun {m g root} f _ hroot ⟨⟨a, hm⟩, hzero⟩ hc => by
    have hblock : g.block.pageDown ∈ root :: g.ownPages := by
      have hmem : g.block ∈ root :: g.ownPages := List.mem_cons_of_mem _ List.mem_cons_self
      rwa [hm.other_pageDown (Multiset.mem_add.2 (.inl hmem))]
    refine ⟨(carried_confines hroots).edited f hm hblock hc, fun r hr n _ => ?_⟩
    cases hroot.symm.trans hr
    exact Shape.translationFrom_of_empty fun i =>
      entry_of_words_eq_zero (granted_zero f ⟨⟨a, hm⟩, hzero⟩)
  populate := fun {F m g root} hnew hroot => by
    have hmem : root ∈ (e.lodge g).roots := Estate.mem_roots_lodge hroot
    have hback : ∀ {m' a a' S}, m.Sound (e.lodge g) False a ∧ Welcomes vms g m →
        S ⊆ Region.ramNumbers g.physSize → m.Populates a root S m' a' →
          m'.Owned (e.lodge g) False ∧ Welcomes vms g m' := by
      rintro m' a a' S ⟨hm, hc, hnew⟩ hS hpop
      refine ⟨⟨a', hm.of_populates False.elim hpop⟩, ?_, fun r hr n hn => ?_⟩
      · refine hpop.confines hm hc (hroots.lodge g) fun v hv hr => ?_
        exact absurd (hroots v root hv hr) (hm.root_notMem hroot)
      · cases hroot.symm.trans hr
        rw [hpop.outside fun hmem => hn (Region.ramNumbers_subset_extent (hS hmem))]
        exact hnew root hroot n hn
    refine (Safe.exists (R := fun a => m.Sound (e.lodge g) False a ∧ Welcomes vms g m)
      fun a => ?_).assume fun _ ⟨⟨a, hm⟩, hL⟩ => ⟨a, hm, hL⟩
    refine (Ept.populateAll_safe (a := a) hroot g.physSize).mono
      (fun _ h => ⟨h.1.balanced, h.1.level hmem⟩) ?_ ?_
    · rintro _ m' - - h ⟨a', hpop⟩
      exact hback h le_rfl hpop
    · rintro err m' - - h ⟨a', S, hS, hpop⟩
      exact hback h hS hpop
  freed := fun {m m' g root a} _ hm hd hL => confines_of_tornDown hd hm hL.1 (hroots.lodge g)

end Host

end Hypervisor
