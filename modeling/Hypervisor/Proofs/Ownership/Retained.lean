import Hypervisor.Proofs.Ownership.Commands
import Hypervisor.Proofs.Ownership.Neighbours
import Hypervisor.Proofs.Ownership.Preserved

/-!
# What callers do to pages in a role

Callers allocate, share and give up pages, and have tables and guests built and freed.  None of this
writes to a page that has a role and keeps it.
-/

namespace Hypervisor

namespace Memory

open Hypervisor.Action

/-- Some pages are as they were in `m₀`. -/
structure Retains (m₀ : Memory) (ps : Set Hpa) (m : Memory) : Prop where
  fits : m₀.Fits
  words : ∀ p ∈ ps, m.words p = m₀.words p

variable {m₀ m m' : Memory} {ps : Set Hpa} {e : Estate} {I : Prop} {a a' : Account} {p q r : Hpa}
  {g : Guest}

theorem Preserves.retains (h : m₀.Preserves ps e m) : m₀.Retains ps m := ⟨h.fits, h.words⟩

theorem Retains.step (h : m₀.Retains ps m) (hwords : ∀ p ∈ ps, m'.words p = m.words p) :
    m₀.Retains ps m' :=
  ⟨h.fits, fun p hp => (hwords p hp).trans (h.words p hp)⟩

theorem Retains.of_pages_eq (h : m₀.Retains ps m) (hpages : m'.pages = m.pages) :
    m₀.Retains ps m' := by
  refine h.step fun p _ => ?_
  rw [Memory.words, Memory.words, hpages]

namespace Sound

/-! A page in a role is neither new, nor free as long as it has the role, nor one without a role. -/

theorem other_words_allocates {count : Nat} (h : m.Sound e I a) (hm : m.Allocates m' q count)
    (hp : p ∈ e.others) : m'.words p = m.words p := by
  have hne : p ≠ q := by
    rintro rfl
    exact h.balanced.next_notMem hm.address (h.other_live hp)
  rw [hm.words, h.other_pageDown hp, if_neg hne]

theorem other_words_released (h : (m.released q).Sound e I a) (hp : p ∈ e.others) :
    (m.released q).words p = m.words p := by
  refine words_released ?_
  rw [h.other_pageDown hp]
  exact h.other_live hp

theorem other_words_edited (h : m.Sound e I a) (f : PageWords → PageWords) (hp : p ∈ e.others)
    (hne : q.pageDown ≠ p) : (m.edited q f).words p = m.words p := by
  refine words_edited_of_ne f ?_
  rw [h.other_pageDown hp]
  exact hne.symm

theorem other_words_tornDown (h : m.Sound e I a) (hd : Host.TornDown m a {r | r ∈ e.roots} r m')
    (hp : p ∈ e.others) : m'.words p = m.words p := by
  obtain ⟨a', hm', -⟩ := h.of_tornDown hd
  obtain ⟨a'', hx, -⟩ := hd
  exact hx.words (hm'.other_live hp) (h.other hp)

theorem nodup_ownPages (h : m.Sound (e.lodge g) I a) : g.ownPages.Nodup := by
  have hle : ((g.ownPages : List Hpa) : Multiset Hpa) ≤ (e.lodge g).roles :=
    (Multiset.le_add_right _ e.others).trans
      ((Multiset.le_add_left _ _).trans (Multiset.le_cons_self _ _))
  exact Multiset.coe_nodup.1 (Multiset.nodup_of_le hle h.nodup)

end Sound

theorem carried_retains (hps : ∀ p ∈ ps, p ∈ e.others) : Carried (m₀.Retains ps) e I where
  pages := fun _ hpages h => h.of_pages_eq hpages
  allocates := fun hm hnew h => h.step fun p hp =>
    hm.other_words_allocates hnew (Multiset.mem_add.2 (.inr (hps p hp)))
  edited := fun {m a l q} f hm hq h => h.step fun p hp => by
    have hle : ((l : Multiset Hpa) + e.others) ≤ (e.giveAll l).roles :=
      (Multiset.le_add_left _ _).trans (Multiset.le_cons_self _ _)
    have hnodup := Multiset.nodup_of_le hle hm.nodup
    refine hm.other_words_edited f (Multiset.mem_add.2 (.inr (hps p hp))) ?_
    rintro rfl
    exact Multiset.disjoint_left.1 (Multiset.nodup_add.1 hnodup).2.2 hq (hps _ hp)
  lasts := fun hm h => h.step fun p hp =>
    hm.giveBack.other_words_released (Multiset.mem_add.2 (.inr (hps p hp)))

theorem safe_preserves {F : Panic → Prop} {ε α : Type} {x : MemoryM ε α} {Q : α → Memory → Prop}
    {E : ε → Memory → Prop} (hx : ∀ a, x.Safe F m (m.Sound e False a ∧ m₀.Preserves ps e m) Q E) :
    x.Safe F m (m₀.Preserves ps e m) Q E := by
  refine (Safe.exists hx).assume fun _ h => ?_
  obtain ⟨a, hm⟩ := h.owned
  exact ⟨a, hm, h⟩

section Pages

variable {F : Panic → Prop} {ε : Type}

theorem Preserves.retains_of (h : m₀.Preserves ps e m)
    (hwords : ∀ a, m.Sound e False a → ∀ p ∈ ps, m'.words p = m.words p) : m₀.Retains ps m' := by
  obtain ⟨a, hm⟩ := h.owned
  exact h.retains.step (hwords a hm)

variable (hps : ∀ p ∈ ps, p ∈ e.others)

include hps

theorem alloc_retains : (alloc : MemoryM ε (Option Hpa)).Safe F m (m₀.Preserves ps e m)
    (fun _ m' => m₀.Retains ps m') fun _ m' => m₀.Retains ps m' :=
  Safe.last (alloc_bind (fun _ hpages _ => Safe.pure fun _ h => h.retains.of_pages_eq hpages)
    fun _ _ hnew => Safe.pure fun _ h => h.retains_of fun _ hm p hp =>
      hm.other_words_allocates hnew (hps p hp))

theorem allocRetained_retains :
    (allocRetained : MemoryM ε (Option Hpa)).Safe F m (m₀.Preserves ps e m)
      (fun _ m' => m₀.Retains ps m') fun _ m' => m₀.Retains ps m' :=
  Safe.last (allocRetained_bind (fun _ hpages _ => Safe.pure fun _ h => h.retains.of_pages_eq hpages)
    fun _ _ hnew => Safe.pure fun _ h => h.retains_of fun _ hm p hp =>
      hm.other_words_allocates hnew (hps p hp))

omit hps in
theorem retain_retains (hq : q ∈ m.pages) : (retain q : MemoryM ε Unit).Safe F m (m₀.Preserves ps e m)
    (fun _ m' => m₀.Retains ps m') fun _ m' => m₀.Retains ps m' :=
  Safe.last (retain_bind (fun _ => hq) (Safe.pure fun _ h =>
    h.retains.step fun _ _ => words_retained _))

theorem release_retains (hq : 0 < e.held q) : (release q : MemoryM ε Unit).Safe F m
    (m₀.Preserves ps e m) (fun _ m' => m₀.Retains ps m') fun _ m' => m₀.Retains ps m' := by
  refine Safe.last (release_bind (fun h => ?_) (Safe.pure fun _ h => ?_))
  · obtain ⟨a, hm⟩ := h.owned
    have hheld := hm.held q
    have hle := hm.balanced.held_le_refs q
    omega
  · exact h.retains_of fun a hm p hp => (hm.released hq).other_words_released (hps p hp)

theorem editPage_retains (hlive : q.pageDown ∈ m.pages) (hq : m.Unowned e q.pageDown)
    (f : PageWords → PageWords) : (editPage q f : MemoryM ε Unit).Safe F m (m₀.Preserves ps e m)
      (fun _ m' => m₀.Retains ps m') fun _ m' => m₀.Retains ps m' :=
  pageWords_bind (fun _ => hlive) (Safe.last (updatePage_bind (Safe.pure fun _ h =>
    h.retains_of fun _ hm p hp => hm.other_words_edited f (hps p hp) fun he =>
      hq.2 (he ▸ hps p hp))))

end Pages

end Memory

namespace Ept

open Hypervisor.Action Memory

variable {F : Panic → Prop} {m₀ m : Memory} {ps : Set Hpa} {e : Estate} {r : Hpa} {tab : Ept} {g : Gpa}

section

variable (hps : ∀ p ∈ ps, p ∈ e.others)

include hps

theorem new_retains : Ept.new.Safe F m (m₀.Preserves ps e m) (fun _ m' => m₀.Retains ps m')
    fun _ m' => m₀.Retains ps m' :=
  Safe.bind (allocRetained_retains hps) fun _ _ =>
    Safe.orFail_bind (fun _ _ => Safe.pure fun _ h => h.2) fun _ _ h => h.2

variable (hroot : tab.root = some r) (hmem : r ∈ e.roots)

include hroot hmem

theorem edit_preserves (create : Bool) : (tab.edit g create []).Safe F m (m₀.Preserves ps e m)
    (fun _ m' => m₀.Preserves ps e m') fun _ m' => m₀.Preserves ps e m' := by
  refine safe_preserves fun a => Safe.bind (R := fun s m' => m₀.Preserves ps e m' ∧
    s.table.pageDown ∈ m'.pages) ((lookup_safe (a := a) hroot).mono
      (fun _ h => ⟨h.1.balanced, h.1.level hmem⟩) ?_ ?_) fun s m' => Safe.last ?_
  · rintro s m' - - ⟨hm, h⟩ ⟨a', hx, hs⟩
    have hm' := hm.of_extends hx
    refine ⟨h.of_grows hps hm hm' hx.toGrows, hx.balanced.table_pageDown_live (k := 0) ?_⟩
    exact hx.balanced.shape.level_of_leafFrom (hm'.level hmem) hs
  · rintro err m' - - ⟨hm, h⟩ ⟨a', hx⟩
    exact h.of_grows hps hm (hm.of_extends hx) hx.toGrows
  · exact Slot.read_bind (fun h => h.2.2) (Safe.pure fun _ h => h.2.1)

theorem map_preserves (source : Hva) (perm : Permission) (overwrite : Bool)
    (hsource : ∀ p, m.physical? source = some p → m.Unowned e p.pageDown) :
    (tab.map source g perm overwrite).Safe F m (m₀.Preserves ps e m)
      (fun _ m' => m₀.Preserves ps e m') fun _ m' => m₀.Preserves ps e m' := by
  refine safe_preserves fun a => (map_safe (a := a) hroot source g perm overwrite).mono
    (fun _ h => ⟨h.1.balanced, h.1.level hmem⟩) ?_ ?_
  · rintro _ m' - - ⟨hm, h⟩ ⟨a', p, hp, hlive, -, hmaps⟩
    have hfree := hsource p hp
    rw [Address.pageDown_of_isPageAligned (hm.balanced.page hlive).1] at hfree
    exact h.of_grows hps hm (hm.of_maps hlive (hm.level_of_unowned hfree) hfree.2 False.elim hmaps)
      hmaps.toGrows
  · rintro err m' - - ⟨hm, h⟩ ⟨a', hx⟩
    exact h.of_grows hps hm (hm.of_extends hx) hx.toGrows

theorem insertPage_preserves (p : Hpa) (perm : Permission) (hlive : p.pageDown ∈ m.pages)
    (hfree : m.Unowned e p.pageDown) : (tab.insertPage p g perm).Safe F m (m₀.Preserves ps e m)
      (fun _ m' => m₀.Preserves ps e m') fun _ m' => m₀.Preserves ps e m' := by
  refine virtual_bind (fun _ => hlive) (map_preserves hps hroot hmem _ perm false ?_)
  intro q hq
  cases (physical?_virtual hlive).symm.trans hq
  exact hfree

variable (m₀) in
theorem populateAll_preserves (physSize : UInt64) :
    (tab.populateAll physSize).Safe F m (m₀.Preserves ps e m) (fun _ m' => m₀.Preserves ps e m')
      fun _ m' => m₀.Preserves ps e m' := by
  refine safe_preserves fun a => (populateAll_safe (a := a) hroot physSize).mono
    (fun _ h => ⟨h.1.balanced, h.1.level hmem⟩) ?_ ?_
  · rintro _ m' - - ⟨hm, h⟩ ⟨a', hpop⟩
    exact h.of_grows hps hm (hm.of_populates False.elim hpop) hpop.toGrows
  · rintro err m' - - ⟨hm, h⟩ ⟨a', S, hS, hpop⟩
    exact h.of_grows hps hm (hm.of_populates False.elim hpop) hpop.toGrows

end

end Ept

namespace Guest

open Hypervisor.Action Memory

variable {F : Panic → Prop} {m₀ m : Memory} {ps : Set Hpa} {e : Estate} {g : Guest} {r : Hpa}

theorem Lodged.mapFromHost_preserves (hg : g.Lodged r e False) (hps : ∀ p ∈ ps, p ∈ e.others)
    {source : Hva} (hsource : ∀ p, m.physical? source = some p → m.Unowned e p.pageDown)
    (writable : Bool) (gpa : Gpa) (perm : Permission) :
    (g.mapFromHost source writable gpa perm).Safe F m (m₀.Preserves ps e m)
      (fun _ m' => m₀.Preserves ps e m') fun _ m' => m₀.Preserves ps e m' := by
  refine Safe.require_bind (fun _ => ?_) fun _ _ h => h
  exact Safe.mapError (Ept.map_preserves hps hg.root hg.mem source perm false hsource)

theorem msrPage_notMem_bitmaps (h : g.ownPages.Nodup) : g.msrPage ∉ g.bitmaps :=
  (List.nodup_cons.1 (List.nodup_cons.1 h).2).1

theorem ioBitmaps_ne (h : g.ownPages.Nodup) : g.ioBitmapA ≠ g.ioBitmapB := by
  have hnotMem := (List.nodup_cons.1 (List.nodup_cons.1 (List.nodup_cons.1 h).2).2).1
  exact fun he => hnotMem (List.mem_singleton.2 he)

/-- A guest in the estate has its bitmaps. -/
theorem hasBitmaps_of_sound {a : Account} (hm : m.Sound (e.lodge g) False a) : g.HasBitmaps m := by
  have hmem : ∀ p ∈ g.bitmaps, p ∈ (e.lodge g).others := fun p hp =>
    Multiset.mem_add.2 (.inl (bitmaps_subset_ownPages hp))
  exact ⟨fun p hp => hm.other_live (hmem p hp), fun p hp => hm.other_pageDown (hmem p hp),
    ioBitmaps_ne hm.nodup_ownPages⟩

theorem msrs_preserves {e' : Estate} (hg : g.Lodged r e' False) (he : e' = e.lodge g) {q : Hpa}
    (f : PageWords → PageWords) (h : m₀.Preserves {p | p ∈ g.bitmaps} e' m)
    (hq : q.pageDown = g.msrPage) : m₀.Preserves {p | p ∈ g.bitmaps} e' (m.edited q f) := by
  obtain ⟨a, hm⟩ := h.owned
  have hnodup : g.ownPages.Nodup := by
    rw [he] at hm
    exact hm.nodup_ownPages
  refine h.edited (fun p hp => hg.own p (bitmaps_subset_ownPages hp)) hm f ?_ ?_
  · rw [hq]
    exact hm.other (hg.own _ msrPage_mem_ownPages)
  · rw [hq]
    exact msrPage_notMem_bitmaps hnodup

end Guest

namespace Host

open Hypervisor.Action Memory

variable {F : Panic → Prop} {h : Host} {m₀ : Memory} {ps : Set Hpa} {e : Estate} {g : Guest} {r : Hpa}

theorem teardown_retains {t : Ept} (hps : ∀ p ∈ ps, p ∈ e.others) (hroot : t.root = some r)
    (hmem : r ∈ e.roots) : (teardown t).Safe F h (m₀.Preserves ps e h.memory)
      (fun _ h' => m₀.Retains ps h'.memory) fun _ h' => m₀.Retains ps h'.memory := by
  refine (Safe.exists (R := fun a => h.memory.Sound e False a ∧ m₀.Retains ps h.memory)
    fun a => ?_).assume fun _ hk => ?_
  · have hback : ∀ {h' : Host}, h.memory.Sound e False a ∧ m₀.Retains ps h.memory →
        TornDown h.memory a {r | r ∈ e.roots} r h'.memory → m₀.Retains ps h'.memory :=
      fun hk hd => hk.2.step fun p hp => hk.1.other_words_tornDown hd (hps p hp)
    exact (teardown_safe (a := a) {r | r ∈ e.roots} hroot).mono
      (fun _ hk => ⟨hk.1.balanced, hk.1.rooted, hmem, hk.1.level hmem⟩)
      (fun _ _ _ _ hk hd => hback hk hd) fun _ _ _ _ hk hd => hback hk hd
  · obtain ⟨a, hm⟩ := hk.owned
    exact ⟨a, hm, hk.retains⟩

variable (m₀) in
theorem freeGuest_retains (hps : ∀ p ∈ ps, p ∈ e.others) (hroot : g.table.root = some r) :
    (freeGuest g).Safe F h (h.memory.Owned (e.lodge g) False ∧ m₀.Retains ps h.memory)
      (fun _ h' => h'.memory.Owned e False ∧ m₀.Retains ps h'.memory)
      fun _ h' => h'.memory.Owned e False ∧ m₀.Retains ps h'.memory :=
  freeGuest_lasts hroot (carried_retains hps).lasts fun hm hd hk => hk.step fun p hp =>
    hm.other_words_tornDown hd (Multiset.mem_add.2 (.inr (hps p hp)))

variable (m₀) in
theorem founds_retains (hps : ∀ p ∈ ps, p ∈ e.others) (config : GuestConfig) :
    Founds (m₀.Retains ps) (fun _ => m₀.Retains ps) config e False where
  first := fun {m g root} f _ _ ⟨⟨a, hm⟩, _⟩ hk => by
    have hmem : g.block ∈ root :: g.ownPages := List.mem_cons_of_mem _ List.mem_cons_self
    refine (carried_retains (I := False) hps).edited f hm ?_ hk
    rwa [hm.other_pageDown (Multiset.mem_add.2 (.inl hmem))]
  populate := fun {F m g root} _ hroot => by
    have hmem : root ∈ (e.lodge g).roots := Estate.mem_roots_lodge hroot
    have hps' : ∀ p ∈ ps, p ∈ (e.lodge g).others := fun p hp => Multiset.mem_add.2 (.inr (hps p hp))
    exact (Ept.populateAll_preserves m₀ hps' hroot hmem g.physSize).mono
      (fun _ hk => ⟨hk.2.fits, hk.1, hk.2.words⟩) (fun _ _ _ _ _ hk => ⟨hk.owned, hk.retains⟩)
      fun _ _ _ _ _ hk => ⟨hk.owned, hk.retains⟩
  freed := fun _ hm hd hk => hk.step fun p hp =>
    hm.other_words_tornDown hd (Multiset.mem_add.2 (.inr (hps p hp)))

theorem founds_clear (config : GuestConfig) :
    Founds (fun _ => True) (fun g m => ∀ p ∈ g.bitmaps, m.words p = .zero) config e False where
  first := fun {m g root} f _ _ ⟨⟨a, hm⟩, hzero⟩ _ p hp => by
    have hmem : p ∈ root :: g.ownPages :=
      List.mem_cons_of_mem _ (Guest.bitmaps_subset_ownPages hp)
    have hblock : g.block ∈ root :: g.ownPages := List.mem_cons_of_mem _ List.mem_cons_self
    have hle : ((root :: g.ownPages : List Hpa) : Multiset Hpa) ≤
        (e.giveAll (root :: g.ownPages)).roles :=
      (Multiset.le_add_right _ e.others).trans
        ((Multiset.le_add_left _ _).trans (Multiset.le_cons_self _ _))
    have hnodup := (List.nodup_cons.1 (Multiset.coe_nodup.1 (Multiset.nodup_of_le hle hm.nodup))).2
    -- The pages were zero when they were given, and only the control block is written to.
    rw [hm.other_words_edited f (Multiset.mem_add.2 (.inl hmem)), hzero p hmem]
    rw [hm.other_pageDown (Multiset.mem_add.2 (.inl hblock))]
    rintro rfl
    exact (List.nodup_cons.1 hnodup).1 (List.mem_cons_of_mem _ hp)
  populate := fun {F m g root} _ hroot => by
    have hmem : root ∈ (e.lodge g).roots := Estate.mem_roots_lodge hroot
    have hps : ∀ p ∈ {p | p ∈ g.bitmaps}, p ∈ (e.lodge g).others := fun p hp =>
      Multiset.mem_add.2 (.inl (Guest.bitmaps_subset_ownPages hp))
    have hback : ∀ {m' : Memory}, m.Owned (e.lodge g) False ∧ (∀ p ∈ g.bitmaps, m.words p = .zero) →
        m.Preserves {p | p ∈ g.bitmaps} (e.lodge g) m' →
          m'.Owned (e.lodge g) False ∧ ∀ p ∈ g.bitmaps, m'.words p = .zero :=
      fun hk hk' => ⟨hk'.owned, fun p hp => (hk'.words p hp).trans (hk.2 p hp)⟩
    exact (Ept.populateAll_preserves m hps hroot hmem g.physSize).mono
      (fun hf hk => .refl hf hk.1) (fun _ _ _ _ hk hk' => hback hk hk')
      fun _ _ _ _ hk hk' => hback hk hk'
  freed := fun _ _ _ _ => trivial

end Host

end Hypervisor
