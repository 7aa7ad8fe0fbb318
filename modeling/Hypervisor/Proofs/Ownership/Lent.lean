import Hypervisor.Proofs.Ownership.MemoryMap
import Hypervisor.Proofs.Ownership.Neighbours

/-!
# Pages lent to a guest

A page that callers share with a guest has no role, and the guest's table maps it where callers had it
mapped.  What is done on behalf of the guest leaves such a page as it is, as long as it is not where
the guest is handed its memory map.
-/

namespace Hypervisor

namespace Memory

/-- The page has no role and holds `ws`, and the table with the root `r` has only such leaves for it as
`L` allows. -/
structure Lent (e : Estate) (r p : Hpa) (ws : PageWords) (L : PageNumber → Permission → Prop)
    (m : Memory) : Prop where
  owned : m.Owned e False
  unowned : m.Unowned e p
  live : p ∈ m.pages
  words : m.words p = ws
  leaves : ∀ n perm, m.translation r n = some (p, perm) → L n perm

variable {m m' : Memory} {e : Estate} {a a' : Account} {r p q : Hpa} {ws : PageWords}
  {L : PageNumber → Permission → Prop}

namespace Lent

theorem edited (h : m.Lent e r p ws L) (hm : m.Sound e False a) (hr : r ∈ e.roots)
    (f : PageWords → PageWords) (hlevel : a.level q.pageDown = none) (hq : q.pageDown ≠ p) :
    (m.edited q f).Lent e r p ws L where
  owned := ⟨a, hm.edited hlevel⟩
  unowned := (hm.edited hlevel).unowned_iff.2 (hm.unowned_iff.1 h.unowned)
  live := (mem_edited f).2 h.live
  words := by
    rw [words_edited_of_ne f, h.words]
    rw [Address.pageDown_of_isPageAligned (hm.balanced.page h.live).1]
    exact hq.symm
  leaves := fun n perm hp => by
    have htables : ∀ t k, a.level t = some k → (m.edited q f).words t = m.words t :=
      fun _ _ => hm.balanced.words_edited f hlevel
    refine h.leaves n perm ?_
    rw [← hp]
    exact (hm.balanced.translation_eq htables (hm.level hr)).symm

theorem of_grows (h : m.Lent e r p ws L) (hm : m.Sound e False a) (hm' : m'.Sound e False a')
    (hx : m.Grows a m' a') (hlive : p ∈ m'.pages)
    (hleaves : ∀ n perm, m'.translation r n = some (p, perm) →
      m.translation r n = some (p, perm) ∨ L n perm) : m'.Lent e r p ws L where
  owned := ⟨a', hm'⟩
  unowned := by
    obtain ⟨hlevel, hother⟩ := hm.unowned_iff.1 h.unowned
    refine hm'.unowned_iff.2 ⟨?_, hother⟩
    rw [hx.level h.live, hlevel]
  live := hlive
  words := by
    rw [hx.words h.live hlive (hm.level_of_unowned h.unowned), h.words]
  leaves := fun n perm hp => (hleaves n perm hp).elim (h.leaves n perm) id

end Lent

end Memory

namespace Ept

open Hypervisor.Action Memory

variable {m : Memory} {e : Estate} {r p : Hpa} {ws : PageWords} {L : PageNumber → Permission → Prop}
  {F : Panic → Prop} {tab : Ept} {α ε : Type} {x : MemoryM ε α} {Q : α → Memory → Prop}
  {E : ε → Memory → Prop}

theorem safe_lent (hx : ∀ a, x.Safe F m (m.Sound e False a ∧ m.Lent e r p ws L) Q E) :
    x.Safe F m (m.Lent e r p ws L) Q E :=
  (Safe.exists hx).assume fun _ h => h.owned.imp fun _ hm => ⟨hm, h⟩

/-- A fault of a guest is backed by a new page, or by the text buffer in its own place. -/
theorem onAccess_lent (hroot : tab.root = some r) (hmem : r ∈ e.roots) (physSize : UInt64) (gpa : Gpa)
    (hbuffer : p = ⟨videoBuffer⟩ → L Region.bufferNumber Permission.full) :
    (tab.onAccess physSize gpa).Safe F m (m.Lent e r p ws L) (fun _ m' => m'.Lent e r p ws L)
      fun _ m' => m'.Lent e r p ws L := by
  refine safe_lent fun a => (onAccess_safe (a := a) hroot physSize).mono
    (fun _ h => ⟨h.1.balanced, h.1.level hmem, h.1.buffer_live⟩) ?_ ?_
  · rintro fault m' - - ⟨hm, h⟩ ⟨a', haccess⟩
    cases haccess with
    | ram _ hpop =>
        refine h.of_grows hm (hm.of_populates False.elim hpop) hpop.toGrows (hpop.live h.live)
          fun n perm hp => .inl ?_
        by_cases hn : n ∈ ({gpa.number} : Set PageNumber)
        · obtain ⟨-, q, hq, hnew⟩ := hpop.inside hn
          cases hnew.symm.trans hp
          exact absurd h.live hq
        · exact hpop.outside hn ▸ hp
    | videoBuffer hregion hfree hmaps =>
        have hm' := hm.of_maps hm.buffer_live hm.buffer hm.buffer_notMem_others False.elim hmaps
        have hlive : p ∈ m'.pages := (hmaps.live h.live).resolve_right fun hp => by
          cases hfree.symm.trans hp
        refine h.of_grows hm hm' hmaps.toGrows hlive fun n perm hp => ?_
        rw [hmaps.translation n (hm.level hmem)] at hp
        split_ifs at hp with hplace
        · cases hp
          rw [hplace.2, Region.number_of_videoBuffer hregion]
          exact .inr (hbuffer rfl)
        · exact .inl hp
    | unmapped => exact h
  · rintro err m' - - ⟨hm, h⟩ ⟨a', hx⟩
    refine h.of_grows hm (hm.of_extends hx) hx.toGrows (hx.live h.live) fun n perm hp => .inl ?_
    rw [← hp]
    exact (hx.translation n (hm.level hmem)).symm

end Ept

namespace Guest

open Hypervisor.Action Memory Ept

variable {m : Memory} {e : Estate} {r p : Hpa} {ws : PageWords} {L : PageNumber → Permission → Prop}
  {F : Panic → Prop} {g : Guest}

/-- Whatever is done on behalf of a guest leaves alone what is lent to it, if that is nowhere where the
guest is handed its memory map. -/
theorem Lodged.housed_lent (hg : g.Lodged r e False) (hmap : ∀ perm, ¬L MemoryMap.number perm)
    (hbuffer : p = ⟨videoBuffer⟩ → L Region.bufferNumber Permission.full) :
    g.Housed r (·.Lent e r p ws L) := by
  refine {
    root := hg.root
    balanced := ?balanced
    live := ?live
    own := ?own
    leaf := ?leaf
    fault := fun gpa => onAccess_lent hg.root hg.mem g.physSize gpa hbuffer }
  case balanced =>
    intro m h
    obtain ⟨a, hm⟩ := h.owned
    exact ⟨a, hm.balanced, hm.level hg.mem⟩
  case live =>
    intro m q h hq
    obtain ⟨a, hm⟩ := h.owned
    exact hm.other_live (hg.own q hq)
  case own =>
    intro m q f h hq
    obtain ⟨a, hm⟩ := h.owned
    refine h.edited hm hg.mem f (hm.other (hg.own _ hq)) fun he => h.unowned.2 ?_
    rw [← he]
    exact hg.own _ hq
  case leaf =>
    intro m q perm f h hq
    obtain ⟨a, hm⟩ := h.owned
    have hpage := Address.pageDown_of_isPageAligned (hm.balanced.page (hm.target_live hg.mem hq)).1
    refine h.edited hm hg.mem f ?_ ?_
    · rw [hpage]
      exact (hm.separate hg.mem hq).1
    · rw [hpage]
      rintro rfl
      exact hmap perm (h.leaves _ perm hq)

/-- A caller has a page mapped, which may be the page itself only where that is allowed. -/
theorem Lodged.mapFromHost_lent (hg : g.Lodged r e False) {source : Hva} {writable : Bool} {gpa : Gpa}
    {perm : Permission}
    (hsource : ∀ q, m.physical? source = some q → m.Unowned e q.pageDown)
    (hnew : m.physical? source = some p → (perm.contains Permission.write = true → writable = true) →
      L gpa.number perm) :
    (g.mapFromHost source writable gpa perm).Safe F m (m.Lent e r p ws L)
      (fun _ m' => m'.Lent e r p ws L) fun _ m' => m'.Lent e r p ws L := by
  refine Safe.require_bind (fun hrequired => Safe.mapError ?_) fun _ _ h => h
  have hwrite : perm.contains Permission.write = true → writable = true := by
    intro hw
    simp only [Bool.and_eq_true, Bool.or_eq_true, hw] at hrequired
    simpa using hrequired.2
  refine safe_lent fun a => (Ept.map_safe (a := a) hg.root source gpa perm false).mono
    (fun _ h => ⟨h.1.balanced, h.1.level hg.mem⟩) ?_ ?_
  · rintro _ m' - - ⟨hm, h⟩ ⟨a', q, hq, hlive, hfree, hmaps⟩
    have hunowned := hsource q hq
    rw [Address.pageDown_of_isPageAligned (hm.balanced.page hlive).1] at hunowned
    have hm' := hm.of_maps hlive (hm.level_of_unowned hunowned) hunowned.2 False.elim hmaps
    have hlive' : p ∈ m'.pages := (hmaps.live h.live).resolve_right fun hp => by
      rcases hfree with hnone | hover
      · cases hnone.symm.trans hp
      · cases hover
    refine h.of_grows hm hm' hmaps.toGrows hlive' fun n perm' hp => ?_
    rw [hmaps.translation n (hm.level hg.mem)] at hp
    split_ifs at hp with hplace
    · cases hp
      rw [hplace.2]
      exact .inr (hnew hq hwrite)
    · exact .inl hp
  · rintro err m' - - ⟨hm, h⟩ ⟨a', hx⟩
    refine h.of_grows hm (hm.of_extends hx) hx.toGrows (hx.live h.live) fun n perm' hp => .inl ?_
    rw [← hp]
    exact (hx.translation n (hm.level hg.mem)).symm

end Guest

end Hypervisor
