import Hypervisor.Proofs.Ownership.Session

/-!
# Pages in a role stay as they are

The pages that a guest owns have a role, and no table maps them.  Whatever is done on behalf of a guest,
its own pages apart, writes to tables, to new pages and to pages that are mapped, so it leaves every
page in a role alone.
-/

namespace Hypervisor

namespace Memory

/-- Memory is sound, and some pages are as they were in `m₀`. -/
structure Preserves (m₀ : Memory) (ps : Set Hpa) (e : Estate) (m : Memory) : Prop where
  fits : m₀.Fits
  owned : m.Owned e False
  words : ∀ p ∈ ps, m.words p = m₀.words p

variable {m₀ m m' : Memory} {ps : Set Hpa} {e : Estate} {a a' : Account} {q : Hpa}

namespace Preserves

theorem refl (hf : m.Fits) (h : m.Owned e False) : m.Preserves ps e m := ⟨hf, h, fun _ _ => rfl⟩

theorem of_grows (h : m₀.Preserves ps e m) (hps : ∀ p ∈ ps, p ∈ e.others) (hm : m.Sound e False a)
    (hm' : m'.Sound e False a') (hx : m.Grows a m' a') : m₀.Preserves ps e m' where
  fits := h.fits
  owned := ⟨a', hm'⟩
  words := fun p hp => by
    have hrole := hps p hp
    rw [hx.words (hm.other_live hrole) (hm'.other_live hrole) (hm.other hrole)]
    exact h.words p hp

theorem edited (h : m₀.Preserves ps e m) (hps : ∀ p ∈ ps, p ∈ e.others) (hm : m.Sound e False a)
    (f : PageWords → PageWords) (hlevel : a.level q.pageDown = none) (hq : q.pageDown ∉ ps) :
    m₀.Preserves ps e (m.edited q f) where
  fits := h.fits
  owned := ⟨a, hm.edited hlevel⟩
  words := fun p hp => by
    rw [words_edited_of_ne f, h.words p hp]
    rw [hm.other_pageDown (hps p hp)]
    rintro rfl
    exact hq hp

end Preserves

end Memory

namespace Ept

open Hypervisor.Action Memory

variable {m₀ m : Memory} {ps : Set Hpa} {e : Estate} {r : Hpa} {F : Panic → Prop} {tab : Ept}
  {gpa : Gpa}

theorem onAccess_preserves (hroot : tab.root = some r) (hmem : r ∈ e.roots)
    (hps : ∀ p ∈ ps, p ∈ e.others) (physSize : UInt64) :
    (tab.onAccess physSize gpa).Safe F m (m₀.Preserves ps e m) (fun _ m' => m₀.Preserves ps e m')
      (fun _ m' => m₀.Preserves ps e m') := by
  refine (Safe.exists (R := fun a => m.Sound e False a ∧ m₀.Preserves ps e m)
    fun a => ?_).assume fun _ h => ?_
  · refine (onAccess_safe (a := a) hroot physSize).mono
      (fun _ h => ⟨h.1.balanced, h.1.level hmem, h.1.buffer_live⟩) ?_ ?_
    · rintro fault m' - - ⟨hm, h⟩ ⟨a', haccess⟩
      cases haccess with
      | ram _ hpop => exact h.of_grows hps hm (hm.of_populates False.elim hpop) hpop.toGrows
      | videoBuffer _ _ hmaps =>
          have hbuffer := hm.of_maps hm.buffer_live hm.buffer hm.buffer_notMem_others False.elim hmaps
          exact h.of_grows hps hm hbuffer hmaps.toGrows
      | unmapped => exact h
    · rintro err m' - - ⟨hm, h⟩ ⟨a', hx⟩
      exact h.of_grows hps hm (hm.of_extends hx) hx.toGrows
  · obtain ⟨a, hm⟩ := h.owned
    exact ⟨a, hm, h⟩

end Ept

namespace Guest

open Memory

variable {m₀ : Memory} {ps : Set Hpa} {e : Estate} {g : Guest} {r : Hpa}

/-- Pages in a role stay while the guest is served, be they its own. -/
theorem Lodged.visited_preserves (hg : g.Lodged r e False) (hps : ∀ p ∈ ps, p ∈ e.others) :
    g.Visited r (m₀.Preserves ps e) where
  root := hg.root
  balanced := fun h => by
    obtain ⟨a, hm⟩ := h.owned
    exact ⟨a, hm.balanced, hm.level hg.mem⟩
  live := fun h hp => by
    obtain ⟨a, hm⟩ := h.owned
    exact hm.other_live (hg.own _ hp)
  leaf := fun f h hp => by
    obtain ⟨a, hm⟩ := h.owned
    have hpage := Address.pageDown_of_isPageAligned (hm.balanced.page (hm.target_live hg.mem hp)).1
    refine h.edited hps hm f ?_ ?_
    · rw [hpage]
      exact (hm.separate hg.mem hp).1
    · rw [hpage]
      exact fun hmem => (hm.separate hg.mem hp).2 (hps _ hmem)
  fault := fun _ => Ept.onAccess_preserves hg.root hg.mem hps g.physSize

theorem Lodged.housed_preserves (hg : g.Lodged r e False) (hps : ∀ p ∈ ps, p ∈ e.others)
    (hown : ∀ m : Memory, m.Owned e False → ∀ p ∈ g.ownPages, p ∉ ps) :
    g.Housed r (m₀.Preserves ps e) where
  toVisited := hg.visited_preserves hps
  own := fun f h hp => by
    obtain ⟨a, hm⟩ := h.owned
    exact h.edited hps hm f (hm.other (hg.own _ hp)) (hown _ h.owned _ hp)

end Guest

end Hypervisor
