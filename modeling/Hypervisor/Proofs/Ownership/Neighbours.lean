import Hypervisor.Proofs.Ownership.Session

/-!
# Guests side by side

A guest holds its own pages and those that its table maps.  As long as another guest has none of these
where it is handed its memory map, nothing that is done on behalf of the other guest reaches them: the
other guest has pages of its own, its faults are backed by new pages or by the text buffer, and only
tables and pages in other roles change when it is freed.
-/

namespace Hypervisor

namespace Memory

def Holds (m : Memory) (w : Guest) (s p : Hpa) : Prop :=
  p ∈ w.ownPages ∨ ∃ n perm, m.translation s n = some (p, perm)

/-- What the guest with the root `s` holds is as it was in `m₀`. -/
structure Spares (m₀ : Memory) (w : Guest) (s : Hpa) (m : Memory) : Prop where
  balanced : ∃ a, m₀.Balanced a ∧ a.level s = some 3
  translation : ∀ n, m.translation s n = m₀.translation s n
  words : ∀ {p}, m₀.Holds w s p → m.words p = m₀.words p

variable {m₀ m m' : Memory} {e e' : Estate} {I I' : Prop} {a a' : Account} {g w : Guest}
  {r s p q : Hpa}

theorem Spares.refl (hm : m.Sound e I a) (hw : w.Lodged s e I) : m.Spares w s m :=
  ⟨⟨a, hm.balanced, hm.level hw.mem⟩, fun _ => rfl, fun _ => rfl⟩

theorem Spares.holds (h : m₀.Spares w s m) : m.Holds w s p ↔ m₀.Holds w s p := by
  simp only [Holds, h.translation]

namespace Sound

theorem holds_live (h : m.Sound e I a) (hw : w.Lodged s e I') (hp : m.Holds w s p) :
    p ∈ m.pages := by
  rcases hp with hown | ⟨n, perm, hmap⟩
  · exact h.other_live (hw.own p hown)
  · exact h.target_live hw.mem hmap

theorem level_of_holds (h : m.Sound e I a) (hw : w.Lodged s e I') (hp : m.Holds w s p) :
    a.level p = none := by
  rcases hp with hown | ⟨n, perm, hmap⟩
  · exact h.other (hw.own p hown)
  · exact (h.separate hw.mem hmap).1

theorem holds_pageDown (h : m.Sound e I a) (hw : w.Lodged s e I') (hp : m.Holds w s p) :
    p.pageDown = p :=
  Address.pageDown_of_isPageAligned (h.balanced.page (h.holds_live hw hp)).1

end Sound

namespace Spares

/-- A step that leaves alone what the table maps, and what is in pages that are no tables. -/
theorem step (h : m₀.Spares w s m) (hm : m.Sound e I a) (hw : w.Lodged s e I)
    (hm' : m'.Sound e' I' a') (hw' : w.Lodged s e' I')
    (htranslation : ∀ n, m'.translation s n = m.translation s n)
    (hwords : ∀ {p}, p ∈ m.pages → p ∈ m'.pages → a.level p = none → m'.words p = m.words p) :
    m₀.Spares w s m' := by
  refine ⟨h.balanced, fun n => (htranslation n).trans (h.translation n), fun {p} hp => ?_⟩
  have hnow : m.Holds w s p := h.holds.2 hp
  have hthen : m'.Holds w s p := by
    simpa only [Holds, htranslation] using hnow
  rw [hwords (hm.holds_live hw hnow) (hm'.holds_live hw' hthen) (hm.level_of_holds hw hnow)]
  exact h.words hp

theorem edited (h : m₀.Spares w s m) (hm : m.Sound e I a) (hw : w.Lodged s e I)
    (f : PageWords → PageWords) (hlevel : a.level q.pageDown = none) (hq : ¬m₀.Holds w s q.pageDown) :
    m₀.Spares w s (m.edited q f) := by
  refine ⟨h.balanced, fun n => ?_, fun {p} hp => ?_⟩
  · rw [← h.translation n]
    exact hm.balanced.translation_eq (fun _ _ => hm.balanced.words_edited f hlevel) (hm.level hw.mem)
  · rw [words_edited_of_ne f, h.words hp]
    rw [hm.holds_pageDown hw (h.holds.2 hp)]
    rintro rfl
    exact hq hp

end Spares

theorem Sound.not_holds_own (hm : m.Sound (e.lodge g) I a) (hw : w.Lodged s e I)
    (hq : q ∈ g.ownPages) : ¬m.Holds w s q := by
  have hmem : q ∈ (e.lodge g).others := Multiset.mem_add.2 (.inl hq)
  rintro (hown | ⟨n, perm, hmap⟩)
  · have hle : (e.lodge g).others ≤ (e.lodge g).roles :=
      (Multiset.le_add_left _ _).trans (Multiset.le_cons_self _ _)
    have hnodup : (g.ownPages + e.others : Multiset Hpa).Nodup := Multiset.nodup_of_le hle hm.nodup
    exact Multiset.disjoint_left.1 (Multiset.nodup_add.1 hnodup).2.2 hq (hw.own q hown)
  · exact (hm.separate (Multiset.mem_add.2 (.inr hw.mem)) hmap).2 hmem

theorem Sound.root_notMem (hm : m.Sound (e.lodge g) I a) (hr : g.table.root = some r) :
    r ∉ e.roots := by
  intro hmem
  have hnodup := hm.nodup
  rw [Estate.lodge_eq hr, Estate.roles_plant, Multiset.nodup_cons, Estate.mem_roles] at hnodup
  exact hnodup.1 (.inr (.inl hmem))

structure Beside (m₀ : Memory) (w : Guest) (s r : Hpa) (e : Estate) (m : Memory) : Prop where
  owned : m.Owned e False
  spares : m₀.Spares w s m
  apart : ∀ p perm, m.translation r (⟨Layout.memoryMap⟩ : Gpa).number = some (p, perm) →
    ¬m₀.Holds w s p

namespace Beside

theorem edited (h : m₀.Beside w s r e m) (hm : m.Sound e False a) (hr : r ∈ e.roots)
    (hw : w.Lodged s e False) (f : PageWords → PageWords) (hlevel : a.level q.pageDown = none)
    (hq : ¬m₀.Holds w s q.pageDown) : m₀.Beside w s r e (m.edited q f) where
  owned := ⟨a, hm.edited hlevel⟩
  spares := h.spares.edited hm hw f hlevel hq
  apart := fun p perm hp => by
    refine h.apart p perm ?_
    rw [← hp]
    have htables : ∀ t k, a.level t = some k → (m.edited q f).words t = m.words t :=
      fun _ _ => hm.balanced.words_edited f hlevel
    exact (hm.balanced.translation_eq htables (hm.level hr)).symm

theorem of_grows (h : m₀.Beside w s r e m) (hm : m.Sound e False a) (hw : w.Lodged s e False)
    (hm' : m'.Sound e False a') (hx : m.Grows a m' a')
    (htranslation : ∀ n, m'.translation s n = m.translation s n)
    (hmap : ∀ {p perm}, m'.translation r (⟨Layout.memoryMap⟩ : Gpa).number = some (p, perm) →
      p ∉ m.pages ∨ m.translation r (⟨Layout.memoryMap⟩ : Gpa).number = some (p, perm)) :
    m₀.Beside w s r e m' where
  owned := ⟨a', hm'⟩
  spares := h.spares.step hm hw hm' hw htranslation hx.words
  apart := fun p perm hp hheld => by
    cases hmap hp with
    | inl hfree => exact hfree (hm.holds_live hw (h.spares.holds.2 hheld))
    | inr hold => exact h.apart p perm hold hheld

end Beside

end Memory

namespace Ept

open Hypervisor.Action Memory

variable {m₀ m : Memory} {e : Estate} {w : Guest} {r s : Hpa} {F : Panic → Prop} {tab : Ept}
  {gpa : Gpa}

/-- A fault of a guest leaves alone what its neighbour holds. -/
theorem onAccess_beside (hroot : tab.root = some r) (hmem : r ∈ e.roots) (hw : w.Lodged s e False)
    (hne : s ≠ r) (physSize : UInt64) :
    (tab.onAccess physSize gpa).Safe F m (m₀.Beside w s r e m) (fun _ m' => m₀.Beside w s r e m')
      (fun _ m' => m₀.Beside w s r e m') := by
  refine (Safe.exists (R := fun a => m.Sound e False a ∧ m₀.Beside w s r e m)
    fun a => ?_).assume fun _ h => ?_
  · refine (onAccess_safe (a := a) hroot physSize).mono
      (fun _ h => ⟨h.1.balanced, h.1.level hmem, h.1.buffer_live⟩) ?_ ?_
    · rintro fault m' - - ⟨hm, hb⟩ ⟨a', haccess⟩
      cases haccess with
      | ram _ hpop =>
          refine hb.of_grows hm hw (hm.of_populates False.elim hpop) hpop.toGrows
            (fun n => hpop.others n (hm.level hw.mem) hne) fun {p perm} hp => ?_
          by_cases hn : (⟨Layout.memoryMap⟩ : Gpa).number ∈ ({gpa.number} : Set PageNumber)
          · obtain ⟨-, q, hq, hnew⟩ := hpop.inside hn
            cases hnew.symm.trans hp
            exact .inl hq
          · rw [hpop.outside hn] at hp
            exact .inr hp
      | videoBuffer hregion _ hmaps =>
          have hbuffer := hm.of_maps hm.buffer_live hm.buffer hm.buffer_notMem_others False.elim hmaps
          refine hb.of_grows hm hw hbuffer hmaps.toGrows (fun n => ?_) fun {p perm} hp => ?_
          · rw [hmaps.translation n (hm.level hw.mem), if_neg fun hboth => hne hboth.1]
          · have hplace : (⟨Layout.memoryMap⟩ : Gpa).number ≠ gpa.number := by
              rw [Region.number_of_videoBuffer hregion]
              decide
            rw [hmaps.translation _ (hm.level hmem), if_neg fun hboth => hplace hboth.2] at hp
            exact .inr hp
      | unmapped => exact hb
    · rintro err m' - - ⟨hm, hb⟩ ⟨a', hx⟩
      refine hb.of_grows hm hw (hm.of_extends hx) hx.toGrows
        (fun n => hx.translation n (hm.level hw.mem)) fun {p perm} hp => .inr ?_
      rw [← hp]
      exact (hx.translation _ (hm.level hmem)).symm
  · obtain ⟨a, hm⟩ := h.owned
    exact ⟨a, hm, h⟩

end Ept

namespace Guest

open Memory

variable {m₀ : Memory} {e : Estate} {g w : Guest} {r s : Hpa}

theorem Lodged.of_le {e' : Estate} {I : Prop} (hw : w.Lodged s e I) (hroots : e.roots ≤ e'.roots)
    (hothers : e.others ≤ e'.others) : w.Lodged s e' I where
  root := hw.root
  mem := Multiset.mem_of_le hroots hw.mem
  own := fun p hp => Multiset.mem_of_le hothers (hw.own p hp)
  size := hw.size

theorem Lodged.lodge {I : Prop} (hw : w.Lodged s e I) : w.Lodged s (e.lodge g) I :=
  hw.of_le (Multiset.le_add_left _ _) (Multiset.le_add_left _ _)

theorem Lodged.onAccess_beside (hw : w.Lodged s e False) (hr : g.table.root = some r) {m : Memory}
    {F : Panic → Prop} (physSize : UInt64) (gpa : Gpa) :
    (g.table.onAccess physSize gpa).Safe F m (m₀.Beside w s r (e.lodge g) m)
      (fun _ m' => m₀.Beside w s r (e.lodge g) m') fun _ m' => m₀.Beside w s r (e.lodge g) m' := by
  have hmem : r ∈ (e.lodge g).roots := Estate.mem_roots_lodge hr
  by_cases hne : s = r
  · have hnever : ¬m₀.Beside w s r (e.lodge g) m := fun ⟨⟨_, hm⟩, _, _⟩ =>
      hm.root_notMem hr (hne ▸ hw.mem)
    exact (Ept.onAccess_owned hr hmem physSize False.elim).mono (fun _ h => h.owned)
      (fun _ _ _ _ h => absurd h hnever) fun _ _ _ _ h => absurd h hnever
  · exact Ept.onAccess_beside hr hmem hw.lodge hne physSize

/-- Whatever is done on behalf of a guest leaves alone what its neighbour holds. -/
theorem Lodged.housed_beside (hw : w.Lodged s e False) (hr : g.table.root = some r) :
    g.Housed r (m₀.Beside w s r (e.lodge g)) := by
  have hmem : r ∈ (e.lodge g).roots := Estate.mem_roots_lodge hr
  have hown : ∀ {p}, p ∈ g.ownPages → p ∈ (e.lodge g).others :=
    fun hp => Multiset.mem_add.2 (.inl hp)
  refine {
    root := hr
    balanced := ?balanced
    live := fun ⟨⟨_, hm⟩, _, _⟩ hp => hm.other_live (hown hp)
    own := ?own
    leaf := ?leaf
    fault := fun gpa => hw.onAccess_beside hr g.physSize gpa }
  case balanced =>
    rintro m ⟨⟨a, hm⟩, -, -⟩
    exact ⟨a, hm.balanced, hm.level hmem⟩
  case own =>
    rintro m p f h hp
    obtain ⟨a, hm⟩ := h.owned
    refine h.edited hm hmem hw.lodge f (hm.other (hown hp)) fun hheld => ?_
    exact hm.not_holds_own hw hp (h.spares.holds.2 hheld)
  case leaf =>
    rintro m p perm f h hp
    obtain ⟨a, hm⟩ := h.owned
    have haligned := (hm.balanced.page (hm.target_live hmem hp)).1
    have hpage := Address.pageDown_of_isPageAligned haligned
    refine h.edited hm hmem hw.lodge f ?_ ?_
    · rw [hpage]
      exact (hm.separate hmem hp).1
    · rw [hpage]
      exact h.apart p perm hp

end Guest

namespace Memory

variable {m₀ : Memory} {e : Estate} {w : Guest} {s : Hpa}

theorem spares_lasts (hw : w.Lodged s e False) : Lasts (m₀.Spares w s) e False := by
  intro m a l p hm h
  have hafter := hm.giveBack
  have hw' : w.Lodged s (e.giveAll l) False := hw.of_le le_rfl (Multiset.le_add_left _ _)
  have hw₀ : w.Lodged s ((e.giveAll l).give p) False := hw'.of_le le_rfl (Multiset.le_cons_self _ _)
  refine h.step hm hw₀ hafter hw' (fun n => ?_) fun {q} _ hq _ => ?_
  · refine hm.balanced.translation_eq (fun t k ht => words_released ?_) (hm.level hw₀.mem)
    exact hafter.balanced.table_pageDown_live (k := k) ht
  · refine words_released ?_
    rwa [Address.pageDown_of_isPageAligned (hafter.balanced.page hq).1]

end Memory

namespace Host

open Memory

variable {e : Estate} {g w : Guest} {r s : Hpa} {F : Panic → Prop} {h : Host}

theorem freeGuest_beside (m₀ : Memory) (hw : w.Lodged s e False) (hr : g.table.root = some r) :
    (freeGuest g).Safe F h (h.memory.Owned (e.lodge g) False ∧ m₀.Spares w s h.memory)
      (fun _ h' => h'.memory.Owned e False ∧ m₀.Spares w s h'.memory)
      (fun _ h' => h'.memory.Owned e False ∧ m₀.Spares w s h'.memory) := by
  refine freeGuest_lasts hr (spares_lasts hw) fun {m m' a} hm hdown hs => ?_
  obtain ⟨a', hm', -⟩ := hm.of_tornDown hdown
  obtain ⟨a'', hx, -⟩ := hdown
  refine hs.step hm hw.lodge hm' hw.lodge (fun n => ?_) fun _ hp' hlevel => hx.words hp' hlevel
  refine hx.translation n (hm.level hw.lodge.mem) fun he => hm.root_notMem hr ?_
  rw [← he]
  exact hw.mem

end Host

end Hypervisor
