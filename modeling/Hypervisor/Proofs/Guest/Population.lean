import Hypervisor.Guest.Population
import Hypervisor.Proofs.Ept.Mapping
import Hypervisor.Proofs.Memory.Growth
import Mathlib.Order.CompletePartialOrder

/-!
# Backing guest memory

Backing a page maps a new page of zeros, to which the leaf has the only reference.  When it fails,
the new page is given back and nothing mapped has changed; when a range of pages is backed, those
before the failure stay.
-/

namespace Hypervisor

namespace Memory

variable {m m₁ m₂ m' : Memory} {a a₁ a₂ a' : Account} {p root : Hpa} {k : Nat} {n : PageNumber}
  {S S' : Set PageNumber}

/-- The page numbers in `S` are mapped to new pages, and all else is mapped and referred to as
before. -/
structure Populates (m : Memory) (a : Account) (root : Hpa) (S : Set PageNumber) (m' : Memory)
    (a' : Account) : Prop extends Keeps m a m' a' where
  inside : ∀ {n}, n ∈ S → m.translation root n = none ∧
    ∃ p, p ∉ m.pages ∧ m'.translation root n = some (p, Permission.full)
  outside : ∀ {n}, n ∉ S → m'.translation root n = m.translation root n
  others : ∀ {r} n, a.level r = some 3 → r ≠ root → m'.translation r n = m.translation r n
  zero : ∀ {n p perm}, n ∈ S → m'.translation root n = some (p, perm) → m'.words p = .zero

/-- Besides, every new table is on the path of one of the page numbers. -/
structure Fills (m : Memory) (a : Account) (root : Hpa) (S : Set PageNumber) (m' : Memory)
    (a' : Account) : Prop extends Populates m a root S m' a' where
  tables : ∀ {q j}, a'.level q = some j →
    a.level q = some j ∨ ∃ n ∈ S, m'.tableFrom n j 3 root = some q

namespace Populates

theorem of_extends (h : m.Extends a m' a') (hroot : a.level root = some 3) :
    m.Populates a root ∅ m' a' where
  toKeeps := h.toKeeps
  inside := fun hn => hn.elim
  outside := fun _ => h.translation _ hroot
  others := fun n hr _ => h.translation n hr
  zero := fun hn => hn.elim

theorem trans (hb : m.Balanced a) (hroot : a.level root = some 3) (h : m.Populates a root S m₁ a₁)
    (h' : m₁.Populates a₁ root S' m₂ a₂) : m.Populates a root (S ∪ S') m₂ a₂ where
  toKeeps := h.toKeeps.trans h'.toKeeps
  inside := fun {n} hn => by
    by_cases hS : n ∈ S
    · obtain ⟨hnone, p, hp, hmap⟩ := h.inside hS
      refine ⟨hnone, p, hp, ?_⟩
      have hS' : n ∉ S' := by
        intro hS'
        rw [(h'.inside hS').1] at hmap
        cases hmap
      rw [h'.outside hS', hmap]
    · obtain ⟨hnone, p, hp, hmap⟩ := h'.inside (hn.resolve_left hS)
      rw [h.outside hS] at hnone
      exact ⟨hnone, p, fun hmem => hp (h.live hmem), hmap⟩
  outside := fun {n} hn => by
    rw [h'.outside fun hS' => hn (.inr hS'), h.outside fun hS => hn (.inl hS)]
  others := fun {r} n hr hne => by
    rw [h'.others n (h.level_eq hb hr) hne, h.others n hr hne]
  zero := fun {n p perm} hn hp => by
    by_cases hS' : n ∈ S'
    · exact h'.zero hS' hp
    · have hS := hn.resolve_right hS'
      rw [h'.outside hS'] at hp
      obtain ⟨-, q, hq, hmap⟩ := h.inside hS
      cases hmap.symm.trans hp
      have hroot₁ := h.level_eq hb hroot
      have hlevel := h.balanced.level_of_single (h.fresh hq) hroot₁ hp
      have hlive := h.balanced.translation_live hroot₁ hp
      rw [h'.words hlive (h'.live hlive) hlevel]
      exact h.zero hS hp

theorem disjoint (h : m.Populates a root S m₁ a₁) (h' : m₁.Populates a₁ root S' m₂ a₂) :
    Disjoint S S' := by
  refine Set.disjoint_left.2 fun n hS hS' => ?_
  obtain ⟨-, p, -, hmap⟩ := h.inside hS
  rw [(h'.inside hS').1] at hmap
  cases hmap

end Populates

namespace Fills

theorem refl (hb : m.Balanced a) (hroot : a.level root = some 3) : m.Fills a root ∅ m a where
  toPopulates := .of_extends (.refl hb) hroot
  tables := fun hq => .inl hq

theorem trans (hb : m.Balanced a) (hroot : a.level root = some 3) (h : m.Fills a root S m₁ a₁)
    (h' : m₁.Fills a₁ root S' m₂ a₂) : m.Fills a root (S ∪ S') m₂ a₂ where
  toPopulates := h.toPopulates.trans hb hroot h'.toPopulates
  tables := fun hq => by
    rcases h'.tables hq with hold | ⟨n, hn, hpath⟩
    · refine (h.tables hold).imp id fun ⟨n, hn, hpath⟩ => ⟨n, .inl hn, ?_⟩
      exact h'.tableFrom h.balanced (h.level_eq hb hroot) hpath
    · exact .inr ⟨n, .inr hn, hpath⟩

end Fills

/-- A page that is held while tables grow is not seen in the end. -/
theorem Grows.scoped (hb : m.Balanced a) (hm : m.Allocates m₁ p)
    (h : m₁.Grows (a.hold p) m₂ a₂) (htwo : m₂.refs p ≤ 2) :
    m.Grows a (m₂.released p) (a₂.drop p) := by
  have hfree : p ∉ m.pages := hb.next_notMem hm.address
  have hne : ∀ {q}, q ∈ m.pages → q ≠ p := fun hq he => hfree (he ▸ hq)
  have hmem : p ∈ m₁.pages := hm.mem.2 (.inl rfl)
  have hheld : a₂.held p = a.held p + 1 := by
    rw [h.held]
    simp [Account.hold]
  have hlevel : a₂.level p = none := by
    rw [h.level hmem]
    exact hb.level_of_notMem hfree
  have hbalanced := h.balanced.released (p := p) (by omega) fun k hk _ => by
    cases hlevel.symm.trans hk
  refine ⟨hbalanced, ?_, h.idle, ?_, ?_, h.rooted, ?_, ?_⟩
  · funext q
    show a₂.held q - _ = _
    rw [h.held]
    simp only [Account.hold]
    omega
  · intro q hq
    exact h.level (hm.mem.2 (.inr hq))
  · intro q hq
    exact h.parent (hm.mem.2 (.inr hq))
  · intro q hq
    rw [refs_released]
    by_cases he : q = p
    · subst q
      rw [if_pos rfl]
      omega
    · rw [if_neg he]
      have hq₁ : q ∉ m₁.pages := by
        rw [hm.mem, not_or]
        exact ⟨he, hq⟩
      exact h.fresh hq₁
  · intro q hq hq' hnone
    have hqa := Address.pageDown_of_isPageAligned (hb.page hq).1
    rw [words_released (by rw [hqa]; exact hq')]
    rw [h.words (hm.mem.2 (.inr hq)) (mem_released.1 hq').1 hnone, hm.words, hqa, if_neg (hne hq)]

theorem Balanced.translation_allocates (hb : m.Balanced a) (hm : m.Allocates m₁ p) {t : Hpa}
    (ht : a.level t = some k) : m₁.translationFrom n k t = m.translationFrom n k t := by
  have hfree : p ∉ m.pages := hb.next_notMem hm.address
  refine hb.translation_eq (fun t k ht => ?_) ht
  have hne : t ≠ p := fun he => hfree (he ▸ hb.table_live ht)
  rw [hm.words, Address.pageDown_of_isPageAligned (hb.table_aligned ht), if_neg hne]

theorem Grows.translation_scoped (hb : m.Balanced a) (hm : m.Allocates m₁ p)
    (h : m₁.Grows (a.hold p) m₂ a₂) (htwo : m₂.refs p ≤ 2) {t : Hpa} (ht : a.level t = some k) :
    (m₂.released p).translationFrom n k t = m₂.translationFrom n k t ∧
      m₁.translationFrom n k t = m.translationFrom n k t := by
  have hscoped := h.scoped hb hm htwo
  have ht₂ : a₂.level t = some k := by
    rw [h.level (hm.mem.2 (.inr (hb.table_live ht)))]
    exact ht
  refine ⟨h.balanced.translation_eq (fun t k ht => words_released ?_) ht₂,
    hb.translation_allocates hm ht⟩
  exact hscoped.balanced.table_pageDown_live ht

theorem Extends.scoped (hb : m.Balanced a) (hm : m.Allocates m₁ p)
    (h : m₁.Extends (a.hold p) m₂ a₂) : m.Extends a (m₂.released p) (a₂.drop p) := by
  have hfree : p ∉ m.pages := hb.next_notMem hm.address
  have hmem : p ∈ m₁.pages := hm.mem.2 (.inl rfl)
  have hrefs : m₂.refs p ≤ 2 := by
    rw [h.refs hmem, hm.refs hfree, refs_eq_zero_of_notMem hfree, if_pos rfl]
    omega
  refine ⟨⟨h.toGrows.scoped hb hm hrefs, ?_, ?_⟩, ?_⟩
  · intro q hq
    have hne : q ≠ p := fun he => hfree (he ▸ hq)
    exact mem_released.2 ⟨h.live (hm.mem.2 (.inr hq)), fun hboth => hne hboth.1⟩
  · intro q hq
    have hne : q ≠ p := fun he => hfree (he ▸ hq)
    rw [refs_released, if_neg hne, h.refs (hm.mem.2 (.inr hq)), hm.refs hfree, if_neg hne]
    rfl
  · intro t k n ht
    obtain ⟨hafter, hbefore⟩ := h.toGrows.translation_scoped (n := n) hb hm hrefs ht
    rw [hafter, h.translation n ht, hbefore]

/-- A new page that is mapped has its leaf for the only reference. -/
theorem Maps.scoped (hb : m.Balanced a) (hm : m.Allocates m₁ p) (hroot : a.level root = some 3)
    (hnone : m₁.mapped root n = none)
    (h : m₁.Maps (a.hold p) root n p Permission.full m₂ a₂) :
    m.Fills a root {n} (m₂.released p) (a₂.drop p) := by
  have hfree : p ∉ m.pages := hb.next_notMem hm.address
  have hmem : p ∈ m₁.pages := hm.mem.2 (.inl rfl)
  have hp := h.refs hmem
  rw [hnone, hm.refs hfree, refs_eq_zero_of_notMem hfree] at hp
  simp only [reduceCtorEq, if_false, if_true] at hp
  have hrefs : m₂.refs p ≤ 2 := by omega
  have htranslation : ∀ {r} n', a.level r = some 3 → (m₂.released p).translation r n' =
      if r = root ∧ n' = n then some (p, Permission.full) else m.translation r n' := by
    intro r n' hr
    obtain ⟨hafter, hbefore⟩ := h.toGrows.translation_scoped (n := n') hb hm hrefs hr
    have hbefore' : m₁.translation r n' = m.translation r n' := hbefore
    rw [← hbefore', ← h.translation n' hr]
    exact hafter
  refine ⟨⟨⟨h.toGrows.scoped hb hm hrefs, ?_, ?_⟩, ?_, ?_, ?_, ?_⟩, ?_⟩
  · intro q hq
    have hne : q ≠ p := fun he => hfree (he ▸ hq)
    refine mem_released.2 ⟨?_, fun hboth => hne hboth.1⟩
    rcases h.live (hm.mem.2 (.inr hq)) with hlive | hold
    · exact hlive
    · rw [hnone] at hold
      cases hold
  · intro q hq
    have hne : q ≠ p := fun he => hfree (he ▸ hq)
    have hq₂ := h.refs (hm.mem.2 (.inr hq))
    rw [hnone, hm.refs hfree] at hq₂
    simp only [reduceCtorEq, hne, if_false, Nat.add_zero] at hq₂
    rw [refs_released, if_neg hne, hq₂]
    rfl
  · rintro n' rfl
    refine ⟨?_, p, hfree, ?_⟩
    · obtain ⟨-, hbefore⟩ := h.toGrows.translation_scoped (n := n') hb hm hrefs hroot
      rw [mapped, Option.map_eq_none_iff] at hnone
      exact hbefore.symm.trans hnone
    · rw [htranslation n' hroot, if_pos ⟨rfl, rfl⟩]
  · intro n' hn
    rw [htranslation n' hroot, if_neg fun hboth => hn hboth.2]
  · intro r n' hr hne
    rw [htranslation n' hr, if_neg fun hboth => hne hboth.1]
  · rintro n' q perm rfl hq
    rw [htranslation n' hroot, if_pos ⟨rfl, rfl⟩] at hq
    cases hq
    have hmem₂ : p ∈ m₂.pages := mem_of_refs_pos (by omega)
    have hpage := Address.pageDown_of_isPageAligned (h.balanced.page hmem₂).1
    have hlive : p ∈ (m₂.released p).pages := mem_released.2 ⟨hmem₂, fun hboth => by omega⟩
    rw [words_released (by rw [hpage]; exact hlive), h.words hmem hmem₂ (hb.level_of_notMem hfree),
      hm.words, hpage, if_pos rfl]
  · intro q j hq
    refine (h.tables hq).imp id fun hpath => ⟨n, rfl, ?_⟩
    rw [h.balanced.shape.tableFrom_congr (fun s i hs => entry_congr (words_released ?_))
      (h.level_eq (hb.allocates hm) hroot)]
    · exact hpath
    · exact (h.toGrows.scoped hb hm hrefs).balanced.table_pageDown_live hs

end Memory

namespace Region

theorem of_eq_ram {g : Gpa} {physSize : UInt64} : of g physSize = ram ↔
    g.val.toNat < 0xa0000 ∨ 0x100000 ≤ g.val.toNat ∧ g.val.toNat < physSize.toNat := by
  have hstart : g.val < Layout.holeStart ↔ g.val.toNat < 0xa0000 := UInt64.lt_iff_toNat_lt
  have hend : Layout.holeEnd ≤ g.val ↔ 0x100000 ≤ g.val.toNat := UInt64.le_iff_toNat_le
  have hsize : g.val < physSize ↔ g.val.toNat < physSize.toNat := UInt64.lt_iff_toNat_lt
  have hlow : Hypervisor.videoBuffer ≤ g.val ↔ 0xb8000 ≤ g.val.toNat := UInt64.le_iff_toNat_le
  have hhigh : g.val < Hypervisor.videoBuffer + pageSize ↔ g.val.toNat < 0xb9000 :=
    UInt64.lt_iff_toNat_lt
  simp only [of, Bool.and_eq_true, decide_eq_true_eq, hstart, hend, hsize, hlow, hhigh]
  split_ifs <;> simp <;> omega

theorem of_eq_videoBuffer {g : Gpa} {physSize : UInt64} : of g physSize = videoBuffer ↔
    0xb8000 ≤ g.val.toNat ∧ g.val.toNat < 0xb9000 := by
  have hstart : g.val < Layout.holeStart ↔ g.val.toNat < 0xa0000 := UInt64.lt_iff_toNat_lt
  have hlow : Hypervisor.videoBuffer ≤ g.val ↔ 0xb8000 ≤ g.val.toNat := UInt64.le_iff_toNat_le
  have hhigh : g.val < Hypervisor.videoBuffer + pageSize ↔ g.val.toNat < 0xb9000 :=
    UInt64.lt_iff_toNat_lt
  simp only [of, Bool.and_eq_true, decide_eq_true_eq, hstart, hlow, hhigh]
  split_ifs <;> simp <;> omega

/-- The numbers of the pages that hold memory of a guest of a given size. -/
def ramNumbers (physSize : UInt64) : Set PageNumber :=
  {n | ∃ g : Gpa, Space.guestPhysical.isValid g.val = true ∧ of g physSize = ram ∧ g.number = n}

theorem mem_ramNumbers {physSize : UInt64} {n : PageNumber} (hsize : physSize.toNat ≤ 2 ^ 48) :
    n ∈ ramNumbers physSize ↔
      n.toNat < 160 ∨ 256 ≤ n.toNat ∧ n.toNat * 4096 < physSize.toNat := by
  have hn := n.isLt
  constructor
  · rintro ⟨g, -, hram, rfl⟩
    rw [Address.toNat_number]
    rcases of_eq_ram.1 hram with hg | hg <;> omega
  · intro h
    have hval : (UInt64.ofNat (n.toNat * 4096)).toNat = n.toNat * 4096 := by
      rw [UInt64.toNat_ofNat']
      omega
    refine ⟨⟨UInt64.ofNat (n.toNat * 4096)⟩, ?_, of_eq_ram.2 ?_, BitVec.eq_of_toNat_eq ?_⟩
    · simp only [Space.isValid, decide_eq_true_eq]
      refine UInt64.lt_iff_toNat_lt.2 ?_
      rw [hval, show (0xffff000000000000 : UInt64).toNat = 0xffff000000000000 from rfl]
      omega
    · show (UInt64.ofNat (n.toNat * 4096)).toNat < _ ∨ _ ≤ (UInt64.ofNat (n.toNat * 4096)).toNat ∧ _
      rw [hval]
      omega
    · rw [Address.toNat_number, hval]
      omega

theorem ncard_ramNumbers {physSize : UInt64} (hsize : physSize.toNat ≤ 2 ^ 48)
    (haligned : physSize.toNat % 4096 = 0) :
    (ramNumbers physSize).ncard = 160 + (physSize.toNat / 4096 - 256) := by
  have himage : BitVec.toNat '' ramNumbers physSize =
      ↑(Finset.range 160 ∪ Finset.Ico 256 (physSize.toNat / 4096)) := by
    ext i
    simp only [Set.mem_image, mem_ramNumbers hsize, Finset.coe_union, Set.mem_union, Finset.coe_range,
      Set.mem_Iio, Finset.coe_Ico, Set.mem_Ico]
    constructor
    · rintro ⟨n, hn, rfl⟩
      omega
    · intro hi
      have hlt : i < 2 ^ 36 := by omega
      refine ⟨BitVec.ofNat 36 i, ?_, by simpa using hlt⟩
      rw [BitVec.toNat_ofNat, Nat.mod_eq_of_lt hlt]
      omega
  have hdisjoint : Disjoint (Finset.range 160) (Finset.Ico 256 (physSize.toNat / 4096)) := by
    refine Finset.disjoint_left.2 fun i hlow hhigh => ?_
    rw [Finset.mem_range] at hlow
    rw [Finset.mem_Ico] at hhigh
    omega
  rw [← Set.ncard_image_of_injective _ fun _ _ h => BitVec.eq_of_toNat_eq h, himage,
    Set.ncard_coe_finset, Finset.card_union_of_disjoint hdisjoint, Finset.card_range, Nat.card_Ico]
end Region

namespace Ept

open Hypervisor.Action Memory

variable {F : Panic → Prop} {m : Memory} {a : Account} {g : Gpa} {tab : Ept} {root : Hpa}

theorem admits_allocated {p : Hpa} {m₁ : Memory} (hb : m.Balanced a) (hr : a.level root = some 3)
    (hm : m.Allocates m₁ p) (haligned : g.isPageAligned = true)
    (hfree : m.mapped root g.number = none) :
    m₁.Admits root ⟨p.val + directMap⟩ g Permission.full false := by
  have hp : p ∈ m₁.pages := hm.mem.2 (.inl rfl)
  have hwhole := ((hb.allocates hm).page hp).1
  have hdown := Address.pageDown_of_isPageAligned hwhole
  refine ⟨?_, haligned, by decide, fun _ => by decide, ?_, .inl ?_⟩
  · rw [Address.isPageAligned_iff] at hwhole ⊢
    rw [UInt64.toNat_add, show directMap.toNat = 0x600000000000 from rfl]
    omega
  · rw [physical?_virtual (hdown.symm ▸ hp)]
    rfl
  · show (m₁.translationFrom g.number 3 root).map Prod.fst = none
    rw [hb.translation_allocates hm hr]
    exact hfree

/-- Backing an address maps its page number to a new page, or it changes nothing that is mapped or
referred to.  Where nothing is mapped, it only fails for want of a page. -/
theorem populate_fills (hroot : tab.root = some root) :
    (tab.populate g).Safe F m (m.Balanced a ∧ a.level root = some 3)
      (fun _ m' => ∃ a', m.Fills a root {g.number} m' a')
      (fun e m' => (g.isPageAligned = true → m.mapped root g.number = none → e = .noMemory) ∧
        ∃ a', m.Extends a m' a') := by
  rw [populate]
  refine allocRetained_bind (fun m₁ hpages hnext => ?_) fun m₁ p hm => ?_
  · exact Safe.fail fun _ h => ⟨fun _ _ => rfl, a, .of_pages_eq h.1 hpages hnext⟩
  · refine Safe.orFail_bind (fun q hq => ?_) fun h => absurd h (Option.some_ne_none _)
    cases hq
    have hstart : m.Balanced a ∧ a.level root = some 3 →
        m₁.Balanced (a.hold p) ∧ (a.hold p).level root = some 3 ∧ p.pageDown ∈ m₁.pages := by
      rintro ⟨hb, hr⟩
      have hb₁ := hb.allocates hm
      have hmem : p ∈ m₁.pages := hm.mem.2 (.inl rfl)
      refine ⟨hb₁, hr, ?_⟩
      rw [Address.pageDown_of_isPageAligned (hb₁.page hmem).1]
      exact hmem
    have hinsert := insertPage_admits (F := F) (m := m₁) (a := a.hold p) hroot p g Permission.full
    refine Safe.attempt_bind (hinsert.assume fun _ => hstart) ?_ ?_
    · rintro ⟨⟩ m₂
      refine Safe.exists_and fun a₂ => ?_
      refine release_bind (fun h => ?_) ?_
      · have hheld := h.2.2.2.balanced.held_le_refs p
        rw [h.2.2.2.held] at hheld
        simp only [Account.hold, if_true] at hheld
        omega
      · exact Safe.pure fun _ h => ⟨_, h.2.2.2.scoped h.1.1 hm h.1.2 h.2.2.1⟩
    · intro e m₂
      refine release_bind (fun h => ?_) ?_
      · obtain ⟨a₂, hext⟩ := h.2.2
        have hheld := hext.balanced.held_le_refs p
        rw [hext.held] at hheld
        simp only [Account.hold, if_true] at hheld
        omega
      · have hshort : (m.Balanced a ∧ a.level root = some 3) ∧
              (m₁.Admits root ⟨p.val + directMap⟩ g Permission.full false → e = .outOfMemory) ∧
                (∃ a₂, m₁.Extends (a.hold p) m₂ a₂) →
            (g.isPageAligned = true → m.mapped root g.number = none → e = .outOfMemory) ∧
              ∃ a', m.Extends a (m₂.released p) a' := by
          rintro ⟨⟨hb, hr⟩, hadmits, a₂, hext⟩
          exact ⟨fun haligned hfree => hadmits (admits_allocated hb hr hm haligned hfree), _,
            hext.scoped hb hm⟩
        cases e
        case outOfMemory => exact Safe.fail fun _ h => ⟨fun _ _ => rfl, (hshort h).2⟩
        all_goals
          refine Safe.fail fun _ h => ⟨fun haligned hfree => ?_, (hshort h).2⟩
          cases (hshort h).1 haligned hfree

structure Vacant (m : Memory) (root : Hpa) (l : List Gpa) : Prop where
  aligned : ∀ g ∈ l, g.isPageAligned = true
  distinct : (l.map Address.number).Nodup
  free : ∀ g ∈ l, m.mapped root g.number = none

theorem Vacant.tail {l : List Gpa} {m' : Memory} {a' : Account} (h : Vacant m root (g :: l))
    (hfills : m.Fills a root {g.number} m' a') : Vacant m' root l where
  aligned := fun g' hg' => h.aligned g' (List.mem_cons_of_mem _ hg')
  distinct := (List.nodup_cons.1 h.distinct).2
  free := fun g' hg' => by
    have hne : g'.number ≠ g.number := fun he =>
      (List.nodup_cons.1 h.distinct).1 (List.mem_map.2 ⟨g', hg', he⟩)
    rw [mapped, hfills.outside hne]
    exact h.free g' (List.mem_cons_of_mem _ hg')

/-- Backing addresses one after the other maps all of their page numbers, or some of them when it fails.
Where the pages are vacant, it only fails for want of a page; where two of them are one, it fails. -/
theorem populateEach_fills (hroot : tab.root = some root) (l : List Gpa) :
    (l.forM tab.populate).Safe F m (m.Balanced a ∧ a.level root = some 3)
      (fun _ m' => (l.map Address.number).Nodup ∧
        ∃ a', m.Fills a root {n | ∃ g ∈ l, g.number = n} m' a')
      (fun e m' => (Vacant m root l → e = .noMemory) ∧
        ∃ a' S, S ⊆ {n | ∃ g ∈ l, g.number = n} ∧ m.Populates a root S m' a') := by
  induction l generalizing m a with
  | nil =>
      refine Safe.pure fun _ h => ⟨List.nodup_nil, a, ?_⟩
      simpa using Fills.refl h.1 h.2
  | cons g l ih =>
      have hunion : {n | ∃ g' ∈ g :: l, g'.number = n} =
          {g.number} ∪ {n | ∃ g' ∈ l, g'.number = n} := by
        ext n
        simp [eq_comm]
      rw [hunion]
      have hfirst : (tab.populate g).Safe F m (m.Balanced a ∧ a.level root = some 3)
          (fun _ m' => ∃ a', m.Fills a root {g.number} m' a')
          (fun e m' => (Vacant m root (g :: l) → e = .noMemory) ∧
            ∃ a' S, S ⊆ {g.number} ∪ {n | ∃ g' ∈ l, g'.number = n} ∧ m.Populates a root S m' a') := by
        refine (populate_fills hroot).mono (fun _ h => h) (fun _ _ _ _ _ h => h) ?_
        rintro e m' - - h ⟨hshort, a', hext⟩
        refine ⟨fun hvacant => ?_, a', ∅, Set.empty_subset _, .of_extends hext h.2⟩
        exact hshort (hvacant.aligned g List.mem_cons_self) (hvacant.free g List.mem_cons_self)
      refine Safe.bind_exists hfirst fun a₁ _ m₁ => ?_
      refine (ih (m := m₁) (a := a₁)).mono ?_ ?_ ?_
      · rintro - ⟨⟨hb, hr⟩, hfills⟩
        exact ⟨hfills.balanced, hfills.level_eq hb hr⟩
      · rintro _ m' - - ⟨⟨hb, hr⟩, hfills⟩ ⟨hdistinct, a', hfills'⟩
        refine ⟨List.nodup_cons.2 ⟨fun hmem => ?_, hdistinct⟩, a', hfills.trans hb hr hfills'⟩
        have hdisjoint := hfills.toPopulates.disjoint hfills'.toPopulates
        exact Set.disjoint_left.1 hdisjoint rfl (List.mem_map.1 hmem)
      · rintro e m' - - ⟨⟨hb, hr⟩, hfills⟩ ⟨hshort, a', S, hS, hpop⟩
        exact ⟨fun hvacant => hshort (hvacant.tail hfills), a', _,
          Set.union_subset_union_right _ hS, hfills.toPopulates.trans hb hr hpop⟩

theorem toNat_add_pageSize {start : UInt64} {count : Nat}
    (h : start.toNat + (count + 2) * 4096 ≤ 2 ^ 64) :
    (start + pageSize).toNat = start.toNat + 4096 := by
  rw [UInt64.toNat_add, show pageSize.toNat = 4096 from rfl]
  omega

theorem mem_addressesFrom {start : UInt64} {count : Nat} (h : start.toNat + count * 4096 ≤ 2 ^ 64) :
    g ∈ addressesFrom start count ↔ Space.guestPhysical.isValid g.val = true ∧
      ∃ i, i < count ∧ g.val.toNat = start.toNat + i * 4096 := by
  induction count generalizing start with
  | zero => simp [addressesFrom]
  | succ count ih =>
      have hrest : g ∈ addressesFrom (start + pageSize) count ↔
          Space.guestPhysical.isValid g.val = true ∧
            ∃ i, i < count ∧ g.val.toNat = start.toNat + 4096 + i * 4096 := by
        cases count with
        | zero => simp [addressesFrom]
        | succ count =>
            have hnext := toNat_add_pageSize h
            rw [ih (by omega), hnext]
      rw [addressesFrom, List.mem_append, Option.mem_toList, Address.ofWord?_eq_some, hrest]
      constructor
      · rintro (⟨hv, hval⟩ | ⟨hv, i, hi, hg⟩)
        · exact ⟨hval ▸ hv, 0, by omega, by rw [hval]; omega⟩
        · exact ⟨hv, i + 1, by omega, by omega⟩
      · rintro ⟨hv, i, hi, hg⟩
        cases i with
        | zero =>
            obtain rfl : g.val = start := UInt64.toNat_inj.1 (by omega)
            exact .inl ⟨hv, rfl⟩
        | succ i => exact .inr ⟨hv, i, by omega, by omega⟩

theorem lowPages_fit : (0 : UInt64).toNat + pagesBetween 0 Layout.holeStart * 4096 ≤ 2 ^ 64 := by
  decide

theorem highPages_fit (physSize : UInt64) :
    Layout.holeEnd.toNat + pagesBetween Layout.holeEnd physSize * 4096 ≤ 2 ^ 64 := by
  have hsize := physSize.toNat_lt
  have hcount : pagesBetween Layout.holeEnd physSize = (physSize.toNat - 0x100000 + 4095) / 4096 :=
    rfl
  rw [hcount, show Layout.holeEnd.toNat = 0x100000 from rfl]
  omega

theorem mem_lowPages : g ∈ addressesFrom 0 (pagesBetween 0 Layout.holeStart) ↔
    Space.guestPhysical.isValid g.val = true ∧ g.isPageAligned = true ∧ g.val.toNat < 0xa0000 := by
  rw [mem_addressesFrom lowPages_fit, Address.isPageAligned_iff,
    show pagesBetween 0 Layout.holeStart = 160 by decide, show (0 : UInt64).toNat = 0 from rfl]
  refine and_congr_right fun _ => ⟨?_, fun hg => ⟨g.val.toNat / 4096, by omega, by omega⟩⟩
  rintro ⟨i, hi, hg⟩
  omega

theorem mem_highPages {physSize : UInt64} :
    g ∈ addressesFrom Layout.holeEnd (pagesBetween Layout.holeEnd physSize) ↔
      Space.guestPhysical.isValid g.val = true ∧ g.isPageAligned = true ∧
        0x100000 ≤ g.val.toNat ∧ g.val.toNat < physSize.toNat := by
  rw [mem_addressesFrom (highPages_fit physSize), Address.isPageAligned_iff,
    show pagesBetween Layout.holeEnd physSize = (physSize.toNat - 0x100000 + 4095) / 4096 from rfl,
    show Layout.holeEnd.toNat = 0x100000 from rfl]
  refine and_congr_right fun _ => ⟨?_, fun hg => ⟨(g.val.toNat - 0x100000) / 4096, by omega, by omega⟩⟩
  rintro ⟨i, hi, hg⟩
  omega

theorem mem_pagesOf {physSize : UInt64} : g ∈ pagesOf physSize ↔
    Space.guestPhysical.isValid g.val = true ∧ g.isPageAligned = true ∧
      Region.of g physSize = .ram := by
  rw [pagesOf, List.mem_append, mem_lowPages, mem_highPages, Region.of_eq_ram, ← and_or_left,
    ← and_or_left]

theorem numbers_pagesOf (physSize : UInt64) :
    {n | ∃ g ∈ pagesOf physSize, g.number = n} = Region.ramNumbers physSize := by
  ext n
  constructor
  · rintro ⟨g, hg, hn⟩
    obtain ⟨hv, -, hram⟩ := mem_pagesOf.1 hg
    exact ⟨g, hv, hram, hn⟩
  · rintro ⟨g, hv, hram, hn⟩
    have hdown := Address.toNat_pageDown g
    have hle : g.pageDown.val ≤ g.val := UInt64.le_iff_toNat_le.2 (by omega)
    refine ⟨g.pageDown, mem_pagesOf.2 ⟨?_, Address.isPageAligned_pageDown g, ?_⟩, ?_⟩
    · simp only [Space.isValid, decide_eq_true_eq] at hv ⊢
      exact UInt64.lt_of_le_of_lt hle hv
    · rw [Region.of_eq_ram] at hram ⊢
      omega
    · rw [Address.number_pageDown, hn]

theorem toNat_le_of_nodup {physSize : UInt64} (h : ((pagesOf physSize).map Address.number).Nodup) :
    physSize.toNat ≤ 2 ^ 48 := by
  by_contra hlarge
  have hval : (0x1000000000000 : UInt64).toNat = 2 ^ 48 := by decide
  have hfirst : ⟨0⟩ ∈ pagesOf physSize := List.mem_append_left _ (mem_lowPages.2 (by decide))
  have hlast : ⟨0x1000000000000⟩ ∈ pagesOf physSize := by
    refine List.mem_append_right _ (mem_highPages.2 ⟨by decide, by decide, ?_, ?_⟩)
    · rw [hval]
      decide
    · rw [hval]
      omega
  have hsame := List.inj_on_of_nodup_map h hfirst hlast (by decide)
  exact absurd hsame (by decide)

theorem populateAll_fills (hroot : tab.root = some root) (physSize : UInt64) :
    (tab.populateAll physSize).Safe F m (m.Balanced a ∧ a.level root = some 3)
      (fun _ m' => physSize.toNat ≤ 2 ^ 48 ∧
        ∃ a', m.Fills a root (Region.ramNumbers physSize) m' a')
      (fun _ m' => ∃ a' S, S ⊆ Region.ramNumbers physSize ∧ m.Populates a root S m' a') := by
  rw [populateAll_eq, ← numbers_pagesOf]
  exact (populateEach_fills hroot _).mono (fun _ h => h)
    (fun _ _ _ _ _ h => ⟨toNat_le_of_nodup h.1, h.2⟩) fun _ _ _ _ _ h => h.2

theorem populateAll_safe (hroot : tab.root = some root) (physSize : UInt64) :
    (tab.populateAll physSize).Safe F m (m.Balanced a ∧ a.level root = some 3)
      (fun _ m' => ∃ a', m.Populates a root (Region.ramNumbers physSize) m' a')
      (fun _ m' => ∃ a' S, S ⊆ Region.ramNumbers physSize ∧ m.Populates a root S m' a') := by
  refine (populateAll_fills hroot physSize).mono (fun _ h => h) ?_ fun _ _ _ _ _ h => h
  rintro _ m' - - - ⟨-, a', hfills⟩
  exact ⟨a', hfills.toPopulates⟩

inductive Accessed (m : Memory) (a : Account) (root : Hpa) (physSize : UInt64) (g : Gpa) :
    Fault → Memory → Account → Prop
  | ram {m' : Memory} {a' : Account} (region : Region.of g physSize = .ram)
      (populates : m.Populates a root {g.number} m' a') : Accessed m a root physSize g .handled m' a'
  | videoBuffer {m' : Memory} {a' : Account} (region : Region.of g physSize = .videoBuffer)
      (free : m.mapped root g.number = none)
      (maps : m.Maps a root g.number ⟨Hypervisor.videoBuffer⟩ Permission.full m' a') :
      Accessed m a root physSize g .handled m' a'
  | unmapped (region : Region.of g physSize = .unmapped) :
      Accessed m a root physSize g .unhandled m a

theorem onAccess_safe (hroot : tab.root = some root) (physSize : UInt64) :
    (tab.onAccess physSize g).Safe F m
      (m.Balanced a ∧ a.level root = some 3 ∧ ⟨videoBuffer⟩ ∈ m.pages)
      (fun fault m' => ∃ a', Accessed m a root physSize g fault m' a')
      (fun _ m' => ∃ a', m.Extends a m' a') := by
  rw [onAccess]
  cases hregion : Region.of g physSize with
  | ram =>
      refine Safe.bind_exists ((populate_fills (a := a) hroot).mono (fun _ h => ⟨h.1, h.2.1⟩)
        (fun _ _ _ _ _ h => h) fun _ _ _ _ _ h => h.2) ?_
      intro a' _ m'
      refine Safe.pure fun _ h => ⟨a', .ram hregion ?_⟩
      rw [← Address.number_pageDown]
      exact h.2.toPopulates
  | videoBuffer =>
      have haligned : (⟨Hypervisor.videoBuffer⟩ : Hpa).pageDown = ⟨Hypervisor.videoBuffer⟩ := by decide
      refine virtual_bind (fun h => by rw [haligned]; exact h.2.2) ?_
      have hmap := map_safe (F := F) (m := m) (a := a) hroot ⟨Hypervisor.videoBuffer + directMap⟩
        g.pageDown Permission.full false
      refine Safe.bind_exists (Safe.mapError (hmap.assume fun _ h => ⟨h.1, h.2.1⟩)) ?_
      intro a' _ m'
      refine Safe.pure fun _ h => ?_
      obtain ⟨⟨-, -, hlive⟩, p, hp, -, hfree, hmaps⟩ := h
      cases (physical?_virtual (p := ⟨Hypervisor.videoBuffer⟩) (by rw [haligned]; exact hlive)).symm.trans hp
      rw [Address.number_pageDown] at hfree hmaps
      exact ⟨a', .videoBuffer hregion (by simpa using hfree) hmaps⟩
  | unmapped => exact Safe.pure fun _ _ => ⟨a, .unmapped hregion⟩

end Ept

end Hypervisor
