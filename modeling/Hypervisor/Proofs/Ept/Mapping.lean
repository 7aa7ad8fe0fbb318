import Hypervisor.Proofs.Ept.Missing

/-!
# Mapping a page

A successful mapping sets one leaf: the page in it gains a reference and the page that it replaces
loses one.  A mapping that fails may leave empty tables behind, but changes nothing that is mapped
or referred to.
-/

namespace Hypervisor.Memory

open Hypervisor.Action

def mapped (m : Memory) (root : Hpa) (n : PageNumber) : Option Hpa :=
  (m.translation root n).map Prod.fst

/-- One page number is mapped to a page, and all else is mapped and referred to as before. -/
structure Maps (m : Memory) (a : Account) (root : Hpa) (n : PageNumber) (p : Hpa)
    (perm : Permission) (m' : Memory) (a' : Account) : Prop extends Grows m a m' a' where
  live : ∀ {q}, q ∈ m.pages → q ∈ m'.pages ∨ m.mapped root n = some q
  refs : ∀ {q}, q ∈ m.pages → (m'.refs q + if m.mapped root n = some q then 1 else 0) =
    m.refs q + if q = p then 1 else 0
  translation : ∀ {r} n', a.level r = some 3 → m'.translation r n' =
    if r = root ∧ n' = n then some (p, perm) else m.translation r n'
  tables : ∀ {q j}, a'.level q = some j →
    a.level q = some j ∨ m'.tableFrom n j 3 root = some q

variable {m m₁ m' : Memory} {a a₁ a' : Account} {s : Slot} {p q root : Hpa} {n : PageNumber}
  {perm : Permission}

theorem Extends.mapped (h : m.Extends a m₁ a₁) (hroot : a.level root = some 3) :
    m₁.mapped root n = m.mapped root n := by
  have htranslation : m₁.translation root n = m.translation root n := h.translation n hroot
  rw [Memory.mapped, Memory.mapped, htranslation]

theorem mapped_eq_target (hs : m.leafFrom n 3 root = some s) :
    m.mapped root n = (m.entry s).target := by
  rw [Memory.mapped, translation, Shape.translationFrom_eq]
  simp [Ept.levels, hs, Entry.mapping, Function.comp_def]

/-- Looking up the leaf before mapping is no more than mapping. -/
theorem Finds.maps (hb : m.Balanced a) (h : m.Finds a n 3 root s m₁ a₁)
    (hroot : a.level root = some 3) (hp : p ∈ m.pages) (h' : m₁.Maps a₁ root n p perm m' a') :
    m.Maps a root n p perm m' a' where
  balanced := h'.balanced
  held := h'.held.trans h.held
  idle := h'.idle.trans h.idle
  level := fun hq => (h'.level (h.live hq)).trans (h.level hq)
  parent := fun hq => (h'.parent (h.live hq)).trans (h.parent hq)
  rooted := fun hr => h'.rooted (h.rooted hr)
  fresh := fun {q} hq => by
    by_cases hq₁ : q ∈ m₁.pages
    · have hne : q ≠ p := fun he => hq (he ▸ hp)
      have hrefs := h'.refs hq₁
      have hfresh := h.fresh hq
      rw [if_neg hne] at hrefs
      omega
    · exact h'.fresh hq₁
  words := fun {q} hq hq' hlevel => by
    have hq₁ := h.live hq
    have hlevel₁ : a₁.level q = none := by rw [h.level hq, hlevel]
    rw [h'.words hq₁ hq' hlevel₁, h.words hq hq₁ hlevel]
  live := fun hq => by
    rw [← h.mapped hroot]
    exact h'.live (h.live hq)
  refs := fun hq => by
    rw [← h.mapped hroot, ← h.refs hq]
    exact h'.refs (h.live hq)
  translation := fun {r} n' hr => by
    rw [h'.translation n' (h.level_eq hb hr)]
    congr 1
    exact h.translation n' hr
  tables := fun hq => by
    rcases h'.tables hq with hold | hnew
    · refine (h.tables hold).imp id fun hpath => ?_
      exact h'.tableFrom h.balanced (h.level_eq hb hroot) hpath
    · exact .inr hnew

theorem Balanced.stored_retained (h : m.Balanced a) (hs : a.level s.table = some 0)
    (hp : p ∈ m.pages) (hf : m.Fits) (hperm : perm.isEmpty = false)
    (hread : perm.contains Permission.write = true → perm.contains Permission.read = true) :
    ((m.retained p).stored s (.referring p perm.leafFlags)).Balanced
      (a.keep (m.entry s).target) := by
  have haligned := (h.page hp).1
  have hfits := h.page_lt hf hp
  have htarget : (Entry.referring p perm.leafFlags).target = some p :=
    Entry.target_referring haligned hfits (Permission.leafFlags_intersects hperm)
  have hentry : (m.retained p).entry s = m.entry s := entry_congr (words_retained _)
  refine (h.retained hp).stored_leaf hs (.leaf p perm haligned hfits hperm hread) ?_ ?_
  · intro q
    rw [htarget, hentry]
    simp only [Account.hold, Option.some.injEq, eq_comm (a := p)]
    omega
  · intro q k hq hroot
    have hheld := h.root hq hroot
    omega

def replaced (m : Memory) (p : Hpa) (s : Slot) (e : Entry) : Memory :=
  match (m.entry s).target with
  | some old => ((m.retained p).released old).stored s e
  | none => (m.retained p).stored s e

private theorem replaced_some {old : Hpa} {e : Entry} (h : m.Balanced a)
    (hs : a.level s.table = some 0) (hold : (m.entry s).target = some old) (hp : p ∈ m.pages) :
    m.replaced p s e = ((m.retained p).stored s e).released old := by
  rw [replaced, hold]
  refine edited_released _ ?_
  rintro ⟨htable, hone⟩
  rw [Address.pageDown_of_isPageAligned (h.table_aligned hs)] at htable
  have hpos := h.held_add_linked_pos hs
  have hleaves := Account.leaves_pos (q := old) hs hold
  have hledger := h.ledger old
  rw [refs_retained hp] at hone
  subst old
  omega

theorem maps_replaced (h : m.Balanced a) (hroot : a.level root = some 3)
    (hs : m.leafFrom n 3 root = some s) (hp : p ∈ m.pages) (hf : m.Fits)
    (hperm : perm.isEmpty = false)
    (hread : perm.contains Permission.write = true → perm.contains Permission.read = true) :
    m.Maps a root n p perm (m.replaced p s (.referring p perm.leafFlags)) a := by
  have hs₀ := h.shape.level_of_leafFrom hroot hs
  have hmapped := mapped_eq_target hs
  have hstored := h.stored_retained hs₀ hp hf hperm hread
  have hentry : ∀ s' i, a.level s'.table = some i →
      ((m.retained p).stored s (.referring p perm.leafFlags)).entry s' =
        if s' = s then .referring p perm.leafFlags else m.entry s' := by
    intro s' i hs'
    rw [(h.retained hp).entry_stored hs₀ hs', entry_congr (words_retained _)]
  have hnew := Entry.mapping_referring (h.page hp).1 (h.page_lt hf hp) hperm
  have hwords : ∀ {q}, q ∈ m.pages → a.level q = none →
      ((m.retained p).stored s (.referring p perm.leafFlags)).words q = m.words q := by
    intro q hq hlevel
    have hne : q.pageDown ≠ s.table := by
      rw [Address.pageDown_of_isPageAligned (h.page hq).1]
      rintro rfl
      cases hlevel.symm.trans hs₀
    rw [words_stored_of_ne (mem_retained.2 (h.table_live hs₀)) (h.table_aligned hs₀) hne,
      words_retained]
  -- The old page, if there is one, is held between the store and its release.
  cases hold : (m.entry s).target with
  | none =>
      have heq : m.replaced p s (.referring p perm.leafFlags) =
          (m.retained p).stored s (.referring p perm.leafFlags) := by rw [replaced, hold]
      rw [heq]
      refine ⟨⟨?_, rfl, rfl, fun _ => rfl, fun _ => rfl, fun hr => hr, ?_, ?_⟩, ?_, ?_, ?_, fun hq => .inl hq⟩
      · rw [hold, Account.keep_none] at hstored
        exact hstored
      · intro q hq
        have hne : q ≠ p := fun he => hq (he ▸ hp)
        rw [refs_stored, refs_retained hp, if_neg hne, refs_eq_zero_of_notMem hq]
        omega
      · intro q hq _ hlevel
        exact hwords hq hlevel
      · intro q hq
        exact .inl (mem_stored.2 (mem_retained.2 hq))
      · intro q hq
        rw [refs_stored, refs_retained hp, hmapped, hold]
        rfl
      · intro r n' hr
        rw [h.shape.translation_leaf hroot hs hentry hr, hnew]
  | some old =>
      rw [replaced_some h hs₀ hold hp]
      have hheld : (a.keep (m.entry s).target).held old = a.held old + 1 := by
        simp [Account.keep, hold]
      have hbalanced := hstored.released (p := old) (by omega) fun k hk hparent => by
        have hpos := h.root hk hparent
        omega
      rw [hold, Account.drop_keep] at hbalanced
      refine ⟨⟨hbalanced, rfl, rfl, fun _ => rfl, fun _ => rfl, fun hr => hr, ?_, ?_⟩, ?_, ?_, ?_, fun hq => .inl hq⟩
      · intro q hq
        have hne : q ≠ p := fun he => hq (he ▸ hp)
        rw [refs_released, refs_stored, refs_retained hp, if_neg hne, refs_eq_zero_of_notMem hq]
        omega
      · intro q hq hq' hlevel
        rw [words_released, hwords hq hlevel]
        rw [Address.pageDown_of_isPageAligned (h.page hq).1]
        exact hq'
      · intro q hq
        rw [hmapped, hold, mem_released, mem_stored, mem_retained]
        by_cases he : q = old
        · exact .inr (congrArg some he.symm)
        · exact .inl ⟨hq, fun hboth => he hboth.1⟩
      · intro q hq
        have hpos := h.refs_pos_of_target hs₀ hold
        rw [refs_released, refs_stored, refs_retained hp, hmapped, hold]
        by_cases he : q = old
        · subst q
          simp only [if_true]
          omega
        · simp only [he, Option.some.injEq, Ne.symm he, if_false]
          omega
      · intro r n' hr
        rw [← hnew, ← h.shape.translation_leaf hroot hs hentry hr]
        refine hstored.translation_eq (fun t k ht => words_released ?_) hr
        exact hbalanced.table_pageDown_live ht

/-- The mapping is one that nothing is wrong with. -/
structure Admits (m : Memory) (root : Hpa) (source : Hva) (g : Gpa) (perm : Permission)
    (overwrite : Bool) : Prop where
  whole : source.isPageAligned = true
  place : g.isPageAligned = true
  granting : perm.isEmpty = false
  readable : perm.contains Permission.write = true → perm.contains Permission.read = true
  backed : (m.physical? source).isSome = true
  free : m.mapped root g.number = none ∨ overwrite = true

def Fails (m : Memory) (root : Hpa) (source : Hva) (g : Gpa) (perm : Permission)
    (overwrite : Bool) : EptError → Prop
  | .unaligned => ¬(source.isPageAligned = true ∧ g.isPageAligned = true)
  | .emptyPermission => perm.isEmpty = true
  | .writeWithoutRead =>
      perm.contains Permission.write = true ∧ perm.contains Permission.read = false
  | .notExist => m.physical? source = none
  | .duplicated =>
      m.Admits root source g perm true ∧ m.mapped root g.number ≠ none ∧ overwrite = false
  | .outOfMemory => m.Admits root source g perm true ∧ ¬m.Affords (m.missing root g.number)
  | _ => False

theorem Fails.eq_outOfMemory {source : Hva} {g : Gpa} {overwrite : Bool} {e : EptError}
    (h : m.Fails root source g perm overwrite e) (hadmits : m.Admits root source g perm overwrite) :
    e = .outOfMemory := by
  cases e with
  | unaligned => exact absurd ⟨hadmits.whole, hadmits.place⟩ h
  | emptyPermission => exact absurd (hadmits.granting.symm.trans h) Bool.false_ne_true
  | writeWithoutRead => exact absurd (h.2.symm.trans (hadmits.readable h.1)) Bool.false_ne_true
  | notExist =>
      have hnone : m.physical? source = none := h
      simpa [hnone] using hadmits.backed
  | duplicated =>
      rcases hadmits.free with hfree | hover
      · exact absurd hfree h.2.1
      · exact absurd (h.2.2.symm.trans hover) Bool.false_ne_true
  | outOfMemory => rfl
  | _ => exact h.elim

theorem physical?_eq_some {v : Hva} (hv : v.isPageAligned = true) (hp : m.physical? v = some p) :
    p ∈ m.pages := by
  obtain ⟨hmem, hval⟩ := live_of_physical? hp
  have haligned : p.isPageAligned = true := by
    have hv' := Address.isPageAligned_iff.1 hv
    rw [Address.isPageAligned_iff, hval, UInt64.toNat_sub,
      show directMap.toNat = 0x600000000000 from rfl]
    omega
  rwa [Address.pageDown_of_isPageAligned haligned] at hmem

end Hypervisor.Memory

namespace Hypervisor.Ept

open Hypervisor.Action Memory

variable {F : Panic → Prop} {m : Memory} {a : Account} {tab : Ept} {root : Hpa}

private theorem replace_safe {P : Prop} {p : Hpa} {s : Slot} {flags : EntryFlags}
    {E : EptError → Memory → Prop} (hlive : P → p ∈ m.pages)
    (hp : m.Fits → P → p.isPageAligned = true ∧ p.val.toNat < 2 ^ 52)
    (hold : P → ∀ old, (m.entry s).target = some old → 0 < m.refs old) :
    (do
      retain p
      match (m.entry s).target with
      | some old => release old
      | none => pure ()
      s.write ((← ofExcept ((m.entry s).withTarget p)).withFlags flags)).Safe F m P
      (fun _ m' => m' = m.replaced p s (.referring p flags)) E := by
  refine retain_bind hlive ?_
  cases htarget : (m.entry s).target with
  | none =>
      refine Safe.last ?_
      simp only [bind_assoc]
      refine Slot.refer_bind hp fun e he => Safe.pure fun hf h => ?_
      rw [he hf h, replaced, htarget]
  | some old =>
      refine release_bind (fun h => ?_) ?_
      · have hpos := hold h old htarget
        rw [refs_retained (hlive h)]
        omega
      · refine Safe.last ?_
        simp only [bind_assoc]
        refine Slot.refer_bind hp fun e he => Safe.pure fun hf h => ?_
        rw [he hf h, replaced, htarget]

/-- A mapping sets the leaf of its address to the page behind its source, and there are pages for the
tables that are missing.  Or something is wrong with it, and it changes nothing that is mapped or
referred to. -/
theorem map_exact (hroot : tab.root = some root) (source : Hva) (g : Gpa) (perm : Permission)
    (overwrite : Bool) :
    (tab.map source g perm overwrite).Safe F m (m.Balanced a ∧ a.level root = some 3)
      (fun _ m' => m.Affords (m.missing root g.number) ∧
        m.Admits root source g perm overwrite ∧ ∃ a' p, m.physical? source = some p ∧ p ∈ m.pages ∧
          m.Maps a root g.number p perm m' a')
      (fun e m' => m.Fails root source g perm overwrite e ∧ ∃ a', m.Extends a m' a') := by
  rw [map]
  simp only [Permission.and_full]
  refine Safe.require_bind (fun haligned => ?_) fun hno _ h => ⟨by simpa [Fails] using hno, a, .refl h.1⟩
  refine Safe.require_bind (fun hperm => ?_) fun hno _ h => ⟨by simpa [Fails] using hno, a, .refl h.1⟩
  refine Safe.require_bind (fun hread => ?_) fun hno _ h => ⟨by simpa [Fails] using hno, a, .refl h.1⟩
  refine Safe.get_bind ?_
  refine Safe.orFail_bind (fun p hp => ?_) fun hnone _ h => ⟨hnone, a, .refl h.1⟩
  rw [Bool.and_eq_true] at haligned
  have hpage := physical?_eq_some haligned.1 hp
  have hadmits : ∀ {overwrite}, m.mapped root g.number = none ∨ overwrite = true →
      m.Admits root source g perm overwrite := fun hfree =>
    { whole := haligned.1
      place := haligned.2
      granting := by simpa using hperm
      readable := fun hwrite => by simpa [hwrite] using hread
      backed := Option.isSome_of_eq_some hp
      free := hfree }
  refine Safe.bind_exists ((lookup_affords hroot).mono (fun _ h => h)
    (fun _ _ _ _ _ h => exists_and_right.2 h) fun e m' _ _ _ h => ?_) fun a₁ s m₁ => ?_
  · obtain ⟨⟨rfl, hless⟩, hext⟩ := h
    exact ⟨⟨hadmits (.inr rfl), hless⟩, hext⟩
  have hslot : (m.Balanced a ∧ a.level root = some 3) ∧ m.Finds a g.number 3 root s m₁ a₁ ∧
      m.Affords (m.missing root g.number) → a₁.level s.table = some 0 := by
    rintro ⟨⟨hb, hr⟩, hfinds, -⟩
    exact hfinds.balanced.shape.level_of_leafFrom (hfinds.level_eq hb hr) hfinds.leaf
  have hleaf : (m.Balanced a ∧ a.level root = some 3) ∧ m.Finds a g.number 3 root s m₁ a₁ ∧
      m.Affords (m.missing root g.number) → (m₁.entry s).target = m.mapped root g.number := by
    rintro ⟨⟨-, hr⟩, hfinds, -⟩
    rw [← hfinds.mapped hr, mapped_eq_target hfinds.leaf]
  refine Slot.read_bind (fun h => h.2.1.balanced.table_pageDown_live (hslot h)) ?_
  refine Safe.require_bind (fun hover => ?_) fun hno _ h =>
    ⟨⟨hadmits (.inr rfl), ?_⟩, a₁, h.2.1.toExtends⟩
  swap
  · rw [hleaf h, Bool.or_eq_false_iff, Option.isNone_eq_false_iff] at hno
    exact ⟨Option.isSome_iff_ne_none.1 hno.1, hno.2⟩
  refine (replace_safe (fun h => h.2.1.live hpage) (fun hf h => ?_) fun h old hold => ?_).mono
    (fun _ h => h) ?_ fun _ _ _ _ _ h => h
  · have hb₁ := h.2.1.balanced
    have hp₁ := h.2.1.live hpage
    exact ⟨(hb₁.page hp₁).1, hb₁.page_lt hf hp₁⟩
  · exact h.2.1.balanced.refs_pos_of_target (hslot h) hold
  · rintro _ m' hf - h rfl
    have hfree := hleaf h
    obtain ⟨⟨hb, hr⟩, hfinds, haffords⟩ := h
    have hfine : m.Admits root source g perm overwrite := hadmits <| by
      rw [← hfree]
      simpa using hover
    refine ⟨haffords, hfine, a₁, p, hp, hpage, hfinds.maps hb hr hpage ?_⟩
    exact maps_replaced hfinds.balanced (hfinds.level_eq hb hr) hfinds.leaf (hfinds.live hpage) hf
      hfine.granting hfine.readable

/-- A mapping sets the leaf of its address to the page behind its source, or it changes nothing that
is mapped or referred to.  One that is admitted only fails for want of a page. -/
theorem map_admits (hroot : tab.root = some root) (source : Hva) (g : Gpa) (perm : Permission)
    (overwrite : Bool) :
    (tab.map source g perm overwrite).Safe F m (m.Balanced a ∧ a.level root = some 3)
      (fun _ m' => ∃ a' p, m.physical? source = some p ∧ p ∈ m.pages ∧
        (m.mapped root g.number = none ∨ overwrite = true) ∧
        m.Maps a root g.number p perm m' a')
      (fun e m' => (m.Admits root source g perm overwrite → e = .outOfMemory) ∧
        ∃ a', m.Extends a m' a') := by
  refine (map_exact hroot source g perm overwrite).mono (fun _ h => h) ?_
    fun _ _ _ _ _ h => ⟨h.1.eq_outOfMemory, h.2⟩
  rintro _ m' - - - ⟨-, hfine, a', p, hp, hpage, hmaps⟩
  exact ⟨a', p, hp, hpage, hfine.free, hmaps⟩

theorem map_safe (hroot : tab.root = some root) (source : Hva) (g : Gpa) (perm : Permission)
    (overwrite : Bool) :
    (tab.map source g perm overwrite).Safe F m (m.Balanced a ∧ a.level root = some 3)
      (fun _ m' => ∃ a' p, m.physical? source = some p ∧ p ∈ m.pages ∧
        (m.mapped root g.number = none ∨ overwrite = true) ∧
        m.Maps a root g.number p perm m' a')
      (fun _ m' => ∃ a', m.Extends a m' a') :=
  (map_admits hroot source g perm overwrite).mono (fun _ h => h) (fun _ _ _ _ _ h => h)
    fun _ _ _ _ _ h => h.2

theorem physical?_virtual {p : Hpa} (hp : p.pageDown ∈ m.pages) :
    m.physical? ⟨p.val + directMap⟩ = some p := by
  have hval : p.val + directMap - directMap = p.val := UInt64.add_sub_cancel _ _
  simp only [physical?, hval]
  rw [if_pos (Std.ExtTreeMap.contains_iff_mem.2 hp)]

theorem insertPage_admits (hroot : tab.root = some root) (p : Hpa) (g : Gpa) (perm : Permission) :
    (tab.insertPage p g perm).Safe F m
      (m.Balanced a ∧ a.level root = some 3 ∧ p.pageDown ∈ m.pages)
      (fun _ m' => ∃ a', p ∈ m.pages ∧ m.mapped root g.number = none ∧
        m.Maps a root g.number p perm m' a')
      (fun e m' => (m.Admits root ⟨p.val + directMap⟩ g perm false → e = .outOfMemory) ∧
        ∃ a', m.Extends a m' a') := by
  rw [insertPage]
  refine virtual_bind (fun h => h.2.2) ?_
  refine (map_admits hroot _ g perm false).mono (fun _ h => ⟨h.1, h.2.1⟩) ?_ fun _ _ _ _ _ h => h
  rintro _ m' - - ⟨hb, hr, hp⟩ ⟨a', q, hq, hlive, hfree, hmaps⟩
  cases (physical?_virtual hp).symm.trans hq
  exact ⟨a', hlive, by simpa using hfree, hmaps⟩

theorem insertPage_safe (hroot : tab.root = some root) (p : Hpa) (g : Gpa) (perm : Permission) :
    (tab.insertPage p g perm).Safe F m
      (m.Balanced a ∧ a.level root = some 3 ∧ p.pageDown ∈ m.pages)
      (fun _ m' => ∃ a', p ∈ m.pages ∧ m.mapped root g.number = none ∧
        m.Maps a root g.number p perm m' a')
      (fun _ m' => ∃ a', m.Extends a m' a') :=
  (insertPage_admits hroot p g perm).mono (fun _ h => h) (fun _ _ _ _ _ h => h)
    fun _ _ _ _ _ h => h.2

end Hypervisor.Ept
