import Hypervisor.Proofs.Ept.Census
import Hypervisor.Proofs.Guest.Population
import Hypervisor.Proofs.Host
import Hypervisor.Proofs.Memory.Additions
import Hypervisor.Proofs.Memory.Shortage

/-!
# Building a guest adds all of its pages or none

A guest that is built adds its own five pages to memory and, if it is populated, the pages that back
its memory with the tables that are needed to reach them.  When an allocation fails on the way, all
that was added before is given back, and the error tells what was wrong.
-/

namespace Hypervisor

namespace Memory

open Hypervisor.Action

variable {m m₁ m₂ : Memory} {a a₁ a₂ : Account} {S : Set PageNumber} {root p q : Hpa} {own : Set Hpa}

/-- To the memory `m` some pages have been added that are a guest's own, and the table whose root is one
of them; nothing else is known of `m`. -/
structure Furnished (m : Memory) (own : Set Hpa) (root : Hpa) (m₁ : Memory) (a : Account) :
    Prop where
  balanced : m₁.Balanced a
  rooted : a.Rooted {root}
  level : a.level root = some 3
  mem : root ∈ own
  new : ∀ p ∈ own, p ∉ m.pages
  single : ∀ p ∈ own, a.held p = 1
  held : ∀ p ∉ own, a.held p = m.refs p
  idle : ∀ {p}, a.idle p → p ∈ m.pages
  live : ∀ {p}, p ∈ m.pages → p ∈ m₁.pages
  kept : ∀ {p}, p ∈ m.pages → m₁.refs p = m.refs p
  fresh : ∀ {p}, p ∉ m.pages → m₁.refs p ≤ 1

theorem level_plant {refs : Hpa → Nat} {idle : Hpa → Prop} {k : Nat}
    (hq : ((Account.bare refs idle).plant root 3 none).level q = some k) : k = 3 ∧ q = root := by
  simp only [Account.plant, Account.bare] at hq
  split_ifs at hq with he
  exact ⟨(Option.some.inj hq).symm, he⟩

namespace Furnished

theorem of_adds (hregular : m₁.Regular) (h : m.Adds own m₁) (hroot : root ∈ own)
    (hzero : m₁.words root = .zero) :
    m.Furnished own root m₁ ((Account.bare m₁.refs (· ∈ m.pages)).plant root 3 none) := by
  have hbare : m₁.Balanced (.bare m₁.refs (· ∈ m.pages)) := by
    refine hregular.balanced fun p hp hrefs => ((h.live p).1 hp).resolve_left fun hmem => ?_
    rw [h.single p hmem] at hrefs
    exact absurd hrefs Nat.one_ne_zero
  refine ⟨?_, fun q k hq _ => level_plant hq, by simp [Account.plant], hroot, h.new, h.single,
    fun q hq => ?_, fun hq => hq, fun hq => (h.live _).2 (.inr hq), fun hq => h.kept _ hq,
    fun {q} hq => ?_⟩
  · refine hbare.plant (by decide) ?_ rfl hzero
    show 0 < m₁.refs root
    rw [h.single root hroot]
    exact Nat.one_pos
  · show m₁.refs q = m.refs q
    by_cases hmem : q ∈ m.pages
    · exact h.kept q hmem
    · have hfree : q ∉ m₁.pages := fun hlive => ((h.live q).1 hlive).elim hq hmem
      rw [refs_eq_zero_of_notMem hfree, refs_eq_zero_of_notMem hmem]
  · by_cases hmem : q ∈ m₁.pages
    · exact Nat.le_of_eq (h.single q (((h.live q).1 hmem).resolve_right hq))
    · rw [refs_eq_zero_of_notMem hmem]
      exact Nat.zero_le 1

theorem of_keeps (h : m.Furnished own root m₁ a) (hk : m₁.Keeps a m₂ a₂) :
    m.Furnished own root m₂ a₂ where
  balanced := hk.balanced
  rooted := hk.rooted h.rooted
  level := hk.level_eq h.balanced h.level
  mem := h.mem
  new := h.new
  single := fun p hp => by rw [hk.held, h.single p hp]
  held := fun p hp => by rw [hk.held, h.held p hp]
  idle := fun hp => by
    rw [hk.idle] at hp
    exact h.idle hp
  live := fun hp => hk.live (h.live hp)
  kept := fun hp => by rw [hk.refs (h.live hp), h.kept hp]
  fresh := fun {p} hp => by
    by_cases hmem : p ∈ m₁.pages
    · rw [hk.refs hmem]
      exact h.fresh hp
    · exact hk.fresh hmem

theorem refs_eq_one (h : m.Furnished own root m₁ a) (hp : p ∈ m₁.pages) (hnew : p ∉ m.pages) :
    m₁.refs p = 1 := by
  have hone := h.fresh hnew
  have hpos : m₁.refs p ≠ 0 := fun hzero => hnew (h.idle (h.balanced.idle hp hzero))
  omega

theorem linked_add_leaves (h : m.Furnished own root m₁ a)
    (hpos : 0 < a.linked p + a.leaves m₁.entry p) :
    p ∈ m₁.pages ∧ p ∉ m.pages ∧ p ∉ own ∧ a.linked p + a.leaves m₁.entry p = 1 := by
  have hledger := h.balanced.ledger p
  have hmem : p ∈ m₁.pages := mem_of_refs_pos (by omega)
  by_cases hold : p ∈ m.pages
  · have hkept := h.kept hold
    have hheld := h.held p fun hp => h.new p hp hold
    omega
  · have hone := h.refs_eq_one hmem hold
    refine ⟨hmem, hold, fun hp => ?_, by omega⟩
    have hheld := h.single p hp
    omega

end Furnished

theorem Furnished.of_tornDown (h : m.Furnished own root m₁ a)
    (hd : Host.TornDown m₁ a {root} root m₂) : m.Adds own m₂ := by
  obtain ⟨a₂, hs, hrooted, hheld, hempty⟩ := hd
  have hrefs : ∀ q, m₂.refs q = a.held q := fun q => by
    rw [hs.balanced.refs_of_empty hrooted (hs.whole h.level) hempty, hheld]
  refine ⟨h.new, fun q => ⟨fun hq => ?_, fun hq => ?_⟩, fun q hq => ?_, fun q hq => ?_⟩
  · by_cases hown : q ∈ own
    · exact .inl hown
    · by_cases hzero : m₂.refs q = 0
      · have hidle := hs.balanced.idle hq hzero
        rw [hs.idle] at hidle
        exact .inr (h.idle hidle)
      · rw [hrefs, h.held q hown] at hzero
        exact .inr (mem_of_refs_pos (Nat.pos_of_ne_zero hzero))
  · rcases hq with hown | hold
    · refine mem_of_refs_pos ?_
      rw [hrefs, h.single q hown]
      exact Nat.one_pos
    · refine hs.spared (h.live hold) ?_
      rw [hrefs, h.held q fun hown => h.new q hown hold, h.kept hold]
  · rw [hrefs, h.single q hq]
  · rw [hrefs, h.held q fun hown => h.new q hown hq]

/-- Besides a guest's own pages, there are those that back the page numbers in `S`, and the tables that
are needed to reach them. -/
structure Stocks (m : Memory) (own : Set Hpa) (root : Hpa) (S : Set PageNumber) (m₁ : Memory) :
    Prop where
  adds : m.Adds (own ∪ ({p | ∃ n, m₁.mapped root n = some p} ∪ {q | m₁.Intermediate {root} q})) m₁
  apart : Disjoint own ({p | ∃ n, m₁.mapped root n = some p} ∪ {q | m₁.Intermediate {root} q})
  disjoint : Disjoint {p | ∃ n, m₁.mapped root n = some p} {q | m₁.Intermediate {root} q}
  maps : ∀ n, n ∈ S ↔ (m₁.mapped root n).isSome
  backing : {p | ∃ n, m₁.mapped root n = some p}.ncard = S.ncard
  tables : {q | m₁.Intermediate {root} q}.ncard =
    ∑ j ∈ Finset.range 3, ((fun n : PageNumber => n.stem (j + 1)) '' S).ncard

/-- When all pages are backed, everything that was added is accounted for. -/
theorem Furnished.stocks (h : m.Furnished own root m₁ a) (ht : m₁.Tailored a root S) :
    m.Stocks own root S m₁ := by
  classical
  have hroots : ∀ r ∈ ({root} : Set Hpa), a.level r = some 3 := by
    rintro r rfl
    exact h.level
  have hlinked : ∀ {q}, m₁.Intermediate {root} q ↔ 0 < a.linked q := by
    intro q
    rw [linked_eq h.balanced.shape h.rooted hroots]
    split_ifs with hq <;> simp [hq]
  have hpages : {p | ∃ n, m₁.mapped root n = some p} = {p | 0 < a.leaves m₁.entry p} := by
    ext p
    exact ht.leaves_pos_iff.symm
  have hin : ∀ q, q ∈ {p | ∃ n, m₁.mapped root n = some p} ∪ {q | m₁.Intermediate {root} q} ↔
      0 < a.linked q + a.leaves m₁.entry q := by
    intro q
    rw [hpages, Set.mem_union, Set.mem_ofPred_eq, Set.mem_ofPred_eq, hlinked]
    omega
  -- A new page has one reference, so it is in one leaf at most.
  have hsingle : ∀ p, a.leaves m₁.entry p ≤ 1 := by
    intro p
    by_cases hpos : 0 < a.linked p + a.leaves m₁.entry p
    · have hsum := (h.linked_add_leaves hpos).2.2.2
      omega
    · omega
  refine ⟨⟨?_, fun q => ⟨fun hq => ?_, ?_⟩, ?_, fun q hq => h.kept hq⟩, ?_, ?_, ht.maps, ?_,
    ht.ncard_intermediate⟩
  · rintro p (hp | hp)
    · exact h.new p hp
    · exact (h.linked_add_leaves ((hin p).1 hp)).2.1
  · by_cases hold : q ∈ m.pages
    · exact .inr hold
    · by_cases hown : q ∈ own
      · exact .inl (.inl hown)
      · refine .inl (.inr ((hin q).2 ?_))
        have hledger := h.balanced.ledger q
        have hone := h.refs_eq_one hq hold
        have hheld := h.held q hown
        rw [refs_eq_zero_of_notMem hold] at hheld
        omega
  · rintro ((hown | hq) | hold)
    · have hheld := h.single q hown
      exact h.balanced.held_live (by omega)
    · exact (h.linked_add_leaves ((hin q).1 hq)).1
    · exact h.live hold
  · rintro p (hown | hp)
    · have hheld := h.single p hown
      exact h.refs_eq_one (h.balanced.held_live (by omega)) (h.new p hown)
    · obtain ⟨hmem, hold, -⟩ := h.linked_add_leaves ((hin p).1 hp)
      exact h.refs_eq_one hmem hold
  · exact Set.disjoint_left.2 fun p hown hp => (h.linked_add_leaves ((hin p).1 hp)).2.2.1 hown
  · rw [hpages]
    refine Set.disjoint_left.2 fun p hleaf htable => ?_
    have hleaf : 0 < a.leaves m₁.entry p := hleaf
    have htable : 0 < a.linked p := hlinked.1 htable
    have hsum := (h.linked_add_leaves (p := p) (by omega)).2.2.2
    omega
  · rw [hpages]
    exact ht.ncard_leaves hsingle

theorem Fills.tailored {refs : Hpa → Nat} {idle : Hpa → Prop}
    (h : m.Furnished own root m₁ ((Account.bare refs idle).plant root 3 none))
    (hzero : m₁.words root = .zero)
    (hfills : m₁.Fills ((Account.bare refs idle).plant root 3 none) root S m₂ a₂) :
    m₂.Tailored a₂ root S := by
  have hafter := h.of_keeps hfills.toKeeps
  have hnothing : ∀ n, m₁.translation root n = none := fun n =>
    Shape.translationFrom_of_empty fun i => entry_of_words_eq_zero hzero
  refine ⟨hafter.balanced, hafter.rooted, hafter.level, fun n => ?_, fun {q j} hq hj => ?_⟩
  · rw [mapped, Option.isSome_map]
    by_cases hn : n ∈ S
    · obtain ⟨-, p, -, hp⟩ := hfills.inside hn
      simp [hn, hp]
    · simp [hn, hfills.outside hn, hnothing]
  · rcases hfills.tables hq with hold | hpath
    · have hthree := (level_plant hold).1
      omega
    · exact hpath

end Memory

namespace Host

open Hypervisor.Action Memory

variable {F : Panic → Prop} {h : Host} {m : Memory} {g : Guest} {root : Hpa}

/-- Freeing a guest gives back all that was added for it, whether or not the flush of the translations
fails. -/
theorem freeGuest_adds (hroot : g.table.root = some root) :
    (freeGuest g).Safe F h
      ((root :: g.ownPages).Nodup ∧
        ∃ a, m.Furnished {q | q ∈ root :: g.ownPages} root h.memory a)
      (fun _ h' => m.Adds ∅ h'.memory) (fun _ h' => m.Adds ∅ h'.memory) := by
  have hrest : ∀ (result : Except VmError Unit) (h₁ : Host),
      (do
        onMemory (release root)
        onMemory (g.ownPages.forM release)
        ofExcept result).Safe F h₁
        ((root :: g.ownPages).Nodup ∧ m.Adds {q | q ∈ root :: g.ownPages} h₁.memory)
        (fun _ h' => m.Adds ∅ h'.memory) (fun _ h' => m.Adds ∅ h'.memory) := by
    intro result h₁
    rw [ofPred_mem_cons]
    refine Safe.bind (R := fun _ h₂ => m.Adds {q | q ∈ g.ownPages} h₂.memory)
      (onMemory_safe (release_adds.mono (fun _ hp => ?_) (fun _ _ _ _ _ hq => hq)
        fun _ _ _ _ _ he => he.elim)) fun _ h₂ => ?_
    · exact ⟨(List.nodup_cons.1 hp.1).1, hp.2⟩
    · refine Safe.bind (R := fun _ h₃ => m.Adds ∅ h₃.memory)
        (onMemory_safe ((releaseAll_adds g.ownPages).mono (fun _ hp => ?_) (fun _ _ _ _ _ hq => hq)
          fun _ _ _ _ _ he => he.elim)) fun _ h₃ => Safe.last ?_
      · exact ⟨(List.nodup_cons.1 hp.1.1).2, hp.2⟩
      · exact Safe.ofExcept_bind (fun _ _ => Safe.pure fun _ hp => hp.2) fun _ _ _ hp => hp.2
  refine Safe.exists_and fun a => ?_
  rw [freeGuest, hroot]
  have hdone : ∀ {h₁ : Host}, ((root :: g.ownPages).Nodup ∧
      m.Furnished {q | q ∈ root :: g.ownPages} root h.memory a) ∧
        TornDown h.memory a {root} root h₁.memory →
      (root :: g.ownPages).Nodup ∧ m.Adds {q | q ∈ root :: g.ownPages} h₁.memory :=
    fun hp => ⟨hp.1.1, hp.1.2.of_tornDown hp.2⟩
  refine Safe.attempt_bind ((teardown_safe (a := a) {root} hroot).assume
    fun _ hp => ⟨hp.2.balanced, hp.2.rooted, rfl, hp.2.level⟩) ?_ ?_
  · exact fun _ h₁ => (hrest _ h₁).assume fun _ hp => hdone hp
  · exact fun _ h₁ => (hrest _ h₁).assume fun _ hp => hdone hp

/-- What building a guest has added to memory: its own five pages and, if it is populated, those that
back its memory with the tables on the way to them. -/
def Built (config : GuestConfig) (m : Memory) (g : Guest) (m' : Memory) : Prop :=
  ∃ root, g.table.root = some root ∧ (root :: g.ownPages).Nodup ∧
    if config.populated then
      m.Stocks {q | q ∈ root :: g.ownPages} root (Region.ramNumbers config.physSize) m' ∧
        (Region.ramNumbers config.physSize).ncard = 160 + (config.physSize.toNat / 4096 - 256)
    else m.Adds {q | q ∈ root :: g.ownPages} m'

/-- A new guest keeps its memory only if all of it is backed. -/
private theorem populateNew_built {config : GuestConfig} (hconfig : config.populated = true)
    (haligned : config.physSize.toNat % 4096 = 0) (hsize : g.physSize = config.physSize)
    (hroot : g.table.root = some root) :
    (do
      match ← attempt (onMemory (g.table.populateAll g.physSize)) with
      | .ok () => return g
      | .error e =>
          match ← attempt (freeGuest g) with
          | .ok () => pure ()
          | .error e =>
              say .warn ("Failed to release a partially populated guest: " ++ VmError.text e)
          fail e : HostM Guest).Safe F h
      ((root :: g.ownPages).Nodup ∧ h.memory.Regular ∧ h.memory.words root = .zero ∧
        m.Adds {q | q ∈ root :: g.ownPages} h.memory)
      (fun g h' => Built config m g h'.memory) (fun _ h' => m.Adds ∅ h'.memory) := by
  have hstart : (root :: g.ownPages).Nodup ∧ h.memory.Regular ∧ h.memory.words root = .zero ∧
      m.Adds {q | q ∈ root :: g.ownPages} h.memory →
      m.Furnished {q | q ∈ root :: g.ownPages} root h.memory
        ((Account.bare h.memory.refs (· ∈ m.pages)).plant root 3 none) :=
    fun hp => .of_adds hp.2.1 hp.2.2.2 List.mem_cons_self hp.2.2.1
  have hpopulate : (onMemory (g.table.populateAll g.physSize)).Safe F h
      ((root :: g.ownPages).Nodup ∧ h.memory.Regular ∧ h.memory.words root = .zero ∧
        m.Adds {q | q ∈ root :: g.ownPages} h.memory)
      (fun _ h' => Built config m g h'.memory)
      (fun _ h' => ∃ a, m.Furnished {q | q ∈ root :: g.ownPages} root h'.memory a) := by
    refine onMemory_safe ((Ept.populateAll_fills hroot g.physSize).mono
      (fun _ hp => ⟨(hstart hp).balanced, (hstart hp).level⟩) ?_ ?_)
    · rintro _ m₁ - - hp ⟨hle, a', hfills⟩
      refine ⟨root, hroot, hp.1, ?_⟩
      rw [if_pos hconfig, ← hsize]
      rw [← hsize] at haligned
      refine ⟨?_, Region.ncard_ramNumbers hle haligned⟩
      exact ((hstart hp).of_keeps hfills.toKeeps).stocks (hfills.tailored (hstart hp) hp.2.2.1)
    · rintro _ m₁ - - hp ⟨a', S, -, hpop⟩
      exact ⟨a', (hstart hp).of_keeps hpop.toKeeps⟩
  refine Safe.attempt_bind hpopulate (fun _ h₁ => Safe.pure fun _ hp => hp.2) fun err h₁ => ?_
  refine Safe.attempt_bind ((freeGuest_adds (m := m) hroot).assume fun _ hp => ⟨hp.1.1, hp.2⟩)
    (fun _ h₂ => ?_) fun err' h₂ => ?_
  · exact Safe.fail fun _ hp => hp.2
  · exact Safe.modify_bind rfl (Safe.fail fun _ hp => hp.2)

/-- A guest is built with all that it needs, or nothing is kept of the attempt. -/
theorem buildGuest_built (config : GuestConfig) :
    (buildGuest config).Safe F h h.memory.Regular
      (fun g h' => Built config h.memory g h'.memory) (fun _ h' => h.memory.Adds ∅ h'.memory) := by
  refine Safe.require_bind (fun hsize => ?_) fun _ _ _ => .refl _
  have haligned : config.physSize.toNat % 4096 = 0 := by
    simp only [Bool.and_eq_true, beq_iff_eq] at hsize
    exact congrArg UInt64.toNat hsize.2
  refine Safe.bind (R := fun r h₁ => h.memory.ObtainsAll r h₁.memory)
    (onMemory_safe ((allocRetainedMany_obtains 5).mono (fun _ hp => hp)
      (fun _ _ _ _ _ hq => hq) fun _ _ _ _ _ he => he.elim)) fun r h₁ => ?_
  refine Safe.orFail_bind (fun v hv => ?_) fun hnone _ hp => ?_
  · subst hv
    have hlist : v.toList = [v[0], v[1], v[2], v[3], v[4]] := toList_pages v
    have hgiven : ∀ {h₁ : Host}, h.memory.Regular ∧ h.memory.ObtainsAll (some v) h₁.memory →
        h.memory.Obtains [v[0], v[1], v[2], v[3], v[4]] h₁.memory := by
      rintro h₁ ⟨-, hp⟩
      rw [← hlist]
      exact hp
    have hblock : h.memory.Regular ∧ h.memory.ObtainsAll (some v) h₁.memory →
        v[1].pageDown ∈ h₁.memory.pages := by
      intro hp
      rw [(hgiven hp).pageDown (by simp)]
      exact ((hgiven hp).adds.live _).2 (.inl (by simp))
    refine Safe.attempt_bind (formatBlock_safe hblock) (fun _ h₂ => ?_) fun _ h₂ => ?_
    · have hstart : (h.memory.Regular ∧ h.memory.ObtainsAll (some v) h₁.memory) ∧
          (∃ f, h₂.memory = h₁.memory.edited v[1] f) →
          [v[0], v[1], v[2], v[3], v[4]].Nodup ∧ h₂.memory.Regular ∧ h₂.memory.words v[0] = .zero ∧
            h.memory.Adds {q | q ∈ [v[0], v[1], v[2], v[3], v[4]]} h₂.memory := by
        rintro ⟨hp, f, hf⟩
        have hobtains := hgiven hp
        have hne : v[0] ≠ v[1] := by
          have hnodup := hobtains.nodup
          simp only [List.nodup_cons, List.mem_cons, not_or] at hnodup
          exact hnodup.1.1
        rw [hf]
        exact ⟨hobtains.nodup, hobtains.regular.edited f,
          hobtains.words_edited (by simp) (by simp) hne f, hobtains.adds.edited f⟩
      refine Safe.ite (fun hconfig => ?_) fun hconfig => ?_
      · exact (populateNew_built hconfig haligned rfl rfl).assume fun _ hp => hstart hp
      · refine Safe.pure fun _ hp => ⟨v[0], rfl, (hstart hp).1, ?_⟩
        rw [if_neg hconfig]
        exact (hstart hp).2.2.2
    · refine Safe.bind (R := fun _ h₃ => h.memory.Adds ∅ h₃.memory)
        (onMemory_safe ((releaseAll_adds v.toList).mono (fun _ hp => ?_)
          (fun _ _ _ _ _ hq => hq) fun _ _ _ _ _ he => he.elim)) fun _ h₃ => ?_
      · rw [hp.2, hlist]
        exact ⟨(hgiven hp.1).nodup, (hgiven hp.1).adds⟩
      · exact Safe.fail fun _ hp => hp.2
  · subst hnone
    exact hp.2

section Errors

variable {k : Nat}

theorem onMemory_refused {α : Type} {x : MemoryM VmError α} {E : VmError → Memory → Prop}
    (hx : x.Upholds (Refused k) (fun _ _ => True) E) :
    (onMemory x).Upholds (fun h : Host => h.memory.Refused k) (fun _ _ => True)
      fun e h => E e h.memory := by
  intro h hh
  simp only [onMemory, onPlatform, Platform.onMemory, ends_onPart]
  exact hx h.memory hh

theorem freeGuest_refused (g : Guest) :
    (freeGuest g).Upholds (fun h : Host => h.memory.Refused k) fun _ _ => True := by
  have hsteady := refused_steady k
  have hrelease : ∀ p, (release p : MemoryM VmError Unit).Upholds (Refused k) fun _ _ => True :=
    fun p => hsteady.release p
  have hflush : invept.Upholds (fun h : Host => h.memory.Refused k) fun _ _ => True := by
    intro h hh
    refine Ends.mono (invept_quiet (F := fun _ => True) h) ?_ ?_ fun _ _ _ => trivial
    all_goals
      intro _ h₁ hm
      have hm : h₁.memory = h.memory := hm
      show h₁.memory.refused = k
      rw [hm]
      exact hh
  refine Upholds.bind (Upholds.attempt (Upholds.bind (onMemory_refused ?_) fun _ => hflush))
    fun result => ?_
  · exact Upholds.mapError (Upholds.bind Upholds.orFail fun _ => Ept.sweep_upholds hsteady _)
  · have hlast : (do
        onMemory (g.ownPages.forM release)
        ofExcept result).Upholds (fun h : Host => h.memory.Refused k) fun _ _ => True :=
      Upholds.bind (onMemory_refused (Upholds.forM fun p _ => hrelease p)) fun _ => Upholds.ofExcept
    split
    · exact Upholds.bind (onMemory_refused (hrelease _)) fun _ => hlast
    · exact hlast

end Errors

/-- The five pages of a guest are obtained: its size is one that a guest may have, and the limit on
allocations permits them. -/
def Supplied (config : GuestConfig) (h : Host) : Prop :=
  config.physSize ≠ 0 ∧ config.physSize % pageSize = 0 ∧ h.memory.Affords 5

/-- The error tells why no guest was built. -/
structure Explains (config : GuestConfig) (h : Host) (e : VmError) (h' : Host) : Prop where
  size : e = .invalidArgument ↔ config.physSize = 0 ∨ config.physSize % pageSize ≠ 0
  shortage : e = .noMemory ↔ h.memory.refused < h'.memory.refused
  region : e = .vmcsInit ↔ Supplied config h ∧
    pageSize < VmxBasic.regionSize (h.cpu.processor.rdmsr .vmxBasic)

theorem formatBlock_ends (page : Hpa) :
    (formatBlock page).Ends h
      (fun _ h' => VmxBasic.regionSize (h.cpu.processor.rdmsr .vmxBasic) ≤ pageSize ∧
        h'.memory.refused = h.memory.refused)
      (fun e h' => e = .vmcsInit ∧ h' = h ∧
        pageSize < VmxBasic.regionSize (h.cpu.processor.rdmsr .vmxBasic))
      fun _ _ => True := by
  rw [formatBlock, ends_bind, processor, ends_bind, ends_get, ends_pure, ends_bind, ends_require]
  split_ifs with hsize
  · simp only [decide_eq_true_eq] at hsize
    simp only [onMemory, onPlatform, Platform.onMemory, ends_onPart]
    exact editPage_ends (fun _ => ⟨hsize, rfl⟩) fun _ _ => trivial
  · simp only [decide_eq_true_eq, UInt64.not_le] at hsize
    exact ⟨rfl, rfl, hsize⟩

/-- What is wrong once the pages of the guest are there. -/
private theorem buildWith_explains {config : GuestConfig} {pages : Vector Hpa 5} {h₁ : Host}
    (hsupplied : Supplied config h) (hcpu : h₁.cpu = h.cpu)
    (hrefused : h₁.memory.refused = h.memory.refused) :
    (buildWith config pages).Ends h₁ (fun _ h' => h'.memory.refused = h.memory.refused)
      (fun e h' => (e.errno = -4 → e = .noMemory) ∧ Explains config h e h') fun _ _ => True := by
  have hsized : ¬(config.physSize = 0 ∨ config.physSize % pageSize ≠ 0) := by
    rintro (hzero | hodd)
    · exact hsupplied.1 hzero
    · exact hodd hsupplied.2.1
  rw [buildWith, ends_bind, ends_attempt]
  refine Ends.mono (formatBlock_ends _) (fun _ h₂ hfits => ?_) (fun e h₂ he => ?_) fun _ _ h => h
  · rw [hcpu] at hfits
    have hsmall : ¬(Supplied config h ∧
        pageSize < VmxBasic.regionSize (h.cpu.processor.rdmsr .vmxBasic)) := fun hlarge =>
      absurd hlarge.2 (UInt64.not_lt.2 hfits.1)
    have hsame : h₂.memory.refused = h.memory.refused := hfits.2.trans hrefused
    dsimp only
    rw [ends_ite]
    split_ifs
    · rw [ends_bind, ends_attempt]
      refine Ends.mono (onMemory_refused (Ept.populateAll_blames _ _) h₂ hsame)
        (fun _ _ h => h) (fun e h₃ he => ?_) fun _ _ h => h
      have hexplains : ∀ h₄ : Host, h₄.memory.refused = h₃.memory.refused →
          Explains config h e h₄ := by
        intro h₄ hh₄
        obtain ⟨hblames, hcause⟩ := he
        have hblames : h₃.memory.refused = h.memory.refused + if e = .noMemory then 1 else 0 := hblames
        refine ⟨?_, ?_, ?_⟩
        · rcases hcause with rfl | ⟨cause, -, rfl⟩ <;> simpa using hsized
        · rw [hh₄, hblames]
          split_ifs with hnone
          · simp [hnone]
          · simp [hnone]
        · rcases hcause with rfl | ⟨cause, -, rfl⟩ <;> simpa using hsmall
      dsimp only
      rw [ends_bind, ends_attempt]
      refine Ends.mono (freeGuest_refused (k := h₃.memory.refused) _ h₃ rfl) (fun _ h₄ hh₄ => ?_)
        (fun _ h₄ hh₄ => ?_) fun _ _ h => h
      · exact ⟨he.eq_noMemory, hexplains h₄ hh₄⟩
      · exact ⟨he.eq_noMemory, hexplains _ hh₄⟩
    · exact hsame
  · obtain ⟨rfl, rfl, hlarge⟩ := he
    rw [hcpu] at hlarge
    dsimp only
    rw [ends_bind]
    have hsteady := refused_steady h.memory.refused
    refine Ends.mono (onMemory_refused (E := fun _ _ => False)
      (Upholds.forM fun p _ => hsteady.release p) h₂ hrefused) (fun _ h₃ hh₃ => ?_)
      (fun _ _ h => h.elim) fun _ _ h => h
    have hh₃ : h₃.memory.refused = h.memory.refused := hh₃
    refine ⟨by decide, by simpa using hsized, ?_, by simpa using ⟨hsupplied, hlarge⟩⟩
    rw [hh₃]
    simp

/-- An error tells whether the size, the limit on allocations or the size of control blocks was wrong;
without an error no allocation was refused. -/
theorem buildGuest_tells (config : GuestConfig) :
    (buildGuest config).Ends h (fun _ h' => h'.memory.refused = h.memory.refused)
      (fun e h' => (e.errno = -4 → e = .noMemory) ∧ (h'.memory.Fits → Explains config h e h'))
      fun _ _ => True := by
  rw [buildGuest_eq, ends_bind, ends_require]
  split_ifs with hsize
  · simp only [Bool.and_eq_true, bne_iff_ne, beq_iff_eq] at hsize
    have hsized : ¬(config.physSize = 0 ∨ config.physSize % pageSize ≠ 0) := by
      rintro (hzero | hodd)
      · exact hsize.1 hzero
      · exact hodd hsize.2
    rw [ends_bind]
    simp only [onMemory, onPlatform, Platform.onMemory, ends_onPart]
    refine Ends.mono (allocRetainedMany_affords (E := fun _ _ => False) 5) (fun r m₁ hr => ?_)
      (fun _ _ h => h.elim) fun _ _ h => h
    rw [ends_bind, ends_orFail]
    cases r with
    | none =>
        refine ⟨fun _ => rfl, fun hf => ⟨by simpa using hsized, ?_, ?_⟩⟩
        · simp only [true_iff]
          show h.memory.refused < m₁.refused
          rw [hr.1]
          exact Nat.lt_succ_self _
        · simp only [reduceCtorEq, false_iff]
          exact fun hlarge => hr.2 hf hlarge.1.2.2
    | some v =>
        exact Ends.mono (buildWith_explains ⟨hsize.1, hsize.2, hr.2.1⟩ rfl hr.1) (fun _ _ h => h)
          (fun _ _ h => ⟨h.1, fun _ => h.2⟩) fun _ _ h => h
  · have hsized : config.physSize = 0 ∨ config.physSize % pageSize ≠ 0 := by
      simp only [Bool.and_eq_true, bne_iff_ne, beq_iff_eq, not_and_or, not_not] at hsize
      exact hsize
    refine ⟨by decide, fun _ => ⟨by simpa using hsized, by simp, ?_⟩⟩
    simp only [reduceCtorEq, false_iff]
    rintro ⟨⟨hne, heven, -⟩, -⟩
    exact hsized.elim hne fun hodd => hodd heven

theorem buildGuest_explains (config : GuestConfig) :
    (buildGuest config).Ends h (fun _ h' => h'.memory.refused = h.memory.refused)
      (fun e h' => h'.memory.Fits → Explains config h e h') fun _ _ => True :=
  (buildGuest_tells config).mono (fun _ _ h => h) (fun _ _ h => h.2) fun _ _ h => h

theorem buildGuest_reports (config : GuestConfig) :
    (buildGuest config).Ends h (fun _ h' => h'.memory.refused = h.memory.refused)
      (fun e h' => h'.memory.Fits → (e.errno = -4 ↔ h.memory.refused < h'.memory.refused))
      fun _ _ => True := by
  refine (buildGuest_tells config).mono (fun _ _ h => h) (fun e h' he hf => ?_) fun _ _ h => h
  rw [← (he.2 hf).shortage]
  refine ⟨he.1, ?_⟩
  rintro rfl
  rfl

/-- Building a guest is all or nothing.  Whichever allocation fails, and whether or not the flush of
the translations fails as well, an error leaves the pages and the references that there were, and tells
what was wrong; without an error the guest has what it needs. -/
theorem buildGuest_all_or_nothing (config : GuestConfig) (hregular : h.memory.Regular) :
    (buildGuest config).Ends h
      (fun g h' => h'.memory.Fits →
        h'.memory.refused = h.memory.refused ∧ Built config h.memory g h'.memory)
      (fun e h' => h'.memory.Fits →
        (∀ p, p ∈ h'.memory.pages ↔ p ∈ h.memory.pages) ∧
          (∀ p, h'.memory.refs p = h.memory.refs p) ∧ Explains config h e h')
      fun _ h' => ¬h'.memory.Fits := by
  have hbuilt := (buildGuest_built (F := fun _ => False) (h := h) config).ends fun _ => hregular
  refine Ends.mono (hbuilt.and (buildGuest_explains config)) (fun g h' hg hf => ?_)
    (fun e h' he hf => ?_) fun _ _ hp hf => hp.1 hf
  · exact ⟨hg.2, hg.1 hf⟩
  · have hadds := he.1 hf
    exact ⟨fun p => by simpa using hadds.live p, hadds.refs_eq, he.2 hf⟩

/-- When the limit permits no more than three pages, they are given back. -/
theorem buildGuest_all_or_nothing_scarce : ∃ h h' : Host, h.memory.Regular ∧
    (buildGuest { populated := true }).run h = .error (.error .noMemory) h' ∧ h'.memory.Fits ∧
      (∀ p, p ∈ h'.memory.pages ↔ p ∈ h.memory.pages) ∧
        ∀ p, h'.memory.refs p = h.memory.refs p := by
  have hregular := fresh_regular (some 3)
  obtain ⟨e, h', hrun, rfl, hf⟩ := Ends.exists_error (x := buildGuest { populated := true })
    (s := { memory := { fresh with budget := some 3 }, cpu := { id := 0 } })
    (E := fun e h' => e = .noMemory ∧ h'.memory.Fits) (by decide +kernel)
  have hsame := (buildGuest_all_or_nothing { populated := true } hregular).error hrun hf
  exact ⟨_, h', hregular, hrun, hf, hsame.1, hsame.2.1⟩

end Host

end Hypervisor
