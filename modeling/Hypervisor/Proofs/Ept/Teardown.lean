import Hypervisor.Proofs.Ept.Lookup
import Hypervisor.Proofs.Ept.PostOrder

/-!
# Tearing down a table

While a table is swept, the tables on the way are linked nowhere and the entries that were visited
are empty.  Each visit keeps this, and leaves alone what other tables map.  At the end the root is
empty and everything below it has been given back.
-/

namespace Hypervisor

namespace Ept

def Swept (m : Memory) (a : Account) : List Position → Prop
  | [] => True
  | here :: outer =>
      (a.level here.table = some (3 - outer.length) ∧ outer.length ≤ 3) ∧
        a.parent here.table = none ∧
        (∀ i : Fin wordsPerPage, i.val < here.next → m.entry ⟨here.table, i⟩ = .empty) ∧
        Swept m a outer

/-- A sweep of the table with a root has come to some positions. -/
structure Sweeping (m : Memory) (a : Account) (roots : Set Hpa) (root : Hpa)
    (positions : List Position) : Prop where
  balanced : m.Balanced a
  swept : Swept m a positions
  last : positions.getLast?.map Position.table = some root
  mem : root ∈ roots
  rooted : ∀ q k, a.level q = some k → a.parent q = none →
    (k = 3 ∧ q ∈ roots) ∨ q ∈ positions.map Position.table

end Ept

/-- Only the table with the given root has lost entries, and pages only references. -/
structure Memory.Shrinks (root : Hpa) (m : Memory) (a : Account) (m' : Memory) (a' : Account) :
    Prop where
  balanced : m'.Balanced a'
  idle : a'.idle = a.idle
  next : m'.next = m.next
  level : ∀ {q k}, a'.level q = some k → a.level q = some k
  whole : ∀ {r}, a.level r = some 3 → a'.level r = some 3
  mem : ∀ {q}, q ∈ m'.pages → q ∈ m.pages
  refs : ∀ q, m'.refs q ≤ m.refs q
  spared : ∀ {q}, q ∈ m.pages → m'.refs q = m.refs q → q ∈ m'.pages
  words : ∀ {q}, q ∈ m'.pages → a.level q = none → m'.words q = m.words q
  target : ∀ {s k q}, a'.level s.table = some k → (m'.entry s).target = some q →
    (m.entry s).target = some q
  translation : ∀ {r} n, a.level r = some 3 → r ≠ root → m'.translation r n = m.translation r n

namespace Memory.Shrinks

variable {root : Hpa} {m m₁ m₂ : Memory} {a a₁ a₂ : Account}

theorem refl (h : m.Balanced a) : Shrinks root m a m a where
  balanced := h
  idle := rfl
  next := rfl
  level := fun h => h
  whole := fun h => h
  mem := fun h => h
  refs := fun _ => Nat.le_refl _
  spared := fun hq _ => hq
  words := fun _ _ => rfl
  target := fun _ hq => hq
  translation := fun _ _ _ => rfl

theorem trans (h : Shrinks root m a m₁ a₁) (h' : Shrinks root m₁ a₁ m₂ a₂) :
    Shrinks root m a m₂ a₂ where
  balanced := h'.balanced
  idle := h'.idle.trans h.idle
  next := h'.next.trans h.next
  level := fun hq => h.level (h'.level hq)
  whole := fun hr => h'.whole (h.whole hr)
  mem := fun hq => h.mem (h'.mem hq)
  refs := fun q => (h'.refs q).trans (h.refs q)
  spared := fun {q} hq heq => by
    have hfirst := h.refs q
    have hsecond := h'.refs q
    exact h'.spared (h.spared hq (by omega)) (by omega)
  words := fun {q} hq hlevel => by
    have hlevel₁ : a₁.level q = none := by
      cases hk : a₁.level q with
      | none => rfl
      | some k => cases hlevel.symm.trans (h.level hk)
    rw [h'.words hq hlevel₁, h.words (h'.mem hq) hlevel]
  target := fun hs hq => h.target (h'.level hs) (h'.target hs hq)
  translation := fun n hr hne =>
    (h'.translation n (h.whole hr) hne).trans (h.translation n hr hne)

end Memory.Shrinks

namespace Ept

open Hypervisor.Action Memory

variable {m m' : Memory} {a a' : Account} {roots : Set Hpa} {root : Hpa} {here : Position} {outer : List Position}
  {page : Hpa}

theorem Swept.mono {positions : List Position} (h : Swept m a positions)
    (hlevel : ∀ {q k}, q ∈ positions.map Position.table → a.level q = some k → a'.level q = some k)
    (hparent : ∀ {q}, q ∈ positions.map Position.table → a.parent q = none → a'.parent q = none)
    (hentry : ∀ {s k}, s.table ∈ positions.map Position.table → a.level s.table = some k →
      m.entry s = .empty → m'.entry s = .empty) : Swept m' a' positions := by
  induction positions with
  | nil => trivial
  | cons here outer ih =>
      obtain ⟨⟨hl, hlen⟩, hp, he, ho⟩ := h
      have hmem : here.table ∈ (here :: outer).map Position.table := List.mem_cons_self
      refine ⟨⟨hlevel hmem hl, hlen⟩, hparent hmem hp, fun i hi => ?_, ?_⟩
      · exact hentry (s := ⟨here.table, i⟩) hmem hl (he i hi)
      · exact ih ho (fun hq => hlevel (List.mem_cons_of_mem _ hq))
          (fun hq => hparent (List.mem_cons_of_mem _ hq))
          fun hq => hentry (List.mem_cons_of_mem _ hq)

theorem Swept.level_lt {positions : List Position} (h : Swept m a positions) {q : Hpa}
    (hq : q ∈ positions.map Position.table) :
    ∃ k, a.level q = some k ∧ 3 < k + positions.length := by
  induction positions with
  | nil => cases hq
  | cons here outer ih =>
      obtain ⟨⟨hl, hlen⟩, -, -, ho⟩ := h
      rcases List.mem_cons.1 hq with rfl | hq
      · refine ⟨_, hl, ?_⟩
        rw [List.length_cons]
        omega
      · obtain ⟨k, hk, hlt⟩ := ih ho hq
        refine ⟨k, hk, ?_⟩
        rw [List.length_cons]
        omega

namespace Sweeping

theorem here_level (h : Sweeping m a roots root (here :: outer)) :
    a.level here.table = some (3 - outer.length) ∧ outer.length ≤ 3 := h.swept.1

theorem here_parent (h : Sweeping m a roots root (here :: outer)) : a.parent here.table = none :=
  h.swept.2.1

theorem here_eq_root (h : Sweeping m a roots root [here]) : here.table = root := by
  have hlast := h.last
  simpa only [List.getLast?_singleton, Option.map_some, Option.some.injEq] using hlast

theorem ne_here (h : Sweeping m a roots root (here :: outer)) {r : Hpa} (hr : a.level r = some 3)
    (hne : r ≠ root) : r ≠ here.table := by
  rintro rfl
  cases outer with
  | nil => exact hne h.here_eq_root
  | cons next outer =>
      have hlevel := h.here_level.1
      rw [hr, List.length_cons, Option.some.injEq] at hlevel
      omega

theorem here_ne_outer (h : Sweeping m a roots root (here :: outer)) {q : Hpa}
    (hq : q ∈ outer.map Position.table) : q ≠ here.table := by
  rintro rfl
  obtain ⟨k, hk, hlt⟩ := h.swept.2.2.2.level_lt hq
  obtain ⟨hl, hlen⟩ := h.here_level
  rw [hl, Option.some.injEq] at hk
  omega

theorem skip (h : Sweeping m a roots root (here :: outer)) (hi : here.next < wordsPerPage)
    (hempty : m.entry ⟨here.table, ⟨here.next, hi⟩⟩ = .empty) :
    Sweeping m a roots root ({ here with next := here.next + 1 } :: outer) where
  balanced := h.balanced
  swept := by
    obtain ⟨hl, hp, he, ho⟩ := h.swept
    refine ⟨hl, hp, fun i hlt => ?_, ho⟩
    rcases Nat.lt_succ_iff_lt_or_eq.1 hlt with hlt | heq
    · exact he i hlt
    · rw [show i = ⟨here.next, hi⟩ from Fin.ext heq]
      exact hempty
  last := by
    have hlast := h.last
    cases outer <;> exact hlast
  mem := h.mem
  rooted := h.rooted

theorem translation_eq (h : Sweeping m a roots root (here :: outer)) {r : Hpa} {n : PageNumber}
    (hr : a.level r = some 3) (hne : r ≠ root)
    (hsame : ∀ s k, a.level s.table = some k → s.table ≠ here.table → m'.entry s = m.entry s) :
    m'.translation r n = m.translation r n :=
  h.balanced.shape.translationFrom_congr (fun q => q = here.table)
    (fun _ hq => by rw [hq]; exact h.here_parent) hsame hr (h.ne_here hr hne)

/-- Emptying an entry on the way. -/
theorem shrinks_stored (h : Sweeping m a roots root (here :: outer)) (i : Fin wordsPerPage)
    (hbalanced : (m.stored ⟨here.table, i⟩ .empty).Balanced a') (hidle : a'.idle = a.idle)
    (hlevel : a'.level = a.level) : Shrinks root m a (m.stored ⟨here.table, i⟩ .empty) a' where
  balanced := hbalanced
  idle := hidle
  next := rfl
  level := fun hq => by rwa [hlevel] at hq
  whole := fun hr => by rwa [hlevel]
  mem := fun hq => mem_stored.1 hq
  refs := fun q => Nat.le_of_eq refs_stored
  spared := fun hq _ => mem_stored.2 hq
  words := fun {q} hq hnone => by
    have hl := h.here_level.1
    have hne : q ≠ here.table := by
      rintro rfl
      cases hnone.symm.trans hl
    refine words_stored_of_ne (h.balanced.table_live hl) (h.balanced.table_aligned hl) ?_
    rw [Address.pageDown_of_isPageAligned (h.balanced.page (mem_stored.1 hq)).1]
    exact hne
  target := fun {s k q} hs hq => by
    rw [hlevel] at hs
    rw [h.balanced.entry_stored (s := ⟨here.table, i⟩) h.here_level.1 hs] at hq
    split_ifs at hq with he
    · rw [Entry.target_empty] at hq
      cases hq
    · exact hq
  translation := fun {r} n hr hne => by
    refine h.translation_eq hr hne fun s k hs hst => ?_
    have hss : s ≠ ⟨here.table, i⟩ := fun he => hst (congrArg Slot.table he)
    rw [h.balanced.entry_stored (s := ⟨here.table, i⟩) h.here_level.1 hs, if_neg hss]

theorem entry_stored_empty (h : Sweeping m a roots root (here :: outer)) (i : Fin wordsPerPage)
    {s : Slot} {k : Nat} (hs : a.level s.table = some k) (he : m.entry s = .empty) :
    (m.stored ⟨here.table, i⟩ .empty).entry s = .empty := by
  rw [h.balanced.entry_stored (s := ⟨here.table, i⟩) h.here_level.1 hs, he, ite_self]

theorem entry_stored_self (h : Sweeping m a roots root (here :: outer)) (i : Fin wordsPerPage) :
    (m.stored ⟨here.table, i⟩ .empty).entry ⟨here.table, i⟩ = .empty := by
  have hl := h.here_level.1
  have ha := h.balanced.table_aligned hl
  rw [Memory.entry_stored (h.balanced.table_live hl) ha ha, if_pos rfl]

/-- Entering the table that an entry links. -/
theorem enter (h : Sweeping m a roots root (here :: outer)) (hi : here.next < wordsPerPage)
    (hlen : outer.length < levels - 1)
    (htarget : (m.entry ⟨here.table, ⟨here.next, hi⟩⟩).target = some page) :
    Shrinks root m a (m.stored ⟨here.table, ⟨here.next, hi⟩⟩ .empty) (a.unlink page) ∧
      Sweeping (m.stored ⟨here.table, ⟨here.next, hi⟩⟩ .empty) (a.unlink page) roots root
        (⟨page, 0⟩ :: { here with next := here.next + 1 } :: outer) := by
  have hlen' : outer.length < 3 := hlen
  have hlevel : a.level here.table = some ((2 - outer.length) + 1) := by
    rw [h.here_level.1]
    congr 1
    omega
  have hbalanced := h.balanced.stored_unlink (s := ⟨here.table, ⟨here.next, hi⟩⟩) hlevel htarget
  have hpage := h.balanced.shape.level_of_target (s := ⟨here.table, ⟨here.next, hi⟩⟩) hlevel htarget
  have hunlinked : ∀ {q}, a.parent q = none → (a.unlink page).parent q = none := by
    intro q hq
    simp [Account.unlink, hq]
  refine ⟨h.shrinks_stored _ hbalanced rfl rfl, hbalanced, ?_, ?_, h.mem, ?_⟩
  · refine ⟨⟨?_, by rw [List.length_cons]; omega⟩, by simp [Account.unlink], ?_, ?_⟩
    · show a.level page = _
      rw [hpage, List.length_cons]
      congr 1
      omega
    · intro i hlt
      exact absurd hlt (Nat.not_lt_zero _)
    · obtain ⟨hl, hp, he, ho⟩ := h.swept
      refine ⟨hl, hunlinked hp, fun i hlt => ?_, ?_⟩
      · rcases Nat.lt_succ_iff_lt_or_eq.1 hlt with hlt | heq
        · exact h.entry_stored_empty _ (s := ⟨here.table, i⟩) hlevel (he i hlt)
        · rw [show i = ⟨here.next, hi⟩ from Fin.ext heq]
          exact h.entry_stored_self _
      · exact ho.mono (fun _ hk => hk) (fun _ hq => hunlinked hq)
          fun _ hs he => h.entry_stored_empty _ hs he
  · have hlast := h.last
    cases outer <;> exact hlast
  · intro q k hq hroot
    by_cases hqp : q = page
    · right
      rw [hqp]
      exact List.mem_cons_self
    · have hroot' : a.parent q = none := by simpa [Account.unlink, hqp] using hroot
      rcases h.rooted q k hq hroot' with hk | hmem
      · exact .inl hk
      · exact .inr (List.mem_cons_of_mem _ hmem)

/-- Giving back the page in a leaf. -/
theorem unmap (h : Sweeping m a roots root (here :: outer)) (hi : here.next < wordsPerPage)
    (hlen : ¬outer.length < levels - 1)
    (htarget : (m.entry ⟨here.table, ⟨here.next, hi⟩⟩).target = some page) :
    Shrinks root m a ((m.stored ⟨here.table, ⟨here.next, hi⟩⟩ .empty).released page) a ∧
      Sweeping ((m.stored ⟨here.table, ⟨here.next, hi⟩⟩ .empty).released page) a roots root
        ({ here with next := here.next + 1 } :: outer) := by
  have hlen' : ¬outer.length < 3 := hlen
  have hlevel : a.level here.table = some 0 := by
    rw [h.here_level.1]
    congr 1
    omega
  -- Between clearing the leaf and releasing the page, its reference is one that is held.
  have hstored : (m.stored ⟨here.table, ⟨here.next, hi⟩⟩ .empty).Balanced (a.keep (some page)) := by
    refine h.balanced.stored_leaf (s := ⟨here.table, ⟨here.next, hi⟩⟩) hlevel (.empty 0)
      (fun q => ?_) fun q k hq hroot => ?_
    · rw [htarget, Entry.target_empty]
      simp
    · have hheld := h.balanced.root hq hroot
      omega
  have hheld : (a.keep (some page)).held page = a.held page + 1 := by simp [Account.keep]
  have hbalanced := hstored.released (p := page) (by omega) fun k hk hroot => by
    have hpos := h.balanced.root hk hroot
    omega
  rw [Account.drop_keep] at hbalanced
  have hentry : ∀ {s k}, a.level s.table = some k →
      ((m.stored ⟨here.table, ⟨here.next, hi⟩⟩ .empty).released page).entry s =
        (m.stored ⟨here.table, ⟨here.next, hi⟩⟩ .empty).entry s := fun hs =>
    entry_congr (words_released (hbalanced.table_pageDown_live hs))
  have hshrinks : Shrinks root m a ((m.stored ⟨here.table, ⟨here.next, hi⟩⟩ .empty).released page)
      a := by
    have hfirst := h.shrinks_stored ⟨here.next, hi⟩ hstored rfl rfl
    refine ⟨hbalanced, rfl, rfl, fun hq => hq, fun hr => hr, ?_, ?_, ?_, ?_, ?_, ?_⟩
    · intro q hq
      exact hfirst.mem (mem_released.1 hq).1
    · intro q
      have hle := hfirst.refs q
      rw [refs_released]
      omega
    · intro q hq heq
      rw [refs_released, refs_stored] at heq
      refine mem_released.2 ⟨mem_stored.2 hq, ?_⟩
      rintro ⟨rfl, hone⟩
      rw [refs_stored] at hone
      simp only [if_true] at heq
      omega
    · intro q hq hnone
      have hq' := (mem_released.1 hq).1
      rw [words_released, hfirst.words hq' hnone]
      rw [Address.pageDown_of_isPageAligned (hbalanced.page hq).1]
      exact hq
    · intro s k q hs hq
      rw [hentry hs] at hq
      exact hfirst.target hs hq
    · intro r n hr hne
      refine h.translation_eq hr hne fun s k hs hst => ?_
      have hss : s ≠ ⟨here.table, ⟨here.next, hi⟩⟩ := fun he => hst (congrArg Slot.table he)
      rw [hentry hs, h.balanced.entry_stored (s := ⟨here.table, ⟨here.next, hi⟩⟩) hlevel hs,
        if_neg hss]
  have hsweeping : Sweeping ((m.stored ⟨here.table, ⟨here.next, hi⟩⟩ .empty).released page) a roots root
      (here :: outer) := by
    refine ⟨hbalanced, ?_, h.last, h.mem, h.rooted⟩
    refine h.swept.mono (fun _ hk => hk) (fun _ hq => hq) fun _ hs he => ?_
    rw [hentry hs]
    exact h.entry_stored_empty _ hs he
  refine ⟨hshrinks, hsweeping.skip hi ?_⟩
  rw [hentry (s := ⟨here.table, ⟨here.next, hi⟩⟩) hlevel]
  exact h.entry_stored_self _

theorem all_empty (h : Sweeping m a roots root (here :: outer)) (hi : ¬here.next < wordsPerPage)
    (i : Fin wordsPerPage) : m.entry ⟨here.table, i⟩ = .empty :=
  h.swept.2.2.1 i (by omega)

/-- Giving back an empty table on the way out. -/
theorem leave (h : Sweeping m a roots root (here :: outer)) (hi : ¬here.next < wordsPerPage)
    (hne : outer ≠ []) :
    Shrinks root m a (m.released here.table) ((a.fell here.table).drop here.table) ∧
      Sweeping (m.released here.table) ((a.fell here.table).drop here.table) roots root outer := by
  have hfell := h.balanced.fell h.here_parent (h.all_empty hi)
  have hheld : 0 < a.held here.table := h.balanced.root h.here_level.1 h.here_parent
  have hbalanced := hfell.released (p := here.table) hheld fun k hk _ => by
    simp [Account.fell] at hk
  have hlevel : ∀ {q k}, ((a.fell here.table).drop here.table).level q = some k →
      q ≠ here.table ∧ a.level q = some k := by
    intro q k hq
    by_cases he : q = here.table
    · simp [Account.fell, Account.drop, he] at hq
    · exact ⟨he, by simpa [Account.fell, Account.drop, he] using hq⟩
  have hlevel' : ∀ {q k}, q ≠ here.table → a.level q = some k →
      ((a.fell here.table).drop here.table).level q = some k := by
    intro q k he hq
    simpa [Account.fell, Account.drop, he] using hq
  have hentry : ∀ {s k}, a.level s.table = some k → s.table ≠ here.table →
      (m.released here.table).entry s = m.entry s := fun hs he =>
    entry_congr (words_released (hbalanced.table_pageDown_live (hlevel' he hs)))
  -- The table is not the root of any other one, for it is on a lower level.
  have hlower : ∀ {r}, a.level r = some 3 → r ≠ here.table := by
    rintro r hr rfl
    rw [h.here_level.1, Option.some.injEq] at hr
    have hpos := List.length_pos_iff.2 hne
    have hlen := h.here_level.2
    omega
  refine ⟨⟨hbalanced, rfl, rfl, fun hq => (hlevel hq).2, fun hr => hlevel' (hlower hr) hr,
    ?_, ?_, ?_, ?_, ?_, ?_⟩, hbalanced, ?_, ?_, h.mem, ?_⟩
  · intro q hq
    exact (mem_released.1 hq).1
  · intro q
    rw [refs_released]
    omega
  · intro q hq heq
    rw [refs_released] at heq
    refine mem_released.2 ⟨hq, ?_⟩
    rintro ⟨rfl, hone⟩
    simp only [if_true] at heq
    omega
  · intro q hq hnone
    refine words_released ?_
    rw [Address.pageDown_of_isPageAligned (hbalanced.page hq).1]
    exact hq
  · intro s k q hs hq
    rw [hentry (hlevel hs).2 (hlevel hs).1] at hq
    exact hq
  · intro r n hr hrne
    exact h.translation_eq hr hrne fun s k hs hst => hentry hs hst
  · refine h.swept.2.2.2.mono (fun hq hk => hlevel' (h.here_ne_outer hq) hk) (fun _ hq => hq) ?_
    intro s k hq hs he
    rw [hentry hs (h.here_ne_outer hq), he]
  · have hlast := h.last
    cases outer with
    | nil => exact absurd rfl hne
    | cons next outer => exact hlast
  · intro q k hq hroot
    obtain ⟨hqne, hq⟩ := hlevel hq
    rcases h.rooted q k hq hroot with hk | hmem
    · exact .inl hk
    · rcases List.mem_cons.1 hmem with he | hmem
      · exact absurd he hqne
      · exact .inr hmem

end Sweeping

/-- The references that a sweep gives back besides those of entries: each table further in than the
root is held while it is swept. -/
def givenBack (positions : List Position) (q : Hpa) : Nat :=
  (positions.dropLast.map Position.table).count q

theorem givenBack_next (n : Nat) (q : Hpa) :
    givenBack ({ here with next := n } :: outer) q = givenBack (here :: outer) q := by
  cases outer <;> rfl

theorem givenBack_cons (hne : outer ≠ []) (q : Hpa) :
    givenBack (here :: outer) q = givenBack outer q + if q = here.table then 1 else 0 := by
  cases outer with
  | nil => exact absurd rfl hne
  | cons next outer =>
      show (here.table :: _).count q = _
      rw [List.count_cons]
      simp only [beq_iff_eq, eq_comm (a := here.table)]
      rfl

/-- How far a sweep has come: its positions, what was done so far, and the account of the memory. -/
structure Stage where
  positions : List Position
  done : Observed
  account : Account

inductive Advances : Stage → Stage → Prop
  | skip {here outer o a} (hi : here.next < wordsPerPage)
      (target : (o.memory.entry ⟨here.table, ⟨here.next, hi⟩⟩).target = none) :
      Advances ⟨here :: outer, o, a⟩
        ⟨{ here with next := here.next + 1 } :: outer,
          ⟨o.memory, o.visits ++ [.read ⟨here.table, ⟨here.next, hi⟩⟩]⟩, a⟩
  | enter {here outer o a page} (hi : here.next < wordsPerPage) (hlen : outer.length < levels - 1)
      (target : (o.memory.entry ⟨here.table, ⟨here.next, hi⟩⟩).target = some page) :
      Advances ⟨here :: outer, o, a⟩
        ⟨⟨page, 0⟩ :: { here with next := here.next + 1 } :: outer,
          ⟨o.memory.stored ⟨here.table, ⟨here.next, hi⟩⟩ .empty,
            o.visits ++ [.read ⟨here.table, ⟨here.next, hi⟩⟩] ++
              [.clear ⟨here.table, ⟨here.next, hi⟩⟩]⟩, a.unlink page⟩
  | unmap {here outer o a page} (hi : here.next < wordsPerPage) (hlen : ¬outer.length < levels - 1)
      (target : (o.memory.entry ⟨here.table, ⟨here.next, hi⟩⟩).target = some page) :
      Advances ⟨here :: outer, o, a⟩
        ⟨{ here with next := here.next + 1 } :: outer,
          ⟨(o.memory.stored ⟨here.table, ⟨here.next, hi⟩⟩ .empty).released page,
            o.visits ++ [.read ⟨here.table, ⟨here.next, hi⟩⟩] ++
              [.clear ⟨here.table, ⟨here.next, hi⟩⟩] ++ [.release page]⟩, a⟩
  | leave {here outer o a} (hi : ¬here.next < wordsPerPage) (hne : outer ≠ []) :
      Advances ⟨here :: outer, o, a⟩
        ⟨outer, ⟨o.memory.released here.table, o.visits ++ [.release here.table]⟩,
          (a.fell here.table).drop here.table⟩

namespace Observed

variable {ε : Type} {I : Stage → Prop}

/-- Started under `P`, what is left of a sweep ends after the root in a stage with `I`. The next page
to be allocated stays the same in any case. -/
def Finishes (I : Stage → Prop) (P : Prop) (next : UInt64) (o : Observed)
    (x : Action Observed ε Unit) : Prop :=
  x.Ends o
    (fun _ o' => o'.memory.next = next ∧ (P → ∃ here a, I ⟨[here], o', a⟩ ∧ ¬here.next < wordsPerPage))
    (fun _ o' => o'.memory.next = next ∧ ¬P) fun _ o' => o'.memory.next = next ∧ ¬P

theorem Finishes.assume {P P' : Prop} {next : UInt64} {o : Observed} {x : Action Observed ε Unit}
    (h : Finishes I P next o x) (hP : P' → P) : Finishes I P' next o x := by
  refine Ends.mono h ?_ ?_ ?_
  · rintro _ o' ⟨hnext, hdone⟩
    exact ⟨hnext, fun hp => hdone (hP hp)⟩
  · rintro _ o' ⟨hnext, hnot⟩
    exact ⟨hnext, fun hp => hnot (hP hp)⟩
  · rintro _ o' ⟨hnext, hnot⟩
    exact ⟨hnext, fun hp => hnot (hP hp)⟩

/-- A sweep ends after the root, and keeps what every round keeps. -/
theorem sweep_finishes (hI : ∀ {st}, I st → Sweeping st.done.memory st.account roots root st.positions)
    (hround : ∀ {st st'}, I st → Advances st st' → I st') (positions : List Position)
    (o : Observed) (a : Account) :
    Finishes I (I ⟨positions, o, a⟩) o.memory.next o
      (recording.sweep positions : Action Observed ε Unit) := by
  induction positions using sweep.induct generalizing o a with
  | case1 =>
      rw [Visitor.sweep]
      exact ⟨rfl, fun h => absurd (hI h).last.symm (Option.some_ne_none root)⟩
  | case2 here outer hi ihnext ihenter =>
      rw [Visitor.sweep, dif_pos hi, Finishes, ends_bind]
      refine (ends_note ..).2 (Slot.read_ends (fun _ => ?_) fun _ hfree => ⟨rfl, fun h => ?_⟩)
      · cases htarget : (o.memory.entry ⟨here.table, ⟨here.next, hi⟩⟩).target with
        | none => exact (ihnext _ a).assume fun h => hround h (.skip hi htarget)
        | some page =>
            show Ends _ _ _ _ _
            rw [ends_bind]
            refine (ends_note ..).2 (ends_updatePage.2 ?_)
            by_cases hlen : outer.length < levels - 1
            · rw [dif_pos hlen]
              exact (ihenter page hlen _ _).assume fun h => hround h (.enter hi hlen htarget)
            · rw [dif_neg hlen, ends_bind]
              refine (ends_note ..).2 (release_ends (fun _ => ?_) fun _ hloose => ⟨rfl, fun h => ?_⟩)
              · exact (ihnext _ a).assume fun h => hround h (.unmap hi hlen htarget)
              · refine hloose ?_
                show 0 < (o.memory.stored ⟨here.table, ⟨here.next, hi⟩⟩ .empty).refs page
                rw [refs_stored]
                exact (hI h).balanced.refs_pos_of_target (s := ⟨here.table, ⟨here.next, hi⟩⟩)
                  (hI h).here_level.1 htarget
      · exact hfree ((hI h).balanced.table_pageDown_live (hI h).here_level.1)
  | case3 here outer hi hend =>
      rw [Visitor.sweep, dif_neg hi, if_pos hend]
      have houter : outer = [] := List.isEmpty_iff.1 hend
      subst houter
      exact ⟨rfl, fun h => ⟨here, a, h, hi⟩⟩
  | case4 here outer hi hmore ih =>
      rw [Visitor.sweep, dif_neg hi, if_neg hmore, Finishes, ends_bind]
      have hne : outer ≠ [] := fun he => hmore (List.isEmpty_iff.2 he)
      refine (ends_note ..).2 (release_ends (fun _ => ?_) fun _ hloose => ⟨rfl, fun h => ?_⟩)
      · exact (ih _ _).assume fun h => hround h (.leave hi hne)
      · exact hloose ((hI h).balanced.refs_pos_of_level (hI h).here_level.1)

end Observed

structure Underway (m : Memory) (a : Account) (roots : Set Hpa) (root : Hpa) (st : Stage) :
    Prop where
  sweeping : Sweeping st.done.memory st.account roots root st.positions
  shrinks : Shrinks root m a st.done.memory st.account
  held : ∀ q, st.account.held q = a.held q + givenBack st.positions q

namespace Underway

variable {st st' : Stage}

theorem start (h : m.Balanced a) (hrooted : a.Rooted roots) (hmem : root ∈ roots)
    (hlevel : a.level root = some 3) : Underway m a roots root ⟨[⟨root, 0⟩], ⟨m, []⟩, a⟩ where
  sweeping := by
    refine ⟨h, ⟨⟨hlevel, by decide⟩, h.shape.parent_of_level_eq_top hlevel, ?_, trivial⟩, rfl, hmem,
      fun q k hq hp => .inl (hrooted q k hq hp)⟩
    intro i hi
    exact absurd hi (Nat.not_lt_zero _)
  shrinks := .refl h
  held := fun _ => rfl

theorem advance (h : Underway m a roots root st) (hst : Advances st st') :
    Underway m a roots root st' := by
  cases hst with
  | @skip here outer o a₁ hi htarget =>
      obtain ⟨hsweeping, hshrinks, hheld⟩ := h
      have hformed := hsweeping.balanced.shape.formed (s := ⟨here.table, ⟨here.next, hi⟩⟩)
        hsweeping.here_level.1
      refine ⟨hsweeping.skip hi (hformed.eq_empty htarget), hshrinks, fun q => ?_⟩
      rw [givenBack_next]
      exact hheld q
  | @enter here outer o a₁ page hi hlen htarget =>
      obtain ⟨hsweeping, hshrinks, hheld⟩ := h
      obtain ⟨hshrinks', hsweeping'⟩ := hsweeping.enter hi hlen htarget
      refine ⟨hsweeping', hshrinks.trans hshrinks', fun q => ?_⟩
      have hq := hheld q
      rw [givenBack_cons (List.cons_ne_nil _ _), givenBack_next]
      simp only [Account.unlink, Account.hold] at hq ⊢
      omega
  | @unmap here outer o a₁ page hi hlen htarget =>
      obtain ⟨hsweeping, hshrinks, hheld⟩ := h
      obtain ⟨hshrinks', hsweeping'⟩ := hsweeping.unmap hi hlen htarget
      refine ⟨hsweeping', hshrinks.trans hshrinks', fun q => ?_⟩
      rw [givenBack_next]
      exact hheld q
  | @leave here outer o a₁ hi hne =>
      obtain ⟨hsweeping, hshrinks, hheld⟩ := h
      obtain ⟨hshrinks', hsweeping'⟩ := hsweeping.leave hi hne
      refine ⟨hsweeping', hshrinks.trans hshrinks', fun q => ?_⟩
      have hq := hheld q
      have hpos := hsweeping.balanced.root hsweeping.here_level.1 hsweeping.here_parent
      rw [givenBack_cons hne] at hq
      simp only [Account.fell, Account.drop] at hq ⊢
      omega

theorem finish {here : Position} {o : Observed} {a' : Account}
    (h : Underway m a roots root ⟨[here], o, a'⟩) (hend : ¬here.next < wordsPerPage) :
    Shrinks root m a o.memory a' ∧ a'.Rooted roots ∧ a'.held = a.held ∧
      ∀ i, o.memory.entry ⟨root, i⟩ = .empty := by
  obtain ⟨hsweeping, hshrinks, hheld⟩ := h
  have hroot := hsweeping.here_eq_root
  refine ⟨hshrinks, fun q k hq hp => ?_, funext hheld, ?_⟩
  · rcases hsweeping.rooted q k hq hp with hk | hmem
    · exact hk
    · rw [List.map_singleton, List.mem_singleton] at hmem
      have hlevel := hsweeping.here_level.1
      rw [← hmem, hq] at hlevel
      refine ⟨by simpa using hlevel, ?_⟩
      rw [hmem, hroot]
      exact hsweeping.mem
  · rw [← hroot]
    exact hsweeping.all_empty hend

end Underway

theorem clear_safe {F : Panic → Prop} {tab : Ept} (roots : Set Hpa) (hroot : tab.root = some root) :
    tab.clear.Safe F m (m.Balanced a ∧ a.Rooted roots ∧ root ∈ roots ∧ a.level root = some 3)
      (fun _ m' => ∃ a', Shrinks root m a m' a' ∧ a'.Rooted roots ∧ a'.held = a.held ∧
        ∀ i, m'.entry ⟨root, i⟩ = .empty)
      (fun _ _ => False) := by
  rw [clear, hroot]
  refine Safe.orFail_bind (fun r hr => ?_) fun h => absurd h (Option.some_ne_none _)
  cases hr
  refine (Observed.sweep_follows _).safe (o := ⟨m, []⟩) ?_
  have hsweep := Observed.sweep_finishes (ε := EptError) (I := Underway m a roots root)
    Underway.sweeping Underway.advance [⟨root, 0⟩] ⟨m, []⟩ a
  refine Ends.mono hsweep ?_ ?_ ?_
  · rintro _ o ⟨hnext, hdone⟩
    refine .of_next_eq hnext fun _ hp => ?_
    obtain ⟨here, a', hlast, hend⟩ := hdone (.start hp.1 hp.2.1 hp.2.2.1 hp.2.2.2)
    exact ⟨a', hlast.finish hend⟩
  · rintro _ o ⟨hnext, hnot⟩
    exact .of_next_eq hnext fun _ hp => hnot (.start hp.1 hp.2.1 hp.2.2.1 hp.2.2.2)
  · rintro _ o ⟨hnext, hnot⟩
    exact .of_next_eq hnext fun _ hp => (hnot (.start hp.1 hp.2.1 hp.2.2.1 hp.2.2.2)).elim

theorem clear_next (tab : Ept) (m : Memory) :
    tab.clear.Ends m (fun _ m' => m'.next = m.next) (fun _ m' => m'.next = m.next)
      fun _ m' => m'.next = m.next := by
  rw [clear, ends_bind, ends_orFail]
  cases tab.root with
  | none => rfl
  | some root =>
      -- Nothing has to be known of the table for this, so the invariant of the sweep is empty.
      have hsweep := Observed.sweep_finishes (ε := EptError) (I := fun _ => False)
        (fun {st} h => (h.elim : Sweeping st.done.memory st.account ∅ root st.positions))
        (fun h _ => h.elim) [⟨root, 0⟩] ⟨m, []⟩ default
      exact (Observed.sweep_follows _).ends (o := ⟨m, []⟩)
        (hsweep.mono (fun _ _ h => h.1) (fun _ _ h => h.1) fun _ _ h => h.1)

end Ept

end Hypervisor
