import Hypervisor.Proofs.Ept.Lookup
import Mathlib.Logic.Relation

/-!
# Tables that can be reached

The account of a balanced memory is no more than bookkeeping: which pages are tables, how many leaves
hold a page and whether a page is linked can all be read off the entries, from the roots on.

The tables form trees of four levels: a link leads one level down, every table but a root is linked
in one place, and no root is linked.
-/

namespace Hypervisor

/-- The page is a table of a level that links lead to from one of the roots. -/
inductive Memory.Table (m : Memory) (roots : Set Hpa) : Nat → Hpa → Prop
  | root {r : Hpa} (mem : r ∈ roots) : Table m roots 3 r
  | link {k : Nat} {s : Slot} {q : Hpa} (outer : Table m roots (k + 1) s.table)
      (target : (m.entry s).target = some q) : Table m roots k q

namespace Memory

/-- The number of leaves, in tables that can be reached, that hold a page. -/
noncomputable def leavesOf (m : Memory) (roots : Set Hpa) (p : Hpa) : Nat :=
  {s : Slot | m.Table roots 0 s.table ∧ (m.entry s).target = some p}.ncard

/-- Whether a page is an intermediate table that can be reached. -/
def Intermediate (m : Memory) (roots : Set Hpa) (p : Hpa) : Prop :=
  ∃ s k, m.Table roots (k + 1) s.table ∧ (m.entry s).target = some p

/-- A table that can be reached links a page. -/
def Links (m : Memory) (roots : Set Hpa) (p q : Hpa) : Prop :=
  ∃ s k, s.table = p ∧ m.Table roots (k + 1) p ∧ (m.entry s).target = some q

/-- The tables that can be reached form trees, and their entries are well formed. -/
structure Trees (m : Memory) (roots : Set Hpa) : Prop where
  /-- A table is on one of four levels only, and the roots are on the highest. -/
  depth : ∀ {k p}, m.Table roots k p → k < Ept.levels
  level : ∀ {k l p}, m.Table roots k p → m.Table roots l p → k = l
  /-- A table that is no root is linked in one place, and a root in none. -/
  linked : ∀ {k p}, m.Table roots k p → p ∉ roots →
    ∃! s : Slot, (∃ l, m.Table roots (l + 1) s.table) ∧ (m.entry s).target = some p
  root : ∀ {r}, r ∈ roots → ¬m.Intermediate roots r
  acyclic : ∀ p, ¬Relation.TransGen (m.Links roots) p p
  /-- An entry of an upper level links a table with all permissions; one of the lowest level maps a
  page with some permission, and never to be written but not read; or else the entry is empty. -/
  formed : ∀ {k s}, m.Table roots k s.table → (m.entry s).Formed k

variable {m : Memory} {a : Account} {roots : Set Hpa} {root p q : Hpa} {k : Nat}

theorem Table.level (h : Shape m.entry a) (hroots : ∀ r ∈ roots, a.level r = some 3)
    (ht : m.Table roots k p) : a.level p = some k := by
  induction ht with
  | root hr => exact hroots _ hr
  | link _ htarget ih => exact h.level_of_target ih htarget

theorem Table.of_level (h : Shape m.entry a) (hrooted : a.Rooted roots) (d : Nat) :
    ∀ {p k}, k + d = 3 → a.level p = some k → m.Table roots k p := by
  induction d with
  | zero =>
      intro p k hk hp
      obtain rfl : k = 3 := hk
      exact .root (hrooted p 3 hp (h.parent_of_level_eq_top hp)).2
  | succ d ih =>
      intro p k hk hp
      cases hparent : a.parent p with
      | none =>
          have hthree := (hrooted p k hp hparent).1
          omega
      | some s =>
          obtain ⟨j, hj, hp'⟩ := h.child hparent
          cases hp.symm.trans hp'
          exact .link (ih (by omega) hj) ((h.linked hj).2 hparent)

theorem table_iff (h : Shape m.entry a) (hrooted : a.Rooted roots)
    (hroots : ∀ r ∈ roots, a.level r = some 3) : m.Table roots k p ↔ a.level p = some k := by
  constructor
  · exact Table.level h hroots
  · intro hp
    have hk : k < 4 := h.bound hp
    exact Table.of_level h hrooted (3 - k) (by omega) hp

theorem leavesOf_eq (h : Shape m.entry a) (hrooted : a.Rooted roots)
    (hroots : ∀ r ∈ roots, a.level r = some 3) : m.leavesOf roots p = a.leaves m.entry p := by
  simp only [leavesOf, Account.leaves, table_iff h hrooted hroots]

open Classical in
theorem linked_eq (h : Shape m.entry a) (hrooted : a.Rooted roots)
    (hroots : ∀ r ∈ roots, a.level r = some 3) :
    a.linked p = if m.Intermediate roots p then 1 else 0 := by
  have hiff : (a.parent p).isSome ↔ m.Intermediate roots p := by
    simp only [Intermediate, table_iff h hrooted hroots]
    constructor
    · intro hsome
      obtain ⟨s, hs⟩ := Option.isSome_iff_exists.1 hsome
      obtain ⟨k, hk, -⟩ := h.child hs
      exact ⟨s, k, hk, (h.linked hk).2 hs⟩
    · rintro ⟨s, k, hk, htarget⟩
      rw [(h.linked hk).1 htarget]
      rfl
  simp only [Account.linked, hiff]

theorem Balanced.eq_root (h : m.Balanced a) (hrooted : a.Rooted {root})
    (hempty : ∀ i, m.entry ⟨root, i⟩ = .empty) (d : Nat) :
    ∀ {q k}, k + d = 3 → a.level q = some k → q = root := by
  induction d with
  | zero =>
      intro q k hk hq
      obtain rfl : k = 3 := hk
      exact (hrooted q 3 hq (h.shape.parent_of_level_eq_top hq)).2
  | succ d ih =>
      intro q k hk hq
      cases hparent : a.parent q with
      | none => exact (hrooted q k hq hparent).2
      | some s =>
          obtain ⟨j, hj, hq'⟩ := h.shape.child hparent
          cases hq.symm.trans hq'
          have htable : s.table = root := ih (by omega) hj
          have htarget := (h.shape.linked hj).2 hparent
          rw [← htable] at hempty
          rw [hempty s.index, Entry.target_empty] at htarget
          cases htarget

theorem Balanced.refs_of_empty (h : m.Balanced a) (hrooted : a.Rooted {root})
    (hlevel : a.level root = some 3) (hempty : ∀ i, m.entry ⟨root, i⟩ = .empty) (q : Hpa) :
    m.refs q = a.held q := by
  have honly : ∀ q k, a.level q = some k → k = 3 := by
    intro q k hq
    have hk : k < 4 := h.shape.bound hq
    obtain rfl := h.eq_root hrooted hempty (3 - k) (by omega) hq
    exact Option.some.inj (hq.symm.trans hlevel)
  have hparent : a.parent q = none := by
    refine Option.eq_none_iff_forall_ne_some.2 fun s hparent => ?_
    obtain ⟨k, hk, hq⟩ := h.shape.child hparent
    have hupper := honly _ _ hk
    have hlower := honly _ _ hq
    omega
  have hleaves : a.leaves m.entry q = 0 := by
    rw [Account.leaves, Set.ncard_eq_zero]
    refine Set.eq_empty_of_forall_notMem fun s hmem => ?_
    exact absurd (honly _ _ hmem.1) (by decide)
  rw [h.ledger q, hleaves, Account.linked_of_parent_eq_none hparent]
  rfl

theorem Links.level (h : Shape m.entry a) (hroots : ∀ r ∈ roots, a.level r = some 3)
    (hlink : m.Links roots p q) : ∃ k, a.level p = some (k + 1) ∧ a.level q = some k := by
  obtain ⟨s, k, rfl, htable, htarget⟩ := hlink
  have hlevel := htable.level h hroots
  exact ⟨k, hlevel, h.level_of_target hlevel htarget⟩

theorem level_lt_of_links (h : Shape m.entry a) (hroots : ∀ r ∈ roots, a.level r = some 3)
    (hpath : Relation.TransGen (m.Links roots) p q) :
    ∃ k l, a.level p = some k ∧ a.level q = some l ∧ l < k := by
  induction hpath with
  | single hlink =>
      obtain ⟨k, hp, hq⟩ := hlink.level h hroots
      exact ⟨k + 1, k, hp, hq, Nat.lt_succ_self k⟩
  | tail _ hlink ih =>
      obtain ⟨k, l, hp, hmid, hlt⟩ := ih
      obtain ⟨j, hmid', hq⟩ := hlink.level h hroots
      cases hmid.symm.trans hmid'
      exact ⟨k, j, hp, hq, Nat.lt_of_succ_lt hlt⟩

/-- Where the account and the entries agree, the tables form trees. -/
theorem trees_of_shape (h : Shape m.entry a) (hroots : ∀ r ∈ roots, a.level r = some 3) :
    m.Trees roots where
  depth := fun ht => h.bound (ht.level h hroots)
  level := fun ht ht' => Option.some.inj ((ht.level h hroots).symm.trans (ht'.level h hroots))
  linked := fun {k p} ht hp => by
    cases ht with
    | root hr => exact absurd hr hp
    | @link _ s _ outer target =>
        refine ⟨s, ⟨⟨k, outer⟩, target⟩, ?_⟩
        rintro s' ⟨⟨l, outer'⟩, target'⟩
        have hparent := (h.linked (outer.level h hroots)).1 target
        have hparent' := (h.linked (outer'.level h hroots)).1 target'
        exact Option.some.inj (hparent'.symm.trans hparent)
  root := fun {r} hr => by
    rintro ⟨s, k, ht, htarget⟩
    have hparent := (h.linked (ht.level h hroots)).1 htarget
    rw [h.parent_of_level_eq_top (hroots r hr)] at hparent
    cases hparent
  acyclic := fun p hpath => by
    obtain ⟨k, l, hp, hp', hlt⟩ := level_lt_of_links h hroots hpath
    cases hp.symm.trans hp'
    exact Nat.lt_irrefl _ hlt
  formed := fun ht => h.formed (ht.level h hroots)

open Classical in
/-- The tables that can be reached from a root form a tree, no leaf holds one of them, and the
references cover the leaves and the tables. -/
structure Tree (m : Memory) (root : Hpa) : Prop where
  aligned : m.next.toNat % 4096 = 0
  page : ∀ {p}, p ∈ m.pages → p.isPageAligned = true ∧ p.val.toNat < m.next.toNat
  trees : m.Trees {root}
  outside : ∀ {s p k}, m.Table {root} 0 s.table → (m.entry s).target = some p →
    ¬m.Table {root} k p
  covered : ∀ p, (m.leavesOf {root} p + if m.Intermediate {root} p ∨ p = root then 1 else 0) ≤
    m.refs p

open Classical in
/-- The tables that can be reached from a root form a tree, and the references cover the leaves and the
tables.  A leaf may hold one of the tables. -/
structure Standing (m : Memory) (root : Hpa) : Prop where
  aligned : m.next.toNat % 4096 = 0
  page : ∀ {p}, p ∈ m.pages → p.isPageAligned = true ∧ p.val.toNat < m.next.toNat
  trees : m.Trees {root}
  covered : ∀ p, (m.leavesOf {root} p + if m.Intermediate {root} p ∨ p = root then 1 else 0) ≤
    m.refs p

theorem Tree.standing (h : m.Tree root) : m.Standing root :=
  ⟨h.aligned, h.page, h.trees, h.covered⟩

theorem Table.eq_root (h : m.Table {root} k p) (hp : ¬m.Intermediate {root} p) :
    k = 3 ∧ p = root := by
  cases h with
  | root hr => exact ⟨rfl, hr⟩
  | link outer target => exact absurd ⟨_, _, outer, target⟩ hp

open Classical in
/-- The account of a tree alone: all other references are held from outside, and every page may be live
without one. -/
noncomputable def Tree.account (m : Memory) (root : Hpa) : Account where
  level p := if h : ∃ k, m.Table {root} k p then some h.choose else none
  parent p := if h : ∃ s k, m.Table {root} (k + 1) s.table ∧ (m.entry s).target = some p then
    some h.choose else none
  held p := m.refs p - (m.leavesOf {root} p + if m.Intermediate {root} p then 1 else 0)
  idle p := p ∈ m.pages

namespace Standing

theorem once (h : m.Standing root) {s s' : Slot} {k' : Nat} (ht : m.Table {root} (k + 1) s.table)
    (ht' : m.Table {root} (k' + 1) s'.table) (hq : (m.entry s).target = some q)
    (hq' : (m.entry s').target = some q) : s = s' := by
  have hne : q ∉ ({root} : Set Hpa) := fun hmem => h.trees.root hmem ⟨s, k, ht, hq⟩
  exact (h.trees.linked (.link ht hq) hne).unique ⟨⟨k, ht⟩, hq⟩ ⟨⟨k', ht'⟩, hq'⟩

theorem account_level (h : m.Standing root) :
    (Tree.account m root).level p = some k ↔ m.Table {root} k p := by
  simp only [Tree.account]
  constructor
  · intro hp
    split_ifs at hp with hex
    cases hp
    exact hex.choose_spec
  · intro hp
    have hex : ∃ k, m.Table {root} k p := ⟨k, hp⟩
    rw [dif_pos hex, h.trees.level hex.choose_spec hp]

theorem account_parent (h : m.Standing root) {s : Slot} :
    (Tree.account m root).parent p = some s ↔
      ∃ k, m.Table {root} (k + 1) s.table ∧ (m.entry s).target = some p := by
  simp only [Tree.account]
  constructor
  · intro hp
    split_ifs at hp with hex
    cases hp
    exact hex.choose_spec
  · rintro ⟨k, ht, htarget⟩
    have hex : ∃ s k, m.Table {root} (k + 1) s.table ∧ (m.entry s).target = some p :=
      ⟨s, k, ht, htarget⟩
    obtain ⟨k', ht', htarget'⟩ := hex.choose_spec
    rw [dif_pos hex, h.once ht' ht htarget' htarget]

theorem account_parent_none (h : m.Standing root) :
    (Tree.account m root).parent p = none ↔ ¬m.Intermediate {root} p := by
  rw [Option.eq_none_iff_forall_ne_some]
  constructor
  · rintro hnone ⟨s, k, ht, htarget⟩
    exact hnone s (h.account_parent.2 ⟨k, ht, htarget⟩)
  · intro hp s hs
    obtain ⟨k, ht, htarget⟩ := h.account_parent.1 hs
    exact hp ⟨s, k, ht, htarget⟩

theorem account_shape (h : m.Standing root) : Shape m.entry (Tree.account m root) where
  bound := fun hq => h.trees.depth (h.account_level.1 hq)
  linked := fun {s k q} hs => by
    rw [h.account_level] at hs
    rw [h.account_parent]
    constructor
    · exact fun htarget => ⟨k, hs, htarget⟩
    · rintro ⟨_, -, htarget⟩
      exact htarget
  child := fun {s q} hq => by
    obtain ⟨k, ht, htarget⟩ := h.account_parent.1 hq
    exact ⟨k, h.account_level.2 ht, h.account_level.2 (.link ht htarget)⟩
  formed := fun hs => h.trees.formed (h.account_level.1 hs)

theorem account_rooted (h : m.Standing root) : (Tree.account m root).Rooted {root} := by
  intro q k hq hparent
  exact (h.account_level.1 hq).eq_root (h.account_parent_none.1 hparent)

theorem account_root (h : m.Standing root) : (Tree.account m root).level root = some 3 :=
  h.account_level.2 (.root rfl)

/-- The memory agrees with the account of the tree. -/
theorem account_balanced (h : m.Standing root) : m.Balanced (Tree.account m root) where
  aligned := h.aligned
  page := h.page
  shape := h.account_shape
  ledger := fun q => by
    classical
    have hroots : ∀ r ∈ ({root} : Set Hpa), (Tree.account m root).level r = some 3 := by
      rintro r rfl
      exact h.account_root
    have hcovered := h.covered q
    rw [linked_eq h.account_shape h.account_rooted hroots,
      ← leavesOf_eq h.account_shape h.account_rooted hroots]
    simp only [Tree.account]
    by_cases hq : m.Intermediate {root} q
    · rw [if_pos (Or.inl hq)] at hcovered
      rw [if_pos hq]
      omega
    · rw [if_neg hq]
      omega
  root := fun {q k} hq hparent => by
    classical
    have hnone := h.account_parent_none.1 hparent
    have hcovered := h.covered q
    rw [if_pos (Or.inr ((h.account_level.1 hq).eq_root hnone).2)] at hcovered
    simp only [Tree.account, if_neg hnone]
    omega
  idle := fun hp _ => hp

end Standing

theorem Balanced.standing (h : m.Balanced a) (hroot : a.level root = some 3) : m.Standing root := by
  have hroots : ∀ r ∈ ({root} : Set Hpa), a.level r = some 3 := by
    rintro r rfl
    exact hroot
  refine ⟨h.aligned, h.page, trees_of_shape h.shape hroots, fun p => ?_⟩
  have hleaves : m.leavesOf {root} p ≤ a.leaves m.entry p :=
    Set.ncard_le_ncard fun s hs => ⟨hs.1.level h.shape hroots, hs.2⟩
  have hone : m.Intermediate {root} p ∨ p = root → 0 < a.held p + a.linked p := by
    rintro (⟨s, k, ht, htarget⟩ | rfl)
    · exact h.held_add_linked_pos ((Table.link ht htarget).level h.shape hroots)
    · exact h.held_add_linked_pos hroot
  rw [h.ledger p]
  split_ifs with hp
  · have hpos := hone hp
    omega
  · omega

theorem Balanced.tree (h : m.Balanced a) (hroot : a.level root = some 3)
    (houtside : ∀ {s p}, m.Table {root} 0 s.table → (m.entry s).target = some p →
      a.level p = none) : m.Tree root := by
  obtain ⟨haligned, hpage, htrees, hcovered⟩ := h.standing hroot
  refine ⟨haligned, hpage, htrees, fun ht htarget ht' => ?_, hcovered⟩
  have hroots : ∀ r ∈ ({root} : Set Hpa), a.level r = some 3 := by
    rintro r rfl
    exact hroot
  cases (houtside ht htarget).symm.trans (ht'.level h.shape hroots)

end Memory

end Hypervisor
