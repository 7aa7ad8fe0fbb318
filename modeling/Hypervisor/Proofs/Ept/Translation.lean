import Hypervisor.Proofs.Ept.Path
import Hypervisor.Proofs.Ept.Steps

/-!
# What a table translates

A table is a map from page numbers to pages with permissions.  Here the map is read off the entries,
each kind of change to the entries is shown to change the map as it should, and the walks of the
hypervisor are shown to find what the map says.
-/

namespace Hypervisor

/-- The page and the permission in a leaf. -/
def Entry.mapping (e : Entry) : Option (Hpa × Permission) := e.target.map fun p => (p, e.permission)

namespace Memory

def leafFrom (m : Memory) (n : PageNumber) : (level : Nat) → (table : Hpa) → Option Slot
  | 0, table => some ⟨table, n.digit 0⟩
  | level + 1, table => (m.entry ⟨table, n.digit (level + 1)⟩).target.bind (m.leafFrom n level)

/-- The table of a level `j` on the path of a page number, below a table of a level. -/
def tableFrom (m : Memory) (n : PageNumber) (j : Nat) : (level : Nat) → (table : Hpa) → Option Hpa
  | 0, table => if j = 0 then some table else none
  | level + 1, table =>
      if j = level + 1 then some table
      else (m.entry ⟨table, n.digit (level + 1)⟩).target.bind (m.tableFrom n j level)

/-- What a page number is mapped to, below a table of a level. -/
def translationFrom (m : Memory) (n : PageNumber) :
    (level : Nat) → (table : Hpa) → Option (Hpa × Permission)
  | 0, table => (m.entry ⟨table, n.digit 0⟩).mapping
  | level + 1, table =>
      (m.entry ⟨table, n.digit (level + 1)⟩).target.bind (m.translationFrom n level)

/-- What a page number is mapped to by the table with a root. -/
def translation (m : Memory) (root : Hpa) (n : PageNumber) : Option (Hpa × Permission) :=
  m.translationFrom n (Ept.levels - 1) root

def present (m : Memory) (root : Hpa) (n : PageNumber) : Option Entry :=
  ((m.leafFrom n (Ept.levels - 1) root).map m.entry).filter fun e => e.target.isSome

end Memory

namespace Memory

variable {m : Memory} {n : PageNumber} {t q : Hpa} {j k : Nat}

theorem tableFrom_self : m.tableFrom n k k t = some t := by
  cases k <;> simp [tableFrom]

theorem tableFrom_succ (h : j ≠ k + 1) : m.tableFrom n j (k + 1) t =
    (m.entry ⟨t, n.digit (k + 1)⟩).target.bind (m.tableFrom n j k) := by
  rw [tableFrom, if_neg h]

theorem le_of_tableFrom (h : m.tableFrom n j k t = some q) : j ≤ k := by
  induction k generalizing t with
  | zero =>
      by_contra hj
      rw [tableFrom, if_neg (by omega)] at h
      cases h
  | succ k ih =>
      by_cases hj : j = k + 1
      · omega
      · rw [tableFrom_succ hj] at h
        obtain ⟨p, -, hp⟩ := Option.bind_eq_some_iff.1 h
        exact Nat.le_succ_of_le (ih hp)

theorem tableFrom_below {p : Hpa} (hlink : (m.entry ⟨t, n.digit (k + 1)⟩).target = some p)
    (h : m.tableFrom n j k p = some q) : m.tableFrom n j (k + 1) t = some q := by
  have hle := le_of_tableFrom h
  rw [tableFrom_succ (by omega), hlink, Option.bind_some, h]

end Memory

@[simp] theorem Entry.mapping_empty : Entry.empty.mapping = none := by
  rw [Entry.mapping, Entry.target_empty, Option.map_none]

theorem Entry.mapping_eq_none {e : Entry} : e.mapping = none ↔ e.target = none := by
  rw [Entry.mapping, Option.map_eq_none_iff]

theorem Entry.mapping_eq_some {e : Entry} {p : Hpa} {perm : Permission} :
    e.mapping = some (p, perm) ↔ e.target = some p ∧ e.permission = perm := by
  rw [Entry.mapping, Option.map_eq_some_iff]
  constructor
  · rintro ⟨q, hq, heq⟩
    cases heq
    exact ⟨hq, rfl⟩
  · rintro ⟨hp, rfl⟩
    exact ⟨p, hp, rfl⟩

theorem Entry.mapping_referring {p : Hpa} {perm : Permission} (ha : p.isPageAligned = true)
    (hf : p.val.toNat < 2 ^ 52) (hperm : perm.isEmpty = false) :
    (Entry.referring p perm.leafFlags).mapping = some (p, perm) := by
  rw [mapping_eq_some]
  exact ⟨target_referring ha hf (Permission.leafFlags_intersects hperm),
    Permission.permission_referring ha perm⟩

theorem Entry.Formed.eq_referring {e : Entry} {p : Hpa} {perm : Permission} (h : e.Formed 0)
    (hmap : e.mapping = some (p, perm)) : e = .referring p perm.leafFlags := by
  cases h with
  | empty => cases Entry.mapping_empty.symm.trans hmap
  | leaf p' perm' haligned hfits hsome =>
      cases (Entry.mapping_referring haligned hfits hsome).symm.trans hmap
      rfl

namespace Shape

variable {entry : Slot → Entry} {m m' : Memory} {a : Account} {n n' : PageNumber} {t t' : Hpa}
  {s : Slot} {k : Nat}

theorem level_of_leafFrom (h : Shape m.entry a) (ht : a.level t = some k)
    (hs : m.leafFrom n k t = some s) : a.level s.table = some 0 := by
  induction k generalizing t with
  | zero =>
      cases hs
      exact ht
  | succ k ih =>
      obtain ⟨q, hq, hs⟩ := Option.bind_eq_some_iff.1 hs
      exact ih (h.level_of_target (s := ⟨t, n.digit (k + 1)⟩) ht hq) hs

theorem level_of_tableFrom (h : Shape m.entry a) {j : Nat} {q : Hpa} (ht : a.level t = some k)
    (hq : m.tableFrom n j k t = some q) : a.level q = some j := by
  induction k generalizing t with
  | zero =>
      rw [Memory.tableFrom] at hq
      split_ifs at hq with hj
      cases hq
      rw [hj, ht]
  | succ k ih =>
      by_cases hj : j = k + 1
      · subst hj
        cases Memory.tableFrom_self.symm.trans hq
        exact ht
      · rw [Memory.tableFrom_succ hj] at hq
        obtain ⟨p, hp, hq⟩ := Option.bind_eq_some_iff.1 hq
        exact ih (h.level_of_target (s := ⟨t, n.digit (k + 1)⟩) ht hp) hq

theorem leafFrom_inj (h : Shape m.entry a) (ht : a.level t = some k) (ht' : a.level t' = some k)
    (hs : m.leafFrom n k t = some s) (hs' : m.leafFrom n' k t' = some s) :
    t = t' ∧ ∀ l, l ≤ k → n.digit l = n'.digit l := by
  induction k generalizing t t' with
  | zero =>
      simp only [Memory.leafFrom, Option.some.injEq] at hs hs'
      rw [← hs', Slot.mk.injEq] at hs
      refine ⟨hs.1, fun l hl => ?_⟩
      rw [Nat.le_zero.1 hl]
      exact hs.2
  | succ k ih =>
      obtain ⟨q, hq, hs⟩ := Option.bind_eq_some_iff.1 hs
      obtain ⟨q', hq', hs'⟩ := Option.bind_eq_some_iff.1 hs'
      have hlevel := h.level_of_target (s := ⟨t, n.digit (k + 1)⟩) ht hq
      have hlevel' := h.level_of_target (s := ⟨t', n'.digit (k + 1)⟩) ht' hq'
      obtain ⟨rfl, hdigits⟩ := ih hlevel hlevel' hs hs'
      have hplace := (h.linked ht).1 hq
      rw [(h.linked ht').1 hq', Option.some.injEq, Slot.mk.injEq] at hplace
      refine ⟨hplace.1.symm, fun l hl => ?_⟩
      rcases Nat.lt_or_eq_of_le hl with hlt | rfl
      · exact hdigits l (Nat.le_of_lt_succ hlt)
      · exact hplace.2.symm

theorem translationFrom_eq : m.translationFrom n k t =
    (m.leafFrom n k t).bind fun s => (m.entry s).mapping := by
  induction k generalizing t with
  | zero => rfl
  | succ k ih =>
      rw [Memory.translationFrom, Memory.leafFrom, Option.bind_assoc]
      congr 1
      funext q
      exact ih

theorem leafFrom_congr (h : Shape m.entry a)
    (hsame : ∀ s j, a.level s.table = some (j + 1) → m'.entry s = m.entry s)
    (ht : a.level t = some k) : m'.leafFrom n k t = m.leafFrom n k t := by
  induction k generalizing t with
  | zero => rfl
  | succ k ih =>
      rw [Memory.leafFrom, Memory.leafFrom, hsame ⟨t, n.digit (k + 1)⟩ k ht]
      cases hq : (m.entry ⟨t, n.digit (k + 1)⟩).target with
      | none => rfl
      | some q => exact ih (h.level_of_target (s := ⟨t, n.digit (k + 1)⟩) ht hq)

theorem tableFrom_congr (h : Shape m.entry a) {j : Nat}
    (hsame : ∀ s j, a.level s.table = some (j + 1) → m'.entry s = m.entry s)
    (ht : a.level t = some k) : m'.tableFrom n j k t = m.tableFrom n j k t := by
  induction k generalizing t with
  | zero => rfl
  | succ k ih =>
      rw [Memory.tableFrom, Memory.tableFrom, hsame ⟨t, n.digit (k + 1)⟩ k ht]
      cases hq : (m.entry ⟨t, n.digit (k + 1)⟩).target with
      | none => rfl
      | some q =>
          simp only [Option.bind_some]
          rw [ih (h.level_of_target (s := ⟨t, n.digit (k + 1)⟩) ht hq)]

theorem translationFrom_congr (h : Shape m.entry a) (avoid : Hpa → Prop)
    (havoid : ∀ q, avoid q → a.parent q = none)
    (hsame : ∀ s j, a.level s.table = some j → ¬avoid s.table → m'.entry s = m.entry s)
    (ht : a.level t = some k) (hta : ¬avoid t) :
    m'.translationFrom n k t = m.translationFrom n k t := by
  induction k generalizing t with
  | zero => rw [Memory.translationFrom, Memory.translationFrom, hsame ⟨t, n.digit 0⟩ 0 ht hta]
  | succ k ih =>
      rw [Memory.translationFrom, Memory.translationFrom,
        hsame ⟨t, n.digit (k + 1)⟩ (k + 1) ht hta]
      cases hq : (m.entry ⟨t, n.digit (k + 1)⟩).target with
      | none => rfl
      | some q =>
          refine ih (h.level_of_target (s := ⟨t, n.digit (k + 1)⟩) ht hq) fun hqa => ?_
          have hplace := (h.linked ht).1 hq
          rw [havoid q hqa] at hplace
          cases hplace

theorem translationFrom_of_empty (hempty : ∀ i, m.entry ⟨t, i⟩ = .empty) :
    m.translationFrom n k t = none := by
  cases k with
  | zero => rw [Memory.translationFrom, hempty, Entry.mapping_empty]
  | succ k => rw [Memory.translationFrom, hempty, Entry.target_empty, Option.bind_none]

theorem translationFrom_link (h : Shape m.entry a) {p : Hpa} {j : Nat}
    (hs : a.level s.table = some (j + 1)) (hempty : m.entry s = .empty)
    (htarget : (m'.entry s).target = some p) (hp : ∀ i, m'.entry ⟨p, i⟩ = .empty)
    (hsame : ∀ s' i, a.level s'.table = some i → s' ≠ s → m'.entry s' = m.entry s')
    (ht : a.level t = some k) : m'.translationFrom n k t = m.translationFrom n k t := by
  induction k generalizing t with
  | zero =>
      have hne : (⟨t, n.digit 0⟩ : Slot) ≠ s := by
        rintro rfl
        cases hs.symm.trans ht
      rw [Memory.translationFrom, Memory.translationFrom, hsame _ 0 ht hne]
  | succ k ih =>
      rw [Memory.translationFrom, Memory.translationFrom]
      by_cases hts : (⟨t, n.digit (k + 1)⟩ : Slot) = s
      · rw [hts, htarget, hempty, Entry.target_empty, Option.bind_none, Option.bind_some]
        exact translationFrom_of_empty hp
      · rw [hsame _ (k + 1) ht hts]
        cases hq : (m.entry ⟨t, n.digit (k + 1)⟩).target with
        | none => rfl
        | some q => exact ih (h.level_of_target (s := ⟨t, n.digit (k + 1)⟩) ht hq)

theorem translationFrom_leaf (h : Shape m.entry a) {e : Entry} (hs : a.level s.table = some 0)
    (hentry : ∀ s' i, a.level s'.table = some i → m'.entry s' = if s' = s then e else m.entry s')
    (ht : a.level t = some k) : m'.translationFrom n k t =
      if m.leafFrom n k t = some s then e.mapping else m.translationFrom n k t := by
  have hpath : m'.leafFrom n k t = m.leafFrom n k t := by
    refine h.leafFrom_congr (fun s' j hs' => ?_) ht
    have hne : s' ≠ s := by
      rintro rfl
      cases hs.symm.trans hs'
    rw [hentry s' _ hs', if_neg hne]
  rw [translationFrom_eq, translationFrom_eq, hpath]
  cases hleaf : m.leafFrom n k t with
  | none => simp
  | some s' =>
      have hs' := h.level_of_leafFrom ht hleaf
      rw [Option.bind_some, Option.bind_some, hentry s' 0 hs']
      by_cases hss : s' = s
      · simp [hss]
      · simp [hss]

theorem translation_leaf (h : Shape m.entry a) {e : Entry} {root r : Hpa} {n₀ : PageNumber}
    (hroot : a.level root = some 3) (hs : m.leafFrom n₀ 3 root = some s)
    (hentry : ∀ s' i, a.level s'.table = some i → m'.entry s' = if s' = s then e else m.entry s')
    (hr : a.level r = some 3) : m'.translation r n =
      if r = root ∧ n = n₀ then e.mapping else m.translation r n := by
  have hs0 := h.level_of_leafFrom hroot hs
  show m'.translationFrom n 3 r = _
  rw [h.translationFrom_leaf hs0 hentry hr]
  by_cases hsame : r = root ∧ n = n₀
  · rw [hsame.1, hsame.2, if_pos hs, if_pos ⟨rfl, rfl⟩]
  · have hne : m.leafFrom n 3 r ≠ some s := by
      intro hs'
      obtain ⟨htable, hdigits⟩ := h.leafFrom_inj hr hroot hs' hs
      exact hsame ⟨htable, PageNumber.ext_digits fun l hl => hdigits l (Nat.le_of_lt_succ hl)⟩
    rw [if_neg hne, if_neg hsame]
    rfl

end Shape

theorem Memory.exists_leaf {m : Memory} {root p : Hpa} {n : PageNumber} {perm : Permission}
    (hp : m.translation root n = some (p, perm)) :
    ∃ s, m.leafFrom n 3 root = some s ∧ (m.entry s).target = some p := by
  rw [translation, Shape.translationFrom_eq] at hp
  obtain ⟨s, hs, hmap⟩ := Option.bind_eq_some_iff.1 hp
  exact ⟨s, hs, (Entry.mapping_eq_some.1 hmap).1⟩

theorem Memory.present_eq_some {m : Memory} {root : Hpa} {n : PageNumber} {e : Entry} :
    m.present root n = some e ↔ ∃ s, m.leafFrom n 3 root = some s ∧ m.entry s = e ∧ e.target.isSome := by
  simp only [present, Ept.levels, Option.filter_eq_some_iff, Option.map_eq_some_iff]
  constructor
  · rintro ⟨⟨s, hs, rfl⟩, hsome⟩
    exact ⟨s, hs, rfl, hsome⟩
  · rintro ⟨s, hs, rfl, hsome⟩
    exact ⟨⟨s, hs, rfl⟩, hsome⟩

theorem Memory.Balanced.present_eq {m : Memory} {a : Account} {root : Hpa} {n : PageNumber}
    (h : m.Balanced a) (hr : a.level root = some 3) :
    m.present root n = (m.translation root n).map fun x => .referring x.1 x.2.leafFlags := by
  rw [present, translation, Shape.translationFrom_eq]
  cases hs : m.leafFrom n (Ept.levels - 1) root with
  | none => rfl
  | some s =>
      have hformed := h.shape.formed (h.shape.level_of_leafFrom hr hs)
      rw [Option.map_some, Option.bind_some]
      cases hmap : (m.entry s).mapping with
      | none =>
          have hnone := Entry.mapping_eq_none.1 hmap
          simp [hnone]
      | some x =>
          have htarget := (Entry.mapping_eq_some.1 hmap).1
          rw [Option.filter_some, if_pos (by rw [htarget]; rfl), Option.map_some]
          exact congrArg some (hformed.eq_referring hmap)

theorem Memory.Balanced.translation_live {m : Memory} {a : Account} {root p : Hpa}
    {n : PageNumber} {perm : Permission} (h : m.Balanced a) (hr : a.level root = some 3)
    (hp : m.translation root n = some (p, perm)) : p ∈ m.pages := by
  obtain ⟨s, hs, htarget⟩ := exists_leaf hp
  exact h.target_live (h.shape.level_of_leafFrom hr hs) htarget

theorem Memory.Balanced.level_of_single {m : Memory} {a : Account} {root p : Hpa}
    {n : PageNumber} {perm : Permission} (h : m.Balanced a) (hone : m.refs p ≤ 1)
    (hr : a.level root = some 3) (hp : m.translation root n = some (p, perm)) : a.level p = none := by
  obtain ⟨s, hs, htarget⟩ := exists_leaf hp
  have hleaf := Account.leaves_pos (h.shape.level_of_leafFrom hr hs) htarget
  have hledger := h.ledger p
  cases hk : a.level p with
  | none => rfl
  | some k =>
      have hpos := h.held_add_linked_pos hk
      omega

namespace Ept

open Hypervisor.Action Memory

variable {m : Memory} {a : Account} {P : Prop} {g : Gpa} {t : Hpa} {k : Nat}

/-- A walk below a table changes nothing, and gives the leaf at the end of the path if it is present. -/
theorem walkFrom_reads (hk : k < levels) (hP : P → m.Balanced a ∧ a.level t = some k) :
    (walkFrom g k t).Ends m
      (fun e m' => m' = m ∧ (P → e.target.isSome ∧
        ∃ s, m.leafFrom g.number k t = some s ∧ m.entry s = e))
      (fun err m' => m' = m ∧ (P → err = .notExist ∧
        ∀ s, m.leafFrom g.number k t = some s → (m.entry s).target = none))
      (fun _ m' => m' = m ∧ ¬P) := by
  induction k generalizing t with
  | zero =>
      rw [walkFrom, index_eq_digit g hk, ends_bind]
      refine Slot.read_ends (fun _ => ?_) fun _ hfree =>
        ⟨rfl, fun hp => hfree ((hP hp).1.table_pageDown_live (hP hp).2)⟩
      rw [ends_bind, ends_orFail]
      cases htarget : (m.entry ⟨t, g.number.digit 0⟩).target with
      | some p => exact ⟨rfl, fun _ => ⟨by rw [htarget]; rfl, _, rfl, rfl⟩⟩
      | none =>
          refine ⟨rfl, fun _ => ⟨rfl, fun s hs => ?_⟩⟩
          cases hs
          exact htarget
  | succ k ih =>
      rw [walkFrom, index_eq_digit g hk, ends_bind]
      refine Slot.read_ends (fun _ => ?_) fun _ hfree =>
        ⟨rfl, fun hp => hfree ((hP hp).1.table_pageDown_live (hP hp).2)⟩
      rw [ends_bind, ends_orFail, leafFrom]
      cases htarget : (m.entry ⟨t, g.number.digit (k + 1)⟩).target with
      | some q =>
          rw [Option.bind_some]
          refine ih (Nat.lt_of_succ_lt hk) fun hp => ⟨(hP hp).1, ?_⟩
          exact (hP hp).1.shape.level_of_target (s := ⟨t, g.number.digit (k + 1)⟩) (hP hp).2 htarget
      | none => exact ⟨rfl, fun _ => ⟨rfl, fun s hs => by cases hs⟩⟩

theorem walkFrom_ends (hk : k < levels) (hP : P → m.Balanced a ∧ a.level t = some k) :
    (walkFrom g k t).Ends m
      (fun e m' => m' = m ∧ (P → e.mapping.isSome ∧ e.mapping = m.translationFrom g.number k t))
      (fun err m' => m' = m ∧ (P → err = .notExist ∧ m.translationFrom g.number k t = none))
      (fun _ m' => m' = m ∧ ¬P) := by
  refine (walkFrom_reads hk hP).mono ?_ ?_ fun _ _ h => h
  · rintro e m' ⟨rfl, hread⟩
    refine ⟨rfl, fun hp => ?_⟩
    obtain ⟨hsome, s, hs, rfl⟩ := hread hp
    rw [Shape.translationFrom_eq, hs, Option.bind_some]
    exact ⟨by rw [Entry.mapping, Option.isSome_map, hsome], rfl⟩
  · rintro err m' ⟨rfl, hread⟩
    refine ⟨rfl, fun hp => ?_⟩
    obtain ⟨rfl, hnone⟩ := hread hp
    refine ⟨rfl, ?_⟩
    rw [Shape.translationFrom_eq, Option.bind_eq_none_iff]
    exact fun s hs => Entry.mapping_eq_none.2 (hnone s hs)

theorem walk_ends {tab : Ept} {root : Hpa} (hroot : tab.root = some root)
    (hP : P → m.Balanced a ∧ a.level root = some 3) :
    (tab.walk g).Ends m
      (fun e m' => m' = m ∧ (P → e.mapping.isSome ∧ e.mapping = m.translation root g.number))
      (fun err m' => m' = m ∧ (P → err = .notExist ∧ m.translation root g.number = none))
      (fun _ m' => m' = m ∧ ¬P) := by
  rw [walk, ends_bind, ends_orFail, hroot]
  exact walkFrom_ends (by decide) hP

def backing (g : Gpa) (mapping : Hpa × Permission) : Hva :=
  (⟨mapping.1.val + directMap⟩ : Hva).plus g.pageOffset

/-- The host virtual address of an address is at its offset into the mapped page. -/
theorem resolve_ends {ε : Type} {tab : Ept} {root : Hpa} {E : ε → Memory → Prop}
    (hroot : tab.root = some root) (hP : P → m.Balanced a ∧ a.level root = some 3) :
    (tab.resolve g : MemoryM ε (Option Hva)).Ends m
      (fun v m' => m' = m ∧ (P → v = (m.translation root g.number).map (backing g))) E
      (fun _ m' => m' = m ∧ ¬P) := by
  rw [resolve, ends_bind, ends_attempt]
  refine Ends.mono (walk_ends hroot hP) ?_ ?_ fun _ _ h => h
  · rintro e m' ⟨hm, he⟩
    subst m'
    rw [Address.number_pageDown] at he
    cases htarget : e.target with
    | none =>
        simp only [htarget]
        refine ⟨rfl, fun hp => ?_⟩
        obtain ⟨hsome, -⟩ := he hp
        rw [Entry.mapping, htarget] at hsome
        cases hsome
    | some p =>
        simp only [htarget, ends_bind]
        have hmap : P → m.translation root g.number = some (p, e.permission) := fun hp => by
          rw [← (he hp).2, Entry.mapping_eq_some]
          exact ⟨htarget, rfl⟩
        refine virtual_ends (fun _ => ⟨rfl, fun hp => ?_⟩) fun _ hfree => ⟨rfl, fun hp => ?_⟩
        · rw [hmap hp]
          rfl
        · have hlive := (hP hp).1.translation_live (hP hp).2 (hmap hp)
          rw [Address.pageDown_of_isPageAligned ((hP hp).1.page hlive).1] at hfree
          exact hfree hlive
  · rintro e m' ⟨hm, he⟩
    subst m'
    rw [Address.number_pageDown] at he
    exact ⟨rfl, fun hp => by rw [(he hp).2]; rfl⟩

theorem walk_reads {tab : Ept} {root : Hpa} (hroot : tab.root = some root) (hb : m.Balanced a)
    (hr : a.level root = some 3) :
    (tab.walk g).run m = (orFail (m.present root g.number) .notExist).run m := by
  have hends := walkFrom_reads (m := m) (a := a) (g := g) (t := root) (k := 3) (P := True) (by decide)
    fun _ => ⟨hb, hr⟩
  have hwalk : tab.walk g = walkFrom g 3 root := by
    rw [walk, hroot]
    rfl
  rw [hwalk]
  cases hrun : (walkFrom g 3 root).run m with
  | ok e m' =>
      obtain ⟨rfl, he⟩ := hends.ok hrun
      obtain ⟨hsome, s, hs, hentry⟩ := he trivial
      rw [present_eq_some.2 ⟨s, hs, hentry, hsome⟩, run_orFail_some]
  | error stop m' =>
      cases stop with
      | error e =>
          obtain ⟨rfl, he⟩ := hends.error hrun
          obtain ⟨rfl, hnone⟩ := he trivial
          have habsent : m'.present root g.number = none := by
            refine Option.eq_none_iff_forall_ne_some.2 fun e he => ?_
            obtain ⟨s, hs, rfl, hsome⟩ := present_eq_some.1 he
            rw [hnone s hs] at hsome
            cases hsome
          rw [habsent, run_orFail_none]
      | panic p => exact absurd trivial (hends.stop hrun).2

theorem answer_walk {tab : Ept} {root : Hpa} (hroot : tab.root = some root) (hb : m.Balanced a)
    (hr : a.level root = some 3) : (tab.walk g).answer m =
      match m.translation root g.number with
      | some (p, perm) => .ok (.referring p perm.leafFlags)
      | none => .error (.error .notExist) := by
  rw [answer_congr (walk_reads hroot hb hr), hb.present_eq hr]
  cases m.translation root g.number <;> rfl

theorem answer_resolve {ε : Type} {tab : Ept} {root : Hpa} (hroot : tab.root = some root)
    (hb : m.Balanced a) (hr : a.level root = some 3) :
    (tab.resolve g : MemoryM ε (Option Hva)).answer m =
      .ok ((m.translation root g.number).map (backing g)) := by
  have hends := resolve_ends (ε := ε) (m := m) (g := g) (P := True) (E := fun _ _ => False)
    hroot fun _ => ⟨hb, hr⟩
  rw [Action.answer]
  cases hrun : (tab.resolve g : MemoryM ε (Option Hva)).run m with
  | ok v m' => rw [(hends.ok hrun).2 trivial]
  | error stop m' =>
      cases stop with
      | error err => exact (hends.error hrun).elim
      | panic p => exact absurd trivial (hends.stop hrun).2

end Ept

end Hypervisor
