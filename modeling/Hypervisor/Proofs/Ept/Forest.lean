import Hypervisor.Ept.Table
import Hypervisor.Proofs.Ept.Reference
import Hypervisor.Proofs.Memory.Safe
import Mathlib.Data.Set.Card

/-!
# Tables as a forest

The tables in a memory are described by an account, which says of every page on which level it is a
table, in which place it is linked, and how many references are held on it from outside the tables.
A memory is balanced when the entries and the references of its pages agree with the account.
-/

namespace Hypervisor

namespace Slot

variable {s s' : Slot} {e : Entry} {ws : PageWords}

@[simp] theorem entryIn_storeIn : s.entryIn (s.storeIn e ws) = e := by
  rw [entryIn, storeIn, Fin.getElem_fin, Vector.getElem_set_self]

theorem entryIn_storeIn_of_ne (h : s'.index ≠ s.index) :
    s'.entryIn (s.storeIn e ws) = s'.entryIn ws := by
  have hv : s.index.val ≠ s'.index.val := fun he => h (Fin.ext he.symm)
  rw [entryIn, storeIn, Fin.getElem_fin, Vector.getElem_set_ne _ _ hv]
  rfl

end Slot

namespace Memory

/-- The entry in a place. -/
def entry (m : Memory) (s : Slot) : Entry := s.entryIn (m.words s.table)

def stored (m : Memory) (s : Slot) (e : Entry) : Memory :=
  m.edited s.table (s.storeIn e)

end Memory

namespace Slot

open Hypervisor.Action Memory

variable {ε α : Type} {F : Panic → Prop} {m : Memory} {P : Prop} {Q : α → Memory → Prop}
  {E : ε → Memory → Prop} {s s' : Slot} {e : Entry}

theorem read_ends {G : Panic → Memory → Prop} {Q : Entry → Memory → Prop}
    (live : s.table.pageDown ∈ m.pages → Q (m.entry s) m)
    (free : ∀ panic, s.table.pageDown ∉ m.pages → G panic m) :
    (s.read : MemoryM ε Entry).Ends m Q E G := by
  rw [read, ends_bind]
  exact pageWords_ends live free

theorem read_bind {f : Entry → MemoryM ε α} (hlive : P → s.table.pageDown ∈ m.pages)
    (h : (f (m.entry s)).Safe F m P Q E) : (s.read >>= f).Safe F m P Q E := by
  rw [read, bind_assoc]
  refine pageWords_bind hlive ?_
  rw [pure_bind]
  exact h

theorem write_bind {f : Unit → MemoryM ε α} (h : (f ()).Safe F (m.stored s e) P Q E) :
    (s.write e >>= f).Safe F m P Q E :=
  updatePage_bind h

theorem refer_bind {old : Entry} {p : Hpa} {flags : EntryFlags} {f : Unit → MemoryM EptError α}
    {E : EptError → Memory → Prop}
    (hp : m.Fits → P → p.isPageAligned = true ∧ p.val.toNat < 2 ^ 52)
    (h : ∀ e, (m.Fits → P → e = .referring p flags) → (f ()).Safe F (m.stored s e) P Q E) :
    (ofExcept (old.withTarget p) >>= fun e => s.write (e.withFlags flags) >>= f).Safe F m P Q E := by
  refine Safe.ofExcept_bind (fun e he => write_bind (h _ fun hf hP => ?_)) fun err herr hf hP => ?_
  · obtain ⟨e', he', hflags⟩ := old.withTarget_withFlags (hp hf hP).1 (hp hf hP).2
    cases he.symm.trans he'
    exact hflags flags
  · obtain ⟨e', he', -⟩ := old.withTarget_withFlags (hp hf hP).1 (hp hf hP).2
    cases herr.symm.trans he'

end Slot

namespace Memory

variable {m : Memory} {s s' : Slot} {e : Entry}

@[simp] theorem next_stored : (m.stored s e).next = m.next := rfl

@[simp] theorem mem_stored {p : Hpa} : p ∈ (m.stored s e).pages ↔ p ∈ m.pages := mem_edited _

@[simp] theorem refs_stored {p : Hpa} : (m.stored s e).refs p = m.refs p := refs_edited _

theorem entry_stored (hlive : s.table ∈ m.pages) (ha : s.table.isPageAligned = true)
    (ha' : s'.table.isPageAligned = true) :
    (m.stored s e).entry s' = if s' = s then e else m.entry s' := by
  have hd := Address.pageDown_of_isPageAligned ha
  have hd' := Address.pageDown_of_isPageAligned ha'
  have hw := words_edited (m := m) (p := s.table) (a := s'.table)
    (s.storeIn e) (by rw [hd]; exact hlive)
  rw [hd, hd'] at hw
  unfold entry stored
  rw [hw]
  by_cases ht : s'.table = s.table
  · by_cases hi : s'.index = s.index
    · have hs : s' = s := by
        cases s
        cases s'
        simp_all
      subst hs
      simp
    · have hs : s' ≠ s := fun h => hi (congrArg Slot.index h)
      rw [if_pos ht, if_neg hs, Slot.entryIn_storeIn_of_ne hi]
  · have hs : s' ≠ s := fun h => ht (congrArg Slot.table h)
    simp [ht, hs]

theorem words_stored_of_ne (hlive : s.table ∈ m.pages) (ha : s.table.isPageAligned = true)
    {p : Hpa} (hp : p.pageDown ≠ s.table) : (m.stored s e).words p = m.words p := by
  have hd := Address.pageDown_of_isPageAligned ha
  have hw := words_edited (m := m) (p := s.table) (a := p)
    (s.storeIn e) (by rw [hd]; exact hlive)
  rw [hd, if_neg hp] at hw
  exact hw

/-- An entry depends only on the contents of its table. -/
theorem entry_congr {m' : Memory} (h : m'.words s.table = m.words s.table) :
    m'.entry s = m.entry s := by
  rw [entry, entry, h]

theorem entry_of_words_eq_zero (h : m.words s.table = .zero) : m.entry s = .empty := by
  rw [entry, h, Slot.entryIn, Entry.empty]
  congr 1
  exact Vector.getElem_replicate _

end Memory

/-- What is known of every page: the level on which it is a table, the place where it is linked, the
references on it that no entry holds, and whether it may be live without a reference. -/
structure Account where
  level : Hpa → Option Nat
  parent : Hpa → Option Slot
  held : Hpa → Nat
  idle : Hpa → Prop

instance : Inhabited Account := ⟨⟨fun _ => none, fun _ => none, fun _ => 0, fun _ => False⟩⟩

/-- The entries that are stored in a table of a level. -/
inductive Entry.Formed : Nat → Entry → Prop
  | empty (k : Nat) : Formed k .empty
  | link (k : Nat) (q : Hpa) (aligned : q.isPageAligned = true) (fits : q.val.toNat < 2 ^ 52) :
      Formed (k + 1) (.referring q .full)
  | leaf (p : Hpa) (perm : Permission) (aligned : p.isPageAligned = true)
      (fits : p.val.toNat < 2 ^ 52) (some : perm.isEmpty = false)
      (readable : perm.contains Permission.write = true → perm.contains Permission.read = true) :
      Formed 0 (.referring p perm.leafFlags)

namespace Account

/-- Whether a page is linked in some table. -/
def linked (a : Account) (q : Hpa) : Nat := if (a.parent q).isSome then 1 else 0

/-- The number of leaves that hold a page. -/
noncomputable def leaves (a : Account) (entry : Slot → Entry) (q : Hpa) : Nat :=
  {s : Slot | a.level s.table = some 0 ∧ (entry s).target = some q}.ncard

def hold (a : Account) (p : Hpa) : Account :=
  { a with held := fun q => a.held q + if q = p then 1 else 0 }

def keep (a : Account) (target : Option Hpa) : Account :=
  { a with held := fun q => a.held q + if target = some q then 1 else 0 }

def drop (a : Account) (p : Hpa) : Account :=
  { a with held := fun q => a.held q - if q = p then 1 else 0 }

def plant (a : Account) (p : Hpa) (k : Nat) (s : Option Slot) : Account :=
  { a with
    level := fun q => if q = p then some k else a.level q
    parent := fun q => if q = p then s else a.parent q }

def link (a : Account) (p : Hpa) (s : Slot) : Account :=
  { a.drop p with parent := fun q => if q = p then some s else a.parent q }

def unlink (a : Account) (p : Hpa) : Account :=
  { a.hold p with parent := fun q => if q = p then none else a.parent q }

def fell (a : Account) (p : Hpa) : Account :=
  { a with level := fun q => if q = p then none else a.level q }

end Account

instance : Finite Slot := by
  refine Finite.of_injective (fun s : Slot => (s.table.val.toFin, s.index)) ?_
  intro s s' h
  obtain ⟨⟨v⟩, i⟩ := s
  obtain ⟨⟨v'⟩, i'⟩ := s'
  obtain ⟨hv, hi⟩ := Prod.mk.inj h
  cases UInt64.toFin_inj.1 hv
  cases hi
  rfl

namespace Account

variable {a a' : Account} {entry entry' : Slot → Entry} {s : Slot} {q : Hpa}

@[simp] theorem keep_none : a.keep none = a := by
  cases a
  simp [keep]

theorem drop_keep (p : Hpa) : (a.keep (some p)).drop p = a := by
  cases a
  simp only [keep, drop, mk.injEq, true_and, and_true]
  funext q
  simp only [Option.some.injEq, eq_comm (a := p)]
  omega

theorem linked_of_parent_eq_none (h : a.parent q = none) : a.linked q = 0 := by
  simp [linked, h]

theorem linked_of_parent_eq_some (h : a.parent q = some s) : a.linked q = 1 := by
  simp [linked, h]

theorem leaves_pos (hs : a.level s.table = some 0) (hq : (entry s).target = some q) :
    0 < a.leaves entry q :=
  (Set.ncard_pos).2 ⟨s, hs, hq⟩

theorem leaves_congr (hlevel : ∀ t, a'.level t = some 0 ↔ a.level t = some 0)
    (hentry : ∀ s, a.level s.table = some 0 → entry' s = entry s) :
    a'.leaves entry' q = a.leaves entry q := by
  unfold leaves
  congr 1
  ext s
  simp only [Set.mem_ofPred_eq, hlevel]
  constructor
  · rintro ⟨hs, hq⟩
    exact ⟨hs, by rw [← hentry s hs]; exact hq⟩
  · rintro ⟨hs, hq⟩
    exact ⟨hs, by rw [hentry s hs]; exact hq⟩

private theorem ncard_add_eq (A A' : Set Slot) (s : Slot) [Decidable (s ∈ A)] [Decidable (s ∈ A')]
    (h : A \ {s} = A' \ {s}) :
    (A'.ncard + if s ∈ A then 1 else 0) = A.ncard + if s ∈ A' then 1 else 0 := by
  have hcard : ∀ B : Set Slot, [Decidable (s ∈ B)] →
      B.ncard = (B \ {s}).ncard + if s ∈ B then 1 else 0 := by
    intro B _
    by_cases hs : s ∈ B
    · rw [if_pos hs, Set.ncard_sdiff_singleton_add_one hs]
    · rw [if_neg hs, Set.sdiff_singleton_eq_self hs, Nat.add_zero]
  rw [hcard A, hcard A', h]
  omega

theorem leaves_store (entry entry' : Slot → Entry) (hs : a.level s.table = some 0)
    (hentry : ∀ s', a.level s'.table = some 0 → s' ≠ s → entry' s' = entry s') :
    (a.leaves entry' q + if (entry s).target = some q then 1 else 0) =
      a.leaves entry q + if (entry' s).target = some q then 1 else 0 := by
  classical
  have hA : s ∈ {s : Slot | a.level s.table = some 0 ∧ (entry s).target = some q} ↔
      (entry s).target = some q := and_iff_right hs
  have hA' : s ∈ {s : Slot | a.level s.table = some 0 ∧ (entry' s).target = some q} ↔
      (entry' s).target = some q := and_iff_right hs
  have hcard := ncard_add_eq {s : Slot | a.level s.table = some 0 ∧ (entry s).target = some q}
    {s : Slot | a.level s.table = some 0 ∧ (entry' s).target = some q} s (by
      ext s'
      simp only [Set.mem_sdiff, Set.mem_ofPred_eq, Set.mem_singleton_iff, and_congr_left_iff,
        and_congr_right_iff]
      intro hne ht
      rw [hentry s' ht hne])
  simp only [hA, hA'] at hcard
  exact hcard

end Account

/-- The entries of the tables are well formed, and those of the upper levels link the tables as the
account says. -/
structure Shape (entry : Slot → Entry) (a : Account) : Prop where
  bound : ∀ {q k}, a.level q = some k → k < Ept.levels
  linked : ∀ {s k q}, a.level s.table = some (k + 1) →
    ((entry s).target = some q ↔ a.parent q = some s)
  child : ∀ {s q}, a.parent q = some s → ∃ k, a.level s.table = some (k + 1) ∧ a.level q = some k
  formed : ∀ {s k}, a.level s.table = some k → (entry s).Formed k

/-- The pages, the entries and the references of a memory agree with the account. -/
structure Memory.Balanced (m : Memory) (a : Account) : Prop where
  aligned : m.next.toNat % 4096 = 0
  page : ∀ {p}, p ∈ m.pages → p.isPageAligned = true ∧ p.val.toNat < m.next.toNat
  shape : Shape m.entry a
  ledger : ∀ q, m.refs q = a.held q + a.linked q + a.leaves m.entry q
  root : ∀ {q k}, a.level q = some k → a.parent q = none → 0 < a.held q
  idle : ∀ {p}, p ∈ m.pages → m.refs p = 0 → a.idle p

namespace Shape

variable {entry : Slot → Entry} {a : Account} {s : Slot} {q : Hpa} {k : Nat}

theorem level_of_parent (h : Shape entry a) (hp : a.parent q = some s) :
    ∃ k, a.level q = some k := by
  obtain ⟨k, -, hk⟩ := h.child hp
  exact ⟨k, hk⟩

theorem parent_of_level_eq_none (h : Shape entry a) (hq : a.level q = none) :
    a.parent q = none := by
  cases hp : a.parent q with
  | none => rfl
  | some s =>
      obtain ⟨k, hk⟩ := h.level_of_parent hp
      rw [hq] at hk
      cases hk

theorem parent_of_level_eq_top (h : Shape entry a) (hq : a.level q = some 3) :
    a.parent q = none := by
  cases hp : a.parent q with
  | none => rfl
  | some s =>
      obtain ⟨k, hk, hk'⟩ := h.child hp
      have hbound := h.bound hk
      rw [hq, Option.some.injEq] at hk'
      simp only [Ept.levels] at hbound
      omega

/-- A link leads one level down. -/
theorem level_of_target (h : Shape entry a) (hs : a.level s.table = some (k + 1))
    (hq : (entry s).target = some q) : a.level q = some k := by
  obtain ⟨j, hj, hlevel⟩ := h.child ((h.linked hs).1 hq)
  rw [hs] at hj
  cases hj
  exact hlevel

end Shape

namespace Memory.Balanced

variable {m : Memory} {a : Account} {s : Slot} {q : Hpa} {k : Nat}

theorem held_le_refs (h : m.Balanced a) (q : Hpa) : a.held q ≤ m.refs q := by
  rw [h.ledger q]
  omega

theorem held_live (h : m.Balanced a) (hq : 0 < a.held q) : q ∈ m.pages :=
  mem_of_refs_pos (Nat.lt_of_lt_of_le hq (h.held_le_refs q))

theorem held_add_linked_pos (h : m.Balanced a) (hq : a.level q = some k) :
    0 < a.held q + a.linked q := by
  cases hp : a.parent q with
  | none =>
      have hheld := h.root hq hp
      omega
  | some s =>
      rw [Account.linked_of_parent_eq_some hp]
      omega

theorem refs_pos_of_level (h : m.Balanced a) (hq : a.level q = some k) : 0 < m.refs q := by
  have hpos := h.held_add_linked_pos hq
  rw [h.ledger q]
  omega

theorem table_live (h : m.Balanced a) (hq : a.level q = some k) : q ∈ m.pages :=
  mem_of_refs_pos (h.refs_pos_of_level hq)

theorem refs_pos_of_target (h : m.Balanced a) (hs : a.level s.table = some k)
    (hq : (m.entry s).target = some q) : 0 < m.refs q := by
  cases k with
  | zero =>
      have hpos := Account.leaves_pos hs hq
      rw [h.ledger q]
      omega
  | succ k => exact h.refs_pos_of_level (h.shape.level_of_target hs hq)

theorem target_live (h : m.Balanced a) (hs : a.level s.table = some k)
    (hq : (m.entry s).target = some q) : q ∈ m.pages :=
  mem_of_refs_pos (h.refs_pos_of_target hs hq)

theorem table_aligned (h : m.Balanced a) (hq : a.level q = some k) : q.isPageAligned = true :=
  (h.page (h.table_live hq)).1

theorem table_pageDown_live (h : m.Balanced a) (hq : a.level q = some k) :
    q.pageDown ∈ m.pages := by
  rw [Address.pageDown_of_isPageAligned (h.table_aligned hq)]
  exact h.table_live hq

theorem level_of_notMem (h : m.Balanced a) (hq : q ∉ m.pages) : a.level q = none := by
  cases hk : a.level q with
  | none => rfl
  | some k => exact absurd (h.table_live hk) hq

theorem page_lt (h : m.Balanced a) (hf : m.Fits) (hq : q ∈ m.pages) : q.val.toNat < 2 ^ 52 :=
  Nat.lt_of_lt_of_le (h.page hq).2 hf

theorem next_notMem (h : m.Balanced a) (hq : q.val = m.next) : q ∉ m.pages := by
  intro hmem
  have hlt := (h.page hmem).2
  rw [hq] at hlt
  exact Nat.lt_irrefl _ hlt

theorem entry_stored (h : m.Balanced a) {k' : Nat} {s' : Slot} {e : Entry}
    (hs : a.level s.table = some k) (hs' : a.level s'.table = some k') :
    (m.stored s e).entry s' = if s' = s then e else m.entry s' :=
  Memory.entry_stored (h.table_live hs) (h.table_aligned hs) (h.table_aligned hs')

end Memory.Balanced

end Hypervisor
