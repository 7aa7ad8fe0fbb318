import Hypervisor.Proofs.Ept.Steps

/-!
# Pages that were added

A memory may be another one with some pages besides, each with one reference.  Giving back what was
added leaves the pages and the references that there were before.
-/

namespace Hypervisor

def Account.bare (refs : Hpa → Nat) (idle : Hpa → Prop) : Account :=
  ⟨fun _ => none, fun _ => none, refs, idle⟩

namespace Memory

open Hypervisor.Action

/-- Pages are where the allocator places them, and below the next one. -/
structure Regular (m : Memory) : Prop where
  aligned : m.next.toNat % 4096 = 0
  page : ∀ {p}, p ∈ m.pages → p.isPageAligned = true ∧ p.val.toNat < m.next.toNat

/-- `m'` is `m` with the pages in `S` besides, each with one reference. -/
structure Adds (m : Memory) (S : Set Hpa) (m' : Memory) : Prop where
  new : ∀ p ∈ S, p ∉ m.pages
  live : ∀ q, q ∈ m'.pages ↔ q ∈ S ∨ q ∈ m.pages
  single : ∀ p ∈ S, m'.refs p = 1
  kept : ∀ q ∈ m.pages, m'.refs q = m.refs q

variable {m m' m'' : Memory} {a : Account} {S : Set Hpa} {p : Hpa} {l : List Hpa} {ε : Type}
  {F : Panic → Prop}

theorem Balanced.regular (h : m.Balanced a) : m.Regular := ⟨h.aligned, h.page⟩

theorem fresh_regular (budget : Option Nat) : { fresh with budget := budget }.Regular := by
  have haligned : fresh.next.toNat % 4096 = 0 := by decide
  have hbuffer : (⟨videoBuffer⟩ : Hpa).isPageAligned = true ∧
      (⟨videoBuffer⟩ : Hpa).val.toNat < fresh.next.toNat := by decide
  refine ⟨haligned, fun {p} hp => ?_⟩
  rw [mem_fresh.1 hp]
  exact hbuffer

theorem Regular.balanced (h : m.Regular) {idle : Hpa → Prop}
    (hidle : ∀ p ∈ m.pages, m.refs p = 0 → idle p) : m.Balanced (.bare m.refs idle) where
  aligned := h.aligned
  page := h.page
  shape := ⟨nofun, nofun, nofun, nofun⟩
  ledger := fun q => by simp [Account.bare, Account.linked, Account.leaves]
  root := nofun
  idle := hidle _

theorem Regular.next_notMem (h : m.Regular) (hp : p.val = m.next) : p ∉ m.pages :=
  (h.balanced fun _ _ _ => trivial).next_notMem hp

theorem Regular.edited (h : m.Regular) (f : PageWords → PageWords) : (m.edited p f).Regular :=
  ⟨h.aligned, fun hq => h.page ((mem_edited f).1 hq)⟩

theorem Regular.allocates (h : m.Regular) (hm : m.Allocates m' p) : m'.Regular :=
  ((h.balanced fun _ _ _ => trivial).allocates hm).regular

theorem Regular.released (h : m.Regular) : (m.released p).Regular :=
  ⟨h.aligned, fun hq => h.page (mem_released.1 hq).1⟩

theorem Regular.of_eq (h : m.Regular) (hpages : m'.pages = m.pages) (hnext : m'.next = m.next) :
    m'.Regular := by
  refine ⟨?_, fun hq => ?_⟩
  · rw [hnext]
    exact h.aligned
  · rw [hpages] at hq
    rw [hnext]
    exact h.page hq

theorem size_pages (m : Memory) : m.pages.size = {p | p ∈ m.pages}.ncard := by
  classical
  have hset : {p | p ∈ m.pages} = (m.pages.keys.toFinset : Set Hpa) := by
    ext p
    simp
  rw [hset, Set.ncard_coe_finset, List.toFinset_card_of_nodup Std.ExtTreeMap.nodup_keys,
    Std.ExtTreeMap.length_keys]

theorem finite_pages (m : Memory) : {p | p ∈ m.pages}.Finite := by
  classical
  refine (m.pages.keys.toFinset.finite_toSet).subset fun p hp => ?_
  simpa using hp

namespace Adds

theorem refl (m : Memory) : m.Adds ∅ m where
  new := fun _ hp => hp.elim
  live := fun q => by simp
  single := fun _ hp => hp.elim
  kept := fun _ _ => rfl

/-- Without additions the references are the same, also those of free pages. -/
theorem refs_eq (h : m.Adds ∅ m') (q : Hpa) : m'.refs q = m.refs q := by
  by_cases hq : q ∈ m.pages
  · exact h.kept q hq
  · have hq' : q ∉ m'.pages := by simpa [h.live] using hq
    rw [refs_eq_zero_of_notMem hq, refs_eq_zero_of_notMem hq']

theorem size (h : m.Adds S m') (hS : S.Finite := by toFinite_tac) :
    m'.pages.size = m.pages.size + S.ncard := by
  have hunion : {p | p ∈ m'.pages} = S ∪ {p | p ∈ m.pages} := by
    ext p
    exact h.live p
  have hdisjoint : Disjoint S {p | p ∈ m.pages} := Set.disjoint_left.2 h.new
  rw [size_pages, size_pages, hunion, Set.ncard_union_eq hdisjoint hS m.finite_pages, Nat.add_comm]

theorem of_pages_eq (h : m.Adds S m') (hpages : m''.pages = m'.pages) : m.Adds S m'' where
  new := h.new
  live := fun q => by rw [hpages, h.live]
  single := fun p hp => by rw [refs, hpages, ← refs, h.single p hp]
  kept := fun q hq => by rw [refs, hpages, ← refs, h.kept q hq]

theorem edited (h : m.Adds S m') (f : PageWords → PageWords) : m.Adds S (m'.edited p f) where
  new := h.new
  live := fun q => by rw [mem_edited, h.live]
  single := fun q hq => by rw [refs_edited, h.single q hq]
  kept := fun q hq => by rw [refs_edited, h.kept q hq]

theorem allocates (h : m.Adds S m') (hm : m'.Allocates m'' p) (hp : p ∉ m'.pages) :
    m.Adds (insert p S) m'' where
  new := by
    rintro q (rfl | hq)
    · exact fun hmem => hp ((h.live _).2 (.inr hmem))
    · exact h.new q hq
  live := fun q => by rw [hm.mem, h.live, Set.mem_insert_iff, or_assoc]
  single := by
    rintro q (rfl | hq)
    · rw [hm.refs hp, refs_eq_zero_of_notMem hp, if_pos rfl]
    · have hne : q ≠ p := fun he => hp ((h.live p).2 (.inl (he ▸ hq)))
      rw [hm.refs hp, if_neg hne, h.single q hq]
  kept := fun q hq => by
    have hne : q ≠ p := fun he => hp ((h.live p).2 (.inr (he ▸ hq)))
    rw [hm.refs hp, if_neg hne, h.kept q hq, Nat.add_zero]

theorem released (h : m.Adds (insert p S) m') (hp : p ∉ S) : m.Adds S (m'.released p) where
  new := fun q hq => h.new q (.inr hq)
  live := fun q => by
    have hone := h.single p (.inl rfl)
    have hnew := h.new p (.inl rfl)
    rw [mem_released, h.live, Set.mem_insert_iff]
    simp only [hone, and_true]
    constructor
    · rintro ⟨(rfl | hq) | hq, hne⟩
      · exact absurd rfl hne
      · exact .inl hq
      · exact .inr hq
    · rintro (hq | hq)
      · exact ⟨.inl (.inr hq), fun he => hp (he ▸ hq)⟩
      · exact ⟨.inr hq, fun he => hnew (he ▸ hq)⟩
  single := fun q hq => by
    have hne : q ≠ p := fun he => hp (he ▸ hq)
    rw [refs_released, if_neg hne, h.single q (.inr hq)]
  kept := fun q hq => by
    have hne : q ≠ p := fun he => h.new p (.inl rfl) (he ▸ hq)
    rw [refs_released, if_neg hne, h.kept q hq, Nat.sub_zero]

theorem of_released (h : m.refs p = 1) : (m.released p).Adds {p} m where
  new := by
    rintro q rfl hq
    exact (mem_released.1 hq).2 ⟨rfl, h⟩
  live := fun q => by
    rw [mem_released, Set.mem_singleton_iff]
    constructor
    · intro hq
      by_cases hqp : q = p
      · exact .inl hqp
      · exact .inr ⟨hq, fun he => hqp he.1⟩
    · rintro (rfl | hq)
      · exact mem_of_refs_pos (h ▸ Nat.one_pos)
      · exact hq.1
  single := by
    rintro q rfl
    exact h
  kept := fun q hq => by
    have hqp : q ≠ p := fun he => (mem_released.1 hq).2 ⟨he, h⟩
    rw [refs_released, if_neg hqp, Nat.sub_zero]

end Adds

theorem release_adds :
    (release p : MemoryM ε Unit).Safe F m' (p ∉ S ∧ m.Adds (insert p S) m')
      (fun _ m'' => m.Adds S m'') (fun _ _ => False) := by
  refine Safe.last (release_bind (fun h => ?_) (Safe.pure fun _ h => h.2.released h.1))
  rw [h.2.single p (.inl rfl)]
  exact Nat.one_pos

theorem ofPred_mem_cons : {q | q ∈ p :: l} = insert p {q | q ∈ l} := by
  ext q
  simp

theorem releaseAll_adds (l : List Hpa) :
    (l.forM release : MemoryM ε Unit).Safe F m' (l.Nodup ∧ m.Adds {q | q ∈ l} m')
      (fun _ m'' => m.Adds ∅ m'') (fun _ _ => False) := by
  induction l generalizing m' with
  | nil => exact Safe.pure fun _ h => by simpa using h.2
  | cons p l ih =>
      rw [ofPred_mem_cons]
      refine Safe.bind (release_adds.assume fun _ h => ⟨?_, h.2⟩) fun _ m₁ => ih.assume fun _ h => ?_
      · exact (List.nodup_cons.1 h.1).1
      · exact ⟨(List.nodup_cons.1 h.1.1).2, h.2⟩

structure Obtains (m : Memory) (l : List Hpa) (m' : Memory) : Prop where
  regular : m'.Regular
  nodup : l.Nodup
  adds : m.Adds {q | q ∈ l} m'
  zero : ∀ p ∈ l, m'.words p = .zero

theorem Obtains.concat (h : m.Obtains l m') (hm : m'.Allocates m'' p) : m.Obtains (l ++ [p]) m'' := by
  have hp : p ∉ m'.pages := h.regular.next_notMem hm.address
  have hl : p ∉ l := fun hmem => hp ((h.adds.live p).2 (.inl hmem))
  have hinsert : {q | q ∈ l ++ [p]} = insert p {q | q ∈ l} := by
    ext q
    simp [or_comm]
  refine ⟨h.regular.allocates hm, ?_, ?_, fun q hq => ?_⟩
  · rw [List.nodup_append]
    refine ⟨h.nodup, List.nodup_singleton p, fun q hq r hr he => hl ?_⟩
    rwa [← List.mem_singleton.1 hr, ← he]
  · rw [hinsert]
    exact h.adds.allocates hm hp
  · rw [hm.words]
    split_ifs with he
    · rfl
    · rcases List.mem_append.1 hq with hq | hq
      · exact h.zero q hq
      · rw [List.mem_singleton] at hq
        subst hq
        have haligned := ((h.regular.allocates hm).page (hm.mem.2 (.inl rfl))).1
        exact absurd (Address.pageDown_of_isPageAligned haligned) he

theorem Obtains.pageDown (h : m.Obtains l m') (hp : p ∈ l) : p.pageDown = p :=
  Address.pageDown_of_isPageAligned (h.regular.page ((h.adds.live p).2 (.inl hp))).1

theorem Obtains.words_edited (h : m.Obtains l m') {q : Hpa} (hp : p ∈ l) (hq : q ∈ l) (hne : q ≠ p)
    (f : PageWords → PageWords) : (m'.edited p f).words q = .zero := by
  rw [words_edited_of_ne f (by rwa [h.pageDown hp, h.pageDown hq]), h.zero q hq]

def ObtainsAll (m : Memory) {count : Nat} (r : Option (Vector Hpa count)) (m' : Memory) : Prop :=
  match r with
  | none => m.Adds ∅ m'
  | some pages => m.Obtains pages.toList m'

theorem allocRetainedMany_obtains (count : Nat) :
    (allocRetainedMany count : MemoryM ε (Option (Vector Hpa count))).Safe F m m.Regular
      (fun r m' => m.ObtainsAll r m') (fun _ _ => False) := by
  induction count with
  | zero =>
      refine Safe.pure fun _ h => ⟨h, List.nodup_nil, ?_, fun p hp => nomatch hp⟩
      simpa using Adds.refl m
  | succ count ih =>
      refine Safe.bind ih fun r m₁ => ?_
      cases r with
      | none => exact Safe.pure fun _ h => h.2
      | some taken =>
          refine allocRetained_bind (fun m₂ hpages hnext => ?_) fun m₂ p hm => ?_
          · refine Safe.bind (R := fun _ m₃ => m.Adds ∅ m₃) ((releaseAll_adds taken.toList).mono
              (fun _ h => ⟨Obtains.nodup h.2, (Obtains.adds h.2).of_pages_eq hpages⟩) (fun _ _ _ _ _ h => h)
              fun _ _ _ _ _ h => h) fun _ m₃ => Safe.pure fun _ h => h.2
          · refine Safe.pure fun _ h => ?_
            show m.Obtains (taken.push p).toList m₂
            rw [Vector.toList_push]
            exact Obtains.concat h.2 hm

end Memory

end Hypervisor
