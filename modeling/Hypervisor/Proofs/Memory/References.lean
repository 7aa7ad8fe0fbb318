import Hypervisor.Memory.Allocator
import Hypervisor.Proofs.Outcome
import Mathlib.Tactic

/-!
# References

What the allocator does to the three things that can be seen of a page: whether it is live, how many
references it has, and what it holds.  `Leads` relates the memories before and after an action.  The
next page to be allocated only moves up; whatever else is promised may depend on all addresses
fitting in a table entry, which is known only at the end.
-/

namespace Hypervisor.Memory

open Hypervisor.Action

/-- The contents of the page that holds an address; a page that is free reads as zero. -/
def words (m : Memory) (a : Hpa) : PageWords :=
  (m.pages[a.pageDown]?.map Page.words).getD .zero

/-- Every page handed out so far has an address that fits in a table entry. -/
def Fits (m : Memory) : Prop := m.next.toNat ≤ 2 ^ 52

instance {m : Memory} : Decidable m.Fits := inferInstanceAs (Decidable (_ ≤ _))

/-- The memory `m'` comes after `m`, and `P` holds if all addresses still fit. -/
structure Leads (m m' : Memory) (P : Prop) : Prop where
  grows : m.next.toNat ≤ m'.next.toNat
  holds : m'.Fits → P

theorem Fits.of_leads {m m' : Memory} {P : Prop} (h : m.Leads m' P) (hf : m'.Fits) : m.Fits :=
  Nat.le_trans h.grows hf

theorem Leads.imp {m m' : Memory} {P P' : Prop} (h : m.Leads m' P) (f : m'.Fits → P → P') :
    m.Leads m' P' := ⟨h.grows, fun hf => f hf (h.holds hf)⟩

theorem Leads.andThen {m m₁ m₂ : Memory} {P P' R : Prop} (h : m.Leads m₁ P) (h' : m₁.Leads m₂ P')
    (f : m₂.Fits → P → P' → R) : m.Leads m₂ R :=
  ⟨h.grows.trans h'.grows, fun hf => f hf (h.holds (hf.of_leads h')) (h'.holds hf)⟩

theorem Leads.of_next_eq {m m' : Memory} {P : Prop} (h : m'.next = m.next) (f : m'.Fits → P) :
    m.Leads m' P := ⟨by rw [h], f⟩

/-- The reference on the video buffer that is never dropped. -/
def reserved (p : Hpa) : Nat := if p = ⟨videoBuffer⟩ then 1 else 0

def retained (m : Memory) (p : Hpa) : Memory :=
  { m with pages := m.pages.modify p fun page => { page with refs := page.refs + 1 } }

/-- One reference less to a page, which is free without the last one. -/
def released (m : Memory) (p : Hpa) : Memory :=
  { m with
    pages :=
      if m.refs p = 1 then m.pages.erase p
      else m.pages.modify p fun page => { page with refs := page.refs - 1 } }

/-- Other contents of the page that holds an address. -/
def edited (m : Memory) (a : Hpa) (f : PageWords → PageWords) : Memory :=
  { m with pages := m.pages.modify a.pageDown fun page => { page with words := f page.words } }

/-- `m'` is `m` after the page `p` was allocated and referred to so many times. -/
structure Allocates (m m' : Memory) (p : Hpa) (count : Nat := 1) : Prop where
  address : p.val = m.next
  pages : m'.pages = m.pages.insert p { refs := count }
  next : m'.next.toNat = m.next.toNat + 4096

/-- So many allocations succeed before the limit is reached. -/
def Affords (m : Memory) (count : Nat) : Prop := ∀ budget ∈ m.budget, count ≤ budget

def Draws (m : Memory) (result : Option Hpa) (m' : Memory) : Prop :=
  match result with
  | none => m'.refused = m.refused + 1 ∧ (m'.Fits → m.budget = some 0)
  | some _ => m'.refused = m.refused ∧ m.budget ≠ some 0 ∧ m'.budget = m.budget.map (· - 1)

private theorem mem_modify {pages : PageMap} {p q : Hpa} (f : Page → Page) :
    q ∈ pages.modify p f ↔ q ∈ pages := by
  rw [Std.ExtTreeMap.mem_iff_isSome_getElem?, Std.ExtTreeMap.mem_iff_isSome_getElem?,
    Std.ExtTreeMap.getElem?_modify]
  by_cases h : p = q
  · subst q
    simp
  · simp [h]

section Observers

variable {m m' : Memory} {p q : Hpa}

theorem affords_zero : m.Affords 0 := fun _ _ => Nat.zero_le _

theorem Draws.affords_iff {count : Nat} (h : m.Draws (some p) m') :
    m'.Affords count ↔ m.Affords (count + 1) := by
  obtain ⟨-, hne, hbudget⟩ := h
  rw [Affords, Affords, hbudget]
  cases hb : m.budget with
  | none => simp
  | some budget =>
      rw [hb, ne_eq, Option.some.injEq] at hne
      simp only [Option.map_some, Option.mem_some_iff, forall_eq']
      omega

theorem Draws.not_affords {count : Nat} (h : m.Draws none m') (hf : m'.Fits) :
    ¬m.Affords (count + 1) := fun haffords => by
  have hle := haffords 0 (h.2 hf)
  omega

theorem mem_iff_isSome : p ∈ m.pages ↔ m.pages[p]?.isSome := Std.ExtTreeMap.mem_iff_isSome_getElem?

theorem getElem?_eq_none (h : p ∉ m.pages) : m.pages[p]? = none := by
  rw [mem_iff_isSome, Option.not_isSome_iff_eq_none] at h
  exact h

theorem exists_page (h : p ∈ m.pages) : ∃ page, m.pages[p]? = some page :=
  Option.isSome_iff_exists.1 (mem_iff_isSome.1 h)

theorem refs_of_getElem? {page : Page} (h : m.pages[p]? = some page) : m.refs p = page.refs := by
  simp [refs, h]

theorem refs_eq_zero_of_notMem (h : p ∉ m.pages) : m.refs p = 0 := by
  simp [refs, getElem?_eq_none h]

theorem words_eq_zero_of_notMem (h : p.pageDown ∉ m.pages) : m.words p = .zero := by
  rw [words, Std.ExtTreeMap.getElem?_eq_none h]
  rfl

theorem mem_of_refs_pos (h : 0 < m.refs p) : p ∈ m.pages := by
  by_contra hp
  rw [refs_eq_zero_of_notMem hp] at h
  exact Nat.lt_irrefl 0 h

theorem words_of_getElem? {a : Hpa} {page : Page} (h : m.pages[a.pageDown]? = some page) :
    m.words a = page.words := by
  simp [words, h]

@[simp] theorem next_retained : (m.retained p).next = m.next := rfl

@[simp] theorem next_released : (m.released p).next = m.next := rfl

@[simp] theorem next_edited (f : PageWords → PageWords) : (m.edited p f).next = m.next := rfl

@[simp] theorem mem_retained : q ∈ (m.retained p).pages ↔ q ∈ m.pages := mem_modify _

@[simp] theorem mem_edited (f : PageWords → PageWords) :
    q ∈ (m.edited p f).pages ↔ q ∈ m.pages := mem_modify _

theorem mem_released : q ∈ (m.released p).pages ↔ q ∈ m.pages ∧ ¬(q = p ∧ m.refs p = 1) := by
  simp only [released]
  split_ifs with h
  · rw [Std.ExtTreeMap.mem_erase, ne_eq, Std.LawfulEqCmp.compare_eq_iff_eq, eq_comm]
    simp only [h, and_true]
    exact and_comm
  · rw [mem_modify]
    simp [h]

theorem refs_retained (h : p ∈ m.pages) :
    (m.retained p).refs q = m.refs q + if q = p then 1 else 0 := by
  obtain ⟨page, hp⟩ := exists_page h
  by_cases hq : q = p
  · subst q
    simp [refs, retained, hp]
  · simp [refs, retained, Std.ExtTreeMap.getElem?_modify, hq, Ne.symm hq]

theorem refs_released : (m.released p).refs q = m.refs q - if q = p then 1 else 0 := by
  by_cases hq : q = p
  · subst q
    simp only [released, if_true]
    split_ifs with h
    · rw [h]
      simp [refs]
    · cases hp : m.pages[p]? <;> simp [refs, hp]
  · simp only [released, hq, if_false, Nat.sub_zero]
    split_ifs with h
    · simp [refs, Std.ExtTreeMap.getElem?_erase, Ne.symm hq]
    · simp [refs, Std.ExtTreeMap.getElem?_modify, Ne.symm hq]

@[simp] theorem refs_edited (f : PageWords → PageWords) : (m.edited p f).refs q = m.refs q := by
  by_cases hq : q = p.pageDown
  · subst q
    cases hp : m.pages[p.pageDown]? <;> simp [refs, edited, hp]
  · simp [refs, edited, Std.ExtTreeMap.getElem?_modify, Ne.symm hq]

@[simp] theorem words_retained (a : Hpa) : (m.retained p).words a = m.words a := by
  by_cases ha : a.pageDown = p
  · subst p
    cases hp : m.pages[a.pageDown]? <;> simp [words, retained, hp]
  · simp [words, retained, Std.ExtTreeMap.getElem?_modify, Ne.symm ha]

theorem words_released {a : Hpa} (h : a.pageDown ∈ (m.released p).pages) :
    (m.released p).words a = m.words a := by
  rw [mem_released] at h
  simp only [words, released]
  split_ifs with hr
  · have ha : p ≠ a.pageDown := fun hp => h.2 ⟨hp.symm, hr⟩
    simp [Std.ExtTreeMap.getElem?_erase, ha]
  · by_cases ha : p = a.pageDown
    · subst p
      cases hp : m.pages[a.pageDown]? <;> simp [hp]
    · simp [Std.ExtTreeMap.getElem?_modify, ha]

theorem words_edited {a : Hpa} (f : PageWords → PageWords) (h : p.pageDown ∈ m.pages) :
    (m.edited p f).words a = if a.pageDown = p.pageDown then f (m.words a) else m.words a := by
  obtain ⟨page, hp⟩ := exists_page h
  by_cases ha : a.pageDown = p.pageDown
  · simp [words, edited, ha, hp]
  · simp [words, edited, Std.ExtTreeMap.getElem?_modify, ha, Ne.symm ha]

theorem words_edited_of_ne {a : Hpa} (f : PageWords → PageWords) (h : a.pageDown ≠ p.pageDown) :
    (m.edited p f).words a = m.words a := by
  simp [words, edited, Std.ExtTreeMap.getElem?_modify, Ne.symm h]

theorem mem_fresh : p ∈ fresh.pages ↔ p = ⟨videoBuffer⟩ := by
  rw [fresh, Std.ExtTreeMap.mem_insert, Std.LawfulEqCmp.compare_eq_iff_eq, eq_comm]
  simp

theorem refs_fresh : fresh.refs p = if p = ⟨videoBuffer⟩ then 1 else 0 := by
  by_cases hp : p = ⟨videoBuffer⟩
  · simp [refs, fresh, hp]
  · rw [refs_eq_zero_of_notMem (fun h => hp (mem_fresh.1 h)), if_neg hp]

theorem edited_released {a : Hpa} (f : PageWords → PageWords)
    (h : ¬(a.pageDown = p ∧ m.refs p = 1)) :
    (m.released p).edited a f = (m.edited a f).released p := by
  have hpages : ((m.released p).edited a f).pages = ((m.edited a f).released p).pages := by
    apply Std.ExtTreeMap.ext_getElem?
    intro q
    have hrefs : (m.edited a f).refs p = m.refs p := refs_edited f
    unfold released
    rw [hrefs]
    by_cases hq : p = q
    · subst q
      by_cases hone : m.refs p = 1
      · have hne : a.pageDown ≠ p := fun he => h ⟨he, hone⟩
        simp [hone, edited, Std.ExtTreeMap.getElem?_modify, hne]
      · by_cases ha : a.pageDown = p
        · simp [hone, edited, ha, Function.comp_def]
        · simp [hone, edited, Std.ExtTreeMap.getElem?_modify, ha]
    · by_cases ha : a.pageDown = q
      · subst q
        split_ifs <;>
          simp [edited, Std.ExtTreeMap.getElem?_modify, Std.ExtTreeMap.getElem?_erase, hq]
      · split_ifs <;>
          simp [edited, Std.ExtTreeMap.getElem?_modify, Std.ExtTreeMap.getElem?_erase, hq, ha]
  unfold edited released at hpages ⊢
  simpa using hpages

variable {count : Nat}

theorem Allocates.mem (h : m.Allocates m' p count) : q ∈ m'.pages ↔ q = p ∨ q ∈ m.pages := by
  rw [h.pages, Std.ExtTreeMap.mem_insert, Std.LawfulEqCmp.compare_eq_iff_eq, eq_comm]

theorem Allocates.refs (h : m.Allocates m' p count) (hp : p ∉ m.pages) :
    m'.refs q = m.refs q + if q = p then count else 0 := by
  by_cases hq : q = p
  · subst q
    rw [refs_eq_zero_of_notMem hp]
    simp [Memory.refs, h.pages]
  · simp [Memory.refs, h.pages, Std.ExtTreeMap.getElem?_insert, hq, Ne.symm hq]

theorem Allocates.words (h : m.Allocates m' p count) (a : Hpa) :
    m'.words a = if a.pageDown = p then .zero else m.words a := by
  by_cases ha : a.pageDown = p
  · simp [Memory.words, h.pages, ha]
  · simp [Memory.words, h.pages, Std.ExtTreeMap.getElem?_insert, ha, Ne.symm ha]

end Observers

section Outcomes

variable {ε : Type} {m : Memory} {E : ε → Memory → Prop} {F : Panic → Memory → Prop}

theorem retain_ends {p : Hpa} {Q : Unit → Memory → Prop}
    (live : p ∈ m.pages → Q () (m.retained p)) (free : ∀ panic, p ∉ m.pages → F panic m) :
    (retain p : MemoryM ε Unit).Ends m Q E F := by
  by_cases h : p ∈ m.pages
  · obtain ⟨page, hp⟩ := exists_page h
    have hm : m.pages.insert p { page with refs := page.refs + 1 } = (m.retained p).pages := by
      apply Std.ExtTreeMap.ext_getElem?
      intro q
      simp [retained, Std.ExtTreeMap.getElem?_insert, Std.ExtTreeMap.getElem?_modify, hp]
    have hrun : (retain p : MemoryM ε Unit).run m = .ok () (m.retained p) := by
      simp only [retain, EStateM.run, hp, hm]
      rfl
    exact (ends_ok hrun).2 (live h)
  · have hrun : (retain p : MemoryM ε Unit).run m = .error (.panic (.retainOfFree p)) m := by
      simp only [retain, EStateM.run, getElem?_eq_none h]
    exact (ends_stop hrun).2 (free _ h)

theorem release_ends {p : Hpa} {Q : Unit → Memory → Prop}
    (held : 0 < m.refs p → Q () (m.released p)) (loose : ∀ panic, ¬0 < m.refs p → F panic m) :
    (release p : MemoryM ε Unit).Ends m Q E F := by
  by_cases h : p ∈ m.pages
  · obtain ⟨page, hp⟩ := exists_page h
    have hr := refs_of_getElem? hp
    by_cases h0 : page.refs = 0
    · have hrun : (release p : MemoryM ε Unit).run m =
          .error (.panic (.releaseOfUnreferenced p)) m := by
        simp only [release, EStateM.run, hp, h0, if_true]
      exact (ends_stop hrun).2 (loose _ (by omega))
    · have hrun : (release p : MemoryM ε Unit).run m = .ok () (m.released p) := by
        simp only [release, EStateM.run, hp, h0, if_false, released, hr]
        split_ifs with h1
        · rfl
        · congr 2
          apply Std.ExtTreeMap.ext_getElem?
          intro q
          simp [Std.ExtTreeMap.getElem?_insert, Std.ExtTreeMap.getElem?_modify, hp]
      exact (ends_ok hrun).2 (held (by omega))
  · have hrun : (release p : MemoryM ε Unit).run m = .error (.panic (.releaseOfFree p)) m := by
      simp only [release, EStateM.run, getElem?_eq_none h]
    exact (ends_stop hrun).2 (loose _ (by rw [refs_eq_zero_of_notMem h]; omega))

theorem pageWords_ends {a : Hpa} {Q : PageWords → Memory → Prop}
    (live : a.pageDown ∈ m.pages → Q (m.words a) m)
    (free : ∀ panic, a.pageDown ∉ m.pages → F panic m) :
    (pageWords a : MemoryM ε PageWords).Ends m Q E F := by
  by_cases h : a.pageDown ∈ m.pages
  · obtain ⟨page, hp⟩ := exists_page h
    have hrun : (pageWords a : MemoryM ε PageWords).run m = .ok (m.words a) m := by
      simp only [pageWords, EStateM.run, hp, words_of_getElem? hp]
    exact (ends_ok hrun).2 (live h)
  · have hrun : (pageWords a : MemoryM ε PageWords).run m =
        .error (.panic (.accessToFree a)) m := by
      simp only [pageWords, EStateM.run, getElem?_eq_none h]
    exact (ends_stop hrun).2 (free _ h)

theorem virtual_ends {a : Hpa} {Q : Hva → Memory → Prop}
    (live : a.pageDown ∈ m.pages → Q ⟨a.val + directMap⟩ m)
    (free : ∀ panic, a.pageDown ∉ m.pages → F panic m) :
    (virtual a : MemoryM ε Hva).Ends m Q E F := by
  rw [virtual, ends_bind]
  exact pageWords_ends live free

theorem live_of_physical? {v : Hva} {p : Hpa} (h : m.physical? v = some p) :
    p.pageDown ∈ m.pages ∧ p.val = v.val - directMap := by
  simp only [physical?] at h
  split at h
  · rename_i hc
    cases h
    exact ⟨Std.ExtTreeMap.contains_iff_mem.1 hc, rfl⟩
  · cases h

@[simp] theorem ends_updatePage {a : Hpa} {f : PageWords → PageWords} {Q : Unit → Memory → Prop} :
    (updatePage a f : MemoryM ε Unit).Ends m Q E F ↔ Q () (m.edited a f) := Iff.rfl

theorem editPage_ends {a : Hpa} {f : PageWords → PageWords} {Q : Unit → Memory → Prop}
    (live : a.pageDown ∈ m.pages → Q () (m.edited a f))
    (free : ∀ panic, a.pageDown ∉ m.pages → F panic m) :
    (editPage a f : MemoryM ε Unit).Ends m Q E F := by
  rw [editPage, ends_bind]
  exact pageWords_ends live free

/-- An allocation that fails leaves the pages alone; it fails at the limit, or for want of addresses. -/
theorem alloc_ends_draws {Q : Option Hpa → Memory → Prop}
    (refused : ∀ m', m'.pages = m.pages → m'.next = m.next → m.Draws none m' → Q none m')
    (granted : ∀ m' p, m.Allocates m' p 0 → m.Draws (some p) m' → Q (some p) m') :
    (alloc : MemoryM ε (Option Hpa)).Ends m Q E F := by
  by_cases hb : m.budget = some 0
  · have hrun : (alloc : MemoryM ε (Option Hpa)).run m =
        .ok none { m with refused := m.refused + 1 } := by
      simp only [alloc, EStateM.run, hb, if_true]
    exact (ends_ok hrun).2 (refused _ rfl rfl ⟨rfl, fun _ => hb⟩)
  · by_cases hv : m.next < 0xffff000000000000
    · have hrun : (alloc : MemoryM ε (Option Hpa)).run m =
          .ok (some ⟨m.next⟩)
            { m with
              pages := m.pages.insert ⟨m.next⟩ {}, next := m.next + pageSize
              budget := m.budget.map (· - 1) } := by
        simp only [alloc, EStateM.run, hb, if_false, Address.ofWord?, Space.isValid, hv, decide_true,
          if_true]
      refine (ends_ok hrun).2 (granted _ _ ⟨rfl, rfl, ?_⟩ ⟨rfl, hb, rfl⟩)
      have hlt : m.next.toNat < 0xffff000000000000 := UInt64.lt_iff_toNat_lt.1 hv
      show (m.next + pageSize).toNat = _
      rw [UInt64.toNat_add, show pageSize.toNat = 4096 from rfl]
      omega
    · have hrun : (alloc : MemoryM ε (Option Hpa)).run m =
          .ok none
            { m with budget := m.budget.map (· - 1), refused := m.refused + 1 } := by
        simp only [alloc, EStateM.run, hb, if_false, Address.ofWord?, Space.isValid, hv,
          decide_false, Bool.false_eq_true]
      refine (ends_ok hrun).2 (refused _ rfl rfl ⟨rfl, fun hf => absurd hf fun hle => hv ?_⟩)
      have hle : m.next.toNat ≤ 2 ^ 52 := hle
      exact UInt64.lt_iff_toNat_lt.2 (Nat.lt_of_le_of_lt hle (by decide))

theorem alloc_ends {Q : Option Hpa → Memory → Prop}
    (refused : ∀ m', m'.pages = m.pages → m'.next = m.next → Q none m')
    (granted : ∀ m' p, m.Allocates m' p 0 → Q (some p) m') :
    (alloc : MemoryM ε (Option Hpa)).Ends m Q E F :=
  alloc_ends_draws (fun m' hpages hnext _ => refused m' hpages hnext) fun m' p hm _ => granted m' p hm

theorem allocRetained_ends_draws {Q : Option Hpa → Memory → Prop}
    (refused : ∀ m', m'.pages = m.pages → m'.next = m.next → m.Draws none m' → Q none m')
    (granted : ∀ m' p, m.Allocates m' p → m.Draws (some p) m' → Q (some p) m') :
    (allocRetained : MemoryM ε (Option Hpa)).Ends m Q E F := by
  rw [allocRetained, ends_bind]
  refine alloc_ends_draws refused fun m₁ p hm hdraws => ?_
  rw [ends_bind]
  refine retain_ends (fun _ => ?_) fun _ hfree => ?_
  · refine granted _ _ ⟨hm.address, ?_, hm.next⟩ hdraws
    apply Std.ExtTreeMap.ext_getElem?
    intro q
    simp only [retained, hm.pages, Std.ExtTreeMap.getElem?_insert, Std.ExtTreeMap.getElem?_modify,
      Std.LawfulEqCmp.compare_eq_iff_eq]
    split_ifs with hq
    · simp
    · rfl
  · exact absurd (hm.mem.2 (.inl rfl)) hfree

theorem allocRetained_ends {Q : Option Hpa → Memory → Prop}
    (refused : ∀ m', m'.pages = m.pages → m'.next = m.next → Q none m')
    (granted : ∀ m' p, m.Allocates m' p → Q (some p) m') :
    (allocRetained : MemoryM ε (Option Hpa)).Ends m Q E F :=
  allocRetained_ends_draws (fun m' hpages hnext _ => refused m' hpages hnext)
    fun m' p hm _ => granted m' p hm

end Outcomes

end Hypervisor.Memory
