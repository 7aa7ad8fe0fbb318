import Hypervisor.Proofs.Guest.Population
import Hypervisor.Proofs.Host

/-!
# Who owns which page

An estate lists the pages that have a role of their own: the roots of tables, the other pages of
guests, and the pages that cpus gave up.  Each role comes with one reference, and callers may hold
more.  A memory is sound when its account agrees with the estate and no leaf holds a page with a role
or a table.  It may be isolated besides, so that no page has two references.
-/

namespace Hypervisor

def Region.bufferNumber : PageNumber := 0xb8

/-- The references that callers hold, and the pages that they took without one. -/
structure Callers where
  held : Hpa → Nat := fun _ => 0
  taken : Set Hpa := ∅

namespace Callers

def hold (k : Callers) (p : Hpa) : Callers :=
  { k with held := fun q => k.held q + if q = p then 1 else 0 }

def drop (k : Callers) (p : Hpa) : Callers :=
  { k with held := fun q => k.held q - if q = p then 1 else 0 }

def take (k : Callers) (p : Hpa) : Callers := { k with taken := insert p k.taken }

end Callers

/-- The pages with a role, and what callers have. -/
structure Estate extends Callers where
  roots : Multiset Hpa
  others : Multiset Hpa

namespace Estate

/-- Every page with a role; the video buffer is reserved. -/
def roles (e : Estate) : Multiset Hpa := ⟨videoBuffer⟩ ::ₘ (e.roots + e.others)

def give (e : Estate) (p : Hpa) : Estate := { e with others := p ::ₘ e.others }

def plant (e : Estate) (r : Hpa) : Estate := { e with roots := r ::ₘ e.roots }

variable {e : Estate} {p q : Hpa}

theorem roles_give : (e.give p).roles = p ::ₘ e.roles := by
  rw [roles, roles, give, Multiset.add_cons, Multiset.cons_swap]

theorem roles_plant : (e.plant p).roles = p ::ₘ e.roles := by
  rw [roles, roles, plant, Multiset.cons_add, Multiset.cons_swap]

theorem mem_roles : p ∈ e.roles ↔ p = ⟨videoBuffer⟩ ∨ p ∈ e.roots ∨ p ∈ e.others := by
  rw [roles, Multiset.mem_cons, Multiset.mem_add]

theorem count_cons (s : Multiset Hpa) : (p ::ₘ s).count q = s.count q + if q = p then 1 else 0 :=
  Multiset.count_cons q p s

end Estate

namespace Memory

structure Isolated (m : Memory) (roots : Multiset Hpa) : Prop where
  single : ∀ p, p ≠ ⟨videoBuffer⟩ → m.refs p ≤ 1
  buffer : ∀ r ∈ roots, ∀ n p perm, m.translation r n = some (p, perm) →
    (p = ⟨videoBuffer⟩ ↔ n = Region.bufferNumber)

/-- The pages are live, referred to and mapped as the estate and the account say. -/
structure Sound (m : Memory) (e : Estate) (isolated : Prop) (a : Account) : Prop where
  balanced : m.Balanced a
  rooted : a.Rooted {r | r ∈ e.roots}
  level : ∀ {r}, r ∈ e.roots → a.level r = some 3
  other : ∀ {p}, p ∈ e.others → a.level p = none
  buffer : a.level ⟨videoBuffer⟩ = none
  nodup : e.roles.Nodup
  held : ∀ p, a.held p = e.held p + e.roles.count p
  separate : ∀ {r n p perm}, r ∈ e.roots → m.translation r n = some (p, perm) →
    a.level p = none ∧ p ∉ e.others
  idle : ∀ {p}, a.idle p → p ∈ e.taken
  isolated : isolated → m.Isolated e.roots

variable {m m' : Memory} {e e' : Estate} {I : Prop} {a a' : Account} {p q r root : Hpa}
  {n : PageNumber} {perm : Permission}

namespace Sound

theorem held_pos (h : m.Sound e I a) (hp : p ∈ e.roles) : 0 < a.held p := by
  have hcount := Multiset.count_pos.2 hp
  rw [h.held]
  omega

theorem role_live (h : m.Sound e I a) (hp : p ∈ e.roles) : p ∈ m.pages :=
  h.balanced.held_live (h.held_pos hp)

theorem other_live (h : m.Sound e I a) (hp : p ∈ e.others) : p ∈ m.pages :=
  h.role_live (Estate.mem_roles.2 (.inr (.inr hp)))

theorem buffer_live (h : m.Sound e I a) : ⟨videoBuffer⟩ ∈ m.pages :=
  h.role_live (Estate.mem_roles.2 (.inl rfl))

theorem buffer_notMem_others (h : m.Sound e I a) : ⟨videoBuffer⟩ ∉ e.others := by
  have hnodup := (Multiset.nodup_cons.1 h.nodup).1
  rw [Multiset.mem_add, not_or] at hnodup
  exact hnodup.2

theorem other_pageDown (h : m.Sound e I a) (hp : p ∈ e.others) : p.pageDown = p :=
  Address.pageDown_of_isPageAligned (h.balanced.page (h.other_live hp)).1

theorem target_live (h : m.Sound e I a) (hr : r ∈ e.roots)
    (hp : m.translation r n = some (p, perm)) : p ∈ m.pages :=
  h.balanced.translation_live (h.level hr) hp

theorem notMem_roles (h : m.Sound e I a) (hp : p ∉ m.pages) : p ∉ e.roles :=
  fun hmem => hp (h.role_live hmem)

/-- A step that changes no table: what it allocates may get a role, and references are accounted
for. -/
theorem of_words_eq (h : m.Sound e I a) {held : Hpa → Nat} {idle : Hpa → Prop}
    (hb : m'.Balanced { a with held := held, idle := idle })
    (hwords : ∀ t k, a.level t = some k → m'.words t = m.words t)
    (hroots : e'.roots = e.roots) (hothers : ∀ p ∈ e'.others, p ∈ e.others ∨ p ∉ m.pages)
    (hnodup : e'.roles.Nodup) (hheld : ∀ p, held p = e'.held p + e'.roles.count p)
    (hidle : ∀ p, idle p → p ∈ e'.taken)
    (hsingle : I → ∀ p, p ≠ ⟨videoBuffer⟩ → m'.refs p ≤ 1) :
    m'.Sound e' I { a with held := held, idle := idle } := by
  have htranslation : ∀ {r} n, r ∈ e'.roots → m'.translation r n = m.translation r n := by
    intro r n hr
    rw [hroots] at hr
    exact h.balanced.translation_eq hwords (h.level hr)
  refine ⟨hb, ?_, ?_, ?_, h.buffer, hnodup, hheld, ?_, fun hp => hidle _ hp, ?_⟩
  · rw [hroots]
    exact h.rooted
  · intro r hr
    rw [hroots] at hr
    exact h.level hr
  · intro p hp
    cases hothers p hp with
    | inl hold => exact h.other hold
    | inr hfree => exact h.balanced.level_of_notMem hfree
  · intro r n p perm hr hp
    rw [htranslation n hr] at hp
    rw [hroots] at hr
    obtain ⟨hlevel, hother⟩ := h.separate hr hp
    refine ⟨hlevel, fun hmem => ?_⟩
    cases hothers p hmem with
    | inl hold => exact hother hold
    | inr hfree => exact hfree (h.target_live hr hp)
  · intro hI
    refine ⟨hsingle hI, fun r hr n p perm hp => ?_⟩
    rw [htranslation n hr] at hp
    rw [hroots] at hr
    exact (h.isolated hI).buffer r hr n p perm hp

theorem of_pages_eq (h : m.Sound e I a) (hpages : m'.pages = m.pages) (hnext : m'.next = m.next) :
    m'.Sound e I a := by
  refine h.of_words_eq (h.balanced.of_pages_eq hpages hnext) (fun _ _ _ => ?_) rfl
    (fun _ hp => .inl hp) h.nodup h.held (fun _ hp => h.idle hp) fun hI p hp => ?_
  · rw [words, words, hpages]
  · rw [refs, hpages]
    exact (h.isolated hI).single p hp

theorem edited (h : m.Sound e I a) {f : PageWords → PageWords} (hp : a.level p.pageDown = none) :
    (m.edited p f).Sound e I a := by
  refine h.of_words_eq (h.balanced.edited hp) (fun _ _ => h.balanced.words_edited f hp) rfl
    (fun _ hp => .inl hp) h.nodup h.held (fun _ hp => h.idle hp) fun hI q hq => ?_
  rw [refs_edited]
  exact (h.isolated hI).single q hq

section Allocation

variable {count : Nat}

theorem words_allocates (h : m.Sound e I a) (hm : m.Allocates m' p count) {t : Hpa} {k : Nat}
    (ht : a.level t = some k) : m'.words t = m.words t := by
  have hne : t ≠ p := by
    rintro rfl
    exact h.balanced.next_notMem hm.address (h.balanced.table_live ht)
  rw [hm.words, Address.pageDown_of_isPageAligned (h.balanced.table_aligned ht), if_neg hne]

theorem single_allocates (h : m.Sound e I a) (hm : m.Allocates m' p count) (hcount : count ≤ 1)
    (hI : I) (hq : q ≠ ⟨videoBuffer⟩) : m'.refs q ≤ 1 := by
  have hfree := h.balanced.next_notMem hm.address
  rw [hm.refs hfree]
  by_cases he : q = p
  · rw [he, refs_eq_zero_of_notMem hfree, if_pos rfl, Nat.zero_add]
    exact hcount
  · rw [if_neg he]
    exact (h.isolated hI).single q hq

theorem give (h : m.Sound e I a) (hm : m.Allocates m' p) : m'.Sound (e.give p) I (a.hold p) := by
  have hfree := h.balanced.next_notMem hm.address
  refine h.of_words_eq (h.balanced.allocates hm) (fun _ _ => h.words_allocates hm) rfl ?_ ?_ ?_
    (fun _ hp => h.idle hp) fun hI q => h.single_allocates hm le_rfl hI
  · intro q hq
    cases Multiset.mem_cons.1 hq with
    | inl he => exact .inr (he ▸ hfree)
    | inr hold => exact .inl hold
  · rw [Estate.roles_give]
    exact Multiset.nodup_cons.2 ⟨h.notMem_roles hfree, h.nodup⟩
  · intro q
    rw [Estate.roles_give, Estate.count_cons, h.held, Nat.add_assoc]
    rfl

theorem hold_new (h : m.Sound e I a) (hm : m.Allocates m' p) :
    m'.Sound { e with toCallers := e.hold p } I (a.hold p) := by
  refine h.of_words_eq (h.balanced.allocates hm) (fun _ _ => h.words_allocates hm) rfl
    (fun _ hp => .inl hp) h.nodup ?_ (fun _ hp => h.idle hp)
    fun hI q => h.single_allocates hm le_rfl hI
  intro q
  rw [h.held, Nat.add_right_comm]
  rfl

theorem take (h : m.Sound e I a) (hm : m.Allocates m' p 0) :
    ∃ a', m'.Sound { e with toCallers := e.take p } I a' := by
  have hb := h.balanced.allocates_count hm (fun q => a.idle q ∨ q = p)
    (fun _ hq => .inl hq) fun _ => .inr rfl
  refine ⟨_, h.of_words_eq hb (fun _ _ => h.words_allocates hm) rfl (fun _ hp => .inl hp) h.nodup
    (fun q => ?_) (fun q hq => ?_) fun hI q => h.single_allocates hm (Nat.zero_le 1) hI⟩
  · rw [ite_self, Nat.add_zero]
    exact h.held q
  · cases hq with
    | inl hidle => exact Set.mem_insert_of_mem p (h.idle hidle)
    | inr he => exact he ▸ Set.mem_insert q e.taken

end Allocation

theorem retained (h : m.Sound e I a) (hI : ¬I) (hp : p ∈ m.pages) :
    (m.retained p).Sound { e with toCallers := e.hold p } I (a.hold p) := by
  refine h.of_words_eq (h.balanced.retained hp) (fun t _ _ => words_retained t) rfl
    (fun _ hp => .inl hp) h.nodup ?_ (fun _ hp => h.idle hp) fun hI' => absurd hI' hI
  intro q
  rw [h.held, Nat.add_right_comm]
  rfl

private theorem of_released (h : m.Sound e I a) (hb : (m.released p).Balanced (a.drop p))
    (hroots : e'.roots = e.roots) (hothers : ∀ q ∈ e'.others, q ∈ e.others)
    (hnodup : e'.roles.Nodup) (hheld : ∀ q, (a.drop p).held q = e'.held q + e'.roles.count q)
    (htaken : e'.taken = e.taken) : (m.released p).Sound e' I (a.drop p) := by
  refine h.of_words_eq hb (fun t k ht => ?_) hroots (fun q hq => .inl (hothers q hq)) hnodup hheld
    (fun q hq => ?_) fun hI q hq => ?_
  · have ht' : (a.drop p).level t = some k := ht
    exact words_released (hb.table_pageDown_live ht')
  · rw [htaken]
    exact h.idle hq
  · have hle := (h.isolated hI).single q hq
    rw [refs_released]
    omega

theorem released (h : m.Sound e I a) (hp : 0 < e.held p) :
    (m.released p).Sound { e with toCallers := e.drop p } I (a.drop p) := by
  have hheld := h.held p
  have hb := h.balanced.released (p := p) (by omega) fun k hk hparent => by
    have hroot : p ∈ e.roles := Estate.mem_roles.2 (.inr (.inl (h.rooted p k hk hparent).2))
    have hcount := Multiset.count_pos.2 hroot
    omega
  refine h.of_released hb rfl (fun _ hq => hq) h.nodup ?_ rfl
  intro q
  simp only [Account.drop, Callers.drop, h.held]
  split_ifs with hq
  · subst q
    exact Nat.sub_add_comm hp
  · rfl

theorem giveBack (h : m.Sound (e.give p) I a) : (m.released p).Sound e I (a.drop p) := by
  have hmem : p ∈ (e.give p).others := Multiset.mem_cons_self p e.others
  have hpos := h.held_pos (Estate.mem_roles.2 (.inr (.inr hmem)))
  have hb := h.balanced.released hpos fun k hk _ => by
    cases (h.other hmem).symm.trans hk
  have hnodup := h.nodup
  rw [Estate.roles_give] at hnodup
  refine h.of_released hb rfl (fun q hq => Multiset.mem_cons_of_mem hq)
    (Multiset.nodup_cons.1 hnodup).2 ?_ rfl
  intro q
  simp only [Account.drop, h.held, Estate.roles_give, Estate.count_cons, ← Nat.add_assoc,
    Nat.add_sub_cancel]
  rfl

section Roots

/-- A page of zeros that has a role becomes the root of a table. -/
theorem plant (h : m.Sound (e.give p) I a) (hzero : m.words p = .zero) :
    m.Sound (e.plant p) I (a.plant p 3 none) := by
  have hmem : p ∈ (e.give p).others := Multiset.mem_cons_self p e.others
  have hpos := h.held_pos (Estate.mem_roles.2 (.inr (.inr hmem)))
  have hroles : (e.plant p).roles = (e.give p).roles := by
    rw [Estate.roles_plant, Estate.roles_give]
  have hnodup := h.nodup
  rw [Estate.roles_give, Multiset.nodup_cons, Estate.mem_roles] at hnodup
  have hb := h.balanced.plant (k := 3) (by decide) hpos (h.other hmem) hzero
  have hempty : ∀ n, m.translation p n = none := fun n => by
    apply Shape.translationFrom_of_empty
    exact fun i => entry_of_words_eq_zero hzero
  have hne : ∀ {q}, q ∈ (e.give p).roots ∨ q = ⟨videoBuffer⟩ ∨ q ∈ e.others → q ≠ p := by
    intro q hq he
    subst q
    exact hnodup.1 (by tauto)
  have hlevel : ∀ {q}, q ≠ p → (a.plant p 3 none).level q = a.level q := fun hq => if_neg hq
  refine ⟨hb, ?_, ?_, ?_, ?_, ?_, ?_, ?_, h.idle, ?_⟩
  · intro q k hq hparent
    by_cases he : q = p
    · subst q
      simp only [Account.plant, if_true, Option.some.injEq] at hq
      exact ⟨hq.symm, Multiset.mem_cons_self p e.roots⟩
    · simp only [Account.plant, he, if_false] at hq hparent
      obtain ⟨hk, hroot⟩ := h.rooted q k hq hparent
      exact ⟨hk, Multiset.mem_cons_of_mem hroot⟩
  · intro r hr
    cases Multiset.mem_cons.1 hr with
    | inl he => exact if_pos he
    | inr hold =>
        rw [hlevel (hne (.inl hold))]
        exact h.level hold
  · intro q hq
    rw [hlevel (hne (.inr (.inr hq)))]
    exact h.other (Multiset.mem_cons_of_mem hq)
  · rw [hlevel (hne (.inr (.inl rfl)))]
    exact h.buffer
  · rw [hroles]
    exact h.nodup
  · intro q
    rw [hroles]
    exact h.held q
  · intro r n q perm hr hq
    cases Multiset.mem_cons.1 hr with
    | inl he =>
        subst r
        cases (hempty n).symm.trans hq
    | inr hold =>
        obtain ⟨hnone, hother⟩ := h.separate hold hq
        have hqp : q ≠ p := fun he => hother (he ▸ hmem)
        refine ⟨?_, fun hmem' => hother (Multiset.mem_cons_of_mem hmem')⟩
        rw [hlevel hqp]
        exact hnone
  · intro hI
    refine ⟨(h.isolated hI).single, fun r hr n q perm hq => ?_⟩
    cases Multiset.mem_cons.1 hr with
    | inl he =>
        subst r
        cases (hempty n).symm.trans hq
    | inr hold => exact (h.isolated hI).buffer r hold n q perm hq

/-- A root without entries is a page in another role. -/
theorem fell (h : m.Sound (e.plant r) I a) (hempty : ∀ i, m.entry ⟨r, i⟩ = .empty) :
    m.Sound (e.give r) I (a.fell r) := by
  have hmem : r ∈ (e.plant r).roots := Multiset.mem_cons_self r e.roots
  have hroles : (e.give r).roles = (e.plant r).roles := by
    rw [Estate.roles_plant, Estate.roles_give]
  have hnodup := h.nodup
  rw [Estate.roles_plant, Multiset.nodup_cons, Estate.mem_roles] at hnodup
  have hparent := h.balanced.shape.parent_of_level_eq_top (h.level hmem)
  have hlevel : ∀ {q k}, (a.fell r).level q = some k → q ≠ r ∧ a.level q = some k := by
    intro q k hq
    by_cases he : q = r
    · simp [Account.fell, he] at hq
    · simp only [Account.fell, he, if_false] at hq
      exact ⟨he, hq⟩
  have hnone : ∀ {q}, a.level q = none → (a.fell r).level q = none := by
    intro q hq
    simp only [Account.fell, hq, ite_self]
  refine ⟨h.balanced.fell hparent hempty, ?_, ?_, ?_, hnone h.buffer, ?_, ?_, ?_, h.idle, ?_⟩
  · intro q k hq hroot
    obtain ⟨hne, hq⟩ := hlevel hq
    obtain ⟨hk, hroot⟩ := h.rooted q k hq hroot
    exact ⟨hk, (Multiset.mem_cons.1 hroot).resolve_left hne⟩
  · intro q hq
    have hne : q ≠ r := by
      rintro rfl
      exact hnodup.1 (.inr (.inl hq))
    simp only [Account.fell, hne, if_false]
    exact h.level (Multiset.mem_cons_of_mem hq)
  · intro q hq
    cases Multiset.mem_cons.1 hq with
    | inl he => exact if_pos he
    | inr hold => exact hnone (h.other hold)
  · rw [hroles]
    exact h.nodup
  · intro q
    rw [hroles]
    exact h.held q
  · intro q n p perm hq hp
    obtain ⟨hlevel, hother⟩ := h.separate (Multiset.mem_cons_of_mem hq) hp
    refine ⟨hnone hlevel, fun hp' => ?_⟩
    cases Multiset.mem_cons.1 hp' with
    | inl he =>
        subst p
        cases hlevel.symm.trans (h.level hmem)
    | inr hold => exact hother hold
  · intro hI
    exact ⟨(h.isolated hI).single,
      fun q hq => (h.isolated hI).buffer q (Multiset.mem_cons_of_mem hq)⟩

end Roots

section Tables

private theorem of_grows (h : m.Sound e I a) (hg : m.Grows a m' a')
    (hseparate : ∀ {r n p perm}, r ∈ e.roots → m'.translation r n = some (p, perm) →
      m.translation r n = some (p, perm) ∨ a'.level p = none ∧ p ∉ e.others)
    (hisolated : I → m'.Isolated e.roots) : m'.Sound e I a' where
  balanced := hg.balanced
  rooted := hg.rooted h.rooted
  level := fun hr => hg.level_eq h.balanced (h.level hr)
  other := fun hp => by
    rw [hg.level (h.other_live hp)]
    exact h.other hp
  buffer := by
    rw [hg.level h.buffer_live]
    exact h.buffer
  nodup := h.nodup
  held := fun p => by
    rw [hg.held]
    exact h.held p
  separate := fun {r n p perm} hr hp => by
    cases hseparate hr hp with
    | inl hold =>
        rw [hg.level (h.target_live hr hold)]
        exact h.separate hr hold
    | inr hnew => exact hnew
  idle := fun hp => by
    rw [hg.idle] at hp
    exact h.idle hp
  isolated := hisolated

theorem of_extends (h : m.Sound e I a) (hx : m.Extends a m' a') : m'.Sound e I a' := by
  have htranslation : ∀ {r} n, r ∈ e.roots → m'.translation r n = m.translation r n :=
    fun n hr => hx.translation n (h.level hr)
  refine h.of_grows hx.toGrows ?_ ?_
  · intro r n p perm hr hp
    exact .inl (htranslation n hr ▸ hp)
  · intro hI
    refine ⟨fun p hp => ?_, fun r hr n p perm hp => ?_⟩
    · by_cases hlive : p ∈ m.pages
      · rw [hx.refs hlive]
        exact (h.isolated hI).single p hp
      · exact hx.fresh hlive
    · exact (h.isolated hI).buffer r hr n p perm (htranslation n hr ▸ hp)

/-- New pages are mapped, of which no table and nobody else knows. -/
theorem of_populates (h : m.Sound e I a) {S : Set PageNumber}
    (hS : I → Region.bufferNumber ∉ S) (hx : m.Populates a root S m' a') : m'.Sound e I a' := by
  have htranslation : ∀ {r n p perm}, r ∈ e.roots → m'.translation r n = some (p, perm) →
      m.translation r n = some (p, perm) ∨ r = root ∧ n ∈ S ∧ p ∉ m.pages := by
    intro r n p perm hr hp
    by_cases he : r = root
    · subst r
      by_cases hn : n ∈ S
      · obtain ⟨-, q, hq, hmap⟩ := hx.inside hn
        cases hmap.symm.trans hp
        exact .inr ⟨rfl, hn, hq⟩
      · exact .inl (hx.outside hn ▸ hp)
    · exact .inl (hx.others n (h.level hr) he ▸ hp)
  refine h.of_grows hx.toGrows ?_ ?_
  · intro r n p perm hr hp
    cases htranslation hr hp with
    | inl hold => exact .inl hold
    | inr hnew =>
        have hlevel := hx.level_eq h.balanced (h.level hr)
        refine .inr ⟨hx.balanced.level_of_single (hx.fresh hnew.2.2) hlevel hp, fun hmem => ?_⟩
        exact hnew.2.2 (h.other_live hmem)
  · intro hI
    refine ⟨fun p hp => ?_, fun r hr n p perm hp => ?_⟩
    · by_cases hlive : p ∈ m.pages
      · rw [hx.refs hlive]
        exact (h.isolated hI).single p hp
      · exact hx.fresh hlive
    · cases htranslation hr hp with
      | inl hold => exact (h.isolated hI).buffer r hr n p perm hold
      | inr hnew =>
          constructor
          · intro he
            exact absurd h.buffer_live (he ▸ hnew.2.2)
          · intro he
            exact absurd hnew.2.1 (he ▸ hS hI)

/-- A page is mapped that is neither a table nor in another role. In isolation it is the video
buffer in its own place. -/
theorem of_maps (h : m.Sound e I a) (hp : p ∈ m.pages)
    (hlevel : a.level p = none) (hother : p ∉ e.others)
    (hI : I → p = ⟨videoBuffer⟩ ∧ n = Region.bufferNumber)
    (hx : m.Maps a root n p perm m' a') : m'.Sound e I a' := by
  have htranslation : ∀ {r n' q perm'}, r ∈ e.roots → m'.translation r n' = some (q, perm') →
      m.translation r n' = some (q, perm') ∨ n' = n ∧ q = p := by
    intro r n' q perm' hr hq
    rw [hx.translation n' (h.level hr)] at hq
    split_ifs at hq with hsame
    · cases hq
      exact .inr ⟨hsame.2, rfl⟩
    · exact .inl hq
  refine h.of_grows hx.toGrows ?_ ?_
  · intro r n' q perm' hr hq
    cases htranslation hr hq with
    | inl hold => exact .inl hold
    | inr hnew =>
        rw [hnew.2, hx.level hp]
        exact .inr ⟨hlevel, hother⟩
  · intro hi
    refine ⟨fun q hq => ?_, fun r hr n' q perm' hq => ?_⟩
    · by_cases hlive : q ∈ m.pages
      · have hrefs := hx.refs hlive
        have hle := (h.isolated hi).single q hq
        rw [if_neg (fun he : q = p => hq (he.trans (hI hi).1))] at hrefs
        omega
      · exact hx.fresh hlive
    · cases htranslation hr hq with
      | inl hold => exact (h.isolated hi).buffer r hr n' q perm' hold
      | inr hnew =>
          rw [hnew.1, hnew.2]
          exact ⟨fun _ => (hI hi).2, fun _ => (hI hi).1⟩

theorem of_tornDown (h : m.Sound e I a) (hd : Host.TornDown m a {r | r ∈ e.roots} root m') :
    ∃ a', m'.Sound e I a' ∧ ∀ i, m'.entry ⟨root, i⟩ = .empty := by
  obtain ⟨a', hx, hrooted, hheld, hempty⟩ := hd
  have hnone : ∀ {p}, a.level p = none → a'.level p = none := by
    intro p hp
    cases hk : a'.level p with
    | none => rfl
    | some k => cases hp.symm.trans (hx.level hk)
  have htranslation : ∀ {r n p perm}, r ∈ e.roots → m'.translation r n = some (p, perm) →
      m.translation r n = some (p, perm) := by
    intro r n p perm hr hp
    by_cases he : r = root
    · subst r
      have hnothing : m'.translation root n = none := Shape.translationFrom_of_empty hempty
      cases hnothing.symm.trans hp
    · exact hx.translation n (h.level hr) he ▸ hp
  refine ⟨a', ⟨hx.balanced, hrooted, fun hr => hx.whole (h.level hr), fun hp => hnone (h.other hp),
    hnone h.buffer, h.nodup, fun p => ?_, fun hr hp => ?_, fun hp => ?_, fun hI => ⟨?_, ?_⟩⟩, hempty⟩
  · rw [hheld]
    exact h.held p
  · obtain ⟨hlevel, hother⟩ := h.separate hr (htranslation hr hp)
    exact ⟨hnone hlevel, hother⟩
  · rw [hx.idle] at hp
    exact h.idle hp
  · intro p hp
    exact (hx.refs p).trans ((h.isolated hI).single p hp)
  · intro r hr n p perm hp
    exact (h.isolated hI).buffer r hr n p perm (htranslation hr hp)

end Tables

end Sound

end Memory

end Hypervisor
