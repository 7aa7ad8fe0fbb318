import Hypervisor.Proofs.Ept.Translation

/-!
# Looking up a leaf

A lookup that creates tables adds empty tables and links them.  It changes no reference of a page
that was there before and nothing that is mapped, whether it gets all the tables it needs or not.
-/

namespace Hypervisor

theorem Entry.Formed.eq_empty {e : Entry} {k : Nat} (h : e.Formed k) (hnone : e.target = none) :
    e = .empty := by
  cases h with
  | empty => rfl
  | link k q ha hf =>
      rw [target_referring ha hf (by decide)] at hnone
      cases hnone
  | leaf p perm ha hf hperm =>
      rw [target_referring ha hf (Permission.leafFlags_intersects hperm)] at hnone
      cases hnone

/-- Every table that nothing links is one of the roots, which are on the highest level. -/
def Account.Rooted (a : Account) (roots : Set Hpa) : Prop :=
  ∀ q k, a.level q = some k → a.parent q = none → k = 3 ∧ q ∈ roots

namespace Memory

/-- What tables grow without: nothing that was held, linked or stored outside the tables changes, and
a new page has at most one reference. -/
structure Grows (m : Memory) (a : Account) (m' : Memory) (a' : Account) : Prop where
  balanced : m'.Balanced a'
  held : a'.held = a.held
  idle : a'.idle = a.idle
  level : ∀ {p}, p ∈ m.pages → a'.level p = a.level p
  parent : ∀ {p}, p ∈ m.pages → a'.parent p = a.parent p
  rooted : ∀ {roots}, a.Rooted roots → a'.Rooted roots
  fresh : ∀ {p}, p ∉ m.pages → m'.refs p ≤ 1
  words : ∀ {p}, p ∈ m.pages → p ∈ m'.pages → a.level p = none → m'.words p = m.words p

/-- Besides, no page that was there has gained or lost a reference. -/
structure Keeps (m : Memory) (a : Account) (m' : Memory) (a' : Account) : Prop
    extends Grows m a m' a' where
  live : ∀ {p}, p ∈ m.pages → p ∈ m'.pages
  refs : ∀ {p}, p ∈ m.pages → m'.refs p = m.refs p

/-- Besides, everything is mapped as before. -/
structure Extends (m : Memory) (a : Account) (m' : Memory) (a' : Account) : Prop
    extends Keeps m a m' a' where
  translation : ∀ {t k} n, a.level t = some k →
    m'.translationFrom n k t = m.translationFrom n k t

structure AddsTable (m : Memory) (a : Account) (p : Hpa) (k : Nat) (s : Slot) (m' : Memory)
    (a' : Account) : Prop extends Extends m a m' a' where
  levels : ∀ q, a'.level q = if q = p then some k else a.level q
  linked : (m'.entry s).target = some p
  empty : ∀ i, m'.entry ⟨p, i⟩ = .empty

structure Finds (m : Memory) (a : Account) (n : PageNumber) (k : Nat) (t : Hpa) (s : Slot)
    (m' : Memory) (a' : Account) : Prop extends Extends m a m' a' where
  leaf : m'.leafFrom n k t = some s
  tables : ∀ {q j}, a'.level q = some j → a.level q = some j ∨ m'.tableFrom n j k t = some q

structure Takes (m : Memory) (p : Hpa) (m' : Memory) : Prop where
  mem : ∀ {q}, q ∈ m'.pages ↔ q = p ∨ q ∈ m.pages
  next : m'.next.toNat = m.next.toNat + 4096

variable {m m₁ m₂ m' : Memory} {a a₁ a₂ a' : Account} {s : Slot} {p q t : Hpa} {k : Nat}
  {n : PageNumber}

namespace Grows

theorem level_eq (h : m.Grows a m' a') (hb : m.Balanced a) (ht : a.level t = some k) :
    a'.level t = some k := by
  rw [h.level (hb.table_live ht), ht]

theorem link (h : m.Grows a m' a') (hb : m.Balanced a) (hs : a.level s.table = some (k + 1))
    (hq : (m.entry s).target = some q) : (m'.entry s).target = some q := by
  have hplace := (hb.shape.linked hs).1 hq
  rw [← h.parent (hb.target_live hs hq)] at hplace
  exact (h.balanced.shape.linked (h.level_eq hb hs)).2 hplace

theorem leafFrom (h : m.Grows a m' a') (hb : m.Balanced a) (ht : a.level t = some k)
    (hs : m.leafFrom n k t = some s) : m'.leafFrom n k t = some s := by
  induction k generalizing t with
  | zero => exact hs
  | succ k ih =>
      obtain ⟨q, hq, hs⟩ := Option.bind_eq_some_iff.1 hs
      rw [Memory.leafFrom, h.link hb ht hq, Option.bind_some]
      exact ih (hb.shape.level_of_target (s := ⟨t, n.digit (k + 1)⟩) ht hq) hs

theorem tableFrom (h : m.Grows a m' a') (hb : m.Balanced a) {j : Nat} (ht : a.level t = some k)
    (hq : m.tableFrom n j k t = some q) : m'.tableFrom n j k t = some q := by
  induction k generalizing t with
  | zero => exact hq
  | succ k ih =>
      by_cases hj : j = k + 1
      · subst hj
        rw [tableFrom_self] at hq ⊢
        exact hq
      · rw [tableFrom_succ hj] at hq
        obtain ⟨p, hp, hq⟩ := Option.bind_eq_some_iff.1 hq
        refine tableFrom_below (h.link hb (s := ⟨t, n.digit (k + 1)⟩) ht hp) ?_
        exact ih (hb.shape.level_of_target (s := ⟨t, n.digit (k + 1)⟩) ht hp) hq

end Grows

namespace Keeps

theorem trans (h : m.Keeps a m₁ a₁) (h' : m₁.Keeps a₁ m₂ a₂) : m.Keeps a m₂ a₂ where
  balanced := h'.balanced
  held := h'.held.trans h.held
  idle := h'.idle.trans h.idle
  level := fun hp => (h'.level (h.live hp)).trans (h.level hp)
  parent := fun hp => (h'.parent (h.live hp)).trans (h.parent hp)
  rooted := fun hr => h'.rooted (h.rooted hr)
  fresh := fun {p} hp => by
    by_cases hp₁ : p ∈ m₁.pages
    · rw [h'.refs hp₁]
      exact h.fresh hp
    · exact h'.fresh hp₁
  words := fun {p} hp hp₂ hlevel => by
    have hp₁ := h.live hp
    have hlevel₁ : a₁.level p = none := by rw [h.level hp, hlevel]
    rw [h'.words hp₁ hp₂ hlevel₁, h.words hp hp₁ hlevel]
  live := fun hp => h'.live (h.live hp)
  refs := fun hp => (h'.refs (h.live hp)).trans (h.refs hp)

theorem of_pages_eq (h : m.Balanced a) (hpages : m'.pages = m.pages) (hnext : m'.next = m.next) :
    m.Keeps a m' a where
  balanced := h.of_pages_eq hpages hnext
  held := rfl
  idle := rfl
  level := fun _ => rfl
  parent := fun _ => rfl
  rooted := fun hr => hr
  fresh := fun hp => by
    rw [refs_eq_zero_of_notMem (by rw [hpages]; exact hp)]
    exact Nat.zero_le 1
  words := fun _ _ _ => by rw [Memory.words, Memory.words, hpages]
  live := fun hp => by
    rw [hpages]
    exact hp
  refs := fun _ => by rw [Memory.refs, Memory.refs, hpages]

end Keeps

theorem Balanced.translation_eq (h : m.Balanced a)
    (hwords : ∀ t k, a.level t = some k → m'.words t = m.words t) (ht : a.level t = some k) :
    m'.translationFrom n k t = m.translationFrom n k t :=
  h.shape.translationFrom_congr (fun _ => False) (fun _ => False.elim)
    (fun s j hs _ => entry_congr (hwords s.table j hs)) ht id

namespace Extends

theorem of_pages_eq (h : m.Balanced a) (hpages : m'.pages = m.pages) (hnext : m'.next = m.next) :
    m.Extends a m' a where
  toKeeps := .of_pages_eq h hpages hnext
  translation := fun _ ht =>
    h.translation_eq (fun _ _ _ => by rw [Memory.words, Memory.words, hpages]) ht

theorem refl (h : m.Balanced a) : m.Extends a m a := of_pages_eq h rfl rfl

theorem trans (hb : m.Balanced a) (h : m.Extends a m₁ a₁) (h' : m₁.Extends a₁ m₂ a₂) :
    m.Extends a m₂ a₂ where
  toKeeps := h.toKeeps.trans h'.toKeeps
  translation := fun n ht =>
    (h'.translation n (h.level_eq hb ht)).trans (h.translation n ht)

end Extends

/-- A new page is linked as an empty table. -/
theorem AddsTable.of_stored (h : m.Balanced a) (hm : m.Allocates m' p) (hf : m'.Fits)
    (hs : a.level s.table = some (k + 1)) (hempty : m.entry s = .empty) :
    m.AddsTable a p k s (m'.stored s (.referring p .full))
      (((a.hold p).plant p k none).link p s) := by
  have hfree : p ∉ m.pages := h.next_notMem hm.address
  have hnone : a.level p = none := h.level_of_notMem hfree
  have hparent : a.parent p = none := h.shape.parent_of_level_eq_none hnone
  have hne : ∀ {q}, q ∈ m.pages → q ≠ p := fun hq he => hfree (he ▸ hq)
  have hsp : s.table ≠ p := hne (h.table_live hs)
  have hk := h.shape.bound hs
  have h₁ : m'.Balanced (a.hold p) := h.allocates hm
  have hpaligned : p.isPageAligned = true := (h₁.page (hm.mem.2 (.inl rfl))).1
  have hzero : m'.words p = .zero := by
    rw [hm.words, Address.pageDown_of_isPageAligned hpaligned, if_pos rfl]
  have hpfits : p.val.toNat < 2 ^ 52 := h₁.page_lt hf (hm.mem.2 (.inl rfl))
  have hentry₁ : ∀ {s' j}, a.level s'.table = some j → m'.entry s' = m.entry s' := by
    intro s' j hs'
    refine entry_congr ?_
    rw [hm.words, Address.pageDown_of_isPageAligned (h.table_aligned hs'),
      if_neg (hne (h.table_live hs'))]
  -- The page becomes a table before it is linked: linking asks for a table that nothing links yet.
  have h₂ : m'.Balanced ((a.hold p).plant p k none) := by
    refine h₁.plant (by omega) ?_ hnone hzero
    show 0 < a.held p + if p = p then 1 else 0
    rw [if_pos rfl]
    omega
  have hs₂ : ((a.hold p).plant p k none).level s.table = some (k + 1) := by
    simpa [Account.plant, hsp, Account.hold] using hs
  have hp₂ : ((a.hold p).plant p k none).level p = some k := by simp [Account.plant]
  have hp₂' : ((a.hold p).plant p k none).parent p = none := by simp [Account.plant]
  have h₃ := h₂.stored_link hs₂ (by rw [hentry₁ hs, hempty]) hp₂ hp₂' hpfits
  have hentry : ∀ s' j, ((a.hold p).plant p k none).level s'.table = some j →
      (m'.stored s (.referring p .full)).entry s' =
        if s' = s then .referring p .full else m'.entry s' := fun _ _ hs' => h₂.entry_stored hs₂ hs'
  have hnew : ∀ i, (m'.stored s (.referring p .full)).entry ⟨p, i⟩ = .empty := by
    intro i
    have hps : (⟨p, i⟩ : Slot) ≠ s := fun he => hsp (congrArg Slot.table he).symm
    rw [hentry ⟨p, i⟩ _ hp₂, if_neg hps]
    exact entry_of_words_eq_zero hzero
  have hlink : ((m'.stored s (.referring p .full)).entry s).target = some p := by
    rw [hentry s _ hs₂, if_pos rfl]
    exact Entry.target_referring hpaligned hpfits (by decide)
  refine ⟨⟨⟨⟨h₃, ?_, rfl, ?_, ?_, ?_, ?_, ?_⟩, ?_, ?_⟩, ?_⟩, fun _ => rfl, hlink, hnew⟩
  · funext q
    simp only [Account.link, Account.drop, Account.plant, Account.hold]
    omega
  · intro q hq
    simp [Account.link, Account.drop, Account.plant, Account.hold, hne hq]
  · intro q hq
    simp [Account.link, Account.drop, Account.plant, Account.hold, hne hq]
  · intro roots hr q j hq hroot
    by_cases hqp : q = p
    · simp [Account.link, hqp] at hroot
    · simp only [Account.link, Account.drop, Account.plant, Account.hold, hqp, if_false] at hq hroot
      exact hr q j hq hroot
  · intro q hq
    rw [refs_stored, hm.refs hfree, refs_eq_zero_of_notMem hq]
    split_ifs <;> omega
  · intro q hq _ hlevel
    have hqa := Address.pageDown_of_isPageAligned (h.page hq).1
    have hqs : q ≠ s.table := by
      rintro rfl
      cases hlevel.symm.trans hs
    rw [words_stored_of_ne (hm.mem.2 (.inr (h.table_live hs))) (h.table_aligned hs)
      (by rw [hqa]; exact hqs), hm.words, hqa, if_neg (hne hq)]
  · intro q hq
    rw [mem_stored]
    exact hm.mem.2 (.inr hq)
  · intro q hq
    rw [refs_stored, hm.refs hfree, if_neg (hne hq), Nat.add_zero]
  · intro t j n ht
    have hother : ∀ {t j}, a.level t = some j →
        ((a.hold p).plant p k none).level t = some j := by
      intro t j ht
      simpa [Account.plant, Account.hold, hne (h.table_live ht)] using ht
    refine h.shape.translationFrom_link (p := p) hs hempty hlink hnew ?_ ht
    intro s' i hs' hss
    rw [hentry s' _ (hother hs'), if_neg hss, hentry₁ hs']

end Memory

namespace Ept

open Hypervisor.Action Memory

variable {F : Panic → Prop} {m : Memory} {a : Account} {g : Gpa} {create : Bool} {t : Hpa} {k : Nat}

theorem addTable_bind {α : Type} {P : Prop} {Q : α → Memory → Prop} {E : EptError → Memory → Prop}
    {s : Slot} {f : Hpa → MemoryM EptError α} (hs : P → m.Balanced a ∧ a.level s.table = some (k + 1))
    (htarget : (m.entry s).target = none)
    (hrefused : ∀ m', m'.pages = m.pages → m'.next = m.next → m.Draws none m' → m'.Fits → P →
      m.Extends a m' a → E .outOfMemory m')
    (hgranted : ∀ m' p a', (m'.Fits → P → m.AddsTable a p k s m' a') → m.Draws (some p) m' →
      m.Takes p m' → (f p).Safe F m' P Q E) :
    (do
      let page ← orFail (← allocRetained) EptError.outOfMemory
      s.write ((← ofExcept ((m.entry s).withTarget page)).withFlags EntryFlags.full)
      f page).Safe F m P Q E := by
  refine allocRetained_bind_draws (fun m₁ hpages hnext hdraws => ?_) fun m₁ p hm hdraws => ?_
  · exact Safe.fail fun hf h =>
      hrefused m₁ hpages hnext hdraws hf h (.of_pages_eq (hs h).1 hpages hnext)
  · refine Safe.orFail_bind (fun q hq => ?_) fun h => absurd h (Option.some_ne_none _)
    cases hq
    refine Slot.refer_bind (fun hf h => ?_) fun e he => ?_
    · have h₁ : m₁.Balanced (a.hold p) := (hs h).1.allocates hm
      have hp : p ∈ m₁.pages := hm.mem.2 (.inl rfl)
      exact ⟨(h₁.page hp).1, h₁.page_lt hf hp⟩
    · refine hgranted _ p (((a.hold p).plant p k none).link p s) (fun hf h => ?_) hdraws
        ⟨mem_stored.trans hm.mem, hm.next⟩
      obtain ⟨hb, hlevel⟩ := hs h
      rw [he hf h]
      exact .of_stored hb hm hf hlevel ((hb.shape.formed hlevel).eq_empty htarget)

/-- Below a table, a lookup ends at the leaf of the address, and nothing mapped has changed.  If tables
may be added, it only fails for want of a page. -/
theorem lookupFrom_finds (hk : k < levels) :
    (lookupFrom g create k t).Safe F m (m.Balanced a ∧ a.level t = some k)
      (fun s m' => ∃ a', m.Finds a g.number k t s m' a')
      (fun e m' => (create = true → e = .outOfMemory) ∧ ∃ a', m.Extends a m' a') := by
  induction k generalizing m a t with
  | zero =>
      rw [lookupFrom, index_eq_digit g hk]
      refine pageWords_bind (fun h => h.1.table_pageDown_live h.2) ?_
      exact Safe.pure fun _ h => ⟨a, .refl h.1, rfl, fun hq => .inl hq⟩
  | succ k ih =>
      have hk' : k < levels := Nat.lt_of_succ_lt hk
      rw [lookupFrom, index_eq_digit g hk]
      refine Slot.read_bind (fun h => h.1.table_pageDown_live h.2) ?_
      cases htarget : (m.entry ⟨t, g.number.digit (k + 1)⟩).target with
      | some q =>
          refine (ih hk' (a := a)).mono ?_ ?_ fun _ _ _ _ _ h => h
          · rintro - ⟨hb, ht⟩
            exact ⟨hb, hb.shape.level_of_target (s := ⟨t, g.number.digit (k + 1)⟩) ht htarget⟩
          · rintro s m' - - ⟨hb, ht⟩ ⟨a', hfinds⟩
            have hplace := hfinds.link hb (s := ⟨t, g.number.digit (k + 1)⟩) ht htarget
            refine ⟨a', hfinds.toExtends, ?_, fun hq => ?_⟩
            · rw [Memory.leafFrom, hplace]
              exact hfinds.leaf
            · exact (hfinds.tables hq).imp id (tableFrom_below hplace)
      | none =>
          refine Safe.require_bind (fun _ => ?_) fun hno _ h =>
            ⟨fun hyes => absurd (hno.symm.trans hyes) Bool.false_ne_true, a, .refl h.1⟩
          refine addTable_bind id htarget (fun m₁ _ _ _ _ _ hext => ⟨fun _ => rfl, a, hext⟩)
            fun m₁ p a₁ hadds _ _ => ?_
          refine (ih hk' (a := a₁)).mono ?_ ?_ ?_
          · intro hf h
            exact ⟨(hadds hf h).balanced, by rw [(hadds hf h).levels, if_pos rfl]⟩
          · rintro s m' hf - h ⟨a', hfinds⟩
            have hnew := hadds hf h
            have hplace : (m'.entry ⟨t, g.number.digit (k + 1)⟩).target = some p :=
              hfinds.link hnew.balanced (hnew.level_eq h.1 h.2) hnew.linked
            refine ⟨a', hnew.toExtends.trans h.1 hfinds.toExtends, ?_, fun {q j} hq => ?_⟩
            · rw [Memory.leafFrom, hplace, Option.bind_some]
              exact hfinds.leaf
            · rcases hfinds.tables hq with hold | hpath
              · rw [hnew.levels] at hold
                split_ifs at hold with he
                · cases hold
                  rw [he]
                  exact .inr (tableFrom_below hplace tableFrom_self)
                · exact .inl hold
              · exact .inr (tableFrom_below hplace hpath)
          · rintro err m' hf - h ⟨hshort, a', hext⟩
            exact ⟨hshort, a', (hadds hf h).toExtends.trans h.1 hext⟩

/-- A lookup finds the leaf of the address; whatever happens, nothing mapped has changed. -/
theorem lookup_finds {tab : Ept} {root : Hpa} (hroot : tab.root = some root) :
    (tab.lookup g create).Safe F m (m.Balanced a ∧ a.level root = some 3)
      (fun s m' => ∃ a', m.Finds a g.number 3 root s m' a')
      (fun e m' => (create = true → e = .outOfMemory) ∧ ∃ a', m.Extends a m' a') := by
  rw [lookup, hroot]
  refine Safe.orFail_bind (fun r hr => ?_) fun h => absurd h (Option.some_ne_none _)
  cases hr
  exact lookupFrom_finds (by decide)

theorem lookup_safe {tab : Ept} {root : Hpa} (hroot : tab.root = some root) :
    (tab.lookup g create).Safe F m (m.Balanced a ∧ a.level root = some 3)
      (fun s m' => ∃ a', m.Extends a m' a' ∧ m'.leafFrom g.number 3 root = some s)
      (fun _ m' => ∃ a', m.Extends a m' a') := by
  refine (lookup_finds hroot).mono (fun _ h => h) ?_ fun _ _ _ _ _ h => h.2
  rintro s m' - - - ⟨a', hfinds⟩
  exact ⟨a', hfinds.toExtends, hfinds.leaf⟩

end Ept

end Hypervisor
