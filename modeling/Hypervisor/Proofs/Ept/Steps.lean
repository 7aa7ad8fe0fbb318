import Hypervisor.Proofs.Ept.Forest

/-!
# Steps between balanced memories

Each change that is made to memory, and to the account with it, leads from a balanced memory to a
balanced memory.  Changes of references do not touch the shape of the tables, and changes of entries
do not touch the references.
-/

namespace Hypervisor.Memory.Balanced

variable {m m' : Memory} {a : Account} {s : Slot} {p q : Hpa} {k : Nat}

theorem transfer (h : m.Balanced a) (held : Hpa → Nat) (idle : Hpa → Prop)
    (haligned : m'.next.toNat % 4096 = 0)
    (hpage : ∀ p ∈ m'.pages, p.isPageAligned = true ∧ p.val.toNat < m'.next.toNat)
    (hentry : ∀ s k, a.level s.table = some k → m'.entry s = m.entry s)
    (hrefs : ∀ q, m'.refs q + a.held q = m.refs q + held q)
    (hroot : ∀ q k, a.level q = some k → a.parent q = none → 0 < held q)
    (hidle : ∀ p ∈ m'.pages, m'.refs p = 0 → idle p) :
    m'.Balanced { a with held := held, idle := idle } where
  aligned := haligned
  page := fun hp => hpage _ hp
  shape :=
    { bound := h.shape.bound
      linked := fun {s k q} hs => by
        rw [hentry s _ hs]
        exact h.shape.linked hs
      child := h.shape.child
      formed := fun {s k} hs => by
        rw [hentry s _ hs]
        exact h.shape.formed hs }
  ledger := fun q => by
    have hleaves : ({ a with held := held, idle := idle } : Account).leaves m'.entry q =
        a.leaves m.entry q := Account.leaves_congr (fun _ => Iff.rfl) fun s hs => hentry s 0 hs
    have hold := h.ledger q
    have hnew := hrefs q
    rw [hleaves]
    show m'.refs q = held q + a.linked q + _
    omega
  root := fun {q k} hq hp => hroot q k hq hp
  idle := fun {p} hp hr => hidle p hp hr

theorem of_pages_eq (h : m.Balanced a) (hpages : m'.pages = m.pages) (hnext : m'.next = m.next) :
    m'.Balanced a := by
  have hrefs : ∀ q, m'.refs q = m.refs q := fun q => by rw [refs, refs, hpages]
  refine h.transfer a.held a.idle ?_ ?_ ?_ ?_ ?_ ?_
  · rw [hnext]
    exact h.aligned
  · intro p hp
    rw [hnext]
    rw [hpages] at hp
    exact h.page hp
  · intro s k _
    exact entry_congr (by rw [words, words, hpages])
  · intro q
    rw [hrefs]
  · intro q k hq hroot
    exact h.root hq hroot
  · intro p hp hr
    rw [hpages] at hp
    rw [hrefs] at hr
    exact h.idle hp hr

/-- A new page has the references that it was allocated with, and may have none. -/
theorem allocates_count (h : m.Balanced a) {count : Nat} (hm : m.Allocates m' p count)
    (idle : Hpa → Prop) (hidle : ∀ q, a.idle q → idle q) (hnew : count = 0 → idle p) :
    m'.Balanced
      { a with held := fun q => a.held q + if q = p then count else 0, idle := idle } := by
  have hfree : p ∉ m.pages := h.next_notMem hm.address
  have hval : p.val.toNat = m.next.toNat := by rw [hm.address]
  have haligned := h.aligned
  refine h.transfer _ _ ?_ ?_ ?_ ?_ ?_ ?_
  · rw [hm.next]
    omega
  · intro q hq
    rw [hm.next]
    rcases hm.mem.1 hq with rfl | hq
    · exact ⟨Address.isPageAligned_iff.2 (by omega), by omega⟩
    · obtain ⟨hqa, hqn⟩ := h.page hq
      exact ⟨hqa, by omega⟩
  · intro s k hs
    have hne : s.table ≠ p := fun he => hfree (he ▸ h.table_live hs)
    refine entry_congr ?_
    rw [hm.words, Address.pageDown_of_isPageAligned (h.table_aligned hs), if_neg hne]
  · intro q
    rw [hm.refs hfree]
    omega
  · intro q k hq hp
    have hheld := h.root hq hp
    omega
  · intro q hq hr
    rw [hm.refs hfree] at hr
    rcases hm.mem.1 hq with rfl | hq
    · rw [if_pos rfl] at hr
      exact hnew (by omega)
    · exact hidle q (h.idle hq (by omega))

theorem allocates (h : m.Balanced a) (hm : m.Allocates m' p) : m'.Balanced (a.hold p) :=
  h.allocates_count hm a.idle (fun _ hq => hq) fun hzero => by cases hzero

theorem retained (h : m.Balanced a) (hp : p ∈ m.pages) : (m.retained p).Balanced (a.hold p) := by
  refine h.transfer _ _ h.aligned ?_ ?_ ?_ ?_ ?_
  · intro q hq
    exact h.page (mem_retained.1 hq)
  · intro s k _
    exact entry_congr (words_retained _)
  · intro q
    rw [refs_retained hp]
    omega
  · intro q k hq hroot
    have hheld := h.root hq hroot
    omega
  · intro q hq hr
    rw [refs_retained hp] at hr
    exact h.idle (mem_retained.1 hq) (by omega)

/-- A reference that is held may be dropped, but for the last one that holds a table that is linked
nowhere. -/
theorem released (h : m.Balanced a) (hp : 0 < a.held p)
    (hroot : ∀ k, a.level p = some k → a.parent p = none → 1 < a.held p) :
    (m.released p).Balanced (a.drop p) := by
  have hkept : ∀ {q k}, a.level q = some k → q ∈ (m.released p).pages := by
    intro q k hq
    refine mem_released.2 ⟨h.table_live hq, ?_⟩
    rintro ⟨rfl, hone⟩
    have hledger := h.ledger q
    cases hparent : a.parent q with
    | none =>
        have hheld := hroot k hq hparent
        omega
    | some s =>
        rw [Account.linked_of_parent_eq_some hparent] at hledger
        omega
  have hle := h.held_le_refs p
  refine h.transfer _ _ h.aligned ?_ ?_ ?_ ?_ ?_
  · intro q hq
    exact h.page (mem_released.1 hq).1
  · intro s k hs
    refine entry_congr (words_released ?_)
    rw [Address.pageDown_of_isPageAligned (h.table_aligned hs)]
    exact hkept hs
  · intro q
    rw [refs_released]
    by_cases hq : q = p
    · subst q
      simp only [if_true]
      omega
    · simp only [hq, if_false]
      omega
  · intro q k hq hparent
    by_cases he : q = p
    · subst q
      have hheld := hroot k hq hparent
      simp only [if_true]
      omega
    · have hheld := h.root hq hparent
      simp only [he, if_false]
      omega
  · intro q hq hr
    have hmem := mem_released.1 hq
    rw [refs_released] at hr
    refine h.idle hmem.1 ?_
    by_cases he : q = p
    · subst q
      have hne : m.refs p ≠ 1 := fun hone => hmem.2 ⟨rfl, hone⟩
      simp only [if_true] at hr
      omega
    · simpa only [he, if_false, Nat.sub_zero] using hr

theorem words_edited (h : m.Balanced a) (f : PageWords → PageWords) (hp : a.level p.pageDown = none)
    {t : Hpa} {k : Nat} (ht : a.level t = some k) : (m.edited p f).words t = m.words t := by
  apply words_edited_of_ne
  rw [Address.pageDown_of_isPageAligned (h.table_aligned ht)]
  rintro rfl
  cases hp.symm.trans ht

theorem edited (h : m.Balanced a) {f : PageWords → PageWords} (hp : a.level p.pageDown = none) :
    (m.edited p f).Balanced a := by
  refine h.transfer a.held a.idle h.aligned ?_ ?_ ?_ ?_ ?_
  · intro q hq
    exact h.page ((mem_edited f).1 hq)
  · intro s k hs
    exact entry_congr (h.words_edited f hp hs)
  · intro q
    rw [refs_edited]
  · intro q k hq hroot
    exact h.root hq hroot
  · intro q hq hr
    rw [refs_edited] at hr
    exact h.idle ((mem_edited f).1 hq) hr

private theorem restore (h : m.Balanced a) {a' : Account} {e : Entry}
    (hshape : Shape (m.stored s e).entry a')
    (hledger : ∀ q, a.held q + a.linked q + a.leaves m.entry q =
      a'.held q + a'.linked q + a'.leaves (m.stored s e).entry q)
    (hroot : ∀ q k, a'.level q = some k → a'.parent q = none → 0 < a'.held q)
    (hidle : a'.idle = a.idle) : (m.stored s e).Balanced a' where
  aligned := h.aligned
  page := fun hp => h.page (mem_stored.1 hp)
  shape := hshape
  ledger := fun q => by
    rw [refs_stored, h.ledger q]
    exact hledger q
  root := fun {q k} hq hp => hroot q k hq hp
  idle := fun {p} hp hr => by
    rw [refs_stored] at hr
    rw [hidle]
    exact h.idle (mem_stored.1 hp) hr

/-- Another leaf; the references of the old page and the new one are exchanged. -/
theorem stored_leaf (h : m.Balanced a) {e : Entry} {held : Hpa → Nat}
    (hs : a.level s.table = some 0) (he : e.Formed 0)
    (hheld : ∀ q, (held q + if e.target = some q then 1 else 0) =
      a.held q + if (m.entry s).target = some q then 1 else 0)
    (hroot : ∀ q k, a.level q = some k → a.parent q = none → 0 < held q) :
    (m.stored s e).Balanced { a with held := held } := by
  have hsame : ∀ {s' k}, a.level s'.table = some k → s' ≠ s →
      (m.stored s e).entry s' = m.entry s' := by
    intro s' k hs' hne
    rw [h.entry_stored hs hs', if_neg hne]
  have hnew : (m.stored s e).entry s = e := by rw [h.entry_stored hs hs, if_pos rfl]
  refine restore h ?_ ?_ hroot rfl
  · refine ⟨h.shape.bound, ?_, h.shape.child, ?_⟩
    · intro s' j q hs'
      have hne : s' ≠ s := by
        rintro rfl
        have hc := hs.symm.trans hs'
        cases hc
      rw [hsame hs' hne]
      exact h.shape.linked hs'
    · intro s' j hs'
      by_cases hne : s' = s
      · subst s'
        cases hs.symm.trans hs'
        rw [hnew]
        exact he
      · rw [hsame hs' hne]
        exact h.shape.formed hs'
  · intro q
    have hcount := Account.leaves_store m.entry (m.stored s e).entry (q := q)
      hs fun s' hs' hne => hsame hs' hne
    have hq := hheld q
    rw [hnew] at hcount
    show a.held q + a.linked q + a.leaves m.entry q =
      held q + a.linked q + a.leaves (m.stored s e).entry q
    omega

/-- An empty page becomes a table that is linked nowhere. -/
theorem plant (h : m.Balanced a) (hk : k < Ept.levels) (hp : 0 < a.held p)
    (hlevel : a.level p = none) (hzero : m.words p = .zero) :
    m.Balanced (a.plant p k none) := by
  have hparent : a.parent p = none := h.shape.parent_of_level_eq_none hlevel
  have hempty : ∀ s, s.table = p → m.entry s = .empty := by
    rintro s rfl
    exact entry_of_words_eq_zero hzero
  -- A page that is on no level links no table.
  have hnochild : ∀ s q, s.table = p → a.parent q ≠ some s := by
    rintro s q rfl hq
    obtain ⟨j, hj, -⟩ := h.shape.child hq
    rw [hlevel] at hj
    cases hj
  refine ⟨h.aligned, h.page, ?_, ?_, ?_, h.idle⟩
  · refine ⟨?_, ?_, ?_, ?_⟩
    · intro q j hq
      by_cases he : q = p
      · simp only [Account.plant, he, if_true, Option.some.injEq] at hq
        omega
      · simp only [Account.plant, he, if_false] at hq
        exact h.shape.bound hq
    · intro s j q hs
      simp only [Account.plant] at hs ⊢
      by_cases hsp : s.table = p
      · rw [hempty s hsp, Entry.target_empty]
        by_cases hq : q = p
        · simp [hq]
        · simp [hq, hnochild s q hsp]
      · rw [if_neg hsp] at hs
        rw [h.shape.linked hs]
        by_cases hq : q = p
        · simp [hq, hparent]
        · simp [hq]
    · intro s q hq
      simp only [Account.plant] at hq ⊢
      by_cases hqp : q = p
      · simp [hqp] at hq
      · rw [if_neg hqp] at hq ⊢
        obtain ⟨j, hj, hlev⟩ := h.shape.child hq
        have hsp : s.table ≠ p := fun he => hnochild s q he hq
        exact ⟨j, by rw [if_neg hsp]; exact hj, hlev⟩
    · intro s j hs
      simp only [Account.plant] at hs
      by_cases hsp : s.table = p
      · rw [hempty s hsp]
        exact .empty j
      · rw [if_neg hsp] at hs
        exact h.shape.formed hs
  · intro q
    have hlinked : (a.plant p k none).linked q = a.linked q := by
      by_cases hq : q = p
      · simp [Account.linked, Account.plant, hq, hparent]
      · simp [Account.linked, Account.plant, hq]
    have hleaves : (a.plant p k none).leaves m.entry q = a.leaves m.entry q := by
      unfold Account.leaves
      congr 1
      ext s
      simp only [Set.mem_ofPred_eq, Account.plant]
      by_cases hsp : s.table = p
      · simp [hempty s hsp, hsp, hlevel]
      · rw [if_neg hsp]
    rw [hlinked, hleaves]
    exact h.ledger q
  · intro q j hq hroot
    by_cases he : q = p
    · subst q
      exact hp
    · simp only [Account.plant, he, if_false] at hq hroot
      exact h.root hq hroot

/-- A table whose entries are empty is a table no longer. -/
theorem fell (h : m.Balanced a) (hparent : a.parent p = none)
    (hempty : ∀ i, m.entry ⟨p, i⟩ = .empty) : m.Balanced (a.fell p) := by
  have hlevel : ∀ {q j}, (a.fell p).level q = some j → q ≠ p ∧ a.level q = some j := by
    intro q j hq
    by_cases he : q = p
    · simp [Account.fell, he] at hq
    · simp only [Account.fell, he, if_false] at hq
      exact ⟨he, hq⟩
  refine ⟨h.aligned, h.page, ⟨?_, ?_, ?_, ?_⟩, ?_, ?_, h.idle⟩
  · intro q j hq
    exact h.shape.bound (hlevel hq).2
  · intro s j q hs
    exact h.shape.linked (hlevel hs).2
  · intro s q hq
    obtain ⟨j, hj, hlev⟩ := h.shape.child hq
    have hsp : s.table ≠ p := by
      rintro rfl
      have htarget := (h.shape.linked hj).2 hq
      rw [hempty s.index, Entry.target_empty] at htarget
      cases htarget
    have hqp : q ≠ p := by
      rintro rfl
      cases hparent.symm.trans hq
    exact ⟨j, by simpa [Account.fell, hsp] using hj, by simpa [Account.fell, hqp] using hlev⟩
  · intro s j hs
    exact h.shape.formed (hlevel hs).2
  · intro q
    have hleaves : (a.fell p).leaves m.entry q = a.leaves m.entry q := by
      unfold Account.leaves
      congr 1
      ext s
      simp only [Set.mem_ofPred_eq, Account.fell]
      by_cases hsp : s.table = p
      · subst p
        simp [hempty s.index]
      · rw [if_neg hsp]
    rw [hleaves]
    exact h.ledger q
  · intro q j hq hroot
    exact h.root (hlevel hq).2 hroot

/-- A table that was linked nowhere is linked in an empty place. -/
theorem stored_link (h : m.Balanced a) (hs : a.level s.table = some (k + 1))
    (hempty : m.entry s = .empty) (hp : a.level p = some k) (hparent : a.parent p = none)
    (hf : p.val.toNat < 2 ^ 52) : (m.stored s (.referring p .full)).Balanced (a.link p s) := by
  have haligned := h.table_aligned hp
  have hheld := h.root hp hparent
  have htarget : (Entry.referring p .full).target = some p :=
    Entry.target_referring haligned hf (by decide)
  have hentry : ∀ {s' j}, a.level s'.table = some j → (m.stored s (.referring p .full)).entry s' =
      if s' = s then .referring p .full else m.entry s' := fun hs' => h.entry_stored hs hs'
  -- The place is empty, so no table is linked from it yet.
  have hloose : ∀ {q}, a.parent q ≠ some s := by
    intro q hq
    have hq' := (h.shape.linked hs).2 hq
    rw [hempty, Entry.target_empty] at hq'
    cases hq'
  refine restore h ⟨h.shape.bound, ?_, ?_, ?_⟩ ?_ ?_ rfl
  · intro s' j q hs'
    rw [hentry hs']
    by_cases hss : s' = s
    · subst s'
      rw [if_pos rfl, htarget]
      by_cases hq : q = p
      · simp [Account.link, hq]
      · simp [Account.link, hq, Ne.symm hq, hloose]
    · rw [if_neg hss, h.shape.linked hs']
      by_cases hq : q = p
      · simp [Account.link, hq, hparent, Ne.symm hss]
      · simp [Account.link, hq]
  · intro s' q hq
    by_cases he : q = p
    · simp only [Account.link, he, if_true, Option.some.injEq] at hq
      subst he hq
      exact ⟨k, hs, hp⟩
    · simp only [Account.link, he, if_false] at hq
      exact h.shape.child hq
  · intro s' j hs'
    rw [hentry hs']
    by_cases hss : s' = s
    · subst s'
      cases hs.symm.trans hs'
      rw [if_pos rfl]
      exact .link k p haligned hf
    · rw [if_neg hss]
      exact h.shape.formed hs'
  · intro q
    have hleaves : (a.link p s).leaves (m.stored s (.referring p .full)).entry q =
        a.leaves m.entry q := by
      refine Account.leaves_congr (fun _ => Iff.rfl) fun s' hs' => ?_
      have hss : s' ≠ s := by
        rintro rfl
        cases hs.symm.trans hs'
      rw [hentry hs', if_neg hss]
    rw [hleaves]
    by_cases hq : q = p
    · subst q
      simp only [Account.linked, Account.link, Account.drop, hparent, if_true, Option.isSome_some,
        Option.isSome_none, Bool.false_eq_true, if_false]
      omega
    · simp only [Account.linked, Account.link, Account.drop, hq, if_false, Nat.sub_zero]
  · intro q j hq hroot
    by_cases he : q = p
    · simp [Account.link, he] at hroot
    · simp only [Account.link, Account.drop, he, if_false, Nat.sub_zero] at hq hroot ⊢
      exact h.root hq hroot

/-- A table is taken out of its place, which is empty then. -/
theorem stored_unlink (h : m.Balanced a) (hs : a.level s.table = some (k + 1))
    (htarget : (m.entry s).target = some p) : (m.stored s .empty).Balanced (a.unlink p) := by
  have hparent : a.parent p = some s := (h.shape.linked hs).1 htarget
  have hentry : ∀ {s' j}, a.level s'.table = some j → (m.stored s .empty).entry s' =
      if s' = s then .empty else m.entry s' := fun hs' => h.entry_stored hs hs'
  refine restore h ⟨h.shape.bound, ?_, ?_, ?_⟩ ?_ ?_ rfl
  · intro s' j q hs'
    rw [hentry hs']
    by_cases hss : s' = s
    · subst s'
      rw [if_pos rfl, Entry.target_empty]
      by_cases hq : q = p
      · simp [Account.unlink, hq]
      · have hother : a.parent q ≠ some s := by
          intro he
          have hq' := (h.shape.linked hs).2 he
          rw [htarget] at hq'
          exact hq (Option.some.inj hq').symm
        simp [Account.unlink, hq, hother]
    · rw [if_neg hss, h.shape.linked hs']
      by_cases hq : q = p
      · simp [Account.unlink, hq, hparent, Ne.symm hss]
      · simp [Account.unlink, hq]
  · intro s' q hq
    by_cases he : q = p
    · simp [Account.unlink, he] at hq
    · simp only [Account.unlink, he, if_false] at hq
      exact h.shape.child hq
  · intro s' j hs'
    rw [hentry hs']
    by_cases hss : s' = s
    · rw [if_pos hss]
      exact .empty j
    · rw [if_neg hss]
      exact h.shape.formed hs'
  · intro q
    have hleaves : (a.unlink p).leaves (m.stored s .empty).entry q = a.leaves m.entry q := by
      refine Account.leaves_congr (fun _ => Iff.rfl) fun s' hs' => ?_
      have hss : s' ≠ s := by
        rintro rfl
        cases hs.symm.trans hs'
      rw [hentry hs', if_neg hss]
    rw [hleaves]
    by_cases hq : q = p
    · subst q
      simp only [Account.linked, Account.unlink, Account.hold, hparent, if_true, Option.isSome_some,
        Option.isSome_none, Bool.false_eq_true, if_false]
    · simp only [Account.linked, Account.unlink, Account.hold, hq, if_false, Nat.add_zero]
  · intro q j hq hroot
    by_cases he : q = p
    · simp [Account.unlink, Account.hold, he]
    · simp only [Account.unlink, Account.hold, he, if_false, Nat.add_zero] at hq hroot ⊢
      exact h.root hq hroot

end Hypervisor.Memory.Balanced
