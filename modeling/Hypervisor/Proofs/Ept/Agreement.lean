import Hypervisor.Proofs.Ept.Missing
import Hypervisor.Proofs.Ownership.Trees

/-!
# The two walks agree

A table is walked by a lookup, which may add tables on its way, and by a walk that only reads.  Both
take the same path, whatever tables are missing.  A lookup adds the tables that are missing on its path
from the highest level on, until it has added all of them or there is no page left, and what it adds
is not seen by walks.
-/

namespace Hypervisor

namespace Memory

/-- `m'` is `m` with `count` tables more.  They are the highest ones of those that are missing on the
path of a page number, below a table of a level. -/
structure AddsTables (m : Memory) (n : PageNumber) (k : Nat) (t : Hpa) (count : Nat)
    (m' : Memory) : Prop where
  missing : m'.missingFrom n k t + count = m.missingFrom n k t
  allocated : m'.next.toNat = m.next.toNat + 4096 * count
  pages : ∀ q, q ∈ m'.pages ↔ q ∈ m.pages ∨ ∃ j, m'.missingFrom n k t ≤ j ∧
    j < m.missingFrom n k t ∧ m'.tableFrom n j k t = some q

variable {m m₁ m' : Memory} {n : PageNumber} {t p q : Hpa} {k count : Nat}

theorem missingFrom_le : m.missingFrom n k t ≤ k := by
  induction k generalizing t with
  | zero => exact Nat.le_refl 0
  | succ k ih =>
      cases htarget : (m.entry ⟨t, n.digit (k + 1)⟩).target with
      | none => rw [missingFrom_unlinked htarget]
      | some q =>
          rw [missingFrom_link htarget]
          exact Nat.le_succ_of_le ih

theorem missingFrom_congr (hpages : m'.pages = m.pages) :
    m'.missingFrom n k t = m.missingFrom n k t := by
  induction k generalizing t with
  | zero => rfl
  | succ k ih =>
      have hentry : m'.entry ⟨t, n.digit (k + 1)⟩ = m.entry ⟨t, n.digit (k + 1)⟩ :=
        entry_congr (by rw [words, words, hpages])
      cases htarget : (m.entry ⟨t, n.digit (k + 1)⟩).target with
      | none => rw [missingFrom_unlinked htarget, missingFrom_unlinked (by rw [hentry, htarget])]
      | some q => rw [missingFrom_link htarget, missingFrom_link (by rw [hentry, htarget]), ih]

namespace AddsTables

theorem of_pages_eq (hpages : m'.pages = m.pages) (hnext : m'.next = m.next) :
    m.AddsTables n k t 0 m' where
  missing := missingFrom_congr hpages
  allocated := by rw [hnext, Nat.mul_zero, Nat.add_zero]
  pages := fun q => by
    rw [hpages, missingFrom_congr hpages]
    refine ⟨.inl, ?_⟩
    rintro (hq | ⟨j, hle, hlt, -⟩)
    · exact hq
    · omega

theorem below (hlink : (m.entry ⟨t, n.digit (k + 1)⟩).target = some p)
    (hlink' : (m'.entry ⟨t, n.digit (k + 1)⟩).target = some p) (h : m.AddsTables n k p count m') :
    m.AddsTables n (k + 1) t count m' where
  missing := by rw [missingFrom_link hlink, missingFrom_link hlink', h.missing]
  allocated := h.allocated
  pages := fun q => by
    have hle := m.missingFrom_le (n := n) (k := k) (t := p)
    rw [missingFrom_link hlink, missingFrom_link hlink', h.pages]
    refine or_congr_right (exists_congr fun j => and_congr_right fun _ => and_congr_right fun hj => ?_)
    rw [tableFrom_succ (by omega), hlink', Option.bind_some]

/-- A table that was added is the first one, if it is linked where the path ended. -/
theorem first (hnone : (m.entry ⟨t, n.digit (k + 1)⟩).target = none) (htakes : m.Takes p m₁)
    (hempty : ∀ i, m₁.entry ⟨p, i⟩ = .empty)
    (hlink : (m'.entry ⟨t, n.digit (k + 1)⟩).target = some p) (h : m₁.AddsTables n k p count m') :
    m.AddsTables n (k + 1) t (count + 1) m' where
  missing := by
    have hmissing := h.missing
    rw [missingFrom_of_empty hempty] at hmissing
    rw [missingFrom_unlinked hnone, missingFrom_link hlink]
    omega
  allocated := by
    rw [h.allocated, htakes.next]
    omega
  pages := fun q => by
    have hle := m'.missingFrom_le (n := n) (k := k) (t := p)
    have hpath : ∀ {j}, j ≤ k → m'.tableFrom n j (k + 1) t = m'.tableFrom n j k p := fun hj => by
      rw [tableFrom_succ (by omega), hlink, Option.bind_some]
    rw [h.pages, htakes.mem, missingFrom_of_empty hempty, missingFrom_unlinked hnone,
      missingFrom_link hlink]
    constructor
    · rintro ((rfl | hq) | ⟨j, hge, hlt, hq⟩)
      · exact .inr ⟨k, hle, Nat.lt_succ_self k, by rw [hpath (Nat.le_refl k), tableFrom_self]⟩
      · exact .inl hq
      · exact .inr ⟨j, hge, Nat.lt_succ_of_lt hlt, by rw [hpath (Nat.le_of_lt hlt), hq]⟩
    · rintro (hq | ⟨j, hge, hlt, hq⟩)
      · exact .inl (.inr hq)
      · rw [hpath (Nat.le_of_lt_succ hlt)] at hq
        rcases Nat.lt_or_eq_of_le (Nat.le_of_lt_succ hlt) with hlt | rfl
        · exact .inr ⟨j, hge, hlt, hq⟩
        · rw [tableFrom_self] at hq
          exact .inl (.inl (Option.some.inj hq).symm)

end AddsTables

end Memory

namespace Ept

open Hypervisor.Action Memory

variable {F : Panic → Prop} {m m' : Memory} {a a' : Account} {g : Gpa} {create : Bool}
  {root t : Hpa} {k : Nat} {tab : Ept}

theorem lookupFrom_reads (hk : k < levels) (hb : m.Balanced a) (ht : a.level t = some k)
    (hfound : create = true → (m.leafFrom g.number k t).isSome) :
    (lookupFrom g create k t).Ends m (fun s m' => m' = m ∧ m.leafFrom g.number k t = some s)
      (fun e m' => m' = m ∧ e = .notExist ∧ m.leafFrom g.number k t = none) fun _ _ => False := by
  induction k generalizing t with
  | zero =>
      rw [lookupFrom, index_eq_digit g hk, ends_bind]
      exact pageWords_ends (fun _ => ⟨rfl, rfl⟩) fun _ hfree => hfree (hb.table_pageDown_live ht)
  | succ k ih =>
      rw [lookupFrom, index_eq_digit g hk, ends_bind]
      refine Slot.read_ends (fun _ => ?_) fun _ hfree => hfree (hb.table_pageDown_live ht)
      rw [leafFrom] at hfound ⊢
      cases htarget : (m.entry ⟨t, g.number.digit (k + 1)⟩).target with
      | some q =>
          rw [htarget, Option.bind_some] at hfound
          rw [Option.bind_some]
          have hq := hb.shape.level_of_target (s := ⟨t, g.number.digit (k + 1)⟩) ht htarget
          exact ih (Nat.lt_of_succ_lt hk) hq hfound
      | none =>
          rw [htarget, Option.bind_none] at hfound
          cases create with
          | true => cases hfound rfl
          | false => exact ⟨rfl, rfl, rfl⟩

theorem lookup_reads (hroot : tab.root = some root) (hb : m.Balanced a) (hlevel : a.level root = some 3)
    (hfound : create = true → (m.leafFrom g.number 3 root).isSome) :
    (tab.lookup g create).run m = (orFail (m.leafFrom g.number 3 root) .notExist).run m := by
  have hends : (tab.lookup g create).Ends m (fun s m' => m' = m ∧ m.leafFrom g.number 3 root = some s)
      (fun e m' => m' = m ∧ e = .notExist ∧ m.leafFrom g.number 3 root = none) fun _ _ => False := by
    rw [lookup, hroot, ends_bind, ends_orFail]
    exact lookupFrom_reads (by decide) hb hlevel hfound
  cases hrun : (tab.lookup g create).run m with
  | ok s m' =>
      obtain ⟨rfl, hs⟩ := hends.ok hrun
      rw [hs, run_orFail_some]
  | error stop m' =>
      cases stop with
      | error e =>
          obtain ⟨rfl, rfl, hnone⟩ := hends.error hrun
          rw [hnone, run_orFail_none]
      | panic p => exact (hends.stop hrun).elim

/-- A lookup that may add tables has added those that were missing, or some of them but not all. -/
theorem lookupFrom_adds (hk : k < levels) :
    (lookupFrom g true k t).Safe F m (m.Balanced a ∧ a.level t = some k)
      (fun _ m' => m.AddsTables g.number k t (m.missingFrom g.number k t) m')
      (fun _ m' => ∃ count < m.missingFrom g.number k t, m.AddsTables g.number k t count m') := by
  induction k generalizing m a t with
  | zero =>
      rw [lookupFrom]
      refine pageWords_bind (fun h => h.1.table_pageDown_live h.2) ?_
      exact Safe.pure fun _ _ => .of_pages_eq rfl rfl
  | succ k ih =>
      have hk' : k < levels := Nat.lt_of_succ_lt hk
      rw [lookupFrom, index_eq_digit g hk]
      refine Slot.read_bind (fun h => h.1.table_pageDown_live h.2) ?_
      cases htarget : (m.entry ⟨t, g.number.digit (k + 1)⟩).target with
      | some q =>
          -- The link is still there afterwards, whatever was added below it.
          rw [missingFrom_link htarget]
          refine ((lookupFrom_finds hk' (a := a)).and (ih hk')).mono ?_ ?_ ?_
          · rintro - ⟨hb, ht⟩
            exact ⟨hb, hb.shape.level_of_target (s := ⟨t, g.number.digit (k + 1)⟩) ht htarget⟩
          · rintro s m' - - ⟨hb, ht⟩ ⟨⟨a', hfinds⟩, hadds⟩
            exact hadds.below htarget (hfinds.link hb (s := ⟨t, g.number.digit (k + 1)⟩) ht htarget)
          · rintro e m' - - ⟨hb, ht⟩ ⟨⟨-, a', hext⟩, count, hless, hadds⟩
            exact ⟨count, hless,
              hadds.below htarget (hext.link hb (s := ⟨t, g.number.digit (k + 1)⟩) ht htarget)⟩
      | none =>
          rw [missingFrom_unlinked htarget]
          refine Safe.require_bind (fun _ => ?_) fun hno => absurd hno.symm Bool.false_ne_true
          refine addTable_bind id htarget
            (fun m₁ hpages hnext _ _ _ _ => ⟨0, Nat.succ_pos k, .of_pages_eq hpages hnext⟩)
            fun m₁ p a₁ hadds _ htakes => ?_
          have hnew : m₁.Fits → m.Balanced a ∧ a.level t = some (k + 1) →
              m₁.Balanced a₁ ∧ a₁.level p = some k := fun hf h =>
            ⟨(hadds hf h).balanced, by rw [(hadds hf h).levels, if_pos rfl]⟩
          have hlink : ∀ {m' : Memory} {a' : Account}, m₁.Fits →
              m.Balanced a ∧ a.level t = some (k + 1) → m₁.Grows a₁ m' a' →
              (m'.entry ⟨t, g.number.digit (k + 1)⟩).target = some p := fun hf h hgrows =>
            hgrows.link (hadds hf h).balanced ((hadds hf h).level_eq h.1 h.2) (hadds hf h).linked
          refine ((lookupFrom_finds hk' (a := a₁)).and (ih hk')).mono hnew ?_ ?_
          · rintro s m' hf - h ⟨⟨a', hfinds⟩, hbelow⟩
            rw [missingFrom_of_empty (hadds hf h).empty] at hbelow
            exact hbelow.first htarget htakes (hadds hf h).empty (hlink hf h hfinds.toGrows)
          · rintro e m' hf - h ⟨⟨-, a', hext⟩, count, hless, hbelow⟩
            rw [missingFrom_of_empty (hadds hf h).empty] at hless
            exact ⟨count + 1, Nat.succ_lt_succ hless,
              hbelow.first htarget htakes (hadds hf h).empty (hlink hf h hext.toGrows)⟩

/-- A walk and a lookup that adds no table agree on an address, and neither changes anything. -/
structure Agrees (tab : Ept) (m : Memory) (g : Gpa) : Prop where
  walk_final : (tab.walk g).final m = m
  lookup_final : (tab.lookup g false).final m = m
  /-- The walk gives what is in the place that the lookup gives, if it is present. -/
  walk_ok : ∀ e, (tab.walk g).answer m = .ok e ↔
    ∃ s, (tab.lookup g false).answer m = .ok s ∧ m.entry s = e ∧ e.target.isSome
  walk_invalid : (tab.walk g).answer m = .error (.error .invalidRoot) ↔ tab.root = none
  lookup_invalid : (tab.lookup g false).answer m = .error (.error .invalidRoot) ↔ tab.root = none
  walk_missing : tab.root ≠ none → ∀ stop, (tab.walk g).answer m = .error stop →
    stop = .error .notExist
  lookup_missing : tab.root ≠ none → ∀ stop, (tab.lookup g false).answer m = .error stop →
    stop = .error .notExist

/-- No walk and no resolution of an address tells the two memories apart. -/
def Unseen (tab : Ept) (m m' : Memory) : Prop :=
  ∀ g, (tab.walk g).answer m' = (tab.walk g).answer m ∧
    ∀ {ε : Type}, (tab.resolve g : MemoryM ε (Option Hva)).answer m' =
      (tab.resolve g : MemoryM ε (Option Hva)).answer m

theorem agrees_of_root (hroot : tab.root = some root) (hb : m.Balanced a)
    (hlevel : a.level root = some 3) : tab.Agrees m g := by
  have hlookup : (tab.lookup g false).run m = (orFail (m.leafFrom g.number 3 root) .notExist).run m :=
    lookup_reads hroot hb hlevel nofun
  have hwalk := walk_reads (g := g) hroot hb hlevel
  have hrooted : tab.root ≠ none := by
    rw [hroot]
    exact Option.some_ne_none root
  constructor
  · rw [final_congr hwalk, final_orFail]
  · rw [final_congr hlookup, final_orFail]
  · intro e
    rw [answer_congr hwalk, answer_orFail_eq_ok, present_eq_some]
    simp only [answer_congr hlookup, answer_orFail_eq_ok]
  · rw [answer_congr hwalk, answer_orFail_eq_error]
    simp [hrooted]
  · rw [answer_congr hlookup, answer_orFail_eq_error]
    simp [hrooted]
  · intro _ stop hstop
    rw [answer_congr hwalk, answer_orFail_eq_error] at hstop
    exact hstop.2
  · intro _ stop hstop
    rw [answer_congr hlookup, answer_orFail_eq_error] at hstop
    exact hstop.2

theorem agrees_of_rootless (hroot : tab.root = none) : tab.Agrees m g := by
  have hwalk : (tab.walk g).run m = .error (.error .invalidRoot) m := by
    rw [walk, hroot]
    rfl
  have hlookup : (tab.lookup g false).run m = .error (.error .invalidRoot) m := by
    rw [lookup, hroot]
    rfl
  constructor <;> simp [Action.final, Action.answer, hwalk, hlookup, hroot]

theorem unseen_of_extends (hroot : tab.root = some root) (hb : m.Balanced a)
    (hlevel : a.level root = some 3) (h : m.Extends a m' a') : tab.Unseen m m' := by
  have hlevel' := h.level_eq hb hlevel
  intro g
  have hsame : m'.translation root g.number = m.translation root g.number :=
    h.translation g.number hlevel
  constructor
  · rw [answer_walk hroot h.balanced hlevel', answer_walk hroot hb hlevel, hsame]
  · intro ε
    rw [answer_resolve hroot h.balanced hlevel', answer_resolve hroot hb hlevel, hsame]

/-- A lookup that may add tables adds all that are missing, or some of them but not all before there is no
page left.  No walk sees them, and once it has added all, the place is found without a change. -/
theorem lookup_adds (hroot : tab.root = some root) (hb : m.Balanced a)
    (hlevel : a.level root = some 3) :
    (tab.lookup g true).Ends m
      (fun s m' => m'.Fits → m'.Standing root ∧ tab.Unseen m m' ∧
        m.AddsTables g.number 3 root (m.missing root g.number) m' ∧
        ∀ create, (tab.lookup g create).run m' = .ok s m')
      (fun e m' => m'.Fits → e = .outOfMemory ∧ m'.Standing root ∧ tab.Unseen m m' ∧
        ∃ count < m.missing root g.number, m.AddsTables g.number 3 root count m')
      (fun _ m' => ¬m'.Fits) := by
  have hfinds : (tab.lookup g true).Safe (fun _ => False) m (m.Balanced a ∧ a.level root = some 3) _ _ :=
    lookup_finds hroot
  have hadds : (tab.lookup g true).Safe (fun _ => False) m (m.Balanced a ∧ a.level root = some 3)
      (fun _ m' => m.AddsTables g.number 3 root (m.missing root g.number) m')
      (fun _ m' => ∃ count < m.missing root g.number, m.AddsTables g.number 3 root count m') := by
    rw [lookup, hroot]
    refine Safe.orFail_bind (fun r hr => ?_) fun h => absurd h (Option.some_ne_none _)
    cases hr
    exact lookupFrom_adds (by decide)
  refine Ends.mono ((hfinds.and hadds).ends fun _ => ⟨hb, hlevel⟩) ?_ ?_ fun _ _ h => h
  · intro s m' h hf
    obtain ⟨⟨a', hf'⟩, hadds⟩ := h hf
    have hlevel' := hf'.level_eq hb hlevel
    refine ⟨hf'.balanced.standing hlevel', unseen_of_extends hroot hb hlevel hf'.toExtends, hadds,
      fun create => ?_⟩
    have hleaf : m'.leafFrom g.number 3 root = some s := hf'.leaf
    rw [lookup_reads hroot hf'.balanced hlevel' fun _ => by rw [hleaf]; rfl, hleaf, run_orFail_some]
  · intro e m' h hf
    obtain ⟨⟨hshort, a', hext⟩, hadds⟩ := h hf
    exact ⟨hshort rfl, hext.balanced.standing (hext.level_eq hb hlevel),
      unseen_of_extends hroot hb hlevel hext, hadds⟩

/-- The places of two addresses are the same just if they are in the same page. -/
theorem lookup_inj {g' : Gpa} {create' : Bool} {s s' : Slot} {m₁ m₂ : Memory}
    (hroot : tab.root = some root) (hb : m.Balanced a) (hlevel : a.level root = some 3)
    (hrun : (tab.lookup g create).run m = .ok s m₁) (hrun' : (tab.lookup g' create').run m₁ = .ok s' m₂)
    (hf : m₂.Fits) : s = s' ↔ g.number = g'.number := by
  have hsafe : (tab.lookup g' create').Safe (fun _ => True) m₁
      (m₁.Balanced a ∧ a.level root = some 3) _ _ := lookup_finds hroot
  have hf₁ : m₁.Fits := (hsafe.of_ok hrun' hf).1
  obtain ⟨a₁, hfinds⟩ := ((lookup_finds (F := fun _ => True) hroot).of_ok hrun hf₁).2 ⟨hb, hlevel⟩
  have hlevel₁ := hfinds.level_eq hb hlevel
  obtain ⟨a₂, hfinds'⟩ :=
    ((lookup_finds (F := fun _ => True) hroot).of_ok hrun' hf).2 ⟨hfinds.balanced, hlevel₁⟩
  have hlevel₂ := hfinds'.level_eq hfinds.balanced hlevel₁
  have hleaf : m₂.leafFrom g.number 3 root = some s :=
    hfinds'.toGrows.leafFrom hfinds.balanced hlevel₁ hfinds.leaf
  have hleaf' : m₂.leafFrom g'.number 3 root = some s' := hfinds'.leaf
  constructor
  · rintro rfl
    have hdigits := (hfinds'.balanced.shape.leafFrom_inj hlevel₂ hlevel₂ hleaf hleaf').2
    exact PageNumber.ext_digits fun l hl => hdigits l (Nat.le_of_lt_succ hl)
  · intro hnumber
    rw [hnumber] at hleaf
    exact Option.some.inj (hleaf.symm.trans hleaf')

/-- In a well-formed table, or one without a root, a walk and a lookup that adds no table agree on every
address.  A lookup that may add tables adds exactly the missing ones, or it runs out of memory after some
of them, and no walk or resolution of any address sees that.  Afterwards the place is found without a
change.  Places differ unless bits 47:12 of the addresses agree. -/
theorem lookups_and_walks_agree (tab : Ept) (m : Memory)
    (hstanding : ∀ root, tab.root = some root → m.Standing root) (g : Gpa) :
    tab.Agrees m g ∧
    (∀ root, tab.root = some root → m.missing root g.number ≤ 3 ∧
      (tab.lookup g true).Ends m
        (fun s m' => m'.Fits → m'.Standing root ∧ tab.Unseen m m' ∧
          m.AddsTables g.number 3 root (m.missing root g.number) m' ∧
          ∀ create, (tab.lookup g create).run m' = .ok s m')
        (fun e m' => m'.Fits → e = .outOfMemory ∧ m'.Standing root ∧ tab.Unseen m m' ∧
          ∃ count < m.missing root g.number, m.AddsTables g.number 3 root count m')
        (fun _ m' => ¬m'.Fits)) ∧
    (∀ (g' : Gpa) (create create' : Bool) (s s' : Slot) (m₁ m₂ : Memory),
      (tab.lookup g create).run m = .ok s m₁ → (tab.lookup g' create').run m₁ = .ok s' m₂ →
        m₂.Fits → (s = s' ↔ g.number = g'.number)) := by
  cases hroot : tab.root with
  | none =>
      refine ⟨agrees_of_rootless hroot, ?_, ?_⟩
      · intro root h
        cases h
      · intro g' create create' s s' m₁ m₂ hrun
        rw [lookup, hroot] at hrun
        cases hrun
  | some root =>
      have h := hstanding root hroot
      have hb := h.account_balanced
      have hlevel := h.account_root
      refine ⟨agrees_of_root hroot hb hlevel, ?_, ?_⟩
      · intro r hr
        cases hr
        exact ⟨missingFrom_le, lookup_adds hroot hb hlevel⟩
      · intro g' create create' s s' m₁ m₂ hrun hrun' hf
        exact lookup_inj hroot hb hlevel hrun hrun' hf

/-- In the table that the first guest got when it touched an address, two tables are missing for an
address that is 1 GiB away, and a lookup adds them. -/
theorem lookups_and_walks_agree_touches :
    ∃ (m : Machine) (k : Callers) (tab : Ept) (s : Slot) (m' : Memory),
      Machine.History Command.Lawful m k ∧ (∀ root, tab.root = some root → m.memory.Standing root) ∧
      tab.Agrees m.memory ⟨0x40005000⟩ ∧ (tab.lookup ⟨0x40005000⟩ true).run m.memory = .ok s m' ∧
      m.memory.AddsTables (Address.number ⟨0x40005000⟩) 3 ⟨0x1000000⟩ 2 m' ∧
      tab.Unseen m.memory m' := by
  have hallowed : ∀ c ∈ Machine.touches, ∀ m k, c.Lawful m k := Command.forall_lawful rfl
  obtain ⟨m, k, h, hf, hroot, hmissing, hlookup⟩ :=
    (Machine.History.booted Machine.uniprocessor_booted).exists_after
    (P := fun m => m.memory.Fits ∧
      (m.vms[0]?.join.bind fun v => v.guest.table.root) = some ⟨0x1000000⟩ ∧
      m.memory.missing ⟨0x1000000⟩ (Address.number ⟨0x40005000⟩) = 2 ∧
      ((⟨some ⟨0x1000000⟩⟩ : Ept).lookup ⟨0x40005000⟩ true).Ends m.memory (fun _ m' => m'.Fits)
        (fun _ _ => False) fun _ _ => False) hallowed (by decide +kernel)
  obtain ⟨v, hv, hr⟩ := Option.bind_eq_some_iff.1 hroot
  have hstanding : ∀ root, (⟨some ⟨0x1000000⟩⟩ : Ept).root = some root → m.memory.Standing root := by
    rintro root heq
    cases heq
    exact (h.tree hf (Option.join_eq_some_iff.1 hv) hr).standing
  obtain ⟨s, m', hrun, hf'⟩ := Ends.exists_ok hlookup
  obtain ⟨hagrees, hadds, -⟩ := lookups_and_walks_agree ⟨some ⟨0x1000000⟩⟩ m.memory hstanding ⟨0x40005000⟩
  obtain ⟨-, hunseen, htables, -⟩ := ((hadds _ rfl).2.ok hrun) hf'
  rw [hmissing] at htables
  exact ⟨m, k, _, s, m', h, hstanding, hagrees, hrun, htables, hunseen⟩

end Ept

end Hypervisor
