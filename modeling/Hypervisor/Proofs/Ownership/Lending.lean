import Hypervisor.Proofs.Ownership.Undisturbed

/-!
# Lending pages to guests

A host process may lend a page to a guest.  It is checked whether the page is there, whether its place
is in the memory of the guest, and whether the permission makes sense.  A page is lent just if nothing
is wrong with that, nothing is in its place and there are pages for the tables that are missing; each of
these has an error of its own, and with an error nothing has changed that was there before.
-/

namespace Hypervisor

namespace Memory

def limited (m : Memory) (budget : Option Nat) : Memory := { m with budget := budget }

/-- The tables with these roots translate, and what was there is referred to, as before. -/
structure Alike (m : Memory) (roots : Set Hpa) (m' : Memory) : Prop where
  translation : ∀ r ∈ roots, ∀ n, m'.translation r n = m.translation r n
  resolve : ∀ (t : Ept) (r : Hpa), t.root = some r → r ∈ roots → ∀ gpa,
    (t.resolve gpa : MemoryM VmError (Option Hva)).answer m' =
      (t.resolve gpa : MemoryM VmError (Option Hva)).answer m
  refs : ∀ p ∈ m.pages, p ∈ m'.pages ∧ m'.refs p = m.refs p

/-- The same but for one page, which a table has now mapped somewhere; pages that were not there have
at most one reference. -/
structure Gains (m : Memory) (roots : Set Hpa) (root : Hpa) (n : PageNumber) (p : Hpa)
    (perm : Permission) (m' : Memory) : Prop where
  translation : ∀ r ∈ roots, ∀ n', m'.translation r n' =
    if r = root ∧ n' = n then some (p, perm) else m.translation r n'
  refs : ∀ q ∈ m.pages, q ∈ m'.pages ∧ m'.refs q = m.refs q + if q = p then 1 else 0
  fresh : ∀ q, q ∉ m.pages → m'.refs q ≤ 1

variable {m m' : Memory} {a a' : Account} {e : Estate} {I : Prop} {root p : Hpa} {n : PageNumber}
  {perm : Permission}

theorem mapped_eq_none : m.mapped root n = none ↔ m.translation root n = none :=
  Option.map_eq_none_iff

theorem missing_of_mapped (h : m.mapped root n ≠ none) : m.missing root n = 0 := by
  obtain ⟨q, hq⟩ := Option.ne_none_iff_exists'.1 fun hnone => h (mapped_eq_none.2 hnone)
  obtain ⟨s, hs, -⟩ := Option.bind_eq_some_iff.1 (Shape.translationFrom_eq.symm.trans hq)
  exact missingFrom_of_leafFrom hs

theorem Extends.alike (h : m.Extends a m' a') (ha : m.Sound e I a) :
    m.Alike {r | r ∈ e.roots} m' where
  translation := fun _ hr n => h.translation n (ha.level hr)
  resolve := fun t r hroot hr gpa => by
    have hlevel := ha.level hr
    have hsame : m'.translation r gpa.number = m.translation r gpa.number := h.translation _ hlevel
    rw [Ept.answer_resolve hroot h.balanced (h.level_eq ha.balanced hlevel),
      Ept.answer_resolve hroot ha.balanced hlevel, hsame]
  refs := fun _ hp => ⟨h.live hp, h.refs hp⟩

theorem Maps.gains (h : m.Maps a root n p perm m' a') (ha : m.Sound e I a)
    (hfree : m.mapped root n = none) : m.Gains {r | r ∈ e.roots} root n p perm m' where
  translation := fun _ hr n' => h.translation n' (ha.level hr)
  refs := fun q hq => by
    have hlive := h.live hq
    have hrefs := h.refs hq
    rw [hfree] at hlive hrefs
    exact ⟨hlive.resolve_right (Option.some_ne_none q).symm, by simpa using hrefs⟩
  fresh := fun _ hq => h.fresh hq

end Memory

namespace Guest

open Hypervisor.Action Memory

/-- There is nothing wrong with lending a page: there is one, the guest has a place for it, and the
guest may do something to it, but write only if it may read and the process that lends it may write. -/
structure Lendable (g : Guest) (m : Memory) (source : Hva) (writable : Bool) (gpa : Gpa)
    (perm : Permission) : Prop where
  whole : source.isPageAligned = true
  backed : (m.physical? source).isSome = true
  place : gpa.isPageAligned = true
  inside : gpa.val < g.physSize
  granting : perm.isEmpty = false
  readable : perm.contains Permission.write = true → perm.contains Permission.read = true
  writable : perm.contains Permission.write = true → writable = true

inductive Withholds (g : Guest) (m : Memory) (root : Hpa) (source : Hva) (writable : Bool) (gpa : Gpa)
    (perm : Permission) : VmError → Prop
  | unfit (h : ¬g.Lendable m source writable gpa perm) :
      Withholds g m root source writable gpa perm .invalidArgument
  | occupied (fine : g.Lendable m source writable gpa perm)
      (h : m.translation root gpa.number ≠ none) :
      Withholds g m root source writable gpa perm (.ept .duplicated)
  | exhausted (fine : g.Lendable m source writable gpa perm)
      (vacant : m.translation root gpa.number = none)
      (h : ¬m.Affords (m.missing root gpa.number)) :
      Withholds g m root source writable gpa perm (.ept .outOfMemory)

variable {g : Guest} {m : Memory} {e : Estate} {I : Prop} {F : Panic → Prop} {root : Hpa}
  {source : Hva} {writable : Bool} {gpa : Gpa} {perm : Permission}

instance : Decidable (g.Lendable m source writable gpa perm) :=
  decidable_of_iff
    (source.isPageAligned = true ∧ (m.physical? source).isSome = true ∧ gpa.isPageAligned = true ∧
      gpa.val < g.physSize ∧ perm.isEmpty = false ∧
      (perm.contains Permission.write = true → perm.contains Permission.read = true) ∧
      (perm.contains Permission.write = true → writable = true))
    ⟨fun ⟨h₁, h₂, h₃, h₄, h₅, h₆, h₇⟩ => ⟨h₁, h₂, h₃, h₄, h₅, h₆, h₇⟩,
      fun h => ⟨h.whole, h.backed, h.place, h.inside, h.granting, h.readable, h.writable⟩⟩

/-- Each cause has an error of its own. -/
theorem Withholds.error {e' : VmError} (h : g.Withholds m root source writable gpa perm e') :
    ¬(g.Lendable m source writable gpa perm ∧ m.translation root gpa.number = none ∧
        m.Affords (m.missing root gpa.number)) ∧
      (¬g.Lendable m source writable gpa perm → e' = .invalidArgument) ∧
      (g.Lendable m source writable gpa perm → m.translation root gpa.number ≠ none →
        e' = .ept .duplicated) ∧
      (g.Lendable m source writable gpa perm → m.translation root gpa.number = none →
        ¬m.Affords (m.missing root gpa.number) → e' = .ept .outOfMemory) := by
  cases h with
  | unfit h => exact ⟨fun hall => h hall.1, fun _ => rfl, fun hfine => absurd hfine h,
      fun hfine => absurd hfine h⟩
  | occupied fine h => exact ⟨fun hall => h hall.2.1, fun hunfit => absurd fine hunfit,
      fun _ _ => rfl, fun _ hvacant => absurd hvacant h⟩
  | exhausted fine vacant h => exact ⟨fun hall => h hall.2.2, fun hunfit => absurd fine hunfit,
      fun _ hoccupied => absurd vacant hoccupied, fun _ _ _ => rfl⟩

theorem Lendable.limited (h : g.Lendable m source writable gpa perm) (budget : Option Nat) :
    g.Lendable (m.limited budget) source writable gpa perm :=
  ⟨h.whole, h.backed, h.place, h.inside, h.granting, h.readable, h.writable⟩

theorem lendable_iff (hinside : gpa.val < g.physSize)
    (hwritable : perm.contains Permission.write = true → writable = true) :
    g.Lendable m source writable gpa perm ↔ m.Admits root source gpa perm true :=
  ⟨fun h => ⟨h.whole, h.place, h.granting, h.readable, h.backed, .inr rfl⟩,
    fun h => ⟨h.whole, h.backed, h.place, hinside, h.granting, h.readable, hwritable⟩⟩

/-- A page is lent, or something is wrong and nothing has changed. -/
theorem Lodged.mapFromHost_exact (hg : g.Lodged root e I) (source : Hva) (writable : Bool)
    (gpa : Gpa) (perm : Permission) :
    (g.mapFromHost source writable gpa perm).Safe F m (m.Owned e I)
      (fun _ m' => (g.Lendable m source writable gpa perm ∧ m.translation root gpa.number = none ∧
          m.Affords (m.missing root gpa.number)) ∧
        ∃ p, m.physical? source = some p ∧ m.Gains {r | r ∈ e.roots} root gpa.number p perm m')
      (fun e' m' => g.Withholds m root source writable gpa perm e' ∧
        m.Alike {r | r ∈ e.roots} m') := by
  refine Safe.exists fun a => ?_
  rw [mapFromHost]
  simp only [Permission.and_full]
  refine Safe.require_bind (fun hrequired => Safe.mapError ?_) fun hno _ h => ⟨.unfit fun hlend => ?_, ?_⟩
  swap
  · simp only [hlend.whole, hlend.place, hlend.inside, hlend.granting, decide_true, Bool.not_false,
      Bool.true_and, Bool.or_eq_false_iff, Bool.not_eq_false'] at hno
    exact absurd (hno.2.symm.trans (hlend.writable hno.1)) Bool.false_ne_true
  swap
  · exact (Extends.refl h.balanced).alike h
  simp only [Bool.and_eq_true, decide_eq_true_eq, Bool.or_eq_true, Bool.not_eq_true'] at hrequired
  obtain ⟨⟨⟨⟨hwhole, hplace⟩, hinside⟩, hgranting⟩, hwrite⟩ := hrequired
  have hwritable : perm.contains Permission.write = true → writable = true := fun hw =>
    hwrite.resolve_left fun hno => Bool.false_ne_true (hno.symm.trans hw)
  have hlendable := @lendable_iff g m root source writable gpa perm hinside hwritable
  refine (Ept.map_exact (a := a) hg.root source gpa perm false).mono
    (fun _ h => ⟨h.balanced, h.level hg.mem⟩) ?_ ?_
  · rintro _ m' - - h ⟨haffords, hadmits, a', p, hp, -, hmaps⟩
    have hfree := hadmits.free.resolve_right Bool.false_ne_true
    refine ⟨⟨hlendable.2 ⟨hadmits.whole, hadmits.place, hadmits.granting, hadmits.readable,
      hadmits.backed, .inr rfl⟩, mapped_eq_none.1 hfree, haffords⟩, p, hp, hmaps.gains h hfree⟩
  · rintro e' m' - - h ⟨hfails, a', hext⟩
    refine ⟨?_, hext.alike h⟩
    cases e' with
    | unaligned => exact absurd ⟨hwhole, hplace⟩ hfails
    | emptyPermission => exact absurd (hgranting.symm.trans hfails) Bool.false_ne_true
    | writeWithoutRead =>
        exact .unfit fun hlend => absurd (hfails.2.symm.trans (hlend.readable hfails.1)) Bool.false_ne_true
    | notExist =>
        have hnone : m.physical? source = none := hfails
        exact .unfit fun hlend => by simpa [hnone] using hlend.backed
    | duplicated =>
        exact .occupied (hlendable.2 hfails.1) fun h => hfails.2.1 (mapped_eq_none.2 h)
    | outOfMemory =>
        refine .exhausted (hlendable.2 hfails.1) ?_ hfails.2
        by_contra hmapped
        refine hfails.2 ?_
        rw [missing_of_mapped fun h => hmapped (mapped_eq_none.1 h)]
        exact affords_zero
    | invalidRoot => exact hfails.elim

end Guest

namespace Machine

open Hypervisor.Action Memory

variable {m : Machine} {k : Callers} {i : Nat} {v : Vm} {r : Hpa}

/-- A page is lent to a guest just if nothing is wrong with that, nothing is in its place, and there are
pages for the tables that are missing.  Then the page is mapped there with the permission, and has one
reference more.  Each of the three causes has an error of its own, and with an error everything is mapped
and referred to as before. -/
theorem lending_exact (h : History Command.Lawful m k) (hv : m.vms[i]? = some (some v))
    (hr : v.guest.table.root = some r) (source : Hva) (writable : Bool) (gpa : Gpa)
    (perm : Permission) (budget : Option Nat)
    (hf : ((v.guest.mapFromHost source writable gpa perm).final (m.memory.limited budget)).Fits) :
    let memory := m.memory.limited budget
    let outcome := (v.guest.mapFromHost source writable gpa perm).run memory
    let fine := v.guest.Lendable memory source writable gpa perm
    let vacant := memory.translation r gpa.number = none
    let enough := memory.Affords (memory.missing r gpa.number)
    ((∃ memory', outcome = .ok () memory') ↔ fine ∧ vacant ∧ enough) ∧
      (∀ memory', outcome = .ok () memory' →
        ∃ p, memory.physical? source = some p ∧ memory.Gains m.roots r gpa.number p perm memory') ∧
      (¬fine → ∃ memory', outcome = .error (.error .invalidArgument) memory') ∧
      (fine → ¬vacant → ∃ memory', outcome = .error (.error (.ept .duplicated)) memory') ∧
      (fine → vacant → ¬enough →
        ∃ memory', outcome = .error (.error (.ept .outOfMemory)) memory') ∧
      ∀ stop memory', outcome = .error stop memory' → memory.Alike m.roots memory' := by
  intro memory outcome fine vacant enough
  have hk : m.Orderly k False := h.orderly id False.elim
  obtain ⟨root, hg⟩ := hk.lodged hv
  cases hg.root.symm.trans hr
  have hends := (hg.mapFromHost_exact (F := fun _ => False) (m := memory) source writable gpa
    perm).ends fun hfits => (hk.owned hfits).of_pages_eq rfl rfl
  cases hrun : (v.guest.mapFromHost source writable gpa perm).run (m.memory.limited budget) with
  | ok _ memory' =>
      have hfits : memory'.Fits := by simpa only [Action.final, hrun] using hf
      obtain ⟨⟨hfine, hvacant, henough⟩, hgains⟩ := hends.ok hrun hfits
      refine ⟨iff_of_true ⟨memory', hrun⟩ ⟨hfine, hvacant, henough⟩, fun t ht => ?_,
        fun hno => absurd hfine hno, fun _ hno => absurd hvacant hno,
        fun _ _ hno => absurd henough hno, fun stop t ht => ?_⟩
      · cases hrun.symm.trans ht
        exact hgains
      · cases hrun.symm.trans ht
  | error stop memory' =>
      have hfits : memory'.Fits := by simpa only [Action.final, hrun] using hf
      cases stop with
      | panic p => exact (hends.stop hrun hfits).elim
      | error e =>
          obtain ⟨hwithheld, halike⟩ := hends.error hrun hfits
          obtain ⟨hwrong, hunfit, hoccupied, hexhausted⟩ := hwithheld.error
          have hno : ∀ t, outcome ≠ .ok () t := fun t ht => by cases hrun.symm.trans ht
          have hends : ∀ {e'}, e = e' → ∃ t, outcome = .error (.error e') t :=
            fun heq => ⟨memory', heq ▸ hrun⟩
          refine ⟨iff_of_false (not_exists.2 hno) hwrong, fun t ht => absurd ht (hno t),
            fun h => hends (hunfit h), fun h₁ h₂ => hends (hoccupied h₁ h₂),
            fun h₁ h₂ h₃ => hends (hexhausted h₁ h₂ h₃), fun _ t ht => ?_⟩
          cases hrun.symm.trans ht
          exact halike

def touchesSparsely : List Command :=
  [{ order := .build { physSize := 0x80000000 } },
   { order := .script { event := .eptViolation 0x200000 } }, { order := .run },
   { order := .allocRetained }]

def spare : Hva := ⟨0x1009000 + directMap⟩

/-- The page is lent a gigabyte away from what the guest has touched, for which two tables are missing:
with one page less, nothing is lent. -/
theorem lending_exact_sparse : ∃ m k v, History Command.Lawful m k ∧ m.vms[0]? = some (some v) ∧
    v.guest.table.root = some ⟨0x1000000⟩ ∧
    (∃ memory, (v.guest.mapFromHost spare true ⟨0x40000000⟩ Permission.full).run
        (m.memory.limited (some 1)) = .error (.error (.ept .outOfMemory)) memory ∧
      (m.memory.limited (some 1)).Alike m.roots memory) ∧
    ∃ memory, (v.guest.mapFromHost spare true ⟨0x40000000⟩ Permission.full).run
        (m.memory.limited (some 2)) = .ok () memory ∧
      ∃ p, m.memory.physical? spare = some p ∧
        (m.memory.limited (some 2)).Gains m.roots ⟨0x1000000⟩ 0x40000 p Permission.full memory := by
  have hallowed : ∀ c ∈ touchesSparsely, ∀ m k, c.Lawful m k := Command.forall_lawful rfl
  obtain ⟨m, k, h, hP⟩ := (History.booted uniprocessor_booted).exists_after
    (P := fun m => (m.vms[0]?.join.any fun v : Vm => decide (
      v.guest.table.root = some (⟨0x1000000⟩ : Hpa) ∧
      v.guest.Lendable m.memory spare true ⟨0x40000000⟩ Permission.full ∧
      m.memory.translation ⟨0x1000000⟩ 0x40000 = none ∧ m.memory.missing ⟨0x1000000⟩ 0x40000 = 2 ∧
      ((v.guest.mapFromHost spare true ⟨0x40000000⟩ Permission.full).final
        (m.memory.limited (some 1))).Fits ∧
      ((v.guest.mapFromHost spare true ⟨0x40000000⟩ Permission.full).final
        (m.memory.limited (some 2))).Fits)) = true) hallowed (by decide +kernel)
  obtain ⟨v, hv, hall⟩ := (Option.any_eq_true _ _).1 hP
  obtain ⟨hr, hfine, hvacant, hmissing, hf₁, hf₂⟩ := of_decide_eq_true hall
  have hvm := Option.join_eq_some_iff.1 hv
  have hless : ¬(m.memory.limited (some 1)).Affords (m.memory.missing ⟨0x1000000⟩ 0x40000) := by
    rw [hmissing]
    exact fun h => absurd (h 1 rfl) (by decide)
  have henough : (m.memory.limited (some 2)).Affords (m.memory.missing ⟨0x1000000⟩ 0x40000) := by
    rw [hmissing]
    rintro budget ⟨⟩
    exact Nat.le_refl 2
  obtain ⟨-, -, -, -, hexhausted, hsame⟩ := lending_exact h hvm hr spare true ⟨0x40000000⟩
    Permission.full (some 1) hf₁
  obtain ⟨hlent, hgains, -⟩ := lending_exact h hvm hr spare true ⟨0x40000000⟩ Permission.full
    (some 2) hf₂
  obtain ⟨memory₁, hrun₁⟩ := hexhausted (hfine.limited _) hvacant hless
  obtain ⟨memory₂, hrun₂⟩ := hlent.2 ⟨hfine.limited _, hvacant, henough⟩
  exact ⟨m, k, v, h, hvm, hr, ⟨memory₁, hrun₁, hsame _ _ hrun₁⟩, memory₂, hrun₂, hgains _ hrun₂⟩

def handsOutRoot : List Command :=
  [{ order := .build { physSize := 0x40000000000 } },
   { order := .mapFromHost (.inPage ⟨0x1000000⟩ 0) true ⟨0x6000⟩ Permission.full },
   { order := .setRegisters [(.rax, 1)] }, { order := .script { event := .exit 0x12 } },
   { order := .run }, { order := .allocRetained }]

/-- How lending a page to the first guest stops, if it does. -/
def lendingStops (source : Hva) (gpa : Gpa) (m : Machine) : Option (Stop VmError) :=
  m.vms[0]?.join.bind fun v =>
    match (v.guest.mapFromHost source true gpa Permission.full).run m.memory with
    | .ok _ _ => none
    | .error stop _ => some stop

/-- Where the memory map is read as entries of a table, lending a page can run into a page that is free.
This has no error of its own. -/
theorem lending_past_lost_root : (uniprocessor.after handsOutRoot).bind
    (lendingStops ⟨0x1008000 + directMap⟩ ⟨0x30000000000⟩) =
      some (.panic (.accessToFree ⟨0x1400006000⟩)) := by
  decide +kernel

end Machine

end Hypervisor
