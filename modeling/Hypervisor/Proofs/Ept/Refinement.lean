import Hypervisor.Proofs.Guest.Population
import Hypervisor.Proofs.Host

/-!
# A table is a finite map

To its users a table is a map from page numbers to pages with permissions.  A history of a table is
any sequence of calls on it, mixed with what its users do to pages in between.  Every state of a
history represents a map, and every call changes the map as it should: one that fails leaves the map
alone, but for a population, which keeps the pages that it has backed, and a teardown, which empties
the table also if the flush fails.
-/

namespace Hypervisor.Ept

open Hypervisor.Action Memory

/-- What a table maps. The page numbers are finitely many. -/
abbrev TableMap : Type := PageNumber → Option (Hpa × Permission)

/-- The table finds and resolves each address as the map says. -/
structure Represents (t : Ept) (m : Memory) (M : TableMap) : Prop where
  walk : ∀ g, match M g.number with
    | some (p, perm) => ∃ e, (t.walk g).run m = .ok e m ∧ e.target = some p ∧ e.permission = perm
    | none => (t.walk g).run m = .error (.error .notExist) m
  resolve : ∀ g, (t.resolve g : MemoryM VmError (Option Hva)).run m =
    .ok ((M g.number).map fun mapping =>
      (⟨mapping.1.val + directMap⟩ : Hva).plus g.pageOffset) m

/-- A call on a table, or something that its users do between such calls. -/
inductive Call where
  | lookup (gpa : Gpa) (create : Bool)
  | map (source : Hva) (gpa : Gpa) (perm : Permission) (overwrite : Bool)
  | insertPage (page : Hpa) (gpa : Gpa) (perm : Permission)
  | access (physSize : UInt64) (gpa : Gpa)
  | populateAll (physSize : UInt64)
  | teardown
  | alloc
  | retain (page : Hpa)
  | release (page : Hpa)
  /-- From now on the allocator may fail at another place. -/
  | limit (budget : Option Nat)
  /-- Anything happens to the cpu, so that flushes may begin or cease to fail. -/
  | changeCpu (f : Cpu → Cpu)

namespace Call

def perform (t : Ept) : Call → HostM Unit
  | lookup gpa create => do
      let _ ← Host.onTable (t.lookup gpa create)
  | map source gpa perm overwrite => Host.onTable (t.map source gpa perm overwrite)
  | insertPage page gpa perm => Host.onTable (t.insertPage page gpa perm)
  | access physSize gpa => do
      let _ ← Host.onMemory (t.onAccess physSize gpa)
  | populateAll physSize => Host.onMemory (t.populateAll physSize)
  | teardown => Host.teardown t
  | alloc => do
      let _ ← Host.onMemory Memory.alloc
  | retain page => Host.onMemory (Memory.retain page)
  | release page => Host.onMemory (Memory.release page)
  | limit budget => Host.onMemory (modify fun m => { m with budget := budget })
  | changeCpu f => Host.onCpu f

/-- Pages are live when they are handed over, and only references that were taken are dropped. -/
def Allowed (m : Memory) (held : Hpa → Nat) : Call → Prop
  | insertPage page _ _ => page.pageDown ∈ m.pages
  | retain page => page ∈ m.pages
  | release page => 0 < held page
  | _ => True

/-- The references that the users hold after a call. -/
def held (held : Hpa → Nat) : Call → Hpa → Nat
  | retain page => fun p => held p + if p = page then 1 else 0
  | release page => fun p => held p - if p = page then 1 else 0
  | _ => held

/-- How a call that succeeds changes the map. -/
def Effect (m : Memory) (M M' : TableMap) : Call → Prop
  | map source gpa perm overwrite =>
      (M gpa.number = none ∨ overwrite = true) ∧
        ∃ p, m.physical? source = some p ∧ M' = Function.update M gpa.number (some (p, perm))
  | insertPage page gpa perm =>
      M gpa.number = none ∧ M' = Function.update M gpa.number (some (page, perm))
  | access physSize gpa =>
      match Region.of gpa physSize with
      | .ram => M gpa.number = none ∧ ∃ p, p ∉ m.pages ∧
          M' = Function.update M gpa.number (some (p, Permission.full))
      | .videoBuffer => M gpa.number = none ∧
          M' = Function.update M gpa.number (some (⟨videoBuffer⟩, Permission.full))
      | .unmapped => M' = M
  | populateAll physSize =>
      (∀ n ∈ Region.ramNumbers physSize,
        M n = none ∧ ∃ p, p ∉ m.pages ∧ M' n = some (p, Permission.full)) ∧
      ∀ n ∉ Region.ramNumbers physSize, M' n = M n
  | teardown => M' = fun _ => none
  | _ => M' = M

/-- How a call that fails changes the map. -/
def Failure (m : Memory) (M M' : TableMap) : Call → Prop
  | populateAll physSize =>
      ∀ n, M' n = M n ∨ n ∈ Region.ramNumbers physSize ∧ M n = none ∧
        ∃ p, p ∉ m.pages ∧ M' n = some (p, Permission.full)
  | teardown => M' = fun _ => none
  | _ => M' = M

end Call

/-- Pages lie below the next one to be allocated, and `held` of the references belong to the users of
a table. -/
structure Orderly (m : Memory) (held : Hpa → Nat) : Prop where
  aligned : m.next.toNat % 4096 = 0
  page : ∀ {p}, p ∈ m.pages → p.isPageAligned = true ∧ p.val.toNat < m.next.toNat
  held : ∀ p, held p + reserved p ≤ m.refs p

/-- What can become of a host and of the references that the users hold, from the creation of a table
on. -/
inductive History (t : Ept) : Host → (Hpa → Nat) → Prop
  | created {h₀ h : Host} {held : Hpa → Nat} (orderly : Orderly h₀.memory held)
      (run : (Host.onTable new).run h₀ = .ok t h) : History t h held
  | done {h h' : Host} {held : Hpa → Nat} {call : Call} (before : History t h held)
      (allowed : call.Allowed h.memory held) (run : (call.perform t).run h = .ok () h') :
      History t h' (call.held held)
  | failed {h h' : Host} {held : Hpa → Nat} {call : Call} {e : VmError}
      (before : History t h held) (allowed : call.Allowed h.memory held)
      (run : (call.perform t).run h = .error (.error e) h') : History t h' (call.held held)

/-- A table lives in memory beside whatever else is held there. -/
structure Hosted (m : Memory) (root : Hpa) (held : Hpa → Nat) (a : Account) : Prop where
  balanced : m.Balanced a
  rooted : a.Rooted {root}
  level : a.level root = some 3
  held : ∀ p, (held p + reserved p + if p = root then 1 else 0) ≤ a.held p

variable {m m' : Memory} {a a' : Account} {t : Ept} {root : Hpa} {held : Hpa → Nat}

/-- In a memory that hosts a table, the table represents what its entries translate to. -/
theorem Hosted.represents (h : Hosted m root held a) (hroot : t.root = some root) :
    Represents t m (m.translation root) where
  walk := fun g => by
    have hends := walk_ends (m := m) (g := g) (P := True) hroot fun _ => ⟨h.balanced, h.level⟩
    cases hrun : (t.walk g).run m with
    | ok e m' =>
        obtain ⟨rfl, hmap⟩ := hends.ok hrun
        obtain ⟨hsome, heq⟩ := hmap trivial
        rw [← heq]
        obtain ⟨⟨p, perm⟩, hp⟩ := Option.isSome_iff_exists.1 hsome
        rw [hp]
        exact ⟨e, rfl, Entry.mapping_eq_some.1 hp⟩
    | error stop m' =>
        cases stop with
        | error err =>
            obtain ⟨rfl, hnone⟩ := hends.error hrun
            obtain ⟨rfl, htranslation⟩ := hnone trivial
            rw [htranslation]
        | panic p => exact absurd trivial (hends.stop hrun).2
  resolve := fun g => by
    have hends := resolve_ends (ε := VmError) (m := m) (g := g) (P := True) (E := fun _ _ => False)
      hroot fun _ => ⟨h.balanced, h.level⟩
    cases hrun : (t.resolve g : MemoryM VmError (Option Hva)).run m with
    | ok v m' =>
        obtain ⟨rfl, hv⟩ := hends.ok hrun
        rw [hv trivial]
        rfl
    | error stop m' =>
        cases stop with
        | error err => exact (hends.error hrun).elim
        | panic p => exact absurd trivial (hends.stop hrun).2

namespace Hosted

theorem of_grows (h : Hosted m root held a) (hg : m.Grows a m' a') : Hosted m' root held a' where
  balanced := hg.balanced
  rooted := hg.rooted h.rooted
  level := hg.level_eq h.balanced h.level
  held := fun p => by
    rw [hg.held]
    exact h.held p

theorem videoBuffer_live (h : Hosted m root held a) : ⟨videoBuffer⟩ ∈ m.pages := by
  have hheld := h.held ⟨videoBuffer⟩
  rw [reserved, if_pos rfl] at hheld
  exact h.balanced.held_live (by omega)

theorem of_words_eq (h : Hosted m root held a) {held' : Hpa → Nat} {accounted : Hpa → Nat}
    {idle : Hpa → Prop} (hb : m'.Balanced { a with held := accounted, idle := idle })
    (hheld : ∀ p, (held' p + reserved p + if p = root then 1 else 0) ≤ accounted p)
    (hwords : ∀ t k, a.level t = some k → m'.words t = m.words t) :
    Hosted m' root held' { a with held := accounted, idle := idle } ∧
      m'.translation root = m.translation root := by
  refine ⟨⟨hb, h.rooted, h.level, hheld⟩, ?_⟩
  funext n
  exact h.balanced.translation_eq hwords h.level

theorem of_extends (h : Hosted m root held a) (he : m.Extends a m' a') :
    Hosted m' root held a' ∧ m'.translation root = m.translation root :=
  ⟨h.of_grows he.toGrows, funext fun n => he.translation n h.level⟩

theorem of_maps (h : Hosted m root held a) {n : PageNumber} {p : Hpa} {perm : Permission}
    (hm : m.Maps a root n p perm m' a') : Hosted m' root held a' ∧
      m'.translation root = Function.update (m.translation root) n (some (p, perm)) := by
  refine ⟨h.of_grows hm.toGrows, funext fun n' => ?_⟩
  rw [hm.translation n' h.level, Function.update_apply]
  simp

theorem of_populates (h : Hosted m root held a) {S : Set PageNumber}
    (hp : m.Populates a root S m' a') : Hosted m' root held a' ∧
      (∀ n ∈ S, m.translation root n = none ∧
        ∃ p, p ∉ m.pages ∧ m'.translation root n = some (p, Permission.full)) ∧
      ∀ n ∉ S, m'.translation root n = m.translation root n :=
  ⟨h.of_grows hp.toGrows, fun _ hn => hp.inside hn, fun _ hn => hp.outside hn⟩

theorem of_tornDown (h : Hosted m root held a) (hd : Host.TornDown m a {root} root m') :
    ∃ a', Hosted m' root held a' ∧ m'.translation root = fun _ => none := by
  obtain ⟨a', hshrinks, hrooted, hheld, hempty⟩ := hd
  refine ⟨a', ⟨hshrinks.balanced, hrooted, hshrinks.whole h.level, fun p => ?_⟩,
    funext fun n => Shape.translationFrom_of_empty hempty⟩
  rw [hheld]
  exact h.held p

theorem of_allocates (h : Hosted m root held a) {p : Hpa} (hm : m.Allocates m' p 0) :
    ∃ a', Hosted m' root held a' ∧ m'.translation root = m.translation root := by
  have hb := h.balanced.allocates_count hm (fun q => a.idle q ∨ q = p)
    (fun _ hq => .inl hq) fun _ => .inr rfl
  refine ⟨_, h.of_words_eq hb (fun q => ?_) fun t k ht => ?_⟩
  · have hheld := h.held q
    show _ ≤ a.held q + if q = p then 0 else 0
    omega
  · have hne : t ≠ p := by
      rintro rfl
      exact h.balanced.next_notMem hm.address (h.balanced.table_live ht)
    rw [hm.words, Address.pageDown_of_isPageAligned (h.balanced.table_aligned ht), if_neg hne]

theorem of_retained (h : Hosted m root held a) {p : Hpa} (hp : p ∈ m.pages) :
    ∃ a', Hosted (m.retained p) root (fun q => held q + if q = p then 1 else 0) a' ∧
      (m.retained p).translation root = m.translation root := by
  refine ⟨_, h.of_words_eq (h.balanced.retained hp) (fun q => ?_) fun t k _ => words_retained t⟩
  have hheld := h.held q
  omega

theorem of_released (h : Hosted m root held a) {p : Hpa} (hp : 0 < held p) :
    ∃ a', Hosted (m.released p) root (fun q => held q - if q = p then 1 else 0) a' ∧
      (m.released p).translation root = m.translation root := by
  have hheld := h.held p
  have hb := h.balanced.released (p := p) (by omega) fun k hk hparent => by
    have hroot : p = root := (h.rooted p k hk hparent).2
    rw [if_pos hroot] at hheld
    omega
  refine ⟨_, h.of_words_eq hb (fun q => ?_) fun t k ht => ?_⟩
  · have hq := h.held q
    by_cases he : q = p
    · subst q
      simp only [if_true]
      omega
    · simpa only [Account.drop, he, if_false, Nat.sub_zero] using hq
  · exact words_released (hb.table_pageDown_live ht)

theorem of_pages_eq (h : Hosted m root held a) (hpages : m'.pages = m.pages)
    (hnext : m'.next = m.next) :
    Hosted m' root held a ∧ m'.translation root = m.translation root :=
  h.of_extends (.of_pages_eq h.balanced hpages hnext)

end Hosted

def Follows (root : Hpa) (held : Hpa → Nat) (change : Memory → TableMap → TableMap → Prop)
    (m m' : Memory) : Prop :=
  ∃ a', Hosted m' root held a' ∧ change m (m.translation root) (m'.translation root)

/-- Each call takes a hosted table to a hosted table and has its effect on the map. -/
theorem perform_safe (hroot : t.root = some root) (held : Hpa → Nat) (a : Account) (call : Call)
    (h : Host) :
    (call.perform t).Safe (fun _ => False) h
      (Hosted h.memory root held a ∧ call.Allowed h.memory held)
      (fun _ h' => Follows root (call.held held) (fun m M M' => call.Effect m M M')
        h.memory h'.memory)
      (fun _ h' => Follows root (call.held held) (fun m M M' => call.Failure m M M')
        h.memory h'.memory) := by
  cases call with
  | lookup gpa create =>
      refine Safe.bind (R := fun _ h' => Follows root held (fun _ M M' => M' = M) h.memory h'.memory)
        ?_ fun _ h' => Safe.pure fun _ hp => hp.2
      refine Host.onTable_safe ((lookup_safe (a := a) hroot).mono
        (fun _ hp => ⟨hp.1.balanced, hp.1.level⟩) ?_ ?_)
      · rintro s m' - - ⟨hh, -⟩ ⟨a', hext, -⟩
        exact ⟨a', hh.of_extends hext⟩
      · rintro e m' - - ⟨hh, -⟩ ⟨a', hext⟩
        exact ⟨a', hh.of_extends hext⟩
  | map source gpa perm overwrite =>
      refine Host.onTable_safe ((map_safe (a := a) hroot source gpa perm overwrite).mono
        (fun _ hp => ⟨hp.1.balanced, hp.1.level⟩) ?_ ?_)
      · rintro _ m' - - ⟨hh, -⟩ ⟨a', p, hp, -, hfree, hmaps⟩
        obtain ⟨hh', hmap⟩ := hh.of_maps hmaps
        rw [mapped, Option.map_eq_none_iff] at hfree
        exact ⟨a', hh', hfree, p, hp, hmap⟩
      · rintro e m' - - ⟨hh, -⟩ ⟨a', hext⟩
        exact ⟨a', hh.of_extends hext⟩
  | insertPage page gpa perm =>
      refine Host.onTable_safe ((insertPage_safe (a := a) hroot page gpa perm).mono
        (fun _ hp => ⟨hp.1.balanced, hp.1.level, hp.2⟩) ?_ ?_)
      · rintro _ m' - - ⟨hh, -⟩ ⟨a', -, hfree, hmaps⟩
        obtain ⟨hh', hmap⟩ := hh.of_maps hmaps
        rw [mapped, Option.map_eq_none_iff] at hfree
        exact ⟨a', hh', hfree, hmap⟩
      · rintro e m' - - ⟨hh, -⟩ ⟨a', hext⟩
        exact ⟨a', hh.of_extends hext⟩
  | access physSize gpa =>
      refine Safe.bind (R := fun _ h' => Follows root held
        (fun m M M' => (Call.access physSize gpa).Effect m M M') h.memory h'.memory)
        ?_ fun _ h' => Safe.pure fun _ hp => hp.2
      refine Host.onMemory_safe ((onAccess_safe (a := a) hroot physSize).mono
        (fun _ hp => ⟨hp.1.balanced, hp.1.level, hp.1.videoBuffer_live⟩) ?_ ?_)
      · rintro fault m' - - ⟨hh, -⟩ ⟨a', haccess⟩
        cases haccess with
        | ram hregion hpop =>
            obtain ⟨hh', hin, hout⟩ := hh.of_populates hpop
            obtain ⟨hnone, p, hp, hmap⟩ := hin gpa.number rfl
            refine ⟨a', hh', ?_⟩
            simp only [Call.Effect, hregion]
            refine ⟨hnone, p, hp, funext fun n => ?_⟩
            rw [Function.update_apply]
            split_ifs with hn
            · rw [hn, hmap]
            · exact hout n hn
        | videoBuffer hregion hfree hmaps =>
            obtain ⟨hh', hmap⟩ := hh.of_maps hmaps
            rw [mapped, Option.map_eq_none_iff] at hfree
            refine ⟨a', hh', ?_⟩
            simp only [Call.Effect, hregion]
            exact ⟨hfree, hmap⟩
        | unmapped hregion =>
            refine ⟨a, hh, ?_⟩
            simp only [Call.Effect, hregion]
      · rintro e m' - - ⟨hh, -⟩ ⟨a', hext⟩
        exact ⟨a', hh.of_extends hext⟩
  | populateAll physSize =>
      refine Host.onMemory_safe ((populateAll_safe (a := a) hroot physSize).mono
        (fun _ hp => ⟨hp.1.balanced, hp.1.level⟩) ?_ ?_)
      · rintro _ m' - - ⟨hh, -⟩ ⟨a', hpop⟩
        exact ⟨a', hh.of_populates hpop⟩
      · rintro e m' - - ⟨hh, -⟩ ⟨a', S, hS, hpop⟩
        obtain ⟨hh', hin, hout⟩ := hh.of_populates hpop
        refine ⟨a', hh', fun n => ?_⟩
        by_cases hn : n ∈ S
        · exact .inr ⟨hS hn, hin n hn⟩
        · exact .inl (hout n hn)
  | teardown =>
      refine (Host.teardown_safe (a := a) {root} hroot).mono ?_ ?_ ?_
      · rintro - ⟨hh, -⟩
        exact ⟨hh.balanced, hh.rooted, rfl, hh.level⟩
      · rintro _ h' - - ⟨hh, -⟩ hdown
        exact hh.of_tornDown hdown
      · rintro _ h' - - ⟨hh, -⟩ hdown
        exact hh.of_tornDown hdown
  | alloc =>
      refine Safe.bind (R := fun _ h' => Follows root held (fun _ M M' => M' = M) h.memory h'.memory)
        ?_ fun _ h' => Safe.pure fun _ hp => hp.2
      refine Host.onMemory_safe (Safe.last (alloc_bind ?_ ?_))
      · intro m' hpages hnext
        exact Safe.pure fun _ hp => ⟨a, hp.1.of_pages_eq hpages hnext⟩
      · intro m' p hm
        exact Safe.pure fun _ hp => hp.1.of_allocates hm
  | retain page =>
      refine Host.onMemory_safe (Safe.last (retain_bind (fun hp => hp.2) ?_))
      exact Safe.pure fun _ hp => hp.1.of_retained hp.2
  | release page =>
      refine Host.onMemory_safe (Safe.last (release_bind (fun hp => ?_) ?_))
      · have hheld := hp.1.held page
        have hle := hp.1.balanced.held_le_refs page
        have hpos : 0 < held page := hp.2
        omega
      · exact Safe.pure fun _ hp => hp.1.of_released hp.2
  | limit budget =>
      refine Host.onMemory_safe (Safe.last (Safe.modify_bind rfl (Safe.pure fun _ hp => ?_)))
      exact ⟨a, hp.1.of_pages_eq rfl rfl⟩
  | changeCpu f =>
      refine Safe.last (Safe.modify_bind rfl (Safe.pure fun _ hp => ?_))
      exact ⟨a, hp.1, rfl⟩

/-- A new table is hosted by any orderly memory. -/
theorem new_hosted {h₀ h : Host} (horderly : Orderly h₀.memory held)
    (hrun : (Host.onTable new).run h₀ = .ok t h) (hf : h.memory.Fits) :
    ∃ root a, t.root = some root ∧ Hosted h.memory root held a := by
  have hb : h₀.memory.Balanced ⟨fun _ => none, fun _ => none, h₀.memory.refs, fun _ => True⟩ := by
    refine ⟨horderly.aligned, horderly.page, ⟨?_, ?_, ?_, ?_⟩, fun q => ?_, ?_, fun _ _ => trivial⟩
    · intro q k hq
      cases hq
    · intro s k q hs
      cases hs
    · intro s q hq
      cases hq
    · intro s k hs
      cases hs
    · simp [Account.linked, Account.leaves]
    · intro q k hq
      cases hq
  have hsafe : (Host.onTable new).Safe (fun _ => False) h₀ True
      (fun t h => ∃ root a, t.root = some root ∧ Hosted h.memory root held a) fun _ _ => True := by
    refine Host.onTable_safe ?_
    rw [new]
    refine allocRetained_bind (fun m₁ _ _ => Safe.fail fun _ _ => trivial) fun m₁ p hm => ?_
    refine Safe.orFail_bind (fun q hq => Safe.pure fun _ _ => ?_) fun h => absurd h (Option.some_ne_none _)
    cases hq
    have hp := hm.mem.2 (.inl rfl)
    have hb₁ := hb.allocates hm
    have hzero : m₁.words p = .zero := by
      rw [hm.words, Address.pageDown_of_isPageAligned (hb₁.page hp).1, if_pos rfl]
    have hheld : ∀ q, held q + reserved q + (if q = p then 1 else 0) ≤
        h₀.memory.refs q + if q = p then 1 else 0 := by
      intro q
      have hq := horderly.held q
      omega
    refine ⟨p, _, rfl, hb₁.plant (k := 3) (by decide) ?_ rfl hzero, ?_, ?_, hheld⟩
    · simp [Account.hold]
    · intro q k hq _
      by_cases hqp : q = p
      · simp only [Account.plant, hqp, if_true, Option.some.injEq] at hq
        exact ⟨hq.symm, hqp⟩
      · simp [Account.plant, Account.hold, hqp] at hq
    · simp [Account.plant]
  exact (hsafe.of_ok hrun hf).2 trivial

/-- A table that was created has a root. -/
theorem History.exists_root {h : Host} (hist : History t h held) : ∃ root, t.root = some root := by
  induction hist with
  | @created h₀ h held orderly run =>
      have hends : (Host.onTable new).Ends h₀ (fun t _ => ∃ root, t.root = some root)
          (fun _ _ => True) fun _ _ => True := by
        simp only [Host.onTable, Host.onMemory, Host.onPlatform, Platform.onMemory, ends_onPart,
          ends_mapError, new, ends_bind]
        refine allocRetained_ends (fun _ _ _ => trivial) fun _ p _ => ?_
        rw [ends_orFail]
        exact ⟨p, rfl⟩
      exact hends.ok run
  | done _ _ _ ih => exact ih
  | failed _ _ _ ih => exact ih

/-- As long as addresses fit, every state of a history hosts the table. -/
theorem History.hosted {h : Host} (hist : History t h held) (hroot : t.root = some root)
    (hf : h.memory.Fits) : ∃ a, Hosted h.memory root held a := by
  induction hist with
  | created orderly run =>
      obtain ⟨r, a, hr, hh⟩ := new_hosted orderly run hf
      cases hroot.symm.trans hr
      exact ⟨a, hh⟩
  | @done h h' held call before allowed run ih =>
      have hbefore := (perform_safe hroot held default call h).of_ok run hf
      obtain ⟨a, hh⟩ := ih hbefore.1
      obtain ⟨a', hh', -⟩ := ((perform_safe hroot held a call h).of_ok run hf).2 ⟨hh, allowed⟩
      exact ⟨a', hh'⟩
  | @failed h h' held call e before allowed run ih =>
      have hbefore := (perform_safe hroot held default call h).of_error run hf
      obtain ⟨a, hh⟩ := ih hbefore.1
      obtain ⟨a', hh', -⟩ := ((perform_safe hroot held a call h).of_error run hf).2 ⟨hh, allowed⟩
      exact ⟨a', hh'⟩

/-- Every state of a history represents a finite map, and every call on the table has its effect on
the map: no call panics, one that fails leaves the map alone, and a mapping changes it at one page
number only. -/
theorem history_refines_map {h : Host} (hist : History t h held) (hf : h.memory.Fits) :
    ∃ M, Represents t h.memory M ∧ ∀ call : Call, call.Allowed h.memory held →
      (call.perform t).Ends h
        (fun _ h' => h'.memory.Fits →
          ∃ M', Represents t h'.memory M' ∧ call.Effect h.memory M M')
        (fun _ h' => h'.memory.Fits →
          ∃ M', Represents t h'.memory M' ∧ call.Failure h.memory M M')
        (fun _ h' => ¬h'.memory.Fits) := by
  obtain ⟨root, hroot⟩ := hist.exists_root
  obtain ⟨a, hh⟩ := hist.hosted hroot hf
  refine ⟨h.memory.translation root, hh.represents hroot, fun call hallowed => ?_⟩
  refine Ends.mono (perform_safe hroot held a call h) ?_ ?_ ?_
  · intro _ h' hleads hf'
    obtain ⟨a', hh', heffect⟩ := hleads.holds hf' ⟨hh, hallowed⟩
    exact ⟨_, hh'.represents hroot, heffect⟩
  · intro _ h' hleads hf'
    obtain ⟨a', hh', hfailure⟩ := hleads.holds hf' ⟨hh, hallowed⟩
    exact ⟨_, hh'.represents hroot, hfailure⟩
  · intro _ h' hleads hf'
    exact hleads.holds hf' ⟨hh, hallowed⟩

def found (t : Ept) (m : Memory) (g : Gpa) : Option (Hpa × Permission) :=
  match (t.walk g).run m with
  | .ok e _ => e.target.map fun p => (p, e.permission)
  | .error _ _ => none

theorem Represents.eq_found {M : TableMap} (h : Represents t m M) (g : Gpa) :
    M g.number = t.found m g := by
  have hwalk := h.walk g
  cases hM : M g.number with
  | none =>
      rw [hM] at hwalk
      rw [found, hwalk]
  | some mapping =>
      rw [hM] at hwalk
      obtain ⟨e, hrun, htarget, hperm⟩ := hwalk
      rw [found, hrun]
      dsimp only
      rw [htarget, hperm]
      rfl

def after (t : Ept) : List Call → Host → Option (List Bool × Host)
  | [], h => some ([], h)
  | call :: rest, h =>
      match (call.perform t).run h with
      | .ok _ h' => (t.after rest h').map fun r => (true :: r.1, r.2)
      | .error (.error _) h' => (t.after rest h').map fun r => (false :: r.1, r.2)
      | .error (.panic _) _ => none

theorem History.after {calls : List Call} {h h' : Host} {successes : List Bool}
    (hist : History t h held) (hallowed : ∀ call ∈ calls, ∀ m held, call.Allowed m held)
    (hrun : t.after calls h = some (successes, h')) : ∃ held', History t h' held' := by
  induction calls generalizing h held successes with
  | nil =>
      cases hrun
      exact ⟨held, hist⟩
  | cons call rest ih =>
      have hcall : call.Allowed h.memory held := hallowed call List.mem_cons_self _ _
      have hrest : ∀ call ∈ rest, ∀ m held, call.Allowed m held := fun call hc =>
        hallowed call (List.mem_cons_of_mem _ hc)
      rw [Ept.after] at hrun
      split at hrun
      · obtain ⟨r, hr, heq⟩ := Option.map_eq_some_iff.1 hrun
        cases heq
        exact ih (.done hist hcall ‹_›) hrest hr
      · obtain ⟨r, hr, heq⟩ := Option.map_eq_some_iff.1 hrun
        cases heq
        exact ih (.failed hist hcall ‹_›) hrest hr
      · cases hrun

theorem History.torn_down {h : Host} (hist : History t h held)
    (hends : (Call.teardown.perform t).Ends h (fun _ _ => True) (fun _ _ => True) fun _ _ => False) :
    History t ((Call.teardown.perform t).final h) held := by
  cases hrun : (Call.teardown.perform t).run h with
  | ok _ h' =>
      have hdone : History t h' (Call.teardown.held held) := .done hist trivial hrun
      rw [Action.final, hrun]
      exact hdone
  | error stop h' =>
      cases stop with
      | error e =>
          have hfailed : History t h' (Call.teardown.held held) := .failed hist trivial hrun
          rw [Action.final, hrun]
          exact hfailed
      | panic p => exact (hends.stop hrun).elim

/-- A page is mapped, replaced by another one and not replaced again.  The guest touches an address, and
then another one when no page is left. -/
def replaces : List Call :=
  let page (p : UInt64) : Hva := ⟨p + directMap⟩
  [.alloc, .alloc, .map (page 0x1001000) ⟨0x5000⟩ .full false,
   .map (page 0x1002000) ⟨0x5000⟩ .read true, .map (page 0x1002000) ⟨0x5000⟩ .full false,
   .access 0x1000000 ⟨0x3000⟩, .limit (some 0), .access 0x1000000 ⟨0x4000⟩]

def furnished : Host := (Host.onTable new).final { cpu := { id := 0 } }

theorem furnished_history : History ⟨some ⟨0x1000000⟩⟩ furnished fun _ => 0 := by
  have horderly : Orderly Memory.fresh fun _ => 0 := by
    refine ⟨by decide, fun {p} hp => ?_, fun p => ?_⟩
    · rw [mem_fresh] at hp
      subst hp
      decide
    · rw [refs_fresh, reserved, Nat.zero_add]
  have hrun : (Host.onTable new).run { cpu := { id := 0 } } = .ok ⟨some ⟨0x1000000⟩⟩ furnished := rfl
  exact .created horderly hrun

/-- The map of the table knows the page that was put in the place of the first one and the page that backs
the first address, and it is empty when the table has been torn down. -/
theorem history_refines_map_torn_down : ∃ (t : Ept) (h h' : Host) (held : Hpa → Nat) (M M' : TableMap),
    t.after replaces furnished = some ([true, true, true, true, false, true, true, false], h) ∧
    History t h held ∧ h.memory.Fits ∧ Represents t h.memory M ∧
    M 3 = some (⟨0x1006000⟩, .full) ∧ M 4 = none ∧ M 5 = some (⟨0x1002000⟩, .read) ∧
    h' = (Call.teardown.perform t).final h ∧ History t h' held ∧ h'.memory.Fits ∧
    Represents t h'.memory M' ∧ ∀ g : Gpa, M' g.number = none := by
  have hrun : ((Ept.after ⟨some ⟨0x1000000⟩⟩ replaces furnished).any fun r => decide (
      r.1 = [true, true, true, true, false, true, true, false] ∧ r.2.memory.Fits ∧
      Ept.found ⟨some ⟨0x1000000⟩⟩ r.2.memory ⟨0x3000⟩ = some (⟨0x1006000⟩, .full) ∧
      Ept.found ⟨some ⟨0x1000000⟩⟩ r.2.memory ⟨0x4000⟩ = none ∧
      Ept.found ⟨some ⟨0x1000000⟩⟩ r.2.memory ⟨0x5000⟩ = some (⟨0x1002000⟩, .read))) = true := by
    decide +kernel
  obtain ⟨⟨successes, h⟩, hafter, hP⟩ := (Option.any_eq_true _ _).1 hrun
  obtain ⟨rfl, hf, hthird, hfourth, hfifth⟩ := of_decide_eq_true hP
  have hallowed : ∀ call ∈ replaces, ∀ m held, call.Allowed m held := by
    intro call hc m held
    simp only [replaces, List.mem_cons, List.not_mem_nil, or_false] at hc
    rcases hc with rfl | rfl | rfl | rfl | rfl | rfl | rfl | rfl <;> exact trivial
  obtain ⟨held, hist⟩ := furnished_history.after hallowed hafter
  obtain ⟨M, hM, hcalls⟩ := history_refines_map hist hf
  have hdown := (hcalls .teardown trivial).and (Host.teardown_next _ h)
  have hfits : ∀ {m : Memory}, m.next = h.memory.next → m.Fits := fun hnext => by
    rw [Memory.Fits, hnext]
    exact hf
  have hist' := hist.torn_down <| hdown.mono (fun _ _ _ => trivial) (fun _ _ _ => trivial)
    fun _ _ hp => hp.1 (hfits hp.2)
  have hf' : ((Call.teardown.perform ⟨some ⟨0x1000000⟩⟩).final h).memory.Fits :=
    hfits (Host.teardown_next _ h).final
  obtain ⟨M', hM', -⟩ := history_refines_map hist' hf'
  have hempty : Represents ⟨some ⟨0x1000000⟩⟩
      ((Call.teardown.perform ⟨some ⟨0x1000000⟩⟩).final h).memory fun _ => none := by
    refine Ends.final (P := fun h' => Represents _ h'.memory fun _ => none) <| hdown.mono ?_ ?_ ?_
    · rintro _ h' ⟨hdone, hnext⟩
      obtain ⟨_, hM', rfl⟩ := hdone (hfits hnext)
      exact hM'
    · rintro _ h' ⟨hfailed, hnext⟩
      obtain ⟨_, hM', rfl⟩ := hfailed (hfits hnext)
      exact hM'
    · rintro _ h' ⟨hnot, hnext⟩
      exact absurd (hfits hnext) hnot
  refine ⟨_, h, _, held, M, M', hafter, hist, hf, hM, ?_, ?_, ?_, rfl, hist', hf', hM', fun g => ?_⟩
  · exact (hM.eq_found ⟨0x3000⟩).trans hthird
  · exact (hM.eq_found ⟨0x4000⟩).trans hfourth
  · exact (hM.eq_found ⟨0x5000⟩).trans hfifth
  · exact (hM'.eq_found g).trans (hempty.eq_found g).symm

end Hypervisor.Ept
