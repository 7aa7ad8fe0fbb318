import Hypervisor.Proofs.Ept.Reachable
import Hypervisor.Proofs.Ept.Teardown
import Hypervisor.Proofs.Ept.Translation

/-!
# The visits of a sweep

A sweep of a tree is followed visit by visit.  It gives back each leaf and each table below the root
once, and is done with a table page before it gives the page back.
-/

namespace Hypervisor.Ept

open Hypervisor.Action Memory

/-- A table page is given back after all of its entries were read, and no entry of a page is visited
after the page was given back. -/
def InOrder (tables : Set Hpa) (visits : List Visit) : Prop :=
  ∀ before p after, visits = before ++ .release p :: after →
    (p ∈ tables → ∀ i, .read ⟨p, i⟩ ∈ before) ∧ ∀ i, .read ⟨p, i⟩ ∉ after ∧ .clear ⟨p, i⟩ ∉ after

variable {tables : Set Hpa} {visits : List Visit} {visit : Visit}

theorem InOrder.concat (h : InOrder tables visits)
    (hslot : ∀ s, visit = .read s ∨ visit = .clear s → .release s.table ∉ visits)
    (hrelease : ∀ p, visit = .release p → p ∈ tables → ∀ i, .read ⟨p, i⟩ ∈ visits) :
    InOrder tables (visits ++ [visit]) := by
  intro before p after heq
  rcases List.eq_nil_or_concat after with rfl | ⟨after, last, rfl⟩
  · obtain ⟨rfl, hvisit⟩ := List.append_inj' heq rfl
    refine ⟨fun hp => hrelease p (List.head_eq_of_cons_eq hvisit) hp, fun i => ?_⟩
    exact ⟨List.not_mem_nil, List.not_mem_nil⟩
  · have heq' : visits ++ [visit] = (before ++ .release p :: after) ++ [last] := by
      rw [heq, List.append_assoc, List.concat_eq_append, List.cons_append]
    obtain ⟨rfl, hlast⟩ := List.append_inj' heq' rfl
    obtain ⟨hbefore, hafter⟩ := h before p after rfl
    have hmem : Visit.release p ∈ before ++ .release p :: after := by simp
    refine ⟨hbefore, fun i => ?_⟩
    rw [List.concat_eq_append, ← hlast, List.mem_append, List.mem_append, List.mem_singleton,
      List.mem_singleton]
    constructor
    · rintro (hread | hread)
      · exact (hafter i).1 hread
      · exact hslot ⟨p, i⟩ (.inl hread.symm) hmem
    · rintro (hclear | hclear)
      · exact (hafter i).2 hclear
      · exact hslot ⟨p, i⟩ (.inr hclear.symm) hmem

theorem InOrder.read {s : Slot} (h : InOrder tables visits) (hs : .release s.table ∉ visits) :
    InOrder tables (visits ++ [.read s]) := by
  refine h.concat ?_ nofun
  rintro s' (heq | heq)
  · cases heq
    exact hs
  · cases heq

theorem InOrder.clear {s : Slot} (h : InOrder tables visits) (hs : .release s.table ∉ visits) :
    InOrder tables (visits ++ [.clear s]) := by
  refine h.concat ?_ nofun
  rintro s' (heq | heq)
  · cases heq
  · cases heq
    exact hs

theorem InOrder.release {p : Hpa} (h : InOrder tables visits)
    (hp : p ∈ tables → ∀ i, .read ⟨p, i⟩ ∈ visits) : InOrder tables (visits ++ [.release p]) := by
  refine h.concat ?_ ?_
  · rintro s (heq | heq) <;> cases heq
  · rintro p' heq
    cases heq
    exact hp

/-- What the record of a sweep shows: each reference that is gone was given back in a visit, the
entries before a position were read, and the tables that are left were not given back. -/
structure Traced (m : Memory) (a : Account) (st : Stage) : Prop where
  refs : ∀ p, st.done.memory.refs p + st.done.visits.count (.release p) = m.refs p
  read : ∀ here ∈ st.positions, ∀ i : Fin wordsPerPage, i.val < here.next →
    .read ⟨here.table, i⟩ ∈ st.done.visits
  pending : ∀ {q k}, st.account.level q = some k → .release q ∉ st.done.visits
  order : InOrder {q | (a.level q).isSome} st.done.visits

namespace Traced

variable {m : Memory} {a : Account} {roots : Set Hpa} {root : Hpa} {st st' : Stage}

theorem start : Traced m a ⟨[⟨root, 0⟩], ⟨m, []⟩, a⟩ where
  refs := fun _ => rfl
  read := by
    intro here hmem i hi
    cases List.mem_singleton.1 hmem
    exact absurd hi (Nat.not_lt_zero _)
  pending := fun _ => List.not_mem_nil
  order := by
    intro before p after heq
    cases before <;> cases heq

theorem read_next {here : Position} {outer : List Position} (hi : here.next < wordsPerPage)
    (hread : ∀ p ∈ here :: outer, ∀ i : Fin wordsPerPage, i.val < p.next →
      .read ⟨p.table, i⟩ ∈ visits)
    (p : Position) (hp : p ∈ { here with next := here.next + 1 } :: outer) (i : Fin wordsPerPage)
    (hlt : i.val < p.next) :
    .read ⟨p.table, i⟩ ∈ visits ++ [.read ⟨here.table, ⟨here.next, hi⟩⟩] := by
  rcases List.mem_cons.1 hp with rfl | hp
  · rcases Nat.lt_succ_iff_lt_or_eq.1 hlt with hlt | heq
    · exact List.mem_append_left _ (hread here List.mem_cons_self i hlt)
    · rw [show i = ⟨here.next, hi⟩ from Fin.ext heq]
      exact List.mem_append_right _ (List.mem_singleton_self _)
  · exact List.mem_append_left _ (hread p (List.mem_cons_of_mem _ hp) i hlt)

theorem advance (houtside : ∀ {s p k}, a.level s.table = some 0 → (m.entry s).target = some p →
      a.level p ≠ some k) (hu : Underway m a roots root st) (h : Traced m a st)
    (hst : Advances st st') : Traced m a st' := by
  cases hst with
  | @skip here outer o a₁ hi htarget =>
      obtain ⟨hrefs, hread, hpending, horder⟩ := h
      have hhere := hpending hu.sweeping.here_level.1
      refine ⟨fun p => ?_, read_next hi hread, fun hq => ?_, horder.read hhere⟩
      · simpa using hrefs p
      · simpa using hpending hq
  | @enter here outer o a₁ page hi hlen htarget =>
      obtain ⟨hrefs, hread, hpending, horder⟩ := h
      have hhere := hpending hu.sweeping.here_level.1
      refine ⟨fun p => ?_, fun p hp i hlt => ?_, fun hq => ?_,
        (horder.read hhere).clear (by simpa using hhere)⟩
      · simpa using hrefs p
      · rcases List.mem_cons.1 hp with rfl | hp
        · exact absurd hlt (Nat.not_lt_zero _)
        · exact List.mem_append_left _ (read_next hi hread p hp i hlt)
      · simpa using hpending hq
  | @unmap here outer o a₁ page hi hlen htarget =>
      obtain ⟨hrefs, hread, hpending, horder⟩ := h
      have hlevel := hu.sweeping.here_level.1
      have hhere := hpending hlevel
      -- The page that is given back was in a leaf from the start, so it is no table.
      have hbottom : a₁.level here.table = some 0 := by
        rw [hlevel]
        have hle : ¬outer.length < 3 := hlen
        congr 1
        omega
      have hpage : a.level page = none := by
        refine Option.eq_none_iff_forall_ne_some.2 fun k => ?_
        exact houtside (s := ⟨here.table, ⟨here.next, hi⟩⟩) (hu.shrinks.level hbottom)
          (hu.shrinks.target (s := ⟨here.table, ⟨here.next, hi⟩⟩) hbottom htarget)
      have hheld : 0 < o.memory.refs page :=
        hu.sweeping.balanced.refs_pos_of_target (s := ⟨here.table, ⟨here.next, hi⟩⟩) hlevel htarget
      refine ⟨fun p => ?_, fun p hp i hlt => ?_, fun {q k} hq => ?_,
        ((horder.read hhere).clear (by simpa using hhere)).release fun hp => ?_⟩
      · have hp := hrefs p
        simp only [refs_released, refs_stored, List.count_append, List.count_singleton,
          beq_iff_eq, Visit.release.injEq, reduceCtorEq, if_false, eq_comm (a := page)] at hp ⊢
        split_ifs with he
        · subst p
          omega
        · omega
      · exact List.mem_append_left _ (List.mem_append_left _ (read_next hi hread p hp i hlt))
      · have hne : q ≠ page := by
          rintro rfl
          cases hpage.symm.trans (hu.shrinks.level hq)
        simpa [hne] using hpending hq
      · rw [Set.mem_ofPred_eq, hpage] at hp
        cases hp
  | @leave here outer o a₁ hi hne =>
      obtain ⟨hrefs, hread, hpending, horder⟩ := h
      have hlevel := hu.sweeping.here_level.1
      have hheld : 0 < o.memory.refs here.table :=
        hu.sweeping.balanced.refs_pos_of_level hlevel
      refine ⟨fun p => ?_, fun p hp i hlt => ?_, fun {q k} hq => ?_, horder.release fun _ i => ?_⟩
      · have hp := hrefs p
        simp only [refs_released, List.count_append, List.count_singleton, beq_iff_eq,
          Visit.release.injEq, eq_comm (a := here.table)] at hp ⊢
        split_ifs with he
        · subst p
          omega
        · omega
      · exact List.mem_append_left _ (hread p (List.mem_cons_of_mem _ hp) i hlt)
      · have hq' : q ≠ here.table ∧ a₁.level q = some k := by
          by_cases he : q = here.table
          · simp [Account.fell, Account.drop, he] at hq
          · exact ⟨he, by simpa [Account.fell, Account.drop, he] using hq⟩
        simpa [hq'.1] using hpending hq'.2
      · exact hread here List.mem_cons_self i (by omega)

end Traced

open Classical in
/-- What clearing the tree under a root has done, with the visits on record: each leaf and each table
below the root was given back once, and the root is left as an empty table. -/
structure ClearedInOrder (m : Memory) (root : Hpa) (o : Observed) : Prop where
  releases : ∀ p, o.visits.count (.release p) =
    m.leavesOf {root} p + if m.Intermediate {root} p then 1 else 0
  refs : ∀ p, (o.memory.refs p + (m.leavesOf {root} p + if m.Intermediate {root} p then 1 else 0)) =
    m.refs p
  order : InOrder {p | m.Intermediate {root} p} o.visits
  live : root ∈ o.memory.pages
  empty : ∀ i, o.memory.entry ⟨root, i⟩ = .empty
  resolve : ∀ {ε : Type} {t : Ept} (g : Gpa), t.root = some root →
    (t.resolve g : MemoryM ε (Option Hva)).run o.memory = .ok none o.memory

variable {m : Memory} {root : Hpa} {ε : Type}

theorem resolve_of_empty {a : Account} {t : Ept} (hroot : t.root = some root) (h : m.Balanced a)
    (hlevel : a.level root = some 3) (hempty : ∀ i, m.entry ⟨root, i⟩ = .empty) (g : Gpa) :
    (t.resolve g : MemoryM ε (Option Hva)).run m = .ok none m := by
  have hends := resolve_ends (ε := ε) (m := m) (g := g) (P := True) (E := fun _ _ => False) hroot
    fun _ => ⟨h, hlevel⟩
  have hnone : m.translation root g.number = none := Shape.translationFrom_of_empty hempty
  cases hrun : (t.resolve g : MemoryM ε (Option Hva)).run m with
  | ok v m' =>
      obtain ⟨rfl, hv⟩ := hends.ok hrun
      rw [hv trivial, hnone]
      rfl
  | error stop m' =>
      cases stop with
      | error e => exact (hends.error hrun).elim
      | panic p => exact absurd trivial (hends.stop hrun).2

/-- A sweep of a tree ends, and has cleared it in order. -/
theorem sweep_clears_in_order (h : m.Tree root) :
    ∃ o, (Observed.recording.sweep [⟨root, 0⟩] : Action Observed ε Unit).run ⟨m, []⟩ = .ok () o ∧
      ClearedInOrder m root o := by
  classical
  have hb := h.standing.account_balanced
  have hrooted := h.standing.account_rooted
  have hlevel := h.standing.account_root
  have hroots : ∀ r ∈ ({root} : Set Hpa), (Tree.account m root).level r = some 3 := by
    rintro r rfl
    exact hlevel
  have hsweeping : ∀ {st}, Underway m (Tree.account m root) {root} root st ∧
      Traced m (Tree.account m root) st →
        Sweeping st.done.memory st.account {root} root st.positions := fun hst => hst.1.sweeping
  have hfinishes := Observed.sweep_finishes (ε := ε) hsweeping
    (fun hst hround => ⟨hst.1.advance hround, hst.2.advance (fun hs ht hp =>
      h.outside (h.standing.account_level.1 hs) ht (h.standing.account_level.1 hp)) hst.1 hround⟩)
    [⟨root, 0⟩] ⟨m, []⟩ (Tree.account m root)
  have hstart := Underway.start hb hrooted rfl hlevel
  cases hrun : (Observed.recording.sweep [⟨root, 0⟩] : Action Observed ε Unit).run ⟨m, []⟩ with
  | error stop o =>
      cases stop with
      | error e => exact ((Ends.error hfinishes hrun).2 ⟨hstart, .start⟩).elim
      | panic p => exact ((Ends.stop hfinishes hrun).2 ⟨hstart, .start⟩).elim
  | ok _ o =>
      obtain ⟨-, hdone⟩ := Ends.ok hfinishes hrun
      obtain ⟨here, a', ⟨hunderway, htraced⟩, hend⟩ := hdone ⟨hstart, .start⟩
      obtain ⟨hshrinks, hrooted', hheld, hempty⟩ := hunderway.finish hend
      have hlevel' := hshrinks.whole hlevel
      have hrefs : ∀ p, (o.memory.refs p + (m.leavesOf {root} p +
          if m.Intermediate {root} p then 1 else 0)) = m.refs p := by
        intro p
        rw [hshrinks.balanced.refs_of_empty hrooted' hlevel' hempty, hheld, hb.ledger p,
          linked_eq hb.shape hrooted hroots, leavesOf_eq hb.shape hrooted hroots]
        omega
      refine ⟨o, rfl, ?_, hrefs, ?_, hshrinks.balanced.table_live hlevel', hempty, ?_⟩
      · intro p
        have hcount : o.memory.refs p + o.visits.count (.release p) = m.refs p := htraced.refs p
        have hp := hrefs p
        omega
      · intro before p after heq
        obtain ⟨hread, hafter⟩ := htraced.order before p after heq
        refine ⟨fun hp => hread ?_, hafter⟩
        obtain ⟨s, k, ht, htarget⟩ := hp
        rw [Set.mem_ofPred_eq, h.standing.account_level.2 (.link ht htarget)]
        rfl
      · intro ε t g hroot
        exact resolve_of_empty hroot hshrinks.balanced hlevel' hempty g

end Hypervisor.Ept
