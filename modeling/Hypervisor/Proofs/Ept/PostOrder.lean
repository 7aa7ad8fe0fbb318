import Hypervisor.Ept.Sweep
import Hypervisor.Proofs.Memory.Safe

/-!
# The order of a sweep

A sweep keeps a position on each level, and does what a recursion over the tree would do: a table
page is given back after everything below it.  Both are stated for a visitor, which says what it
means to read an entry, to clear it and to release a page.  So they agree on each visit and not only
on the memory that they leave, and a visitor that keeps a record shows the visits of a sweep.
-/

namespace Hypervisor.Ept

/-- What is done to the entries of a tree and to the pages that they refer to. -/
structure Visitor (M : Type → Type) where
  read : Slot → M Entry
  clear : Slot → M Unit
  release : Hpa → M Unit

namespace Visitor

section Order

variable {M : Type → Type} [Monad M] (v : Visitor M)

/-- Clears an entry in a table page of a level, and gives back what is below it. -/
def clearEntry : (level : Nat) → (s : Slot) → M Unit
  | 0, s => do
      match (← v.read s).target with
      | none => pure ()
      | some page =>
          v.clear s
          v.release page
  | level + 1, s => do
      match (← v.read s).target with
      | none => pure ()
      | some page =>
          v.clear s
          (List.finRange wordsPerPage).forM fun i => clearEntry level ⟨page, i⟩
          v.release page

/-- Clears the entries of a table page of a level in order. -/
def clearTable (level : Nat) (table : Hpa) : M Unit :=
  (List.finRange wordsPerPage).forM fun i => v.clearEntry level ⟨table, i⟩

/-- Visits what is left, for the positions from the innermost table outward. -/
def sweep : List Position → M Unit
  | [] => pure ()
  | here :: outer => do
      if h : here.next < wordsPerPage then
        let slot : Slot := ⟨here.table, ⟨here.next, h⟩⟩
        match (← v.read slot).target with
        | none => sweep ({ here with next := here.next + 1 } :: outer)
        | some page =>
            v.clear slot
            if _inner : outer.length < levels - 1 then
              sweep (⟨page, 0⟩ :: { here with next := here.next + 1 } :: outer)
            else
              v.release page
              sweep ({ here with next := here.next + 1 } :: outer)
      else
        if outer.isEmpty then
          pure ()
        else
          v.release here.table
          sweep outer
termination_by positions => visitsLeft positions
decreasing_by
  · exact visitsLeft_next here outer h
  · exact visitsLeft_enter here outer page h _inner
  · exact visitsLeft_next here outer h
  · exact visitsLeft_leave here outer

/-- What the recursion has still to do: the rest of the innermost table, and then that of the tables
further out. -/
def remaining : List Position → M Unit
  | [] => pure ()
  | here :: outer => do
      ((List.finRange wordsPerPage).drop here.next).forM fun i =>
        v.clearEntry (levels - 1 - outer.length) ⟨here.table, i⟩
      if outer.isEmpty then
        pure ()
      else
        v.release here.table
        remaining outer

theorem remaining_enter (page : Hpa) (here : Position) (outer : List Position) :
    v.remaining (⟨page, 0⟩ :: here :: outer) =
      v.clearTable (levels - 1 - (outer.length + 1)) page >>= fun _ =>
        v.release page >>= fun _ => v.remaining (here :: outer) := by
  rw [remaining, if_neg (by simp), List.drop_zero, clearTable, List.length_cons]

variable [LawfulMonad M]

theorem remaining_cons (here : Position) (outer : List Position) (h : here.next < wordsPerPage) :
    v.remaining (here :: outer) =
      v.clearEntry (levels - 1 - outer.length) ⟨here.table, ⟨here.next, h⟩⟩ >>= fun _ =>
        v.remaining ({ here with next := here.next + 1 } :: outer) := by
  have hdrop : (List.finRange wordsPerPage).drop here.next =
      ⟨here.next, h⟩ :: (List.finRange wordsPerPage).drop (here.next + 1) := by
    rw [List.drop_eq_getElem_cons (by rwa [List.length_finRange]), List.getElem_finRange]
    rfl
  rw [remaining, hdrop]
  exact bind_assoc _ _ _

theorem sweep_eq_remaining (positions : List Position) :
    v.sweep positions = v.remaining positions := by
  induction positions using sweep.induct with
  | case1 => rw [sweep, remaining]
  | case2 here outer hi ihnext ihenter =>
      rw [sweep, dif_pos hi, v.remaining_cons here outer hi]
      by_cases hlen : outer.length < levels - 1
      · have hlevel : levels - 1 - outer.length = (levels - 1 - (outer.length + 1)) + 1 := by omega
        rw [hlevel, clearEntry, bind_assoc]
        refine bind_congr fun entry => ?_
        cases entry.target with
        | none => simpa only [pure_bind] using ihnext
        | some page =>
            simp only [dif_pos hlen, ihenter page hlen, remaining_enter, clearTable, bind_assoc]
      · have hlevel : levels - 1 - outer.length = 0 := by omega
        rw [hlevel, clearEntry, bind_assoc]
        refine bind_congr fun entry => ?_
        cases entry.target with
        | none => simpa only [pure_bind] using ihnext
        | some page => simp only [dif_neg hlen, ihnext, bind_assoc]
  | case3 here outer hi hend =>
      rw [sweep, dif_neg hi, if_pos hend, remaining, if_pos hend,
        List.drop_eq_nil_of_le (by rw [List.length_finRange]; omega)]
      exact (pure_bind _ _).symm
  | case4 here outer hi hmore ih =>
      rw [sweep, dif_neg hi, if_neg hmore, remaining, if_neg hmore,
        List.drop_eq_nil_of_le (by rw [List.length_finRange]; omega), ih]
      exact (pure_bind PUnit.unit fun _ => v.release here.table >>= fun _ => v.remaining outer).symm

/-- A sweep of a whole table clears it in the order of the recursion. -/
theorem sweep_eq_clearTable (root : Hpa) :
    v.sweep [⟨root, 0⟩] = v.clearTable (levels - 1) root := by
  rw [sweep_eq_remaining, remaining, List.drop_zero, if_pos List.isEmpty_nil, bind_pure_unit]
  rfl

end Order

/-- The visits that are made in memory. -/
def memory {ε : Type} : Visitor (Action Memory ε) where
  read := Slot.read
  clear s := s.write .empty
  release := Memory.release

theorem sweep_memory {ε : Type} (positions : List Position) :
    (memory.sweep positions : MemoryM ε Unit) = Ept.sweep positions := by
  induction positions using Ept.sweep.induct with
  | case1 => rw [sweep, Ept.sweep]
  | case2 here outer hi ihnext ihenter =>
      rw [sweep, Ept.sweep, dif_pos hi, dif_pos hi]
      refine bind_congr fun entry => ?_
      cases entry.target with
      | none => exact ihnext
      | some page =>
          refine bind_congr fun _ => ?_
          by_cases hlen : outer.length < levels - 1
          · rw [dif_pos hlen, dif_pos hlen, ihenter page hlen]
          · rw [dif_neg hlen, dif_neg hlen, ihnext]
            rfl
  | case3 here outer hi hend =>
      rw [sweep, Ept.sweep, dif_neg hi, dif_neg hi, if_pos hend, if_pos hend]
  | case4 here outer hi hmore ih =>
      rw [sweep, Ept.sweep, dif_neg hi, dif_neg hi, if_neg hmore, if_neg hmore, ih]
      rfl

end Visitor

/-- What a sweep does to an entry or to a page. -/
inductive Visit where
  | read (s : Slot)
  | clear (s : Slot)
  | release (p : Hpa)
  deriving DecidableEq

/-- A memory with a record of the visits so far. -/
structure Observed where
  memory : Memory
  visits : List Visit := []

instance : HasMemory Observed := ⟨Observed.memory⟩

namespace Observed

variable {ε α β : Type}

/-- Works on the memory after a visit was put on record. -/
def note (visit : Visit) (x : MemoryM ε α) : Action Observed ε α := do
  modify fun o => { o with visits := o.visits ++ [visit] }
  Action.onPart Observed.memory (fun o m => { o with memory := m }) x

/-- The visits that are made in memory and put on record, also those that fail. -/
def recording : Visitor (Action Observed ε) where
  read s := note (.read s) s.read
  clear s := note (.clear s) (s.write .empty)
  release p := note (.release p) (Memory.release p)

theorem ends_note (visit : Visit) (x : MemoryM ε α) {o : Observed} {Q : α → Observed → Prop}
    {E : ε → Observed → Prop} {F : Panic → Observed → Prop} :
    (note visit x).Ends o Q E F ↔
      x.Ends o.memory (fun a m => Q a ⟨m, o.visits ++ [visit]⟩)
        (fun e m => E e ⟨m, o.visits ++ [visit]⟩) fun p m => F p ⟨m, o.visits ++ [visit]⟩ := by
  rw [note, Action.ends_bind, Action.ends_modify, Action.ends_onPart]

def Follows (x : Action Observed ε α) (y : MemoryM ε α) : Prop :=
  ∀ o, x.Ends o (fun a o' => y.run o.memory = .ok a o'.memory)
    (fun e o' => y.run o.memory = .error (.error e) o'.memory)
    fun p o' => y.run o.memory = .error (.panic p) o'.memory

namespace Follows

theorem pure {a : α} : Follows (Pure.pure a : Action Observed ε α) (Pure.pure a) := fun _ => rfl

theorem bind {x : Action Observed ε β} {y : MemoryM ε β} {f : β → Action Observed ε α}
    {g : β → MemoryM ε α} (hx : Follows x y) (hf : ∀ b, Follows (f b) (g b)) :
    Follows (x >>= f) (y >>= g) := by
  intro o
  rw [Action.ends_bind]
  refine Action.Ends.mono (hx o) ?_ ?_ ?_
  · intro b o' hy
    simp only [EStateM.run_bind, hy]
    exact hf b o'
  · intro e o' hy
    rw [EStateM.run_bind, hy]
  · intro p o' hy
    rw [EStateM.run_bind, hy]

theorem note {visit : Visit} {y : MemoryM ε α} : Follows (note visit y) y := by
  intro o
  rw [ends_note]
  simp only [Action.Ends]
  cases hy : y.run o.memory with
  | ok a m => rfl
  | error stop m =>
      cases stop <;> rfl

variable {x : Action Observed ε α} {y : MemoryM ε α} {F : Panic → Prop} {o : Observed} {P : Prop}

theorem ends {Q : α → Memory → Prop} {E : ε → Memory → Prop} {G : Panic → Memory → Prop}
    (h : Follows x y) (hx : x.Ends o (fun a o' => Q a o'.memory) (fun e o' => E e o'.memory)
      fun p o' => G p o'.memory) : y.Ends o.memory Q E G := by
  cases hrun : x.run o with
  | ok a o' => exact (Action.ends_ok ((h o).ok hrun)).2 (hx.ok hrun)
  | error stop o' =>
      cases stop with
      | error e => exact (Action.ends_error ((h o).error hrun)).2 (hx.error hrun)
      | panic p => exact (Action.ends_stop ((h o).stop hrun)).2 (hx.stop hrun)

theorem safe {Q : α → Memory → Prop} {E : ε → Memory → Prop} (h : Follows x y)
    (hx : x.Safe F o P (fun a o' => Q a o'.memory) fun e o' => E e o'.memory) :
    y.Safe F o.memory P Q E :=
  h.ends hx

end Follows

/-- The record shows a sweep as it is. -/
theorem sweep_follows (positions : List Position) :
    Follows (recording.sweep positions : Action Observed ε Unit) (sweep positions) := by
  induction positions using sweep.induct with
  | case1 =>
      rw [Visitor.sweep, sweep]
      exact .pure
  | case2 here outer hi ihnext ihenter =>
      rw [Visitor.sweep, sweep, dif_pos hi, dif_pos hi]
      refine .bind .note fun entry => ?_
      cases entry.target with
      | none => exact ihnext
      | some page =>
          refine .bind .note fun _ => ?_
          by_cases hlen : outer.length < levels - 1
          · rw [dif_pos hlen, dif_pos hlen]
            exact ihenter page hlen
          · rw [dif_neg hlen, dif_neg hlen]
            exact .bind .note fun _ => ihnext
  | case3 here outer hi hend =>
      rw [Visitor.sweep, sweep, dif_neg hi, dif_neg hi, if_pos hend, if_pos hend]
      exact .pure
  | case4 here outer hi hmore ih =>
      rw [Visitor.sweep, sweep, dif_neg hi, dif_neg hi, if_neg hmore, if_neg hmore]
      exact .bind .note fun _ => ih

end Observed

end Hypervisor.Ept
