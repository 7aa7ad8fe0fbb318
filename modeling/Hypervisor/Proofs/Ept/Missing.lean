import Hypervisor.Proofs.Ept.Lookup

/-!
# Tables that are missing

A lookup that creates tables needs a page for each table that is missing on the path to the leaf.  It
succeeds just if there are so many pages.
-/

namespace Hypervisor

namespace Memory

/-- How many tables are missing on the path of a page number, below a table of a level. -/
def missingFrom (m : Memory) (n : PageNumber) : (level : Nat) → (table : Hpa) → Nat
  | 0, _ => 0
  | level + 1, table =>
      ((m.entry ⟨table, n.digit (level + 1)⟩).target.map (m.missingFrom n level)).getD (level + 1)

/-- How many tables are missing on the path of a page number, below the root of a table. -/
def missing (m : Memory) (root : Hpa) (n : PageNumber) : Nat :=
  m.missingFrom n (Ept.levels - 1) root

variable {m : Memory} {n : PageNumber} {t q : Hpa} {k : Nat}

theorem missingFrom_link (h : (m.entry ⟨t, n.digit (k + 1)⟩).target = some q) :
    m.missingFrom n (k + 1) t = m.missingFrom n k q := by
  rw [missingFrom, h, Option.map_some, Option.getD_some]

theorem missingFrom_unlinked (h : (m.entry ⟨t, n.digit (k + 1)⟩).target = none) :
    m.missingFrom n (k + 1) t = k + 1 := by
  rw [missingFrom, h, Option.map_none, Option.getD_none]

theorem missingFrom_of_empty (h : ∀ i, m.entry ⟨t, i⟩ = .empty) : m.missingFrom n k t = k := by
  cases k with
  | zero => rfl
  | succ k => exact missingFrom_unlinked (by rw [h, Entry.target_empty])

theorem missingFrom_of_leafFrom {s : Slot} (h : m.leafFrom n k t = some s) :
    m.missingFrom n k t = 0 := by
  induction k generalizing t with
  | zero => rfl
  | succ k ih =>
      obtain ⟨q, hq, hs⟩ := Option.bind_eq_some_iff.1 h
      rw [missingFrom_link hq, ih hs]

end Memory

namespace Ept

open Hypervisor.Action Memory

variable {F : Panic → Prop} {m : Memory} {a : Account} {g : Gpa} {t : Hpa} {k : Nat}

/-- A lookup that may add tables succeeds just if there are pages for those that are missing. -/
theorem lookupFrom_affords (hk : k < levels) :
    (lookupFrom g true k t).Safe F m (m.Balanced a ∧ a.level t = some k)
      (fun _ _ => m.Affords (m.missingFrom g.number k t))
      (fun _ _ => ¬m.Affords (m.missingFrom g.number k t)) := by
  induction k generalizing m a t with
  | zero =>
      rw [lookupFrom]
      refine pageWords_bind (fun h => h.1.table_pageDown_live h.2) ?_
      exact Safe.pure fun _ _ => affords_zero
  | succ k ih =>
      have hk' : k < levels := Nat.lt_of_succ_lt hk
      rw [lookupFrom, index_eq_digit g hk]
      refine Slot.read_bind (fun h => h.1.table_pageDown_live h.2) ?_
      cases htarget : (m.entry ⟨t, g.number.digit (k + 1)⟩).target with
      | some q =>
          rw [missingFrom_link htarget]
          refine (ih hk' (a := a)).assume ?_
          rintro - ⟨hb, ht⟩
          exact ⟨hb, hb.shape.level_of_target (s := ⟨t, g.number.digit (k + 1)⟩) ht htarget⟩
      | none =>
          rw [missingFrom_unlinked htarget]
          refine Safe.require_bind (fun _ => ?_) fun hno => absurd hno.symm Bool.false_ne_true
          refine addTable_bind id htarget (fun m₁ _ _ hdraws hf _ _ => hdraws.not_affords hf)
            fun m₁ p a₁ hadds hdraws _ => ?_
          -- The new table is empty, so one table less is missing below it.
          have hless : m₁.Fits → m.Balanced a ∧ a.level t = some (k + 1) →
              (m₁.Affords (m₁.missingFrom g.number k p) ↔ m.Affords (k + 1)) := fun hf h => by
            rw [missingFrom_of_empty (hadds hf h).empty, hdraws.affords_iff]
          refine (ih hk' (a := a₁)).mono (fun hf h => ?_) (fun _ _ hf _ h => (hless hf h).1)
            fun _ _ hf _ h hshort => fun haffords => hshort ((hless hf h).2 haffords)
          exact ⟨(hadds hf h).balanced, by rw [(hadds hf h).levels, if_pos rfl]⟩

/-- A lookup that may add tables finds the leaf of the address, or there are too few pages for the
tables that are missing.  Whatever happens, nothing mapped has changed. -/
theorem lookup_affords {tab : Ept} {root : Hpa} (hroot : tab.root = some root) :
    (tab.lookup g true).Safe F m (m.Balanced a ∧ a.level root = some 3)
      (fun s m' => (∃ a', m.Finds a g.number 3 root s m' a') ∧
        m.Affords (m.missing root g.number))
      (fun e m' => (e = .outOfMemory ∧ ¬m.Affords (m.missing root g.number)) ∧
        ∃ a', m.Extends a m' a') := by
  rw [lookup, hroot]
  refine Safe.orFail_bind (fun r hr => ?_) fun h => absurd h (Option.some_ne_none _)
  cases hr
  refine ((lookupFrom_finds (by decide)).and (lookupFrom_affords (by decide))).mono (fun _ h => h)
    (fun _ _ _ _ _ h => h) ?_
  rintro e m' - - - ⟨⟨hshort, hext⟩, hless⟩
  exact ⟨⟨hshort rfl, hless⟩, hext⟩

end Ept

end Hypervisor
