import Hypervisor.Proofs.Guest.Lifetime

/-!
# Allocations that are refused

Whoever needs a page and gets none stops with an error of its own, and no other error has that cause.
Nothing but an allocation is ever refused.  On the way to the caller the error may change, but its status
does not.
-/

namespace Hypervisor

open Hypervisor.Action Memory

theorem VmError.errno_eq_iff {e : VmError} :
    e.errno = -4 ↔ e = .noMemory ∨ e = .ept .outOfMemory := by
  cases e with
  | ept cause => cases cause <;> simp [errno]
  | _ => simp [errno]

namespace Memory

def Refused (k : Nat) (m : Memory) : Prop := m.refused = k

theorem refused_steady (k : Nat) : Steady (Refused k) where
  retained := fun _ h => h
  released := fun _ h => h
  edited := fun _ _ h => h

def Blames {ε : Type} [DecidableEq ε] (short : ε) (k : Nat) (e : ε) (m : Memory) : Prop :=
  m.refused = k + if e = short then 1 else 0

def Reports (k : Nat) (e : VmError) (m : Memory) : Prop :=
  m.refused = k + if e.errno = -4 then 1 else 0

variable {ε : Type} {m : Memory} {k : Nat} {E : ε → Memory → Prop} {F : Panic → Memory → Prop}

theorem Refused.reports {e : VmError} (h : m.Refused k) (he : e.errno ≠ -4) : m.Reports k e := by
  rw [Reports, if_neg he]
  exact h

theorem Reports.shortage_iff {e : VmError} (h : m.Reports k e) : e.errno = -4 ↔ k < m.refused := by
  rw [h]
  split_ifs with he <;> simp [he]

theorem Blames.reports_ept {e : EptError} (h : m.Blames .outOfMemory k e) : m.Reports k (.ept e) := by
  cases e <;> exact h

theorem allocRetained_orFail {α : Type} {short : ε} {f : Hpa → MemoryM ε α}
    (hshort : ∀ m, m.refused = k + 1 → E short m)
    (hf : ∀ p, (f p).Upholds (Refused k) (fun _ _ => True) E) :
    (allocRetained >>= fun r => orFail r short >>= f).Upholds (Refused k) (fun _ _ => True) E := by
  intro m hm
  rw [ends_bind]
  refine allocRetained_ends_draws (fun m₁ _ _ hr => ?_) fun m₁ p _ hr => ?_
  · exact hshort m₁ (hr.1.trans (congrArg (· + 1) hm))
  · exact hf p m₁ (hr.1.trans hm)

/-- All pages are allocated if the limit permits it, and else one allocation is refused. -/
theorem allocRetainedMany_affords (count : Nat) :
    (allocRetainedMany count : MemoryM ε (Option (Vector Hpa count))).Ends m
      (fun r m' => match r with
        | none => m'.refused = m.refused + 1 ∧ (m'.Fits → ¬m.Affords count)
        | some _ => m'.refused = m.refused ∧ m.Affords count ∧
            m'.budget = m.budget.map (· - count))
      E fun _ _ => True := by
  induction count with
  | zero => exact ⟨rfl, fun _ _ => Nat.zero_le _, by simp⟩
  | succ count ih =>
      rw [allocRetainedMany, ends_bind]
      refine Ends.mono ih (fun r m₁ h₁ => ?_) (fun _ _ h => h) fun _ _ h => h
      cases r with
      | none =>
          refine ⟨h₁.1, fun hf haffords => h₁.2 hf fun budget hb => ?_⟩
          exact Nat.le_of_succ_le (haffords budget hb)
      | some taken =>
          obtain ⟨hrefused, haffords, hbudget⟩ := h₁
          show Ends _ m₁ _ _ _
          rw [ends_bind]
          refine allocRetained_ends_draws (fun m₂ _ _ hdraws => ?_) fun m₂ p _ hdraws => ?_
          · have hsteady : Steady fun m' : Memory =>
                m'.refused = m.refused + 1 ∧ (m'.Fits → ¬m.Affords (count + 1)) :=
              ⟨fun _ h => h, fun _ h => h, fun _ _ h => h⟩
            show Ends _ m₂ _ _ _
            rw [ends_bind]
            refine Ends.mono (Upholds.forM (fun p _ => hsteady.release p) m₂ ?_) (fun _ _ h => h)
              (fun _ _ h => h) fun _ _ h => h
            refine ⟨by rw [hdraws.1, hrefused], fun hf hmore => ?_⟩
            have hzero := hdraws.2 hf
            rw [hbudget, Option.map_eq_some_iff] at hzero
            obtain ⟨budget, hb, hz⟩ := hzero
            have hle := hmore budget hb
            omega
          · refine ⟨by rw [hdraws.1, hrefused], fun budget hb => ?_, ?_⟩
            · have hle := haffords budget hb
              have hne := hdraws.2.1
              rw [hbudget, hb, Option.map_some, ne_eq, Option.some.injEq] at hne
              omega
            · rw [hdraws.2.2, hbudget, Option.map_map]
              rfl

end Memory

variable {k : Nat}

namespace Ept

theorem withTarget_blames (entry : Entry) (page : Hpa) :
    (ofExcept (entry.withTarget page) : MemoryM EptError Entry).Upholds (Refused k)
      (fun _ _ => True) (Blames .outOfMemory k) := by
  rw [Entry.withTarget]
  split
  · exact Upholds.pure
  · exact Upholds.fail_of fun _ h => h

theorem lookupFrom_blames (gpa : Gpa) (create : Bool) (level : Nat) (table : Hpa) :
    (lookupFrom gpa create level table).Upholds (Refused k) (fun _ _ => True)
      (Blames .outOfMemory k) := by
  induction level generalizing table with
  | zero => exact Upholds.bind (pageWords_upholds table) fun _ => Upholds.pure
  | succ level ih =>
      refine Upholds.bind (Slot.read_upholds _) fun entry => ?_
      split
      · exact ih _
      · refine Upholds.bind (Upholds.require_of fun _ h => h) fun _ => ?_
        refine allocRetained_orFail (fun _ h => h) fun page => ?_
        refine Upholds.bind (withTarget_blames _ _) fun entry => ?_
        exact Upholds.bind (Slot.write_upholds (refused_steady k) _ _) fun _ => ih page

theorem lookup_blames (t : Ept) (gpa : Gpa) (create : Bool) :
    (t.lookup gpa create).Upholds (Refused k) (fun _ _ => True) (Blames .outOfMemory k) :=
  Upholds.bind (Upholds.orFail_of fun _ h => h) fun _ => lookupFrom_blames gpa create _ _

theorem apply_blames (entry : Entry) (change : Entry.Edit) :
    (ofExcept (entry.apply change) : MemoryM EptError Entry).Upholds (Refused k)
      (fun _ _ => True) (Blames .outOfMemory k) := by
  cases change with
  | target page => exact withTarget_blames entry page
  | flags => exact Upholds.pure
  | clear => exact Upholds.pure

theorem edit_blames (t : Ept) (gpa : Gpa) (create : Bool) (edits : List Entry.Edit) :
    (t.edit gpa create edits).Upholds (Refused k) (fun _ _ => True) (Blames .outOfMemory k) := by
  refine Upholds.bind (lookup_blames t gpa create) fun slot => ?_
  refine Upholds.bind (Upholds.forM fun change _ => ?_) fun _ => Slot.read_upholds slot
  refine Upholds.bind (Slot.read_upholds slot) fun entry => ?_
  exact Upholds.bind (apply_blames entry change) fun _ =>
    Slot.write_upholds (refused_steady k) slot _

theorem new_blames : Ept.new.Upholds (Refused k) (fun _ _ => True) (Blames .outOfMemory k) :=
  allocRetained_orFail (fun _ h => h) fun _ => Upholds.pure

theorem map_blames (t : Ept) (source : Hva) (gpa : Gpa) (perm : Permission) (overwrite : Bool) :
    (t.map source gpa perm overwrite).Upholds (Refused k) (fun _ _ => True)
      (Blames .outOfMemory k) := by
  have hsteady := refused_steady k
  refine Upholds.bind (Upholds.require_of fun _ h => h) fun _ => ?_
  refine Upholds.bind (Upholds.require_of fun _ h => h) fun _ => ?_
  refine Upholds.bind (Upholds.require_of fun _ h => h) fun _ => ?_
  refine Upholds.get_bind fun m _ => Upholds.bind (Upholds.orFail_of fun _ h => h) fun page => ?_
  refine Upholds.bind ?_ fun slot => Upholds.bind (Slot.read_upholds slot) fun entry => ?_
  · exact lookup_blames t gpa true
  · refine Upholds.bind (Upholds.require_of fun _ h => h) fun _ => ?_
    refine Upholds.bind (hsteady.retain page) fun _ => ?_
    have hwrite : ∀ e : Entry,
        (slot.write (e.withFlags (Permission.leafFlags (perm &&& Permission.full))) :
          MemoryM EptError Unit).Upholds (Refused k) (fun _ _ => True) (Blames .outOfMemory k) :=
      fun _ => Slot.write_upholds hsteady _ _
    split
    · refine Upholds.bind (hsteady.release _) fun _ => ?_
      exact Upholds.bind (withTarget_blames _ _) fun e => hwrite e
    · exact Upholds.bind (withTarget_blames _ _) fun e => hwrite e

theorem insertPage_blames (t : Ept) (page : Hpa) (gpa : Gpa) (perm : Permission) :
    (t.insertPage page gpa perm).Upholds (Refused k) (fun _ _ => True) (Blames .outOfMemory k) :=
  Upholds.bind (virtual_upholds page) fun _ => map_blames t _ gpa perm false

def BackingFails (k : Nat) (e : VmError) (m : Memory) : Prop :=
  Blames .noMemory k e m ∧ (e = .noMemory ∨ ∃ cause, cause ≠ .outOfMemory ∧ e = .ept cause)

theorem BackingFails.eq_noMemory {e : VmError} {m : Memory} (h : BackingFails k e m)
    (he : e.errno = -4) : e = .noMemory := by
  refine (VmError.errno_eq_iff.1 he).resolve_right ?_
  rintro rfl
  obtain ⟨-, hnone | ⟨cause, hcause, heq⟩⟩ := h
  · cases hnone
  · exact hcause (VmError.ept.inj heq).symm

theorem BackingFails.reports {e : VmError} {m : Memory} (h : BackingFails k e m) : m.Reports k e := by
  by_cases he : e.errno = -4
  · obtain rfl := h.eq_noMemory he
    exact h.1
  · have hne : e ≠ .noMemory := by
      rintro rfl
      exact he rfl
    have hblames : m.refused = k + if e = .noMemory then 1 else 0 := h.1
    rw [if_neg hne] at hblames
    exact Refused.reports hblames he

theorem populate_blames (t : Ept) (gpa : Gpa) :
    (t.populate gpa).Upholds (Refused k) (fun _ _ => True) (BackingFails k) := by
  have hsteady := refused_steady k
  refine allocRetained_orFail (fun _ h => ⟨h, .inl rfl⟩) fun page m hm => ?_
  rw [ends_bind, ends_attempt]
  refine Ends.mono (insertPage_blames t page gpa Permission.full m hm) (fun _ m₁ hm₁ => ?_)
    (fun e m₁ hm₁ => ?_) fun _ _ h => h
  · exact (Upholds.bind (hsteady.release page) fun _ => Upholds.pure) m₁ hm₁
  · rw [ends_bind]
    refine release_ends (fun _ => ?_) fun _ _ => trivial
    cases e <;> exact ⟨hm₁, by simp⟩

theorem populateEach_blames (t : Ept) (l : List Gpa) :
    (l.forM t.populate).Upholds (Refused k) (fun _ _ => True) (BackingFails k) :=
  Upholds.forM fun gpa _ => populate_blames t gpa

theorem populateAll_blames (t : Ept) (physSize : UInt64) :
    (t.populateAll physSize).Upholds (Refused k) (fun _ _ => True) (BackingFails k) := by
  rw [populateAll_eq]
  exact populateEach_blames t _

theorem onAccess_reports (t : Ept) (physSize : UInt64) (gpa : Gpa) :
    (t.onAccess physSize gpa).Upholds (Refused k) (fun _ _ => True) fun e m => m.Reports k e := by
  rw [onAccess]
  split
  · refine Upholds.bind ((populate_blames t _).mono (fun _ _ h => h.reports) fun _ _ h => h) ?_
    exact fun _ => Upholds.pure
  · refine Upholds.bind (virtual_upholds _) fun _ => Upholds.bind ?_ fun _ => Upholds.pure
    exact Upholds.mapError_of (map_blames t _ _ _ _) fun _ _ h => h.reports_ept
  · exact Upholds.pure

end Ept

theorem Guest.mapFromHost_reports (g : Guest) (source : Hva) (writable : Bool) (gpa : Gpa)
    (perm : Permission) : (g.mapFromHost source writable gpa perm).Upholds (Refused k)
      (fun _ _ => True) fun e m => m.Reports k e := by
  refine Upholds.bind (Upholds.require_of fun _ h => h.reports (by decide)) fun _ => ?_
  refine Upholds.mapError_of (Ept.map_blames g.table source gpa perm false) fun e m h => ?_
  cases e <;> exact h

end Hypervisor
