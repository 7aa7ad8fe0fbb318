import Hypervisor.Proofs.Ownership.Isolation

/-!
# The ledger of references

Every reference to a page can be told: it is held by a caller, by a leaf or by the page's role.  As
long as callers drop only references that they hold, the allocator never stops the kernel.
-/

namespace Hypervisor.Machine

open Hypervisor.Action Memory

variable {m : Machine} {k : Callers} {p : Hpa}

open Classical in
/-- As long as callers use what is theirs, a page has a reference for each that callers hold, for each
leaf that holds it and for each of its roles; a page without one was taken by a caller; and nothing
that callers may do ends in a panic but for a sum of addresses. -/
theorem references_accounted (h : History Command.Lawful m k) (hf : m.memory.Fits) :
    (∀ p, m.memory.refs p = k.held p + reserved p + m.memory.leavesOf m.roots p +
      (if m.memory.Intermediate m.roots p then 1 else 0) + (m.estate k).roots.count p +
        (m.estate k).others.count p) ∧
      (∀ p ∈ m.memory.pages, m.memory.refs p = 0 → p ∈ k.taken) ∧
      ∀ c, c.Lawful m k → (perform c).Ends m (fun _ _ => True) (fun _ _ => True) Overflows := by
  have hk : m.Orderly k False := h.orderly id False.elim
  obtain ⟨a, ha⟩ := hk.owned hf
  have hshape := ha.balanced.shape
  have hroots : ∀ r ∈ m.roots, a.level r = some 3 := fun _ hr => ha.level hr
  refine ⟨fun p => ?_, fun p hp hrefs => ha.idle (ha.balanced.idle hp hrefs), fun c hc => ?_⟩
  · have hroles : (m.estate k).roles.count p =
        reserved p + (m.estate k).roots.count p + (m.estate k).others.count p := by
      rw [Estate.roles, Multiset.count_cons, Multiset.count_add, reserved]
      omega
    have hledger := ha.balanced.ledger p
    have hheld : a.held p = k.held p + (m.estate k).roles.count p := ha.held p
    have hleaves : m.memory.leavesOf m.roots p = a.leaves m.memory.entry p :=
      leavesOf_eq hshape ha.rooted hroots
    have hlinked : a.linked p = if m.memory.Intermediate m.roots p then 1 else 0 :=
      linked_eq hshape ha.rooted hroots
    rw [hledger, hheld, hroles, hlinked, hleaves]
    omega
  · exact (perform_keeps hk hc False.elim).mono (fun _ _ _ => trivial) (fun _ _ _ => trivial)
      fun _ _ hpanic => hpanic

/-- The page that the first of two guests touched has one reference, and so one leaf at most. -/
theorem references_accounted_touches : ∃ m k, History Command.Lawful m k ∧ m.memory.Fits ∧
    m.page? 0 ⟨0x5000⟩ = some ⟨0x100a000⟩ ∧ m.memory.refs ⟨0x100a000⟩ = 1 ∧
      m.memory.leavesOf m.roots ⟨0x100a000⟩ ≤ 1 := by
  have hallowed : ∀ c ∈ touches, ∀ m k, c.Lawful m k := Command.forall_lawful rfl
  obtain ⟨m, k, h, hf, hp, hrefs⟩ := (History.booted uniprocessor_booted).exists_after
    (P := fun m => m.memory.Fits ∧ m.page? 0 ⟨0x5000⟩ = some ⟨0x100a000⟩ ∧
      m.memory.refs ⟨0x100a000⟩ = 1) hallowed (by decide +kernel)
  refine ⟨m, k, h, hf, hp, hrefs, ?_⟩
  have hcount := (references_accounted h hf).1 ⟨0x100a000⟩
  omega

end Hypervisor.Machine
