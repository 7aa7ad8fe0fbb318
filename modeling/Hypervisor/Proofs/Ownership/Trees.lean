import Hypervisor.Proofs.Ept.Census
import Hypervisor.Proofs.Ownership.Isolation

/-!
# The tables of all guests are trees

Whatever the guests and their users do, the tables that can be reached from the roots form trees of
four levels, and all their entries are empty or in the form that the processor reads.
-/

namespace Hypervisor

theorem Memory.Sound.tree {m : Memory} {e : Estate} {I : Prop} {a : Account} {r : Hpa}
    (h : m.Sound e I a) (hr : r ∈ e.roots) : m.Tree r :=
  h.balanced.tree (h.level hr) fun {s p} hs htarget => by
    obtain ⟨n, perm, hmap⟩ := hs.exists_translation htarget
    exact (h.separate hr hmap).1

namespace Machine

variable {m : Machine} {k : Callers}

theorem History.tree {j : Nat} {v : Vm} {r : Hpa} (h : History Command.Lawful m k)
    (hf : m.memory.Fits) (hv : m.vms[j]? = some (some v)) (hr : v.guest.table.root = some r) :
    m.memory.Tree r := by
  have hk : m.Orderly k False := h.orderly id False.elim
  obtain ⟨a, ha⟩ := hk.owned hf
  exact ha.tree (mem_roots_of_vm (Array.mem_of_getElem? hv) hr)

/-- As long as callers use what is theirs, the tables of all guests, and those of no guest, form
trees, whatever was asked for and whichever allocations failed. -/
theorem tables_form_trees (h : History Command.Lawful m k) (hf : m.memory.Fits) :
    m.memory.Trees m.roots := by
  have hk : m.Orderly k False := h.orderly id False.elim
  obtain ⟨a, ha⟩ := hk.owned hf
  exact Memory.trees_of_shape ha.balanced.shape fun _ hr => ha.level hr

/-- The table that the first guest got when it touched an address is linked in one place. -/
theorem tables_form_trees_touches : ∃ m k q, History Command.Lawful m k ∧ m.memory.Fits ∧
    m.memory.Table m.roots 2 q ∧
      ∃! s : Slot, (∃ l, m.memory.Table m.roots (l + 1) s.table) ∧
        (m.memory.entry s).target = some q := by
  have hallowed : ∀ c ∈ touches, ∀ m k, c.Lawful m k := Command.forall_lawful rfl
  obtain ⟨m, k, h, hf, hroot, hq⟩ := (History.booted uniprocessor_booted).exists_after
    (P := fun m => m.memory.Fits ∧
      (m.vms[0]?.join.bind fun v => v.guest.table.root) = some ⟨0x1000000⟩ ∧
      (m.memory.entry ⟨⟨0x1000000⟩, 0⟩).target = some ⟨0x100b000⟩) hallowed (by decide +kernel)
  obtain ⟨v, hv, hr⟩ := Option.bind_eq_some_iff.1 hroot
  have htrees := tables_form_trees h hf
  have hmem : (⟨0x1000000⟩ : Hpa) ∈ m.roots :=
    mem_roots_of_vm (k := {}) (Array.mem_of_getElem? (Option.join_eq_some_iff.1 hv)) hr
  have htable : m.memory.Table m.roots 2 ⟨0x100b000⟩ := .link (.root hmem) hq
  refine ⟨m, k, _, h, hf, htable, htrees.linked htable fun hroot' => ?_⟩
  exact absurd (htrees.level htable (.root hroot')) (by decide)

end Machine

end Hypervisor
