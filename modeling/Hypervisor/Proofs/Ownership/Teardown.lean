import Hypervisor.Proofs.Ept.Visits
import Hypervisor.Proofs.Ownership.Trees

/-!
# The teardown of a table

The table of every guest is a tree, and a teardown takes a tree down like a recursion in post-order,
visit by visit.  What the flush at the end does, or fails to do, changes nothing of this.
-/

namespace Hypervisor

namespace Host

open Hypervisor.Action Ept

variable {root : Hpa}

/-- The teardown of a tree ends.  Its loop makes the same visits as the recursion, gives back each leaf
and each table below the root once, and flushes the translations once: whether or not the flush fails,
the root is then an empty table. -/
theorem teardown_in_post_order {h : Host} {t : Ept} (hroot : t.root = some root)
    (htree : h.memory.Tree root) :
    ∃ o, (Observed.recording.sweep [⟨root, 0⟩] : Action Observed EptError Unit).run ⟨h.memory, []⟩ =
        .ok () o ∧
      (Observed.recording.clearTable 3 root : Action Observed EptError Unit).run ⟨h.memory, []⟩ =
        .ok () o ∧
      t.clear.run h.memory = .ok () o.memory ∧
      (Visitor.memory.clearTable 3 root : MemoryM EptError Unit).run h.memory = .ok () o.memory ∧
      ClearedInOrder h.memory root o ∧
      (teardown t).run h = invept.run { h with memory := o.memory } ∧
      (teardown t).Ends h
        (fun _ h' => h'.memory = o.memory ∧
          h'.cpu.processor.flushes = h.cpu.processor.flushes + 1)
        (fun _ h' => h'.memory = o.memory ∧ h'.cpu.processor.flushes = h.cpu.processor.flushes)
        fun _ _ => False := by
  obtain ⟨o, hsweep, hcleared⟩ := sweep_clears_in_order (ε := EptError) htree
  have hmemory : (Ept.sweep [⟨root, 0⟩] : MemoryM EptError Unit).run h.memory = .ok () o.memory :=
    (Observed.sweep_follows _ ⟨h.memory, []⟩).ok hsweep
  have hclear : t.clear.run h.memory = .ok () o.memory := by
    rw [Ept.clear, hroot]
    exact hmemory
  have hrun : (teardown t).run h = invept.run { h with memory := o.memory } := by
    simp only [teardown, onTable, onMemory, onPlatform, Platform.onMemory,
      EStateM.run_bind, run_onPart, run_mapError, hclear]
  refine ⟨o, hsweep, ?_, hclear, ?_, hcleared, hrun, ?_⟩
  · rw [← hsweep, Visitor.sweep_eq_clearTable]
    rfl
  · rw [← hmemory, ← Visitor.sweep_memory, Visitor.sweep_eq_clearTable]
    rfl
  · rw [Ends, hrun]
    exact invept_ends { h with memory := o.memory }

/-- The table that the first guest got when it touched an address is given back, and the flush comes
last. -/
theorem teardown_in_post_order_touches : ∃ m k root p,
    Machine.History Command.Lawful m k ∧ m.memory.Tree root ∧ m.memory.Intermediate {root} p ∧
      ∃ o : Observed, .release p ∈ o.visits ∧
        (teardown ⟨some root⟩).run { memory := m.memory, cpu := { id := 0 } } =
          invept.run { memory := o.memory, cpu := { id := 0 } } := by
  have hallowed : ∀ c ∈ Machine.touches, ∀ m k, c.Lawful m k := Command.forall_lawful rfl
  obtain ⟨m, k, h, hf, hroot, hp⟩ := (Machine.History.booted Machine.uniprocessor_booted).exists_after
    (P := fun m => m.memory.Fits ∧
      (m.vms[0]?.join.bind fun v => v.guest.table.root) = some ⟨0x1000000⟩ ∧
      (m.memory.entry ⟨⟨0x1000000⟩, 0⟩).target = some ⟨0x100b000⟩) hallowed (by decide +kernel)
  obtain ⟨v, hv, hr⟩ := Option.bind_eq_some_iff.1 hroot
  have htree := h.tree hf (Option.join_eq_some_iff.1 hv) hr
  have hlinked : m.memory.Intermediate {⟨0x1000000⟩} ⟨0x100b000⟩ :=
    ⟨⟨⟨0x1000000⟩, 0⟩, 2, .root rfl, hp⟩
  obtain ⟨o, -, -, -, -, hcleared, hrun, -⟩ := teardown_in_post_order
    (h := { memory := m.memory, cpu := { id := 0 } }) (t := ⟨some ⟨0x1000000⟩⟩) rfl htree
  refine ⟨m, k, _, _, h, htree, hlinked, o, ?_, hrun⟩
  rw [← List.count_pos_iff, hcleared.releases, if_pos hlinked]
  exact Nat.succ_pos _

end Host

end Hypervisor
