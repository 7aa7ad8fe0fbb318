import Hypervisor.Proofs.Ownership.Commands

/-!
# Histories

A machine is booted with nothing allocated but the video buffer and with all cpus idle.  A history is
any sequence of commands from there, each of which succeeds or fails; what callers have is carried
along.
-/

namespace Hypervisor

/-- The processor has not entered VMX root operation, and no instruction is made to fail. -/
structure Cpu.Idle (c : Cpu) : Prop where
  region : c.region = none
  current : c.current = none
  root : c.processor.root = false
  loaded : c.processor.current = none
  faults : c.processor.faults = []

namespace Machine

open Hypervisor.Action

/-- Nothing has been done yet. -/
structure Booted (m : Machine) : Prop where
  memory : m.memory = .fresh
  blocks : m.blocks = ∅
  vms : m.vms = #[]
  tables : m.tables = #[]
  idle : ∀ c ∈ m.cpus, c.Idle

/-- The machines that allowed commands lead to, with what callers have there. -/
inductive History (Allowed : Command → Machine → Callers → Prop) : Machine → Callers → Prop
  | booted {m : Machine} (start : m.Booted) : History Allowed m {}
  | done {m m' : Machine} {k : Callers} {c : Command} {a : Answer} (before : History Allowed m k)
      (allowed : Allowed c m k) (run : (perform c).run m = .ok a m') :
      History Allowed m' (k.after a c.order)
  | failed {m m' : Machine} {k : Callers} {c : Command} {e : VmError} (before : History Allowed m k)
      (allowed : Allowed c m k) (run : (perform c).run m = .error (.error e) m') :
      History Allowed m' k

variable {Allowed : Command → Machine → Callers → Prop} {m : Machine} {k : Callers} {I : Prop}

/-- What holds of a booted machine and is kept by every command holds in every history. -/
theorem History.invariant {P : Machine → Callers → Prop} (h : History Allowed m k)
    (start : ∀ {m}, m.Booted → P m {})
    (step : ∀ {m k c}, P m k → Allowed c m k → (perform c).Ends m (fun a m' => P m' (k.after a c.order))
      (fun _ m' => P m' k) fun _ _ => True) : P m k := by
  induction h with
  | booted hm => exact start hm
  | done _ hallowed hrun ih => exact (step ih hallowed).ok hrun
  | failed _ hallowed hrun ih => exact (step ih hallowed).error hrun

theorem History.mono {Allowed' : Command → Machine → Callers → Prop} (h : History Allowed m k)
    (hallowed : ∀ c m k, Allowed c m k → Allowed' c m k) : History Allowed' m k := by
  induction h with
  | booted hm => exact .booted hm
  | done _ hc hrun ih => exact .done ih (hallowed _ _ _ hc) hrun
  | failed _ hc hrun ih => exact .failed ih (hallowed _ _ _ hc) hrun

/-- The machine after some commands, if all of them succeed. -/
def after (m : Machine) : List Command → Option Machine
  | [] => some m
  | c :: rest =>
      match (perform c).run m with
      | .ok _ m' => m'.after rest
      | .error _ _ => none

theorem after_cons {m' : Machine} {c : Command} {rest : List Command} :
    m.after (c :: rest) = some m' ↔
      ∃ a m₁, (perform c).run m = .ok a m₁ ∧ m₁.after rest = some m' := by
  rw [Machine.after]
  cases hrun : (perform c).run m with
  | ok a m₁ =>
      refine ⟨fun h => ⟨a, m₁, rfl, h⟩, ?_⟩
      rintro ⟨_, _, heq, hrest⟩
      cases heq
      exact hrest
  | error stop m₁ =>
      constructor
      · intro h
        cases h
      · rintro ⟨_, _, heq, -⟩
        cases heq

theorem History.after {m' : Machine} {commands : List Command} (h : History Allowed m k)
    (hallowed : ∀ c ∈ commands, ∀ m k, Allowed c m k) (hrun : m.after commands = some m') :
    ∃ k', History Allowed m' k' := by
  induction commands generalizing m k with
  | nil =>
      cases hrun
      exact ⟨k, h⟩
  | cons c rest ih =>
      obtain ⟨a, m₁, hstep, hrest⟩ := after_cons.1 hrun
      have hnow := History.done h (hallowed c List.mem_cons_self m k) hstep
      exact ih hnow (fun c' hc' => hallowed c' (List.mem_cons_of_mem c hc')) hrest

theorem History.exists_after {commands : List Command} {P : Machine → Prop} [DecidablePred P]
    (h : History Allowed m k) (hallowed : ∀ c ∈ commands, ∀ m k, Allowed c m k)
    (hrun : ((m.after commands).any fun m' => decide (P m')) = true) :
    ∃ m' k', History Allowed m' k' ∧ P m' := by
  obtain ⟨m', hm', hP⟩ := (Option.any_eq_true _ _).1 hrun
  obtain ⟨k', hk'⟩ := h.after hallowed hm'
  exact ⟨m', k', hk', of_decide_eq_true hP⟩

end Machine

namespace Memory

theorem balanced_fresh :
    fresh.Balanced ⟨fun _ => none, fun _ => none, reserved, fun _ => False⟩ where
  aligned := by decide
  page := fun {p} hp => by
    rw [mem_fresh] at hp
    subst hp
    decide
  shape :=
    { bound := fun h => nomatch h
      linked := fun h => nomatch h
      child := fun h => nomatch h
      formed := fun h => nomatch h }
  ledger := fun q => by
    rw [refs_fresh]
    simp [reserved, Account.linked, Account.leaves]
  root := fun h => nomatch h
  idle := fun {p} hp hrefs => by
    rw [mem_fresh] at hp
    rw [refs_fresh, if_pos hp] at hrefs
    cases hrefs

theorem owned_fresh : fresh.Owned { roots := 0, others := 0 } I := by
  refine ⟨_, balanced_fresh, ?_, ?_, ?_, rfl, Multiset.nodup_singleton _, ?_, ?_, False.elim, ?_⟩
  · exact fun q k h => nomatch h
  · exact fun h => absurd h (Multiset.notMem_zero _)
  · exact fun _ => rfl
  · intro p
    rw [Estate.roles, add_zero, Multiset.count_cons, Multiset.count_zero, ← add_assoc]
    exact (Nat.zero_add _).symm
  · exact fun hr => absurd hr (Multiset.notMem_zero _)
  · refine fun _ => ⟨fun p hp => ?_, fun r hr => absurd hr (Multiset.notMem_zero _)⟩
    rw [refs_fresh, if_neg hp]
    exact Nat.zero_le 1

end Memory

namespace Machine

variable {Allowed : Command → Machine → Callers → Prop} {m : Machine} {k : Callers} {I : Prop}

theorem Booted.estate (h : m.Booted) : m.estate {} = { roots := 0, others := 0 } := by
  have hregions : (m.cpus.toList.flatMap fun c => c.region.toList) = [] := by
    rw [List.flatMap_eq_nil_iff]
    intro c hc
    rw [(h.idle c (Array.mem_toList_iff.1 hc)).region]
    rfl
  rw [Machine.estate, h.tables, h.vms, hregions]
  rfl

theorem Booted.orderly (h : m.Booted) : m.Orderly {} I where
  tables := by
    rw [h.tables]
    exact fun t ht => absurd ht (Array.not_mem_empty t)
  vms := fun hv => by
    rw [h.vms] at hv
    cases hv
  sizes := fun hv => by
    rw [h.vms] at hv
    cases hv
  whole := fun hv => by
    rw [h.vms] at hv
    cases hv
  owned := fun _ => by
    rw [h.memory, h.estate]
    exact Memory.owned_fresh

/-- A machine with one cpu. -/
def uniprocessor : Machine where
  cpus := #[{ id := 0 }]

theorem uniprocessor_booted : uniprocessor.Booted where
  memory := rfl
  blocks := rfl
  vms := rfl
  tables := rfl
  idle := fun c hc => by
    obtain rfl := Array.mem_singleton.1 hc
    exact ⟨rfl, rfl, rfl, rfl, rfl⟩

/-- Lawful commands keep a machine in order, and in isolation if they share no page. -/
theorem History.orderly (h : History Allowed m k) (hlawful : ∀ {c m k}, Allowed c m k → c.Lawful m k)
    (hisolates : I → ∀ {c m k}, Allowed c m k → c.order.Isolates) : m.Orderly k I :=
  h.invariant (fun hm => hm.orderly) fun hm hc =>
    (perform_keeps hm (hlawful hc) fun hI => hisolates hI hc).mono (fun _ _ h => h) (fun _ _ h => h)
      fun _ _ _ => trivial

end Machine

end Hypervisor
