import Hypervisor.Proofs.Exit.Service

/-!
# Requests take effect once or not at all

A guest of a machine that has come about lawfully asks for a service, with any registers and with as
much memory left as there may be.  It is served once and goes on behind its request, or its registers
and its place are as they were and no request has reached the kernel.  Only a guest that waits for a
message at no address is moved on before it is refused.
-/

namespace Hypervisor

namespace Session

open Hypervisor.Action

variable {g : Guest} {root : Hpa} {r : Option Hpa} {K : Memory → Prop} {s : Session}
  {reason : ExitReason}

/-- A request is served or refused unless memory outgrows its addresses. -/
theorem handleHypercall_outcome (hg : g.Visited root K) (hs : s.Bears g r K) (hon : s.Current)
    (hrip : s.context.rip.toNat + s.length.toNat < UInt64.size) :
    (handleHypercall reason).Ends s
      (fun r t => r = .continued ∧ ∃ call,
        Hypercall.ofNumber? s.context.regs.rax = some call ∧ Served call s t)
      (fun e t => s.host.cpu.processor.faults = [] → Refused reason s e t)
      fun _ t => ¬ t.host.memory.Fits := by
  have hdone : ∀ {α : Type} {x : SessionM α},
      x.Upholds (Bears g r K) (fun _ => Outgrown g r) →
        x.Ends s (fun _ _ => True) (fun _ _ => True) fun _ t => ¬ t.host.memory.Fits := fun hx =>
    Ends.mono (hx s hs) (fun _ _ _ => trivial) (fun _ _ _ => trivial) fun _ _ h => h.not_fits
  have hresolve : ∀ gpa, (onMemory (s.guest.table.resolve gpa)).Ends s (fun _ _ => True)
      (fun _ _ => True) fun _ t => ¬ t.host.memory.Fits := fun gpa => by
    rw [hs.1.table]
    exact Ends.mono (resolve_bears hg hs gpa) (fun _ _ _ => trivial) (fun _ _ _ => trivial)
      fun _ _ h => h.not_fits
  exact handleHypercall_ends hon (hdone (giveMemoryMap_bears hg)) hresolve fun hover =>
    absurd hrip (Nat.not_lt.2 hover)

/-- A request that is refused has not reached the kernel.  The guest is where it was, unless it was
moved on to wait for a message. -/
theorem Refused.all_or_nothing {e : VmError} {t : Session} (h : Refused reason s e t) :
    t.host.kernel.requests = s.host.kernel.requests ∧
      (t.context = s.context ∧ (e = .unhandledExit reason ∨ e = .noMemory ∨ ∃ cause, e = .ept cause) ∨
        e = .invalidArgument ∧ Hypercall.ofNumber? s.context.regs.rax = some .receive ∧
          (Address.ofWord? s.context.regs.rbx : Option Gpa) = none ∧
            s.Advances s.context.regs t.context) := by
  cases h with
  | unknown _ log => exact ⟨rfl, .inl ⟨rfl, .inl rfl⟩⟩
  | memory _ he m =>
      refine ⟨rfl, .inl ⟨rfl, .inr ?_⟩⟩
      unfold VmError.OfMemory at he
      split at he
      · exact .inl rfl
      · exact .inr ⟨_, rfl⟩
      · exact he.elim
  | destination hcall hrbx hc => exact ⟨rfl, .inr ⟨rfl, hcall, hrbx, hc⟩⟩

end Session

namespace Machine

open Hypervisor.Action Session

/-- The session in which a guest has stopped on a cpu, in a context and with a limit on allocations. -/
def trapped (m : Machine) (c : Cpu) (g : Guest) (context : Context) (budget : Option Nat) : Session where
  host := { m.host c with memory := { m.memory with budget := budget } }
  guest := g
  context := context

/-- The guest is one of a machine that has come about lawfully. -/
def Accommodates (m : Machine) (v : Vm) : Prop :=
  ∃ (k : Callers) (j : Nat), History Command.Lawful m k ∧ m.vms[j]? = some (some v)

variable {m : Machine} {c : Cpu} {v : Vm}

/-- Whatever a guest asks for and however little memory is left, it is served and goes on once behind
its request, or it is refused with its context unchanged and no request made of the kernel.  Only
where it waits for a message at no address has it been moved on before.  One of both happens as long
as callers use what is theirs and addresses fit. -/
theorem requests_all_or_nothing (hcurrent : c.processor.current = some v.guest.block)
    (hfaults : c.processor.faults = []) (reason : ExitReason) (context : Context)
    (budget : Option Nat)
    (hrip : context.rip.toNat +
      ((m.blocks.block v.guest.block).read .vmexitInstructionLength).toNat < UInt64.size) :
    (handleHypercall reason).Ends (m.trapped c v.guest context budget)
      (fun r t => r = .continued ∧ ∃ call, Hypercall.ofNumber? context.regs.rax = some call ∧
        Served call (m.trapped c v.guest context budget) t)
      (fun e t => t.host.kernel.requests = m.kernel.requests ∧
        (t.context = context ∧
            (e = .unhandledExit reason ∨ e = .noMemory ∨ ∃ cause, e = .ept cause) ∨
          e = .invalidArgument ∧ Hypercall.ofNumber? context.regs.rax = some .receive ∧
            (Address.ofWord? context.regs.rbx : Option Gpa) = none ∧
              (m.trapped c v.guest context budget).Advances context.regs t.context))
      fun _ t => m.Accommodates v → ¬ t.host.memory.Fits := by
  by_cases hlawful : m.Accommodates v
  · obtain ⟨k, j, h, hv⟩ := hlawful
    have hk : m.Orderly k False := h.orderly id False.elim
    obtain ⟨root, hg⟩ := hk.lodged hv
    have hbears : (m.trapped c v.guest context budget).Bears v.guest c.region
        (·.Owned (m.estate k) False) :=
      ⟨.refl _, rfl, fun hf => (hk.owned hf).of_pages_eq rfl rfl⟩
    exact Ends.mono (handleHypercall_outcome hg.housed.toVisited hbears hcurrent hrip) (fun _ _ h => h)
      (fun _ _ h => (h hfaults).all_or_nothing) fun _ _ h _ => h
  · have hall : ∀ {α : Type} (x : SessionM α), x.Ends (m.trapped c v.guest context budget)
        (fun _ _ => True) (fun _ _ => True)
          fun _ t => m.Accommodates v → ¬t.host.memory.Fits := fun _ =>
      Ends.of_forall (fun _ _ => trivial) (fun _ _ => trivial) fun _ _ h => absurd h hlawful
    exact Ends.mono (handleHypercall_ends hcurrent (hall _) (fun _ => hall _) fun hover =>
      absurd hrip (Nat.not_lt.2 hover)) (fun _ _ h => h)
        (fun _ _ h => (h hfaults).all_or_nothing) fun _ _ h => h

/-- A guest has stopped at an instruction of three bytes. -/
def stops : List Command :=
  [{ order := .build {} }, { order := .load },
   { order := .writeFields [(.vmexitInstructionLength, 3)] }]

theorem exists_refused (context : Context) (budget : Option Nat) (P : VmError → Session → Prop)
    [∀ e t, Decidable (P e t)]
    (hrun : ((uniprocessor.after stops).any fun m =>
      m.cpus[0]?.any fun c => m.vms[0]?.join.any fun v =>
      c.processor.faults.isEmpty && decide (c.processor.current = some v.guest.block ∧
        ((m.blocks.block v.guest.block).read .vmexitInstructionLength = 3) ∧
        (handleHypercall (.fromGuest (.code .vmcall))).Ends (m.trapped c v.guest context budget)
          (fun _ _ => False) P fun _ _ => False)) = true) :
    ∃ m k c v e t, uniprocessor.after stops = some m ∧ History Command.Lawful m k ∧
      m.cpus[0]? = some c ∧ m.vms[0]? = some (some v) ∧
      c.processor.current = some v.guest.block ∧ c.processor.faults = [] ∧
      (m.blocks.block v.guest.block).read .vmexitInstructionLength = 3 ∧
      (handleHypercall (.fromGuest (.code .vmcall))).run (m.trapped c v.guest context budget) =
        .error (.error e) t ∧ P e t := by
  have hallowed : ∀ c ∈ stops, ∀ m k, c.Lawful m k := Command.forall_lawful rfl
  obtain ⟨m, hm, hc⟩ := (Option.any_eq_true _ _).1 hrun
  obtain ⟨c, hcpu, hv⟩ := (Option.any_eq_true _ _).1 hc
  obtain ⟨v, hv, hends⟩ := (Option.any_eq_true _ _).1 hv
  obtain ⟨hfaults, hends⟩ := (Bool.and_eq_true _ _).mp hends
  obtain ⟨hcurrent, hlength, hends⟩ := of_decide_eq_true hends
  obtain ⟨e, t, hrun, hP⟩ := hends.exists_error
  obtain ⟨k, h⟩ := (History.booted uniprocessor_booted).after hallowed hm
  exact ⟨m, k, c, v, e, t, hm, h, hcpu, Option.join_eq_some_iff.1 hv, hcurrent,
    List.isEmpty_iff.1 hfaults, hlength, hrun, hP⟩

/-- A guest that asks for its memory map when no memory is left is refused, and stays where it is. -/
theorem requests_all_or_nothing_exhausted : ∃ m k c v t, History Command.Lawful m k ∧
    m.vms[0]? = some (some v) ∧ c.processor.current = some v.guest.block ∧
    (handleHypercall (.fromGuest (.code .vmcall))).run
      (m.trapped c v.guest { regs := { rax := 1 }, rip := 0x7000 } (some 0)) =
        .error (.error .noMemory) t ∧
    t.context = { regs := { rax := 1 }, rip := 0x7000 } ∧
    t.host.kernel.requests = m.kernel.requests := by
  obtain ⟨m, k, c, v, e, t, -, h, -, hv, hcurrent, hfaults, hlength, hrun, rfl⟩ :=
    exists_refused { regs := { rax := 1 }, rip := 0x7000 } (some 0) (fun e _ => e = .noMemory)
      (by decide +kernel)
  have hrip : (0x7000 : UInt64).toNat +
      ((m.blocks.block v.guest.block).read .vmexitInstructionLength).toNat < UInt64.size := by
    rw [hlength]
    decide
  obtain ⟨hrequests, hcontext | ⟨he, -⟩⟩ :=
    (requests_all_or_nothing hcurrent hfaults _ _ (some 0) hrip).error hrun
  · exact ⟨m, k, c, v, t, h, hv, hcurrent, hrun, hcontext.1, hrequests⟩
  · cases he

/-- A guest that waits for a message at no address is refused behind its request. -/
theorem request_refused_behind : ∃ m k c v t, uniprocessor.after stops = some m ∧
    History Command.Lawful m k ∧ m.cpus[0]? = some c ∧ m.vms[0]? = some (some v) ∧
    c.processor.current = some v.guest.block ∧ c.processor.faults = [] ∧
    (m.blocks.block v.guest.block).read .vmexitInstructionLength = 3 ∧
    (handleHypercall (.fromGuest (.code .vmcall))).run (m.trapped c v.guest
      { regs := { rax := 3, rbx := 0xffff000000000000 }, rip := 0x7000 } none) =
        .error (.error .invalidArgument) t ∧
    t.context.rip = 0x7003 := by
  obtain ⟨m, k, c, v, e, t, hm, h, hc, hv, hcurrent, hfaults, hlength, hrun, rfl, hrip⟩ :=
    exists_refused { regs := { rax := 3, rbx := 0xffff000000000000 }, rip := 0x7000 } none
      (fun e t => e = .invalidArgument ∧ t.context.rip = 0x7003) (by decide +kernel)
  exact ⟨m, k, c, v, t, hm, h, hc, hv, hcurrent, hfaults, hlength, hrun, hrip⟩

end Machine

end Hypervisor
