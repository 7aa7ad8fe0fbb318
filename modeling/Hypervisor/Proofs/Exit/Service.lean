import Hypervisor.Proofs.Exit.Advance
import Hypervisor.Proofs.Ownership.MemoryMap

/-!
# Serving a guest

A guest that asks for a service finds the answer in one register and goes on behind its request, or
the request is refused.  A refusal leaves the guest where it was, with one exception: before a guest
waits for a message it is moved on, and that its destination is no address is found only then.
-/

namespace Hypervisor

namespace Session

open Hypervisor.Action

/-- The status of the message that the guest sends: its receiver may not exist. -/
def messageStatus (s : Session) : Int64 :=
  if s.context.regs.rbx = Hypercall.fileServerAlias ∧ s.host.kernel.fileServer = none then
    Hypercall.badEnvironment
  else s.host.kernel.messageStatus

/-- The registers that the guest finds after a service. -/
def answer (s : Session) : Hypercall → Registers
  | .memoryMap => { s.context.regs with rbx := Layout.memoryMap }
  | .send => { s.context.regs with rax := s.messageStatus.toUInt64 }
  | .receive => { s.context.regs with rax := s.host.kernel.messageStatus.toUInt64 }
  | .diskImage => { s.context.regs with rax := s.host.kernel.diskImage.toUInt64 }
  | .endOfInterrupt | .backToHost => s.context.regs

/-- The guest has been served: it goes on behind its request, and its control block is the same. -/
structure Served (call : Hypercall) (s t : Session) : Prop extends Masked (fun _ => 0) s t where
  guest : t.guest = s.guest
  context : s.Advances (s.answer call) t.context

/-- The session after a request was refused with an error.  No request has reached the kernel. -/
inductive Refused (reason : ExitReason) (s : Session) : VmError → Session → Prop where
  | unknown (h : Hypercall.ofNumber? s.context.regs.rax = none) (log : Array LogLine) :
      Refused reason s (.unhandledExit reason) { s with host := { s.host with log := log } }
  | memory {e : VmError} (h : Hypercall.ofNumber? s.context.regs.rax = some .memoryMap)
      (he : e.OfMemory) (m : Memory) : Refused reason s e (s.withMemory m)
  | destination {c : Context} (h : Hypercall.ofNumber? s.context.regs.rax = some .receive)
      (hrbx : (Address.ofWord? s.context.regs.rbx : Option Gpa) = none)
      (hc : s.Advances s.context.regs c) :
      Refused reason s .invalidArgument { s with context := c }

variable {reason : ExitReason} {s t : Session} {F : Panic → Session → Prop}

theorem onMemory_leaves {α : Type} (x : MemoryM VmError α) :
    (onMemory x).Upholds (fun t => ∃ m, t = s.withMemory m) fun _ _ => True := by
  rintro _ ⟨m, rfl⟩
  rw [ends_onMemory]
  exact Ends.of_forall (fun _ m => ⟨m, rfl⟩) (fun _ m => ⟨m, rfl⟩) fun _ _ => trivial

theorem memoryMapPage_leaves :
    memoryMapPage.Upholds (fun t => ∃ m, t = s.withMemory m) fun _ _ => True := by
  refine Upholds.get_bind fun _ _ => Upholds.bind (onMemory_leaves _) fun page => ?_
  split
  · exact Upholds.pure
  · exact Upholds.bind (onMemory_leaves _) fun _ =>
      Upholds.bind (onMemory_leaves _) fun _ => Upholds.orFail

theorem giveMemoryMap_leaves (s : Session) :
    giveMemoryMap.Ends s
      (fun _ t => ∃ m, t = { s.withMemory m with
        context := { s.context with regs := s.answer .memoryMap } })
      (fun e t => e.OfMemory ∧ ∃ m, t = s.withMemory m) fun _ _ => True := by
  have herror : giveMemoryMap.Ends s (fun _ _ => True) (fun e _ => e.OfMemory) fun _ _ => True :=
    giveMemoryMap_raises s
  have hstate : giveMemoryMap.Ends s
      (fun _ t => ∃ m, t = { s.withMemory m with
        context := { s.context with regs := s.answer .memoryMap } })
      (fun _ t => ∃ m, t = s.withMemory m) fun _ _ => True := by
    rw [giveMemoryMap, ends_bind]
    refine Ends.mono (memoryMapPage_leaves s ⟨s.host.memory, rfl⟩) ?_ (fun _ _ h => h) fun _ _ h => h
    rintro page _ ⟨m, rfl⟩
    rw [ends_bind, ends_get]
    cases (s.withMemory m).host.memory.physical? page with
    | none => exact ⟨m, rfl⟩
    | some p => exact ⟨_, rfl⟩
  exact Ends.mono (hstate.and herror) (fun _ _ h => h.1) (fun _ _ h => ⟨h.2, h.1⟩) fun _ _ h => h.1

theorem resolve_leaves {gpa : Gpa} (hresolve : (onMemory (s.guest.table.resolve gpa)).Ends s
      (fun _ _ => True) (fun _ _ => True) F) :
    (onMemory (s.guest.table.resolve gpa)).Ends s (fun _ t => ∃ m, t = s.withMemory m)
      (fun _ _ => False) F := by
  have hleaves : (onMemory (s.guest.table.resolve gpa)).Ends s (fun _ t => ∃ m, t = s.withMemory m)
      (fun _ _ => False) fun _ _ => True :=
    (onMemory_raises (Ept.resolve_raises _ gpa)).ends (onMemory_leaves _) ⟨s.host.memory, rfl⟩
  exact Ends.mono (hleaves.and hresolve) (fun _ _ h => h.1) (fun _ _ h => h.1) fun _ _ h => h.2

theorem sendMessage_ends (hresolve : ∀ gpa, (onMemory (s.guest.table.resolve gpa)).Ends s
      (fun _ _ => True) (fun _ _ => True) F) :
    sendMessage.Ends s
      (fun status t => status = s.messageStatus ∧ ∃ m requests, t = { s with host := { s.host with
        memory := m, kernel := { s.host.kernel with requests := requests } } })
      (fun _ _ => False) F := by
  have hstatus : s.messageStatus =
      (if s.context.regs.rbx = Hypercall.fileServerAlias then s.host.kernel.fileServer
        else some ⟨s.context.regs.rbx.toUInt32⟩).elim Hypercall.badEnvironment
          fun _ => s.host.kernel.messageStatus := by
    by_cases hfile : s.context.regs.rbx = Hypercall.fileServerAlias
    · rw [if_pos hfile]
      cases hserver : s.host.kernel.fileServer with
      | some env => exact if_neg fun h => by cases hserver.symm.trans h.2
      | none => exact if_pos ⟨hfile, hserver⟩
    · rw [if_neg hfile]
      exact if_neg fun h => hfile h.1
  rw [sendMessage, ends_bind, ends_get]
  dsimp only
  generalize (if s.context.regs.rbx = Hypercall.fileServerAlias then s.host.kernel.fileServer
    else some ⟨s.context.regs.rbx.toUInt32⟩) = receiver at hstatus ⊢
  cases receiver
  all_goals
    split
    · rw [ends_bind]
      refine Ends.mono (resolve_leaves (hresolve _)) ?_ (fun _ _ h => h) fun _ _ h => h
      rintro page _ ⟨m, rfl⟩
      exact ⟨hstatus.symm, m, _, rfl⟩
    · exact ⟨hstatus.symm, s.host.memory, _, rfl⟩

theorem receiveMessage_ends (hon : s.Current)
    (hcall : Hypercall.ofNumber? s.context.regs.rax = some .receive)
    (hlast : UInt64.size ≤ s.context.rip.toNat + s.length.toNat → ∀ p t, F p t) :
    receiveMessage.Ends s (fun r t => r = .continued ∧ Served .receive s t)
      (fun e t => s.host.cpu.processor.faults = [] → Refused reason s e t) F := by
  rw [receiveMessage, ends_bind]
  refine Ends.mono (forwardRip_ends (.refl (fun _ => 0) s) hon rfl rfl) ?_
    (fun _ _ hf hnone => absurd hnone hf) fun p t h => hlast h.2 p t
  rintro - _ ⟨c, hc, rfl⟩
  rw [ends_bind, ends_get, ends_bind, ends_orFail]
  dsimp only
  rw [hc.regs]
  cases hrbx : (Address.ofWord? s.context.regs.rbx : Option Gpa) with
  | none =>
      intro hfaults
      rw [Host.spent_of_faultless hfaults]
      exact .destination hcall hrbx hc
  | some gpa =>
      refine ⟨rfl, ((Masked.refl _ s).spent _ _).congr rfl rfl, rfl, ?_, hc.rip, hc.rsp⟩
      exact congrArg
        (fun r : Registers => { r with rax := s.host.kernel.messageStatus.toUInt64 }) hc.regs

/-- A request is served, or it is refused. -/
theorem handleHypercall_ends (hon : s.Current)
    (hmap : giveMemoryMap.Ends s (fun _ _ => True) (fun _ _ => True) F)
    (hresolve : ∀ gpa, (onMemory (s.guest.table.resolve gpa)).Ends s
      (fun _ _ => True) (fun _ _ => True) F)
    (hlast : UInt64.size ≤ s.context.rip.toNat + s.length.toNat → ∀ p t, F p t) :
    (handleHypercall reason).Ends s
      (fun r t => r = .continued ∧ ∃ call,
        Hypercall.ofNumber? s.context.regs.rax = some call ∧ Served call s t)
      (fun e t => s.host.cpu.processor.faults = [] → Refused reason s e t) F := by
  have hrest : ∀ {call t}, Hypercall.ofNumber? s.context.regs.rax = some call →
      Masked (fun _ => 0) s t → t.guest = s.guest →
      t.context = { s.context with regs := s.answer call } →
      continueAfter.Ends t
        (fun r u => r = .continued ∧ ∃ call,
          Hypercall.ofNumber? s.context.regs.rax = some call ∧ Served call s u)
        (fun e u => s.host.cpu.processor.faults = [] → Refused reason s e u) F := by
    intro call t hcall ht hguest hcontext
    refine Ends.mono (continueAfter_ends ht hon rfl hcontext) ?_
      (fun _ _ hf hnone => absurd hnone hf) fun p u h => hlast h p u
    rintro r u ⟨rfl, hu, hguest', hc⟩
    exact ⟨rfl, call, hcall, hu, hguest'.trans hguest, hc⟩
  rw [handleHypercall, ends_bind, ends_get]
  dsimp only
  split
  · rename_i hcall
    exact fun _ => .unknown hcall _
  · rename_i hcall
    rw [ends_bind]
    refine Ends.mono ((giveMemoryMap_leaves s).and hmap) ?_ ?_ fun _ _ h => h.2
    · rintro - _ ⟨⟨m, rfl⟩, -⟩
      exact hrest hcall ((Masked.refl _ s).congr rfl rfl) rfl rfl
    · rintro e _ ⟨⟨he, m, rfl⟩, -⟩ -
      exact .memory hcall he m
  · rename_i hcall
    rw [ends_bind]
    refine Ends.mono (sendMessage_ends hresolve) ?_ (fun _ _ h => h.elim) fun _ _ h => h
    rintro status _ ⟨rfl, m, requests, rfl⟩
    exact hrest hcall ((Masked.refl _ s).congr rfl rfl) rfl rfl
  · rename_i hcall
    refine Ends.mono (receiveMessage_ends hon hcall hlast) ?_ (fun _ _ h => h) fun _ _ h => h
    exact fun r t h => ⟨h.1, .receive, hcall, h.2⟩
  · exact hrest ‹_› ((Masked.refl _ s).congr rfl rfl) rfl rfl
  · exact hrest ‹_› ((Masked.refl _ s).congr rfl rfl) rfl rfl
  · exact hrest ‹_› ((Masked.refl _ s).congr rfl rfl) rfl rfl

end Session

end Hypervisor
