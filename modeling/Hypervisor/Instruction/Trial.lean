import Hypervisor.Instruction.Dump

/-!
# Decoding on trial

Code is decoded as it would be for a guest, on a host that holds nothing but a page with the code.
-/

namespace Hypervisor

/-- Code to decode, and the state of the guest that is about to execute it. -/
structure CodeTrial where
  bytes : List UInt8
  rip : UInt64
  csBase : UInt64 := 0
  cr0 : UInt64 := 0
  /-- The guest-physical page that holds the code, if it is not the one of the next instruction. -/
  mapped : Option UInt64 := none

/-- The outcome of a trial. -/
structure CodeReport where
  /-- The address of the instruction. -/
  address : UInt64
  instruction : Instruction
  /-- What the dump of the guest logs. -/
  log : List LogLine

namespace CodeTrial

/-- The address of the next instruction, modulo the size of a word. -/
def linear (t : CodeTrial) : UInt64 := t.rip + t.csBase

/-- The guest-physical page that holds the code. -/
def page (t : CodeTrial) : Gpa := Address.pageDown ⟨t.mapped.getD t.linear⟩

def block (t : CodeTrial) : ControlBlock :=
  ({} : ControlBlock).writeAll
    [(.guestRip, t.rip), (.guestCsBase, t.csBase), (.guestCr0, t.cr0)]

/-- Decodes and dumps the code in `host`, whose current control block is free to use. -/
def perform (t : CodeTrial) : HostM CodeReport := do
  let page ← Action.orFail (← Host.onMemory Memory.allocRetained) .noMemory
  let block ← Action.orFail (← Host.onMemory Memory.allocRetained) .noMemory
  Host.onMemory (Memory.updatePage page fun ws =>
    ws.setBytes (t.linear &&& pageMask).toNat t.bytes)
  modify fun h => { h with blocks := h.blocks.insert block t.block }
  Host.vmptrld block
  let resolve (gpa : Gpa) : MemoryM VmError (Option Hva) := do
    if gpa == t.page then return some (← Memory.virtual page) else return none
  let disassemble := (← get).disassembler
  let (address, instruction) ← Host.fetchInstruction disassemble resolve
  Host.dump disassemble resolve
  return ⟨address, instruction, (← get).log.toList⟩

end CodeTrial

end Hypervisor
