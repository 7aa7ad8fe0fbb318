import Hypervisor.Host

/-!
# Dumping a guest

Before a guest is given up, its registers and the instruction that it stopped at are logged.  The
instruction is fetched through a translation of guest-physical addresses, since a guest without
paging has no other.
-/

namespace Hypervisor

namespace Instruction

/-- The longest instruction in bytes. -/
def maxLength : Nat := 15

end Instruction

namespace Host

/-- The bytes of host memory from an address on, at most `count` and none past the end of the page. -/
def bytesAt (v : Hva) (count : Nat) : HostM (List UInt8) := do
  let offset := v.pageOffset.toNat
  match (← get).memory.physical? v with
  | some p => return (← onMemory (Memory.pageWords p)).bytes offset (min count (4096 - offset))
  | none => return []

/-- The value of CR0 that the guest runs with. -/
def guestCr0 : HostM Cr0 := do
  return .truncate (← vmread .guestCr0)

/-- The address of the next instruction of the guest, before any translation. -/
def linearRip : HostM UInt64 := do
  let base ← vmread .guestCsBase
  let rip ← vmread .guestRip
  if base.toNat + rip.toNat < UInt64.size then return base + rip else Action.panic .addOverflow

/-- The next instruction of the guest, with its address. -/
def fetchInstruction (disassemble : Disassembler) (resolve : Gpa → MemoryM VmError (Option Hva)) :
    HostM (UInt64 × Instruction) := do
  Action.require (!(← guestCr0).contains Cr0.paging) .undecodable
  let linear ← linearRip
  let gpa : Gpa ← Action.orFail (Address.ofWord? linear) .undecodable
  let page ← Action.orFail (← onMemory (resolve gpa.pageDown)) .undecodable
  let bytes ← bytesAt (page.plus gpa.pageOffset) Instruction.maxLength
  let size := if (← guestCr0).contains Cr0.protection then .bits32 else .bits16
  let instruction ← Action.orFail (disassemble size linear bytes) .undecodable
  return (linear, instruction)

/-- The value of a field to be logged; one that cannot be read has a value of its own. -/
def shownField (f : Field) : HostM Nat := do
  match ← Action.attempt (vmread f) with
  | .ok w => return w.toNat
  | .error _ => return 0xdeadbeef

/-- Logs the registers and the next instruction of the guest. -/
def dump (disassemble : Disassembler) (resolve : Gpa → MemoryM VmError (Option Hva)) : HostM Unit := do
  let rip ← shownField .guestRip
  let rsp ← shownField .guestRsp
  let rflags ← shownField .guestRflags
  say .error
    ("RIP: " ++ hexPadded 16 rip ++ " RSP: " ++ hexPadded 16 rsp ++ " RFLAGS: " ++ hex rflags)
  let cr0 ← shownField .guestCr0
  let cr3 ← shownField .guestCr3
  let cr4 ← shownField .guestCr4
  say .error ("CR0: " ++ hex cr0 ++ " CR3: " ++ hex cr3 ++ " CR4: " ++ hex cr4)
  let controls : ProcBased :=
    .truncate (← shownField .processorBasedVmexecControls).toUInt32.toUInt64
  say .error ("Proc-based vm-exec control: " ++ controls.text)
  match ← Action.attempt (fetchInstruction disassemble resolve) with
  | .ok (_, instruction) => say .error ("Instruction at RIP: " ++ instruction.text)
  | .error _ => pure ()

end Host

end Hypervisor
