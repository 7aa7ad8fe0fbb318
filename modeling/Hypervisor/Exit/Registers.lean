import Hypervisor.Exit.Basic
import Hypervisor.Guest.MsrArea

/-!
# Exits that read or write processor registers

CPUID is answered by the processor, without its VMX bit.  Of the model-specific registers only the
extended-feature register is emulated: its value for the guest is in the list of registers that the
processor loads when it enters the guest.
-/

namespace Hypervisor.Session

/-- Executes CPUID for the guest. -/
def handleCpuid : SessionM ExitResult := do
  let s ← get
  let leaf := s.context.regs.rax.toUInt32
  let result := s.host.cpu.processor.cpuid leaf s.context.regs.rcx.toUInt32
  let ecx := if leaf = 1 then result.ecx &&& ~~~CpuidResult.vmxBit else result.ecx
  onRegisters fun r =>
    { r with
      rax := result.eax.toUInt64, rbx := result.ebx.toUInt64, rcx := ecx.toUInt64
      rdx := result.edx.toUInt64 }
  continueAfter

/-- Where the guest's value of an emulated register is kept. -/
def emulatedMsr (reason : ExitReason) (msr : MsrIndex) : SessionM Nat := do
  Action.require (msr == .efer) (.unhandledExit reason)
  let g := (← get).guest
  Action.orFail (← onMemory (Guest.findMsr g.guestMsrArea g.msrCount .efer)) (.unhandledExit reason)

/-- Reads a model-specific register for the guest. -/
def handleRdmsr (reason : ExitReason) : SessionM ExitResult := do
  let i ← emulatedMsr reason (← get).context.regs.rcx.toUInt32
  let ws ← onMemory (Memory.pageWords (← get).guest.guestMsrArea)
  let value := ws.word i
  onRegisters fun r => { r with rdx := value >>> 32, rax := value &&& 0xffffffff }
  continueAfter

/-- Writes a model-specific register for the guest. When long mode becomes enabled, the guest is in
it from its next entry on. -/
def handleWrmsr (reason : ExitReason) : SessionM ExitResult := do
  let regs := (← get).context.regs
  let value := (regs.rdx <<< 32) ||| (regs.rax &&& 0xffffffff)
  let i ← emulatedMsr reason regs.rcx.toUInt32
  let area := (← get).guest.guestMsrArea
  let old := (← onMemory (Memory.pageWords area)).word i
  if old &&& eferLongMode == 0 && value &&& eferLongMode != 0 then
    onHost do
      let controls ← Host.vmread .vmentryControls
      Host.vmwrite .vmentryControls (controls ||| EntryControl.longModeGuest.bits)
  else
    pure ()
  onMemory (Memory.updatePage area fun ws => ws.setWord i value)
  continueAfter

end Hypervisor.Session
