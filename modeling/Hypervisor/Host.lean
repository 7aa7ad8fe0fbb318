import Hypervisor.Platform
import Hypervisor.Processor

/-!
# The host

What the hypervisor works on when no guest is involved: the platform and one cpu.  The VMX
instructions act on it.
-/

namespace Hypervisor

/-- The segment selectors of the host and the task state of a cpu. -/
structure HostSegments where
  code : UInt16 := 0x8
  data : UInt16 := 0x10
  tss : UInt16 := 0x28
  tssBase : UInt64 := 0xffff800000100000
  deriving DecidableEq

/-- A processor with what the hypervisor remembers of it. -/
structure Cpu where
  id : Nat
  segments : HostSegments := {}
  processor : Processor := .fresh
  /-- The page that was given up to enter VMX root operation. -/
  region : Option Hpa := none
  /-- The control block that the hypervisor made current. -/
  current : Option Hpa := none

/-- The host as one of its cpus sees it. -/
structure Host extends Platform where
  cpu : Cpu

abbrev HostM (α : Type) : Type := Action Host VmError α

namespace Host

/-- Works on what the cpu shares with all others. -/
def onPlatform {α : Type} (x : PlatformM α) : HostM α :=
  Action.onPart Host.toPlatform (fun h p => { h with toPlatform := p }) x

def onMemory {α : Type} (x : MemoryM VmError α) : HostM α := onPlatform (Platform.onMemory x)

/-- Works on the memory alone, with the errors of a table. -/
def onTable {α : Type} (x : MemoryM EptError α) : HostM α :=
  onMemory (Action.mapError .ept x)

def say (level : LogLevel) (text : String) : HostM Unit := onPlatform (Platform.say level text)

/-- Writes a line to the log that names the cpu. -/
def sayOnCpu (level : LogLevel) (text : String) : HostM Unit := do
  say level ("[CPU " ++ toString (← get).cpu.id ++ "] " ++ text)

/-- Changes what the kernel has been asked. -/
def onKernel (f : Kernel → Kernel) : HostM Unit := onPlatform (Platform.onKernel f)

/-- Changes what the hypervisor remembers of the cpu. -/
def onCpu (f : Cpu → Cpu) : HostM Unit := modify fun h => { h with cpu := f h.cpu }

def onProcessor (f : Processor → Processor) : HostM Unit :=
  onCpu fun c => { c with processor := f c.processor }

def processor : HostM Processor := do return (← get).cpu.processor

/-- Lets the injected faults see a call of an instruction. -/
def expose (p : Primitive) (f : Option Field) : HostM Unit := do
  let (struck, faults) := InjectedFault.strike p f (← processor).faults
  onProcessor fun c => { c with faults := faults }
  match struck with
  | some e => Action.fail e
  | none => pure ()

/-- The control block that is current in the processor. -/
def currentBlock : HostM Hpa := do
  Action.orFail (← processor).current (.vmxOperation .unknown)

/-- Enters VMX root operation. -/
def vmxon : HostM Unit := do
  expose .vmxon none
  let p ← processor
  Action.require (!p.root) (.vmxOperation .vmxonInVmxRoot)
  Action.require (p.cr4 &&& Cr4.vmxEnable.bits != 0) (.vmxOperation .unknown)
  onProcessor fun p => { p with root := true }

/-- Leaves VMX root operation. -/
def vmxoff : HostM Unit := do
  expose .vmxoff none
  Action.require (← processor).root (.vmxOperation .unknown)
  onProcessor fun p => { p with root := false, current := none }

/-- Makes a control block not launched, and no longer current. -/
def vmclear (block : Hpa) : HostM Unit := do
  expose .vmclear none
  modify fun h => { h with blocks := h.blocks.update block fun b => { b with launched := false } }
  onProcessor fun p => { p with current := if p.current = some block then none else p.current }

/-- Makes a control block current. -/
def vmptrld (block : Hpa) : HostM Unit := do
  expose .vmptrld none
  onProcessor fun p => { p with current := some block }

/-- The value of a field of the current control block. -/
def vmread (f : Field) : HostM UInt64 := do
  expose .vmread (some f)
  let block ← currentBlock
  return ((← get).blocks.block block).read f

/-- Sets a field of the current control block. -/
def vmwrite (f : Field) (w : UInt64) : HostM Unit := do
  expose .vmwrite (some f)
  let block ← currentBlock
  modify fun h => { h with blocks := h.blocks.update block fun b => b.write f w }

/-- Sets fields of the current control block in order. -/
def vmwriteAll (writes : List (Field × UInt64)) : HostM Unit :=
  writes.forM fun w => vmwrite w.1 w.2

/-- Flushes the translations of every guest. -/
def invept : HostM Unit := do
  expose .invept none
  Action.require (!(← processor).flushFails) (.vmxOperation .invalidOperandToInveptInvvpid)
  onProcessor fun p => { p with flushes := p.flushes + 1 }

/-- Takes the next exit from the script; at its end the guest halts. -/
def nextExit : HostM ScriptedExit := do
  match (← processor).script with
  | [] => return { event := .exit 0xc }
  | next :: rest =>
      onProcessor fun p => { p with script := rest }
      return next

/-- Enters the guest whose control block is current, and returns when it exits. The result tells
which registers the guest has changed. -/
def vmenter (launched : Bool) : HostM (List (Register × UInt64)) := do
  expose .enter none
  let block ← Action.orFail (← processor).current (.entry .unknown)
  let wasLaunched := ((← get).blocks.block block).launched
  Action.require (launched || !wasLaunched) (.entry .vmlaunchWithNonclearVmcs)
  Action.require (!launched || wasLaunched) (.entry .vmresumeWithNonlaunchedVmcs)
  let next ← nextExit
  Action.require (next.event != .entryFailure) (.entry .invalidCs)
  onProcessor fun p =>
    if launched then { p with resumes := p.resumes + 1 } else { p with launches := p.launches + 1 }
  modify fun h => { h with
    blocks := h.blocks.update block fun b =>
      ({ b with launched := true }.writeAll next.event.report).writeAll next.fields }
  return next.regs

end Host

end Hypervisor
