import Hypervisor.Instruction.Decode
import Hypervisor.Kernel
import Hypervisor.Vmcs.Block

/-!
# The platform

What all cpus of a host share: its memory, the control blocks in it, the kernel and the log.  Work
that needs no processor is an action on the platform alone.
-/

namespace Hypervisor

/-- How much a log line matters. -/
inductive LogLevel where
  | error | warn | info | debug | trace
  deriving DecidableEq

def LogLevel.name : LogLevel → String
  | error => "ERROR"
  | warn => "WARN"
  | info => "INFO"
  | debug => "DEBUG"
  | trace => "TRACE"

/-- A line of the log. -/
structure LogLine where
  level : LogLevel
  text : String
  deriving DecidableEq

/-- What all cpus of a host share. -/
structure Platform where
  memory : Memory := .fresh
  blocks : ControlBlocks := ∅
  kernel : Kernel := {}
  log : Array LogLine := #[]
  /-- The disassembler that dumps of guests are made with. -/
  disassembler : Disassembler := Instruction.decode?

abbrev PlatformM (α : Type) : Type := Action Platform VmError α

namespace Platform

def onMemory {α : Type} (x : MemoryM VmError α) : PlatformM α :=
  Action.onPart Platform.memory (fun p m => { p with memory := m }) x

def say (level : LogLevel) (text : String) : PlatformM Unit :=
  modify fun p => { p with log := p.log.push ⟨level, text⟩ }

/-- Changes what the kernel has been asked. -/
def onKernel (f : Kernel → Kernel) : PlatformM Unit :=
  modify fun p => { p with kernel := f p.kernel }

end Platform

end Hypervisor
