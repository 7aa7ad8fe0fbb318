import Hypervisor.Guest.Lifetime

/-!
# VMX root operation

A cpu enters VMX root operation before it can run a guest.  It gives up a page for that, which it
gets back when it leaves.
-/

namespace Hypervisor

/-- The control registers of which VMX operation fixes some bits. -/
inductive FixedRegister where
  | cr0
  | cr4
  deriving DecidableEq

namespace FixedRegister

/-- The bit that is set before VMX operation. -/
def needed : FixedRegister → UInt64
  | cr0 => Cr0.numericError.bits
  | cr4 => Cr4.vmxEnable.bits

/-- The register that tells which bits must be set. -/
def mustBeSet : FixedRegister → MsrIndex
  | cr0 => .cr0Fixed0
  | cr4 => .cr4Fixed0

/-- The register that tells which bits may be set. -/
def mayBeSet : FixedRegister → MsrIndex
  | cr0 => .cr0Fixed1
  | cr4 => .cr4Fixed1

end FixedRegister

namespace Processor

/-- The value of a register of which VMX operation fixes some bits. -/
def fixed (c : Processor) : FixedRegister → UInt64
  | .cr0 => c.cr0
  | .cr4 => c.cr4

/-- The processor with another value in one of these registers. -/
def withFixed (c : Processor) (r : FixedRegister) (w : UInt64) : Processor :=
  { c with cr0 := if r = .cr0 then w else c.cr0, cr4 := if r = .cr4 then w else c.cr4 }

end Processor

namespace Host

/-- Whether the processor has VMX. -/
def checkSupport : HostM Unit := do
  if ((← processor).cpuid 1 0).ecx &&& CpuidResult.vmxBit != 0 then
    pure ()
  else
    sayOnCpu .warn "VMX is not supported."
    Action.fail .vmxUnsupported

/-- Whether the processor has extended page tables. -/
def checkEpt : HostM Unit := do
  if (ControlCapabilities.read (← processor).rdmsr).hasEpt then
    pure ()
  else
    sayOnCpu .warn "EPT is not supported."
    Action.fail .eptUnsupported

/-- Sets the bit of a control register that VMX operation needs. -/
def prepareFixed (r : FixedRegister) : HostM Unit := do
  let p ← processor
  let value := p.fixed r ||| r.needed
  onProcessor fun p => p.withFixed r value
  Action.require (obeysFixedBits value (p.rdmsr r.mustBeSet) (p.rdmsr r.mayBeSet)) .vmxOn

/-- Locks the feature-control register, unless the firmware has disabled VMX there. -/
def lockFeatureControl : HostM Unit := do
  let control : FeatureControl := .truncate ((← processor).rdmsr .featureControl)
  Action.require (control.contains FeatureControl.vmxOutsideSmx) .vmxUnsupported
  if control.contains FeatureControl.lock then
    pure ()
  else
    onProcessor fun p => p.wrmsr .featureControl (control ||| FeatureControl.lock).bits

def enterRoot (region : Hpa) : HostM Unit := do
  formatBlock region
  prepareFixed .cr0
  prepareFixed .cr4
  lockFeatureControl
  vmxon

/-- Enters VMX root operation, if the cpu is not in it yet. -/
def vmxOn : HostM Unit := do
  if (← get).cpu.region.isSome then
    pure ()
  else
    checkSupport
    let region ← Action.orFail (← onMemory Memory.allocRetained) .noMemory
    match ← Action.attempt (enterRoot region) with
    | .ok () =>
        onCpu fun c => { c with region := some region }
        sayOnCpu .info "Entered VMX root operation."
    | .error e =>
        onMemory (Memory.release region)
        Action.fail e

/-- Leaves VMX root operation, if the cpu is in it. -/
def vmxOff : HostM Unit := do
  match (← get).cpu.region with
  | none => pure ()
  | some region =>
      vmxoff
      onCpu fun c => { c with region := none, current := none }
      onMemory (Memory.release region)

end Host

end Hypervisor
