import Hypervisor.Flags

/-!
# Execution controls

The capability registers of a processor and the control words that they govern.  A control word may
be chosen freely only where its capability register permits both values of a bit.
-/

namespace Hypervisor

/-- Numbers of the model-specific registers. -/
abbrev MsrIndex := UInt32

namespace MsrIndex

def featureControl : MsrIndex := 0x3a
def vmxBasic : MsrIndex := 0x480
def pinBasedControls : MsrIndex := 0x481
def procBasedControls : MsrIndex := 0x482
def exitControls : MsrIndex := 0x483
def entryControls : MsrIndex := 0x484
def cr0Fixed0 : MsrIndex := 0x486
def cr0Fixed1 : MsrIndex := 0x487
def cr4Fixed0 : MsrIndex := 0x488
def cr4Fixed1 : MsrIndex := 0x489
def procBasedControls2 : MsrIndex := 0x48b
def truePinBasedControls : MsrIndex := 0x48d
def trueProcBasedControls : MsrIndex := 0x48e
def trueExitControls : MsrIndex := 0x48f
def trueEntryControls : MsrIndex := 0x490

/-- The extended-feature register, which enables long mode. -/
def efer : MsrIndex := 0xc0000080

end MsrIndex

/-- Long mode is enabled, in the extended-feature register. -/
def eferLongMode : UInt64 := 0x100

/-- The flags of the basic VMX information. -/
def vmxBasicFlags : FlagTable := [.bit "TRUE_CONTROLS" 55]

abbrev VmxBasic := Flags vmxBasicFlags

namespace VmxBasic

/-- The processor says exactly which controls may be cleared. -/
def trueControls : VmxBasic := { bits := 0x80000000000000 }

/-- The revision of the format of control blocks, bits 30:0. -/
def revisionId (raw : UInt64) : UInt32 := raw.toUInt32 &&& 0x7fffffff

/-- The number of bytes in a control block, bits 44:32. -/
def regionSize (raw : UInt64) : UInt64 := (raw >>> 32) &&& 0x1fff

end VmxBasic

/-- The bits of the feature-control register. -/
def featureControlFlags : FlagTable :=
  [.bit "LOCK" 0, .bit "VMX_INSIDE_SMX" 1, .bit "VMX_OUTSIDE_SMX" 2]

abbrev FeatureControl := Flags featureControlFlags

/-- The register cannot be written any more. -/
def FeatureControl.lock : FeatureControl := { bits := 0x1 }

/-- VMX operation is allowed outside safer mode. -/
def FeatureControl.vmxOutsideSmx : FeatureControl := { bits := 0x4 }

def pinBasedFlags : FlagTable :=
  [.bit "EXTERNAL_INTERRUPT_EXITING" 0, .bit "NMI_EXITING" 3, .bit "VIRTUAL_NMIS" 5]

abbrev PinBased := Flags pinBasedFlags

/-- An external interrupt stops the guest. -/
def PinBased.externalInterruptExiting : PinBased := { bits := 0x1 }

/-- The primary processor-based execution controls. -/
def procBasedFlags : FlagTable :=
  [.bit "INTRWINEXIT" 2, .bit "HLT_EXITING" 7, .bit "INVLPGEXIT" 9, .bit "CR3LOADEXIT" 15,
   .bit "CR3STOREXIT" 16, .bit "UNCONDIOEXIT" 24, .bit "USEIOBMP" 25, .bit "USEMSRBMP" 28,
   .bit "ACTIVATE_SECONDARY_CTL" 31]

/-- Primary processor-based execution controls. -/
abbrev ProcBased := Flags procBasedFlags

namespace ProcBased

/-- The guest stops as soon as it accepts interrupts. -/
def interruptWindowExiting : ProcBased := { bits := 0x4 }

/-- A halt stops the guest. -/
def hltExiting : ProcBased := { bits := 0x80 }

/-- The I/O bitmaps decide which port accesses stop the guest. -/
def useIoBitmaps : ProcBased := { bits := 0x2000000 }

/-- The secondary controls are in force. -/
def activateSecondary : ProcBased := { bits := 0x80000000 }

end ProcBased

/-- The secondary processor-based execution controls. -/
def procBased2Flags : FlagTable :=
  [.bit "ENABLE_EPT" 1, .bit "ENABLE_RDTSCP" 3, .bit "ENABLE_VPID" 5,
   .bit "UNRESTRICTED_GUEST" 7]

/-- Secondary processor-based execution controls. -/
abbrev ProcBased2 := Flags procBased2Flags

/-- Guest-physical addresses are translated by the extended page table. -/
def ProcBased2.enableEpt : ProcBased2 := { bits := 0x2 }

/-- The guest may run without paging. -/
def ProcBased2.unrestrictedGuest : ProcBased2 := { bits := 0x80 }

def exitControlFlags : FlagTable :=
  [.bit "SAVE_DEBUG_CTLS" 2, .bit "HOST_ADDRESS_SPACE_SIZE" 9, .bit "ACK_INTR_ON_EXIT" 15,
   .bit "SAVE_IA32_EFER" 20, .bit "LOAD_IA32_EFER" 21]

abbrev ExitControl := Flags exitControlFlags

/-- The host runs in 64-bit mode. -/
def ExitControl.hostAddressSpaceSize : ExitControl := { bits := 0x200 }

/-- An external interrupt is acknowledged when it stops the guest. -/
def ExitControl.acknowledgeInterrupt : ExitControl := { bits := 0x8000 }

def entryControlFlags : FlagTable :=
  [.bit "LOAD_DEBUG_CTL" 2, .bit "IA32E_MODE_GUEST" 9, .bit "LOAD_IA32_EFER" 15]

abbrev EntryControl := Flags entryControlFlags

/-- The guest runs in long mode. -/
def EntryControl.longModeGuest : EntryControl := { bits := 0x200 }

/-- The control word nearest to `desired` that a capability register permits. A bit set in the low
half must be set, and a bit clear in the high half must be clear. -/
def adjustControls (desired : UInt32) (capability : UInt64) : UInt32 :=
  (desired ||| capability.toUInt32) &&& (capability >>> 32).toUInt32

/-- Whether a register value has every bit of `fixed0` and no bit outside `fixed1`. -/
def obeysFixedBits (value fixed0 fixed1 : UInt64) : Bool :=
  value &&& fixed0 == fixed0 && value &&& ~~~fixed1 == 0

/-- The capability registers in force for the five control words. -/
structure ControlCapabilities where
  pinBased : UInt64
  procBased : UInt64
  procBased2 : UInt64
  exit : UInt64
  entry : UInt64
  deriving DecidableEq

namespace ControlCapabilities

/-- The capabilities of a processor with the given registers. The registers that report the true
controls are preferred. -/
def read (rdmsr : MsrIndex → UInt64) : ControlCapabilities :=
  let basic : VmxBasic := .truncate (rdmsr .vmxBasic)
  if basic.contains VmxBasic.trueControls then
    { pinBased := rdmsr .truePinBasedControls
      procBased := rdmsr .trueProcBasedControls
      procBased2 := rdmsr .procBasedControls2
      exit := rdmsr .trueExitControls
      entry := rdmsr .trueEntryControls }
  else
    { pinBased := rdmsr .pinBasedControls
      procBased := rdmsr .procBasedControls
      procBased2 := rdmsr .procBasedControls2
      exit := rdmsr .exitControls
      entry := rdmsr .entryControls }

/-- Whether the secondary controls can be put in force. -/
def hasSecondaryControls (c : ControlCapabilities) : Bool :=
  (c.procBased >>> 32) &&& ProcBased.activateSecondary.bits != 0

/-- Whether the extended page table can be used. -/
def hasEpt (c : ControlCapabilities) : Bool :=
  c.hasSecondaryControls && (c.procBased2 >>> 32) &&& ProcBased2.enableEpt.bits != 0

end ControlCapabilities

end Hypervisor
