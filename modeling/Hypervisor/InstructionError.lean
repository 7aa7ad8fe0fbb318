/-!
# Instruction errors

The numbers with which the processor explains why a VMX instruction failed.
-/

namespace Hypervisor

/-- Why a VMX instruction failed. -/
inductive InstructionError where
  | vmcallInVmxRoot
  | vmclearWithInvAddr
  | vmclearWithVmxon
  | vmlaunchWithNonclearVmcs
  | vmresumeWithNonlaunchedVmcs
  | vmresumeAfterVmxoff
  | invalidCs
  | invalidHostState
  | vmPtrLdWithInvAddr
  | vmPtrLdWithVmxOn
  | vmPtrLdWithIncorrectRevId
  | unsupportedVmcsField
  | writeToRoField
  | vmxonInVmxRoot
  | vmEntryWithInvalidExecVmcs
  | vmEntryWithNonlaunchedExecVmcs
  | vmEntryWithExecVmcs
  | vmcallWithNonclearVmcs
  | vmcallWithInvVmexitCs
  | vmcallWithIncorrectMsegRevId
  | vmxoffUnderDualMonitorTreatment
  | vmcallWithInvSmmMonitor
  | vmentryWithInvVmExecCs
  | vmentryWithEventBlockedByMovss
  | invalidOperandToInveptInvvpid
  | unknown
  deriving DecidableEq

namespace InstructionError

/-- Every error with the number and the name that it is reported with. -/
def table : List (InstructionError × UInt32 × String) :=
  [(vmcallInVmxRoot, 1, "VmcallInVmxRoot"),
   (vmclearWithInvAddr, 2, "VmclearWithInvAddr"),
   (vmclearWithVmxon, 3, "VmclearWithVmxon"),
   (vmlaunchWithNonclearVmcs, 4, "VmlaunchWithNonclearVmcs"),
   (vmresumeWithNonlaunchedVmcs, 5, "VmresumeWithNonlaunchedVmcs"),
   (vmresumeAfterVmxoff, 6, "VmresumeAfterVmxoff"),
   (invalidCs, 7, "InvalidCs"),
   (invalidHostState, 8, "InvalidHostState"),
   (vmPtrLdWithInvAddr, 9, "VmPtrLdWithInvAddr"),
   (vmPtrLdWithVmxOn, 10, "VmPtrLdWithVmxOn"),
   (vmPtrLdWithIncorrectRevId, 11, "VmPtrLdWithIncorrectRevId"),
   (unsupportedVmcsField, 12, "UnsupportedVmcsField"),
   (writeToRoField, 13, "WriteToRoField"),
   (vmxonInVmxRoot, 15, "VmxonInVmxRoot"),
   (vmEntryWithInvalidExecVmcs, 16, "VmEntryWithInvalidExecVmcs"),
   (vmEntryWithNonlaunchedExecVmcs, 17, "VmEntryWithNonlaunchedExecVmcs"),
   (vmEntryWithExecVmcs, 18, "VmEntryWithExecVmcs"),
   (vmcallWithNonclearVmcs, 19, "VmcallWithNonclearVmcs"),
   (vmcallWithInvVmexitCs, 20, "VmcallWithInvVmexitCs"),
   (vmcallWithIncorrectMsegRevId, 22, "VmcallWithIncorrectMsegRevId"),
   (vmxoffUnderDualMonitorTreatment, 23, "VmxoffUnderDualMonitorTreatment"),
   (vmcallWithInvSmmMonitor, 24, "VmcallWithInvSmmMonitor"),
   (vmentryWithInvVmExecCs, 25, "VmentryWithInvVmExecCs"),
   (vmentryWithEventBlockedByMovss, 26, "VmentryWithEventBlockedByMovss"),
   (invalidOperandToInveptInvvpid, 28, "InvalidOperandToInveptInvvpid"),
   (unknown, 0xffffffff, "Unknown")]

/-- The error with a number; a number without a meaning is `unknown`. -/
def ofNumber (n : UInt32) : InstructionError :=
  ((table.find? fun row => row.2.1 == n).map Prod.fst).getD unknown

def number (e : InstructionError) : UInt32 :=
  ((table.find? fun row => row.1 == e).map fun row => row.2.1).getD 0xffffffff

def name (e : InstructionError) : String :=
  ((table.find? fun row => row.1 == e).map fun row => row.2.2).getD ""

end InstructionError

end Hypervisor
