import Hypervisor.Exit.Reason
import Hypervisor.InstructionError

/-!
# Errors

An operation of the hypervisor fails for one of the causes listed here.  Each cause has a status
code, which the caller of the kernel sees, and a line of text for the log.
-/

namespace Hypervisor

/-- Why an extended page table refuses an operation. -/
inductive EptError where
  | unaligned
  | notExist
  | duplicated
  | outOfMemory
  | invalidRoot
  | emptyPermission
  /-- The processor takes a writable page that is not readable for a misconfiguration. -/
  | writeWithoutRead
  deriving DecidableEq

namespace EptError

def table : List (EptError × String) :=
  [(unaligned, "Unaligned"), (notExist, "NotExist"), (duplicated, "Duplicated"),
   (outOfMemory, "OutOfMemory"), (invalidRoot, "InvalidRoot"),
   (emptyPermission, "EmptyPermission"), (writeWithoutRead, "WriteWithoutRead")]

def name (e : EptError) : String :=
  ((table.find? fun row => row.1 == e).map Prod.snd).getD ""

def ofName? (name : String) : Option EptError :=
  (table.find? fun row => row.2 == name).map Prod.fst

end EptError

/-- Why an operation of the hypervisor fails. -/
inductive VmError where
  /-- A VMX instruction failed. -/
  | vmxOperation (e : InstructionError)
  /-- No handler accepts the exit. -/
  | unhandledExit (reason : ExitReason)
  | ept (e : EptError)
  | noMemory
  | invalidArgument
  | vmxUnsupported
  | eptUnsupported
  /-- The processor does not enter VMX root operation. -/
  | vmxOn
  /-- A control block cannot be cleared or loaded. -/
  | vmcsInit
  /-- The guest was not entered. -/
  | entry (e : InstructionError)
  /-- The control block of another guest is current on the cpu. -/
  | foreignVmcs
  /-- The instruction of the guest cannot be decoded. -/
  | undecodable
  deriving DecidableEq

namespace VmError

def kind : VmError → String
  | vmxOperation _ => "VmxOperationError"
  | unhandledExit _ => "HandleVmexitFailed"
  | ept _ => "EptMappingError"
  | noMemory => "NoMemory"
  | invalidArgument => "InvalidArgument"
  | vmxUnsupported => "VmxUnsupported"
  | eptUnsupported => "EptUnsupported"
  | vmxOn => "VmxOnFailed"
  | vmcsInit => "VmcsInitFailed"
  | entry _ => "EntryFailed"
  | foreignVmcs => "ForeignVmcs"
  | undecodable => "FailedToDecodeInstruction"

def text (e : VmError) : String :=
  match e with
  | vmxOperation cause | entry cause => Text.wrapped e.kind cause.name
  | unhandledExit reason => Text.wrapped e.kind reason.text
  | ept cause => Text.wrapped e.kind cause.name
  | _ => e.kind

def message : VmError → String
  | vmxOperation e => "vmx instruction failed: " ++ e.name
  | unhandledExit reason => "unhandled vmexit: " ++ reason.text
  | ept e => "ept mapping failed: " ++ e.name
  | noMemory => "out of memory"
  | invalidArgument => "invalid argument"
  | vmxUnsupported => "vmx is not supported"
  | eptUnsupported => "ept is not supported"
  | vmxOn => "failed to enter vmx root operation"
  | vmcsInit => "failed to initialize the vmcs"
  | entry e => "vm entry failed: " ++ e.name
  | foreignVmcs => "another vmcs is active on this cpu"
  | undecodable => "failed to decode instruction"

/-- The status that a system call returns for an error. -/
def errno : VmError → Int
  | noMemory | ept .outOfMemory => -4
  | ept .notExist => -21
  | ept _ | invalidArgument | unhandledExit _ | undecodable => -3
  | vmxUnsupported => -17
  | eptUnsupported => -18
  | vmxOn => -19
  | vmcsInit | vmxOperation _ | entry _ | foreignVmcs => -20

end VmError

/-- A broken rule of the kernel, at which it stops. -/
inductive Panic where
  | addOverflow
  | subOverflow
  /-- A reference is taken on a page that is free. -/
  | retainOfFree (page : Hpa)
  /-- A reference is dropped from a page that is free. -/
  | releaseOfFree (page : Hpa)
  /-- A reference is dropped from a page that has none. -/
  | releaseOfUnreferenced (page : Hpa)
  /-- A page that is free is read or written. -/
  | accessToFree (address : Hpa)
  deriving DecidableEq

def Panic.message : Panic → String
  | addOverflow => "attempt to add with overflow"
  | subOverflow => "attempt to subtract with overflow"
  | retainOfFree page => "retain of a free page " ++ page.text
  | releaseOfFree page => "release of a free page " ++ page.text
  | releaseOfUnreferenced page =>
      "assertion `left != right` failed: release of an unreferenced page " ++ page.text ++
        "\n  left: 0\n right: 0"
  | accessToFree address => "access to a free page " ++ address.text

end Hypervisor
