import Hypervisor.Address
import Hypervisor.Flags
import Hypervisor.Vmcs.Field

/-!
# Exit reasons

Why a guest stopped.  The processor reports a code, and for three codes it reports more in further
fields: the word of an external interrupt, the port access of an I/O instruction, and the access and
the address of an EPT violation.
-/

namespace Hypervisor

/-- The interruption information of an external interrupt, kept whole to be injected again. -/
structure InterruptInfo where
  raw : UInt32
  deriving DecidableEq

namespace InterruptInfo

def vector (info : InterruptInfo) : UInt8 := info.raw.toUInt8

def text (info : InterruptInfo) : String :=
  Text.record "ExternalIntInfo" [("raw", toString info.raw.toNat)]

end InterruptInfo

/-- The access that an I/O instruction makes. -/
structure PortAccess where
  port : UInt16
  isIn : Bool
  /-- One less than the number of bytes. -/
  size : UInt8
  isString : Bool
  deriving DecidableEq

namespace PortAccess

/-- The access that an exit qualification describes. -/
def ofQualification (q : UInt64) : PortAccess where
  port := (q >>> 16).toUInt16
  isIn := q &&& 0x8 != 0
  size := (q &&& 0x7).toUInt8
  isString := q &&& 0x10 != 0

def text (a : PortAccess) : String :=
  Text.record "IoQualification"
    [("port", toString a.port.toNat), ("is_in", toString a.isIn), ("size", toString a.size.toNat),
     ("string", toString a.isString)]

end PortAccess

/-- What an EPT violation reports about the access. -/
def violationFlags : FlagTable :=
  [.bit "READ" 0, .bit "WRITE" 1, .bit "FETCH" 2, .bit "READABLE" 3, .bit "WRITABLE" 4,
   .bit "EXECUTABLE" 5, .bit "LINEAR_VALID" 7, .bit "TRANSLATED" 8, .bit "NMI_UNBLOCKING" 12]

abbrev Violation := Flags violationFlags

/-- An exit code with nothing further to report. -/
inductive ExitCode where
  | exceptionOrNmi | tripleFault | initSignal | startupIpi | ioSmi | otherSmi | interruptWindow
  | taskSwitch | cpuid | hlt | invd | invlpg | rdpmc | rdtsc | rsm | vmcall | vmclear | vmlaunch
  | vmptrld | vmptrst | vmread | vmresume | vmwrite | vmxoff | vmxon | movCr | movDr | rdmsr
  | wrmsr | entfailGuestState | entfailMsrLoading | mwait | mtf | monitor | pause
  | entfailMachineChk | tprBelowThreshold | apicAccess | accessGdtrOrIdtr | accessLdtrOrTr
  | eptMisconfig | invept | rdtscp | vmxPreemptTimer | invvpid | wbinvd | xsetbv
  deriving DecidableEq

namespace ExitCode

/-- Every code with its number and its name. -/
def table : List (UInt16 × ExitCode × String) :=
  [(0x0, exceptionOrNmi, "ExceptionOrNmi"),
   (0x2, tripleFault, "TripleFault"),
   (0x3, initSignal, "InitSignal"),
   (0x4, startupIpi, "StartupIpi"),
   (0x5, ioSmi, "IoSmi"),
   (0x6, otherSmi, "OtherSmi"),
   (0x7, interruptWindow, "InterruptWindow"),
   (0x9, taskSwitch, "TaskSwitch"),
   (0xa, cpuid, "Cpuid"),
   (0xc, hlt, "Hlt"),
   (0xd, invd, "Invd"),
   (0xe, invlpg, "Invlpg"),
   (0xf, rdpmc, "Rdpmc"),
   (0x10, rdtsc, "Rdtsc"),
   (0x11, rsm, "Rsm"),
   (0x12, vmcall, "Vmcall"),
   (0x13, vmclear, "Vmclear"),
   (0x14, vmlaunch, "Vmlaunch"),
   (0x15, vmptrld, "Vmptrld"),
   (0x16, vmptrst, "Vmptrst"),
   (0x17, vmread, "Vmread"),
   (0x18, vmresume, "Vmresume"),
   (0x19, vmwrite, "Vmwrite"),
   (0x1a, vmxoff, "Vmxoff"),
   (0x1b, vmxon, "Vmxon"),
   (0x1c, movCr, "MovCr"),
   (0x1d, movDr, "MovDr"),
   (0x1f, rdmsr, "Rdmsr"),
   (0x20, wrmsr, "Wrmsr"),
   (0x21, entfailGuestState, "EntfailGuestState"),
   (0x22, entfailMsrLoading, "EntfailMsrLoading"),
   (0x24, mwait, "Mwait"),
   (0x25, mtf, "Mtf"),
   (0x27, monitor, "Monitor"),
   (0x28, pause, "Pause"),
   (0x29, entfailMachineChk, "EntfailMachineChk"),
   (0x2b, tprBelowThreshold, "TprBelowThreshold"),
   (0x2c, apicAccess, "ApicAccess"),
   (0x2e, accessGdtrOrIdtr, "AccessGdtrOrIdtr"),
   (0x2f, accessLdtrOrTr, "AccessLdtrOrTr"),
   (0x31, eptMisconfig, "EptMisconfig"),
   (0x32, invept, "Invept"),
   (0x33, rdtscp, "Rdtscp"),
   (0x34, vmxPreemptTimer, "VmxPreemptTimer"),
   (0x35, invvpid, "Invvpid"),
   (0x36, wbinvd, "Wbinvd"),
   (0x37, xsetbv, "Xsetbv")]

def ofNumber? (n : UInt16) : Option ExitCode :=
  (table.find? fun row => row.1 == n).map fun row => row.2.1

def name (c : ExitCode) : String :=
  ((table.find? fun row => row.2.1 == c).map fun row => row.2.2).getD ""

end ExitCode

/-- What made a guest stop. -/
inductive ExitCause where
  | code (c : ExitCode)
  | externalInterrupt (info : InterruptInfo)
  | ioInstruction (access : PortAccess)
  /-- `address` is missing if the reported word is no guest-physical address. -/
  | eptViolation (access : Violation) (address : Option Gpa)
  | unknown
  deriving DecidableEq

namespace ExitCause

/-- The cause with a number; further fields are fetched with `read` when the number calls for it. -/
def decode {m : Type → Type} [Monad m] (read : Field → m UInt64) (n : UInt16) : m ExitCause :=
  if n == 0x1 then do
    return .externalInterrupt ⟨(← read .vmexitInterruptionInfo).toUInt32⟩
  else if n == 0x1e then do
    return .ioInstruction (.ofQualification (← read .vmexitQualification))
  else if n == 0x30 then do
    let qualification ← read .vmexitQualification
    let address ← read .guestPhysicalAddr
    return .eptViolation (.truncate qualification) (Address.ofWord? address)
  else
    pure (((ExitCode.ofNumber? n).map code).getD unknown)

def text : ExitCause → String
  | code c => c.name
  | externalInterrupt info => Text.wrapped "ExternalInt" info.text
  | ioInstruction access => Text.wrapped "IoInstruction" access.text
  | eptViolation access address =>
      Text.record "EptViolation"
        [("qualification", access.text), ("fault_addr", Text.option Address.text address)]
  | unknown => "Unknown"

end ExitCause

/-- Why a guest stopped, with how far it got. -/
inductive ExitReason where
  /-- The guest ran and stopped. -/
  | fromGuest (cause : ExitCause)
  /-- The guest was not entered. -/
  | entryFailure (cause : ExitCause)
  /-- The processor was in VMX root operation. -/
  | fromRoot (cause : ExitCause)
  deriving DecidableEq

namespace ExitReason

/-- The reason in the exit-reason field. Bits 29 and 31 qualify the code in the low 16 bits. -/
def decode {m : Type → Type} [Monad m] (read : Field → m UInt64) : m ExitReason := do
  let word ← read .vmexitReason
  let cause ← ExitCause.decode read word.toUInt16
  return if word &&& 0x20000000 != 0 then fromRoot cause
    else if word &&& 0x80000000 != 0 then entryFailure cause
    else fromGuest cause

def text : ExitReason → String
  | fromGuest cause => Text.wrapped "BasicExitReason" cause.text
  | entryFailure cause => Text.wrapped "EntryFailure" cause.text
  | fromRoot cause => Text.wrapped "ExitFromVmxRootOperation" cause.text

end ExitReason

end Hypervisor
