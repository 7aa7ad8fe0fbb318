import Hypervisor.Control
import Hypervisor.Registers
import Hypervisor.Vmcs.Block

/-!
# Simulated processors

A processor keeps its registers and plays back a script in place of running a guest: whenever a guest
is entered, the next scripted exit is reported at once.  Any of its VMX instructions can be made to
fail.
-/

namespace Hypervisor

/-- What the guest does when it is entered. -/
inductive ScriptedEvent where
  /-- It executes CPUID, an instruction of `length` bytes. -/
  | cpuid (length : UInt64)
  /-- It touches an address that is not mapped. -/
  | eptViolation (gpa : UInt64)
  /-- It stops for a reason. -/
  | exit (reason : UInt64)
  /-- It is not entered. -/
  | entryFailure
  deriving DecidableEq

/-- The fields in which an event is reported. -/
def ScriptedEvent.report : ScriptedEvent → List (Field × UInt64)
  | cpuid length => [(.vmexitReason, 0xa), (.vmexitInstructionLength, length)]
  | eptViolation gpa =>
      [(.guestPhysicalAddr, gpa), (.vmexitQualification, 0), (.vmexitReason, 0x30),
       (.vmexitInstructionLength, 0)]
  | exit reason => [(.vmexitReason, reason), (.vmexitInstructionLength, 0)]
  | entryFailure => []

/-- The next exit of a guest, with the registers and the fields that the guest has changed by then. -/
structure ScriptedExit where
  event : ScriptedEvent
  regs : List (Register × UInt64) := []
  fields : List (Field × UInt64) := []

/-- The VMX instructions that can be made to fail. -/
inductive Primitive where
  | vmxon | vmxoff | vmclear | vmptrld | vmread | vmwrite | invept | enter
  deriving DecidableEq

/-- A failure that an instruction is made to have. -/
structure InjectedFault where
  primitive : Primitive
  /-- The only field for which reading or writing fails. -/
  field : Option Field
  /-- How many matching calls pass first. -/
  skip : Nat
  /-- How many calls fail after that, if not all. -/
  times : Option Nat
  error : VmError

namespace InjectedFault

def fits (fault : InjectedFault) (p : Primitive) (f : Option Field) : Bool :=
  fault.primitive == p && (fault.field.isNone || fault.field == f)

/-- The error of the first fault that strikes a call, and the faults after the call. A fault that is
still skipped lets the later ones see the call. -/
def strike (p : Primitive) (f : Option Field) :
    List InjectedFault → Option VmError × List InjectedFault
  | [] => (none, [])
  | fault :: rest =>
      let pass (fault : InjectedFault) :=
        let (e, rest) := strike p f rest
        (e, fault :: rest)
      if fault.fits p f then
        if fault.skip > 0 then pass { fault with skip := fault.skip - 1 }
        else
          match fault.times with
          | none => (some fault.error, fault :: rest)
          | some 0 => pass fault
          | some (n + 1) => (some fault.error, { fault with times := some n } :: rest)
      else pass fault

end InjectedFault

/-- A processor with extended page tables and unrestricted guests. -/
structure Processor where
  msrs : Std.ExtTreeMap MsrIndex UInt64
  /-- Answers to CPUID by leaf. -/
  cpuidLeaves : Std.ExtTreeMap UInt32 CpuidResult
  /-- Answers to CPUID by leaf and subleaf, which come first. -/
  cpuidSubleaves : List ((UInt32 × UInt32) × CpuidResult) := []
  cr0 : UInt64 := 0x80000011
  cr4 : UInt64 := 0x20
  /-- Whether the processor is in VMX root operation. -/
  root : Bool := false
  /-- The control block that instructions work on. -/
  current : Option Hpa := none
  script : List ScriptedExit := []
  launches : Nat := 0
  resumes : Nat := 0
  /-- How often the translations were flushed. -/
  flushes : Nat := 0
  flushFails : Bool := false
  faults : List InjectedFault := []

namespace Processor

/-- The model-specific registers after reset. -/
def resetMsrs : List (MsrIndex × UInt64) :=
  [(.featureControl, 0x5),
   (.vmxBasic, 0x0080100000000012),
   (.pinBasedControls, 0x0000007f00000016),
   (.procBasedControls, 0xfffffffe0401e172),
   (.exitControls, 0x01ffffff00036dff),
   (.entryControls, 0x0003ffff000011ff),
   (.cr0Fixed0, 0x80000021),
   (.cr0Fixed1, 0xffffffff),
   (.cr4Fixed0, 0x2000),
   (.cr4Fixed1, 0x003767ff),
   (.procBasedControls2, 0x00537fff00000000),
   (.truePinBasedControls, 0x0000007f00000016),
   (.trueProcBasedControls, 0xfffffffe04006172),
   (.trueExitControls, 0x01ffffff00036dfb),
   (.trueEntryControls, 0x0003ffff000011fb),
   (.efer, 0xd01)]

/-- The answers to CPUID after reset, by leaf. -/
def resetCpuid : List (UInt32 × CpuidResult) :=
  [(0, { eax := 0xd, ebx := 0x756e6547, ecx := 0x6c65746e, edx := 0x49656e69 }),
   (1, { eax := 0x306c3, ebx := 0x100800, ecx := 0x7ffafbbf, edx := 0xbfebfbff })]

/-- A processor after reset. -/
def fresh : Processor where
  msrs := .ofList resetMsrs
  cpuidLeaves := .ofList resetCpuid

/-- The page-table register, which does not change. -/
def cr3 : UInt64 := 0x200000

/-- Where the global descriptor table is. -/
def gdtrBase : UInt64 := 0xffffffff80110000

/-- Where the interrupt descriptor table is. -/
def idtrBase : UInt64 := 0xffffffff80120000

/-- Where the processor continues when a guest exits. -/
def exitLabel : UInt64 := 0xffffffff80102000

/-- The value of a model-specific register. -/
def rdmsr (p : Processor) (msr : MsrIndex) : UInt64 := p.msrs[msr]?.getD 0

def wrmsr (p : Processor) (msr : MsrIndex) (w : UInt64) : Processor :=
  { p with msrs := p.msrs.insert msr w }

def cpuid (p : Processor) (leaf subleaf : UInt32) : CpuidResult :=
  match p.cpuidSubleaves.lookup (leaf, subleaf) with
  | some result => result
  | none => p.cpuidLeaves[leaf]?.getD {}

/-- Sets what CPUID answers for a leaf, or for a leaf and a subleaf. -/
def answerCpuid (p : Processor) (leaf : UInt32) (subleaf : Option UInt32) (result : CpuidResult) :
    Processor :=
  match subleaf with
  | some subleaf => { p with cpuidSubleaves := ((leaf, subleaf), result) :: p.cpuidSubleaves }
  | none => { p with cpuidLeaves := p.cpuidLeaves.insert leaf result }

end Processor

end Hypervisor
