import Hypervisor.Flags

/-!
# Registers

The general registers of a guest, its saved context, and the bits of the control and flag registers
that the hypervisor looks at.
-/

namespace Hypervisor

/-- The general registers, with the page-fault address register. -/
structure Registers where
  r15 : UInt64 := 0
  r14 : UInt64 := 0
  r13 : UInt64 := 0
  r12 : UInt64 := 0
  r11 : UInt64 := 0
  r10 : UInt64 := 0
  r9 : UInt64 := 0
  r8 : UInt64 := 0
  rsi : UInt64 := 0
  rdi : UInt64 := 0
  rbp : UInt64 := 0
  rdx : UInt64 := 0
  rcx : UInt64 := 0
  rbx : UInt64 := 0
  rax : UInt64 := 0
  cr2 : UInt64 := 0
  deriving DecidableEq

/-- What is saved of a guest between its runs; the rest stays in its control block. -/
structure Context where
  regs : Registers := {}
  rip : UInt64 := 0
  rsp : UInt64 := 0
  deriving DecidableEq

/-- The name of a part of a saved context. -/
inductive Register where
  | rip | rsp
  | r15 | r14 | r13 | r12 | r11 | r10 | r9 | r8
  | rsi | rdi | rbp | rdx | rcx | rbx | rax | cr2
  deriving DecidableEq

namespace Register

def table : List (Register × String) :=
  [(rip, "rip"), (rsp, "rsp"), (r15, "r15"), (r14, "r14"), (r13, "r13"), (r12, "r12"),
   (r11, "r11"), (r10, "r10"), (r9, "r9"), (r8, "r8"), (rsi, "rsi"), (rdi, "rdi"), (rbp, "rbp"),
   (rdx, "rdx"), (rcx, "rcx"), (rbx, "rbx"), (rax, "rax"), (cr2, "cr2")]

def ofName? (name : String) : Option Register :=
  (table.find? fun entry => entry.2 == name).map Prod.fst

end Register

namespace Context

def get (c : Context) : Register → UInt64
  | .rip => c.rip
  | .rsp => c.rsp
  | .r15 => c.regs.r15
  | .r14 => c.regs.r14
  | .r13 => c.regs.r13
  | .r12 => c.regs.r12
  | .r11 => c.regs.r11
  | .r10 => c.regs.r10
  | .r9 => c.regs.r9
  | .r8 => c.regs.r8
  | .rsi => c.regs.rsi
  | .rdi => c.regs.rdi
  | .rbp => c.regs.rbp
  | .rdx => c.regs.rdx
  | .rcx => c.regs.rcx
  | .rbx => c.regs.rbx
  | .rax => c.regs.rax
  | .cr2 => c.regs.cr2

def set (c : Context) (r : Register) (w : UInt64) : Context :=
  match r with
  | .rip => { c with rip := w }
  | .rsp => { c with rsp := w }
  | .r15 => { c with regs := { c.regs with r15 := w } }
  | .r14 => { c with regs := { c.regs with r14 := w } }
  | .r13 => { c with regs := { c.regs with r13 := w } }
  | .r12 => { c with regs := { c.regs with r12 := w } }
  | .r11 => { c with regs := { c.regs with r11 := w } }
  | .r10 => { c with regs := { c.regs with r10 := w } }
  | .r9 => { c with regs := { c.regs with r9 := w } }
  | .r8 => { c with regs := { c.regs with r8 := w } }
  | .rsi => { c with regs := { c.regs with rsi := w } }
  | .rdi => { c with regs := { c.regs with rdi := w } }
  | .rbp => { c with regs := { c.regs with rbp := w } }
  | .rdx => { c with regs := { c.regs with rdx := w } }
  | .rcx => { c with regs := { c.regs with rcx := w } }
  | .rbx => { c with regs := { c.regs with rbx := w } }
  | .rax => { c with regs := { c.regs with rax := w } }
  | .cr2 => { c with regs := { c.regs with cr2 := w } }

/-- A context with several registers changed, in order. -/
def setAll (c : Context) (writes : List (Register × UInt64)) : Context :=
  writes.foldl (fun c w => c.set w.1 w.2) c

end Context

/-- The bits of CR0 that matter to a hypervisor. -/
def cr0Flags : FlagTable := [.bit "PE" 0, .bit "NE" 5, .bit "PG" 31]

abbrev Cr0 := Flags cr0Flags

/-- Protected mode is on. -/
def Cr0.protection : Cr0 := { bits := 0x1 }

/-- Native reporting of floating-point errors, which VMX operation needs. -/
def Cr0.numericError : Cr0 := { bits := 0x20 }

/-- Paging is on. -/
def Cr0.paging : Cr0 := { bits := 0x80000000 }

/-- The bits of CR4 that matter to a hypervisor. -/
def cr4Flags : FlagTable := [.bit "PAE" 5, .bit "VMXE" 13]

abbrev Cr4 := Flags cr4Flags

/-- VMX operation is enabled. -/
def Cr4.vmxEnable : Cr4 := { bits := 0x2000 }

/-- The bits of RFLAGS that matter to a hypervisor. -/
def rflagsFlags : FlagTable := [.bit "RESERVED" 1, .bit "IF" 9]

abbrev Rflags := Flags rflagsFlags

/-- The bit that is always set. -/
def Rflags.reserved : Rflags := { bits := 0x2 }

/-- External interrupts are accepted. -/
def Rflags.interrupts : Rflags := { bits := 0x200 }

/-- The registers that CPUID answers in. -/
structure CpuidResult where
  eax : UInt32 := 0
  ebx : UInt32 := 0
  ecx : UInt32 := 0
  edx : UInt32 := 0
  deriving DecidableEq, Inhabited

/-- The bit of leaf 1, register ECX, that reports VMX. -/
def CpuidResult.vmxBit : UInt32 := 0x20

end Hypervisor
