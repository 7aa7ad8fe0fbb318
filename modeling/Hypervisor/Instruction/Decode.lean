import Hypervisor.Text

/-!
# Decoding instructions

The dump of a guest that is given up shows the instruction at which it stopped.  Which bytes make an
instruction and how it is written is up to a disassembler, which is no part of the hypervisor: a platform
comes with one, of which nothing is known but that it answers.  The one below stands in where no other is
given.  It knows the instructions that a guest is likely to have stopped at: the encodings without
operands, a few with a byte of immediate data, and short jumps.
-/

namespace Hypervisor

/-- The size of operands and addresses where the code of a guest runs. -/
inductive CodeSize where
  | bits16
  | bits32
  deriving DecidableEq

/-- A decoded instruction. -/
structure Instruction where
  mnemonic : String
  /-- The instruction as an assembler reads it. -/
  text : String
  length : Nat
  deriving DecidableEq

/-- What decodes and formats the instruction that bytes start with, given the size of the code and the
address of the bytes. -/
abbrev Disassembler : Type := CodeSize → UInt64 → List UInt8 → Option Instruction

namespace Instruction

/-- A number as an assembler reads it. Below ten it is its decimal digit, whatever the width. From ten
on it has uppercase hexadecimal digits, padded to the width, with a final `h` and with a zero before a
leading letter. -/
def assemblerNumber (width n : Nat) : String :=
  if n < 10 then toString n
  else
    let digits := (Nat.toDigits 16 n).map Char.toUpper
    let padded := List.replicate (width - digits.length) '0' ++ digits
    let lead := if padded.head?.any Char.isAlpha then ['0'] else []
    String.ofList (lead ++ padded ++ ['h'])

/-- The encodings that mean the same in code of either size. -/
def commonEncodings : List (List UInt8 × String × String) :=
  [([0xf4], "Hlt", "hlt"), ([0x90], "Nop", "nop"), ([0xfa], "Cli", "cli"), ([0xfb], "Sti", "sti"),
   ([0xfc], "Cld", "cld"), ([0xfd], "Std", "std"), ([0xcc], "Int3", "int3"),
   ([0xc3], "Ret", "ret"), ([0xcb], "Retf", "ret far"), ([0xf3, 0x90], "Pause", "pause"),
   ([0xec], "In", "in al,dx"), ([0xee], "Out", "out dx,al"),
   ([0x0f, 0xa2], "Cpuid", "cpuid"), ([0x0f, 0x32], "Rdmsr", "rdmsr"),
   ([0x0f, 0x30], "Wrmsr", "wrmsr"), ([0x0f, 0x31], "Rdtsc", "rdtsc"),
   ([0x0f, 0x33], "Rdpmc", "rdpmc"), ([0x0f, 0x05], "Syscall", "syscall"),
   ([0x0f, 0x08], "Invd", "invd"), ([0x0f, 0x09], "Wbinvd", "wbinvd"),
   ([0x0f, 0x0b], "Ud2", "ud2"), ([0x0f, 0x01, 0xc1], "Vmcall", "vmcall"),
   ([0x0f, 0x01, 0xc2], "Vmlaunch", "vmlaunch"), ([0x0f, 0x01, 0xc3], "Vmresume", "vmresume"),
   ([0x0f, 0x01, 0xc4], "Vmxoff", "vmxoff")]

/-- The encodings whose operands depend on the size of the code. -/
def sizedEncodings : CodeSize → List (List UInt8 × String × String)
  | .bits16 =>
      [([0xcf], "Iret", "iret"), ([0xed], "In", "in ax,dx"), ([0xef], "Out", "out dx,ax"),
       ([0x50], "Push", "push ax"), ([0x58], "Pop", "pop ax"),
       ([0x00, 0x00], "Add", "add [bx+si],al"), ([0x0f, 0x00, 0x00], "Sldt", "sldt [bx+si]")]
  | .bits32 =>
      [([0xcf], "Iretd", "iretd"), ([0xed], "In", "in eax,dx"), ([0xef], "Out", "out dx,eax"),
       ([0x50], "Push", "push eax"), ([0x58], "Pop", "pop eax"),
       ([0x00, 0x00], "Add", "add [eax],al"), ([0x0f, 0x00, 0x00], "Sldt", "sldt [eax]")]

/-- The encodings of an opcode and a byte, with the text around the byte. -/
def immediateEncodings : List (UInt8 × String × String × String) :=
  [(0xcd, "Int", "int ", ""), (0xe4, "In", "in al,", ""), (0xe6, "Out", "out ", ",al"),
   (0xb0, "Mov", "mov al,", "")]

/-- Where a short jump leads, in code of a size. -/
def jumpTarget (size : CodeSize) (ip : UInt64) (displacement : UInt8) : String :=
  let target := ip + 2 + displacement.toInt8.toInt64.toUInt64
  match size with
  | .bits16 => assemblerNumber 4 target.toUInt16.toNat
  | .bits32 => assemblerNumber 8 target.toUInt32.toNat

/-- The instruction whose encoding is an opcode and a byte. -/
def decodeImmediate? (size : CodeSize) (ip : UInt64) (opcode operand : UInt8) :
    Option Instruction :=
  if opcode == 0xeb then some ⟨"Jmp", "jmp short " ++ jumpTarget size ip operand, 2⟩
  else
    (immediateEncodings.find? fun row => row.1 == opcode).map fun row =>
      ⟨row.2.1, row.2.2.1 ++ assemblerNumber 0 operand.toNat ++ row.2.2.2, 2⟩

/-- The disassembler of a platform that is given no other. -/
def decode? : Disassembler := fun size ip bytes =>
  match (sizedEncodings size ++ commonEncodings).find? fun row => row.1.isPrefixOf bytes with
  | some row => some ⟨row.2.1, row.2.2, row.1.length⟩
  | none =>
      match bytes with
      | opcode :: operand :: _ => decodeImmediate? size ip opcode operand
      | _ => none

end Instruction

end Hypervisor
