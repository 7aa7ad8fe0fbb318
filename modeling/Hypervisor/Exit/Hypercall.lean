import Hypervisor.Exit.Basic
import Hypervisor.Guest.MemoryMap
import Hypervisor.Guest.Population

/-!
# Hypercalls

A guest asks for a service of the host by number.  The number is in RAX and the arguments are in RBX,
RCX, RDX and RSI; a result goes to RAX, except that the memory map is found through RBX.
-/

namespace Hypervisor

/-- The services that a guest can ask for. -/
inductive Hypercall where
  | memoryMap
  | send
  | receive
  | endOfInterrupt
  | backToHost
  | diskImage
  deriving DecidableEq

namespace Hypercall

/-- Every service with its number and its name. -/
def table : List (UInt64 × Hypercall × String) :=
  [(1, memoryMap, "Mbmap"), (2, send, "IpcSend"), (3, receive, "IpcRecv"),
   (4, endOfInterrupt, "LapicEoi"), (5, backToHost, "BackToHost"),
   (6, diskImage, "GetDiskImgNum")]

def ofNumber? (n : UInt64) : Option Hypercall :=
  (table.find? fun row => row.1 == n).map fun row => row.2.1

def name (call : Hypercall) : String :=
  ((table.find? fun row => row.2.1 == call).map fun row => row.2.2).getD ""

/-- The receiver that stands for the file server of the host. -/
def fileServerAlias : UInt64 := 1

/-- The status of a message to an environment that does not exist. -/
def badEnvironment : Int64 := -2

end Hypercall

namespace Session

/-- Where the guest's memory map is in host memory. Its page is backed if it was not. -/
def memoryMapPage : SessionM Hva := do
  let g := (← get).guest
  let gpa : Gpa := ⟨Layout.memoryMap⟩
  match ← onMemory (g.table.resolve gpa) with
  | some page => return page
  | none =>
      let _ ← onMemory (g.table.onAccess g.physSize gpa)
      Action.orFail (← onMemory (g.table.resolve gpa)) .noMemory

/-- Hands the guest its memory map. -/
def giveMemoryMap : SessionM Unit := do
  let page ← memoryMapPage
  let s ← get
  match s.host.memory.physical? page with
  | some p =>
      onMemory (Memory.updatePage p fun ws => ws.setHalves 0 (MemoryMap.encode s.guest.physSize))
  | none => pure ()
  onRegisters fun r => { r with rbx := Layout.memoryMap }

/-- Sends a message for the guest, and gives the status. A page goes with it if the guest names one
that is mapped. -/
def sendMessage : SessionM Int64 := do
  let s ← get
  let regs := s.context.regs
  let page ← match (Address.ofWord? regs.rdx : Option Gpa) with
    | some gpa => onMemory (s.guest.table.resolve gpa)
    | none => pure none
  let receiver :=
    if regs.rbx = Hypercall.fileServerAlias then s.host.kernel.fileServer
    else some ⟨regs.rbx.toUInt32⟩
  match receiver with
  | some env =>
      onHost (Host.onKernel fun k => k.record (.send env regs.rcx.toUInt32 page regs.rsi.toUInt32))
      return s.host.kernel.messageStatus
  | none => return Hypercall.badEnvironment

/-- Waits for a message for the guest. The guest moves on before, since it may have to wait long. -/
def receiveMessage : SessionM ExitResult := do
  forwardRip
  let s ← get
  let destination : Gpa ← Action.orFail (Address.ofWord? s.context.regs.rbx) .invalidArgument
  onHost (Host.onKernel fun k => k.record (.receive destination))
  onRegisters fun r => { r with rax := s.host.kernel.messageStatus.toUInt64 }
  return .continued

/-- Suspends the guest and starts a shell on the host. -/
def goBackToHost : SessionM Unit := onHost do
  Host.say .info
    "Now back to the host, VM halt in the background, run vmmanager to resume the VM."
  Host.onKernel fun k => (k.record (.setRunnable k.current false)).record .spawnShell

/-- Serves the guest. -/
def handleHypercall (reason : ExitReason) : SessionM ExitResult := do
  let number := (← get).context.regs.rax
  match Hypercall.ofNumber? number with
  | none =>
      onHost (Host.say .warn ("Unknown hypercall " ++ hex number.toNat))
      Action.fail (.unhandledExit reason)
  | some .memoryMap =>
      giveMemoryMap
      continueAfter
  | some .send =>
      let status ← sendMessage
      onRegisters fun r => { r with rax := status.toUInt64 }
      continueAfter
  | some .receive => receiveMessage
  | some .endOfInterrupt =>
      onHost (Host.onKernel fun k => k.record .endOfInterrupt)
      continueAfter
  | some .backToHost =>
      goBackToHost
      continueAfter
  | some .diskImage =>
      let number := (← get).host.kernel.diskImage.toUInt64
      onRegisters fun r => { r with rax := number }
      continueAfter

end Session

end Hypervisor
