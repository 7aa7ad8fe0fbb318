import Hypervisor.Cpu.RootOperation
import Hypervisor.GuestList
import Hypervisor.Machine.Basic
import Hypervisor.Run

/-!
# Commands

Everything that can be done to a machine from outside, as data, and what each command answers.
-/

namespace Hypervisor

/-- A place in host virtual space. -/
inductive HostPlace where
  /-- An offset from the start of a page of memory. -/
  | inPage (page : Hpa) (offset : UInt64)
  | at (address : Hva)

/-- How an exit is to be handled. -/
inductive Handling where
  | dispatch
  | externalInterrupt (info : InterruptInfo)
  | interruptWindow
  | rdmsr
  | wrmsr
  | portAccess (access : PortAccess)
  | cpuid
  | hypercall
  | forwardRip

/-- What to do. -/
inductive Order where
  | alloc
  | allocRetained
  | retain (page : Hpa)
  | release (page : Hpa)
  | refs (pages : List Hpa)
  | limitAllocations (n : Nat)
  | peek (page : Hpa) (offset count : Nat)
  | poke (page : Hpa) (offset : Nat) (bytes : List UInt8)
  | newTable
  | tableWithRoot (root : Option Hpa)
  | tableRoot
  | tablePointer
  | lookup (gpa : Gpa) (create : Bool) (edits : List Entry.Edit)
  | walk (gpa : Gpa)
  | resolve (gpa : Gpa)
  | map (source : HostPlace) (gpa : Gpa) (perm : Permission) (overwrite : Bool)
  | insertPage (page : Hpa) (gpa : Gpa) (perm : Permission)
  | teardown
  | access (physSize : UInt64) (gpa : Gpa)
  | populateAll (physSize : UInt64)
  | build (config : GuestConfig)
  | free
  | mapFromHost (source : HostPlace) (sourceWritable : Bool) (gpa : Gpa) (perm : Permission)
  | setupMsrs
  | setupBitmaps
  | interceptPort (port : UInt16)
  | isPortIntercepted (port : UInt16)
  | guestMsr (msr : MsrIndex) (value : Option UInt64)
  | hostMsr (msr : MsrIndex) (value : Option UInt64)
  | setRegisters (writes : List (Register × UInt64))
  | setMsr (msr : MsrIndex) (value : UInt64)
  | readMsr (msr : MsrIndex)
  | setCpuid (leaf : UInt32) (subleaf : Option UInt32) (result : CpuidResult)
  | setCpuidEcx (leaf ecx : UInt32)
  | setControlRegisters (cr0 cr4 : Option UInt64)
  | failInvept
  | inject (fault : InjectedFault)
  | clearFaults
  | script (exit : ScriptedExit)
  | cpuId
  | checkSupport
  | checkEpt
  | vmxOn
  | vmxOff
  | activate
  | load
  | deactivate
  | initHostState
  | initGuestState
  | configureControls
  | writeFields (writes : List (Field × UInt64))
  | readField (field : Field)
  | exitReason
  | enter
  | run
  | dump
  | handleExit (fields : List (Field × UInt64)) (regs : List (Register × UInt64))
      (handling : Handling)
  | setGuests (ids : List EnvId)
  | setFileServer (id : Option EnvId)
  | setMessageStatus (status : Int64)
  | listGuests
  | resumeGuest (n : Nat)
  | stageDiskImage
  | diskImage

/-- What to do, and with which cpu, guest and table. -/
structure Command where
  cpu : Nat := 0
  vm : Nat := 0
  /-- The table that belongs to no guest; without one, the table of the guest is meant. -/
  table : Option Nat := none
  order : Order

/-- Where a host virtual address is in memory. -/
inductive Placement where
  | nowhere
  /-- No page backs the address. -/
  | unbacked
  | backed (address : Hpa)

/-- What a command answers. -/
inductive Answer where
  | done
  | page (p : Option Hpa)
  | word (w : Option UInt64)
  | number (n : Nat)
  | numbers (ns : List Nat)
  | flag (b : Bool)
  | bytes (bs : List UInt8)
  | text (s : String)
  | entry (e : Entry)
  | placement (p : Placement)
  | msr (entry : Option (MsrIndex × UInt64))
  | guest (g : Guest)

namespace Memory

def placement (m : Memory) : Option Hva → Placement
  | none => .nowhere
  | some v =>
      match m.physical? v with
      | some p => .backed p
      | none => .unbacked

variable {ε : Type}

/-- The virtual address of a place. The sum of a page's address and an offset must fit in a word. -/
def addressOf : HostPlace → MemoryM ε Hva
  | .inPage page offset => do
      match (← virtual page).add? offset with
      | some address => return address
      | none => Action.panic .addOverflow
  | .at address => pure address

/-- Looks up a register in a list of `count`, and perhaps sets it. -/
def exchangeMsr (area : Hpa) (count : Nat) (msr : MsrIndex) (value : Option UInt64) :
    MemoryM ε (Option (MsrIndex × UInt64)) := do
  match ← Guest.findMsr area count msr with
  | none => return none
  | some i =>
      let old := (← pageWords area).word i
      match value with
      | some w => updatePage area fun ws => ws.setWord i w
      | none => pure ()
      return some (msr, old)

end Memory

namespace Session

/-- Handles an exit as told. -/
def handle (reason : ExitReason) : Handling → SessionM Answer
  | .dispatch => do return .text (← dispatch reason).text
  | .externalInterrupt info => do return .text (← handleExternalInterrupt info).text
  | .interruptWindow => do return .text (← handleInterruptWindow).text
  | .rdmsr => do return .text (← handleRdmsr reason).text
  | .wrmsr => do return .text (← handleWrmsr reason).text
  | .portAccess access => do return .text (← handlePortAccess reason access).text
  | .cpuid => do return .text (← handleCpuid).text
  | .hypercall => do return .text (← handleHypercall reason).text
  | .forwardRip => do
      forwardRip
      return .done

end Session

namespace Machine

def done (x : MachineM Unit) : MachineM Answer := do
  x
  return .done

def addTable (t : Ept) : MachineM Unit := modify fun m => { m with tables := m.tables.push t }

def addVm (g : Guest) : MachineM Unit :=
  modify fun m => { m with
    vms := m.vms.push (some ⟨g, { rip := Layout.entryPoint, rsp := Layout.entryPoint }⟩) }

def takeVm (i : Nat) : MachineM Vm := do
  let v ← vm i
  modify fun m => { m with vms := m.vms.setIfInBounds i none }
  return v

/-- Carries out a command. -/
def perform (c : Command) : MachineM Answer :=
  let table : MachineM Ept := Machine.table c.table c.vm
  let guest : MachineM Guest := do return (← vm c.vm).guest
  match c.order with
  | .alloc => do return .page (← onMemory Memory.alloc)
  | .allocRetained => do return .page (← onMemory Memory.allocRetained)
  | .retain page => done (onMemory (Memory.retain page))
  | .release page => done (onMemory (Memory.release page))
  | .refs pages => do return .numbers (pages.map (← get).memory.refs)
  | .limitAllocations n => done (onMemory (modify fun m => { m with budget := some n }))
  | .peek page offset count => do
      return .bytes
        ((← onMemory (Memory.pageWords page)).bytes (page.pageOffset.toNat + offset) count)
  | .poke page offset bytes =>
      done (onMemory (Memory.editPage page fun ws =>
        ws.setBytes (page.pageOffset.toNat + offset) bytes))
  | .newTable => do
      let t ← onTable Ept.new
      addTable t
      return .text (Text.option Ept.text (some t))
  | .tableWithRoot root => done (addTable ⟨root⟩)
  | .tableRoot => do return .text (Text.option Address.text (← table).root)
  | .tablePointer => do return .word (← table).pointer
  | .lookup gpa create edits => do return .entry (← onTable ((← table).edit gpa create edits))
  | .walk gpa => do return .entry (← onTable ((← table).walk gpa))
  | .resolve gpa => do
      let v ← onMemory ((← table).resolve gpa)
      return .placement ((← get).memory.placement v)
  | .map source gpa perm overwrite => done do
      let t ← table
      let v ← onMemory (Memory.addressOf source)
      onTable (t.map v gpa perm overwrite)
  | .insertPage page gpa perm => done do onTable ((← table).insertPage page gpa perm)
  | .teardown => done do onHost c.cpu (Host.teardown (← table))
  | .access physSize gpa => do
      return .text (← onPlatform (Platform.backAccess (← table) physSize gpa)).text
  | .populateAll physSize => done do onMemory ((← table).populateAll physSize)
  | .build config => do
      let g ← onHost c.cpu (Host.buildGuest config)
      addVm g
      return .guest g
  | .free => done do onHost c.cpu (Host.freeGuest (← takeVm c.vm).guest)
  | .mapFromHost source sourceWritable gpa perm => done do
      let g ← guest
      let v ← onMemory (Memory.addressOf source)
      onMemory (g.mapFromHost v sourceWritable gpa perm)
  | .setupMsrs => done (onSession c.cpu c.vm Session.setupMsrs)
  | .setupBitmaps => done do onMemory (← guest).interceptEmulatedPorts
  | .interceptPort port => done do onMemory ((← guest).interceptPort port)
  | .isPortIntercepted port => do return .flag (← onMemory ((← guest).isPortIntercepted port))
  | .guestMsr msr value => do
      let g ← guest
      return .msr (← onMemory (Memory.exchangeMsr g.guestMsrArea g.msrCount msr value))
  | .hostMsr msr value => do
      let g ← guest
      return .msr (← onMemory (Memory.exchangeMsr g.hostMsrArea g.msrCount msr value))
  | .setRegisters writes => done (onContext c.vm fun context => context.setAll writes)
  | .setMsr msr value => done (onHost c.cpu (Host.onProcessor fun p => p.wrmsr msr value))
  | .readMsr msr => do return .word (some ((← onHost c.cpu Host.processor).rdmsr msr))
  | .setCpuid leaf subleaf result =>
      done (onHost c.cpu (Host.onProcessor fun p => p.answerCpuid leaf subleaf result))
  | .setCpuidEcx leaf ecx =>
      done (onHost c.cpu (Host.onProcessor fun p =>
        p.answerCpuid leaf none { p.cpuidLeaves[leaf]?.getD {} with ecx := ecx }))
  | .setControlRegisters cr0 cr4 =>
      done (onHost c.cpu (Host.onProcessor fun p =>
        { p with cr0 := cr0.getD p.cr0, cr4 := cr4.getD p.cr4 }))
  | .failInvept => done (onHost c.cpu (Host.onProcessor fun p => { p with flushFails := true }))
  | .inject fault =>
      done (onHost c.cpu (Host.onProcessor fun p => { p with faults := p.faults ++ [fault] }))
  | .clearFaults => done (onHost c.cpu (Host.onProcessor fun p => { p with faults := [] }))
  | .script exit =>
      done (onHost c.cpu (Host.onProcessor fun p => { p with script := p.script ++ [exit] }))
  | .cpuId => do return .number (← onHost c.cpu (do return (← get).cpu.id))
  | .checkSupport => done (onHost c.cpu Host.checkSupport)
  | .checkEpt => done (onHost c.cpu Host.checkEpt)
  | .vmxOn => done (onHost c.cpu Host.vmxOn)
  | .vmxOff => done (onHost c.cpu Host.vmxOff)
  | .activate => done (onSession c.cpu c.vm Session.activate)
  | .load => done (onSession c.cpu c.vm Session.load)
  | .deactivate => done (onSession c.cpu c.vm Session.deactivate)
  | .initHostState => done (onHost c.cpu Host.initHostState)
  | .initGuestState => done (onHost c.cpu Host.initGuestState)
  | .configureControls => done (onSession c.cpu c.vm Session.configureControls)
  | .writeFields writes => done (onHost c.cpu (Host.vmwriteAll writes))
  | .readField field => do return .word (some (← onHost c.cpu (Host.vmread field)))
  | .exitReason => do return .text (← onHost c.cpu (ExitReason.decode Host.vmread)).text
  | .enter => do return .text (← onSession c.cpu c.vm Session.enter).text
  | .run => do return .text (← onSession c.cpu c.vm Session.run).text
  | .dump => done do
      let resolve := (← guest).table.resolve
      onHost c.cpu do Host.dump (← get).disassembler resolve
  | .handleExit fields regs handling =>
      onSession c.cpu c.vm do
        Session.onHost (Host.vmwriteAll fields)
        Session.onContext fun context => context.setAll regs
        Session.handle (← Session.onHost (ExitReason.decode Host.vmread)) handling
  | .setGuests ids => done (onPlatform (Platform.onKernel fun k => { k with guests := ids }))
  | .setFileServer id => done (onPlatform (Platform.onKernel fun k => { k with fileServer := id }))
  | .setMessageStatus status =>
      done (onPlatform (Platform.onKernel fun k => { k with messageStatus := status }))
  | .listGuests => do return .number (← onPlatform Platform.listGuests)
  | .resumeGuest n => do return .flag (← onPlatform (Platform.resumeGuest n))
  | .stageDiskImage => do
      onPlatform (Platform.onKernel Kernel.stageDiskImage)
      return .number (← get).kernel.diskImage
  | .diskImage => do return .number (← get).kernel.diskImage

end Machine

end Hypervisor
