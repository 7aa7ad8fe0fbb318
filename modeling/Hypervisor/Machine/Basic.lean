import Hypervisor.Session

/-!
# Machines

A machine is a platform with several cpus, its guests, and tables that belong to no guest.  An action
on one cpu and one guest leaves all other cpus and guests alone, and an action on the platform or on
a saved context needs no cpu.
-/

namespace Hypervisor

/-- A guest with its saved context. -/
structure Vm where
  guest : Guest
  context : Context

/-- A platform with its cpus and its guests. -/
structure Machine extends Platform where
  cpus : Array Cpu
  /-- The guests in the order in which they were built; a guest that was freed leaves a gap. -/
  vms : Array (Option Vm) := #[]
  /-- The tables that belong to no guest. -/
  tables : Array Ept := #[]

abbrev MachineM (α : Type) : Type := Action Machine VmError α

namespace Machine

variable {α : Type}

def host (m : Machine) (cpu : Cpu) : Host := { toPlatform := m.toPlatform, cpu := cpu }

/-- The machine after the host has changed as a cpu sees it. -/
def withHost (m : Machine) (i : Nat) (h : Host) : Machine :=
  { m with toPlatform := h.toPlatform, cpus := m.cpus.setIfInBounds i h.cpu }

def onPlatform (x : PlatformM α) : MachineM α :=
  Action.onPart Machine.toPlatform (fun m p => { m with toPlatform := p }) x

def onMemory (x : MemoryM VmError α) : MachineM α := onPlatform (Platform.onMemory x)

/-- Works on the memory with the errors of a table. -/
def onTable (x : MemoryM EptError α) : MachineM α := onMemory (Action.mapError .ept x)

/-- Works on the host as the cpu with an index sees it. -/
def onHost (cpu : Nat) (x : HostM α) : MachineM α := fun m =>
  match m.cpus[cpu]? with
  | none => .error (.error .invalidArgument) m
  | some c => Action.onPart (fun m => m.host c) (fun m h => m.withHost cpu h) x m

/-- Works on the guest with an index and the host that a cpu sees. -/
def onSession (cpu vm : Nat) (x : SessionM α) : MachineM α := fun m =>
  match m.cpus[cpu]?, m.vms[vm]? with
  | some c, some (some v) =>
      Action.onPart (fun m => ⟨m.host c, v.guest, v.context⟩)
        (fun m s =>
          let m := m.withHost cpu s.host
          { m with vms := m.vms.setIfInBounds vm (some ⟨s.guest, s.context⟩) })
        x m
  | _, _ => .error (.error .invalidArgument) m

def vm (i : Nat) : MachineM Vm := do
  match (← get).vms[i]? with
  | some (some v) => return v
  | _ => Action.fail .invalidArgument

/-- Changes the saved context of the guest with an index. -/
def onContext (i : Nat) (f : Context → Context) : MachineM Unit := do
  let v ← vm i
  modify fun m => { m with
    vms := m.vms.setIfInBounds i (some { v with context := f v.context }) }

/-- The table with an index, or else the table of the guest with one. -/
def table (i : Option Nat) (vmIndex : Nat) : MachineM Ept := do
  match i with
  | some i => Action.orFail (← get).tables[i]? .invalidArgument
  | none => return (← vm vmIndex).guest.table

end Machine

end Hypervisor
