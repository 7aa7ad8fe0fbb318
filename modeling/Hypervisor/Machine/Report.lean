import Hypervisor.Machine.Command
import Std.Data.TreeMap

/-!
# Reports

What a command is seen to do: its answer, the lines that it logged, the requests that it made of the
kernel, and the changes to the visible state of the machine.
-/

namespace Hypervisor

/-- How a command ended. -/
inductive Outcome where
  | answer (a : Answer)
  | error (e : VmError)
  | panic (p : Panic)

/-- A request of the kernel, with the place of the page that goes with it. -/
structure SeenRequest where
  request : Request
  page : Placement

/-- What a command was seen to do. A change to the state gives the new value, if there is one. -/
structure Report where
  outcome : Outcome
  log : List LogLine
  requests : List SeenRequest
  changes : List (String × Option UInt64)

def Request.page : Request → Option Hva
  | .send _ _ page _ => page
  | _ => none

namespace Machine

/-- The value of something that may be missing, with zero for nothing. -/
def shownAddress (p : Option Hpa) : UInt64 := (p.map Address.val).getD 0

/-- What is visible of a machine as a whole. -/
def viewOfHost (m : Machine) : List (String × UInt64) :=
  [("live", m.memory.pages.size.toUInt64), ("yields", m.kernel.yields.toUInt64),
   ("destroyed", m.kernel.destroyed.length.toUInt64), ("disks", m.kernel.diskImage.toUInt64)]

def viewOfCpu (c : Cpu) : List (String × UInt64) :=
  [("root", if c.region.isSome then 1 else 0), ("current", shownAddress c.current),
   ("cr0", c.processor.cr0), ("cr4", c.processor.cr4),
   ("feature_control", c.processor.rdmsr .featureControl),
   ("launches", c.processor.launches.toUInt64), ("resumes", c.processor.resumes.toUInt64),
   ("invepts", c.processor.flushes.toUInt64)]

/-- What is visible of a guest, with its control block. -/
def viewOfVm (blocks : ControlBlocks) (v : Vm) : List (String × UInt64) :=
  let g := v.guest
  let block := blocks.block g.block
  [("runs", g.runs.toUInt64), ("msr_count", g.msrCount.toUInt64),
   ("launched", if g.launched then 1 else 0), ("rtc_index", g.rtcIndex.toUInt64),
   ("host_vector", g.hostVector.toUInt64),
   ("last_cpu", ((g.lastCpu.map (· + 1)).getD 0).toUInt64)] ++
  Register.table.map (fun row => (row.2, v.context.get row.1)) ++
  Field.table.map fun row => (row.2.2, block.read row.1)

/-- A view with the name of what it shows in front. -/
def named (name : String) (view : List (String × UInt64)) : List (String × UInt64) :=
  view.map fun entry => (name ++ "." ++ entry.1, entry.2)

/-- What is visible of a machine; a value of zero is not shown. -/
def view (m : Machine) : Std.TreeMap String UInt64 :=
  let cpus := m.cpus.toList.zipIdx.flatMap fun (c, i) => named ("c" ++ toString i) (viewOfCpu c)
  let vms := m.vms.toList.zipIdx.flatMap fun (v, i) =>
    (v.map fun v => named ("g" ++ toString i) (viewOfVm m.blocks v)).getD []
  .ofList ((m.viewOfHost ++ cpus ++ vms).filter fun entry => entry.2 != 0)

/-- The entries of a view that differ from an earlier one, and the entries that are gone. -/
def changes (before after : Std.TreeMap String UInt64) : List (String × Option UInt64) :=
  (after.toList.filter fun entry => before[entry.1]? != some entry.2).map
      (fun entry => (entry.1, some entry.2)) ++
    (before.toList.filter fun entry => !after.contains entry.1).map fun entry => (entry.1, none)

/-- Carries out a command and reports what it did. -/
def execute (m : Machine) (c : Command) : Report × Machine :=
  let (outcome, after) : Outcome × Machine :=
    match perform c m with
    | .ok a after => (.answer a, after)
    | .error (.error e) after => (.error e, after)
    | .error (.panic p) after => (.panic p, after)
  let requests := after.kernel.requests.toList.drop m.kernel.requests.size
  ({ outcome := outcome
     log := after.log.toList.drop m.log.size
     requests := requests.map fun r => ⟨r, after.memory.placement r.page⟩
     changes := changes m.view after.view },
   after)

/-- Carries out commands until one of them panics, and reports on each. -/
def executeAll (m : Machine) : List Command → List Report
  | [] => []
  | c :: rest =>
      let (report, after) := m.execute c
      match report.outcome with
      | .panic _ => [report]
      | _ => report :: after.executeAll rest

end Machine

end Hypervisor
