import Hypervisor.Instruction.Trial
import Hypervisor.Machine.Report
import Hypervisor.Proofs.Ept.Agreement
import Hypervisor.Proofs.Ept.Edits
import Hypervisor.Proofs.Ept.Refinement
import Hypervisor.Proofs.Exit.Frame
import Hypervisor.Proofs.Guest.Backing
import Hypervisor.Proofs.InterruptWindow
import Hypervisor.Proofs.Interrupts
import Hypervisor.Proofs.MemorySize
import Hypervisor.Proofs.Migration
import Hypervisor.Proofs.OutOfMemory
import Hypervisor.Proofs.Ownership.Confined
import Hypervisor.Proofs.Ownership.Emulation
import Hypervisor.Proofs.Ownership.Ledger
import Hypervisor.Proofs.Ownership.Lending
import Hypervisor.Proofs.Ownership.MemoryMap
import Hypervisor.Proofs.Ownership.Messages
import Hypervisor.Proofs.Ownership.Neighbours
import Hypervisor.Proofs.Ownership.Ports
import Hypervisor.Proofs.Ownership.ReadOnly
import Hypervisor.Proofs.Ownership.Requests
import Hypervisor.Proofs.Ownership.Teardown
import Hypervisor.Proofs.Ownership.Trees
import Hypervisor.Proofs.Ownership.Undisturbed
import Hypervisor.Proofs.RootLifecycle
import Hypervisor.Proofs.Survival
import Hypervisor.Proofs.Turns
import Hypervisor.Proofs.Vmcs.Merge
import Hypervisor.Text
