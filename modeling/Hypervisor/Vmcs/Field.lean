/-!
# Control-block fields

The fields of a virtual-machine control block that the hypervisor touches, with the encodings that
the processor knows them by: 16-bit, 64-bit, 32-bit and natural-width fields, in this order.
-/

namespace Hypervisor

/-- A field of a control block. -/
inductive Field where
  | guestEsSelector | guestCsSelector | guestSsSelector | guestDsSelector | guestFsSelector
  | guestGsSelector | guestLdtrSelector | guestTrSelector | hostEsSelector | hostCsSelector
  | hostSsSelector | hostDsSelector | hostFsSelector | hostGsSelector | hostTrSelector
  | ioBitmapA | ioBitmapB | vmexitMsrStoreAddr | vmexitMsrLoadAddr | vmentryMsrLoadAddr | eptptr
  | guestPhysicalAddr | guestLinkPointer
  | pinBasedExecControls | processorBasedVmexecControls | exceptionBitmap | vmexitControls
  | vmexitMsrStoreCount | vmexitMsrLoadCount | vmentryControls | vmentryMsrLoadCount
  | vmentryInterruptionInfo | secondaryVmexecControls | instructionError | vmexitReason
  | vmexitInterruptionInfo | vmexitInstructionLength | guestEsLimit | guestCsLimit | guestSsLimit
  | guestDsLimit | guestFsLimit | guestGsLimit | guestLdtrLimit | guestTrLimit | guestGdtrLimit
  | guestIdtrLimit | guestEsAccessRights | guestCsAccessRights | guestSsAccessRights
  | guestDsAccessRights | guestFsAccessRights | guestGsAccessRights | guestLdtrAccessRights
  | guestTrAccessRights | guestInterruptibilityState | guestActivityState
  | vmexitQualification | guestCr0 | guestCr3 | guestCr4 | guestEsBase | guestCsBase
  | guestSsBase | guestDsBase | guestFsBase | guestGsBase | guestLdtrBase | guestTrBase
  | guestGdtrBase | guestIdtrBase | guestDr7 | guestRsp | guestRip | guestRflags | hostCr0
  | hostCr3 | hostCr4 | hostFsBase | hostGsBase | hostTrBase | hostGdtrBase | hostIdtrBase
  | hostRsp | hostRip
  deriving DecidableEq

namespace Field

/-- Every field in declaration order, with its encoding and its name. -/
def table : List (Field × UInt32 × String) :=
  [(guestEsSelector, 0x0800, "GuestEsSelector"),
   (guestCsSelector, 0x0802, "GuestCsSelector"),
   (guestSsSelector, 0x0804, "GuestSsSelector"),
   (guestDsSelector, 0x0806, "GuestDsSelector"),
   (guestFsSelector, 0x0808, "GuestFsSelector"),
   (guestGsSelector, 0x080a, "GuestGsSelector"),
   (guestLdtrSelector, 0x080c, "GuestLdtrSelector"),
   (guestTrSelector, 0x080e, "GuestTrSelector"),
   (hostEsSelector, 0x0c00, "HostEsSelector"),
   (hostCsSelector, 0x0c02, "HostCsSelector"),
   (hostSsSelector, 0x0c04, "HostSsSelector"),
   (hostDsSelector, 0x0c06, "HostDsSelector"),
   (hostFsSelector, 0x0c08, "HostFsSelector"),
   (hostGsSelector, 0x0c0a, "HostGsSelector"),
   (hostTrSelector, 0x0c0c, "HostTrSelector"),
   (ioBitmapA, 0x2000, "IoBitmapA"),
   (ioBitmapB, 0x2002, "IoBitmapB"),
   (vmexitMsrStoreAddr, 0x2006, "VmexitMsrStoreAddr"),
   (vmexitMsrLoadAddr, 0x2008, "VmexitMsrLoadAddr"),
   (vmentryMsrLoadAddr, 0x200a, "VmentryMsrLoadAddr"),
   (eptptr, 0x201a, "Eptptr"),
   (guestPhysicalAddr, 0x2400, "GuestPhysicalAddr"),
   (guestLinkPointer, 0x2800, "GuestLinkPointer"),
   (pinBasedExecControls, 0x4000, "PinBasedExecControls"),
   (processorBasedVmexecControls, 0x4002, "ProcessorBasedVmexecControls"),
   (exceptionBitmap, 0x4004, "ExceptionBitmap"),
   (vmexitControls, 0x400c, "VmexitControls"),
   (vmexitMsrStoreCount, 0x400e, "VmexitMsrStoreCount"),
   (vmexitMsrLoadCount, 0x4010, "VmexitMsrLoadCount"),
   (vmentryControls, 0x4012, "VmentryControls"),
   (vmentryMsrLoadCount, 0x4014, "VmentryMsrLoadCount"),
   (vmentryInterruptionInfo, 0x4016, "VmentryInterruptionInfo"),
   (secondaryVmexecControls, 0x401e, "SecondaryVmexecControls"),
   (instructionError, 0x4400, "InstructionError"),
   (vmexitReason, 0x4402, "VmexitReason"),
   (vmexitInterruptionInfo, 0x4404, "VmexitInterruptionInfo"),
   (vmexitInstructionLength, 0x440c, "VmexitInstructionLength"),
   (guestEsLimit, 0x4800, "GuestEsLimit"),
   (guestCsLimit, 0x4802, "GuestCsLimit"),
   (guestSsLimit, 0x4804, "GuestSsLimit"),
   (guestDsLimit, 0x4806, "GuestDsLimit"),
   (guestFsLimit, 0x4808, "GuestFsLimit"),
   (guestGsLimit, 0x480a, "GuestGsLimit"),
   (guestLdtrLimit, 0x480c, "GuestLdtrLimit"),
   (guestTrLimit, 0x480e, "GuestTrLimit"),
   (guestGdtrLimit, 0x4810, "GuestGdtrLimit"),
   (guestIdtrLimit, 0x4812, "GuestIdtrLimit"),
   (guestEsAccessRights, 0x4814, "GuestEsAccessRights"),
   (guestCsAccessRights, 0x4816, "GuestCsAccessRights"),
   (guestSsAccessRights, 0x4818, "GuestSsAccessRights"),
   (guestDsAccessRights, 0x481a, "GuestDsAccessRights"),
   (guestFsAccessRights, 0x481c, "GuestFsAccessRights"),
   (guestGsAccessRights, 0x481e, "GuestGsAccessRights"),
   (guestLdtrAccessRights, 0x4820, "GuestLdtrAccessRights"),
   (guestTrAccessRights, 0x4822, "GuestTrAccessRights"),
   (guestInterruptibilityState, 0x4824, "GuestInterruptibilityState"),
   (guestActivityState, 0x4826, "GuestActivityState"),
   (vmexitQualification, 0x6400, "VmexitQualification"),
   (guestCr0, 0x6800, "GuestCr0"),
   (guestCr3, 0x6802, "GuestCr3"),
   (guestCr4, 0x6804, "GuestCr4"),
   (guestEsBase, 0x6806, "GuestEsBase"),
   (guestCsBase, 0x6808, "GuestCsBase"),
   (guestSsBase, 0x680a, "GuestSsBase"),
   (guestDsBase, 0x680c, "GuestDsBase"),
   (guestFsBase, 0x680e, "GuestFsBase"),
   (guestGsBase, 0x6810, "GuestGsBase"),
   (guestLdtrBase, 0x6812, "GuestLdtrBase"),
   (guestTrBase, 0x6814, "GuestTrBase"),
   (guestGdtrBase, 0x6816, "GuestGdtrBase"),
   (guestIdtrBase, 0x6818, "GuestIdtrBase"),
   (guestDr7, 0x681a, "GuestDr7"),
   (guestRsp, 0x681c, "GuestRsp"),
   (guestRip, 0x681e, "GuestRip"),
   (guestRflags, 0x6820, "GuestRflags"),
   (hostCr0, 0x6c00, "HostCr0"),
   (hostCr3, 0x6c02, "HostCr3"),
   (hostCr4, 0x6c04, "HostCr4"),
   (hostFsBase, 0x6c06, "HostFsBase"),
   (hostGsBase, 0x6c08, "HostGsBase"),
   (hostTrBase, 0x6c0a, "HostTrBase"),
   (hostGdtrBase, 0x6c0c, "HostGdtrBase"),
   (hostIdtrBase, 0x6c0e, "HostIdtrBase"),
   (hostRsp, 0x6c14, "HostRsp"),
   (hostRip, 0x6c16, "HostRip")]

def count : Nat := 85

/-- The position of a field in declaration order. -/
def index (f : Field) : Fin count := ⟨f.ctorIdx, by cases f <;> decide⟩

theorem index_inj {f g : Field} : f.index = g.index ↔ f = g := by
  constructor
  · intro h
    have hv : f.ctorIdx = g.ctorIdx := Fin.val_eq_of_eq h
    have hf := congrArg Field.ofNat hv
    simpa [Field.ofNat_ctorIdx] using hf
  · rintro rfl
    rfl

def encoding (f : Field) : UInt32 :=
  (table[f.index.val]?.map fun row => row.2.1).getD 0

def name (f : Field) : String :=
  (table[f.index.val]?.map fun row => row.2.2).getD ""

def ofName? (name : String) : Option Field :=
  (table.find? fun row => row.2.2 == name).map Prod.fst

end Field

end Hypervisor
