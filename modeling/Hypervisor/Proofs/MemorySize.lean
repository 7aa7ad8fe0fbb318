import Hypervisor.Proofs.ClockChip
import Hypervisor.Proofs.Ownership.MemoryMap

/-!
# Two ways to learn the size of memory

A guest reads the size of its memory from its clock chip, which counts kibibytes in two bytes, and from its
memory map, which counts bytes in two words.  The two agree as far as two bytes go.
-/

namespace Hypervisor

namespace MemoryMap

/-- The length of the usable range that starts at an address, or zero if none does. -/
def usableFrom (es : List MapEntry) (base : Nat) : Nat :=
  ((es.find? fun e => e.kind == 1 && e.base == base).map MapEntry.length).getD 0

theorem usableFrom_low (es : List MapEntry) :
    usableFrom ([⟨20, 0, 0xa0000, 1⟩, ⟨20, 0xa0000, 0x60000, 2⟩] ++ es) 0 = 640 * 1024 := by
  simp [usableFrom]

theorem usableFrom_high (length : Nat) :
    usableFrom ([⟨20, 0, 0xa0000, 1⟩, ⟨20, 0xa0000, 0x60000, 2⟩] ++ [⟨20, 0x100000, length, 1⟩]) 0x100000 =
      length := by
  simp [usableFrom]

theorem usableFrom_encode (ws : PageWords) (physSize : UInt64) :
    usableFrom (ws.setHalves 0 (encode physSize)).mapEntries 0 = 640 * 1024 ∧
      usableFrom (ws.setHalves 0 (encode physSize)).mapEntries 0x100000 =
        physSize.toNat - 0x100000 := by
  rw [mapEntries_encode, map_entry_ranges]
  refine ⟨usableFrom_low _, ?_⟩
  split_ifs with h
  · exact usableFrom_high _
  · have hle : physSize.toNat ≤ 0x100000 := UInt64.le_iff_toNat_le.1 (UInt64.not_lt.1 h)
    rw [Nat.sub_eq_zero_of_le hle]
    rfl

end MemoryMap

namespace Cmos.Holds

variable {size byte byte' : Nat} {index : UInt8}

theorem unique (h : Holds size index byte) (h' : Holds size index byte') : byte = byte' := by
  cases h <;> cases h' <;> rfl

end Cmos.Holds

namespace Session

open Hypervisor.Action

/-- The page that the memory map of the guest is written to when it asks for it. -/
def mapPage? (s : Session) : Option Hpa :=
  match memoryMapPage.run s with
  | .ok page t => t.host.memory.physical? page
  | .error _ _ => none

/-- The page with its memory map that the guest is handed at an exit. -/
def handedMap? (x : ExitReason × Session) : Option PageWords :=
  if x.1 = .fromGuest (.code .vmcall) ∧ x.2.context.regs.rax = 1 then
    match (dispatch x.1).run x.2 with
    | .ok _ t => x.2.mapPage?.map t.host.memory.words
    | .error _ _ => none
  else none

/-- The byte that the guest reads from its clock chip at an exit. -/
def readByte? (x : ExitReason × Session) : Option Nat :=
  match x.1 with
  | .fromGuest (.ioInstruction access) =>
      if access.port = 0x71 ∧ access.isIn = true then
        match (dispatch x.1).run x.2 with
        | .ok _ t => some (t.context.regs.rax.toNat % 256)
        | .error _ _ => none
      else none
  | _ => none

variable {s : Session} {reason : ExitReason} {index : UInt8} {size : UInt64} {ws : PageWords} {p : Hpa}
  {byte : Nat}

theorem continueAfter_leaves (s : Session) :
    continueAfter.Ends s
      (fun _ t => t.context.regs = s.context.regs ∧ t.host.memory = s.host.memory) (fun _ _ => True)
      fun _ _ => True := by
  rw [continueAfter, ends_bind, forwardRip, ends_bind, onHost, ends_onPart]
  refine Host.vmread_ends (fun _ _ => ?_) (fun _ => trivial) fun _ _ => trivial
  rw [ends_bind, ends_get, ends_ite]
  split
  · exact ⟨rfl, rfl⟩
  · trivial

theorem handlePortAccess_holds {access : PortAccess} (h : s.Selects index size)
    (hread : access.port = 0x71 ∧ access.isIn = true) :
    (handlePortAccess reason access).Ends s
      (fun _ t => Cmos.Holds size.toNat index (t.context.regs.rax.toNat % 256)) (fun _ _ => True)
      fun _ _ => True := by
  obtain ⟨rfl, rfl⟩ := h
  cases hvalue : Cmos.read? s.guest.rtcIndex s.guest.physSize with
  | none =>
      have hreject : s.Rejects reason (handlePortAccess reason access) :=
        handlePortAccess_missing hread hvalue
      obtain ⟨t, hrun, -⟩ := hreject
      exact (ends_error hrun).2 trivial
  | some value =>
      rw [ends_handlePortAccess_read hread hvalue]
      refine Ends.mono (continueAfter_leaves _) (fun _ t ht => ?_) (fun _ _ h => h) fun _ _ h => h
      rw [ht.1, Word.toNat_withLowByte, Nat.mul_add_mod_self_right, Nat.mod_eq_of_lt value.toNat_lt]
      exact Cmos.holds_of_read? hvalue

theorem holds_of_readByte? (h : s.Selects index size) (hx : readByte? (reason, s) = some byte) :
    Cmos.Holds size.toNat index byte := by
  rw [readByte?] at hx
  split at hx
  · rename_i access heq
    obtain rfl : reason = .fromGuest (.ioInstruction access) := heq
    split_ifs at hx with hread
    split at hx
    · rename_i r t hrun
      obtain rfl := Option.some.inj hx
      have hends : (dispatch (.fromGuest (.ioInstruction access))).Ends s
          (fun _ t => Cmos.Holds size.toNat index (t.context.regs.rax.toNat % 256)) (fun _ _ => True)
          fun _ _ => True := handlePortAccess_holds h hread
      exact hends.ok hrun
    · cases hx
  · cases hx

theorem memoryMapPage_selects : memoryMapPage.Upholds (Selects index size) fun _ _ => True := by
  refine Upholds.get_bind fun s _ => Upholds.bind (onMemory_selects _) fun r => ?_
  split
  · exact Upholds.pure
  · refine Upholds.bind (onMemory_selects _) fun _ => Upholds.bind (onMemory_selects _) fun _ => ?_
    exact Upholds.orFail

theorem giveMemoryMap_encodes (h : s.Selects index size) (hp : s.mapPage? = some p) :
    giveMemoryMap.Ends s
      (fun _ t => ∃ ws : PageWords, t.host.memory.words p = ws.setHalves 0 (MemoryMap.encode size))
      (fun _ _ => True) fun _ _ => True := by
  rw [mapPage?] at hp
  rw [giveMemoryMap, ends_bind]
  cases hrun : memoryMapPage.run s with
  | ok page t =>
      rw [hrun] at hp
      dsimp only at hp
      have ht : t.Selects index size := (memoryMapPage_selects s h).ok hrun
      refine (ends_ok hrun).2 ?_
      rw [ends_bind, ends_get]
      dsimp only
      rw [hp, ht.2, ends_bind, ends_onMemory, Memory.ends_updatePage]
      have hwords := Memory.words_edited (a := p)
        (fun ws => ws.setHalves 0 (MemoryMap.encode size)) (Memory.live_of_physical? hp).1
      rw [if_pos rfl] at hwords
      exact ⟨_, hwords⟩
  | error stop t =>
      rw [hrun] at hp
      cases hp

theorem encodes_of_handedMap? (h : s.Selects index size) (hx : handedMap? (reason, s) = some ws) :
    ∃ ws₀ : PageWords, ws = ws₀.setHalves 0 (MemoryMap.encode size) := by
  rw [handedMap?] at hx
  split_ifs at hx with hasked
  obtain ⟨rfl, hrax⟩ := hasked
  split at hx
  · rename_i r t hrun
    obtain ⟨p, hp, rfl⟩ := Option.map_eq_some_iff.1 hx
    have hcall : Hypercall.ofNumber? s.context.regs.rax = some .memoryMap := by
      rw [hrax]
      decide
    have hends : (handleHypercall (.fromGuest (.code .vmcall))).Ends s
        (fun _ t => ∃ ws : PageWords, t.host.memory.words p = ws.setHalves 0 (MemoryMap.encode size))
        (fun _ _ => True) fun _ _ => True := by
      rw [handleHypercall, ends_bind, ends_get]
      dsimp only
      rw [hcall, ends_bind]
      refine Ends.mono (giveMemoryMap_encodes h hp) ?_ (fun _ _ h => h) fun _ _ h => h
      rintro - u hu
      refine Ends.mono (continueAfter_leaves u) (fun _ t ht => ?_) (fun _ _ h => h) fun _ _ h => h
      rw [ht.2]
      exact hu
    exact hends.ok hrun
  · cases hx

end Session

namespace Machine

open Hypervisor.Action MemoryMap

/-- The guest `j`, which was built as `config` tells, may read the byte from the register of its clock
chip at some time. -/
def Reads (config : GuestConfig) (j : Nat) (index : UInt8) (byte : Nat) : Prop :=
  ∃ xs m i x, Exits config j xs m ∧ m.exit? i j = some x ∧ Session.lastSelected xs = index ∧
    Session.readByte? x = some byte

/-- The guest may be handed the page with its memory map at some time. -/
def Handed (config : GuestConfig) (j : Nat) (ws : PageWords) : Prop :=
  ∃ xs m i x, Exits config j xs m ∧ m.exit? i j = some x ∧ Session.handedMap? x = some ws

variable {config : GuestConfig} {j : Nat} {index : UInt8} {byte : Nat} {ws : PageWords} {m : Machine}
  {xs : List (ExitReason × Session)}

theorem Reads.holds (h : Reads config j index byte) :
    Cmos.Holds config.physSize.toNat index byte := by
  obtain ⟨xs, m, i, x, hexits, hexit, rfl, hbyte⟩ := h
  exact Session.holds_of_readByte? (hexits.selects.exit hexit) hbyte

theorem Handed.usableFrom (h : Handed config j ws) :
    usableFrom ws.mapEntries 0 = 640 * 1024 ∧
      usableFrom ws.mapEntries 0x100000 = config.physSize.toNat - 0x100000 := by
  obtain ⟨xs, m, i, x, hexits, hexit, hmap⟩ := h
  obtain ⟨ws₀, rfl⟩ := Session.encodes_of_handedMap? (hexits.selects.exit hexit) hmap
  exact MemoryMap.usableFrom_encode ws₀ config.physSize

/-- A guest is built only with whole pages. -/
theorem Exits.whole (h : Exits config j xs m) : config.physSize.toNat % 4096 = 0 := by
  induction h with
  | @built m _ i _ _ hrun =>
      have hbuilt : (perform { cpu := i, order := .build config }).Ends m
          (fun _ _ => config.physSize.toNat % 4096 = 0) (fun _ _ => True) fun _ _ => True := by
        rw [perform, ends_bind]
        refine onHost_ends (fun _ => trivial) fun c _ => ?_
        exact Ends.mono (Host.buildGuest_whole config (m.host c)) (fun _ _ h => h) (fun _ _ h => h)
          fun _ _ h => h
      exact hbuilt.ok hrun
  | done _ _ _ ih => exact ih
  | failed _ _ _ ih => exact ih

/-- Whenever and wherever a guest reads the four registers and is handed its memory map: the registers
tell the length of the usable memory below the hole, and that of the usable memory above it up to a
multiple of 64 MiB. -/
theorem memory_sizes_agree {register : UInt8 → Nat} (hmap : Handed config j ws)
    (hread : ∀ index ∈ [0x15, 0x16, 0x17, 0x18], Reads config j index (register index)) :
    1024 * (256 * register 0x16 + register 0x15) = usableFrom ws.mapEntries 0 ∧
      1024 * (256 * register 0x18 + register 0x17) = usableFrom ws.mapEntries 0x100000 % 2 ^ 26 ∧
      (1024 * (256 * register 0x18 + register 0x17) = usableFrom ws.mapEntries 0x100000 ↔
        usableFrom ws.mapEntries 0x100000 < 2 ^ 26) := by
  obtain ⟨hlow, hhigh⟩ := hmap.usableFrom
  have hwhole : config.physSize.toNat % 4096 = 0 := by
    obtain ⟨_, _, _, _, hexits, -⟩ := hmap
    exact hexits.whole
  have hbaseLow := (hread 0x15 (by decide)).holds.unique .baseLow
  have hbaseHigh := (hread 0x16 (by decide)).holds.unique .baseHigh
  have hextendedLow := (hread 0x17 (by decide)).holds.unique .extendedLow
  have hextendedHigh := (hread 0x18 (by decide)).holds.unique .extendedHigh
  have hextended : 1024 * (256 * register 0x18 + register 0x17) =
      usableFrom ws.mapEntries 0x100000 % 2 ^ 26 := by
    rw [hextendedLow, hextendedHigh, hhigh]
    omega
  refine ⟨?_, hextended, ?_⟩
  · rw [hbaseLow, hbaseHigh, hlow]
  · rw [hextended, Nat.mod_eq_iff_lt (by decide)]

def readsRegister (index : UInt8) : List Command :=
  [{ order := accesses 0x700000 index.toUInt64 }, { order := .run }, { order := accesses 0x710008 0 }]

def wantsMap : List Command :=
  [{ order := .script {
      event := .exit 0x12, fields := [(.vmexitInstructionLength, 3)], regs := [(.rax, 1)] } }]

theorem reads_of_any (hrun : ((uniprocessor.after [{ order := .build config }]).any fun m =>
      (m.exitsAfter 0 [] (readsRegister index)).any fun p => decide (Session.lastSelected p.1 = index ∧
        (p.2.exit? 0 0).bind Session.readByte? = some byte)) = true) : Reads config 0 index byte := by
  obtain ⟨xs, m, hexits, hlast, hbyte⟩ := Exits.exists_after (m := uniprocessor)
    (P := fun p => Session.lastSelected p.1 = index ∧
      (p.2.exit? 0 0).bind Session.readByte? = some byte) config (readsRegister index) rfl hrun
  obtain ⟨x, hexit, hx⟩ := Option.bind_eq_some_iff.1 hbyte
  exact ⟨xs, m, 0, x, hexits, hexit, hlast, hx⟩

theorem handed_of_any (config : GuestConfig) (P : PageWords → Bool)
    (hrun : ((uniprocessor.after [{ order := .build config }]).any fun m =>
      (m.exitsAfter 0 [] wantsMap).any fun p =>
        decide (((p.2.exit? 0 0).bind Session.handedMap?).any P = true)) = true) :
    ∃ ws, Handed config 0 ws ∧ P ws = true := by
  obtain ⟨xs, m, hexits, hmap⟩ := Exits.exists_after (m := uniprocessor)
    (P := fun p => ((p.2.exit? 0 0).bind Session.handedMap?).any P = true)
    config wantsMap rfl hrun
  obtain ⟨ws, hws, hP⟩ := (Option.any_eq_true _ _).1 hmap
  obtain ⟨x, hexit, hx⟩ := Option.bind_eq_some_iff.1 hws
  exact ⟨ws, ⟨xs, m, 0, x, hexits, hexit, hx⟩, hP⟩

/-- A guest of 18 MiB and 208 KiB reads how many kibibytes it has above the first mebibyte. -/
theorem memory_sizes_agree_small : ∃ ws, Handed { physSize := 0x1234000 } 0 ws ∧
    Reads { physSize := 0x1234000 } 0 0x17 0xd0 ∧ Reads { physSize := 0x1234000 } 0 0x18 0x44 ∧
    usableFrom ws.mapEntries 0x100000 = 1024 * 0x44d0 := by
  obtain ⟨ws, hmap, hsize⟩ := handed_of_any { physSize := 0x1234000 }
    (fun ws => usableFrom ws.mapEntries 0x100000 < 2 ^ 26) (by decide +kernel)
  let register : UInt8 → Nat := fun index =>
    if index = 0x15 then 0x80 else if index = 0x16 then 0x2 else if index = 0x17 then 0xd0 else 0x44
  have hread : ∀ index ∈ [0x15, 0x16, 0x17, 0x18],
      Reads { physSize := 0x1234000 } 0 index (register index) := by
    intro index hindex
    simp only [List.mem_cons, List.not_mem_nil, or_false] at hindex
    rcases hindex with rfl | rfl | rfl | rfl <;> exact reads_of_any (by decide +kernel)
  refine ⟨ws, hmap, hread 0x17 (by decide), hread 0x18 (by decide), ?_⟩
  exact ((memory_sizes_agree hmap hread).2.2.2 (of_decide_eq_true hsize)).symm

/-- A guest of 65 MiB reads zero, although it has 64 MiB above the first mebibyte. -/
theorem memory_sizes_differ : ∃ ws, Handed { physSize := 0x4100000 } 0 ws ∧
    Reads { physSize := 0x4100000 } 0 0x17 0 ∧ Reads { physSize := 0x4100000 } 0 0x18 0 ∧
    usableFrom ws.mapEntries 0x100000 = 0x4000000 := by
  obtain ⟨ws, hmap, hsize⟩ := handed_of_any { physSize := 0x4100000 }
    (fun ws => usableFrom ws.mapEntries 0x100000 = 0x4000000) (by decide +kernel)
  exact ⟨ws, hmap, reads_of_any (by decide +kernel), reads_of_any (by decide +kernel),
    of_decide_eq_true hsize⟩

end Machine

end Hypervisor
