import Hypervisor.Guest.MemoryMap
import Hypervisor.Proofs.Guest.Population
import Hypervisor.Proofs.Memory.Page

/-!
# Reading the memory map

A guest reads its memory map from the bytes of a page: a record that tells where the entries are and
how long they are, and then the entries.  What it reads there is what backs its addresses.
-/

namespace Hypervisor

/-- What a guest reads in the record at the start of the page. -/
structure MapRecord where
  flags : Nat
  length : Nat
  address : Nat

/-- An entry of a memory map as a guest reads it. -/
structure MapEntry where
  size : Nat
  base : Nat
  length : Nat
  kind : Nat
  deriving DecidableEq

def MapEntry.Covers (e : MapEntry) (g : Gpa) : Prop :=
  e.base ≤ g.val.toNat ∧ g.val.toNat < e.base + e.length

namespace PageWords

/-- The record that is read at the start of a page. -/
def mapRecord (ws : PageWords) : MapRecord := ⟨ws.number 0, ws.number 44, ws.number 48⟩

/-- The entry that is read at an offset. Its base and its length are each in two halves. -/
def mapEntry (ws : PageWords) (offset : Nat) : MapEntry where
  size := ws.number offset
  base := ws.number (offset + 4) + 2 ^ 32 * ws.number (offset + 8)
  length := ws.number (offset + 12) + 2 ^ 32 * ws.number (offset + 16)
  kind := ws.number (offset + 20)

/-- The entries that are read where the record says. -/
def mapEntries (ws : PageWords) : List MapEntry :=
  (List.range (ws.mapRecord.length / MemoryMap.entrySize)).map fun i =>
    ws.mapEntry (ws.mapRecord.address - Layout.memoryMap.toNat + MemoryMap.entrySize * i)

end PageWords

namespace MemoryMap

/-- What a guest reads in the page tells what backs its addresses, in `count` entries. -/
structure Describes (ws : PageWords) (physSize : UInt64) (count : Nat) : Prop where
  flags : ws.mapRecord.flags = 0x40
  address : ws.mapRecord.address = 0x6000 + 52
  length : ws.mapRecord.length = 24 * count
  count : ws.mapEntries.length = count
  size : ∀ e ∈ ws.mapEntries, e.size = 20
  increasing : ws.mapEntries.Pairwise fun e e' => e.base < e'.base ∧ e.base + e.length ≤ e'.base
  usable : ∀ g : Gpa, (∃ e ∈ ws.mapEntries, e.kind = 1 ∧ e.Covers g) ↔
    Region.of g physSize = .ram
  reserved : ∃ e ∈ ws.mapEntries, e.kind = 2 ∧
    ∀ g : Gpa, 0xa0000 ≤ g.val.toNat → g.val.toNat < 0x100000 → e.Covers g

def entry (r : MemoryRange) : MapEntry := ⟨20, r.base.toNat, r.length.toNat, r.kind.code.toNat⟩

variable {ws : PageWords} {physSize : UInt64}

theorem length_ranges_le (physSize : UInt64) : (ranges physSize).length ≤ 3 := by
  simp only [ranges]
  split <;> simp

theorem length_encode (physSize : UInt64) :
    (encode physSize).length = 13 + 6 * (ranges physSize).length := by
  simp only [encode, header, MemoryRange.encode, List.length_append, List.length_flatMap,
    List.length_cons, List.length_nil, List.map_const', List.sum_replicate_nat]
  omega

theorem getElem?_flatMap_encode (rs : List MemoryRange) (i : Nat) {j : Nat} (hj : j < 6) :
    (rs.flatMap MemoryRange.encode)[6 * i + j]? = rs[i]?.bind fun r => r.encode[j]? := by
  induction rs generalizing i with
  | nil => simp
  | cons r rs ih =>
      rw [List.flatMap_cons]
      have hlen : r.encode.length = 6 := rfl
      cases i with
      | zero => rw [List.getElem?_append_left (by omega)]; simp
      | succ i =>
          rw [List.getElem?_append_right (by omega), hlen,
            show 6 * (i + 1) + j - 6 = 6 * i + j by omega, ih, List.getElem?_cons_succ]

theorem number_encode {k : Nat} {h : UInt32} (hk : (encode physSize)[k]? = some h) :
    (ws.setHalves 0 (encode physSize)).number (4 * k) = h.toNat := by
  have hle := length_ranges_le physSize
  have hfits : 0 + (encode physSize).length ≤ 2 * 512 := by
    rw [length_encode]
    omega
  rw [PageWords.number_mul, PageWords.half_setHalves _ hfits, if_neg (Nat.not_lt_zero k), Nat.sub_zero,
    hk, Option.getD_some]

theorem toNat_halves (w : UInt64) :
    w.toUInt32.toNat + 2 ^ 32 * (w >>> 32).toUInt32.toNat = w.toNat := by
  have hlt := w.toNat_lt
  rw [UInt64.toNat_toUInt32, UInt64.toNat_toUInt32, Word.toNat_shiftRight_half]
  omega

theorem mapEntry_encode {i : Nat} {r : MemoryRange} (hr : (ranges physSize)[i]? = some r) :
    (ws.setHalves 0 (encode physSize)).mapEntry (headerSize + entrySize * i) = entry r := by
  have hword : ∀ j (h : UInt32), j < 6 → r.encode[j]? = some h →
      (ws.setHalves 0 (encode physSize)).number (headerSize + entrySize * i + 4 * j) = h.toNat := by
    intro j h hj hh
    have hplace : headerSize + entrySize * i + 4 * j = 4 * (13 + (6 * i + j)) := by
      simp only [headerSize, entrySize]
      omega
    rw [hplace]
    refine number_encode ?_
    rw [encode, List.getElem?_append_right (Nat.le_add_right 13 _)]
    show ((ranges physSize).flatMap MemoryRange.encode)[13 + (6 * i + j) - 13]? = _
    rw [Nat.add_sub_cancel_left, getElem?_flatMap_encode _ _ hj, hr, Option.bind_some, hh]
  have h0 := hword 0 _ (by decide) rfl
  have h1 := hword 1 _ (by decide) rfl
  have h2 := hword 2 _ (by decide) rfl
  have h3 := hword 3 _ (by decide) rfl
  have h4 := hword 4 _ (by decide) rfl
  have h5 := hword 5 _ (by decide) rfl
  simp only [PageWords.mapEntry, entry, MapEntry.mk.injEq]
  refine ⟨h0, ?_, ?_, h5⟩
  · rw [← toNat_halves r.base, ← h1, ← h2]
  · rw [← toNat_halves r.length, ← h3, ← h4]

theorem mapRecord_encode : (ws.setHalves 0 (encode physSize)).mapRecord =
    ⟨0x40, entrySize * (ranges physSize).length, Layout.memoryMap.toNat + headerSize⟩ := by
  have hle := length_ranges_le physSize
  have hnumber : ∀ k h, (encode physSize)[k]? = some h →
      (ws.setHalves 0 (encode physSize)).number (4 * k) = h.toNat := fun _ _ => number_encode
  have hflags := hnumber 0 _ rfl
  have hlength := hnumber 11 _ rfl
  have haddress := hnumber 12 _ rfl
  simp only [PageWords.mapRecord, MapRecord.mk.injEq]
  refine ⟨hflags, hlength.trans ?_, haddress⟩
  rw [Nat.toUInt32, UInt32.toNat_ofNat', entrySize]
  omega

theorem mapEntries_encode :
    (ws.setHalves 0 (encode physSize)).mapEntries = (ranges physSize).map entry := by
  rw [PageWords.mapEntries, mapRecord_encode]
  refine List.ext_getElem ?_ fun i hi hi' => ?_
  · rw [List.length_map, List.length_range, List.length_map]
    exact Nat.mul_div_cancel_left _ (by decide)
  · rw [List.length_map] at hi'
    rw [List.getElem_map, List.getElem_range, List.getElem_map, Nat.add_sub_cancel_left]
    exact mapEntry_encode (List.getElem?_eq_getElem hi')

theorem entry_extended (h : physSize > Layout.holeEnd) :
    entry (.between Layout.holeEnd physSize .usable) =
      ⟨20, 0x100000, physSize.toNat - 0x100000, 1⟩ := by
  have hle : Layout.holeEnd ≤ physSize := UInt64.le_of_lt h
  simp only [entry, MemoryRange.between, if_pos hle, UInt64.toNat_sub_of_le _ _ hle]
  rfl

/-- The entries as they are read: memory below the hole, the hole, and memory above it. -/
theorem map_entry_ranges : (ranges physSize).map entry =
    [⟨20, 0, 0xa0000, 1⟩, ⟨20, 0xa0000, 0x60000, 2⟩] ++
      if physSize > Layout.holeEnd then [⟨20, 0x100000, physSize.toNat - 0x100000, 1⟩] else [] := by
  rw [ranges]
  split_ifs with h
  · rw [List.map_append, List.map_singleton, entry_extended h]
    rfl
  · rfl

theorem describes_encode (ws : PageWords) (physSize : UInt64) :
    Describes (ws.setHalves 0 (encode physSize)) physSize (ranges physSize).length := by
  have hsize : physSize > Layout.holeEnd ↔ 0x100000 < physSize.toNat := UInt64.lt_iff_toNat_lt
  refine ⟨?_, ?_, ?_, ?_, fun e he => ?_, ?_, fun g => ?_, ?_⟩
  · rw [mapRecord_encode]
  · rw [mapRecord_encode]
    rfl
  · rw [mapRecord_encode]
    rfl
  · rw [mapEntries_encode, List.length_map]
  · rw [mapEntries_encode] at he
    obtain ⟨r, -, rfl⟩ := List.mem_map.1 he
    rfl
  · rw [mapEntries_encode, map_entry_ranges]
    split_ifs <;> simp
  · rw [mapEntries_encode, map_entry_ranges, Region.of_eq_ram]
    split_ifs with h
    · rw [hsize] at h
      simp [MapEntry.Covers]
      omega
    · rw [hsize] at h
      simp [MapEntry.Covers]
      omega
  · rw [mapEntries_encode, map_entry_ranges]
    refine ⟨⟨20, 0xa0000, 0x60000, 2⟩, List.mem_append_left _ (by simp), rfl, fun g hlow hhigh => ?_⟩
    exact ⟨hlow, hhigh⟩

end MemoryMap

end Hypervisor
