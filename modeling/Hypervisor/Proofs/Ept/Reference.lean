import Hypervisor.Ept.Entry
import Hypervisor.Proofs.Word

/-!
# Entries that refer to pages

Setting the target and then the flags of an entry leaves nothing of the old entry.  As long as the
page fits in the address field, the page, the flags and the permission can all be read back.
-/

namespace Hypervisor

namespace Entry

/-- The entry that refers to a page with the given flags. -/
def referring (p : Hpa) (flags : EntryFlags) : Entry := ⟨flags.bits ||| p.val⟩

private theorem addressMask_eq :
    addressMask = ~~~pageMask &&& UInt64.ofNat (2 ^ 52 - 1) := by decide

/-- The start of a page keeps all but the bits above those that an entry has a place for. -/
theorem toNat_and_addressMask {p : Hpa} (ha : p.isPageAligned = true) :
    (p.val &&& addressMask).toNat = p.val.toNat % 2 ^ 52 := by
  have hoff : p.val &&& pageMask = 0 := eq_of_beq ha
  rw [addressMask_eq, ← UInt64.and_assoc, Word.and_not_of_and_eq_zero hoff,
    Word.toNat_and_two_pow _ 52 (by decide)]

theorem and_addressMask {p : Hpa} (ha : p.isPageAligned = true) (hf : p.val.toNat < 2 ^ 52) :
    p.val &&& addressMask = p.val := by
  apply UInt64.toNat_inj.1
  rw [toNat_and_addressMask ha, Nat.mod_eq_of_lt hf]

theorem flags_and_addressMask (flags : EntryFlags) : flags.bits &&& addressMask = 0 := by
  rw [← flags.known, UInt64.and_assoc, show entryFlags.known &&& addressMask = 0 by decide,
    UInt64.and_zero]

private theorem page_and_small {p : Hpa} {w : UInt64} (ha : p.isPageAligned = true)
    (hw : pageMask &&& w = w) : p.val &&& w = 0 := by
  have hoff : p.val &&& pageMask = 0 := eq_of_beq ha
  rw [← hw, ← UInt64.and_assoc, hoff, UInt64.zero_and]

theorem aligned_and_known {p : Hpa} (ha : p.isPageAligned = true) :
    p.val &&& entryFlags.known = 0 := page_and_small ha (by decide)

theorem withTarget_withFlags (e : Entry) {p : Hpa} (ha : p.isPageAligned = true)
    (hf : p.val.toNat < 2 ^ 52) :
    ∃ e', e.withTarget p = .ok e' ∧ ∀ flags, e'.withFlags flags = referring p flags := by
  refine ⟨_, if_pos ha, fun flags => ?_⟩
  have hmask : (p.val ||| (e.raw &&& ~~~addressMask)) &&& addressMask = p.val := by
    rw [Word.or_and, and_addressMask ha hf, UInt64.and_assoc, UInt64.not_and_self,
      UInt64.and_zero, UInt64.or_zero]
  simp only [withFlags, hmask, referring]

theorem flags_referring {p : Hpa} (ha : p.isPageAligned = true) (flags : EntryFlags) :
    (referring p flags).flags = flags := by
  have hb : (flags.bits ||| p.val) &&& entryFlags.known = flags.bits := by
    rw [Word.or_and, flags.known, aligned_and_known ha, UInt64.or_zero]
  rw [← Flags.truncate_bits flags]
  simp only [Entry.flags, referring, Flags.truncate, hb, flags.known]

theorem target_referring {p : Hpa} (ha : p.isPageAligned = true) (hf : p.val.toNat < 2 ^ 52)
    {flags : EntryFlags} (hflags : flags.intersects EntryFlags.full = true) :
    (referring p flags).target = some p := by
  have hmask : (flags.bits ||| p.val) &&& addressMask = p.val := by
    rw [Word.or_and, flags_and_addressMask, and_addressMask ha hf, UInt64.zero_or]
  have hvalid : Space.hostPhysical.isValid p.val = true := by
    have hlt : p.val < 0xffff000000000000 := UInt64.lt_iff_toNat_lt.2 (Nat.lt_trans hf (by decide))
    simpa [Space.isValid] using hlt
  rw [target, flags_referring ha, if_pos hflags]
  show Address.ofWord? ((flags.bits ||| p.val) &&& addressMask) = some p
  rw [hmask]
  exact if_pos hvalid

@[simp] theorem target_empty : empty.target = none := by decide

end Entry

namespace Permission

private theorem leafFlags_and_full (perm : Permission) :
    perm.leafFlags.bits &&& EntryFlags.full.bits = perm.bits := by
  have hk : perm.bits &&& entryFlags.known &&& EntryFlags.full.bits = perm.bits := by
    rw [UInt64.and_assoc, show entryFlags.known &&& EntryFlags.full.bits = permissionFlags.known by
      decide, perm.known]
  have h1 : EntryFlags.writeBack.bits &&& EntryFlags.full.bits = 0 := by decide
  have h2 : EntryFlags.ignorePat.bits &&& EntryFlags.full.bits = 0 := by decide
  simp only [leafFlags, Flags.bits_or, Flags.truncate]
  rw [Word.or_and, Word.or_and, hk, h1, h2, UInt64.or_zero, UInt64.or_zero]

theorem leafFlags_intersects {perm : Permission} (h : perm.isEmpty = false) :
    perm.leafFlags.intersects EntryFlags.full = true := by
  rw [Flags.intersects, leafFlags_and_full]
  simpa [Flags.isEmpty, bne] using h

theorem permission_referring {p : Hpa} (ha : p.isPageAligned = true) (perm : Permission) :
    (Entry.referring p perm.leafFlags).permission = perm := by
  have hp : p.val &&& EntryFlags.full.bits = 0 := by
    have hoff : p.val &&& pageMask = 0 := eq_of_beq ha
    rw [show EntryFlags.full.bits = pageMask &&& EntryFlags.full.bits by decide,
      ← UInt64.and_assoc, hoff, UInt64.zero_and]
  have hb : (perm.leafFlags.bits ||| p.val) &&& EntryFlags.full.bits = perm.bits := by
    rw [Word.or_and, leafFlags_and_full, hp, UInt64.or_zero]
  simp only [Entry.permission, Entry.referring]
  rw [hb, Flags.truncate_bits]

@[simp] theorem and_full (perm : Permission) : perm &&& Permission.full = perm := by
  obtain ⟨bits, known⟩ := perm
  have hb : bits &&& Permission.full.bits = bits := known
  simp only [HAnd.hAnd, AndOp.and] at hb ⊢
  congr

end Permission

end Hypervisor
