import Hypervisor.Proofs.Ept.Reference

/-!
# Changing an entry

The address and the flags of an entry share one word.  They are changed apart from each other and in
any order, and what is read back is what each of them was changed to last.  Only the bits of an address
that the entry has a place for are kept.
-/

namespace Hypervisor

namespace EntryFlags

/-- No access is permitted, and nothing else is said. -/
def none : EntryFlags := { bits := 0 }

end EntryFlags

namespace Entry

/-- The entry after a change. One that fails leaves it as it was. -/
def change (e : Entry) (c : Edit) : Entry :=
  match e.apply c with
  | .ok e' => e'
  | .error _ => e

/-- The empty entry after changes, the last one first. -/
def changed : List Edit → Entry
  | [] => empty
  | c :: earlier => (changed earlier).change c

/-- The flags that were set last since the entry was cleared, of changes from the last one on. -/
def lastFlags : List Edit → EntryFlags
  | [] => .none
  | .clear :: _ => .none
  | .flags flags :: _ => flags
  | .target _ :: earlier => lastFlags earlier

/-- The page that the entry was successfully made to refer to last since it was cleared, or page zero. -/
def lastTarget : List Edit → Hpa
  | [] => ⟨0⟩
  | .clear :: _ => ⟨0⟩
  | .flags _ :: earlier => lastTarget earlier
  | .target p :: earlier => if p.isPageAligned then p else lastTarget earlier

/-- The bits for flags are `flags`, and the bits for an address are those of `p`.  The other bits are of
no account. -/
structure Holds (e : Entry) (flags : EntryFlags) (p : Hpa) : Prop where
  flags : e.raw &&& entryFlags.known = flags.bits
  address : e.raw &&& addressMask = p.val &&& addressMask

variable {e : Entry} {flags : EntryFlags} {p q : Hpa}

namespace Holds

theorem empty : Entry.empty.Holds .none ⟨0⟩ := ⟨by decide, by decide⟩

theorem withFlags (h : e.Holds flags p) (flags' : EntryFlags) : (e.withFlags flags').Holds flags' p where
  flags := by
    rw [Entry.withFlags, Word.or_and, flags'.known, UInt64.and_assoc,
      show addressMask &&& entryFlags.known = 0 by decide, UInt64.and_zero, UInt64.or_zero]
  address := by
    rw [Entry.withFlags, Word.or_and, flags_and_addressMask, UInt64.zero_or, UInt64.and_assoc,
      UInt64.and_self, h.address]

/-- Bits of the new address that the entry has no place for do not reach the flags. -/
theorem withTarget (h : e.Holds flags p) (ha : q.isPageAligned = true) :
    Holds ⟨q.val ||| (e.raw &&& ~~~addressMask)⟩ flags q where
  flags := by
    rw [Word.or_and, aligned_and_known ha, UInt64.zero_or, UInt64.and_assoc,
      show ~~~addressMask &&& entryFlags.known = entryFlags.known by decide, h.flags]
  address := by
    rw [Word.or_and, UInt64.and_assoc e.raw, UInt64.not_and_self, UInt64.and_zero, UInt64.or_zero]

theorem change {edits : List Edit} (h : e.Holds (lastFlags edits) (lastTarget edits)) (c : Edit) :
    (e.change c).Holds (lastFlags (c :: edits)) (lastTarget (c :: edits)) := by
  cases c with
  | target q =>
      simp only [Entry.change, Entry.apply, Entry.withTarget, lastFlags, lastTarget]
      by_cases ha : q.isPageAligned = true
      · rw [if_pos ha, if_pos ha]
        exact h.withTarget ha
      · rw [if_neg ha, if_neg ha]
        exact h
  | flags flags => exact h.withFlags flags
  | clear => exact empty

theorem flags_eq (h : e.Holds flags p) : e.flags = flags := by
  rw [← Flags.truncate_bits flags]
  simp only [Entry.flags, Flags.truncate, h.flags, flags.known]

/-- The address that is read back is the one that the entry holds, without the bits that do not fit. -/
theorem target_eq (h : e.Holds flags p) : e.target =
    if flags.intersects EntryFlags.full then some ⟨p.val &&& addressMask⟩ else none := by
  have hle : (p.val &&& addressMask).toNat ≤ addressMask.toNat := by
    rw [UInt64.toNat_and]
    exact Nat.and_le_right
  have hlt : p.val &&& addressMask < 0xffff000000000000 :=
    UInt64.lt_iff_toNat_lt.2 (Nat.lt_of_le_of_lt hle (by decide))
  rw [target, h.flags_eq, h.address, Address.ofWord?,
    if_pos (show Space.hostPhysical.isValid _ = true from decide_eq_true hlt)]

end Holds

theorem changed_holds (edits : List Edit) :
    (changed edits).Holds (lastFlags edits) (lastTarget edits) := by
  induction edits with
  | nil => exact .empty
  | cons c earlier ih => exact ih.change c

theorem lastTarget_aligned (edits : List Edit) : (lastTarget edits).isPageAligned = true := by
  induction edits with
  | nil => rfl
  | cons c earlier ih =>
      cases c with
      | target p =>
          rw [lastTarget]
          split_ifs with ha
          · exact ha
          · exact ih
      | flags flags => exact ih
      | clear =>
          rw [lastTarget]
          rfl

/-- After any changes to the empty entry: it can be made to refer to a page just if the address is the
start of one, and otherwise the attempt is refused and changes nothing; its flags are those that were set
last since it was cleared; it refers to a page just if they permit some access, and then to the one that it
was made to refer to last, but for the bits of the address from bit 52 on, which are lost. -/
theorem edits_read_back (edits : List Edit) :
    (∀ p : Hpa,
      ((changed edits).apply (.target p) = .error .unaligned ↔ p.isPageAligned = false) ∧
      (p.isPageAligned = false → changed (.target p :: edits) = changed edits) ∧
      (p.isPageAligned = true → ∃ e, (changed edits).apply (.target p) = .ok e ∧
        e.flags = (changed edits).flags)) ∧
    (changed edits).flags = lastFlags edits ∧
    ((changed edits).target = none ↔ (lastFlags edits).intersects EntryFlags.full = false) ∧
    ((lastFlags edits).intersects EntryFlags.full = true →
      ∃ q, (changed edits).target = some q ∧
        q.val.toNat = (lastTarget edits).val.toNat % 2 ^ 52 ∧
        (q = lastTarget edits ↔ (lastTarget edits).val.toNat < 2 ^ 52)) := by
  have hholds := changed_holds edits
  refine ⟨fun p => ⟨?_, fun ha => ?_, fun ha => ?_⟩, hholds.flags_eq, ?_, fun hpermits => ?_⟩
  · cases ha : p.isPageAligned <;> simp [apply, withTarget, ha]
  · simp [changed, change, apply, withTarget, ha]
  · exact ⟨_, if_pos ha, (hholds.withTarget ha).flags_eq.trans hholds.flags_eq.symm⟩
  · rw [hholds.target_eq]
    cases (lastFlags edits).intersects EntryFlags.full <;> simp
  · have hkept := toNat_and_addressMask (lastTarget_aligned edits)
    refine ⟨_, by rw [hholds.target_eq, if_pos hpermits], hkept, ?_⟩
    rw [Address.mk.injEq, ← UInt64.toNat_inj, hkept, Nat.mod_eq_iff_lt (by decide)]

/-- A page from 2^52 on is an address, but the entry that is made to refer to it refers to page zero. -/
theorem edits_truncate_target :
    (Address.ofWord? 0x10000000000000 : Option Hpa) = some ⟨0x10000000000000⟩ ∧
    lastTarget [.flags .full, .target ⟨0x10000000000000⟩] = ⟨0x10000000000000⟩ ∧
    (changed [.flags .full, .target ⟨0x10000000000000⟩]).target = some ⟨0⟩ := by
  decide

end Entry

end Hypervisor
