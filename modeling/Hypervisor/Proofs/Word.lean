import Hypervisor.Address
import Hypervisor.Flags
import Mathlib.Data.Nat.Bitwise
import Mathlib.Tactic

/-!
# Words and pages

Masks of words in terms of remainders, and what they say about the page of an address.
-/

namespace Hypervisor

namespace Word

theorem or_and (a b c : UInt64) : (a ||| b) &&& c = (a &&& c) ||| (b &&& c) := by
  apply UInt64.toBitVec_inj.1
  simp only [UInt64.toBitVec_and, UInt64.toBitVec_or, BitVec.and_or_distrib_right]

theorem and_or (a b c : UInt64) : a &&& (b ||| c) = (a &&& b) ||| (a &&& c) := by
  rw [UInt64.and_comm, or_and, UInt64.and_comm b, UInt64.and_comm c]

theorem and_or_and_not (a c : UInt64) : (a &&& c) ||| (a &&& ~~~c) = a := by
  rw [← and_or, UInt64.or_not_self, UInt64.and_neg_one]

theorem and_not_of_and_eq_zero {a c : UInt64} (h : a &&& c = 0) : a &&& ~~~c = a := by
  have hs := and_or_and_not a c
  rwa [h, UInt64.zero_or] at hs

theorem or_and_absorb (a b : UInt64) : a ||| (b &&& a) = a := by
  have h := or_and (-1) b a
  rw [UInt64.neg_one_or, UInt64.neg_one_and] at h
  exact h.symm

theorem or_eq_and_not_or (a c : UInt64) : a ||| c = (a &&& ~~~c) ||| c :=
  calc a ||| c
      = ((a &&& c) ||| (a &&& ~~~c)) ||| c := by rw [and_or_and_not]
    _ = (a &&& ~~~c) ||| (c ||| (a &&& c)) := by
        rw [UInt64.or_comm (a &&& c), UInt64.or_assoc, UInt64.or_comm (a &&& c)]
    _ = (a &&& ~~~c) ||| c := by rw [or_and_absorb]

theorem toUInt64_toUInt32_shiftRight (a : UInt64) : (a >>> 32).toUInt32.toUInt64 = a >>> 32 := by
  rw [← UInt64.toNat_inj]
  have hlt := a.toNat_lt
  simp
  omega

theorem toNat_and_two_pow (a : UInt64) (n : Nat) (hn : n ≤ 64) :
    (a &&& UInt64.ofNat (2 ^ n - 1)).toNat = a.toNat % 2 ^ n := by
  have hlt : 2 ^ n - 1 < 2 ^ 64 := by
    have := Nat.pow_le_pow_right (show 0 < 2 by decide) hn
    have := Nat.pow_pos (n := n) (show 0 < 2 by decide)
    omega
  rw [UInt64.toNat_and, UInt64.toNat_ofNat_of_lt' hlt, Nat.and_two_pow_sub_one_eq_mod]

/-- Of a single bit, all is set or nothing. -/
theorem and_bit_eq_self_iff (w : UInt64) {bit : UInt64} {k : Nat} (hbit : bit.toNat = 2 ^ k) :
    w &&& bit = bit ↔ w &&& bit ≠ 0 := by
  have hpos : 0 < 2 ^ k := Nat.two_pow_pos k
  rw [ne_eq, ← UInt64.toNat_inj, ← UInt64.toNat_inj, UInt64.toNat_and, hbit, Nat.and_two_pow]
  cases w.toNat.testBit k with
  | false => simp [hpos.ne]
  | true => simp

theorem toNat_or_of_lt {a b : UInt64} {n : Nat} (ha : a.toNat % 2 ^ n = 0) (hb : b.toNat < 2 ^ n) :
    (a ||| b).toNat = a.toNat + b.toNat := by
  have hdiv : a.toNat = a.toNat / 2 ^ n * 2 ^ n := by
    rw [Nat.div_mul_cancel (Nat.dvd_of_mod_eq_zero ha)]
  rw [UInt64.toNat_or, hdiv, ← Nat.shiftLeft_eq, Nat.shiftLeft_add_eq_or_of_lt hb]

theorem toNat_and_not_two_pow (a : UInt64) (n : Nat) (hn : n ≤ 64) :
    (a &&& ~~~UInt64.ofNat (2 ^ n - 1)).toNat = a.toNat / 2 ^ n * 2 ^ n := by
  have hpos : 0 < 2 ^ n := Nat.pow_pos (by decide)
  have hclear : (a &&& ~~~UInt64.ofNat (2 ^ n - 1)).toNat % 2 ^ n = 0 := by
    rw [← toNat_and_two_pow _ n hn, UInt64.and_assoc, UInt64.not_and_self, UInt64.and_zero]
    rfl
  have hlow : (a &&& UInt64.ofNat (2 ^ n - 1)).toNat < 2 ^ n := by
    rw [toNat_and_two_pow a n hn]
    exact Nat.mod_lt _ hpos
  have hsum := toNat_or_of_lt hclear hlow
  rw [UInt64.or_comm, and_or_and_not, toNat_and_two_pow a n hn] at hsum
  have hdiv := Nat.div_add_mod' a.toNat (2 ^ n)
  omega

theorem toNat_shiftLeft_half (a : UInt64) : (a <<< 32).toNat = a.toNat % 2 ^ 32 * 2 ^ 32 := by
  have hlt := a.toNat_lt
  rw [UInt64.toNat_shiftLeft]
  show a.toNat <<< 32 % 2 ^ 64 = _
  rw [Nat.shiftLeft_eq]
  omega

theorem shiftLeft_toUInt32 (a : UInt64) : a.toUInt32.toUInt64 <<< 32 = a <<< 32 := by
  rw [← UInt64.toNat_inj, toNat_shiftLeft_half, toNat_shiftLeft_half, UInt32.toNat_toUInt64,
    UInt64.toNat_toUInt32, Nat.mod_mod]

theorem toNat_shiftRight_half (a : UInt64) : (a >>> 32).toNat = a.toNat / 2 ^ 32 := by
  rw [UInt64.toNat_shiftRight]
  exact Nat.shiftRight_eq_div_pow _ _

theorem toNat_and_half (a : UInt64) : (a &&& 0xffffffff).toNat = a.toNat % 2 ^ 32 :=
  toNat_and_two_pow a 32 (by decide)

theorem and_half (a : UInt64) : a &&& 0xffffffff = a.toUInt32.toUInt64 := by
  rw [← UInt64.toNat_inj, UInt32.toNat_toUInt64, UInt64.toNat_toUInt32, toNat_and_half]

theorem halves (a : UInt64) : (a >>> 32) <<< 32 ||| (a &&& 0xffffffff) = a := by
  have hlt := a.toNat_lt
  rw [← UInt64.toNat_inj, toNat_or_of_lt (n := 32), toNat_shiftLeft_half, toNat_shiftRight_half,
    toNat_and_half]
  · omega
  · rw [toNat_shiftLeft_half, Nat.mul_mod_left]
  · rw [toNat_and_half]
    exact Nat.mod_lt _ (by decide)

/-- Every bit of `a` is set in `b`. -/
def Within (a b : UInt64) : Prop := a &&& b = a

instance (a b : UInt64) : Decidable (Within a b) := inferInstanceAs (Decidable (_ = _))

theorem within_iff {a b : UInt64} :
    Within a b ↔ ∀ i, a.toNat.testBit i = true → b.toNat.testBit i = true := by
  rw [Within, ← UInt64.toNat_inj, UInt64.toNat_and]
  constructor
  · intro h i ha
    have hbit := congrArg (Nat.testBit · i) h
    simpa only [Nat.testBit_and, ha, Bool.true_and] using hbit
  · intro h
    refine Nat.eq_of_testBit_eq fun i => ?_
    rw [Nat.testBit_and]
    cases ha : a.toNat.testBit i with
    | false => rfl
    | true => rw [h i ha, Bool.and_self]

theorem Within.and_eq_zero {a b c : UInt64} (h : Within a b) (hb : b &&& c = 0) : a &&& c = 0 := by
  rw [← h, UInt64.and_assoc, hb, UInt64.and_zero]

end Word

theorem Flags.contains_truncate {table : FlagTable} (w : UInt64) (a : Flags table) :
    (Flags.truncate w : Flags table).contains a = true ↔ Word.Within a.bits w := by
  have hbits : (Flags.truncate w : Flags table).bits &&& a.bits = w &&& a.bits := by
    show w &&& table.known &&& a.bits = w &&& a.bits
    rw [UInt64.and_assoc, UInt64.and_comm table.known, a.known]
  rw [Flags.contains, hbits, beq_iff_eq, Word.Within, UInt64.and_comm]

namespace Address

variable {space : Space}

theorem toNat_pageOffset (a : Address space) : a.pageOffset.toNat = a.val.toNat % 4096 :=
  Word.toNat_and_two_pow a.val 12 (by decide)

theorem ofWord?_eq_some {w : UInt64} {a : Address space} :
    ofWord? w = some a ↔ space.isValid w = true ∧ a.val = w := by
  rw [ofWord?]
  split_ifs with hvalid
  · rw [Option.some.injEq]
    constructor
    · rintro rfl
      exact ⟨hvalid, rfl⟩
    · rintro ⟨-, rfl⟩
      rfl
  · simp [hvalid]

theorem isPageAligned_iff {a : Address space} : a.isPageAligned = true ↔ a.val.toNat % 4096 = 0 := by
  rw [isPageAligned, beq_iff_eq, ← UInt64.toNat_inj, toNat_pageOffset]
  rfl

theorem pageDown_of_isPageAligned {a : Address space} (h : a.isPageAligned = true) :
    a.pageDown = a := by
  have h0 : a.val &&& pageMask = 0 := eq_of_beq h
  exact congrArg Address.mk (Word.and_not_of_and_eq_zero h0)

theorem isPageAligned_pageDown (a : Address space) : a.pageDown.isPageAligned = true := by
  have h0 : (a.val &&& ~~~pageMask) &&& pageMask = 0 := by
    rw [UInt64.and_assoc, UInt64.not_and_self, UInt64.and_zero]
  exact beq_iff_eq.2 h0

/-- An address is the start of its page plus its offset. -/
theorem toNat_pageDown (a : Address space) :
    a.pageDown.val.toNat = a.val.toNat / 4096 * 4096 :=
  Word.toNat_and_not_two_pow a.val 12 (by decide)

end Address

end Hypervisor
