import Hypervisor.Memory.Page
import Hypervisor.Proofs.Word

/-!
# Views of a page

The bytes and the 32-bit halves of a page are digits of its words, and a page that is written to by
halves reads back as it was written.
-/

namespace Hypervisor.PageWords

def half (ws : PageWords) (i : Nat) : UInt32 :=
  (ws.word (i / 2) >>> (32 * (i % 2)).toUInt64).toUInt32

/-- The 32-bit number at an offset, whose bytes are in little-endian order. -/
def number (ws : PageWords) (offset : Nat) : Nat :=
  (ws.byte offset).toNat + 2 ^ 8 * (ws.byte (offset + 1)).toNat +
    2 ^ 16 * (ws.byte (offset + 2)).toNat + 2 ^ 24 * (ws.byte (offset + 3)).toNat

variable {ws : PageWords} {i j : Nat}

theorem toNat_half : (ws.half i).toNat = (ws.word (i / 2)).toNat / 2 ^ (32 * (i % 2)) % 2 ^ 32 := by
  have hlt : 32 * (i % 2) < 64 := by omega
  simp only [half, UInt64.toNat_toUInt32, UInt64.toNat_shiftRight, Nat.toUInt64, UInt64.toNat_ofNat']
  rw [Nat.mod_eq_of_lt (show 32 * (i % 2) < 2 ^ 64 by omega), Nat.mod_eq_of_lt hlt,
    Nat.shiftRight_eq_div_pow]

theorem toNat_byte (o : Nat) :
    (ws.byte o).toNat = (ws.word (o / 8)).toNat / 2 ^ (8 * (o % 8)) % 2 ^ 8 := by
  have hlt : 8 * (o % 8) < 64 := by omega
  simp only [byte, UInt64.toNat_toUInt8, UInt64.toNat_shiftRight, Nat.toUInt64, UInt64.toNat_ofNat']
  rw [Nat.mod_eq_of_lt (show 8 * (o % 8) < 2 ^ 64 by omega), Nat.mod_eq_of_lt hlt,
    Nat.shiftRight_eq_div_pow]

theorem toNat_byte_eq_half (o : Nat) :
    (ws.byte o).toNat = (ws.half (o / 4)).toNat / 2 ^ (8 * (o % 4)) % 2 ^ 8 := by
  rw [toNat_byte, toNat_half, show o / 4 / 2 = o / 8 by omega]
  have ho : o % 8 < 8 := Nat.mod_lt _ (by decide)
  rw [show o % 4 = o % 8 % 4 by omega, show o / 4 % 2 = o % 8 / 4 by omega]
  generalize o % 8 = r at ho ⊢
  interval_cases r <;> simp only [Nat.reduceDiv, Nat.reduceMod, Nat.reduceMul, Nat.reducePow] <;> omega

theorem number_mul (i : Nat) : ws.number (4 * i) = (ws.half i).toNat := by
  have hlt := (ws.half i).toNat_lt
  simp only [number, toNat_byte_eq_half]
  rw [show 4 * i / 4 = i by omega, show (4 * i + 1) / 4 = i by omega,
    show (4 * i + 2) / 4 = i by omega, show (4 * i + 3) / 4 = i by omega,
    show 4 * i % 4 = 0 by omega, show (4 * i + 1) % 4 = 1 by omega,
    show (4 * i + 2) % 4 = 2 by omega, show (4 * i + 3) % 4 = 3 by omega]
  omega

/-- The word in which a half was changed. -/
theorem toNat_word_setHalf (ws : PageWords) (h : UInt32) (hi : i < 2 * wordsPerPage) :
    ((ws.setHalf i h).word (i / 2)).toNat =
      if i % 2 = 0 then (ws.word (i / 2)).toNat / 2 ^ 32 * 2 ^ 32 + h.toNat
      else h.toNat * 2 ^ 32 + (ws.word (i / 2)).toNat % 2 ^ 32 := by
  have hlt := h.toNat_lt
  have hhigh : (ws.word (i / 2) &&& 0xffffffff00000000).toNat =
      (ws.word (i / 2)).toNat / 2 ^ 32 * 2 ^ 32 :=
    Word.toNat_and_not_two_pow (ws.word (i / 2)) 32 (by decide)
  have hlow := Word.toNat_and_half (ws.word (i / 2))
  rw [setHalf, word_setWord ws _ (by omega)]
  split_ifs
  · rw [← hhigh]
    refine Word.toNat_or_of_lt (n := 32) ?_ ?_
    · rw [hhigh]
      exact Nat.mul_mod_left _ _
    · rwa [UInt32.toNat_toUInt64]
  · have hshift : (h.toUInt64 <<< (32 : UInt64)).toNat = h.toNat * 2 ^ 32 := by
      rw [UInt64.toNat_shiftLeft, UInt32.toNat_toUInt64, Nat.shiftLeft_eq]
      exact Nat.mod_eq_of_lt (show h.toNat * 2 ^ 32 < 2 ^ 64 by omega)
    rw [UInt64.or_comm, ← hshift, ← hlow]
    refine Word.toNat_or_of_lt (n := 32) ?_ ?_
    · rw [hshift]
      exact Nat.mul_mod_left _ _
    · rw [hlow]
      exact Nat.mod_lt _ (by decide)

theorem half_setHalf (h : UInt32) (hi : i < 2 * wordsPerPage) :
    (ws.setHalf i h).half j = if j = i then h else ws.half j := by
  have hlt := h.toNat_lt
  by_cases hword : j / 2 = i / 2
  · have hw := toNat_word_setHalf ws h hi
    apply UInt32.toNat_inj.1
    rw [apply_ite UInt32.toNat, toNat_half, toNat_half, hword, hw]
    rcases Nat.mod_two_eq_zero_or_one i with hi' | hi' <;>
      rcases Nat.mod_two_eq_zero_or_one j with hj' | hj'
    · rw [if_pos hi', if_pos (by omega), hj']
      omega
    · rw [if_pos hi', if_neg (by omega), hj']
      omega
    · rw [if_neg (by omega), if_neg (by omega), hj']
      omega
    · rw [if_neg (by omega), if_pos (by omega), hj']
      omega
  · have hne : i / 2 ≠ j / 2 := fun he => hword he.symm
    rw [if_neg fun he => hword (congrArg (· / 2) he), half, setHalf, word_setWord_of_ne _ _ hne, half]

theorem half_setHalves (l : List UInt32) (hi : i + l.length ≤ 2 * wordsPerPage) :
    (ws.setHalves i l).half j = if j < i then ws.half j else l[j - i]?.getD (ws.half j) := by
  induction l generalizing ws i with
  | nil => simp [setHalves]
  | cons h rest ih =>
      rw [List.length_cons] at hi
      rw [setHalves, ih (by omega), half_setHalf h (by omega)]
      rcases Nat.lt_trichotomy j i with hlt | rfl | hgt
      · rw [if_pos (by omega), if_pos hlt, if_neg (by omega)]
      · simp
      · rw [if_neg (by omega), if_neg (by omega), if_neg (by omega),
          show j - i = j - (i + 1) + 1 by omega, List.getElem?_cons_succ]

theorem byte_setHalves_of_le (l : List UInt32) (hi : i + l.length ≤ 2 * wordsPerPage) {o : Nat}
    (ho : 4 * (i + l.length) ≤ o) : (ws.setHalves i l).byte o = ws.byte o := by
  apply UInt8.toNat_inj.1
  rw [toNat_byte_eq_half, toNat_byte_eq_half, half_setHalves l hi, if_neg (by omega),
    List.getElem?_eq_none (by omega), Option.getD_none]

end Hypervisor.PageWords
