/-!
# Pages

A page of host memory is 512 words of 64 bits, in little-endian order.  Its bytes and its 32-bit
halves are views of those words.
-/

namespace Hypervisor

/-- The number of words in a page, which is the number of entries in a table. -/
abbrev wordsPerPage : Nat := 512

/-- The place of a word in a page, for its number modulo the number of words. -/
def wordIndex (n : Nat) : Fin wordsPerPage := Fin.ofNat wordsPerPage n

abbrev PageWords := Vector UInt64 wordsPerPage

def PageWords.zero : PageWords := Vector.replicate wordsPerPage 0

namespace PageWords

/-- The word at an index; words past the end are zero. -/
def word (ws : PageWords) (i : Nat) : UInt64 := ws[i]?.getD 0

/-- A page with one word changed; a word past the end is dropped. -/
def setWord (ws : PageWords) (i : Nat) (w : UInt64) : PageWords := ws.setIfInBounds i w

theorem word_setWord (ws : PageWords) {i : Nat} (w : UInt64) (h : i < wordsPerPage) :
    (ws.setWord i w).word i = w := by
  simp [word, setWord, h]

theorem word_setWord_of_ne (ws : PageWords) {i j : Nat} (w : UInt64) (h : i ≠ j) :
    (ws.setWord i w).word j = ws.word j := by
  simp [word, setWord, Vector.getElem?_setIfInBounds_ne h]

/-- The byte at an offset. -/
def byte (ws : PageWords) (offset : Nat) : UInt8 :=
  (ws.word (offset / 8) >>> (8 * (offset % 8)).toUInt64).toUInt8

/-- A page with one byte changed. -/
def setByte (ws : PageWords) (offset : Nat) (b : UInt8) : PageWords :=
  let shift : UInt64 := (8 * (offset % 8)).toUInt64
  let kept : UInt64 := ws.word (offset / 8) &&& ~~~((0xff : UInt64) <<< shift)
  ws.setWord (offset / 8) (kept ||| (b.toUInt64 <<< shift))

/-- A page with the 32-bit half at an index changed. -/
def setHalf (ws : PageWords) (i : Nat) (h : UInt32) : PageWords :=
  let old := ws.word (i / 2)
  ws.setWord (i / 2)
    (if i % 2 = 0 then (old &&& 0xffffffff00000000) ||| h.toUInt64
     else (old &&& 0xffffffff) ||| (h.toUInt64 <<< (32 : UInt64)))

/-- The bytes from an offset on. -/
def bytes (ws : PageWords) (offset count : Nat) : List UInt8 :=
  (List.range count).map fun i => ws.byte (offset + i)

/-- A page with consecutive bytes changed. -/
def setBytes (ws : PageWords) (offset : Nat) : List UInt8 → PageWords
  | [] => ws
  | b :: rest => (ws.setByte offset b).setBytes (offset + 1) rest

/-- A page with consecutive 32-bit halves changed. -/
def setHalves (ws : PageWords) (i : Nat) : List UInt32 → PageWords
  | [] => ws
  | h :: rest => (ws.setHalf i h).setHalves (i + 1) rest

end PageWords

end Hypervisor
