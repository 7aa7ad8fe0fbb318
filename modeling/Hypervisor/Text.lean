/-!
# Text of values

Numbers, optional values and records as they are written in the log.  Hexadecimal digits are
lowercase; a brace in a string is spelled by its code.
-/

namespace Hypervisor

/-- Lowercase hexadecimal digits of a number, most significant first. -/
def hexDigits (n : Nat) : String := String.ofList (Nat.toDigits 16 n)

/-- A number in hexadecimal, without padding. -/
def hex (n : Nat) : String := "0x" ++ hexDigits n

/-- A number in hexadecimal with at least `width` digits. -/
def hexPadded (width n : Nat) : String :=
  let digits := Nat.toDigits 16 n
  "0x" ++ String.ofList (List.replicate (width - digits.length) '0' ++ digits)

namespace Text

def wrapped (name inner : String) : String := name ++ "(" ++ inner ++ ")"

/-- A record with named fields, in the order given. -/
def record (name : String) (fields : List (String × String)) : String :=
  name ++ " \x7b " ++ ", ".intercalate (fields.map fun f => f.1 ++ ": " ++ f.2) ++ " \x7d"

def option {α : Type} (text : α → String) : Option α → String
  | some a => wrapped "Some" (text a)
  | none => "None"

end Text

end Hypervisor
