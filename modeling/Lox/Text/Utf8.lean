/-!
Reading bytes as UTF-8 when they may be malformed. Every well-formed sequence gives its character.
Where bytes go wrong, the longest start of a well-formed sequence (at least one byte) gives one
replacement character, and reading goes on right after it.
-/

namespace Lox.Text

/-- Stands for bytes that are no character. -/
def replacement : Char := '\uFFFD'

/-- How many bytes must follow a lead byte, and the bounds of the first of them. The bounds shut out
overlong forms, surrogates and values past the last character. -/
def follow (lead : UInt8) : Option (Nat × UInt8 × UInt8) :=
  if lead < 0xC2 then none
  else if lead < 0xE0 then some (1, 0x80, 0xBF)
  else if lead = 0xE0 then some (2, 0xA0, 0xBF)
  else if lead = 0xED then some (2, 0x80, 0x9F)
  else if lead < 0xF0 then some (2, 0x80, 0xBF)
  else if lead = 0xF0 then some (3, 0x90, 0xBF)
  else if lead < 0xF4 then some (3, 0x80, 0xBF)
  else if lead = 0xF4 then some (3, 0x80, 0x8F)
  else none

/-- Take `n` more bytes into the value `acc`, the first of them between `lo` and `hi`. -/
def continuation (acc : Nat) : Nat → UInt8 → UInt8 → List UInt8 → Char × List UInt8
  | 0, _, _, r => (Char.ofNat acc, r)
  | n + 1, lo, hi, b :: r =>
    if lo ≤ b && b ≤ hi then continuation (64 * acc + b.toNat % 64) n 0x80 0xBF r
    else (replacement, b :: r)
  | _ + 1, _, _, [] => (replacement, [])

/-- The character that starts with the byte `b`, and the bytes after it. -/
def firstChar (b : UInt8) (r : List UInt8) : Char × List UInt8 :=
  match follow b with
  | some (n, lo, hi) => continuation (b.toNat % (64 >>> n)) n lo hi r
  | none => if b < 0x80 then (Char.ofNat b.toNat, r) else (replacement, r)

/-- Read at most `n` characters behind those in `acc`. -/
def readChars : Nat → Array Char → List UInt8 → Array Char
  | 0, acc, _ => acc
  | _ + 1, acc, [] => acc
  | n + 1, acc, b :: r => let (c, r) := firstChar b r; readChars n (acc.push c) r

/-- The text of some bytes, malformed ones replaced. -/
def decode (bytes : ByteArray) : String :=
  String.ofList (readChars bytes.size #[] bytes.data.toList).toList

end Lox.Text
