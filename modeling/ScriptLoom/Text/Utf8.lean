import ScriptLoom.Text.Basic

/-!
# UTF-8

Bytes are read as characters from left to right. Bytes that cannot be read are given up in the
longest piece that could still have begun a character.
-/

namespace ScriptLoom

namespace Utf8

/-- What the first byte of a character says: its bits, and the ranges of the bytes that must
follow. -/
def lead? (byte : UInt8) : Option (Nat × List (Nat × Nat)) :=
  let n := byte.toNat
  let follow := (0x80, 0xBF)
  if n ≤ 0x7F then some (n, [])
  else if n < 0xC2 then none
  else if n ≤ 0xDF then some (n - 0xC0, [follow])
  else if n = 0xE0 then some (0, [(0xA0, 0xBF), follow])
  else if n = 0xED then some (0xD, [(0x80, 0x9F), follow])
  else if n ≤ 0xEF then some (n - 0xE0, [follow, follow])
  else if n = 0xF0 then some (0, [(0x90, 0xBF), follow, follow])
  else if n ≤ 0xF3 then some (n - 0xF0, [follow, follow, follow])
  else if n = 0xF4 then some (4, [(0x80, 0x8F), follow, follow])
  else none

/-- Reads the bytes that must follow: the character, if they are all there, and the bytes after
those that could be read. -/
def readFollowing (bits : Nat) : List (Nat × Nat) → List UInt8 → Option Char × List UInt8
  | [], bytes => (some (Char.ofNat bits), bytes)
  | _ :: _, [] => (none, [])
  | (low, high) :: ranges, byte :: bytes =>
    if low ≤ byte.toNat ∧ byte.toNat ≤ high then
      readFollowing (bits * 64 + byte.toNat % 64) ranges bytes
    else (none, byte :: bytes)

/-- Reading following bytes leaves no more than the bytes. -/
theorem length_readFollowing (bits : Nat) (ranges : List (Nat × Nat)) (bytes : List UInt8) :
    (readFollowing bits ranges bytes).2.length ≤ bytes.length := by
  fun_induction readFollowing bits ranges bytes with
  | case1 => simp
  | case2 => simp
  | case3 => simp only [List.length_cons]; omega
  | case4 => simp

/-- The characters that bytes spell; `none` stands for bytes that spell no character. -/
def read : List UInt8 → List (Option Char)
  | [] => []
  | byte :: bytes =>
    match lead? byte with
    | none => none :: read bytes
    | some (bits, ranges) =>
      have := length_readFollowing bits ranges bytes
      (readFollowing bits ranges bytes).1 :: read (readFollowing bits ranges bytes).2
termination_by bytes => bytes.length

/-- The text that bytes spell. -/
def decode? (bytes : List UInt8) : Option Text :=
  (read bytes).mapM id

/-- The text that bytes spell, with a replacement character where they spell none. -/
def decodeLossy (bytes : List UInt8) : Text :=
  (read bytes).map (·.getD '�')

end Utf8

end ScriptLoom
