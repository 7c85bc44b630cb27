import ScriptLoom.Text.Basic

/-!
# Blank characters

A character is blank when it has the Unicode property `White_Space`. Trimming and splitting into
words go by that property; the gaps of a format call and of a struct header are narrower and
admit `isGap` only.
-/

namespace ScriptLoom

namespace Text

/-- Whether a character has the Unicode property `White_Space`. -/
def isBlank (c : Char) : Bool :=
  (9 ≤ c.toNat && c.toNat ≤ 13) || c.toNat == 0x20 || c.toNat == 0x85 || c.toNat == 0xA0
    || c.toNat == 0x1680 || (0x2000 ≤ c.toNat && c.toNat ≤ 0x200A) || c.toNat == 0x2028
    || c.toNat == 0x2029 || c.toNat == 0x202F || c.toNat == 0x205F || c.toNat == 0x3000

/-- Whether a character is a space, a tab, a line feed, a form feed or a carriage return. -/
def isGap (c : Char) : Bool :=
  c == ' ' || c == '\t' || c == '\n' || c == '\x0c' || c == '\r'

/-- Every gap character is blank. -/
theorem isBlank_of_isGap {c : Char} (gap : isGap c = true) : isBlank c = true := by
  simp only [isGap, Bool.or_eq_true, beq_iff_eq] at gap
  rcases gap with (((rfl | rfl) | rfl) | rfl) | rfl <;> decide

/-- A text without the blanks at its beginning. -/
def trimStart (t : Text) : Text :=
  t.dropWhile isBlank

/-- A text without the blanks at its end. -/
def trimEnd (t : Text) : Text :=
  t.dropEndWhile isBlank

/-- A text without the blanks at both ends. -/
def trim (t : Text) : Text :=
  trimEnd (trimStart t)

/-- The maximal runs of characters that are not blank. -/
def words (t : Text) : List Text :=
  (t.splitOnP isBlank).filter (· ≠ [])

/-- The first byte offset at or after `start` that belongs to no gap character, or the size of
the text. -/
def skipGaps (t : Text) (start : Nat) : Nat :=
  match t.indexed.find? fun (i, c) => start < i + c.utf8Size && !isGap c with
  | some (i, _) => max i start
  | none => t.size

end Text

end ScriptLoom
