/-!
# Texts

A text is the list of its characters. A place in a text is a byte offset into its UTF-8
encoding, so an offset is the size of what stands before the place; an offset may also fall
inside a character or past the end, and every operation here is total on such offsets.
-/

namespace ScriptLoom

/-- A text, character by character. -/
abbrev Text := List Char

/-- String literals are texts. -/
instance : Coe String Text := ⟨String.toList⟩

namespace Text

/-- The number of bytes a text takes in UTF-8. -/
def size : Text → Nat
  | [] => 0
  | c :: t => c.utf8Size + size t

/-- The characters of a text with their byte offsets, the first one at `start`. -/
def indexedFrom (start : Nat) : Text → List (Nat × Char)
  | [] => []
  | c :: t => (start, c) :: indexedFrom (start + c.utf8Size) t

/-- The characters of a text with their byte offsets. -/
def indexed (t : Text) : List (Nat × Char) :=
  indexedFrom 0 t

/-- The characters that start before a byte offset. -/
def takeBytes : Text → Nat → Text
  | [], _ => []
  | c :: t, n => if n = 0 then [] else c :: takeBytes t (n - c.utf8Size)

/-- The characters that start at or after a byte offset. -/
def dropBytes : Text → Nat → Text
  | [], _ => []
  | c :: t, n => if n = 0 then c :: t else dropBytes t (n - c.utf8Size)

/-- The characters that start in the byte range from `start` up to `stop`. -/
def slice (t : Text) (start stop : Nat) : Text :=
  (t.takeBytes stop).dropBytes start

/-- What follows a given beginning of a text. -/
def dropPrefix? : Text → Text → Option Text
  | [], t => some t
  | _ :: _, [] => none
  | p :: ps, c :: t => if p = c then dropPrefix? ps t else none

/-- Whether a text begins with another. -/
def startsWith (t start : Text) : Bool :=
  start.isPrefixOf t

/-- Whether a text ends with another. -/
def endsWith (t ending : Text) : Bool :=
  ending.isSuffixOf t

/-- A text without the characters of a class at its end. -/
def dropEndWhile (p : Char → Bool) (t : Text) : Text :=
  (t.reverse.dropWhile p).reverse

/-- The parts before and after the first occurrence of a character. -/
def cutAt? (c : Char) : Text → Option (Text × Text)
  | [] => none
  | d :: t =>
    if d = c then some ([], t)
    else (cutAt? c t).map fun parts => (d :: parts.1, parts.2)

/-- The parts before and after the last character of a class. -/
def cutAtLast? (p : Char → Bool) (t : Text) : Option (Text × Text) :=
  match t.reverse.dropWhile (fun c => !p c) with
  | [] => none
  | _ :: before => some (before.reverse, (t.reverse.takeWhile fun c => !p c).reverse)

/-- A text without the occurrences of `needle`, found from left to right; `skip` characters of
an occurrence are still to be passed over. -/
def eraseFrom (needle : Text) : Nat → Text → Text
  | _, [] => []
  | skip + 1, _ :: t => eraseFrom needle skip t
  | 0, c :: t =>
    if startsWith (c :: t) needle then eraseFrom needle (needle.length - 1) t
    else c :: eraseFrom needle 0 t

/-- A text without the occurrences of another one. -/
def erase (needle t : Text) : Text :=
  eraseFrom needle 0 t

/-- The texts joined by a separator. -/
def join (separator : Text) (ts : List Text) : Text :=
  List.intercalate separator ts

/-- The decimal digits of a number. -/
def ofNat (n : Nat) : Text :=
  Nat.toDigits 10 n

/-- The empty text takes no bytes. -/
@[simp]
theorem size_nil : size [] = 0 :=
  rfl

/-- The bytes of a character come before those of the rest. -/
@[simp]
theorem size_cons (c : Char) (t : Text) : size (c :: t) = c.utf8Size + size t :=
  rfl

/-- The sizes of two texts add up. -/
@[simp]
theorem size_append (s t : Text) : size (s ++ t) = size s + size t := by
  induction s with
  | nil => simp
  | cons c s ih => simp [ih, Nat.add_assoc]

end Text

end ScriptLoom
