import ScriptLoom.Json.Basic

/-!
# Reading JSON

A JSON text is cut into tokens, and the tokens are read one after the other with a stack of the
arrays and objects that are still open. A text is refused unless it is exactly one value.
-/

namespace ScriptLoom

namespace Json

/-! ### Strings -/

/-- What a string consists of: characters, and escaped code units. -/
inductive StringPart where
  | char (c : Char)
  | codeUnit (n : Nat)
  deriving DecidableEq, Repr

/-- The value of a hexadecimal digit. -/
def hexDigit? (c : Char) : Option Nat :=
  if c.isDigit then some (c.toNat - '0'.toNat)
  else if 'a' ≤ c ∧ c ≤ 'f' then some (c.toNat - 'a'.toNat + 10)
  else if 'A' ≤ c ∧ c ≤ 'F' then some (c.toNat - 'A'.toNat + 10)
  else none

/-- The character that a letter after a backslash stands for. -/
def escaped? (c : Char) : Option Char :=
  match c with
  | '"' => some '"'
  | '\\' => some '\\'
  | '/' => some '/'
  | 'b' => some '\x08'
  | 'f' => some '\x0c'
  | 'n' => some '\n'
  | 'r' => some '\r'
  | 't' => some '\t'
  | _ => none

/-- Reads a string after its opening quote: its parts, and the text after its closing quote. -/
def readString? : Text → Option (List StringPart × Text)
  | [] => none
  | '\\' :: 'u' :: a :: b :: c :: d :: t => do
    let n := (← hexDigit? a) * 4096 + (← hexDigit? b) * 256 + (← hexDigit? c) * 16 + (← hexDigit? d)
    let (parts, rest) ← readString? t
    return (.codeUnit n :: parts, rest)
  | '\\' :: c :: t => do
    let char ← escaped? c
    let (parts, rest) ← readString? t
    return (.char char :: parts, rest)
  | c :: t =>
    if c = '"' then some ([], t)
    else if c = '\\' ∨ c.toNat < 0x20 then none
    else do
      let (parts, rest) ← readString? t
      return (.char c :: parts, rest)

/-- Whether a code unit is the first half of a surrogate pair. -/
def isHighSurrogate (n : Nat) : Bool :=
  0xD800 ≤ n && n ≤ 0xDBFF

/-- Whether a code unit is the second half of a surrogate pair. -/
def isLowSurrogate (n : Nat) : Bool :=
  0xDC00 ≤ n && n ≤ 0xDFFF

/-- The text that parts spell; `none` if half of a surrogate pair is left alone. -/
def spellParts? : List StringPart → Option Text
  | [] => some []
  | .char c :: parts => (spellParts? parts).map (c :: ·)
  | .codeUnit high :: .codeUnit low :: parts =>
    if isHighSurrogate high then
      if isLowSurrogate low then
        (spellParts? parts).map
          (Char.ofNat (0x10000 + (high - 0xD800) * 0x400 + (low - 0xDC00)) :: ·)
      else none
    else if isLowSurrogate high then none
    else (spellParts? (.codeUnit low :: parts)).map (Char.ofNat high :: ·)
  | .codeUnit n :: parts =>
    if isHighSurrogate n || isLowSurrogate n then none
    else (spellParts? parts).map (Char.ofNat n :: ·)

/-! ### Numbers -/

/-- Whether a character can stand in a number. -/
def isNumberChar (c : Char) : Bool :=
  c.isDigit || c == '-' || c == '+' || c == '.' || c == 'e' || c == 'E'

/-- A text after the digits at its start; `none` if there are none. -/
def dropDigits? (t : Text) : Option Text :=
  match t with
  | [] => none
  | c :: _ => if c.isDigit then some (t.dropWhile Char.isDigit) else none

/-- A number after its sign and integer part, which starts with a zero only if it is zero. -/
def dropInteger? (t : Text) : Option Text :=
  match (Text.dropPrefix? ['-'] t).getD t with
  | '0' :: rest => some rest
  | unsigned => dropDigits? unsigned

/-- A number after its fraction, if it has one. -/
def dropFraction? : Text → Option Text
  | '.' :: t => dropDigits? t
  | t => some t

/-- A number after its exponent, if it has one. -/
def dropExponent? : Text → Option Text
  | c :: t =>
    if c = 'e' ∨ c = 'E' then
      match t with
      | d :: digits => dropDigits? (if d = '+' ∨ d = '-' then digits else t)
      | [] => none
    else some (c :: t)
  | [] => some []

/-- Whether a text is a number. -/
def isNumber (t : Text) : Bool :=
  (dropInteger? t >>= dropFraction? >>= dropExponent?) == some []

/-! ### Tokens -/

/-- What a JSON text consists of. -/
inductive Token where
  | openObject
  | closeObject
  | openArray
  | closeArray
  | colon
  | comma
  | scalar (value : Json)

/-- The token that is one character. -/
def punctuation? (c : Char) : Option Token :=
  match c with
  | '{' => some .openObject
  | '}' => some .closeObject
  | '[' => some .openArray
  | ']' => some .closeArray
  | ':' => some .colon
  | ',' => some .comma
  | _ => none

/-- The value that a word stands for. -/
def word? (word : Text) : Option Json :=
  if word = ("null" : Text) then some .null
  else if word = ("true" : Text) then some (.bool true)
  else if word = ("false" : Text) then some (.bool false)
  else none

/-- Whether a character may stand between tokens. -/
def isSpace (c : Char) : Bool :=
  c == ' ' || c == '\n' || c == '\t' || c == '\r'

/-- Reads the token at the start of a text whose first character is given apart: the token, and
the text after it. -/
def readToken? (c : Char) (t : Text) : Option (Token × Text) :=
  match punctuation? c with
  | some token => some (token, t)
  | none =>
    if c = '"' then do
      let (parts, rest) ← readString? t
      return (.scalar (.string (spellParts? parts)), rest)
    else if c.isAlpha then do
      let value ← word? (c :: t.takeWhile Char.isAlpha)
      return (.scalar value, t.dropWhile Char.isAlpha)
    else if isNumber (c :: t.takeWhile isNumberChar) then
      some (.scalar .number, t.dropWhile isNumberChar)
    else none

/-- Reading a string leaves no more than the text. -/
theorem length_of_readString? {t rest : Text} {parts : List StringPart}
    (read : readString? t = some (parts, rest)) : rest.length ≤ t.length := by
  fun_induction readString? t generalizing parts rest with
  | case1 => simp at read
  | case2 a b c d t ih =>
    simp only [Option.bind_eq_bind, Option.bind_eq_some_iff] at read
    obtain ⟨_, _, _, _, _, _, _, _, ⟨inner, after⟩, found, equal⟩ := read
    cases equal
    have := ih found
    simp only [List.length_cons]
    omega
  | case3 c t _ ih =>
    simp only [Option.bind_eq_bind, Option.bind_eq_some_iff] at read
    obtain ⟨_, _, ⟨inner, after⟩, found, equal⟩ := read
    cases equal
    have := ih found
    simp only [List.length_cons]
    omega
  | case4 => cases read; simp
  | case5 => simp at read
  | case6 c t _ _ _ _ ih =>
    simp only [Option.bind_eq_bind, Option.bind_eq_some_iff] at read
    obtain ⟨⟨inner, after⟩, found, equal⟩ := read
    cases equal
    have := ih found
    simp only [List.length_cons]
    omega

/-- Reading a token leaves no more than the text after its first character. -/
theorem length_of_readToken? {c : Char} {t rest : Text} {token : Token}
    (read : readToken? c t = some (token, rest)) : rest.length ≤ t.length := by
  unfold readToken? at read
  split at read
  · cases read; exact Nat.le_refl _
  split at read
  · simp only [Option.bind_eq_bind, Option.bind_eq_some_iff] at read
    obtain ⟨⟨parts, after⟩, found, equal⟩ := read
    cases equal
    exact length_of_readString? found
  split at read
  · simp only [Option.bind_eq_bind, Option.bind_eq_some_iff] at read
    obtain ⟨_, _, equal⟩ := read
    cases equal
    exact (List.dropWhile_suffix _).length_le
  split at read
  · cases read
    exact (List.dropWhile_suffix _).length_le
  · simp at read

/-- The tokens of a text. -/
def tokens? : Text → Option (List Token)
  | [] => some []
  | c :: t =>
    if isSpace c then tokens? t
    else
      match found : readToken? c t with
      | none => none
      | some (token, rest) =>
        have := length_of_readToken? found
        (tokens? rest).map (token :: ·)
termination_by t => t.length

/-! ### Values -/

/-- An array or object that is still open: what it holds so far, last first. -/
inductive Frame where
  | items (before : List Json)
  | members (before : List (Option Text × Json)) (key : Option Text)

/-- What can come next. -/
inductive Stage where
  | value
  /-- A value, or the end of an empty array. -/
  | firstItem
  /-- A key, or the end of an empty object. -/
  | firstKey
  | key (before : List (Option Text × Json))
  | colon (before : List (Option Text × Json)) (key : Option Text)
  /-- What follows a value. -/
  | after (value : Json)

/-- What can come next after a token that starts a value. -/
def Stage.ofStart? : Token → Option Stage
  | .scalar json => some (.after json)
  | .openArray => some .firstItem
  | .openObject => some .firstKey
  | _ => none

/-- Reads a value from tokens, given what can come next and what is open, innermost first. -/
def readTokens? : Stage → List Frame → List Token → Option Json
  | .after value, [], [] => some value
  | .after value, .items before :: frames, .comma :: ts =>
    readTokens? .value (.items (value :: before) :: frames) ts
  | .after value, .items before :: frames, .closeArray :: ts =>
    readTokens? (.after (.array (value :: before).reverse)) frames ts
  | .after value, .members before key :: frames, .comma :: ts =>
    readTokens? (.key ((key, value) :: before)) frames ts
  | .after value, .members before key :: frames, .closeObject :: ts =>
    readTokens? (.after (.object ((key, value) :: before).reverse)) frames ts
  | .firstItem, frames, .closeArray :: ts => readTokens? (.after (.array [])) frames ts
  | .firstKey, frames, .closeObject :: ts => readTokens? (.after (.object [])) frames ts
  | .firstKey, frames, .scalar (.string key) :: ts => readTokens? (.colon [] key) frames ts
  | .key before, frames, .scalar (.string key) :: ts => readTokens? (.colon before key) frames ts
  | .colon before key, frames, .colon :: ts => readTokens? .value (.members before key :: frames) ts
  | .value, frames, token :: ts =>
    match Stage.ofStart? token with
    | some stage => readTokens? stage frames ts
    | none => none
  | .firstItem, frames, token :: ts =>
    match Stage.ofStart? token with
    | some stage => readTokens? stage (.items [] :: frames) ts
    | none => none
  | _, _, _ => none

end Json

/-- The value that a JSON text is. -/
def Json.ofText? (t : Text) : Option Json := do
  readTokens? .value [] (← tokens? t)

end ScriptLoom
