import ScriptLoom.Text.Blank

/-!
# Plain text

What is left of a text where the control sequences of terminals are not understood. A sequence
starts with the escape character; control characters do nothing either, but for the gaps among
them.
-/

namespace ScriptLoom

namespace Text

/-- Where a reader stands in the control sequences of a text. -/
inductive ControlState where
  /-- Outside all sequences. -/
  | outside
  /-- After an escape character. -/
  | escape
  /-- In a sequence that the next letter or digit ends. -/
  | short
  /-- In a sequence with parameters, which a letter ends. -/
  | long
  /-- In a string that the bell character ends. -/
  | command
  /-- In a string that the next sequence ends. -/
  | string
  deriving DecidableEq, Repr

namespace ControlState

/-- The state after a character that follows an escape character. -/
def afterEscape (c : Char) : ControlState :=
  if c < '0' then .short
  else if c = '[' then .long
  else if c = ']' then .command
  else if c = 'P' ∨ c = 'X' ∨ c = '^' ∨ c = '_' then .string
  else .outside

/-- The state after a character that takes part in a sequence. -/
def next (state : ControlState) (c : Char) : ControlState :=
  match state with
  | .outside => .outside
  | .escape => afterEscape c
  | .short => if c < '0' then .short else .outside
  | .long => if c < '@' then .long else .outside
  | .command => .command
  | .string => .string

/-- Whether a state is inside a string. -/
def isString (state : ControlState) : Bool :=
  state == .command || state == .string

end ControlState

/-- Whether a character is written: it is no control character, or it is a gap. -/
def isWritten (c : Char) : Bool :=
  isGap c || (0x20 ≤ c.toNat && c.toNat ≠ 0x7F)

/-- A text without control sequences, given where its reader stands. -/
def plainFrom (state : ControlState) : Text → Text
  | [] => []
  | c :: t =>
    if c = '\x1b' then plainFrom .escape t
    else if c = '\x18' ∨ c = '\x1a' ∨ (c = '\x07' ∧ state = .command) then plainFrom .outside t
    else if state = .outside then
      if isWritten c then c :: plainFrom .outside t else plainFrom .outside t
    else if isGap c ∧ c ≠ ' ' ∧ !state.isString then c :: plainFrom .outside t
    else if ' ' ≤ c ∧ c ≤ '~' then plainFrom (state.next c) t
    else plainFrom state t

/-- A text without control sequences. -/
def plain (t : Text) : Text :=
  plainFrom .outside t

end Text

end ScriptLoom
