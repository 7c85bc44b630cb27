import ScriptLoom.Proofs.LineComments
import ScriptLoom.Proofs.MethodRecords
import ScriptLoom.Proofs.PlainLines

/-! # Functions that override the library

The name of a function is read twice. The check of a script reads it off the line on which the
function begins and compares it with the functions of the library. Taking the script apart reads
it off the method that the function becomes, whose header may go over several lines. Both give one
name where the header ends on its line with a word (`Script.NamedOnLine`), and expansions of format
calls change nothing before the first quote of a line. So an accepted script overrides nothing of
the library exactly if no function has the name of a declaration, which the check does not compare
with, and none without such a header has the name of a function (`Script.overrides_nothing_iff`).
-/

namespace ScriptLoom

namespace Text

/-! ### Words at the end of a header -/

private theorem toNat_lt_of_isIdentChar {c : Char}
    (ident : isIdentChar c = true) : c.toNat < 128 := by
  have bounded : ∀ {high : UInt32}, c.val ≤ high → high < 128 → c.toNat < 128 := by
    intro high below small
    exact Nat.lt_of_le_of_lt (UInt32.le_iff_toNat_le.mp below) (UInt32.lt_iff_toNat_lt.mp small)
  rcases Bool.or_eq_true_iff.mp ident with ident | dollar
  · rcases Bool.or_eq_true_iff.mp ident with alphanum | underscore
    · rcases Bool.or_eq_true_iff.mp alphanum with letter | digit
      · rcases Bool.or_eq_true_iff.mp letter with upper | lower
        · exact bounded (of_decide_eq_true upper).2 (by decide)
        · exact bounded (of_decide_eq_true (Bool.and_eq_true_iff.mp lower).2) (by decide)
      · exact bounded (of_decide_eq_true (Bool.and_eq_true_iff.mp digit).2) (by decide)
    · rw [beq_iff_eq.mp underscore]
      decide
  · rw [beq_iff_eq.mp dollar]
    decide

private theorem isWordChar_of_isIdentChar {c : Char} (ident : isIdentChar c = true)
    (other : c ≠ '$') :
    isWordChar c = true := by
  have table : ∀ n < 128, isIdentChar (Char.ofNat n) = true → Char.ofNat n ≠ '$' →
      isWordChar (Char.ofNat n) = true := by decide
  have own := table c.toNat (toNat_lt_of_isIdentChar ident)
  rw [Char.ofNat_toNat] at own
  exact own ident other

/-- The code points of the blank characters. -/
def blankCodes : List Nat :=
  [9, 10, 11, 12, 13, 0x20, 0x85, 0xA0, 0x1680, 0x2000, 0x2001, 0x2002, 0x2003, 0x2004, 0x2005,
   0x2006, 0x2007, 0x2008, 0x2009, 0x200A, 0x2028, 0x2029, 0x202F, 0x205F, 0x3000]

private theorem isWordChar_of_isBlank {c : Char}
    (blank : isBlank c = true) : isWordChar c = false := by
  have table : ∀ n ∈ blankCodes, (inRanges alphabeticRanges n || inRanges digitRanges n ||
      inRanges joiningRanges n) = false := by decide +kernel
  have listed : c.toNat ∈ blankCodes := by
    simp only [isBlank, Bool.or_eq_true, Bool.and_eq_true, decide_eq_true_eq, beq_iff_eq] at blank
    simp only [blankCodes, List.mem_cons, List.not_mem_nil, or_false]
    omega
  rw [isWordChar, isLetter, table _ listed]
  rfl

/-- Whether a character can stand inside the name that a check reads. -/
def inName (c : Char) : Bool :=
  isWordChar c || c == '$'

private theorem inName_of_isIdentChar {c : Char}
    (ident : isIdentChar c = true) : inName c = true := by
  by_cases dollar : c = '$'
  · simp [inName, dollar]
  · simp [inName, isWordChar_of_isIdentChar ident dollar]

private theorem inName_of_isBlank {c : Char} (blank : isBlank c = true) : inName c = false := by
  have other : c ≠ '$' := by
    rintro rfl
    exact absurd blank (by decide)
  simp [inName, isWordChar_of_isBlank blank, other]

private theorem inName_of_getLast? {s : Text} {c : Char} (last : s.getLast? = some c)
    (blank : isBlank c = true) : ∀ d ∈ s.getLast?, inName d = false := by
  intro d ends
  obtain rfl : c = d := Option.some.inj (last.symm.trans ends)
  exact inName_of_isBlank blank

/-- A word of identifier characters that begins with a letter or an underscore. -/
inductive IsWord : Text → Prop
  | intro {c : Char} {rest : Text} (begins : c.isAlpha = true ∨ c = '_')
      (ident : ∀ d ∈ rest, isIdentChar d = true) : IsWord (c :: rest)

/-- A header that ends with a word of its own, blanks apart. -/
inductive EndsIn (name : Text) : Text → Prop
  | intro {front blanks : Text} (apart : ∀ c ∈ front.getLast?, inName c = false)
      (word : IsWord name) (blank : ∀ c ∈ blanks, isBlank c = true) :
      EndsIn name (front ++ (name ++ blanks))

private theorem IsWord.isIdentChar {name : Text} (word : IsWord name) :
    ∀ c ∈ name, isIdentChar c = true := by
  cases word with
  | @intro c rest begins ident =>
    refine List.forall_mem_cons.mpr ⟨?_, ident⟩
    rcases begins with letter | rfl
    · simp [ScriptLoom.isIdentChar, Char.isAlphanum, letter]
    · decide

/-- The characters of identifiers are no blanks. -/
theorem isBlank_of_isIdentChar {c : Char} (ident : isIdentChar c = true) : isBlank c = false := by
  by_contra blank
  have inside := inName_of_isIdentChar ident
  rw [inName_of_isBlank (by simpa using blank)] at inside
  cases inside

private theorem EndsIn.lastRun_eq {name header : Text} (ends : EndsIn name header) :
    header.lastRun = name := by
  cases ends with
  | @intro front blanks apart word blank =>
    have ident := word.isIdentChar
    have behind : ((front ++ (name ++ blanks)).reverse).dropWhile isBlank =
        name.reverse ++ front.reverse := by
      rw [List.reverse_append, List.reverse_append, List.append_assoc,
        List.dropWhile_append_of_pos (by simpa using blank)]
      cases last : name.reverse with
      | nil => cases word; simp at last
      | cons c rest =>
        have visible := isBlank_of_isIdentChar (ident c (by
          rw [← List.mem_reverse, last]
          exact List.mem_cons_self))
        rw [List.cons_append, List.dropWhile_cons_of_neg (by simp [visible])]
    have stops : (front.reverse).takeWhile ScriptLoom.isIdentChar = [] := by
      cases last : front.reverse with
      | nil => rfl
      | cons c rest =>
        have isLast : front.getLast? = some c := by rw [← List.head?_reverse, last]; rfl
        have outside := apart c isLast
        apply List.takeWhile_cons_of_neg
        intro inside
        rw [inName_of_isIdentChar inside] at outside
        cases outside
    rw [lastRun, behind, List.takeWhile_append_of_pos (by simpa using ident), stops,
      List.append_nil, List.reverse_reverse]

private theorem EndsIn.append {name header s : Text} (ends : EndsIn name header)
    (apart : ∀ c ∈ s.getLast?, inName c = false) : EndsIn name (s ++ header) := by
  cases ends with
  | @intro front blanks apart' word blank =>
    rw [← List.append_assoc]
    refine .intro ?_ word blank
    intro c last
    rw [List.getLast?_append, Option.mem_def, Option.or_eq_some_iff] at last
    rcases last with last | ⟨-, last⟩
    · exact apart' c last
    · exact apart c last

private theorem EndsIn.trimStart {name header : Text} (ends : EndsIn name header) :
    EndsIn name header.trimStart := by
  cases ends with
  | @intro front blanks apart word blank =>
    have ident := word.isIdentChar
    obtain ⟨c, rest, rfl⟩ : ∃ c rest, name = c :: rest := by
      cases word
      exact ⟨_, _, rfl⟩
    have visible := isBlank_of_isIdentChar (ident c List.mem_cons_self)
    rw [List.cons_append, trimStart_append_cons visible, ← List.cons_append]
    refine .intro ?_ word blank
    intro d last
    apply apart
    obtain ⟨blanks', whole⟩ : front.trimStart <:+ front := List.dropWhile_suffix _
    rw [← whole, List.getLast?_append, last]
    rfl

/-! ### Beginnings of texts and lines -/

private theorem cutAt?_append {c : Char} {s : Text} (absent : c ∉ s) (t : Text) :
    cutAt? c (s ++ c :: t) = some (s, t) := by
  induction s with
  | nil => simp [cutAt?]
  | cons d s ih =>
    have other : d ≠ c := (List.ne_of_not_mem_cons absent).symm
    rw [List.cons_append, cutAt?, if_neg other, ih (List.not_mem_of_not_mem_cons absent)]
    rfl

private theorem headerName?_append {s : Text} (absent : '(' ∉ s) (t : Text) :
    headerName? (s ++ '(' :: t) = if s.lastRun = [] then none else some s.lastRun := by
  rw [headerName?, cutAt?_append absent]
  rfl

/-- Dropping a carriage return keeps every beginning that does not end with one. -/
theorem prefix_dropReturn_iff {s : Text} {c : Char} (noReturn : c ≠ '\r') {line : Text} :
    s ++ [c] <+: dropReturn line ↔ s ++ [c] <+: line := by
  rcases dropReturn_cases line with same | whole
  · rw [same]
  · conv_rhs => rw [whole, List.prefix_concat_iff]
    refine ⟨.inr, ?_⟩
    rintro (equal | kept)
    · have last := congrArg List.getLast? equal
      rw [List.getLast?_concat, List.getLast?_concat] at last
      exact absurd (Option.some.inj last) noReturn
    · exact kept

private theorem exists_lines_append_cons {s : Text} {c : Char} (inLine : '\n' ∉ s)
    (noFeed : c ≠ '\n') (noReturn : c ≠ '\r') (t : Text) :
    ∃ line others, lines (s ++ c :: t) = line :: others ∧ s ++ [c] <+: line := by
  have first : (s ++ c :: t).takeWhile (· ≠ '\n') = s ++ c :: t.takeWhile (· ≠ '\n') := by
    rw [takeWhile_append_of_not_mem inLine, List.takeWhile_cons_of_pos (by simpa using noFeed)]
  rw [lines, splitOn_eq_cons, first]
  have begins : s ++ [c] <+: s ++ c :: t.takeWhile (· ≠ '\n') :=
    ⟨t.takeWhile (· ≠ '\n'), by simp⟩
  cases (List.splitOn '\n' (s ++ c :: t)).tail with
  | nil => exact ⟨_, [], by simp [linesOfParts], begins⟩
  | cons next others => exact ⟨_, _, rfl, (prefix_dropReturn_iff noReturn).mpr begins⟩

private theorem takeWhile_unlines {line : Text} (inLine : '\n' ∉ line) (ls : List Text) :
    (unlines (line :: ls)).takeWhile (· ≠ '\n') = line := by
  cases ls with
  | nil =>
    rw [unlines_singleton, ← List.append_nil line, takeWhile_append_of_not_mem inLine]
    rfl
  | cons next ls =>
    rw [unlines_cons_cons, takeWhile_append_of_not_mem inLine,
      List.takeWhile_cons_of_neg (by simp), List.append_nil]

end Text

namespace Verification

open Text

private theorem nameToEnd?_cons (previous c : Char) (t : Text) :
    nameToEnd? previous (c :: t) =
      if (c.isAlpha || c == '_' || c == '$') && isWordChar previous != isWordChar c
          && ((c :: t).dropWhile inName).all isBlank then
        some ((c :: t).takeWhile inName)
      else none :=
  rfl

/-- The word at the end is read from its start. -/
theorem nameToEnd?_word {previous : Char} {name blanks : Text} (apart : inName previous = false)
    (word : IsWord name) (blank : ∀ c ∈ blanks, isBlank c = true) :
    nameToEnd? previous (name ++ blanks) = some name := by
  have inside : ∀ c ∈ name, inName c = true := fun c member =>
    inName_of_isIdentChar (word.isIdentChar c member)
  have outside : blanks.takeWhile inName = [] ∧ blanks.dropWhile inName = blanks := by
    cases blanks with
    | nil => exact ⟨rfl, rfl⟩
    | cons c blanks =>
      have not := inName_of_isBlank (blank c List.mem_cons_self)
      exact ⟨List.takeWhile_cons_of_neg (by simp [not]), List.dropWhile_cons_of_neg (by simp [not])⟩
  have own : isWordChar previous = false := by
    simp only [inName, Bool.or_eq_false_iff] at apart
    exact apart.1
  have taken : (name ++ blanks).takeWhile inName = name := by
    rw [List.takeWhile_append_of_pos inside, outside.1, List.append_nil]
  have dropped : (name ++ blanks).dropWhile inName = blanks := by
    rw [List.dropWhile_append_of_pos inside, outside.2]
  cases word with
  | @intro c rest begins ident =>
    have starts : (c.isAlpha || c == '_' || c == '$') = true := by
      rcases begins with letter | rfl
      · simp [letter]
      · rfl
    have first : isWordChar c = true := by
      apply isWordChar_of_isIdentChar ((IsWord.intro begins ident).isIdentChar c List.mem_cons_self)
      rintro rfl
      rcases begins with letter | same
      · cases letter
      · cases same
    rw [List.cons_append] at taken dropped ⊢
    rw [nameToEnd?_cons, taken, dropped, starts, own, first, List.all_eq_true.mpr blank]
    rfl

/-- No name reaches over a character that stands in none. -/
theorem nameToEnd?_eq_none {previous d : Char} {front rest : Text}
    (apart : ∃ e ∈ front, inName e = false) (visible : isBlank d = false) :
    nameToEnd? previous (front ++ d :: rest) = none := by
  obtain ⟨e, member, outside⟩ := apart
  have left : front.dropWhile inName ≠ [] := by
    intro all
    have := List.dropWhile_eq_nil_iff.mp all e member
    rw [outside] at this
    cases this
  have some_left : ((front ++ d :: rest).dropWhile inName).all isBlank = false := by
    rw [List.dropWhile_append, if_neg (by simpa using left), List.all_append, List.all_cons,
      visible, Bool.false_and, Bool.and_false]
  cases front with
  | nil => cases member
  | cons f front =>
    rw [List.cons_append] at some_left ⊢
    rw [nameToEnd?_cons, some_left, Bool.and_false]
    rfl

private theorem firstNameToEnd?_append {previous : Char} {front name blanks : Text}
    (apart : ∀ c ∈ (previous :: front).getLast?, inName c = false) (word : IsWord name)
    (blank : ∀ c ∈ blanks, isBlank c = true) :
    firstNameToEnd? previous (front ++ (name ++ blanks)) = some name := by
  induction front generalizing previous with
  | nil =>
    have read := nameToEnd?_word (apart previous rfl) word blank
    cases word with
    | intro begins ident =>
      rw [List.nil_append]
      rw [List.cons_append] at read ⊢
      rw [firstNameToEnd?, read]
  | cons d front ih =>
    -- From inside the front no name is read: it would go over the character before the word.
    have later : firstNameToEnd? d (front ++ (name ++ blanks)) = some name :=
      ih (by simpa using apart)
    have skipped : nameToEnd? previous ((d :: front) ++ (name ++ blanks)) = none := by
      have ident := word.isIdentChar
      cases word with
      | @intro c rest begins _ =>
        refine nameToEnd?_eq_none ?_ (isBlank_of_isIdentChar (ident c List.mem_cons_self))
        obtain ⟨last, isLast⟩ : ∃ last, (d :: front).getLast? = some last :=
          Option.isSome_iff_exists.mp (by simp)
        refine ⟨last, List.mem_of_getLast? isLast, apart last ?_⟩
        rw [List.getLast?_cons_cons]
        exact isLast
    rw [List.cons_append] at skipped ⊢
    rw [firstNameToEnd?, skipped]
    exact later

/-- A line that begins a function declares the word that its header ends in. -/
theorem declaredFunction?_eq_some {blanks header name rest : Text}
    (blank : ∀ c ∈ blanks, isBlank c = true) (ends : EndsIn name header) (absent : '(' ∉ header) :
    declaredFunction? (blanks ++ (Keyword.function ++ (header ++ '(' :: rest))) = some name := by
  have start : trimStart (blanks ++ (Keyword.function ++ (header ++ '(' :: rest))) =
      "func" ++ (' ' :: (header ++ '(' :: rest)) := by
    rw [trimStart, List.dropWhile_append_of_pos blank]
    rfl
  have read : firstNameToEnd? ' ' header = some name := by
    cases ends with
    | @intro front blanks apart word blank =>
      refine firstNameToEnd?_append ?_ word blank
      cases front with
      | nil => exact inName_of_getLast? (c := ' ') rfl (by decide)
      | cons d front =>
        rw [List.getLast?_cons_cons]
        exact apart
  rw [declaredFunction?, start, dropPrefix?_append, Option.bind_eq_bind, Option.bind_some]
  simp only [cutAt?_append absent, Option.bind_eq_bind, Option.bind_some]
  exact read

end Verification

namespace Script

open Text Verification

/-- A function whose header ends, on the line on which the function begins and with no quote in
it, in a word of its own. -/
def NamedOnLine (name text : Text) : Prop :=
  ∃ header rest, text = header ++ '(' :: rest ∧ EndsIn name header ∧
    '(' ∉ header ∧ '\n' ∉ header ∧ '"' ∉ header

/-! ### The name of a method -/

private theorem exists_methodText_eq {text line : Text} {others : List Text}
    (split : text.lines = line :: others) :
    ∃ behind, methodText text = "public static " ++ line.trim ++ behind := by
  obtain ⟨behind, whole⟩ := prefix_unlines ("public static " ++ line.trim)
    (others.dropLast.map ('\t' :: ·) ++ others.getLast?.toList)
  refine ⟨behind, ?_⟩
  rw [whole, methodText, split]

/-- The method of a function bears the word that its header ends in. -/
theorem NamedOnLine.methodName_eq {name text : Text} (named : NamedOnLine name text) :
    methodName (methodText text) = name := by
  obtain ⟨header, rest, rfl, ends, absent, inLine, -⟩ := named
  obtain ⟨line, others, split, more, rfl⟩ :=
    exists_lines_append_cons inLine (c := '(') (by decide) (by decide) rest
  obtain ⟨behind, method⟩ := exists_methodText_eq split
  obtain ⟨more', trimmed⟩ := exists_trim_append_cons (c := '(') rfl header more
  rw [List.append_cons] at trimmed
  rw [trimmed, ← List.append_assoc, List.append_assoc _ _ behind, List.cons_append] at method
  have ends' : EndsIn name ("public static " ++ header.trimStart) :=
    ends.trimStart.append (inName_of_getLast? (c := ' ') rfl (by decide))
  have absent' : '(' ∉ ("public static " : Text) ++ header.trimStart := by
    rw [List.mem_append, not_or]
    exact ⟨by decide, fun member => absent ((List.dropWhile_suffix _).subset member)⟩
  have nonempty : name ≠ [] := by
    cases ends with
    | intro apart word blank => cases word; simp
  rw [methodName, method, headerName?_append absent', ends'.lastRun_eq, if_neg nonempty,
    Option.getD_some]

/-! ### The line of a function -/

/-- A function begins on a line of code, behind the keyword. -/
theorem Taken.exists_line {lines : List (Nat × Text)} {items : List Item}
    (taken : Taken lines items) {text : Text} (member : .function text ∈ items) :
    ∃ line ∈ lines.map (·.2), ∃ ls after,
      unlines (line :: ls) = Keyword.function ++ (text ++ after) := by
  induction taken with
  | nil => cases member
  | @step lines rest items further takes later ih =>
    rcases List.mem_append.mp member with own | behind
    · cases takes with
      | importLine => simp at own
      | globalLine => simp at own
      | statement => simp at own
      | @function n line block after rest starts cut =>
        have trailing : .function text ∉ trailingItems after := by
          unfold trailingItems
          dsimp only
          split <;> simp
        obtain ⟨own', -, -, rfl, whole, -⟩ :=
          exists_of_function_cutBlock? (startsWith_unlines starts _) cut
        rcases List.mem_cons.mp own with same | other
        · rw [List.drop_left] at same
          cases same
          exact ⟨line, List.mem_cons_self, _, after, by rw [whole, List.append_assoc]⟩
        · exact absurd other trailing
    · obtain ⟨line, listed, found⟩ := ih behind
      exact ⟨line, (takes.isSuffix.map _).subset listed, found⟩

private theorem NamedOnLine.exists_line {name text : Text} (named : NamedOnLine name text)
    {lines : List (Nat × Text)} {items : List Item} (taken : Taken lines items)
    (inLine : ∀ line ∈ lines.map (·.2), '\n' ∉ line) (member : .function text ∈ items) :
    ∃ header, EndsIn name header ∧ '(' ∉ header ∧ '"' ∉ header ∧
      ∃ line ∈ lines.map (·.2), (Keyword.function ++ header) ++ ['('] <+: line := by
  obtain ⟨header, rest, rfl, ends, absent, noFeed, unquoted⟩ := named
  obtain ⟨line, listed, ls, after, whole⟩ := taken.exists_line member
  refine ⟨header, ends, absent, unquoted, line, listed, ?_⟩
  have whole' : unlines (line :: ls) =
      ((Keyword.function ++ header) ++ ['(']) ++ (rest ++ after) := by
    rw [whole]
    simp
  rw [← takeWhile_unlines (inLine line listed) ls, whole', takeWhile_append_of_not_mem]
  · exact List.prefix_append _ _
  · simp [noFeed, Keyword.function]

/-! ### Accepted scripts -/

/-- Whether every line of a text agrees with a line of another one up to its first quote, comments
apart. -/
def HasFrontsOf (t other : Text) : Prop :=
  ∀ part ∈ t.withoutComments.splitOn '\n', ∃ original ∈ other.withoutComments.splitOn '\n',
    original.takeWhile (· ≠ '"') = part.takeWhile (· ≠ '"')

private theorem hasFrontsOf_of_expandAll {text r : Text} (settled : text.Settled)
    (expanded : text.expandAll = .ok r) : HasFrontsOf r text := by
  have step : ∀ {s next : Text}, s.Settled ∧ HasFrontsOf s text →
      s.expandFirst = .ok (some next) → next.Settled ∧ HasFrontsOf next text := by
    rintro s next ⟨settled, kept⟩ expanded
    refine ⟨settled.of_expandFirst expanded, ?_⟩
    intro part member
    obtain ⟨middle, listed, front⟩ := settled.exists_sameFront_of_expandFirst expanded member
    obtain ⟨original, listed', same⟩ := kept middle listed
    exact ⟨original, listed', same.trans front.takeWhile_eq⟩
  have start : HasFrontsOf text text := fun part member => ⟨part, member, rfl⟩
  exact (Text.of_expandAll step ⟨settled, start⟩ expanded).1.2

/-- A line of code that begins without a quote begins a line of the text before expansions. -/
theorem exists_line_of_expandAll {text r s : Text} {c : Char} (settled : text.Settled)
    (expanded : text.expandAll = .ok r) (unquoted : '"' ∉ s ++ [c]) (visible : isBlank c = false)
    (begins : ∃ line ∈ (codeLines r).map (·.2), s ++ [c] <+: line) :
    ∃ n line blanks rest, (n, line) ∈ text.withoutComments.numberedLines ∧
      (∀ d ∈ blanks, isBlank d = true) ∧ line = blanks ++ (s ++ c :: rest) := by
  obtain ⟨line, listed, front⟩ := begins
  have parts : (∀ line ∈ (codeLines r).map (·.2), ¬s ++ [c] <+: line) ↔
      ∀ part ∈ r.withoutComments.splitOn '\n', ¬s ++ [c] <+: trim part :=
    forall_mem_codeLines_iff (by simp) r
  obtain ⟨part, member, rest, trimmed⟩ :
      ∃ part ∈ r.withoutComments.splitOn '\n', s ++ [c] <+: trim part := by
    by_contra none
    exact parts.mpr (fun part member begins => none ⟨part, member, begins⟩) line listed front
  obtain ⟨blanks, after, whole, blank, -⟩ := exists_eq_append_trim part
  obtain ⟨original, listed', same⟩ := hasFrontsOf_of_expandAll settled expanded part member
  have quotes : '"' ∉ blanks ++ (s ++ [c]) := by
    rw [List.mem_append, not_or]
    refine ⟨?_, unquoted⟩
    intro quote
    exact absurd (blank _ quote) (by decide)
  have begins : blanks ++ (s ++ [c]) <+: original := by
    rw [whole, ← trimmed, List.append_assoc, ← List.append_assoc blanks,
      takeWhile_append_of_not_mem quotes] at same
    exact (List.prefix_append _ _).trans (same ▸ List.takeWhile_prefix _)
  obtain ⟨i, inBounds, rfl⟩ := List.getElem_of_mem listed'
  have noReturn : c ≠ '\r' := by
    rintro rfl
    exact absurd visible (by decide)
  obtain ⟨line, numbered, rest', rfl⟩ : ∃ line,
      (i + 1, line) ∈ text.withoutComments.numberedLines ∧ (blanks ++ s) ++ [c] <+: line := by
    refine (exists_numberedLine_iff (by simp) fun line => prefix_dropReturn_iff noReturn).mpr ?_
    exact ⟨i, _, rfl, List.getElem?_eq_getElem inBounds, by rwa [List.append_assoc]⟩
  exact ⟨i + 1, _, blanks, rest', numbered, blank, by simp⟩

private theorem lower_ne_of_functionProblems {code : Text} {catalog : Catalog}
    (quiet : functionProblems code catalog = []) {n : Nat} {line name : Text}
    (numbered : (n, line) ∈ code.numberedLines) (declared : declaredFunction? line = some name) :
    ∀ f ∈ catalog.functions, name.lower ≠ f.name.lower := by
  intro f member same
  have silent := List.filterMap_eq_nil_iff.mp quiet _ numbered
  have known : (catalog.functions.map (·.name.lower)).contains name.lower = true := by
    rw [List.contains_iff_mem, same]
    exact List.mem_map_of_mem member
  simp only [declared, Option.bind_eq_bind, Option.bind_some, known, if_true] at silent
  cases silent

/-- An accepted script has no function that its line names as one of the library. -/
theorem lower_ne_of_namedOnLine {text r : Text} {catalog : Catalog} {items : List Item}
    (quiet : (problemsIn text catalog).isEmpty = true) (expanded : text.expandAll = .ok r)
    (taken : Taken (codeLines r) items) {function name : Text}
    (member : .function function ∈ items) (named : NamedOnLine name function) :
    ∀ f ∈ catalog.functions, name.lower ≠ f.name.lower := by
  have settled := Text.settled_of_problemsIn quiet
  have none := Diagnostics.isEmpty_ofList.mp quiet
  simp only [List.append_eq_nil_iff] at none
  obtain ⟨⟨⟨-, functions⟩, -⟩, -⟩ := none
  have inLine : ∀ line ∈ (codeLines r).map (·.2), '\n' ∉ line := fun line listed =>
    (trimmedLine_of_mem_codeLines listed).inLine
  obtain ⟨header, ends, absent, unquoted, begins⟩ := named.exists_line taken inLine member
  have unquoted' : '"' ∉ (Keyword.function ++ header) ++ ['('] := by
    simp [unquoted, Keyword.function]
  obtain ⟨n, line, blanks, rest, numbered, blank, rfl⟩ :=
    exists_line_of_expandAll settled expanded unquoted' (by decide) begins
  refine lower_ne_of_functionProblems functions numbered ?_
  rw [List.append_assoc]
  exact declaredFunction?_eq_some blank ends absent

/-- The records bear the names of the methods. -/
theorem mem_map_name_functionsOf_iff {items : List Item} {name : Text} :
    name ∈ (functionsOf items).map (·.name) ↔
      ∃ function, .function function ∈ items ∧ methodName (methodText function) = name := by
  have function_mem : ∀ function, function ∈ items.filterMap Item.functionText? ↔
      .function function ∈ items := by
    intro function
    rw [List.mem_filterMap]
    constructor
    · rintro ⟨item, member, own⟩
      cases item <;> cases own
      exact member
    · exact fun member => ⟨_, member, rfl⟩
  have names : (functionsOf items).map (·.name) =
      (((items.filterMap Item.functionText?).map methodText).map methodName).eraseDups := by
    rw [functionsOf_eq_records, records, List.map_map]
    exact List.map_id _
  rw [names, List.mem_eraseDups]
  simp only [List.mem_map, exists_exists_and_eq_and, function_mem]

/-- Whether the method of a function has one of some names, letter case apart. -/
def Overrides (function : Text) (names : List Text) : Prop :=
  ∃ name ∈ names, (methodName (methodText function)).lower = name.lower

/-- What an accepted script overrides of the library: functions named on their lines override no
function, and nothing is overridden exactly if no function overrides a declaration and the other
functions override no function. -/
theorem overrides_nothing_iff {text r : Text} {catalog : Catalog} {script : Script}
    (quiet : (problemsIn text catalog).isEmpty = true) (expanded : text.expandAll = .ok r)
    (taken : ofText r catalog = .ok script) :
    ∃ items, Taken (codeLines r) items ∧ script = ofItems catalog items ∧
      (∀ function name, .function function ∈ items → NamedOnLine name function →
        methodName (methodText function) = name ∧
          ∀ f ∈ catalog.functions, name.lower ≠ f.name.lower) ∧
      ((∀ record ∈ script.functions, ∀ name ∈ catalog.names, record.name.lower ≠ name.lower) ↔
        ∀ function, .function function ∈ items →
          ¬Overrides function (catalog.declarations.map (·.name)) ∧
            ((∃ name, NamedOnLine name function) ∨
              ¬Overrides function (catalog.functions.map (·.name)))) := by
  obtain ⟨items, read, rfl⟩ := exists_of_ofText taken
  have guarded : ∀ function name, .function function ∈ items → NamedOnLine name function →
      methodName (methodText function) = name ∧
        ∀ f ∈ catalog.functions, name.lower ≠ f.name.lower := fun function name member named =>
    ⟨named.methodName_eq, lower_ne_of_namedOnLine quiet expanded read member named⟩
  refine ⟨items, read, rfl, guarded, ?_⟩
  have apart : ∀ function, (∀ name ∈ catalog.names,
      (methodName (methodText function)).lower ≠ name.lower) ↔
        ¬Overrides function (catalog.functions.map (·.name)) ∧
          ¬Overrides function (catalog.declarations.map (·.name)) := by
    intro function
    simp only [Overrides, Catalog.names, List.mem_append, or_imp, forall_and, not_exists, not_and,
      ne_eq]
  constructor
  · intro none function member
    obtain ⟨record, recorded, bears⟩ :=
      List.mem_map.mp (mem_map_name_functionsOf_iff.mpr ⟨function, member, rfl⟩)
    obtain ⟨functions, declarations⟩ := (apart function).mp (bears ▸ none record recorded)
    exact ⟨declarations, .inr functions⟩
  · intro each record recorded
    obtain ⟨function, member, bears⟩ :=
      mem_map_name_functionsOf_iff.mp (List.mem_map_of_mem recorded)
    obtain ⟨declarations, unnamed⟩ := each function member
    rw [← bears]
    refine (apart function).mpr ⟨?_, declarations⟩
    rcases unnamed with ⟨name, named⟩ | functions
    · obtain ⟨same, free⟩ := guarded function name member named
      rintro ⟨own, listed, equal⟩
      obtain ⟨f, known, rfl⟩ := List.mem_map.mp listed
      exact free f known (same ▸ equal)
    · exact functions

/-- A function of a name of its own, with blanks around the name. -/
theorem overrides_nothing_of_rest :
    let text : Text := "func void rest ( int n ) \x7b sleep(n); \x7d\nrest(DELAY);"
    let catalog : Catalog := ⟨[⟨"sleep", []⟩], [⟨"DELAY", []⟩], []⟩
    ∃ script, (problemsIn text catalog).isEmpty = true ∧ text.expandAll = .ok text ∧
      ofText text catalog = .ok script ∧
      ∀ record ∈ script.functions, ∀ name ∈ catalog.names, record.name.lower ≠ name.lower := by
  intro text catalog
  have quiet : (problemsIn text catalog).isEmpty = true := by decide +kernel
  have expanded : text.expandAll = .ok text := by decide +kernel
  let function : Text := "void rest ( int n ) \x7b sleep(n); \x7d"
  have read : itemsOfLines (codeLines text) =
      .ok [.function function, .statement "rest(DELAY);"] := by decide +kernel
  have taken : ofText text catalog =
      .ok (ofItems catalog [.function function, .statement "rest(DELAY);"]) := by
    rw [ofText, read]
    rfl
  have ends : EndsIn "rest" (("void " : Text) ++ ("rest" ++ " ")) :=
    .intro (inName_of_getLast? (c := ' ') rfl (by decide)) (.intro (.inl rfl) (by decide))
      (by decide)
  have named : NamedOnLine "rest" function :=
    ⟨_, " int n ) \x7b sleep(n); \x7d", by decide, ends, by decide, by decide, by decide⟩
  refine ⟨_, quiet, expanded, taken, ?_⟩
  obtain ⟨items, own, -, -, free⟩ := overrides_nothing_iff quiet expanded taken
  refine free.mpr ?_
  rw [← itemsOfLines_eq_ok_iff, read] at own
  cases own
  intro other member
  obtain rfl : other = function := by simpa using member
  refine ⟨?_, .inl ⟨_, named⟩⟩
  rw [Overrides, named.methodName_eq]
  decide

/-- A function with the name of a declaration, and one whose name, that of a function, stands on
the line behind its keyword. -/
theorem overrides_library :
    let text : Text := "func int DELAY() \x7b return 1; \x7d\nfunc void\nsleep() \x7b\x7d"
    let catalog : Catalog := ⟨[⟨"sleep", []⟩], [⟨"DELAY", []⟩], []⟩
    ∃ script, (problemsIn text catalog).isEmpty = true ∧ text.expandAll = .ok text ∧
      ofText text catalog = .ok script ∧
      ∀ name ∈ catalog.names, ∃ record ∈ script.functions, record.name = name := by
  intro text catalog
  let functions : List FunctionText := [⟨"DELAY", "public static int DELAY() \x7b return 1; \x7d"⟩,
    ⟨"sleep", "public static void\nsleep() \x7b\x7d"⟩]
  have quiet : (problemsIn text catalog).isEmpty = true := by decide +kernel
  have expanded : text.expandAll = .ok text := by decide +kernel
  have taken : ofText text catalog = .ok ⟨[], [], functions, []⟩ := by decide +kernel
  exact ⟨_, quiet, expanded, taken, by decide⟩

end Script

end ScriptLoom
