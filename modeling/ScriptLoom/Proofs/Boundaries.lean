import ScriptLoom.Identifier
import ScriptLoom.Proofs.CommentRemoval

/-! # Cuts between characters

A text can be cut at a byte offset that splits no character (`Text.IsBoundary`), and a part of it is
sliced out between two such offsets (`Text.SlicesTo`). A search over the bytes that stops at an
ASCII byte has found a whole character (`Text.getElem?_bytes_append`), since all bytes of longer
characters are larger. So the offsets next to it are places between characters.
-/

namespace ScriptLoom

namespace Text

/-! ### Slices -/

/-- Turning a text around keeps its size. -/
theorem size_reverse (t : Text) : size t.reverse = size t := by
  induction t with
  | nil => rfl
  | cons c t ih => rw [List.reverse_cons, size_append, ih, size_cons, size_cons, size_nil]; omega

/-- Only the empty text takes no bytes. -/
theorem ne_zero_size {t : Text} (nonempty : t ≠ []) : size t ≠ 0 := by
  obtain ⟨c, rest, rfl⟩ := List.exists_cons_of_ne_nil nonempty
  have positive := c.utf8Size_pos
  rw [size_cons]
  omega

/-- Whether a byte offset splits no character: it is the end of the text or the first byte of a
character. -/
def IsBoundary (t : Text) (i : Nat) : Prop :=
  i = t.size ∨ ∃ byte, t.bytes[i]? = some byte ∧ byte.IsUTF8FirstByte

/-- The place where two texts meet is a boundary. -/
theorem isBoundary_append (s t : Text) : IsBoundary (s ++ t) (size s) := by
  cases t with
  | nil => exact .inl (by simp)
  | cons c t =>
    refine .inr ⟨_, ?_, UInt8.isUTF8FirstByte_getElem_zero_utf8EncodeChar (c := c)⟩
    rw [bytes_append, ← length_bytes, List.getElem?_append_right (Nat.le_refl _), Nat.sub_self,
      bytes, List.flatMap_cons, List.getElem?_append_left (by simp [c.utf8Size_pos])]
    exact List.getElem?_eq_getElem _

/-- A part of a text at a byte range: the range lies in the text, splits no character and holds the
bytes of the part. -/
structure SlicesTo (t : Text) (range : Nat × Nat) (part : Text) : Prop where
  ordered : range.1 ≤ range.2
  bounded : range.2 ≤ t.size
  starts : t.IsBoundary range.1
  stops : t.IsBoundary range.2
  holds : (t.bytes.take range.2).drop range.1 = part.bytes

/-- The part between two texts is the slice between their sizes. -/
theorem slicesTo_append (before part after : Text) :
    SlicesTo (before ++ (part ++ after)) (size before, size before + size part) part where
  ordered := Nat.le_add_right _ _
  bounded := by simp only [size_append]; omega
  starts := isBoundary_append _ _
  stops := by
    rw [← size_append, ← List.append_assoc]
    exact isBoundary_append _ _
  holds := by
    simp only [← size_append]
    rw [← List.append_assoc, bytes_append, ← length_bytes, ← length_bytes, List.take_left,
      bytes_append, List.drop_left]

/-- The front of a text is the slice up to its size. -/
theorem slicesTo_left (part after : Text) : SlicesTo (part ++ after) (0, size part) part := by
  simpa using slicesTo_append [] part after

/-- The end of a text is the slice from the size of what is before it. -/
theorem slicesTo_right (before part : Text) :
    SlicesTo (before ++ part) (size before, size (before ++ part)) part := by
  simpa using slicesTo_append before part []

/-! ### Searches over bytes -/

/-- The byte at the start of a character is that of an ASCII character if it is this character. -/
theorem getElem?_bytes_append {d : Char} (ascii : d.utf8Size = 1) (s t : Text) :
    (bytes (s ++ t))[size s]? = some d.toUInt8 ↔ t.head? = some d := by
  rw [bytes_append, ← length_bytes, List.getElem?_append_right (Nat.le_refl _), Nat.sub_self]
  cases t with
  | nil => simp [bytes]
  | cons c t =>
    obtain ⟨first, rest, encoded⟩ :=
      List.exists_cons_of_ne_nil (String.utf8EncodeChar_ne_nil (c := c))
    rw [bytes, List.flatMap_cons, encoded, List.cons_append, List.getElem?_cons_zero,
      List.head?_cons, Option.some_inj, Option.some_inj]
    constructor
    · rintro rfl
      exact (toUInt8_mem_utf8EncodeChar_iff ascii).mp (encoded ▸ List.mem_cons_self)
    · rintro rfl
      rw [String.utf8EncodeChar_eq_singleton ascii] at encoded
      exact (List.cons.inj encoded).1.symm

/-- The byte before a place is that of an ASCII character if that character stands there. -/
theorem getElem?_bytes_concat_append {d : Char} (ascii : d.utf8Size = 1) (s t : Text) (c : Char) :
    (bytes (s ++ [c] ++ t))[size (s ++ [c]) - 1]? = some d.toUInt8 ↔ c = d := by
  have positive := c.utf8Size_pos
  have inside : size s + c.utf8Size - 1 - size s < (String.utf8EncodeChar c).length := by
    rw [String.length_utf8EncodeChar]
    omega
  have last : (bytes (s ++ [c] ++ t))[size (s ++ [c]) - 1]? =
      some ((String.utf8EncodeChar c).get ⟨_, inside⟩) := by
    rw [List.append_assoc, bytes_append, List.getElem?_append_right (by simp; omega), bytes_append,
      length_bytes, List.getElem?_append_left (by simp; omega)]
    simp [bytes]
  rw [last, Option.some_inj]
  constructor
  · intro same
    exact (toUInt8_mem_utf8EncodeChar_iff ascii).mp (same ▸ List.get_mem _ _)
  · rintro rfl
    have single := String.utf8EncodeChar_eq_singleton ascii
    have each : ∀ byte ∈ String.utf8EncodeChar c, byte = c.toUInt8 := by
      rw [single]
      exact fun byte => List.mem_singleton.mp
    exact each _ (List.get_mem _ _)

/-- A character with its offset divides the text at that offset. -/
theorem exists_of_mem_indexedFrom {start i : Nat} {c : Char} {t : Text}
    (member : (i, c) ∈ indexedFrom start t) : ∃ u v, t = u ++ c :: v ∧ i = start + size u := by
  induction t generalizing start with
  | nil => cases member
  | cons d t ih =>
    rcases List.mem_cons.mp member with same | later
    · cases same
      exact ⟨[], t, rfl, rfl⟩
    · obtain ⟨u, v, rfl, rfl⟩ := ih later
      exact ⟨d :: u, v, rfl, by rw [size_cons, Nat.add_assoc]⟩

/-- The characters of a text end within it. -/
theorem le_of_mem_indexedFrom {start i : Nat} {c : Char} {t : Text}
    (member : (i, c) ∈ indexedFrom start t) : i + c.utf8Size ≤ start + size t := by
  obtain ⟨u, v, rfl, rfl⟩ := exists_of_mem_indexedFrom member
  rw [size_append, size_cons]
  omega

private theorem mem_of_mem_indexedFrom {start i : Nat} {c : Char} {t : Text}
    (member : (i, c) ∈ indexedFrom start t) : c ∈ t := by
  obtain ⟨u, v, rfl, -⟩ := exists_of_mem_indexedFrom member
  exact List.mem_append_right _ List.mem_cons_self

/-! ### Classes of ASCII characters -/

section Class

variable {p : Char → Bool} (narrow : ∀ c, p c = true → c.utf8Size = 1)

/-- Whether a byte is that of a character of a class. -/
def byteIn (p : Char → Bool) (byte : UInt8) : Bool :=
  p (Char.ofNat byte.toNat)

include narrow

/-- All bytes of a character tell whether it is in the class. -/
theorem byteIn_of_mem {c : Char} {byte : UInt8} (member : byte ∈ String.utf8EncodeChar c) :
    byteIn p byte = p c := by
  by_cases ascii : c.utf8Size = 1
  · rw [String.utf8EncodeChar_eq_singleton ascii, List.mem_singleton, Char.toUInt8_val] at member
    rw [member, byteIn, toNat_toUInt8 ascii, Char.ofNat_toNat]
  · -- A byte of a longer character is at least 128, which no character of the class is.
    have large := le_of_mem_utf8EncodeChar ascii member
    have small := byte.toNat_lt
    have valid : byte.toNat.isValidChar := .inl (by omega)
    have value : (Char.ofNat byte.toNat).toNat = byte.toNat := by
      rw [Char.ofNat, dif_pos valid]
      rfl
    have other : p c = false := Bool.eq_false_iff.mpr fun holds => ascii (narrow c holds)
    rw [other]
    refine Bool.eq_false_iff.mpr fun holds => ?_
    have single := narrow _ holds
    rw [Char.utf8Size_eq_one_iff, UInt32.le_iff_toNat_le] at single
    have bound : (Char.ofNat byte.toNat).toNat ≤ 127 := single
    omega

/-- The first bytes in a class are those of the first characters in it. -/
theorem takeWhile_bytes (t : Text) : t.bytes.takeWhile (byteIn p) = bytes (t.takeWhile p) := by
  induction t with
  | nil => rfl
  | cons c t ih =>
    have each : ∀ byte ∈ String.utf8EncodeChar c, byteIn p byte = p c :=
      fun _ => byteIn_of_mem narrow
    rw [bytes, List.flatMap_cons]
    cases holds : p c with
    | true =>
      have all : ∀ byte ∈ String.utf8EncodeChar c, byteIn p byte = true :=
        fun byte member => (each byte member).trans holds
      rw [List.takeWhile_append_of_pos all, List.takeWhile_cons_of_pos holds]
      exact congrArg (_ ++ ·) ih
    | false =>
      obtain ⟨first, rest, encoded⟩ :=
        List.exists_cons_of_ne_nil (String.utf8EncodeChar_ne_nil (c := c))
      have other := (each first (encoded ▸ List.mem_cons_self)).trans holds
      rw [encoded, List.cons_append, List.takeWhile_cons_of_neg (by simp [other]),
        List.takeWhile_cons_of_neg (by simp [holds])]
      rfl

/-- The last bytes in a class are those of the last characters in it. -/
theorem length_takeWhile_reverse_bytes (t : Text) :
    (t.bytes.reverse.takeWhile (byteIn p)).length = size (t.reverse.takeWhile p) := by
  induction t using List.reverseRecOn with
  | nil => rfl
  | append_singleton t c ih =>
    have each : ∀ byte ∈ String.utf8EncodeChar c, byteIn p byte = p c :=
      fun _ => byteIn_of_mem narrow
    have single : bytes [c] = String.utf8EncodeChar c := by simp [bytes]
    rw [bytes_append, single, List.reverse_append, List.reverse_append, List.reverse_singleton,
      List.singleton_append]
    cases holds : p c with
    | true =>
      have all : ∀ byte ∈ (String.utf8EncodeChar c).reverse, byteIn p byte = true :=
        fun byte member => (each byte (List.mem_reverse.mp member)).trans holds
      rw [List.takeWhile_append_of_pos all, List.takeWhile_cons_of_pos holds, List.length_append,
        ih, List.length_reverse, String.length_utf8EncodeChar, size_cons]
    | false =>
      obtain ⟨last, rest, encoded⟩ := List.exists_cons_of_ne_nil
        (List.reverse_ne_nil_iff.mpr (String.utf8EncodeChar_ne_nil (c := c)))
      have member : last ∈ String.utf8EncodeChar c :=
        List.mem_reverse.mp (encoded ▸ List.mem_cons_self)
      have other := (each last member).trans holds
      rw [encoded, List.cons_append, List.takeWhile_cons_of_neg (by simp [other]),
        List.takeWhile_cons_of_neg (by simp [holds])]
      rfl

end Class

/-! ### Offsets that are searched for -/

/-- The characters of identifiers take one byte. -/
theorem utf8Size_of_isIdentChar {c : Char} (ident : isIdentChar c = true) : c.utf8Size = 1 := by
  have upTo : ∀ high : UInt32, high ≤ 127 → c.val ≤ high → c.utf8Size = 1 :=
    fun _ small below => Char.utf8Size_eq_one_iff.mpr (UInt32.le_trans below small)
  rcases Bool.or_eq_true_iff.mp ident with others | dollar
  · rcases Bool.or_eq_true_iff.mp others with alphanumeric | underscore
    · rcases Bool.or_eq_true_iff.mp alphanumeric with letter | digit
      · rcases Bool.or_eq_true_iff.mp letter with upper | lower
        · exact upTo 'Z'.val (by decide) (of_decide_eq_true upper).2
        · exact upTo 'z'.val (by decide) (of_decide_eq_true (Bool.and_eq_true_iff.mp lower).2)
      · exact upTo '9'.val (by decide) (of_decide_eq_true (Bool.and_eq_true_iff.mp digit).2)
    · rw [beq_iff_eq.mp underscore]
      rfl
  · rw [beq_iff_eq.mp dollar]
    rfl

/-- Behind a place, gaps are skipped up to the first other character. -/
theorem skipGaps_append (s : Text) {gap t : Text} (isGap' : ∀ c ∈ gap, isGap c = true)
    (stops : ∀ c ∈ t.head?, isGap c = false) :
    skipGaps (s ++ (gap ++ t)) (size s) = size s + size gap := by
  have early : ∀ place ∈ indexedFrom 0 s,
      ¬(decide (size s < place.1 + place.2.utf8Size) && !isGap place.2) = true := by
    rintro ⟨i, c⟩ member
    have bound : i + c.utf8Size ≤ 0 + size s := le_of_mem_indexedFrom member
    simp only [Bool.and_eq_true, decide_eq_true_eq]
    omega
  have passed : ∀ place ∈ indexedFrom (size s) gap,
      ¬(decide (size s < place.1 + place.2.utf8Size) && !isGap place.2) = true := by
    rintro ⟨i, c⟩ member
    simp [isGap' c (mem_of_mem_indexedFrom member)]
  rw [skipGaps, indexed, indexedFrom_append, indexedFrom_append, Nat.zero_add, List.find?_append,
    List.find?_eq_none.mpr early, Option.none_or, List.find?_append, List.find?_eq_none.mpr passed,
    Option.none_or]
  cases t with
  | nil => simp [indexedFrom]
  | cons c t =>
    have other := stops c rfl
    have positive := c.utf8Size_pos
    rw [indexedFrom, List.find?_cons_of_pos (by simp [other]; omega)]
    exact Nat.max_eq_left (Nat.le_add_right _ _)

/-- The first byte of an ASCII character in a text. -/
theorem idxOf?_bytes {c : Char} (ascii : c.utf8Size = 1) (t : Text) :
    t.bytes.idxOf? c.toUInt8 = (t.cutAt? c).map (size ·.1) := by
  induction t with
  | nil => rfl
  | cons d t ih =>
    rw [bytes, List.flatMap_cons, cutAt?]
    by_cases same : d = c
    · subst same
      rw [if_pos rfl, String.utf8EncodeChar_eq_singleton ascii, List.singleton_append,
        Char.toUInt8_val, List.idxOf?_cons]
      simp
    · have absent : c.toUInt8 ∉ String.utf8EncodeChar d :=
        fun member => same ((toUInt8_mem_utf8EncodeChar_iff ascii).mp member)
      have passed : (String.utf8EncodeChar d ++ bytes t).idxOf? c.toUInt8 =
          ((bytes t).idxOf? c.toUInt8).map (· + d.utf8Size) := by
        have missing := List.idxOf?_eq_none_iff.mpr absent
        unfold List.idxOf? at missing ⊢
        rw [List.findIdx?_append, missing, Option.none_or, String.length_utf8EncodeChar]
      rw [if_neg same]
      refine passed.trans ?_
      rw [ih, Option.map_map, Option.map_map]
      congr 1
      funext parts
      exact Nat.add_comm _ _

/-- The offset of the last byte of a kind. -/
def lastByte? (byte : UInt8) (t : Text) : Option Nat :=
  match t.bytes.reverse.dropWhile (· ≠ byte) with
  | [] => none
  | _ :: before => some before.length

/-- The last byte of an ASCII character in a text. -/
theorem lastByte?_eq {c : Char} (ascii : c.utf8Size = 1) (t : Text) :
    t.lastByte? c.toUInt8 = (t.cutAtLast? (· = c)).map (size ·.1) := by
  induction t using List.reverseRecOn with
  | nil => rfl
  | append_singleton t d ih =>
    have single : bytes [d] = String.utf8EncodeChar d := by simp [bytes]
    rw [lastByte?, cutAtLast?, bytes_append, single, List.reverse_append, List.reverse_append,
      List.reverse_singleton, List.singleton_append]
    by_cases same : d = c
    · subst same
      rw [String.utf8EncodeChar_eq_singleton ascii, List.reverse_singleton, List.singleton_append,
        Char.toUInt8_val, List.dropWhile_cons_of_neg (by simp),
        List.dropWhile_cons_of_neg (by simp)]
      simp
    · have absent : ∀ byte ∈ (String.utf8EncodeChar d).reverse,
          decide (byte ≠ c.toUInt8) = true := by
        intro byte member
        refine decide_eq_true ?_
        rintro rfl
        exact same ((toUInt8_mem_utf8EncodeChar_iff ascii).mp (List.mem_reverse.mp member))
      rw [List.dropWhile_append_of_pos absent, List.dropWhile_cons_of_pos (by simpa using same),
        List.takeWhile_cons_of_pos (by simpa using same)]
      rw [lastByte?, cutAtLast?] at ih
      refine ih.trans ?_
      split <;> rfl

end Text

end ScriptLoom
