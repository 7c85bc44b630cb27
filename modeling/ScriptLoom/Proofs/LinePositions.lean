import ScriptLoom.Location
import ScriptLoom.Proofs.CompilerOutput
import ScriptLoom.Proofs.KeywordSearch

/-! # Lines and offsets

The number of a line, its bounds and the table of line starts are computed independently of each
other and agree at every offset (`Text.exists_holdsLine`). The compiler names a place by line and
column; the offset made of it lies on that line (`CompilerMessage.isPosition_of_positionOf?`), so a
message that stays with a generated file is reported on the line that the compiler printed
(`Locator.lines_agree_with_compiler`).
-/

namespace ScriptLoom

namespace Text

/-! ### The line that holds an offset -/

/-- The table of line starts at the number of the line behind a text. -/
theorem getElem?_lineOffsets {before : Text} (starts : before.LineStarts) (rest : Text) :
    (before ++ rest).lineOffsets[before.count '\n']? = some (size before) := by
  rcases starts with rfl | last
  · rfl
  · obtain ⟨front, rfl⟩ := List.getLast?_eq_some_iff.mp last
    have index : (front ++ ['\n']).count '\n' = (lineFeeds front).length + 1 := by
      rw [List.count_append, List.count_singleton_self, length_lineFeeds]
    rw [index, lineOffsets, List.getElem?_cons_succ, List.getElem?_map, List.append_assoc,
      lineFeeds_append, List.getElem?_append_right (Nat.le_refl _), Nat.sub_self,
      List.singleton_append, lineFeeds_cons]
    simp [show '\n'.utf8Size = 1 from rfl]

private theorem length_lineOffsets (t : Text) : t.lineOffsets.length = t.count '\n' + 1 := by
  rw [lineOffsets, List.length_cons, List.length_map, length_lineFeeds]

/-- Every line start of the table is the start of a line. -/
theorem exists_of_getElem?_lineOffsets {t : Text} {i start : Nat}
    (listed : t.lineOffsets[i]? = some start) :
    ∃ before line after, t = before ++ (line ++ after) ∧ start = size before ∧
      before.count '\n' = i ∧ before.LineStarts ∧ after.LineEnds ∧ '\n' ∉ line := by
  have bound : i < (t.splitOn '\n').length := by
    rw [length_splitOn, ← length_lineOffsets]
    exact (List.getElem?_eq_some_iff.mp listed).1
  obtain ⟨before, after, whole, rfl, starts, ends, inLine⟩ :=
    exists_of_getElem?_splitOn (List.getElem?_eq_getElem bound)
  refine ⟨before, _, after, whole, ?_, rfl, starts, ends, inLine⟩
  rw [whole, getElem?_lineOffsets starts] at listed
  exact (Option.some.inj listed).symm

/-- The places of a line around an offset, which is clamped to the text. -/
structure HoldsLine (t : Text) (offset : Nat) (line : Text) : Prop where
  cut : t.SlicesTo (t.lineRange offset) line
  inLine : '\n' ∉ line
  starts : (t.lineRange offset).1 ≤ min offset t.size
  stops : min offset t.size ≤ (t.lineRange offset).2
  ends : (t.lineRange offset).2 = t.size ∨ t.bytes[(t.lineRange offset).2]? = some '\n'.toUInt8
  listed : t.lineOffsets[t.lineNumberAt offset - 1]? = some (t.lineRange offset).1

private theorem exists_holdsLine (t : Text) (offset : Nat) : ∃ line, t.HoldsLine offset line := by
  obtain ⟨before, line, after, rfl, -, number, starts, ends, inLine⟩ := exists_lineAt t offset
  have range := lineRange_of_lineNumberAt inLine starts ends number
  obtain ⟨early, late⟩ := divides_of_lineNumberAt inLine number
  have reached : size before ≤ offset := by
    rcases starts with rfl | last
    · exact Nat.zero_le _
    · obtain ⟨front, rfl⟩ := List.getLast?_eq_some_iff.mp last
      have feed := early (size front) (by simp [lineFeeds_append, lineFeeds_singleton])
      rw [size_append, size_cons, size_nil, show '\n'.utf8Size = 1 from rfl]
      omega
  refine ⟨line, ?_, inLine, ?_, ?_, ?_, ?_⟩
  · rw [range]
    exact slicesTo_append before line after
  · rw [range, size_append]
    omega
  · rw [range, size_append, size_append]
    rcases ends with rfl | first
    · simp only [size_nil]
      omega
    · obtain ⟨rest, rfl⟩ := List.head?_eq_some_iff.mp first
      have feed := late (size before + size line) (by simp [lineFeeds_cons])
      omega
  · rw [range]
    rcases ends with rfl | first
    · exact .inl (by simp)
    · refine .inr ?_
      rw [← size_append, ← List.append_assoc]
      exact (getElem?_bytes_append (by decide) _ _).mpr first
  · rw [range, number, lineAfter, Nat.add_sub_cancel_left]
    exact getElem?_lineOffsets starts _

end Text

namespace CompilerMessage

/-! ### Places named by the compiler -/

/-- Whether an offset is that of a column on a line, or the end of the line if the line is
shorter. -/
structure IsPosition (source : Text) (number column offset : Nat) : Prop where
  boundary : source.IsBoundary offset
  numbered : source.lineNumberAt offset = number
  onLine : ∃ start line, source.lineOffsets[number - 1]? = some start ∧
    source.SlicesTo (start, (source.lineRange start).2) line ∧ '\n' ∉ line ∧
    offset = start + Text.size (line.take column) ∧ offset ≤ (source.lineRange start).2

/-- A place is found on the lines of the source only. -/
theorem positionOf?_eq_none_iff {source : Text} {number column : Nat} :
    positionOf? source number column = none ↔
      number = 0 ∨ source.lineOffsets.length < number := by
  cases number with
  | zero => simp [positionOf?]
  | succ number =>
    rw [positionOf?]
    cases listed : source.lineOffsets[number]? with
    | none =>
      have behind := List.getElem?_eq_none_iff.mp listed
      exact iff_of_true rfl (.inr (Nat.lt_succ_of_le behind))
    | some start =>
      have bound := (List.getElem?_eq_some_iff.mp listed).1
      exact iff_of_false (by simp) (by omega)

private theorem isPosition_of_positionOf? {source : Text} {number column offset : Nat}
    (found : positionOf? source number column = some offset) :
    IsPosition source number column offset := by
  cases number with
  | zero => cases found
  | succ number =>
    obtain ⟨start, listed, made⟩ := Option.bind_eq_some_iff.mp found
    obtain ⟨before, line, after, rfl, rfl, rfl, starts, ends, inLine⟩ :=
      Text.exists_of_getElem?_lineOffsets listed
    have own := Text.lineNumberAt_size before (line ++ after)
    have range := Text.lineRange_of_lineNumberAt inLine starts ends own
    have cut := Text.slicesTo_append before line after
    have divided : before ++ (line ++ after) =
        before ++ line.take column ++ (line.drop column ++ after) := by
      rw [List.append_assoc, ← List.append_assoc (line.take column), List.take_append_drop]
    have sizes := congrArg Text.size (List.take_append_drop column line)
    rw [Text.size_append] at sizes
    rw [range, Text.slice_append, ← Text.size_append] at made
    cases made
    refine ⟨?_, ?_, _, line, listed, ?_, inLine, Text.size_append _ _, ?_⟩
    · rw [divided]
      exact Text.isBoundary_append _ _
    · have noFeed : '\n' ∉ line.take column := fun feed => inLine (List.mem_of_mem_take feed)
      rw [divided, Text.lineNumberAt_size, Text.lineAfter_append,
        List.count_eq_zero_of_not_mem noFeed, Text.lineAfter, Nat.add_zero, Nat.add_comm]
    · rwa [range]
    · rw [range, Text.size_append]
      omega

end CompilerMessage

namespace Locator

/-- A message with an offset that stays with a generated file is reported on the line of the
offset. -/
theorem line_locate_of_isGenerated {r : Locator} {unitName generated : Text} {m : CompilerMessage}
    {offset : Nat} (placed : m.position = some offset)
    (stays : (r.locate unitName generated m).isGenerated = true) :
    (r.locate unitName generated m).diagnostic.line = generated.lineNumberAt offset := by
  unfold locate at stays ⊢
  rw [placed] at stays ⊢
  dsimp only at stays ⊢
  generalize (if unitName = r.className then _ else _) = candidates at stays ⊢
  rcases candidates with _ | ⟨only, _ | ⟨second, others⟩⟩
  · rfl
  · cases stays
  · rfl

open CompilerMessage in
/-- **Lines and offsets agree.** At every offset the bounds, the number and the table of lines name
one line. A place that the compiler names is found exactly on the lines of the source, between
characters of the line in question; and a message about such a line that stays with the generated
file is reported on it. -/
theorem lines_agree_with_compiler :
    (∀ (t : Text) (offset : Nat), ∃ line, t.HoldsLine offset line) ∧
    (∀ (source : Text) (number column : Nat),
      (positionOf? source number column = none ↔
        number = 0 ∨ source.lineOffsets.length < number) ∧
      ∀ offset, positionOf? source number column = some offset →
        IsPosition source number column offset) ∧
    ∀ (r : Locator) (unitName output source : Text),
      List.Forall₂
        (fun line m => ∀ h, header? line = some h → 0 < h.line →
          h.line ≤ source.lineOffsets.length → (r.locate unitName source m).isGenerated = true →
          (r.locate unitName source m).diagnostic.line = h.line)
        (due none output.lines) (read output source) := by
  refine ⟨Text.exists_holdsLine, fun source number column => ⟨positionOf?_eq_none_iff, ?_⟩, ?_⟩
  · exact fun offset => isPosition_of_positionOf?
  · intro r unitName output source
    refine ((Stage.Owes.idle rfl).run source output.lines).imp ?_
    rintro line m reports h header positive bounded stays
    cases reports with
    | bare noHeader _ =>
      rw [noHeader] at header
      cases header
    | header own column further =>
      cases own.symm.trans header
      have inside : positionOf? source h.line column ≠ none := by
        rw [Ne, positionOf?_eq_none_iff]
        omega
      obtain ⟨offset, found⟩ := Option.ne_none_iff_exists'.mp inside
      rw [line_locate_of_isGenerated found stays]
      exact (isPosition_of_positionOf? found).numbered

end Locator

end ScriptLoom
