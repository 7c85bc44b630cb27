import Mathlib.Data.List.Nodup
import ScriptLoom.Proofs.ItemLines
import ScriptLoom.Proofs.Lists

/-! # Methods and the records that keep them

A function becomes a method under the header `public static`, with tabs put in front of its lines
and nothing else (`Script.tabbed_methodText`). Methods of one name share a record: the records come
in the order in which the names first do, and a record keeps its methods in order with a blank line
between them (`Script.functionsOf_eq_records`).
-/

namespace ScriptLoom

namespace Script

/-! ### Methods -/

/-- Whether a text is another one with tabs put in front of its lines. -/
def Tabbed (s t : Text) : Prop :=
  List.Forall₂ (fun line deeper => ∃ n, deeper = List.replicate n '\t' ++ line)
    (s.splitOn '\n') (t.splitOn '\n')

private theorem forall₂_deeper (ls : List Text) :
    List.Forall₂ (fun line deeper => ∃ n, deeper = List.replicate n '\t' ++ line) ls
      (ls.dropLast.map ('\t' :: ·) ++ ls.getLast?.toList) := by
  rcases List.eq_nil_or_concat ls with rfl | ⟨before, last, rfl⟩
  · exact .nil
  · rw [List.concat_eq_append, List.dropLast_concat, List.getLast?_concat]
    refine List.rel_append ?_ (.cons ⟨0, rfl⟩ .nil)
    rw [List.forall₂_map_right_iff, List.forall₂_same]
    exact fun line _ => ⟨1, rfl⟩

/-- Blanks in front of the first line are blanks in front of the text, if something visible ends
the line. -/
theorem trimStart_unlines {header : Text} {c : Char} (last : header.getLast? = some c)
    (visible : Text.isBlank c = false) (ls : List Text) :
    (Text.unlines (header :: ls)).trimStart = Text.unlines (header.trim :: ls) := by
  obtain ⟨blanks, whole, blank⟩ := Text.exists_eq_blanks_append_trim last visible
  have start := Text.trimStart_trim header
  obtain ⟨more, split⟩ := Text.prefix_unlines header.trim ls
  conv_lhs => rw [whole, Text.unlines_append_cons, Text.trimStart,
    List.dropWhile_append_of_pos blank]
  cases first : header.trim with
  | nil =>
    rw [first, List.append_nil] at whole
    have := blank c (whole ▸ List.mem_of_getLast? last)
    exact absurd this (by simp [visible])
  | cons d rest =>
    rw [first] at split start
    rw [← split, List.cons_append, List.dropWhile_cons_of_neg]
    intro isBlank
    rw [Text.trimStart, List.dropWhile_cons_of_pos isBlank] at start
    have shorter := (List.dropWhile_suffix Text.isBlank (l := rest)).length_le
    rw [start, List.length_cons] at shorter
    omega

/-- A method is its function under another header, but for tabs in front of its lines. -/
theorem tabbed_methodText {text : Text} (tight : Tight text) :
    Tabbed ("public static " ++ text.trimStart) (methodText text) := by
  obtain ⟨header, rest, split⟩ : ∃ (header : Text) (rest : List Text),
      text.splitOn '\n' = header :: rest := ⟨_, _, Text.splitOn_eq_cons text⟩
  have whole : Text.unlines (text.splitOn '\n') = text := List.intercalate_splitOn '\n'
  have lines : text.lines = header :: rest := by
    rw [← split, ← Text.lines_unlines (isLine_of_tight tight), whole]
  obtain ⟨c, last, visible⟩ := tight header (split ▸ List.mem_cons_self)
  have inLine : ∀ line ∈ header :: rest, '\n' ∉ line := by
    rw [← split]
    exact fun line => not_mem_of_mem_splitOn
  have headed : '\n' ∉ ("public static " : Text) ++ header.trim := by
    have noFeed := inLine header List.mem_cons_self
    have : '\n' ∉ header.trim := fun feed => noFeed ((Text.trim_isInfix header).subset feed)
    simpa using this
  have later : ∀ line ∈ rest, '\n' ∉ line := fun line member =>
    inLine line (List.mem_cons_of_mem _ member)
  have deeper : ∀ line ∈ rest.dropLast.map ('\t' :: ·) ++ rest.getLast?.toList, '\n' ∉ line := by
    intro line member
    rcases List.mem_append.mp member with early | final
    · obtain ⟨own, listed, rfl⟩ := List.mem_map.mp early
      simpa using later own (List.dropLast_subset rest listed)
    · exact later line (List.mem_of_getLast? (Option.mem_toList.mp final))
  have before : (("public static " : Text) ++ text.trimStart).splitOn '\n' =
      ("public static " ++ header.trim) :: rest := by
    rw [← whole, split, trimStart_unlines last visible, ← Text.unlines_append_cons]
    exact List.splitOn_intercalate '\n' (List.forall_mem_cons.mpr ⟨headed, later⟩) (by simp)
  have after : (methodText text).splitOn '\n' =
      ("public static " ++ header.trim) ::
        (rest.dropLast.map ('\t' :: ·) ++ rest.getLast?.toList) := by
    rw [methodText, lines]
    exact List.splitOn_intercalate '\n' (List.forall_mem_cons.mpr ⟨headed, deeper⟩) (by simp)
  rw [Tabbed, before, after]
  exact .cons ⟨0, rfl⟩ (forall₂_deeper rest)

private theorem methodText_ne_nil (text : Text) : methodText text ≠ [] := by
  unfold methodText
  split
  · simp
  · next header rest lines =>
    obtain ⟨more, split⟩ := Text.prefix_unlines ("public static " ++ header.trim)
      (rest.dropLast.map ('\t' :: ·) ++ rest.getLast?.toList)
    rw [← split]
    simp

/-! ### Records -/

/-- The name that a method is kept under. -/
def methodName (method : Text) : Text :=
  method.headerName?.getD []

/-- Methods put together by their names, the names in the order in which they first come. -/
def records (methods : List Text) : List FunctionText :=
  (methods.map methodName).eraseDups.map fun name =>
    ⟨name, Text.join "\n\n" (methods.filter (methodName · = name))⟩

/-- Among records of different names one is extended, an empty one if there is none. -/
theorem amend_map {names : List Text} {name : Text} {extend body : Text → Text}
    (distinct : names.Nodup) (empty : name ∉ names → body name = []) :
    FunctionText.amend name extend (names.map fun n => ⟨n, body n⟩) =
      (if name ∈ names then names else names ++ [name]).map fun n =>
        ⟨n, if n = name then extend (body n) else body n⟩ := by
  induction names with
  | nil => simp [FunctionText.amend, empty List.not_mem_nil]
  | cons first names ih =>
    obtain ⟨new, distinct⟩ := List.nodup_cons.mp distinct
    rw [List.map_cons, FunctionText.amend]
    by_cases same : first = name
    · subst same
      have others : (names.map fun n => (⟨n, body n⟩ : FunctionText)) =
          names.map fun n => ⟨n, if n = first then extend (body n) else body n⟩ := by
        apply List.map_congr_left
        intro n member
        rw [if_neg fun equal : n = first => new (equal ▸ member)]
      rw [if_pos rfl, if_pos List.mem_cons_self, List.map_cons, if_pos rfl, others]
    · have later := ih distinct fun unknown =>
        empty (List.not_mem_cons_of_ne_of_not_mem (Ne.symm same) unknown)
      rw [if_neg same, later]
      by_cases known : name ∈ names <;> simp [known, same, Ne.symm same]

private theorem join_concat {ts : List Text} (nonempty : ∀ t ∈ ts, t ≠ []) (t : Text) :
    Text.join "\n\n" (ts ++ [t]) = extendWith t (Text.join "\n\n" ts) := by
  cases ts with
  | nil => simp [Text.join, extendWith]
  | cons first ts =>
    have started : Text.join "\n\n" (first :: ts) ≠ [] := by
      have := nonempty first List.mem_cons_self
      cases ts <;> simp [Text.join, List.intercalate_cons_cons, this]
    rw [extendWith, if_neg started]
    clear nonempty started
    induction ts generalizing first with
    | nil => simp [Text.join, List.intercalate_cons_cons]
    | cons next ts ih =>
      have rest := ih next
      simp only [Text.join, List.cons_append, List.intercalate_cons_cons] at rest ⊢
      rw [rest]
      simp only [List.append_assoc]

private theorem records_concat {methods : List Text} (nonempty : ∀ m ∈ methods, m ≠ [])
    (method : Text) :
    records (methods ++ [method]) =
      FunctionText.amend (methodName method) (extendWith method) (records methods) := by
  have fresh : methodName method ∉ (methods.map methodName).eraseDups →
      Text.join "\n\n" (methods.filter (methodName · = methodName method)) = [] := by
    intro unknown
    rw [List.mem_eraseDups] at unknown
    rw [List.filter_eq_nil_iff.mpr]
    · rfl
    · intro other member
      rw [decide_eq_true_eq]
      exact fun same => unknown (same ▸ List.mem_map_of_mem member)
  rw [records, records, amend_map (nodup_eraseDups _) fresh, List.map_append, List.map_singleton,
    eraseDups_concat]
  apply List.map_congr_left
  intro name _
  rw [List.filter_append]
  by_cases same : name = methodName method
  · subst same
    rw [if_pos rfl, List.filter_cons_of_pos (by simp), List.filter_nil,
      join_concat fun m member => nonempty m (List.mem_of_mem_filter member)]
  · rw [if_neg same, List.filter_cons_of_neg (by simpa using Ne.symm same), List.filter_nil,
      List.append_nil]

/-- The functions of items are the records of their methods. -/
theorem functionsOf_eq_records (items : List Item) :
    functionsOf items = records ((items.filterMap Item.functionText?).map methodText) := by
  induction items using List.reverseRecOn with
  | nil => rfl
  | append_singleton items item ih =>
    rw [functionsOf] at ih
    rw [functionsOf, List.foldl_append, ih, List.filterMap_append, List.map_append]
    cases item with
    | function text =>
      refine (records_concat ?_ (methodText text)).symm
      intro method member
      obtain ⟨own, -, rfl⟩ := List.mem_map.mp member
      exact methodText_ne_nil own
    | importLine line => simp [Item.functionText?, Item.addFunction, List.filterMap_cons]
    | globalLine line => simp [Item.functionText?, Item.addFunction, List.filterMap_cons]
    | statement text => simp [Item.functionText?, Item.addFunction, List.filterMap_cons]

end Script

end ScriptLoom
