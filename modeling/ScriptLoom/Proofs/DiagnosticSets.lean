import Mathlib.Data.Finset.Card
import Mathlib.Data.List.TakeWhile
import ScriptLoom.Diagnostic

/-! # Sets of diagnostics

A set of diagnostics is made by pushing diagnostics, by extending it with another set and by
starting again from a single diagnostic (`Diagnostics.Run`). Whatever the run, the set holds the
first diagnostic pushed of every line and message, in line order and, within a line, in the order of
the pushes (`Diagnostics.Collects`). Pushes on different lines commute, so it does not matter that a
set hands on its members in line order and without repetitions: extending by a set is the same as
repeating the pushes that made it (`Diagnostics.extend_ofList`), and the result of every run is the
set of what was pushed (`Diagnostics.Run.result_eq`).
-/

namespace ScriptLoom

/-- What a set of diagnostics tells its members apart by. -/
def Diagnostic.key (d : Diagnostic) : Nat × Text :=
  (d.line, d.message)

namespace Diagnostics

variable {ds : Diagnostics} {d : Diagnostic} {items : List Diagnostic} {n : Nat} {message : Text}

/-! ### Membership -/

private theorem holds_iff : ds.holds n message = true ↔ ∃ d ∈ ds.toList, d.key = (n, message) := by
  simp [holds, Diagnostic.key]

private theorem push_of_holds (held : ds.holds d.line d.message = true) : ds.push d = ds :=
  if_pos held

/-- A list with a diagnostic put behind those of its line. -/
def insertByLine (d : Diagnostic) (items : List Diagnostic) : List Diagnostic :=
  items.takeWhile (·.line ≤ d.line) ++ d :: items.dropWhile (·.line ≤ d.line)

private theorem push_of_not_holds (new : ¬ds.holds d.line d.message = true) :
    ds.push d = ⟨insertByLine d ds.toList⟩ :=
  if_neg new

private theorem insertByLine_cons (d e : Diagnostic) (items : List Diagnostic) :
    insertByLine d (e :: items) =
      if e.line ≤ d.line then e :: insertByLine d items else d :: e :: items := by
  by_cases early : e.line ≤ d.line <;> simp [insertByLine, early]

private theorem mem_insertByLine
    {e : Diagnostic} : e ∈ insertByLine d items ↔ e = d ∨ e ∈ items := by
  have parts := List.takeWhile_append_dropWhile (p := (·.line ≤ d.line)) (l := items)
  rw [insertByLine, List.mem_append, List.mem_cons, or_left_comm, ← List.mem_append, parts]

private theorem holds_push :
    (ds.push d).holds n message = true ↔
      ds.holds n message = true ∨ d.line = n ∧ d.message = message := by
  by_cases held : ds.holds d.line d.message = true
  · rw [push_of_holds held]
    constructor
    · exact .inl
    · rintro (before | ⟨rfl, rfl⟩)
      · exact before
      · exact held
  · rw [push_of_not_holds held, holds_iff, holds_iff]
    simp only [mem_insertByLine, exists_eq_or_imp, Diagnostic.key, Prod.mk.injEq]
    exact or_comm

private theorem pushAll_cons (ds : Diagnostics) (d : Diagnostic) (items : List Diagnostic) :
    ds.pushAll (d :: items) = (ds.push d).pushAll items :=
  rfl

private theorem pushAll_append (ds : Diagnostics) (items more : List Diagnostic) :
    ds.pushAll (items ++ more) = (ds.pushAll items).pushAll more :=
  List.foldl_append

private theorem ofList_append (items more : List Diagnostic) :
    ofList (items ++ more) = (ofList items).pushAll more :=
  pushAll_append empty items more

private theorem holds_pushAll :
    (ds.pushAll items).holds n message = true ↔
      ds.holds n message = true ∨ ∃ d ∈ items, d.line = n ∧ d.message = message := by
  induction items generalizing ds with
  | nil => simp [pushAll]
  | cons d items ih =>
    rw [pushAll_cons, ih, holds_push, List.exists_mem_cons_iff, or_assoc]

/-- The set of a list holds a message for a line exactly if the list does. -/
theorem holds_ofList :
    (ofList items).holds n message = true ↔ ∃ d ∈ items, d.line = n ∧ d.message = message := by
  rw [ofList, holds_pushAll]
  simp [holds, empty]

/-! ### Order -/

/-- Whether the members of a set are in line order. -/
def Ordered (ds : Diagnostics) : Prop :=
  ds.toList.Pairwise (·.line ≤ ·.line)

private theorem line_le_of_mem_takeWhile {e : Diagnostic}
    (member : e ∈ items.takeWhile (·.line ≤ n)) : e.line ≤ n := by
  simpa using List.mem_takeWhile_imp member

private theorem line_lt_of_mem_dropWhile {e : Diagnostic}
    (ordered : items.Pairwise (·.line ≤ ·.line))
    (member : e ∈ items.dropWhile (·.line ≤ n)) : n < e.line := by
  induction items with
  | nil => cases member
  | cons first items ih =>
    obtain ⟨least, later⟩ := List.pairwise_cons.mp ordered
    by_cases early : first.line ≤ n
    · rw [List.dropWhile_cons_of_pos (by simpa using early)] at member
      exact ih later member
    · rw [List.dropWhile_cons_of_neg (by simpa using early)] at member
      rcases List.mem_cons.mp member with rfl | rest
      · omega
      · have := least e rest
        omega

/-- What holds between any two members of an ordered list, and between them and a diagnostic put
among them, holds between any two members afterwards. -/
theorem pairwise_insertByLine {relation : Diagnostic → Diagnostic → Prop}
    (ordered : items.Pairwise (·.line ≤ ·.line)) (all : items.Pairwise relation)
    (before : ∀ e ∈ items, e.line ≤ d.line → relation e d)
    (after : ∀ e ∈ items, d.line < e.line → relation d e) :
    (insertByLine d items).Pairwise relation := by
  rw [← List.takeWhile_append_dropWhile (p := (·.line ≤ d.line)) (l := items)] at all
  obtain ⟨front, back, across⟩ := List.pairwise_append.mp all
  refine List.pairwise_append.mpr ⟨front, List.pairwise_cons.mpr ⟨fun e late => ?_, back⟩, ?_⟩
  · exact after e ((List.dropWhile_sublist _).subset late) (line_lt_of_mem_dropWhile ordered late)
  · intro a early b listed
    rcases List.mem_cons.mp listed with rfl | late
    · exact before a ((List.takeWhile_sublist _).subset early) (line_le_of_mem_takeWhile early)
    · exact across a early b late

private theorem Ordered.push (ordered : ds.Ordered) (d : Diagnostic) : (ds.push d).Ordered := by
  by_cases held : ds.holds d.line d.message = true
  · rwa [push_of_holds held]
  · rw [push_of_not_holds held]
    exact pairwise_insertByLine ordered ordered (fun _ _ early => early) fun _ _ late => late.le

private theorem Ordered.pushAll (ordered : ds.Ordered) (items : List Diagnostic) :
    (ds.pushAll items).Ordered := by
  induction items generalizing ds with
  | nil => exact ordered
  | cons d items ih => exact ih (ordered.push d)

private theorem ordered_ofList (items : List Diagnostic) : (ofList items).Ordered :=
  Ordered.pushAll .nil items

/-! ### Pushing and extending -/

private theorem insertByLine_comm_of_lt {e : Diagnostic} (less : d.line < e.line)
    (items : List Diagnostic) :
    insertByLine e (insertByLine d items) = insertByLine d (insertByLine e items) := by
  induction items with
  | nil => simp [insertByLine, less, less.le]
  | cons first items ih =>
    rw [insertByLine_cons, insertByLine_cons]
    by_cases low : first.line ≤ d.line
    · rw [if_pos low, if_pos (low.trans less.le), insertByLine_cons, insertByLine_cons,
        if_pos low, if_pos (low.trans less.le), ih]
    · rw [if_neg low, insertByLine_cons, if_pos less.le, insertByLine_cons]
      by_cases middle : first.line ≤ e.line
      · rw [if_pos middle, insertByLine_cons, if_neg low]
      · rw [if_neg middle, insertByLine_cons, if_neg (by omega)]

private theorem insertByLine_comm {e : Diagnostic} (differ : d.line ≠ e.line)
    (items : List Diagnostic) :
    insertByLine e (insertByLine d items) = insertByLine d (insertByLine e items) := by
  rcases Nat.lt_or_gt_of_ne differ with less | greater
  · exact insertByLine_comm_of_lt less items
  · exact (insertByLine_comm_of_lt greater items).symm

/-- Pushes on different lines commute. -/
theorem push_comm {e : Diagnostic} (differ : d.line ≠ e.line) (ds : Diagnostics) :
    (ds.push d).push e = (ds.push e).push d := by
  -- Neither push decides whether the other message is there already.
  have heldE : (ds.push d).holds e.line e.message = true ↔ ds.holds e.line e.message = true := by
    rw [holds_push]
    exact or_iff_left fun same => differ same.1
  have heldD : (ds.push e).holds d.line d.message = true ↔ ds.holds d.line d.message = true := by
    rw [holds_push]
    exact or_iff_left fun same => differ same.1.symm
  by_cases oldD : ds.holds d.line d.message = true
  · rw [push_of_holds oldD, push_of_holds (heldD.mpr oldD)]
  · by_cases oldE : ds.holds e.line e.message = true
    · rw [push_of_holds oldE, push_of_holds (heldE.mpr oldE)]
    · rw [push_of_not_holds (mt heldE.mp oldE), push_of_not_holds (mt heldD.mp oldD),
        push_of_not_holds oldD, push_of_not_holds oldE, insertByLine_comm differ]

private theorem pushAll_push (differ : ∀ e ∈ items, d.line ≠ e.line) (ds : Diagnostics) :
    (ds.push d).pushAll items = (ds.pushAll items).push d := by
  induction items generalizing ds with
  | nil => rfl
  | cons e items ih =>
    obtain ⟨first, later⟩ := List.forall_mem_cons.mp differ
    rw [pushAll_cons, pushAll_cons, push_comm first, ih later]

/-- A push into a set can be made after the set was added to another. -/
theorem extend_push {other : Diagnostics} (ordered : other.Ordered) (ds : Diagnostics)
    (d : Diagnostic) : ds.extend (other.push d) = (ds.extend other).push d := by
  by_cases held : other.holds d.line d.message = true
  · have heldBoth : (ds.extend other).holds d.line d.message = true := by
      obtain ⟨e, member, same⟩ := holds_iff.mp held
      exact holds_pushAll.mpr (.inr ⟨e, member, congrArg Prod.fst same, congrArg Prod.snd same⟩)
    rw [push_of_holds held, push_of_holds heldBoth]
  · have parts := List.takeWhile_append_dropWhile (p := (·.line ≤ d.line)) (l := other.toList)
    have late : ∀ e ∈ other.toList.dropWhile (·.line ≤ d.line), d.line ≠ e.line :=
      fun e member => (line_lt_of_mem_dropWhile ordered member).ne
    rw [push_of_not_holds held, extend, extend, insertByLine, pushAll_append, pushAll_cons,
      pushAll_push late, ← pushAll_append, parts]

/-- Extending by a set repeats the pushes that made it. -/
theorem extend_ofList (ds : Diagnostics) (items : List Diagnostic) :
    ds.extend (ofList items) = ds.pushAll items := by
  induction items using List.reverseRecOn with
  | nil => rfl
  | append_singleton items d ih =>
    have last : ofList (items ++ [d]) = (ofList items).push d := ofList_append items [d]
    rw [last, extend_push (ordered_ofList items), ih, pushAll_append]
    rfl

/-! ### The first of every line and message -/

/-- The place in a list of pushes where the line and the message of a diagnostic came first. -/
def firstPush (pushed : List Diagnostic) (d : Diagnostic) : Nat :=
  pushed.findIdx (·.key = d.key)

variable {pushed : List Diagnostic}

private theorem firstPush_lt_length_iff :
    firstPush pushed d < pushed.length ↔ ∃ e ∈ pushed, e.key = d.key := by
  rw [firstPush, List.findIdx_lt_length]
  simp

private theorem firstPush_append_of_mem (old : ∃ e ∈ pushed, e.key = d.key)
    (more : List Diagnostic) :
    firstPush (pushed ++ more) d = firstPush pushed d := by
  rw [firstPush, List.findIdx_append]
  exact if_pos (firstPush_lt_length_iff.mpr old)

private theorem firstPush_concat_self (new : ¬∃ e ∈ pushed, e.key = d.key) :
    firstPush (pushed ++ [d]) d = pushed.length := by
  have behind : ¬firstPush pushed d < pushed.length := mt firstPush_lt_length_iff.mp new
  rw [firstPush] at behind ⊢
  rw [List.findIdx_append, if_neg behind]
  simp

/-- Whether a diagnostic is the first one pushed of its line and message. -/
def IsFirst (pushed : List Diagnostic) (d : Diagnostic) : Prop :=
  pushed[firstPush pushed d]? = some d

private theorem IsFirst.mem (first : IsFirst pushed d) : d ∈ pushed :=
  List.mem_of_getElem? first

private theorem exists_isFirst (old : ∃ e ∈ pushed, e.key = d.key) :
    ∃ e, IsFirst pushed e ∧ e.key = d.key := by
  have bound := firstPush_lt_length_iff.mpr old
  have same : (pushed.get ⟨_, bound⟩).key = d.key :=
    of_decide_eq_true (List.findIdx_getElem (w := bound))
  refine ⟨pushed.get ⟨_, bound⟩, ?_, same⟩
  rw [IsFirst, firstPush, same]
  exact List.getElem?_eq_getElem bound

/-- A later push is the first of its line and message if no earlier one has them. -/
theorem isFirst_concat {e : Diagnostic} :
    IsFirst (pushed ++ [d]) e ↔
      IsFirst pushed e ∨ e = d ∧ ¬∃ old ∈ pushed, old.key = d.key := by
  by_cases old : ∃ old ∈ pushed, old.key = e.key
  · have bound := firstPush_lt_length_iff.mpr old
    have notNew : ¬(e = d ∧ ¬∃ old ∈ pushed, old.key = d.key) := by
      rintro ⟨rfl, new⟩
      exact new old
    rw [or_iff_left notNew, IsFirst, firstPush_append_of_mem old, List.getElem?_append_left bound]
    rfl
  · have notFirst : ¬IsFirst pushed e := fun first => old ⟨e, first.mem, rfl⟩
    rw [or_iff_right notFirst]
    constructor
    · intro first
      rcases List.mem_append.mp first.mem with early | last
      · exact absurd ⟨e, early, rfl⟩ old
      · obtain rfl := List.mem_singleton.mp last
        exact ⟨rfl, old⟩
    · rintro ⟨rfl, new⟩
      rw [IsFirst, firstPush_concat_self new, List.getElem?_concat_length]

/-! ### What a set holds after a list of pushes -/

/-- Whether a set holds the first diagnostic pushed of every line and message, in line order and
within a line in the order of the pushes. -/
structure Keeps (ds : Diagnostics) (pushed : List Diagnostic) : Prop where
  ordered : ds.Ordered
  kept : ∀ d, d ∈ ds.toList ↔ IsFirst pushed d
  stable : ds.toList.Pairwise fun d e => d.line = e.line → firstPush pushed d < firstPush pushed e

namespace Keeps

private theorem exists_key_iff (keeps : ds.Keeps pushed) {key : Nat × Text} :
    (∃ d ∈ ds.toList, d.key = key) ↔ ∃ d ∈ pushed, d.key = key := by
  constructor
  · rintro ⟨d, member, same⟩
    exact ⟨d, ((keeps.kept d).mp member).mem, same⟩
  · rintro ⟨d, member, same⟩
    obtain ⟨e, first, key⟩ := exists_isFirst ⟨d, member, rfl⟩
    exact ⟨e, (keeps.kept e).mpr first, key.trans same⟩

/-- One push keeps the first of every line and message. -/
theorem push (keeps : ds.Keeps pushed) (d : Diagnostic) : (ds.push d).Keeps (pushed ++ [d]) := by
  have known : ds.holds d.line d.message = true ↔ ∃ e ∈ pushed, e.key = d.key :=
    holds_iff.trans keeps.exists_key_iff
  have earlier : ∀ e ∈ ds.toList, firstPush (pushed ++ [d]) e = firstPush pushed e :=
    fun e member => firstPush_append_of_mem ⟨e, ((keeps.kept e).mp member).mem, rfl⟩ [d]
  have stable : ds.toList.Pairwise fun a b =>
      a.line = b.line → firstPush (pushed ++ [d]) a < firstPush (pushed ++ [d]) b := by
    refine keeps.stable.imp_of_mem fun {a b} left right less => ?_
    rwa [earlier a left, earlier b right]
  refine ⟨keeps.ordered.push d, fun e => ?_, ?_⟩
  · rw [isFirst_concat, ← keeps.kept, ← known]
    by_cases held : ds.holds d.line d.message = true
    · rw [push_of_holds held]
      exact (or_iff_left fun new => new.2 held).symm
    · rw [push_of_not_holds held, mem_insertByLine, and_iff_left held, or_comm]
  · by_cases held : ds.holds d.line d.message = true
    · rwa [push_of_holds held]
    · rw [push_of_not_holds held]
      refine pairwise_insertByLine keeps.ordered stable (fun e member _ _ => ?_)
        fun e _ late same => absurd same late.ne
      rw [firstPush_concat_self (mt known.mpr held), earlier e member]
      exact firstPush_lt_length_iff.mpr ⟨e, ((keeps.kept e).mp member).mem, rfl⟩

end Keeps

private theorem keeps_ofList (pushed : List Diagnostic) : (ofList pushed).Keeps pushed := by
  induction pushed using List.reverseRecOn with
  | nil => exact ⟨.nil, fun d => by simp [ofList, pushAll, empty, IsFirst], .nil⟩
  | append_singleton pushed d ih =>
    rw [ofList_append]
    exact ih.push d

/-- The set of a list holds nothing else. -/
theorem mem_of_mem_ofList (member : d ∈ (ofList items).toList) : d ∈ items :=
  (((keeps_ofList items).kept d).mp member).mem

/-! ### Lines and sizes -/

private theorem mem_distinct {ns : List Nat} : n ∈ distinct ns ↔ n ∈ ns := by
  fun_induction distinct ns with
  | case1 => rfl
  | case2 => rfl
  | case3 m rest ih => simp [ih]
  | case4 m k rest _ ih => rw [List.mem_cons, ih, ← List.mem_cons]

private theorem pairwise_distinct {ns : List Nat} (ascending : ns.Pairwise (· ≤ ·)) :
    (distinct ns).Pairwise (· < ·) := by
  fun_induction distinct ns with
  | case1 => exact .nil
  | case2 => exact List.pairwise_singleton _ _
  | case3 m rest ih => exact ih ascending.of_cons
  | case4 m k rest differ ih =>
    obtain ⟨least, later⟩ := List.pairwise_cons.mp ascending
    refine List.pairwise_cons.mpr ⟨fun i listed => ?_, ih later⟩
    have first := least k List.mem_cons_self
    rcases List.mem_cons.mp (mem_distinct.mp listed) with rfl | rest
    · omega
    · have := (List.pairwise_cons.mp later).1 i rest
      omega

/-- What a set shows of the diagnostics pushed into it. -/
structure Collects (ds : Diagnostics) (pushed : List Diagnostic) : Prop where
  ordered : ds.toList.Pairwise (·.line ≤ ·.line)
  distinct : ds.toList.Pairwise (·.key ≠ ·.key)
  kept : ∀ d, d ∈ ds.toList ↔ IsFirst pushed d
  stable : ds.toList.Pairwise fun d e => d.line = e.line → firstPush pushed d < firstPush pushed e
  lines_ascend : ds.lines.Pairwise (· < ·)
  mem_lines : ∀ n, n ∈ ds.lines ↔ ∃ d ∈ ds.toList, d.line = n
  size_eq : ds.size = (pushed.map Diagnostic.key).toFinset.card
  isEmpty_iff : ds.isEmpty = true ↔ pushed = []

namespace Keeps

private theorem distinct (keeps : ds.Keeps pushed) : ds.toList.Pairwise (·.key ≠ ·.key) := by
  refine keeps.stable.imp fun {a b} less same => ?_
  have before := less (congrArg Prod.fst same)
  rw [firstPush, firstPush, same] at before
  exact absurd before (Nat.lt_irrefl _)

private theorem size_eq (keeps : ds.Keeps pushed) :
    ds.size = (pushed.map Diagnostic.key).toFinset.card := by
  have nodup : (ds.toList.map Diagnostic.key).Nodup := List.pairwise_map.mpr keeps.distinct
  have same : (ds.toList.map Diagnostic.key).toFinset = (pushed.map Diagnostic.key).toFinset := by
    ext key
    simpa using keeps.exists_key_iff
  rw [← same, List.toFinset_card_of_nodup nodup, List.length_map]
  rfl

private theorem isEmpty_iff (keeps : ds.Keeps pushed) : ds.isEmpty = true ↔ pushed = [] := by
  rw [isEmpty, List.isEmpty_iff, List.eq_nil_iff_forall_not_mem, List.eq_nil_iff_forall_not_mem]
  constructor
  · intro none d member
    obtain ⟨e, listed, -⟩ := keeps.exists_key_iff.mpr ⟨d, member, rfl⟩
    exact none e listed
  · intro none d member
    exact none d ((keeps.kept d).mp member).mem

private theorem collects (keeps : ds.Keeps pushed) : ds.Collects pushed where
  ordered := keeps.ordered
  distinct := keeps.distinct
  kept := keeps.kept
  stable := keeps.stable
  lines_ascend := pairwise_distinct (List.pairwise_map.mpr keeps.ordered)
  mem_lines n := by rw [lines, mem_distinct, List.mem_map]
  size_eq := keeps.size_eq
  isEmpty_iff := keeps.isEmpty_iff

end Keeps

/-- Only the set of the empty list is empty. -/
theorem isEmpty_ofList : (ofList items).isEmpty = true ↔ items = [] :=
  (keeps_ofList items).isEmpty_iff

end Diagnostics

/-! ### Runs -/

namespace Diagnostics

/-- How a set came about, the last step outermost. -/
inductive Run where
  /-- A new set. -/
  | start
  /-- One more diagnostic is pushed. -/
  | push (before : Run) (d : Diagnostic)
  /-- The set is extended by another one, which came about in its own way. -/
  | extend (before other : Run)
  /-- The set is replaced by that of a single diagnostic. -/
  | restart (before : Run) (d : Diagnostic)

namespace Run

/-- The set after a run. -/
def result : Run → Diagnostics
  | start => empty
  | push before d => before.result.push d
  | extend before other => before.result.extend other.result
  | restart _ d => ofList [d]

/-- What was pushed since the set was last replaced, an extension counting as the pushes into the
other set. -/
def pushed : Run → List Diagnostic
  | start => []
  | push before d => before.pushed ++ [d]
  | extend before other => before.pushed ++ other.pushed
  | restart _ d => [d]

/-- Every run makes the set of what was pushed. -/
theorem result_eq (run : Run) : run.result = ofList run.pushed := by
  induction run with
  | start => rfl
  | push before d ih => rw [result, pushed, ih, ofList_append]; rfl
  | extend before other left right =>
    rw [result, pushed, left, right, extend_ofList, ofList_append]
  | restart before d => rfl

private theorem extend_assoc (ds : Diagnostics) (second third : Run) :
    (ds.extend second.result).extend third.result =
      ds.extend (second.result.extend third.result) := by
  rw [second.result_eq, third.result_eq, extend_ofList, extend_ofList, extend_ofList,
    ← ofList_append, extend_ofList, pushAll_append]

/-- **A set over any run.** After every run a set shows the first diagnostics pushed, in line order;
extending by a set repeats its pushes, so extending is associative, and pushes on different lines
commute. -/
theorem collects_pushed (run : Run) :
    run.result.Collects run.pushed ∧
      (∀ (ds : Diagnostics) (items : List Diagnostic),
        ds.extend (ofList items) = ds.pushAll items) ∧
      (∀ (ds : Diagnostics) (second third : Run), (ds.extend second.result).extend third.result =
        ds.extend (second.result.extend third.result)) ∧
      ∀ (ds : Diagnostics) (d e : Diagnostic), d.line ≠ e.line →
        (ds.push d).push e = (ds.push e).push d := by
  refine ⟨?_, extend_ofList, extend_assoc, fun ds d e differ => push_comm differ ds⟩
  rw [run.result_eq]
  exact (keeps_ofList run.pushed).collects

/-- A set that is replaced once and extended by one that repeats a message under another kind: the
repetition is dropped, and what is new on the line goes behind what was there. -/
theorem collects_pushed_of_repetition :
    ((ofList [.error .imbalance 7 ")"]).push (.error .collision 2 "args")).extend
        (ofList [.error .format 7 "%", .error .format 7 ")"]) =
      ⟨[.error .collision 2 "args", .error .imbalance 7 ")", .error .format 7 "%"]⟩ ∧
    (((ofList [.error .imbalance 7 ")"]).push (.error .collision 2 "args")).extend
        (ofList [.error .format 7 "%", .error .format 7 ")"])).Collects
      [.error .imbalance 7 ")", .error .collision 2 "args", .error .format 7 "%",
        .error .format 7 ")"] ∧
    (empty.push (.error .imbalance 7 ")")).push (.error .collision 2 "args") =
      (empty.push (.error .collision 2 "args")).push (.error .imbalance 7 ")") := by
  have all := collects_pushed (.extend
    (.push (.restart (.push .start (.error .packaging 9 "jar")) (.error .imbalance 7 ")"))
      (.error .collision 2 "args"))
    (.push (.push .start (.error .format 7 "%")) (.error .format 7 ")")))
  exact ⟨by decide +kernel, all.1, all.2.2.2 empty _ _ (by decide)⟩

end Run

end Diagnostics

end ScriptLoom
