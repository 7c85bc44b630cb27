import Mathlib.Data.List.Infix
import Mathlib.Data.List.Nodup

/-! # Lists

Facts about lists that are not about texts or programs: cutting at separators and joining, taking up
to an item, and what is gathered from the items of a list.
-/

namespace ScriptLoom

variable {α β : Type}

/-! ### Separators -/

/-- Induction on the separators of a list: it has none, or is cut at one of them. -/
theorem separator_induction (separates : α → Bool) {motive : List α → Prop}
    (whole : ∀ xs, (∀ x ∈ xs, separates x = false) → motive xs)
    (cut : ∀ xs x ys, separates x = true → motive xs → motive ys → motive (xs ++ x :: ys))
    (xs : List α) : motive xs := by
  induction size : xs.length using Nat.strong_induction_on generalizing xs with
  | _ n ih =>
    by_cases separator : ∃ x ∈ xs, separates x = true
    · obtain ⟨x, member, holds⟩ := separator
      obtain ⟨front, back, rfl⟩ := List.append_of_mem member
      rw [List.length_append, List.length_cons] at size
      exact cut front x back holds (ih _ (by omega) front rfl) (ih _ (by omega) back rfl)
    · exact whole xs (by simpa using separator)

/-- The parts between separators hold none. -/
theorem separates_of_mem_splitOnP {separates : α → Bool} {xs part : List α}
    (member : part ∈ xs.splitOnP separates) : ∀ x ∈ part, separates x = false := by
  induction xs using separator_induction separates with
  | whole xs none =>
    rw [List.splitOnP_eq_singleton none, List.mem_singleton] at member
    exact member ▸ none
  | cut front x back holds left right =>
    rw [List.splitOnP_append_cons front back holds, List.mem_append] at member
    rcases member with inFront | inBack
    · exact left inFront
    · exact right inBack

/-- The parts between the places of an item do not hold it. -/
theorem not_mem_of_mem_splitOn [BEq α] [LawfulBEq α] {c : α} {xs part : List α}
    (member : part ∈ xs.splitOn c) : c ∉ part := by
  intro inside
  have other := separates_of_mem_splitOnP member c inside
  simp at other

/-- The parts between separators are parts of the list. -/
theorem isInfix_of_mem_splitOnP {separates : α → Bool} {xs part : List α}
    (member : part ∈ xs.splitOnP separates) : part <:+: xs := by
  induction xs using separator_induction separates with
  | whole xs none =>
    rw [List.splitOnP_eq_singleton none, List.mem_singleton] at member
    exact member ▸ List.infix_rfl
  | cut front x back holds left right =>
    rw [List.splitOnP_append_cons front back holds, List.mem_append] at member
    rcases member with inFront | inBack
    · exact (left inFront).trans (List.prefix_append _ _).isInfix
    · exact (right inBack).trans
        ((List.suffix_cons x back).trans (List.suffix_append front _)).isInfix

/-- What adds up over a cut at a separator adds up over all cuts. -/
theorem flatMap_splitOnP {separates : α → Bool} {f : List α → List β}
    (cut : ∀ xs x ys, separates x = true → f (xs ++ x :: ys) = f xs ++ f ys) (xs : List α) :
    (xs.splitOnP separates).flatMap f = f xs := by
  induction xs using separator_induction separates with
  | whole xs none =>
    rw [List.splitOnP_eq_singleton none]
    simp
  | cut front x back holds left right =>
    rw [List.splitOnP_append_cons front back holds, List.flatMap_append, left, right,
      cut front x back holds]

/-- A part that is joined with others is a part of the result. -/
theorem isInfix_intercalate (separator : List α) {part : List α} {parts : List (List α)}
    (member : part ∈ parts) : part <:+: List.intercalate separator parts := by
  induction parts with
  | nil => cases member
  | cons first parts ih =>
    cases parts with
    | nil =>
      obtain rfl := List.mem_singleton.mp member
      exact ⟨[], [], by simp [List.intercalate_singleton]⟩
    | cons next parts =>
      rw [List.intercalate_cons_cons]
      rcases List.mem_cons.mp member with rfl | later
      · rw [List.append_assoc]
        exact (List.prefix_append _ _).isInfix
      · exact (ih later).trans (List.suffix_append _ _).isInfix

/-- Parts that are joined are joined in two halves with a separator between them. -/
theorem intercalate_append {separator : List α} {left right : List (List α)}
    (some : left ≠ []) (some' : right ≠ []) :
    List.intercalate separator (left ++ right) =
      List.intercalate separator left ++ separator ++ List.intercalate separator right := by
  induction left with
  | nil => exact absurd rfl some
  | cons part left ih =>
    have more : left ++ right ≠ [] := List.append_ne_nil_of_right_ne_nil _ some'
    rw [List.cons_append, List.intercalate_cons_of_ne_nil more]
    cases left with
    | nil => simp [List.intercalate_singleton]
    | cons next left =>
      rw [ih (by simp), List.intercalate_cons_cons]
      simp only [List.append_assoc]

/-- What is put before the first of some parts is before all of them when they are joined. -/
theorem intercalate_modifyHead {separator more : List α} {parts : List (List α)}
    (nonempty : parts ≠ []) :
    List.intercalate separator (parts.modifyHead (more ++ ·)) =
      more ++ List.intercalate separator parts := by
  cases parts with
  | nil => exact absurd rfl nonempty
  | cons part parts =>
    cases parts with
    | nil => simp [List.intercalate_singleton]
    | cons next parts => simp [List.intercalate_cons_cons]

/-- To put nothing before the first part changes nothing. -/
theorem modifyHead_nil_append (parts : List (List α)) : parts.modifyHead ([] ++ ·) = parts :=
  congrFun List.modifyHead_id parts

/-- A property that is kept by a change holds of all items after a change of the first. -/
theorem forall_mem_modifyHead {property : α → Prop} {change : α → α} {items : List α}
    (each : ∀ item ∈ items, property item) (kept : ∀ item, property item → property (change item)) :
    ∀ item ∈ items.modifyHead change, property item := by
  cases items with
  | nil => simp
  | cons first items =>
    intro item member
    rcases List.mem_cons.mp member with rfl | later
    · exact kept first (each first List.mem_cons_self)
    · exact each item (List.mem_cons_of_mem _ later)

/-! ### Up to an item -/

section UpTo

variable [DecidableEq α]

/-- All of a list without an item is taken up to that item. -/
theorem takeWhile_append_of_not_mem {s : List α} {c : α} (absent : c ∉ s) (t : List α) :
    (s ++ t).takeWhile (· ≠ c) = s ++ t.takeWhile (· ≠ c) := by
  apply List.takeWhile_append_of_pos
  intro d member
  simpa using fun same : d = c => absent (same ▸ member)

/-- Nothing is taken from behind a list that has the item. -/
theorem takeWhile_append_of_mem {s : List α} {c : α} (member : c ∈ s) (t : List α) :
    (s ++ t).takeWhile (· ≠ c) = s.takeWhile (· ≠ c) := by
  obtain ⟨before, after, rfl, absent⟩ := List.eq_append_cons_of_mem member
  rw [List.append_assoc, takeWhile_append_of_not_mem absent, takeWhile_append_of_not_mem absent]
  simp

/-- The first place of an item divides a list in one way. -/
theorem eq_of_append_cons {s s' t t' : List α} {c : α} (absent : c ∉ s) (absent' : c ∉ s')
    (same : s ++ c :: t = s' ++ c :: t') : s = s' ∧ t = t' := by
  have stops : ∀ u : List α, (c :: u).takeWhile (· ≠ c) = [] := by simp
  have front := congrArg (List.takeWhile (· ≠ c)) same
  rw [takeWhile_append_of_not_mem absent, takeWhile_append_of_not_mem absent', stops, stops,
    List.append_nil, List.append_nil] at front
  subst front
  exact ⟨rfl, (List.cons.inj (List.append_cancel_left same)).2⟩

end UpTo

/-- The items of an ascending list up to a bound are its first ones. -/
theorem filter_isPrefix_of_pairwise {key : α → Nat} {items : List α}
    (ascending : items.Pairwise (key · < key ·)) (bound : Nat) :
    items.filter (key · ≤ bound) <+: items := by
  induction items with
  | nil => exact List.prefix_rfl
  | cons item items ih =>
    obtain ⟨later, ascending⟩ := List.pairwise_cons.mp ascending
    by_cases within : key item ≤ bound
    · rw [List.filter_cons_of_pos (by simpa using within)]
      exact List.cons_prefix_cons.mpr ⟨rfl, ih ascending⟩
    · rw [List.filter_cons_of_neg (by simpa using within), List.filter_eq_nil_iff.mpr]
      · exact List.nil_prefix
      · intro other member
        have := later other member
        simp only [decide_eq_true_eq]
        omega

/-- A number that as many items are below as there are early ones divides the early items from the
late ones. -/
theorem divides_of_count {early late : List Nat} {bound offset : Nat}
    (below : ∀ i ∈ early, i < bound) (above : ∀ i ∈ late, bound ≤ i)
    (count : ((early ++ late).filter (· < offset)).length = early.length) :
    (∀ i ∈ early, i < offset) ∧ ∀ i ∈ late, offset ≤ i := by
  rw [List.filter_append, List.length_append] at count
  have passed : ∀ i ∈ early, i < offset := by
    by_contra! missing
    obtain ⟨i, member, notPassed⟩ := missing
    have none : late.filter (· < offset) = [] := by
      rw [List.filter_eq_nil_iff]
      intro j listed
      have := below i member
      have := above j listed
      rw [decide_eq_true_eq]
      omega
    rw [none, List.length_nil, Nat.add_zero, List.length_filter_eq_length_iff] at count
    have := of_decide_eq_true (count i member)
    omega
  refine ⟨passed, ?_⟩
  have kept : early.filter (· < offset) = early :=
    List.filter_eq_self.mpr fun i member => decide_eq_true (passed i member)
  have dropped : late.filter (· < offset) = [] := by
    rw [kept] at count
    exact List.length_eq_zero_iff.mp (by omega)
  intro i member
  have notPassed := List.filter_eq_nil_iff.mp dropped i member
  rw [decide_eq_true_eq] at notPassed
  omega

/-! ### What is gathered from the items -/

private theorem length_flatMap_le {f g : α → List β} {xs : List α}
    (le : ∀ x ∈ xs, (f x).length ≤ (g x).length) :
    (xs.flatMap f).length ≤ (xs.flatMap g).length := by
  induction xs with
  | nil => exact Nat.le_refl _
  | cons x xs ih =>
    obtain ⟨first, later⟩ := List.forall_mem_cons.mp le
    rw [List.flatMap_cons, List.flatMap_cons, List.length_append, List.length_append]
    exact Nat.add_le_add first (ih later)

/-- Lists made of parts, none of them longer than its counterpart, are equal if all parts are. -/
theorem flatMap_eq_flatMap_iff {f g : α → List β} {xs : List α}
    (le : ∀ x ∈ xs, (f x).length ≤ (g x).length) :
    xs.flatMap f = xs.flatMap g ↔ ∀ x ∈ xs, f x = g x := by
  induction xs with
  | nil => simp
  | cons x xs ih =>
    obtain ⟨first, later⟩ := List.forall_mem_cons.mp le
    have total := length_flatMap_le later
    rw [List.flatMap_cons, List.flatMap_cons, List.forall_mem_cons, ← ih later]
    constructor
    · intro same
      have lengths := congrArg List.length same
      rw [List.length_append, List.length_append] at lengths
      exact List.append_inj same (by omega)
    · rintro ⟨head, rest⟩
      rw [head, rest]

/-- What is gathered from lists depends on their items place by place. -/
theorem filterMap_eq_of_getElem? {f g : α → Option β} {xs ys : List α}
    (same : ∀ i : Nat, xs[i]?.bind f = ys[i]?.bind g) : xs.filterMap f = ys.filterMap g := by
  have nothing : ∀ {f : α → Option β} {xs : List α}, (∀ i : Nat, xs[i]?.bind f = none) →
      xs.filterMap f = [] := by
    intro f xs none
    refine List.filterMap_eq_nil_iff.mpr fun x member => ?_
    obtain ⟨i, listed⟩ := List.mem_iff_getElem?.mp member
    simpa [listed] using none i
  induction xs generalizing ys with
  | nil => exact (nothing fun i => (same i).symm).symm
  | cons x xs ih =>
    cases ys with
    | nil => exact nothing same
    | cons y ys =>
      have first : f x = g y := same 0
      rw [List.filterMap_cons, List.filterMap_cons, first, ih fun i => same (i + 1)]

/-- A test of all items but that of a number outside is a test of all items. -/
theorem any_zipIdx_ne {p : α → Bool} {n : Nat} (xs : List α) {start : Nat}
    (apart : n < start ∨ start + xs.length ≤ n) :
    ((xs.zipIdx start).any fun entry => entry.2 != n && p entry.1) = xs.any p := by
  induction xs generalizing start with
  | nil => rfl
  | cons x xs ih =>
    rw [List.length_cons] at apart
    have other : (start != n) = true := by rw [bne_iff_ne]; omega
    rw [List.zipIdx_cons, List.any_cons, List.any_cons, ih (by omega), other, Bool.true_and]

section Keys

variable [DecidableEq β] {key : α → β} {items others : List α}

private theorem length_filter_key_le (distinct : (items.map key).Nodup) (k : β) :
    (items.filter (key · = k)).length ≤ 1 := by
  have same : (items.filter (key · = k)).map key =
      List.replicate (items.filter (key · = k)).length k := by
    rw [List.eq_replicate_iff]
    refine ⟨List.length_map _, fun other member => ?_⟩
    obtain ⟨item, kept, rfl⟩ := List.mem_map.mp member
    exact of_decide_eq_true (List.mem_filter.mp kept).2
  have few : ((items.filter (key · = k)).map key).Nodup :=
    distinct.sublist (List.filter_sublist.map key)
  rw [same] at few
  exact List.nodup_replicate.mp few

/-- Where keys are distinct, the order of the items does not tell which one has a key. -/
theorem filter_key_eq_of_perm (perm : items.Perm others) (distinct : (items.map key).Nodup)
    (k : β) : items.filter (key · = k) = others.filter (key · = k) := by
  have few := length_filter_key_le distinct k
  have found := perm.filter (key · = k)
  cases kept : items.filter (key · = k) with
  | nil =>
    rw [kept] at found
    exact found.nil_eq
  | cons item rest =>
    rw [kept, List.length_cons] at few
    obtain rfl : rest = [] := List.length_eq_zero_iff.mp (by omega)
    rw [kept] at found
    exact List.singleton_perm.mp found

end Keys

/-! ### Repetitions -/

/-- An item behind a list is new to it, or is left out with the repetitions. -/
theorem eraseDups_concat [BEq α] [LawfulBEq α] (items : List α) (item : α) :
    (items ++ [item]).eraseDups =
      if item ∈ items.eraseDups then items.eraseDups else items.eraseDups ++ [item] := by
  rw [List.eraseDups_append]
  by_cases known : item ∈ items <;> simp [List.removeAll, List.eraseDups_cons, known]

/-- Without its repetitions a list holds each item once. -/
theorem nodup_eraseDups [BEq α] [LawfulBEq α] (items : List α) : items.eraseDups.Nodup := by
  induction items using List.reverseRecOn with
  | nil => exact List.nodup_nil
  | append_singleton items item ih =>
    rw [eraseDups_concat]
    split
    · exact ih
    · next new =>
      rw [← List.concat_eq_append]
      exact ih.concat new

end ScriptLoom
