import ScriptLoom.Proofs.FormatCall

/-! # Filling in the placeholders of a literal

A call is expanded into its literal with one substitution behind it for each argument. A
substitution puts a value in place of the first placeholder `%s` of the text that the chain before
it yields (`Text.replaceFirst`), while the call stands for the literal with its placeholders filled
in by the values one by one (`Text.fill`). The two agree as long as every substitution finds the
placeholder that its value is for. A placeholder that comes with an earlier value, or that a value
completes, is found first; so they agree for all values of the last argument exactly if the text up
to the last placeholder has none once the earlier values are filled in
(`Text.forall_foldl_replaceFirst_eq_fill_iff`).
-/

namespace ScriptLoom

namespace Text

/-! ### Placeholders -/

/-- The parts of a text before and after its first placeholder. -/
def cutPlaceholder? : Text → Option (Text × Text)
  | [] => none
  | '%' :: 's' :: t => some ([], t)
  | c :: t => (cutPlaceholder? t).map fun parts => (c :: parts.1, parts.2)

/-- The number of placeholders of a text. -/
def placeholders : Text → Nat
  | [] => 0
  | '%' :: 's' :: t => placeholders t + 1
  | _ :: t => placeholders t

/-- A text with a value in place of its first placeholder. -/
def replaceFirst (s value : Text) : Text :=
  match cutPlaceholder? s with
  | some (before, after) => before ++ value ++ after
  | none => s

/-- A text with its placeholders filled in by values, the first one by the first value and so on;
placeholders without a value stay. -/
def fill : Text → List Text → Text
  | s, [] => s
  | s, value :: values =>
    match cutPlaceholder? s with
    | some (before, after) => before ++ value ++ fill after values
    | none => s

/-- What stands before the first placeholder that is left when placeholders are filled in. -/
def filledFront : Text → List Text → Text
  | s, [] =>
    match cutPlaceholder? s with
    | some (before, _) => before
    | none => s
  | s, value :: values =>
    match cutPlaceholder? s with
    | some (before, after) => before ++ value ++ filledFront after values
    | none => s

/-- What holds of the empty text, and of a text with a placeholder or another character in front if
it holds of the text, holds of every text. -/
theorem placeholder_induction {motive : Text → Prop} (nil : motive [])
    (placeholder : ∀ t, motive t → motive ('%' :: 's' :: t))
    (other : ∀ c t, ¬(c = '%' ∧ t.head? = some 's') → motive t → motive (c :: t)) (s : Text) :
    motive s := by
  fun_induction placeholders s with
  | case1 => exact nil
  | case2 t ih => exact placeholder t ih
  | case3 c t apart ih =>
    refine other c t ?_ ih
    rintro ⟨rfl, start⟩
    obtain ⟨t', rfl⟩ := List.head?_eq_some_iff.mp start
    exact apart t' rfl rfl

section Cons

variable {c : Char} {t : Text} (apart : ¬(c = '%' ∧ t.head? = some 's'))

include apart

private theorem cutPlaceholder?_cons :
    cutPlaceholder? (c :: t) =
      (cutPlaceholder? t).map fun parts => (c :: parts.1, parts.2) := by
  rw [cutPlaceholder?]
  rintro t' rfl rfl
  exact apart ⟨rfl, rfl⟩

private theorem placeholders_cons : placeholders (c :: t) = placeholders t := by
  rw [placeholders]
  rintro t' rfl rfl
  exact apart ⟨rfl, rfl⟩

end Cons

private theorem cutPlaceholder?_eq_none_iff
    {s : Text} : cutPlaceholder? s = none ↔ placeholders s = 0 := by
  induction s using placeholder_induction with
  | nil => simp [cutPlaceholder?, placeholders]
  | placeholder t => simp [cutPlaceholder?, placeholders]
  | other c t apart ih =>
    rw [cutPlaceholder?_cons apart, placeholders_cons apart, Option.map_eq_none_iff, ih]

/-- Where one text meets another a placeholder can arise. -/
theorem placeholders_append_eq_zero_iff {s t : Text} :
    placeholders (s ++ t) = 0 ↔ placeholders s = 0 ∧ placeholders t = 0 ∧
      ¬(s.getLast? = some '%' ∧ t.head? = some 's') := by
  induction s using placeholder_induction with
  | nil => simp [placeholders]
  | placeholder s ih => simp [placeholders]
  | other c s apart ih =>
    cases s with
    | nil =>
      by_cases meet : c = '%' ∧ t.head? = some 's'
      · obtain ⟨rfl, start⟩ := meet
        obtain ⟨t', rfl⟩ := List.head?_eq_some_iff.mp start
        simp [placeholders]
      · rw [List.singleton_append, placeholders_cons meet, placeholders_cons apart]
        simpa [placeholders] using fun _ => not_and.mp meet
    | cons d s =>
      have apart' : ¬(c = '%' ∧ (d :: s ++ t).head? = some 's') := apart
      rw [List.cons_append, placeholders_cons apart', placeholders_cons apart, ih,
        List.getLast?_cons_cons]

/-- A percent sign behind a text completes no placeholder of it. -/
theorem head?_append_sign {t rest : Text} :
    (t ++ '%' :: rest).head? = some 's' ↔ t.head? = some 's' := by
  cases t <;> simp

/-- A placeholder adds one, whatever stands around it. -/
theorem placeholders_append_placeholder (before after : Text) :
    placeholders (before ++ '%' :: 's' :: after) =
      placeholders before + placeholders after + 1 := by
  induction before using placeholder_induction with
  | nil => simp [placeholders]
  | placeholder t ih => simp only [List.cons_append, placeholders, ih]; omega
  | other c t apart ih =>
    rw [List.cons_append, placeholders_cons (by rwa [head?_append_sign]), placeholders_cons apart,
      ih]

/-- The first placeholder of a text is the one that has none before it. -/
theorem cutPlaceholder?_eq_some_iff {s before after : Text} :
    cutPlaceholder? s = some (before, after) ↔
      s = before ++ '%' :: 's' :: after ∧ placeholders before = 0 := by
  constructor
  · intro cut
    induction s using placeholder_induction generalizing before with
    | nil => cases cut
    | placeholder t => cases cut; exact ⟨rfl, rfl⟩
    | other c t apart ih =>
      rw [cutPlaceholder?_cons apart, Option.map_eq_some_iff] at cut
      obtain ⟨⟨front, rest⟩, cut, equal⟩ := cut
      cases equal
      obtain ⟨rfl, none⟩ := ih cut
      exact ⟨rfl, (placeholders_cons (by rwa [head?_append_sign] at apart)).trans none⟩
  · rintro ⟨rfl, none⟩
    induction before using placeholder_induction with
    | nil => rfl
    | placeholder t => cases none
    | other c t apart ih =>
      rw [placeholders_cons apart] at none
      rw [List.cons_append, cutPlaceholder?_cons (by rwa [head?_append_sign]), ih none]
      rfl

/-! ### Filling in -/

section Fill

variable {s before after : Text} (none : placeholders before = 0)

include none

private theorem replaceFirst_append (value : Text) :
    replaceFirst (before ++ '%' :: 's' :: after) value = before ++ value ++ after := by
  rw [replaceFirst, cutPlaceholder?_eq_some_iff.mpr ⟨rfl, none⟩]

private theorem fill_append_cons (value : Text) (values : List Text) :
    fill (before ++ '%' :: 's' :: after) (value :: values) =
      before ++ value ++ fill after values := by
  rw [fill, cutPlaceholder?_eq_some_iff.mpr ⟨rfl, none⟩]

private theorem filledFront_append_nil : filledFront (before ++ '%' :: 's' :: after)
    [] = before := by
  rw [filledFront, cutPlaceholder?_eq_some_iff.mpr ⟨rfl, none⟩]

private theorem filledFront_append_cons (value : Text) (values : List Text) :
    filledFront (before ++ '%' :: 's' :: after) (value :: values) =
      before ++ value ++ filledFront after values := by
  rw [filledFront, cutPlaceholder?_eq_some_iff.mpr ⟨rfl, none⟩]

end Fill

/-- A text with a placeholder, cut at the first one. -/
theorem exists_placeholder {s : Text} (some : 0 < placeholders s) :
    ∃ before after, s = before ++ '%' :: 's' :: after ∧ placeholders before = 0 ∧
      placeholders s = placeholders after + 1 := by
  cases cut : cutPlaceholder? s with
  | none =>
    have absent := cutPlaceholder?_eq_none_iff.mp cut
    omega
  | some parts =>
    obtain ⟨rfl, absent⟩ := cutPlaceholder?_eq_some_iff.mp cut
    refine ⟨_, _, rfl, absent, ?_⟩
    rw [placeholders_append_placeholder]
    omega

/-- Induction along the placeholders that values are for, with one placeholder left behind them. -/
theorem filling_induction {motive : Text → List Text → Prop}
    (left : ∀ {before} after, placeholders before = 0 →
      motive (before ++ '%' :: 's' :: after) [])
    (filled : ∀ {before after values} value, placeholders before = 0 → motive after values →
      motive (before ++ '%' :: 's' :: after) (value :: values))
    {s : Text} {values : List Text} (enough : values.length < placeholders s) :
    motive s values := by
  induction values generalizing s with
  | nil =>
    obtain ⟨before, after, rfl, absent, -⟩ := exists_placeholder enough
    exact left after absent
  | cons value values ih =>
    rw [List.length_cons] at enough
    obtain ⟨before, after, rfl, absent, count⟩ := exists_placeholder (Nat.zero_lt_of_lt enough)
    exact filled value absent (ih (by omega))

/-- With values for some of the placeholders, the first one that is left stands behind the filled
front, and filling it in changes nothing else. -/
theorem exists_fill_eq {s : Text} {values : List Text} (enough : values.length < placeholders s) :
    ∃ rest, fill s values = filledFront s values ++ '%' :: 's' :: rest ∧
      ∀ value, fill s (values ++ [value]) = filledFront s values ++ value ++ rest := by
  refine filling_induction (motive := fun s values => ∃ rest,
    fill s values = filledFront s values ++ '%' :: 's' :: rest ∧
      ∀ value, fill s (values ++ [value]) = filledFront s values ++ value ++ rest) ?_ ?_ enough
  · intro before after absent
    refine ⟨after, ?_, fun value => ?_⟩
    · rw [filledFront_append_nil absent]
      rfl
    · rw [filledFront_append_nil absent, List.nil_append, fill_append_cons absent]
      rfl
  · rintro before after values first absent ⟨rest, filled, next⟩
    refine ⟨rest, ?_, fun value => ?_⟩
    · rw [fill_append_cons absent, filledFront_append_cons absent, filled]
      simp only [List.append_assoc]
    · rw [List.cons_append, fill_append_cons absent, filledFront_append_cons absent, next]
      simp only [List.append_assoc]

/-- The filled front grows with every value. -/
theorem filledFront_isPrefix {s : Text} {values : List Text}
    (enough : values.length < placeholders s) (value : Text) :
    filledFront s values <+: filledFront s (values ++ [value]) := by
  refine filling_induction
    (motive := fun s values => filledFront s values <+: filledFront s (values ++ [value])) ?_ ?_
    enough
  · intro before after absent
    rw [filledFront_append_nil absent, List.nil_append, filledFront_append_cons absent,
      List.append_assoc]
    exact List.prefix_append _ _
  · intro before after values first absent shorter
    rw [List.cons_append, filledFront_append_cons absent, filledFront_append_cons absent]
    exact (List.prefix_append_right_inj _).mpr shorter

/-- The values go to their places one after the other as long as no placeholder stands before the
one that is to be filled in. -/
theorem foldl_replaceFirst_eq_fill {s : Text} {values : List Text}
    (enough : values.length < placeholders s) (clear : placeholders (filledFront s values) = 0) :
    values.foldl replaceFirst s = fill s values ∧
      ∀ value, (values ++ [value]).foldl replaceFirst s = fill s (values ++ [value]) := by
  -- The condition on the last front includes those on all earlier ones, which are its beginnings.
  have reached : values.foldl replaceFirst s = fill s values := by
    induction values using List.reverseRecOn with
    | nil => rfl
    | append_singleton values value ih =>
      have fewer : values.length < placeholders s := by
        rw [List.length_append, List.length_singleton] at enough
        omega
      obtain ⟨more, longer⟩ := filledFront_isPrefix fewer value
      rw [← longer, placeholders_append_eq_zero_iff] at clear
      obtain ⟨rest, filled, next⟩ := exists_fill_eq fewer
      rw [List.foldl_append, ih fewer clear.1, filled, next]
      exact replaceFirst_append clear.1 value
  obtain ⟨rest, filled, next⟩ := exists_fill_eq enough
  refine ⟨reached, fun value => ?_⟩
  rw [List.foldl_append, reached, filled, next]
  exact replaceFirst_append clear value

/-- A text that is put into two others at all times alike stands behind the same text. -/
theorem eq_of_forall_append_eq {s s' t t' : Text}
    (same : ∀ u : Text, s ++ u ++ t = s' ++ u ++ t') : s = s' := by
  have place : ∀ {s s' t t' : Text}, (∀ u : Text, s ++ u ++ t = s' ++ u ++ t') →
      s'.length ≤ s.length := by
    intro s s' t t' same
    by_contra shorter
    have at_ : ∀ c : Char, s'[s.length]? = some c := by
      intro c
      have left : (s ++ [c] ++ t)[s.length]? = some c := by simp
      have right : (s' ++ ([c] ++ t'))[s.length]? = s'[s.length]? :=
        List.getElem?_append_left (Nat.lt_of_not_le shorter)
      rw [← right, ← List.append_assoc, ← same, left]
    have clash := (at_ 'a').symm.trans (at_ 'b')
    exact absurd (Option.some.inj clash) (by decide)
  have length : s.length = s'.length :=
    Nat.le_antisymm (place fun u => (same u).symm) (place same)
  have whole := same []
  simp only [List.append_assoc] at whole
  exact (List.append_inj whole length).1

/-- A chain of substitutions fills in a text in order, whatever the last value is, exactly if no
placeholder comes before the last one with the earlier values. -/
theorem forall_foldl_replaceFirst_eq_fill_iff {s : Text} {values : List Text}
    (enough : values.length < placeholders s) :
    (∀ value, (values ++ [value]).foldl replaceFirst s = fill s (values ++ [value])) ↔
      placeholders (filledFront s values) = 0 := by
  constructor
  · intro inOrder
    obtain ⟨rest, -, next⟩ := exists_fill_eq enough
    simp only [next, List.foldl_append, List.foldl_cons, List.foldl_nil] at inOrder
    cases cut : cutPlaceholder? (values.foldl replaceFirst s) with
    | none =>
      -- A substitution that finds nothing would not depend on its value.
      simp only [replaceFirst, cut] at inOrder
      have lengths := congrArg List.length ((inOrder []).symm.trans (inOrder ['%']))
      simp at lengths
    | some parts =>
      obtain ⟨before, after⟩ := parts
      simp only [replaceFirst, cut] at inOrder
      rw [← eq_of_forall_append_eq inOrder]
      exact (cutPlaceholder?_eq_some_iff.mp cut).2
  · exact fun clear => (foldl_replaceFirst_eq_fill enough clear).2

private theorem placeholders_of_not_mem {t : Text} (absent : '%' ∉ t) : placeholders t = 0 := by
  induction t with
  | nil => rfl
  | cons c t ih =>
    rw [List.mem_cons, not_or] at absent
    rw [placeholders_cons fun sign => absent.1 sign.1.symm, ih absent.2]

/-- Values without percent signs bring no placeholder into a text without `%%s`. -/
theorem placeholders_filledFront {s : Text} {values : List Text}
    (enough : values.length < placeholders s) :
    (∀ value ∈ values, '%' ∉ value) → ¬['%', '%', 's'] <:+: s →
      placeholders (filledFront s values) = 0 := by
  refine filling_induction (motive := fun s values => (∀ value ∈ values, '%' ∉ value) →
    ¬['%', '%', 's'] <:+: s → placeholders (filledFront s values) = 0) ?_ ?_ enough
  · intro before after absent _ _
    rwa [filledFront_append_nil absent]
  · intro before after values first absent ih unsigned apart
    rw [List.forall_mem_cons] at unsigned
    have unended : before.getLast? ≠ some '%' := by
      intro ends
      obtain ⟨start, rfl⟩ := List.getLast?_eq_some_iff.mp ends
      exact apart ⟨start, after, by simp⟩
    have unended' : (before ++ first).getLast? ≠ some '%' := by
      intro ends
      rw [List.getLast?_append, Option.or_eq_some_iff] at ends
      rcases ends with ends | ⟨-, ends⟩
      · exact unsigned.1 (List.mem_of_getLast? ends)
      · exact unended ends
    have later : placeholders (filledFront after values) = 0 :=
      ih unsigned.2 fun inner => apart (inner.trans ⟨before ++ ['%', 's'], [], by simp⟩)
    rw [filledFront_append_cons absent, placeholders_append_eq_zero_iff,
      placeholders_append_eq_zero_iff]
    exact ⟨⟨absent, placeholders_of_not_mem unsigned.1, fun meet => unended meet.1⟩, later,
      fun meet => unended' meet.1⟩

end Text

/-! ### Expanded calls -/

namespace FormatCall

/-- An expanded call: a literal, and the substitutions behind it. -/
inductive Chain where
  | literal (token : Text)
  | substitute (target : Chain) (argument : Text)

namespace Chain

/-- How an expanded call is written. -/
def text : Chain → Text
  | .literal token => token
  | .substitute target argument => target.text ++ substitution argument

/-- What an expanded call evaluates to. The values of the literal and of the arguments, as the texts
that they are turned into, are those that `operand` says; a substitution replaces the first
placeholder in the value of what it is called on. -/
inductive Yields (operand : Text → Text → Prop) : Chain → Text → Prop
  | literal {token s : Text} (value : operand token s) : Yields operand (.literal token) s
  | substitute {target : Chain} {argument s v : Text} (before : Yields operand target s)
      (value : operand argument v) : Yields operand (.substitute target argument) (s.replaceFirst v)

/-- The expansion of a call with a literal and arguments. -/
def ofCall (token : Text) (arguments : List Text) : Chain :=
  arguments.foldl .substitute (.literal token)

private theorem text_foldl_substitute (chain : Chain) (arguments : List Text) :
    (arguments.foldl .substitute chain).text = chain.text ++ arguments.flatMap substitution := by
  induction arguments generalizing chain with
  | nil => simp
  | cons argument arguments ih =>
    rw [List.foldl_cons, ih, text, List.flatMap_cons, List.append_assoc]

/-- The values of the arguments are substituted one after the other. -/
theorem yields_foldl_substitute_iff {operand : Text → Text → Prop} {chain : Chain} {result : Text}
    {arguments : List Text} :
    (arguments.foldl .substitute chain).Yields operand result ↔
      ∃ s values, chain.Yields operand s ∧ List.Forall₂ operand arguments values ∧
        result = values.foldl Text.replaceFirst s := by
  induction arguments generalizing chain with
  | nil =>
    constructor
    · intro yields
      exact ⟨result, [], yields, .nil, rfl⟩
    · rintro ⟨s, values, yields, each, rfl⟩
      cases each
      exact yields
  | cons argument arguments ih =>
    rw [List.foldl_cons, ih]
    constructor
    · rintro ⟨s, values, yields, each, rfl⟩
      cases yields with
      | substitute before value => exact ⟨_, _ :: values, before, .cons value each, rfl⟩
    · rintro ⟨s, values, yields, each, rfl⟩
      cases each with
      | cons value each => exact ⟨_, _, .substitute yields value, each, rfl⟩

private theorem yields_ofCall_iff {operand : Text → Text → Prop} {token result : Text}
    {arguments : List Text} :
    (ofCall token arguments).Yields operand result ↔
      ∃ s values, operand token s ∧ List.Forall₂ operand arguments values ∧
        result = values.foldl Text.replaceFirst s := by
  rw [ofCall, yields_foldl_substitute_iff]
  constructor
  · rintro ⟨s, values, yields, each, rfl⟩
    cases yields with
    | literal value => exact ⟨s, values, value, each, rfl⟩
  · rintro ⟨s, values, value, each, rfl⟩
    exact ⟨s, values, .literal value, each, rfl⟩

end Chain

/-- The expansion of a call puts its chain of substitutions in place of the call, and the chain
substitutes the values of the arguments one after the other. This fills in the placeholders of the
literal in order, whatever the last value is, exactly if no placeholder comes before the last one
with the earlier values; and none does if these have no percent sign and the literal has no
`%%s`. -/
theorem chain_fills_in_order_iff {t : Text} {call : FormatCall} {inside after : List Piece}
    (found : find? t.pieces = some call)
    (closes : splitAtClose? '(' ')' 0 call.rest = some (inside, after)) :
    ∃ before token, before ++ [.region .string token true] <+: t.pieces ∧
      call.literal = spell before ++ token ∧
      t.expandFirst = .ok (some
        (spell before ++ (Chain.ofCall token (arguments inside)).text ++ spell after)) ∧
      (∀ operand result, (Chain.ofCall token (arguments inside)).Yields operand result ↔
        ∃ s values, operand token s ∧ List.Forall₂ operand (arguments inside) values ∧
          result = values.foldl Text.replaceFirst s) ∧
      ∀ (s : Text) (values : List Text), values.length + 1 = (arguments inside).length →
        (arguments inside).length ≤ s.placeholders →
        ((∀ value, (values ++ [value]).foldl Text.replaceFirst s = s.fill (values ++ [value])) ↔
          (s.filledFront values).placeholders = 0) ∧
        ((∀ value ∈ values, '%' ∉ value) → ¬['%', '%', 's'] <:+: s →
          (s.filledFront values).placeholders = 0) := by
  obtain ⟨before, token, gap, gap', whole, literal, -⟩ := exists_of_find? found
  refine ⟨before, token, ?_, literal, ?_, ?_, ?_⟩
  · rw [whole]
    exact ⟨_, (List.append_cons _ _ _).symm⟩
  · rw [Text.expandFirst, found]
    dsimp only
    rw [closes, Chain.ofCall, Chain.text_foldl_substitute, literal, Chain.text]
    simp only [List.append_assoc]
  · exact fun operand result => Chain.yields_ofCall_iff
  · intro s values count enough
    have fewer : values.length < s.placeholders := by omega
    exact ⟨Text.forall_foldl_replaceFirst_eq_fill_iff fewer, Text.placeholders_filledFront fewer⟩

/-- A value may end in a percent sign where no `s` follows. -/
theorem chain_fills_in_two_values :
    let t : Text := "print(\"%s of %s\" % (a, b));"
    let rest := Text.pieces "a, b));"
    find? t.pieces = some ⟨"print(\"%s of %s\"", " % ", rest⟩ ∧
      splitAtClose? '(' ')' 0 rest = some (Text.pieces "a, b", Text.pieces ");") ∧
      ∀ value : Text, Text.replaceFirst (Text.replaceFirst "%s of %s" "5%") value =
        "5% of ".toList ++ value := by
  intro t rest
  have found : find? t.pieces = some ⟨"print(\"%s of %s\"", " % ", rest⟩ := by decide +kernel
  have closes : splitAtClose? '(' ')' 0 rest = some (Text.pieces "a, b", Text.pieces ");") := by
    decide +kernel
  refine ⟨found, closes, fun value => ?_⟩
  obtain ⟨before, token, -, -, -, -, inOrder⟩ := chain_fills_in_order_iff found closes
  have filled := (inOrder "%s of %s" ["5%"] (by decide +kernel) (by decide +kernel)).1.mpr
    (by decide +kernel) value
  simpa [Text.fill, Text.cutPlaceholder?] using filled

/-- A placeholder in a value is filled in by the next one: with `%s` for the first argument and `x`
for the second, the call stands for `%s x`, and its expansion yields `x %s`. -/
theorem chain_fills_value :
    let chain := Chain.ofCall "\"%s %s\"" ["a", "b"]
    let operand : Text → Text → Prop := fun expression value =>
      value = if expression = "a".toList then "%s".toList
        else if expression = "b".toList then "x".toList else "%s %s".toList
    Text.expandFirst "\"%s %s\" % (a, b)" = .ok (some chain.text) ∧
      Text.placeholders "%s %s" = 2 ∧ Text.fill "%s %s" ["%s", "x"] = "%s x".toList ∧
      ∀ result, chain.Yields operand result ↔ result = "x %s".toList := by
  intro chain operand
  refine ⟨by decide +kernel, by decide, by decide, fun result => ?_⟩
  have substituted : Text.replaceFirst (Text.replaceFirst "%s %s" "%s") "x" = "x %s".toList := by
    decide
  constructor
  · intro yields
    obtain ⟨s, values, rfl, each, rfl⟩ := Chain.yields_ofCall_iff.mp yields
    cases each with
    | cons first each =>
      cases each with
      | cons second each =>
        cases each
        cases first
        cases second
        exact substituted
  · rintro rfl
    exact substituted ▸ .substitute (.substitute (.literal rfl) rfl) rfl

end FormatCall

end ScriptLoom
