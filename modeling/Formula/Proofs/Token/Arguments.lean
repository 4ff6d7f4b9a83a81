import Formula.Proofs.Token

/-!
# Arguments

A group is opened by a parenthesis or by a comma, and closed by a parenthesis, which is dropped, or by a
comma, which is left to open the next group. So the argument of a function ends at the first comma or
parenthesis of its own level. `StaysOpen n s` is the invariant of the cut: with `n` parentheses open in
front of it, the text closes none that is not open, and has its commas inside parentheses. It carries
the level over to what stands behind the text (`StaysOpen.scanGroup_append`). In a list of arguments
whose parentheses match, each argument therefore is one group (`ofText_arguments`).
-/

namespace Formula.Token

variable {name : Option (List Char)} {s rest : List Char} {args : List (List Char)} {c : Char}
  {n m : ℕ}

/-! ## Levels -/

/-- Behind `n` open parentheses, every closing one in the text closes an open one, and a comma stands
only where one is open. -/
structure StaysOpen (n : ℕ) (s : List Char) : Prop where
  close_le : ∀ t, t <+: s → t.count ')' ≤ n + t.count '('
  close_lt : ∀ t, t ++ [','] <+: s → t.count ')' < n + t.count '('

theorem count_cons_eq_add (a c : Char) (s : List Char) :
    (c :: s).count a = [c].count a + s.count a := by
  rw [← List.count_append, List.singleton_append]

/-- One more character is cut off, and changes the level if it is a parenthesis. -/
theorem StaysOpen.exists_scanGroup_cons (h : StaysOpen n (c :: s)) (rest : List Char) :
    ∃ k, n + [c].count '(' = k + [c].count ')' ∧
      scanGroup n (c :: rest) = (scanGroup k rest).map (c :: ·) id := by
  by_cases hc : c ∈ ['(', ')', ',']
  · simp only [List.mem_cons, List.not_mem_nil, or_false] at hc
    rcases hc with rfl | rfl | rfl
    · exact ⟨n + 1, rfl, scanGroup_open n rest⟩
    · have hpos : 1 ≤ n := h.close_le [')'] ⟨s, rfl⟩
      obtain ⟨k, rfl⟩ := Nat.exists_eq_add_of_le' hpos
      exact ⟨k, rfl, scanGroup_close k rest⟩
    · have hpos : 1 ≤ n := h.close_lt [] ⟨s, rfl⟩
      obtain ⟨k, rfl⟩ := Nat.exists_eq_add_of_le' hpos
      exact ⟨k + 1, rfl, scanGroup_comma k rest⟩
  · refine ⟨n, ?_, scanGroup_plain n rest hc⟩
    simp only [List.mem_cons, List.not_mem_nil, or_false, not_or] at hc
    simp [hc]

theorem StaysOpen.tail (h : StaysOpen n (c :: s)) (hm : n + [c].count '(' = m + [c].count ')') :
    StaysOpen m s := by
  constructor
  · intro t ht
    have hle := h.close_le (c :: t) (List.cons_prefix_cons.2 ⟨rfl, ht⟩)
    rw [count_cons_eq_add ')', count_cons_eq_add '('] at hle
    omega
  · intro t ht
    have hlt := h.close_lt (c :: t) (List.cons_prefix_cons.2 ⟨rfl, ht⟩)
    rw [count_cons_eq_add ')', count_cons_eq_add '('] at hlt
    omega

/-- No group ends in a text that stays open, and behind the text the level is the one that its
parentheses lead to. -/
theorem StaysOpen.scanGroup_append (h : StaysOpen n s) (hm : n + s.count '(' = m + s.count ')')
    (rest : List Char) : scanGroup n (s ++ rest) = (scanGroup m rest).map (s ++ ·) id := by
  induction s generalizing n with
  | nil =>
    obtain rfl : n = m := hm
    rfl
  | cons c s ih =>
    obtain ⟨k, hk, hscan⟩ := h.exists_scanGroup_cons (s ++ rest)
    rw [count_cons_eq_add '(', count_cons_eq_add ')'] at hm
    rw [List.cons_append, hscan, ih (h.tail hk) (by omega)]
    rfl

/-! ## Lists of arguments -/

/-- The texts whose parentheses match, with commas inside parentheses only. -/
structure IsArgument (s : List Char) : Prop where
  closed : s.count ')' = s.count '('
  close_le : ∀ t, t <+: s → t.count ')' ≤ t.count '('
  close_lt : ∀ t, t ++ [','] <+: s → t.count ')' < t.count '('

instance : DecidablePred IsArgument := fun s =>
  decidable_of_iff (s.count ')' = s.count '(' ∧ (∀ t ∈ s.inits, t.count ')' ≤ t.count '(') ∧
    ∀ t ∈ s.inits, t ++ [','] <+: s → t.count ')' < t.count '(') <| by
  simp only [List.mem_inits]
  refine ⟨fun ⟨hclosed, hle, hlt⟩ => ⟨hclosed, hle, fun t ht => ?_⟩,
    fun h => ⟨h.closed, h.close_le, fun t _ => h.close_lt t⟩⟩
  exact hlt t ((List.prefix_append t _).trans ht) ht

theorem IsArgument.isUnbroken (h : IsArgument s) : IsUnbroken s := by
  intro n rest
  refine StaysOpen.scanGroup_append ⟨fun t ht => ?_, fun t ht => ?_⟩ (by rw [h.closed]) rest
  · exact Nat.le_add_left_of_le (h.close_le t ht)
  · exact Nat.lt_add_left n (h.close_lt t ht)

/-- Texts in which no group ends are a group each, if they stand between commas. -/
theorem ofText_groups (hname : ∀ c ∈ ['(', ','], ∀ s, name ≠ some (c :: s)) (hc : c ∈ ['(', ','])
    (hne : args ≠ []) (hargs : ∀ a ∈ args, IsUnbroken a) (rest : List Char) :
    ofText name (c :: ([','].intercalate args ++ ')' :: rest)) =
      (ofText name rest).map (args.map group ++ ·) := by
  induction args generalizing c with
  | nil => exact absurd rfl hne
  | cons a args ih =>
    obtain ⟨ha, hargs⟩ := List.forall_mem_cons.1 hargs
    cases args with
    | nil =>
      have hnext := next_of_scanGroup (hname c hc) hc (scanGroup_eq_close ha rest)
      rw [List.intercalate_singleton, ofText_of_next (List.cons_ne_nil _ _) hnext]
      rfl
    | cons b args =>
      have hnext := next_of_scanGroup (hname c hc) hc
        (scanGroup_eq_comma ha ([','].intercalate (b :: args) ++ ')' :: rest))
      rw [List.intercalate_cons_cons, List.append_assoc, List.append_assoc, List.singleton_append,
        ofText_of_next (List.cons_ne_nil _ _) hnext,
        ih (by decide) (List.cons_ne_nil _ _) hargs]
      cases ofText name rest <;> rfl

/-- The arguments of a function are cut apart at the commas between them, and at no others. -/
theorem ofText_arguments (hname : ∀ c ∈ ['(', ','], ∀ s, name ≠ some (c :: s)) (hne : args ≠ [])
    (hargs : ∀ a ∈ args, IsArgument a) (rest : List Char) :
    ofText name ('(' :: ([','].intercalate args ++ ')' :: rest)) =
      (ofText name rest).map (args.map group ++ ·) :=
  ofText_groups hname (by decide) hne (fun a ha => (hargs a ha).isUnbroken) rest

/-- Three arguments, one of which is blank and one of which has commas in parentheses, in front of a text
with tokens and in front of one without. -/
theorem ofText_arguments_of_nested :
    ofText (some ['x']) ("((x, (2,é)), ,-x)".toList ++ "-x".toList) =
      .ok [group "(x, (2,é))".toList, group [' '], group "-x".toList,
        operator (.binary .difference), variableName] ∧
    ofText (some ['x']) ("((x, (2,é)), ,-x)".toList ++ ['é']) = .error (.unexpectedInput ['é']) := by
  have hname : ∀ c ∈ ['(', ','], ∀ s, some ['x'] ≠ some (c :: s) := by simp
  have hargs : ∀ a ∈ ["(x, (2,é))".toList, [' '], "-x".toList], IsArgument a := by decide
  have h := ofText_arguments hname (List.cons_ne_nil _ _) hargs
  have htext (rest : List Char) : "((x, (2,é)), ,-x)".toList ++ rest =
      '(' :: ([','].intercalate ["(x, (2,é))".toList, [' '], "-x".toList] ++ ')' :: rest) := by
    simp
  have hrest : ofText (some ['x']) "-x".toList = .ok [operator (.binary .difference), variableName] := by
    decide +kernel
  have hinvalid : ofText (some ['x']) ['é'] = .error (.unexpectedInput ['é']) := by decide +kernel
  rw [htext, htext, h, h, hrest, hinvalid]
  exact ⟨rfl, rfl⟩

end Formula.Token
