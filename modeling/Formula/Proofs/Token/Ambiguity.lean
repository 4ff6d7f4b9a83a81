import Formula.Proofs.Parser.Errors

/-!
# Ambiguous keywords

At no place of a text more than one keyword starts, as far as only white space and the operators are
concerned: no keyword of an operator starts another one, and none starts with white space
(`length_blankMatches_append_le`). So it takes the name of the variable for an ambiguity, and this name
and another keyword have to start at one place. Whether this can happen is decided by the name alone
(`Collides`).
-/

namespace Formula.Token

variable {name : Option (List Char)} {input : List Char} {v : List Char}

/-- The name starts with white space, or it starts the keyword of an operator or is started by it. -/
def Collides (v : List Char) : Prop :=
  v ≠ [] ∧ (v.head?.any isBlank = true ∨
    ∃ op ∈ Operator.spelled, v <+: op.keyword.toList ∨ op.keyword.toList <+: v)

instance : DecidablePred Collides :=
  fun _ => inferInstanceAs (Decidable (_ ∧ _))

/-! ## One place of a text -/

theorem length_blankMatches_le (input : List Char) : (blankMatches input).length ≤ 1 := by
  unfold blankMatches
  split
  · split_ifs <;> simp
  · exact Nat.zero_le 1

theorem length_variableMatches_le (name : Option (List Char)) (input : List Char) :
    (variableMatches name input).length ≤ 1 := by
  unfold variableMatches
  split
  · split_ifs <;> simp
  · exact Nat.zero_le 1

/-- White space and the operators do not get in each other's way. -/
theorem length_blankMatches_append_le (input : List Char) :
    (blankMatches input ++ operatorMatches input).length ≤ 1 := by
  by_cases h : ∃ op ∈ Operator.spelled, op.keyword.toList <+: input
  · obtain ⟨op, hop, rest, rfl⟩ := h
    rw [blankMatches_keyword hop, operatorMatches_keyword hop]
    exact le_rfl
  · have hnil : operatorMatches input = [] := by
      refine List.eq_nil_iff_forall_not_mem.2 fun m hm => ?_
      obtain ⟨op, hop, hstart, -⟩ := mem_operatorMatches_iff.1 hm
      exact h ⟨op, hop, hstart⟩
    rw [hnil, List.append_nil]
    exact length_blankMatches_le input

/-- Where two keywords start, one of them is the name of the variable, and the name collides. -/
theorem exists_collides_of_matches (h : 1 < (keywordMatches name input).length) :
    ∃ v, name = some v ∧ Collides v := by
  have hfixed := length_blankMatches_append_le input
  have hvariable := length_variableMatches_le name input
  rw [keywordMatches, List.length_append] at h
  obtain ⟨m, hm⟩ := List.exists_mem_of_length_pos (l := variableMatches name input) (by omega)
  obtain ⟨v, hname, hne, hstart, -⟩ := mem_variableMatches_iff.1 hm
  refine ⟨v, hname, hne, ?_⟩
  obtain ⟨m', hm'⟩ :=
    List.exists_mem_of_length_pos (l := blankMatches input ++ operatorMatches input) (by omega)
  rcases List.mem_append.1 hm' with hm' | hm'
  · obtain ⟨-, c, rest, rfl, hc⟩ := mem_blankMatches_iff.1 hm'
    obtain ⟨d, s, rfl⟩ := List.exists_cons_of_ne_nil hne
    obtain ⟨rfl, -⟩ := List.cons_prefix_cons.1 hstart
    exact .inl hc
  · obtain ⟨op, hop, hkeyword, -⟩ := mem_operatorMatches_iff.1 hm'
    exact .inr ⟨op, hop, List.prefix_or_prefix_of_prefix hstart hkeyword⟩

/-- The name and another keyword are two matches. -/
theorem one_lt_length_of_matches {m : Match} (hne : v ≠ []) (hstart : v <+: input)
    (hm : m ∈ blankMatches input ++ operatorMatches input) :
    1 < (keywordMatches (some v) input).length := by
  have hv : ⟨v, .variableName⟩ ∈ variableMatches (some v) input :=
    mem_variableMatches_iff.2 ⟨v, rfl, hne, hstart, rfl⟩
  rw [keywordMatches, List.length_append]
  have hfixed := List.length_pos_of_mem hm
  have hvariable := List.length_pos_of_mem hv
  omega

/-- A name that collides does so in front of the name itself or of a keyword. -/
theorem Collides.exists_matches (h : Collides v) :
    ∃ input, input ≠ [] ∧ 1 < (keywordMatches (some v) input).length := by
  obtain ⟨hne, hblank | ⟨op, hop, hstart | hstart⟩⟩ := h
  · obtain ⟨c, hc, hblank⟩ := (Option.any_eq_true _ _).1 hblank
    obtain ⟨s, rfl⟩ := List.head?_eq_some_iff.1 hc
    have hmem := mem_blankMatches_iff.2 ⟨rfl, c, s, rfl, hblank⟩
    exact ⟨c :: s, hne, one_lt_length_of_matches hne List.prefix_rfl (List.mem_append_left _ hmem)⟩
  · have hmem := mem_operatorMatches_iff.2 ⟨op, hop, List.prefix_rfl, rfl⟩
    exact ⟨op.keyword.toList, keyword_ne_nil hop,
      one_lt_length_of_matches hne hstart (List.mem_append_right _ hmem)⟩
  · have hmem := mem_operatorMatches_iff.2 ⟨op, hop, hstart, rfl⟩
    exact ⟨v, hne, one_lt_length_of_matches hne List.prefix_rfl (List.mem_append_right _ hmem)⟩

/-! ## Texts -/

theorem ofText_of_matches (hne : input ≠ []) (h : 1 < (keywordMatches name input).length) :
    ofText name input =
      .error (.ambiguousKeyword input ((keywordMatches name input).map Match.spelling)) := by
  refine ofText_of_next_error hne ?_
  unfold next
  split
  · next hfound => simp [hfound] at h
  · next hfound => simp [hfound] at h
  · rfl

theorem exists_ambiguous_iff :
    (∃ input remaining keywords, ofText name input = .error (.ambiguousKeyword remaining keywords)) ↔
      ∃ v, name = some v ∧ Collides v := by
  constructor
  · rintro ⟨input, remaining, keywords, h⟩
    cases ofText_fails name input _ h with
    | ambiguousKeyword hmatches => exact exists_collides_of_matches hmatches
  · rintro ⟨v, rfl, hv⟩
    obtain ⟨input, hne, hmatches⟩ := hv.exists_matches
    exact ⟨input, _, _, ofText_of_matches hne hmatches⟩

/-- Whether there is an ambiguous text is decided by the name of the variable: if and only if it is not
empty, and starts with white space, starts the keyword of an operator, or is started by one. Without a
variable no text is ambiguous, and neither with the variable that parsers have by default. -/
theorem ambiguous_iff_name_collides (v : List Char) :
    ((∃ input remaining keywords,
        ofText (some v) input = .error (.ambiguousKeyword remaining keywords)) ↔
      v ≠ [] ∧ (v.head?.any isBlank = true ∨
        ∃ op ∈ Operator.spelled, v <+: op.keyword.toList ∨ op.keyword.toList <+: v)) ∧
    (∀ input remaining keywords,
      ofText none input ≠ .error (.ambiguousKeyword remaining keywords)) ∧
    ∀ input remaining keywords,
      ofText (some ['x']) input ≠ .error (.ambiguousKeyword remaining keywords) := by
  have hapart {name : Option (List Char)} (h : ∀ v, name = some v → ¬ Collides v)
      (input remaining : List Char) (keywords : List (List Char)) :
      ofText name input ≠ .error (.ambiguousKeyword remaining keywords) := by
    intro herror
    obtain ⟨v, hname, hv⟩ := exists_ambiguous_iff.1 ⟨input, remaining, keywords, herror⟩
    exact h v hname hv
  refine ⟨?_, hapart nofun, hapart ?_⟩
  · exact exists_ambiguous_iff.trans ⟨fun ⟨_, hname, hv⟩ => Option.some.inj hname ▸ hv,
      fun hv => ⟨v, rfl, hv⟩⟩
  · rintro _ ⟨⟩
    decide

end Formula.Token
