import Formula.Proofs.Literal

/-!
# The spelling of tokens

No character of a text gets lost when it is cut into tokens. `Spells name rest tokens text` says that, in
front of `rest`, the text is made of the spellings of the tokens, in order, with white space anywhere
between. What is spelled in front of a rest matters for groups only: their closing parenthesis may be
missing where a comma follows or the text ends. Each step cuts off white space or the spelling of one
token (`Spells.of_next`). So if a text cannot be cut up to its end, all that is in front of the
remaining part has been accounted for (`ofText_accountsFor`).
-/

namespace Formula.Token

variable {name : Option (List Char)} {input rest text remaining : List Char} {token : Token}
  {tokens : List Token}

/-! ## Spellings -/

/-- How a token is written in front of a rest. -/
inductive IsSpelled (name : Option (List Char)) (rest : List Char) : Token → List Char → Prop
  | operator {op : Operator} (hop : op ∈ Operator.spelled) :
      IsSpelled name rest (operator op) op.keyword.toList
  | variableName {v : List Char} (hname : name = some v) (hne : v ≠ []) :
      IsSpelled name rest variableName v
  | literal {s : List Char} (hs : IsLiteral s) : IsSpelled name rest (literal s) s
  | closed {c : Char} {s : List Char} (hc : c ∈ ['(', ',']) :
      IsSpelled name rest (group s) (c :: (s ++ [')']))
  /-- The closing parenthesis is missing at the end and in front of a comma. -/
  | unclosed {c : Char} {s : List Char} (hc : c ∈ ['(', ',']) (hrest : ∀ d ∈ rest.head?, d = ',') :
      IsSpelled name rest (group s) (c :: s)

/-- The text in front of the rest is made of the spellings of the tokens and of white space. -/
inductive Spells (name : Option (List Char)) (rest : List Char) : List Token → List Char → Prop
  | nil : Spells name rest [] []
  | blank {c : Char} {tokens : List Token} {text : List Char} (hc : isBlank c = true)
      (h : Spells name rest tokens text) : Spells name rest tokens (c :: text)
  | token {token : Token} {tokens : List Token} {s text : List Char}
      (hs : IsSpelled name (text ++ rest) token s) (h : Spells name rest tokens text) :
      Spells name rest (token :: tokens) (s ++ text)

/-- Neither white space nor the spelling of a token starts the text. -/
structure StartsNothing (name : Option (List Char)) (text : List Char) : Prop where
  not_blank : ∀ c ∈ text.head?, isBlank c = false
  not_spelled : ∀ token s rest, text = s ++ rest → ¬ IsSpelled name rest token s

/-- What has become of a text. It has been cut up to its end, or else up to some remaining part. -/
inductive AccountsFor (name : Option (List Char)) (input : List Char) :
    Except ParseError (List Token) → Prop
  | tokens {tokens : List Token} (h : Spells name [] tokens input) :
      AccountsFor name input (.ok tokens)
  | unexpectedInput {tokens : List Token} {text remaining : List Char}
      (hinput : input = text ++ remaining) (hne : remaining ≠ [])
      (h : Spells name remaining tokens text) (hstuck : StartsNothing name remaining) :
      AccountsFor name input (.error (.unexpectedInput remaining))
  | ambiguousKeyword {tokens : List Token} {text remaining : List Char} {keywords : List (List Char)}
      (hinput : input = text ++ remaining) (hne : remaining ≠ [])
      (h : Spells name remaining tokens text) (hkeywords : 1 < keywords.length) :
      AccountsFor name input (.error (.ambiguousKeyword remaining keywords))

/-! ## Steps -/

/-- A group is cut off with its closing parenthesis, or without one at a comma or at the end. -/
theorem scanGroup_spelled (nested : ℕ) (s : List Char) :
    s = (scanGroup nested s).1 ++ ')' :: (scanGroup nested s).2 ∨
      s = (scanGroup nested s).1 ++ (scanGroup nested s).2 ∧
        ∀ c ∈ (scanGroup nested s).2.head?, c = ',' := by
  induction s generalizing nested with
  | nil => exact .inr ⟨rfl, nofun⟩
  | cons c s ih =>
    rw [scanGroup]
    split
    · next hclose => exact .inl (congrArg (· :: s) hclose.1)
    · split
      · next hcomma => exact .inr ⟨rfl, fun d hd => (Option.some.inj hd).symm.trans hcomma.1⟩
      · exact (ih _).imp (congrArg (c :: ·)) fun h => ⟨congrArg (c :: ·) h.1, h.2⟩

theorem isSpelled_of_group? {s : List Char} (h : group? input = some (s, rest)) :
    ∃ t, input = t ++ rest ∧ IsSpelled name rest (group s) t := by
  cases input with
  | nil => cases h
  | cons c input =>
    obtain ⟨hc, hscan⟩ := Option.ite_none_right_eq_some.1 h
    have hc : c ∈ ['(', ','] := by simpa using hc
    have hspelled := scanGroup_spelled 0 input
    rw [Option.some.inj hscan] at hspelled
    rcases hspelled with hclosed | ⟨hunclosed, hrest⟩
    · refine ⟨c :: (s ++ [')']), ?_, .closed hc⟩
      simpa using hclosed
    · exact ⟨c :: s, congrArg (c :: ·) hunclosed, .unclosed hc hrest⟩

/-- One more step in front of what has been spelled. -/
theorem Spells.of_next {token : Option Token} (hnext : next name input = .ok (token, rest))
    (hrest : rest = text ++ remaining) (h : Spells name remaining tokens text) :
    ∃ text, input = text ++ remaining ∧ Spells name remaining (token.toList ++ tokens) text := by
  have hspelled {t : Token} {s : List Char} (hinput : input = s ++ rest)
      (hs : IsSpelled name rest t s) :
      ∃ text, input = text ++ remaining ∧ Spells name remaining (t :: tokens) text := by
    subst hrest
    exact ⟨s ++ text, by rw [hinput, List.append_assoc], .token hs h⟩
  rcases next_ok_cases hnext with ⟨rfl, c, hc, hinput⟩ | ⟨op, hop, rfl, hinput⟩ |
    ⟨v, hname, hne, rfl, hinput⟩ | ⟨s, rfl, hliteral⟩ | ⟨s, rfl, hgroup⟩
  · exact ⟨c :: text, by rw [hinput, hrest, List.cons_append], .blank hc h⟩
  · exact hspelled hinput (.operator hop)
  · exact hspelled hinput (.variableName hname hne)
  · obtain ⟨hinput, hs, -⟩ := literal?_eq_some_iff.1 hliteral
    exact hspelled hinput (.literal hs)
  · obtain ⟨t, hinput, ht⟩ := isSpelled_of_group? hgroup
    exact hspelled hinput ht

/-- Where there is no keyword, no literal and no group, nothing starts. -/
theorem startsNothing_of_no_match (hkeyword : keywordMatches name input = [])
    (hliteral : literal? input = none) (hgroup : group? input = none) : StartsNothing name input := by
  have hstarts (m : Match) : ¬ Starts name input m := by
    rw [← mem_keywordMatches_iff, hkeyword]
    exact List.not_mem_nil
  constructor
  · intro c hc
    cases input with
    | nil => cases hc
    | cons d input =>
      cases hc
      exact Bool.eq_false_iff.2 fun hblank => hstarts _ (.blank rfl hblank)
  · intro token s rest hinput hs
    have hstart : s <+: input := ⟨rest, hinput.symm⟩
    have hopen {c : Char} {s : List Char} (hc : c ∈ ['(', ',']) (hinput : input = c :: s) : False := by
      rw [hinput, group?, if_pos (by simpa using hc)] at hgroup
      cases hgroup
    cases hs with
    | operator hop => exact hstarts _ (.operator hop hstart)
    | variableName hname hne => exact hstarts _ (.variableName hname hne hstart)
    | literal hs => exact literal?_eq_none_iff.1 hliteral s hstart hs
    | closed hc => exact hopen hc hinput
    | unclosed hc => exact hopen hc hinput

/-! ## Texts -/

theorem AccountsFor.of_next {token : Option Token} {result : Except ParseError (List Token)}
    (hnext : next name input = .ok (token, rest)) (h : AccountsFor name rest result) :
    AccountsFor name input (result.map (token.toList ++ ·)) := by
  cases h with
  | tokens h =>
    obtain ⟨text, rfl, hspells⟩ := Spells.of_next hnext (List.append_nil rest).symm h
    rw [List.append_nil] at hnext ⊢
    exact .tokens hspells
  | unexpectedInput hinput hne h hstuck =>
    obtain ⟨text, hinput, hspells⟩ := Spells.of_next hnext hinput h
    exact .unexpectedInput hinput hne hspells hstuck
  | ambiguousKeyword hinput hne h hkeywords =>
    obtain ⟨text, hinput, hspells⟩ := Spells.of_next hnext hinput h
    exact .ambiguousKeyword hinput hne hspells hkeywords

/-- Every text is cut into tokens up to its end, or up to a remaining part at which nothing starts or more
than one keyword does. Up to there the text is made of the spellings of the tokens and of white space. -/
theorem ofText_accountsFor (name : Option (List Char)) (input : List Char) :
    AccountsFor name input (ofText name input) := by
  refine ofText_rec (motive := AccountsFor name) ?_ ?_ ?_ input
  · exact .tokens .nil
  · intro input e hne hnext
    rcases next_error_cases hnext with ⟨rfl, hkeyword, hliteral, hgroup⟩ | ⟨rfl, hlength⟩
    · exact .unexpectedInput rfl hne .nil (startsNothing_of_no_match hkeyword hliteral hgroup)
    · exact .ambiguousKeyword rfl hne .nil (by rwa [List.length_map])
  · intro input rest token result _ hnext h
    exact h.of_next hnext

end Formula.Token
