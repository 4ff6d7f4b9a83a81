import Formula.Error
import Formula.Text.Blank

/-!
# Tokens

A text is cut into operators, variables, literals and groups, with white space between them. A group
is the text of a parenthesis up to its end or to the next comma of the same level; the comma then
opens the next group, so that `(a, b)` is two groups.
-/

namespace Formula

/-- A piece of a text. -/
inductive Token where
  | operator (op : Operator)
  /-- The name of the variable. -/
  | variableName
  | literal (text : List Char)
  /-- What stands between parentheses and commas. -/
  | group (text : List Char)
deriving DecidableEq

namespace Token

/-! ## Keywords -/

/-- What a keyword stands for. -/
inductive Keyword where
  | blank
  | operator (op : Operator)
  | variableName
deriving DecidableEq

/-- What a text has to start with, and what it stands for. -/
structure Match where
  spelling : List Char
  keyword : Keyword
deriving DecidableEq

/-- White space of any sort is reported as one blank. -/
def blankMatches (input : List Char) : List Match :=
  match input with
  | c :: _ => if isBlank c then [⟨[' '], .blank⟩] else []
  | [] => []

/-- The operators whose keyword starts the text. -/
def operatorMatches (input : List Char) : List Match :=
  (Operator.spelled.filter fun op => op.keyword.toList.isPrefixOf input).map fun op =>
    ⟨op.keyword.toList, .operator op⟩

/-- The variable, if its name starts the text. -/
def variableMatches (name : Option (List Char)) (input : List Char) : List Match :=
  match name with
  | some name => if !name.isEmpty && name.isPrefixOf input then [⟨name, .variableName⟩] else []
  | none => []

/-- All keywords that start the text. -/
def keywordMatches (name : Option (List Char)) (input : List Char) : List Match :=
  blankMatches input ++ operatorMatches input ++ variableMatches name input

/-! ## Literals -/

/-- Whether a text starts with a digit. -/
def startsWithDigit : List Char → Bool
  | c :: _ => c.isDigit
  | [] => false

/-- Cuts off digits, and among them at most one point or one slash before a digit. The flag tells
whether that one has been seen. -/
def scanLiteral (seen : Bool) : List Char → List Char × List Char
  | [] => ([], [])
  | c :: rest =>
    if c.isDigit then
      let (text, behind) := scanLiteral seen rest
      (c :: text, behind)
    else if !seen && (c == '.' || (c == '/' && startsWithDigit rest)) then
      let (text, behind) := scanLiteral true rest
      (c :: text, behind)
    else ([], c :: rest)

/-- The literal that a text starts with, and what stands behind it. -/
def literal? (input : List Char) : Option (List Char × List Char) :=
  match input with
  | '.' :: rest => if startsWithDigit rest then some (scanLiteral false input) else none
  | _ => if startsWithDigit input then some (scanLiteral false input) else none

/-! ## Groups -/

/-- Cuts off the rest of a group in which `nested` more parentheses are open. A closing parenthesis
is dropped; a comma is left to open the next group. -/
def scanGroup (nested : Nat) : List Char → List Char × List Char
  | [] => ([], [])
  | c :: rest =>
    if c = ')' ∧ nested = 0 then ([], rest)
    else if c = ',' ∧ nested = 0 then ([], c :: rest)
    else
      let nested := if c = '(' then nested + 1 else if c = ')' then nested - 1 else nested
      let (text, behind) := scanGroup nested rest
      (c :: text, behind)

/-- The group that a text starts with, and what stands behind it. -/
def group? (input : List Char) : Option (List Char × List Char) :=
  match input with
  | c :: rest => if c = '(' ∨ c = ',' then some (scanGroup 0 rest) else none
  | [] => none

/-! ## Cutting a text into tokens -/

/-- The token that a text starts with and what stands behind it; white space gives no token. -/
def next (name : Option (List Char)) (input : List Char) :
    Except ParseError (Option Token × List Char) :=
  match keywordMatches name input with
  | [⟨spelling, keyword⟩] =>
    match keyword with
    | .blank => .ok (none, input.drop 1)
    | .operator op => .ok (some (operator op), input.drop spelling.length)
    | .variableName => .ok (some variableName, input.drop spelling.length)
  | [] =>
    match literal? input with
    | some (text, rest) => .ok (some (literal text), rest)
    | none =>
      match group? input with
      | some (text, rest) => .ok (some (group text), rest)
      | none => .error (.unexpectedInput input)
  | found => .error (.ambiguousKeyword input (found.map Match.spelling))

theorem scanLiteral_length_le (seen : Bool) (input : List Char) :
    (scanLiteral seen input).2.length ≤ input.length := by
  induction input generalizing seen with
  | nil => simp [scanLiteral]
  | cons c rest ih =>
    have := ih seen
    have := ih true
    simp only [scanLiteral]
    split
    · simp only [List.length_cons]; omega
    · split <;> simp only [List.length_cons] <;> omega

theorem scanGroup_length_le (nested : Nat) (input : List Char) :
    (scanGroup nested input).2.length ≤ input.length := by
  induction input generalizing nested with
  | nil => simp [scanGroup]
  | cons c rest ih =>
    simp only [scanGroup]
    split
    · simp
    · split
      · simp
      · exact Nat.le_succ_of_le (ih _)

theorem literal?_length_lt {input text rest : List Char} (h : literal? input = some (text, rest)) :
    rest.length < input.length := by
  have key : ∀ c tail, startsWithDigit tail = true ∨ c.isDigit = true → input = c :: tail →
      scanLiteral false input = (text, rest) → (c = '.' ∨ c.isDigit = true) →
      rest.length < input.length := by
    intro c tail _ hi hs hc
    subst hi
    have h₁ := scanLiteral_length_le false tail
    have h₂ := scanLiteral_length_le true tail
    rw [scanLiteral] at hs
    rcases hc with rfl | hd
    · rw [if_neg (by decide), if_pos (by simp)] at hs
      simp only [Prod.mk.injEq] at hs
      rw [← hs.2, List.length_cons]; omega
    · rw [if_pos hd] at hs
      simp only [Prod.mk.injEq] at hs
      rw [← hs.2, List.length_cons]; omega
  unfold literal? at h
  split at h
  · rename_i tail
    split at h
    · next hd => exact key '.' tail (.inl hd) rfl (Option.some.inj h) (.inl rfl)
    · cases h
  · split at h
    · next hd =>
      cases input with
      | nil => simp [startsWithDigit] at hd
      | cons c tail => exact key c tail (.inr hd) rfl (Option.some.inj h) (.inr hd)
    · cases h

theorem group?_length_lt {input text rest : List Char} (h : group? input = some (text, rest)) :
    rest.length < input.length := by
  cases input with
  | nil => simp [group?] at h
  | cons c tail =>
    simp only [group?, Option.ite_none_right_eq_some, Option.some.injEq] at h
    have := scanGroup_length_le 0 tail
    simp only [h.2] at this
    simp only [List.length_cons]
    omega

theorem keyword_ne_nil {op : Operator} (h : op ∈ Operator.spelled) : op.keyword.toList ≠ [] := by
  simp only [Operator.spelled, List.mem_cons, List.not_mem_nil, or_false] at h
  rcases h with h | h | h | h | h | h | h | h | h | h | h | h | h | h | h <;> subst h <;> decide

/-- Every keyword but the blank is a nonempty beginning of the text. -/
theorem spelling_ne_nil {name : Option (List Char)} {input : List Char} {m : Match}
    (h : m ∈ keywordMatches name input) : m.spelling ≠ [] := by
  simp only [keywordMatches, List.mem_append] at h
  rcases h with (h | h) | h
  · unfold blankMatches at h
    split at h
    · split at h
      · simp_all
      · cases h
    · cases h
  · simp only [operatorMatches, List.mem_map, List.mem_filter] at h
    obtain ⟨op, ⟨hop, _⟩, rfl⟩ := h
    exact keyword_ne_nil hop
  · unfold variableMatches at h
    split at h
    · split at h
      · rename_i name hn
        simp only [List.mem_singleton] at h
        subst h
        simp_all
      · cases h
    · cases h

theorem next_length_lt {name : Option (List Char)} {input rest : List Char} {token : Option Token}
    (hne : input ≠ []) (h : next name input = .ok (token, rest)) : rest.length < input.length := by
  have hpos : 0 < input.length := List.length_pos_iff.2 hne
  unfold next at h
  split at h
  · next spelling keyword hm =>
    have hs : 0 < spelling.length :=
      List.length_pos_iff.2 (spelling_ne_nil (m := ⟨spelling, keyword⟩) (by rw [hm]; simp))
    split at h <;> cases h <;> rw [List.length_drop] <;> omega
  · split at h
    · next hl => cases h; exact literal?_length_lt hl
    · split at h
      · next hg => cases h; exact group?_length_lt hg
      · cases h
  · cases h

/-- The tokens of a text. -/
def ofText (name : Option (List Char)) (input : List Char) : Except ParseError (List Token) :=
  if hne : input = [] then .ok []
  else
    match h : next name input with
    | .error e => .error e
    | .ok (token, rest) =>
      have := next_length_lt hne h
      match ofText name rest with
      | .error e => .error e
      | .ok tokens => .ok (token.toList ++ tokens)
termination_by input.length

end Token

end Formula
