import Formula.Parser
import Formula.Proofs.Fraction.Text
import Mathlib.Tactic.IntervalCases

/-!
# Tokens of written texts

What is written as a keyword, a literal or a group is cut off as one token (`next_keyword`,
`next_literal`, `next_of_scanGroup`), whatever stands behind it. Only literals need an end: digits behind
them would belong to them. Groups are cut off whole if they are `IsUnbroken`. Written texts are so
because they are `Balanced`: all parentheses in them are closed, and commas stand between parentheses
only.
-/

namespace Formula

/-! ## Balanced texts -/

/-- The characters in lower case, without parentheses and commas. -/
def IsPlain (c : Char) : Prop :=
  c ∉ ['(', ')', ','] ∧ c.toNat < 0x80 ∧ c.toLower = c

instance : DecidablePred IsPlain :=
  fun c => inferInstanceAs (Decidable (c ∉ ['(', ')', ','] ∧ c.toNat < 0x80 ∧ c.toLower = c))

/-- The texts in which parentheses are closed and hold one or two texts of the same sort. -/
inductive Balanced : List Char → Prop
  | plain {s : List Char} (hs : ∀ c ∈ s, IsPlain c) : Balanced s
  | append {s t : List Char} (hs : Balanced s) (ht : Balanced t) : Balanced (s ++ t)
  | group {s : List Char} (hs : Balanced s) : Balanced ('(' :: (s ++ [')']))
  | pair {s t : List Char} (hs : Balanced s) (ht : Balanced t) :
      Balanced ('(' :: (s ++ ',' :: (t ++ [')'])))

variable {s t rest : List Char} {c : Char}

theorem exists_digitChar (hc : c.isDigit = true) : ∃ n < 10, c = Nat.digitChar n := by
  have hrange : 48 ≤ c.val ∧ c.val ≤ 57 := by simpa [Char.isDigit] using hc
  have hlow : 48 ≤ c.toNat := hrange.1
  have hhigh : c.toNat ≤ 57 := hrange.2
  refine ⟨c.toNat - 48, by omega, ?_⟩
  rw [← Char.ofNat_toNat c]
  generalize c.toNat = n at hlow hhigh
  interval_cases n <;> rfl

theorem isPlain_of_isDigit (hc : c.isDigit = true) : IsPlain c := by
  have hplain : ∀ n < 10, IsPlain (Nat.digitChar n) := by decide
  obtain ⟨n, hn, rfl⟩ := exists_digitChar hc
  exact hplain n hn

/-- Balanced texts stay as they are in lower case. -/
theorem Balanced.lowerCase (h : Balanced s) : ∀ c ∈ s, c.toNat < 0x80 ∧ c.toLower = c := by
  have hopen : '('.toNat < 0x80 ∧ '('.toLower = '(' := by decide
  have hclose : ')'.toNat < 0x80 ∧ ')'.toLower = ')' := by decide
  have hcomma : ','.toNat < 0x80 ∧ ','.toLower = ',' := by decide
  induction h with
  | plain hs => exact fun c hc => (hs c hc).2
  | append _ _ ihs iht => exact List.forall_mem_append.2 ⟨ihs, iht⟩
  | group _ ih =>
    refine List.forall_mem_cons.2 ⟨hopen, List.forall_mem_append.2 ⟨ih, ?_⟩⟩
    exact List.forall_mem_singleton.2 hclose
  | pair _ _ ihs iht =>
    refine List.forall_mem_cons.2 ⟨hopen, List.forall_mem_append.2 ⟨ihs, ?_⟩⟩
    refine List.forall_mem_cons.2 ⟨hcomma, List.forall_mem_append.2 ⟨iht, ?_⟩⟩
    exact List.forall_mem_singleton.2 hclose

theorem lowerCaseAfter_eq (before : List Char) (h : ∀ c ∈ s, c.toNat < 0x80 ∧ c.toLower = c) :
    lowerCaseAfter before s = s := by
  induction s generalizing before with
  | nil => rfl
  | cons c s ih =>
    obtain ⟨⟨hascii, hlower⟩, hs⟩ := List.forall_mem_cons.1 h
    have hsigma : c ≠ 'Σ' := by
      rintro rfl
      simp at hascii
    have hdotted : c ≠ 'İ' := by
      rintro rfl
      simp at hascii
    rw [lowerCaseAfter, if_neg hsigma, if_neg hdotted, ih _ hs, lowerCaseOf, if_pos hascii, hlower]
    rfl

theorem Balanced.toLowerCase_eq (h : Balanced s) : toLowerCase s = s :=
  lowerCaseAfter_eq [] h.lowerCase

namespace Token

/-! ## Groups -/

/-- No group ends inside the text, at whatever level the text stands. -/
def IsUnbroken (s : List Char) : Prop :=
  ∀ (nested : ℕ) (rest : List Char),
    scanGroup nested (s ++ rest) = (scanGroup nested rest).map (s ++ ·) id

theorem scanGroup_plain (nested : ℕ) (rest : List Char) (hc : c ∉ ['(', ')', ',']) :
    scanGroup nested (c :: rest) = (scanGroup nested rest).map (c :: ·) id := by
  obtain ⟨hopen, hclose, hcomma⟩ : c ≠ '(' ∧ c ≠ ')' ∧ c ≠ ',' := by simpa using hc
  simp [scanGroup, hopen, hclose, hcomma, Prod.map]

theorem scanGroup_open (nested : ℕ) (rest : List Char) :
    scanGroup nested ('(' :: rest) = (scanGroup (nested + 1) rest).map ('(' :: ·) id := by
  simp [scanGroup, Prod.map]

theorem scanGroup_close (nested : ℕ) (rest : List Char) :
    scanGroup (nested + 1) (')' :: rest) = (scanGroup nested rest).map (')' :: ·) id := by
  simp [scanGroup, Prod.map]

theorem scanGroup_comma (nested : ℕ) (rest : List Char) :
    scanGroup (nested + 1) (',' :: rest) = (scanGroup (nested + 1) rest).map (',' :: ·) id := by
  simp [scanGroup, Prod.map]

theorem isUnbroken_of_balanced (h : Balanced s) : IsUnbroken s := by
  intro nested rest
  induction h generalizing nested rest with
  | @plain s hs =>
    induction s with
    | nil => rfl
    | cons c s ih =>
      rw [List.forall_mem_cons] at hs
      rw [List.cons_append, scanGroup_plain _ _ hs.1.1, ih hs.2]
      rfl
  | append _ _ ihs iht =>
    rw [List.append_assoc, ihs, iht]
    simp [Prod.map]
  | group _ ih =>
    rw [List.cons_append, List.append_assoc, scanGroup_open, ih, List.singleton_append,
      scanGroup_close]
    simp [Prod.map]
  | pair _ _ ihs iht =>
    rw [List.cons_append, List.append_assoc, scanGroup_open, ihs, List.cons_append,
      scanGroup_comma, List.append_assoc, iht, List.singleton_append, scanGroup_close]
    simp [Prod.map]

theorem scanGroup_eq_close (h : IsUnbroken s) (rest : List Char) :
    scanGroup 0 (s ++ ')' :: rest) = (s, rest) := by
  rw [h]
  simp [scanGroup]

theorem scanGroup_eq_comma (h : IsUnbroken s) (rest : List Char) :
    scanGroup 0 (s ++ ',' :: rest) = (s, ',' :: rest) := by
  rw [h]
  simp [scanGroup]

/-! ## Literals -/

/-- The text is empty or goes on with a character that ends a literal. -/
def EndsLiteral (rest : List Char) : Prop :=
  ∀ c ∈ rest.head?, c ∈ [' ', '!', '^']

theorem endsLiteral_nil : EndsLiteral [] := nofun

theorem endsLiteral_cons (hc : c ∈ [' ', '!', '^']) : EndsLiteral (c :: rest) := by
  intro d hd
  obtain rfl : c = d := by simpa using hd
  exact hc

theorem scanLiteral_of_endsLiteral (seen : Bool) (h : EndsLiteral rest) :
    scanLiteral seen rest = ([], rest) := by
  cases rest with
  | nil => rfl
  | cons c rest =>
    have hc : c ∈ [' ', '!', '^'] := h c rfl
    simp only [List.mem_cons, List.not_mem_nil, or_false] at hc
    rcases hc with rfl | rfl | rfl <;> cases seen <;> rfl

theorem scanLiteral_digits (seen : Bool) (hs : IsDigits s) (rest : List Char) :
    scanLiteral seen (s ++ rest) = (scanLiteral seen rest).map (s ++ ·) id := by
  induction s with
  | nil => rfl
  | cons c s ih =>
    obtain ⟨hc, hs⟩ := List.forall_mem_cons.1 hs
    rw [List.cons_append, scanLiteral, if_pos hc, ih hs]
    rfl

/-- A written fraction is cut off whole. -/
theorem scanLiteral_partsText (n d : ℕ) (h : EndsLiteral rest) :
    scanLiteral false (Fraction.partsText false n d ++ rest) =
      (Fraction.partsText false n d, rest) := by
  by_cases hd : d = 1
  · rw [hd, Fraction.partsText_one, scanLiteral_digits false (isDigits_text n),
      scanLiteral_of_endsLiteral false h]
    simp
  · obtain ⟨c, s, hcs, hc⟩ := Digits.exists_text_eq_cons d
    have hslash : scanLiteral false ('/' :: (Digits.text d ++ rest)) =
        (scanLiteral true (Digits.text d ++ rest)).map ('/' :: ·) id := by
      rw [scanLiteral, if_neg (by decide), if_pos]
      · rfl
      · rw [hcs]
        simpa [startsWithDigit] using hc
    rw [Fraction.partsText_of_ne_one n hd, List.append_assoc, List.cons_append,
      scanLiteral_digits false (isDigits_text n), hslash, scanLiteral_digits true (isDigits_text d),
      scanLiteral_of_endsLiteral true h]
    simp

/-! ## Keywords -/

/-- The characters that literals, groups and white space start with. -/
def IsStart (c : Char) : Prop :=
  c.isDigit = true ∨ isBlank c = true ∨ c ∈ ['(', ',']

instance : DecidablePred IsStart :=
  fun c => inferInstanceAs (Decidable (c.isDigit = true ∨ isBlank c = true ∨ c ∈ ['(', ',']))

/-- The name of the variable, if there is one, cannot be taken for anything else. -/
def IsApart (name : Option (List Char)) : Prop :=
  ∀ c s, name = some (c :: s) → ¬ IsStart c ∧ ∀ op ∈ Operator.spelled,
    ¬ c :: s <+: op.keyword.toList ∧ ¬ op.keyword.toList <+: c :: s

variable {name : Option (List Char)} {input : List Char} {m : Match}

/-- What the keywords at the start of a text are. -/
inductive Starts (name : Option (List Char)) (input : List Char) : Match → Prop
  | blank {c : Char} {rest : List Char} (hinput : input = c :: rest) (hc : isBlank c = true) :
      Starts name input ⟨[' '], .blank⟩
  | operator {op : Operator} (hop : op ∈ Operator.spelled) (h : op.keyword.toList <+: input) :
      Starts name input ⟨op.keyword.toList, .operator op⟩
  | variableName {v : List Char} (hname : name = some v) (hne : v ≠ []) (h : v <+: input) :
      Starts name input ⟨v, .variableName⟩

theorem mem_blankMatches_iff :
    m ∈ blankMatches input ↔ m = ⟨[' '], .blank⟩ ∧ ∃ c rest, input = c :: rest ∧ isBlank c = true := by
  cases input with
  | nil => simp [blankMatches]
  | cons c rest => by_cases hc : isBlank c = true <;> simp [blankMatches, hc]

theorem mem_operatorMatches_iff :
    m ∈ operatorMatches input ↔ ∃ op ∈ Operator.spelled, op.keyword.toList <+: input ∧
      m = ⟨op.keyword.toList, .operator op⟩ := by
  simp only [operatorMatches, List.mem_map, List.mem_filter, List.isPrefixOf_iff_prefix, and_assoc,
    eq_comm (a := m)]

theorem mem_variableMatches_iff :
    m ∈ variableMatches name input ↔
      ∃ v, name = some v ∧ v ≠ [] ∧ v <+: input ∧ m = ⟨v, .variableName⟩ := by
  cases name with
  | none => simp [variableMatches]
  | some v =>
    by_cases h : v ≠ [] ∧ v <+: input
    · simp [variableMatches, h]
    · simp [variableMatches]
      tauto

theorem mem_keywordMatches_iff : m ∈ keywordMatches name input ↔ Starts name input m := by
  rw [keywordMatches, List.mem_append, List.mem_append, mem_blankMatches_iff,
    mem_operatorMatches_iff, mem_variableMatches_iff]
  constructor
  · rintro ((⟨rfl, c, rest, hinput, hc⟩ | ⟨op, hop, h, rfl⟩) | ⟨v, hname, hne, h, rfl⟩)
    · exact .blank hinput hc
    · exact .operator hop h
    · exact .variableName hname hne h
  · rintro (⟨hinput, hc⟩ | ⟨hop, h⟩ | ⟨hname, hne, h⟩)
    · exact .inl (.inl ⟨rfl, _, _, hinput, hc⟩)
    · exact .inl (.inr ⟨_, hop, h, rfl⟩)
    · exact .inr ⟨_, hname, hne, h, rfl⟩

theorem IsApart.ne_cons (hname : IsApart name) (hc : IsStart c) (s : List Char) :
    name ≠ some (c :: s) :=
  fun heq => (hname c s heq).1 hc

theorem IsApart.ne_cons_of_mem (hname : IsApart name) (c : Char) (hc : c ∈ ['(', ','])
    (s : List Char) : name ≠ some (c :: s) :=
  hname.ne_cons (.inr (.inr hc)) s

theorem variableMatches_eq_nil (hname : ∀ s, name ≠ some (c :: s)) (rest : List Char) :
    variableMatches name (c :: rest) = [] := by
  refine List.eq_nil_iff_forall_not_mem.2 fun m hm => ?_
  obtain ⟨v, hv, hne, hstart, -⟩ := mem_variableMatches_iff.1 hm
  obtain ⟨d, s, rfl⟩ := List.exists_cons_of_ne_nil hne
  obtain ⟨rfl, -⟩ := List.cons_prefix_cons.1 hstart
  exact hname s hv

theorem variableMatches_keyword (hname : IsApart name) {op : Operator} (hop : op ∈ Operator.spelled)
    (rest : List Char) : variableMatches name (op.keyword.toList ++ rest) = [] := by
  refine List.eq_nil_iff_forall_not_mem.2 fun m hm => ?_
  obtain ⟨v, hv, hne, hstart, -⟩ := mem_variableMatches_iff.1 hm
  obtain ⟨d, s, rfl⟩ := List.exists_cons_of_ne_nil hne
  obtain ⟨hshorter, hlonger⟩ := (hname d s hv).2 op hop
  rcases List.prefix_or_prefix_of_prefix hstart (List.prefix_append _ _) with h | h
  · exact hshorter h
  · exact hlonger h

theorem operatorMatches_eq_nil (hc : ∀ op ∈ Operator.spelled, op.keyword.toList.head? ≠ some c)
    (rest : List Char) : operatorMatches (c :: rest) = [] := by
  refine List.eq_nil_iff_forall_not_mem.2 fun m hm => ?_
  obtain ⟨op, hop, hstart, -⟩ := mem_operatorMatches_iff.1 hm
  obtain ⟨d, s, hds⟩ := List.exists_cons_of_ne_nil (keyword_ne_nil hop)
  rw [hds, List.cons_prefix_cons] at hstart
  apply hc op hop
  rw [hds, hstart.1]
  rfl

/-- No keyword starts another one. -/
theorem eq_of_keyword_isPrefix : ∀ op ∈ Operator.spelled, ∀ op' ∈ Operator.spelled,
    op'.keyword.toList <+: op.keyword.toList → op' = op := by
  decide

theorem operatorMatches_keyword {op : Operator} (hop : op ∈ Operator.spelled) (rest : List Char) :
    operatorMatches (op.keyword.toList ++ rest) = [⟨op.keyword.toList, .operator op⟩] := by
  have hunique : ∀ op' ∈ Operator.spelled,
      op'.keyword.toList.isPrefixOf (op.keyword.toList ++ rest) = decide (op' = op) := by
    intro op' hop'
    rw [Bool.eq_iff_iff, List.isPrefixOf_iff_prefix, decide_eq_true_iff]
    constructor
    · intro h
      rcases List.prefix_or_prefix_of_prefix h (List.prefix_append _ _) with h | h
      · exact eq_of_keyword_isPrefix op hop op' hop' h
      · exact (eq_of_keyword_isPrefix op' hop' op hop h).symm
    · rintro rfl
      exact List.prefix_append _ _
  have honce : ∀ op ∈ Operator.spelled, Operator.spelled.filter (fun op' => op' = op) = [op] := by
    decide
  rw [operatorMatches, List.filter_congr hunique, honce op hop]
  rfl

/-- No keyword starts with white space. -/
theorem blankMatches_keyword {op : Operator} (hop : op ∈ Operator.spelled) (rest : List Char) :
    blankMatches (op.keyword.toList ++ rest) = [] := by
  obtain ⟨c, s, hcs⟩ := List.exists_cons_of_ne_nil (keyword_ne_nil hop)
  have hblank : ∀ op ∈ Operator.spelled, op.keyword.toList.head?.any isBlank = false := by decide
  have hc : isBlank c = false := by simpa [hcs] using hblank op hop
  rw [hcs, List.cons_append, blankMatches, hc]
  rfl

/-! ## Single tokens -/

theorem next_keyword (hname : IsApart name) {op : Operator} (hop : op ∈ Operator.spelled)
    (rest : List Char) :
    next name (op.keyword.toList ++ rest) = .ok (some (operator op), rest) := by
  have hmatches : keywordMatches name (op.keyword.toList ++ rest) =
      [⟨op.keyword.toList, .operator op⟩] := by
    rw [keywordMatches, operatorMatches_keyword hop, variableMatches_keyword hname hop,
      blankMatches_keyword hop]
    rfl
  rw [next, hmatches]
  simp

theorem next_blank (hname : IsApart name) (rest : List Char) :
    next name (' ' :: rest) = .ok (none, rest) := by
  have hmatches : keywordMatches name (' ' :: rest) = [⟨[' '], .blank⟩] := by
    rw [keywordMatches, operatorMatches_eq_nil (by decide),
      variableMatches_eq_nil (hname.ne_cons (.inr (.inl (by decide))))]
    rfl
  rw [next, hmatches]
  rfl

theorem keywordMatches_eq_nil (hname : ∀ s, name ≠ some (c :: s)) (hblank : isBlank c = false)
    (hop : ∀ op ∈ Operator.spelled, op.keyword.toList.head? ≠ some c) (rest : List Char) :
    keywordMatches name (c :: rest) = [] := by
  rw [keywordMatches, operatorMatches_eq_nil hop, variableMatches_eq_nil hname, blankMatches, hblank]
  rfl

/-- A parenthesis or a comma opens a group. -/
theorem next_of_scanGroup (hname : ∀ s, name ≠ some (c :: s)) (hc : c ∈ ['(', ','])
    {input : List Char} (h : scanGroup 0 input = (s, rest)) :
    next name (c :: input) = .ok (some (group s), rest) := by
  obtain ⟨hblank, hop, hdigit, hpoint⟩ : isBlank c = false ∧
      (∀ op ∈ Operator.spelled, op.keyword.toList.head? ≠ some c) ∧ c.isDigit = false ∧ c ≠ '.' := by
    rcases List.mem_pair.1 hc with rfl | rfl <;> decide
  have hliteral : literal? (c :: input) = none := by
    unfold literal?
    split
    · next heq => exact absurd (List.cons.inj heq).1 hpoint
    · rw [startsWithDigit, hdigit]
      rfl
  have hgroup : group? (c :: input) = some (s, rest) := by
    rw [group?, if_pos (by simpa using hc), h]
  rw [next, keywordMatches_eq_nil hname hblank hop]
  simp only [hliteral, hgroup]

theorem next_literal (hname : IsApart name) (n d : ℕ) (h : EndsLiteral rest) :
    next name (Fraction.partsText false n d ++ rest) =
      .ok (some (literal (Fraction.partsText false n d)), rest) := by
  have hscan := scanLiteral_partsText n d h
  obtain ⟨c, s, hcs, hc⟩ := Fraction.exists_partsText_eq_cons n d
  have hdigit : ∀ n < 10, isBlank (Nat.digitChar n) = false ∧
      (∀ op ∈ Operator.spelled, op.keyword.toList.head? ≠ some (Nat.digitChar n)) ∧
      Nat.digitChar n ≠ '.' := by
    decide
  obtain ⟨hblank, hop, hpoint⟩ : isBlank c = false ∧
      (∀ op ∈ Operator.spelled, op.keyword.toList.head? ≠ some c) ∧ c ≠ '.' := by
    obtain ⟨n, hn, rfl⟩ := exists_digitChar hc
    exact hdigit n hn
  rw [hcs, List.cons_append] at hscan ⊢
  have hliteral : literal? (c :: (s ++ rest)) = some (c :: s, rest) := by
    unfold literal?
    split
    · next heq => exact absurd (List.cons.inj heq).1 hpoint
    · rw [startsWithDigit, if_pos hc, hscan]
  rw [next, keywordMatches_eq_nil (hname.ne_cons (.inl hc)) hblank hop]
  simp only [hliteral]

/-! ## Texts -/

/-- What is cut off a text, and what it leaves. -/
theorem next_ok_cases {token : Option Token} (h : next name input = .ok (token, rest)) :
    (token = none ∧ ∃ c, isBlank c = true ∧ input = c :: rest) ∨
    (∃ op ∈ Operator.spelled, token = some (operator op) ∧ input = op.keyword.toList ++ rest) ∨
    (∃ v, name = some v ∧ v ≠ [] ∧ token = some variableName ∧ input = v ++ rest) ∨
    (∃ s, token = some (literal s) ∧ literal? input = some (s, rest)) ∨
    ∃ s, token = some (group s) ∧ group? input = some (s, rest) := by
  unfold next at h
  split at h
  · next spelling keyword hfound =>
    have hstarts : Starts name input ⟨spelling, keyword⟩ :=
      mem_keywordMatches_iff.1 (hfound ▸ List.mem_singleton_self _)
    cases hstarts with
    | blank hinput hc =>
      subst hinput
      cases h
      exact .inl ⟨rfl, _, hc, rfl⟩
    | operator hop hstart =>
      obtain ⟨behind, rfl⟩ := hstart
      cases h
      rw [List.drop_left]
      exact .inr (.inl ⟨_, hop, rfl, rfl⟩)
    | variableName hname hne hstart =>
      obtain ⟨behind, rfl⟩ := hstart
      cases h
      rw [List.drop_left]
      exact .inr (.inr (.inl ⟨_, hname, hne, rfl, rfl⟩))
  · split at h
    · next hliteral =>
      cases h
      exact .inr (.inr (.inr (.inl ⟨_, rfl, hliteral⟩)))
    · split at h
      · next hgroup =>
        cases h
        exact .inr (.inr (.inr (.inr ⟨_, rfl, hgroup⟩)))
      · cases h
  · cases h

/-- Where nothing is cut off, no token starts, or more than one keyword does. -/
theorem next_error_cases {e : ParseError} (h : next name input = .error e) :
    (e = .unexpectedInput input ∧ keywordMatches name input = [] ∧ literal? input = none ∧
      group? input = none) ∨
    (e = .ambiguousKeyword input ((keywordMatches name input).map Match.spelling) ∧
      1 < (keywordMatches name input).length) := by
  unfold next at h
  split at h
  · split at h <;> cases h
  · next hkeyword =>
    split at h
    · cases h
    · next hliteral =>
      split at h
      · cases h
      · next hgroup =>
        cases h
        exact .inl ⟨rfl, hkeyword, hliteral, hgroup⟩
  · next hone hnone =>
    -- the list of matches is neither empty nor a single one
    cases h
    refine .inr ⟨rfl, ?_⟩
    match hfound : keywordMatches name input with
    | [] => exact absurd hfound hnone
    | [⟨spelling, keyword⟩] => exact absurd hfound (hone spelling keyword)
    | _ :: _ :: found => exact Nat.one_lt_succ_succ found.length

theorem ofText_of_next_error {e : ParseError} (hne : input ≠ [])
    (h : next name input = .error e) : ofText name input = .error e := by
  rw [ofText, dif_neg hne]
  split
  · next heq =>
    cases h.symm.trans heq
    rfl
  · next heq => cases h.symm.trans heq

theorem ofText_of_next {input : List Char} {token : Option Token} (hne : input ≠ [])
    (h : next name input = .ok (token, rest)) :
    ofText name input = (ofText name rest).map (token.toList ++ ·) := by
  rw [ofText, dif_neg hne]
  split
  · next heq => cases h.symm.trans heq
  · next heq =>
    cases h.symm.trans heq
    cases ofText name rest <;> rfl

/-- The steps by which a text is cut up, the last of which may fail. -/
theorem ofText_rec {motive : List Char → Except ParseError (List Token) → Prop}
    (nil : motive [] (.ok []))
    (error : ∀ {input e}, input ≠ [] → next name input = .error e → motive input (.error e))
    (cons : ∀ {input rest token result}, input ≠ [] → next name input = .ok (token, rest) →
      motive rest result → motive input (result.map (token.toList ++ ·)))
    (input : List Char) : motive input (ofText name input) := by
  -- every token leaves a shorter text
  induction hn : input.length using Nat.strong_induction_on generalizing input with
  | _ n ih =>
    subst hn
    by_cases hne : input = []
    · rw [ofText, dif_pos hne, hne]
      exact nil
    · cases hnext : next name input with
      | error e =>
        rw [ofText_of_next_error hne hnext]
        exact error hne hnext
      | ok result =>
        obtain ⟨token, rest⟩ := result
        rw [ofText_of_next hne hnext]
        exact cons hne hnext (ih _ (next_length_lt hne hnext) rest rfl)

/-- What holds of the empty text and stays true when a token is put in front holds of every text that is
cut into tokens. -/
theorem ofText_induction {motive : List Char → List Token → Prop}
    (nil : motive [] [])
    (cons : ∀ {input rest token tokens}, input ≠ [] → next name input = .ok (token, rest) →
      motive rest tokens → motive input (token.toList ++ tokens))
    {input : List Char} {tokens : List Token} (h : ofText name input = .ok tokens) :
    motive input tokens := by
  refine ofText_rec (motive := fun input result => ∀ tokens, result = .ok tokens →
    motive input tokens) ?_ ?_ ?_ input tokens h
  · rintro _ ⟨⟩
    exact nil
  · intro input e hne hnext tokens heq
    cases heq
  · intro input rest token result hne hnext ih tokens heq
    cases result with
    | error e => cases heq
    | ok tokens' =>
      cases heq
      exact cons hne hnext (ih tokens' rfl)

theorem length_le_of_ofText {input : List Char} {tokens : List Token}
    (h : ofText name input = .ok tokens) : tokens.length ≤ input.length := by
  refine ofText_induction (motive := fun input tokens => tokens.length ≤ input.length) le_rfl ?_ h
  intro input rest token tokens hne hnext hle
  have hlt := next_length_lt hne hnext
  have htoken : token.toList.length ≤ 1 := by cases token <;> simp
  rw [List.length_append]
  omega

end Token

end Formula
