import Formula.Proofs.Parser.Lockstep

/-!
# Errors of reading

A text is refused for one of a few reasons: a level of it cannot be cut into tokens, its operators do
not fit their operands, it is empty, or it is nested too deeply for the limit of the parser
(`parse_fails`). Literals are no reason. What is cut off a text as a literal is the longest one there,
and the readers accept all of them (`literals_are_longest_and_valid`).

`FailsWith P x` says that the error of a result, if it is one, satisfies `P`. Its rules follow the way
results are put together, so each function of the assembly and of the parser has one lemma.
-/

namespace Formula

/-! ## Results and their errors -/

/-- The result is a value, or an error that satisfies `P`. -/
def FailsWith {α : Type} (P : ParseError → Prop) (x : Except ParseError α) : Prop :=
  ∀ e, x = .error e → P e

namespace FailsWith

variable {α β : Type} {P Q : ParseError → Prop} {x : Except ParseError α} {e : ParseError}

theorem ok (a : α) : FailsWith P (.ok a) := nofun

theorem error (h : P e) : FailsWith P (.error e : Except ParseError α) := by
  rintro _ ⟨⟩
  exact h

theorem mono (h : FailsWith P x) (hPQ : ∀ e, P e → Q e) : FailsWith Q x :=
  fun e he => hPQ e (h e he)

theorem except_bind {f : α → Except ParseError β} (h : FailsWith P x)
    (hf : ∀ a, x = .ok a → FailsWith P (f a)) : FailsWith P (x.bind f) := by
  cases x with
  | ok a => exact hf a rfl
  | error e => exact error (h e rfl)

theorem bind {x : Traced α} {f : α → Traced β} (h : FailsWith P x.outcome)
    (hf : ∀ a, FailsWith P (f a).outcome) : FailsWith P (x.bind f).outcome := by
  rw [Traced.bind_outcome]
  exact h.except_bind fun a _ => hf a

theorem ite_build {c : Prop} [Decidable c] {node : Expr} {a : α} (h : P e) :
    FailsWith P (if c then Traced.build node a else .error e).outcome := by
  split_ifs
  · exact ok a
  · exact error h

end FailsWith

/-! ## Assembly -/

/-- Why a row cannot be assembled. -/
inductive AssemblyError (limit : ℕ) : ParseError → Prop
  | missingOperand (op : Operator) : AssemblyError limit (.missingOperand op)
  | unresolvedStack {count : ℕ} (h : 1 < count) : AssemblyError limit (.unresolvedStack count)
  | emptyExpression : AssemblyError limit .emptyExpression
  | tooDeep : AssemblyError limit (.tooDeep limit)

namespace Assembly

variable {P : ParseError → Prop}

theorem settle_fails {resolver : Operator → List Expr → Traced (Expr × List Expr)}
    (hresolver : ∀ op row, FailsWith P (resolver op row).outcome) (row : List Expr) :
    FailsWith P (settle resolver row).outcome := by
  cases row with
  | nil => exact .ok _
  | cons e row =>
    rw [settle]
    split
    · exact (hresolver _ _).bind fun _ => .ok _
    · exact .ok _

theorem resolveLeading_fails (limit room : ℕ) (op : Operator) (row : List Expr) :
    FailsWith (AssemblyError limit) (resolveLeading limit room op row).outcome := by
  induction room generalizing op row with
  | zero => exact .error .tooDeep
  | succ room ih =>
    rw [resolveLeading]
    refine (settle_fails ih row).bind fun row => ?_
    split
    · exact .ite_build (.missingOperand _)
    · refine (settle_fails ih _).bind fun rest => ?_
      split
      · exact .ite_build (.missingOperand _)
      · exact .error (.missingOperand _)
    · exact .error (.missingOperand _)

theorem resolve_fails (limit room : ℕ) (op : Operator) (left right : List Expr) :
    FailsWith (AssemblyError limit) (resolve limit room op left right).outcome := by
  unfold resolve
  split
  · exact (resolveLeading_fails _ _ _ _).bind fun _ => .ok _
  · exact .error .tooDeep
  · split
    · exact .ite_build (.missingOperand _)
    · exact .error (.missingOperand _)
  · refine (settle_fails (resolveLeading_fails limit _) right).bind fun right => ?_
    split
    · exact .ite_build (.missingOperand _)
    · exact .error (.missingOperand _)

theorem applyTier_fails (limit room : ℕ) (tier : Tier) (left right : List Expr) :
    FailsWith (AssemblyError limit) (applyTier limit room tier left right).outcome := by
  -- the row to the right gets shorter with every step
  induction hn : right.length using Nat.strongRecOn generalizing left right with
  | ind n ih =>
    subst hn
    cases right with
    | nil =>
      rw [applyTier_nil]
      exact .ok _
    | cons e rest =>
      cases hop : operatorOf? tier e with
      | none =>
        rw [applyTier_of_none _ _ hop]
        exact ih _ (Nat.lt_succ_self _) _ _ rfl
      | some op =>
        rw [applyTier_of_some _ _ hop]
        refine (resolve_fails limit room op left rest).except_bind fun result hres => ?_
        exact ih _ (Nat.lt_succ_of_le (resolve_length_le hres)) _ _ rfl

theorem applyTiers_fails (limit room : ℕ) (tiers : List Tier) (row : List Expr) :
    FailsWith (AssemblyError limit) (applyTiers limit room tiers row).outcome := by
  induction tiers generalizing row with
  | nil => exact .ok _
  | cons tier tiers ih =>
    rw [applyTiers]
    split_ifs
    · exact .ok _
    · exact (applyTier_fails limit room tier [] row).bind ih

theorem single_fails (limit : ℕ) (row : List Expr) :
    FailsWith (AssemblyError limit) (single row) := by
  match row with
  | [] => exact .error .emptyExpression
  | [e] =>
    rw [single]
    split
    · exact .error (.missingOperand _)
    · exact .ok _
  | _ :: _ :: row => exact .error (.unresolvedStack (Nat.one_lt_succ_succ row.length))

theorem assembleWithin_fails (limit room : ℕ) (row : List Expr) :
    FailsWith (AssemblyError limit) (assembleWithin limit room row).outcome :=
  (applyTiers_fails limit room _ _).bind (single_fails limit)

end Assembly

/-! ## Tokens -/

namespace Token

/-- Why a text cannot be cut into tokens: behind the tokens that have been cut off, none starts, or more
than one keyword does. -/
inductive CutError (name : Option (List Char)) : ParseError → Prop
  | unexpectedInput {remaining : List Char} (hne : remaining ≠ [])
      (hkeyword : keywordMatches name remaining = []) (hliteral : literal? remaining = none)
      (hgroup : group? remaining = none) : CutError name (.unexpectedInput remaining)
  | ambiguousKeyword {remaining : List Char} (h : 1 < (keywordMatches name remaining).length) :
      CutError name (.ambiguousKeyword remaining ((keywordMatches name remaining).map Match.spelling))

theorem next_fails (name : Option (List Char)) {input : List Char} (hne : input ≠ []) :
    FailsWith (CutError name) (next name input) := by
  intro e he
  rcases next_error_cases he with ⟨rfl, hkeyword, hliteral, hgroup⟩ | ⟨rfl, h⟩
  · exact .unexpectedInput hne hkeyword hliteral hgroup
  · exact .ambiguousKeyword h

theorem ofText_fails (name : Option (List Char)) (input : List Char) :
    FailsWith (CutError name) (ofText name input) := by
  refine ofText_rec (motive := fun _ result => FailsWith (CutError name) result) ?_ ?_ ?_ input
  · exact .ok _
  · intro input e hne hnext
    exact .error (next_fails name hne e hnext)
  · intro input rest token result _ _ hrest
    cases result with
    | error e => exact .error (hrest e rfl)
    | ok tokens => exact .ok _

end Token

/-! ## Reading -/

namespace Parser

open Token

variable {P : ParseError → Prop} {p : Parser} {read : List Char → Traced Expr}

/-- Why a text is not an expression. -/
inductive ReadingError (p : Parser) : ParseError → Prop
  | cut {e : ParseError} (h : CutError p.variableName e) : ReadingError p e
  | assembly {e : ParseError} (h : AssemblyError p.maxDepth e) : ReadingError p e

theorem ReadingError.ne_invalidLiteral {e : ParseError} (h : p.ReadingError e)
    (literal : List Char) : e ≠ .invalidLiteral literal := by
  rintro rfl
  cases h with
  | cut h => cases h
  | assembly h => cases h

theorem entry_fails (hread : ∀ text, FailsWith P (read text).outcome) {token : Token}
    (htoken : ∀ text, token = .literal text → IsLiteral text) :
    FailsWith P (p.entry read token).outcome := by
  cases token with
  | operator op => exact .ok _
  | variableName => exact .ok _
  | literal text =>
    obtain ⟨v, hv⟩ := p.readLiteral_eq_ok (htoken text rfl)
    simp only [entry, hv]
    exact .ok _
  | group text => exact hread text

/-- A row fails with the errors of its groups only. -/
theorem entries_fails (hread : ∀ text, FailsWith P (read text).outcome) {tokens : List Token}
    (htokens : ∀ text, .literal text ∈ tokens → IsLiteral text) :
    FailsWith P (p.entries read tokens).outcome := by
  induction tokens with
  | nil => exact .ok _
  | cons token tokens ih =>
    rw [entries]
    refine (entry_fails hread fun text h => htokens text (h ▸ List.mem_cons_self)).bind fun e => ?_
    exact (ih fun text h => htokens text (List.mem_cons_of_mem _ h)).bind fun row => .ok _

theorem readLevel_fails (p : Parser) (room : ℕ) (text : List Char) :
    FailsWith p.ReadingError (p.readLevel room text).outcome := by
  induction room generalizing text with
  | zero => exact .error (.assembly .tooDeep)
  | succ room ih =>
    rw [readLevel]
    split
    · next e htokens => exact .error (.cut (ofText_fails _ _ e htokens))
    · exact .error (.assembly .emptyExpression)
    · next tokens _ htokens =>
      refine (entries_fails ih fun _ => isLiteral_of_mem htokens).bind fun row => ?_
      exact (Assembly.assembleWithin_fails _ _ row).mono fun _ => .assembly

/-- All errors of a parser come from cutting the text into tokens or from assembling these. -/
theorem parse_fails (p : Parser) (text : List Char) :
    FailsWith p.ReadingError (p.parse text) :=
  p.readLevel_fails _ _

/-- The literal cut off a text is the longest one that the text starts with, and there is none only if
the text starts with none. All of them are fractions, so that no text is refused because of a literal. -/
theorem literals_are_longest_and_valid (s : List Char) :
    (∀ text rest, literal? s = some (text, rest) ↔
      s = text ++ rest ∧ IsLiteral text ∧ ∀ t, t <+: s → IsLiteral t → t.length ≤ text.length) ∧
    (literal? s = none ↔ ∀ t, t <+: s → ¬ IsLiteral t) ∧
    (∀ t, t <+: s → IsLiteral t → ∃ f, Fraction.ofText t = .ok f) ∧
    ∀ (p : Parser) (literal : List Char), p.parse s ≠ .error (.invalidLiteral literal) := by
  refine ⟨fun text rest => literal?_eq_some_iff, literal?_eq_none_iff, fun t _ ht => ht.ofText_eq_ok,
    fun p literal h => ?_⟩
  exact (p.parse_fails s _ h).ne_invalidLiteral literal rfl

/-- A text with two slashes, of which the literal takes the first one only, although `1` is a literal as
well. -/
theorem literals_are_longest_and_valid_of_slashes :
    literal? "1/20/3".toList = some ("1/20".toList, "/3".toList) ∧
    (∀ t, t <+: "1/20/3".toList → IsLiteral t → t.length ≤ 4) ∧
    (∃ f, Fraction.ofText "1/20".toList = .ok f) ∧
    ∀ literal, ({ exact := true } : Parser).parse "1/20/3".toList ≠ .error (.invalidLiteral literal) := by
  have hcut : literal? "1/20/3".toList = some ("1/20".toList, "/3".toList) := by decide
  obtain ⟨hsome, -, hvalid, hparse⟩ := literals_are_longest_and_valid "1/20/3".toList
  obtain ⟨-, hliteral, hlongest⟩ := (hsome _ _).1 hcut
  exact ⟨hcut, hlongest, hvalid _ (by decide) hliteral, hparse _⟩

end Parser

end Formula
