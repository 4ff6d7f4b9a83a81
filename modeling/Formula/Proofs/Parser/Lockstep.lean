import Formula.Proofs.Assembly.Lockstep
import Formula.Proofs.Literal
import Formula.Proofs.Parser

/-!
# Two runs of reading

Two parsers that know the variable by the same name cut a text into the same tokens. If they make
interchangeable leaves of these, they read the text in lockstep (`tracks_readLevel`): through all groups
and all tiers, they give interchangeable trees or the same error.

There are two cases of interest. Parsers that differ in whether they read exactly give trees that
differ in their leaves only (`parse_exact_rounded`). And of two parsers that differ in the nesting they
allow, the one that allows more does what the other one does, unless that one fails for this very
reason (`parse_of_maxDepth_le`).
-/

namespace Formula

/-! ## Literal tokens -/

namespace Token

variable {name : Option (List Char)} {input rest : List Char} {tokens : List Token}

/-- What holds of every token that a text can start with holds of all tokens of a text. -/
theorem forall_mem_of_next {P : Token → Prop}
    (hP : ∀ {input rest token}, next name input = .ok (some token, rest) → P token)
    (h : ofText name input = .ok tokens) : ∀ token ∈ tokens, P token := by
  refine ofText_induction (motive := fun _ tokens => ∀ token ∈ tokens, P token)
    (List.forall_mem_nil P) ?_ h
  intro input rest token tokens _ hnext htokens
  refine List.forall_mem_append.2 ⟨?_, htokens⟩
  cases token with
  | none => exact List.forall_mem_nil P
  | some token => exact List.forall_mem_singleton.2 (hP hnext)

theorem isLiteral_of_mem (h : ofText name input = .ok tokens) {text : List Char}
    (htext : .literal text ∈ tokens) : IsLiteral text := by
  refine forall_mem_of_next (P := fun token => ∀ text, token = .literal text → IsLiteral text)
    ?_ h _ htext text rfl
  rintro input rest _ hnext text rfl
  exact isLiteral_of_literal? (literal?_of_next hnext)

end Token

/-! ## Reading in lockstep -/

namespace Parser

open Token Assembly Formula.Expr List

variable {cut : Prop} {R : Expr → Expr → Prop} {p p' : Parser}
  {read read' : List Char → Traced Expr} {room room' : ℕ}

theorem readLiteral_eq_ok (p : Parser) {text : List Char} (h : IsLiteral text) :
    ∃ v, p.readLiteral text = .ok v := by
  obtain ⟨f, hf⟩ := h.ofText_eq_ok
  obtain ⟨x, hx⟩ := h.readDouble?_eq_some
  unfold readLiteral
  split_ifs
  · exact ⟨_, congrArg (Except.map Value.fraction) hf⟩
  · rw [hx]
    exact ⟨_, rfl⟩

theorem exists_fraction_of_readLiteral {text : List Char} {v : Value} (hp : p.exact = true)
    (h : p.readLiteral text = .ok v) : ∃ f, Fraction.read? text = some f ∧ v = .fraction f := by
  rw [readLiteral, if_pos hp] at h
  cases hf : Fraction.ofText text with
  | error e =>
    rw [hf] at h
    cases h
  | ok f =>
    rw [hf] at h
    exact ⟨f, Fraction.ofText_eq_ok_iff.1 hf, (Except.ok.inj h).symm⟩

theorem exists_double_of_readLiteral {text : List Char} {v : Value} (hp : p.exact = false)
    (h : p.readLiteral text = .ok v) : ∃ x, readDouble? text = some x ∧ v = .double x := by
  rw [readLiteral, if_neg (ne_true_of_eq_false hp)] at h
  split at h
  · next x hx => exact ⟨x, hx, (Except.ok.inj h).symm⟩
  · cases h

/-- The parsers know the variable by the same name and make related leaves of it and of literals. -/
structure LeavesRelated (R : Expr → Expr → Prop) (p p' : Parser) : Prop where
  variableName_eq : p.variableName = p'.variableName
  identity : R (.poly (.identity p.kind)) (.poly (.identity p'.kind))
  literal {text : List Char} {v v' : Value} (hv : p.readLiteral text = .ok v)
    (hv' : p'.readLiteral text = .ok v') : R (.constant v) (.constant v')

theorem tracks_entry (hR : Interchangeable R) (hp : LeavesRelated R p p')
    (hread : ∀ text, Tracks cut R (read text).outcome (read' text).outcome) {token : Token}
    (htoken : ∀ text, token = .literal text → IsLiteral text) :
    Tracks cut R (p.entry read token).outcome (p'.entry read' token).outcome := by
  cases token with
  | operator op => exact .ok (hR.pending op)
  | variableName => exact .ok hp.identity
  | literal text =>
    obtain ⟨v, hv⟩ := p.readLiteral_eq_ok (htoken text rfl)
    obtain ⟨v', hv'⟩ := p'.readLiteral_eq_ok (htoken text rfl)
    simp only [entry, hv, hv']
    exact .ok (hp.literal hv hv')
  | group text => exact hread text

/-- Both runs stop at the same token, if they stop at all. -/
theorem tracks_entries (hR : Interchangeable R) (hp : LeavesRelated R p p')
    (hread : ∀ text, Tracks cut R (read text).outcome (read' text).outcome) {tokens : List Token}
    (htokens : ∀ text, .literal text ∈ tokens → IsLiteral text) :
    Tracks cut (Forall₂ R) (p.entries read tokens).outcome (p'.entries read' tokens).outcome := by
  induction tokens with
  | nil => exact .ok .nil
  | cons token tokens ih =>
    rw [entries, entries]
    refine (tracks_entry hR hp hread fun text h => htokens text (h ▸ mem_cons_self)).bind
      fun e e' he => ?_
    refine (ih fun text h => htokens text (mem_cons_of_mem _ h)).bind fun row row' hrow => ?_
    exact .ok (.cons he hrow)

theorem tracks_readLevel (hR : Interchangeable R) (hp : LeavesRelated R p p')
    (hlevels : Levels cut p.maxDepth room p'.maxDepth room') (text : List Char) :
    Tracks cut R (p.readLevel room text).outcome (p'.readLevel room' text).outcome := by
  induction room generalizing room' text with
  | zero =>
    refine hlevels.tracks_tooDeep fun hlimit hroom => ?_
    rw [hroom, readLevel, hlimit]
    rfl
  | succ room ih =>
    obtain ⟨room', rfl, hfewer⟩ := hlevels.exists_pred
    rw [readLevel, readLevel, ← hp.variableName_eq]
    split
    · exact .error _
    · exact .error _
    · next tokens _ htokens =>
      exact (tracks_entries hR hp (ih hfewer) fun _ => isLiteral_of_mem htokens).bind
        fun _ _ hrow => hR.tracks_assembleWithin hlevels hrow

end Parser

/-! ## Exact and rounded trees -/

/-- The second tree is the first one with all literals read as 64-bit numbers instead of fractions. -/
inductive Expr.RoundsTo : Expr → Expr → Prop
  | hole : RoundsTo .hole .hole
  | constant {text : List Char} {f : Fraction} {x : Float} (hf : Fraction.read? text = some f)
      (hx : Parser.readDouble? text = some x) :
      RoundsTo (.constant (.fraction f)) (.constant (.double x))
  | identity : RoundsTo (.poly (.identity .fraction)) (.poly (.identity .double))
  | unary {x y : Expr} (op : UnaryOp) (h : RoundsTo x y) : RoundsTo (.unary op x) (.unary op y)
  | binary {a b c d : Expr} (op : BinaryOp) (h : RoundsTo a c) (h' : RoundsTo b d) :
      RoundsTo (.binary op a b) (.binary op c d)

namespace Parser

open Assembly

theorem interchangeable_roundsTo : Interchangeable Expr.RoundsTo where
  pendingOperator?_eq h := by
    cases h with
    | hole => rfl
    | constant => rfl
    | identity => rfl
    | unary op h => cases h <;> rfl
    | binary op h h' => cases h <;> cases h' <;> rfl
  isResolved_eq h := by
    induction h with
    | hole => rfl
    | constant => rfl
    | identity => rfl
    | unary op _ ih => exact ih
    | binary op _ _ ih ih' => rw [Expr.isResolved, Expr.isResolved, ih, ih']
  pending op := by
    cases op with
    | unary op => exact .unary op .hole
    | binary op => exact .binary op .hole .hole
  unary := .unary
  binary := .binary

theorem leavesRelated_roundsTo (p : Parser) :
    LeavesRelated Expr.RoundsTo { p with exact := true } { p with exact := false } where
  variableName_eq := rfl
  identity := .identity
  literal hv hv' := by
    obtain ⟨f, hf, rfl⟩ := exists_fraction_of_readLiteral rfl hv
    obtain ⟨x, hx, rfl⟩ := exists_double_of_readLiteral rfl hv'
    exact .constant hf hx

/-- Read exactly and read with rounding, a text gives the same error or trees of the same shape, with
fractions in the one where the other has 64-bit numbers. -/
theorem parse_exact_rounded (p : Parser) (text : List Char) :
    (∃ e, { p with exact := true }.parse text = .error e ∧
      { p with exact := false }.parse text = .error e) ∨
    ∃ t u, { p with exact := true }.parse text = .ok t ∧
      { p with exact := false }.parse text = .ok u ∧ t.RoundsTo u := by
  have h : Tracks False Expr.RoundsTo ({ p with exact := true }.parse text)
      ({ p with exact := false }.parse text) :=
    tracks_readLevel interchangeable_roundsTo p.leavesRelated_roundsTo .same (toLowerCase text)
  exact h.error_or_ok

/-! ## Limits on nesting -/

theorem leavesRelated_eq (p : Parser) (m : ℕ) : LeavesRelated Eq p { p with maxDepth := m } where
  variableName_eq := rfl
  identity := rfl
  literal hv hv' := congrArg _ (Except.ok.inj (hv.symm.trans hv'))

/-- A text that is not nested too deeply for a parser is read no differently with a higher limit. -/
theorem parse_of_maxDepth_le {p : Parser} {m : ℕ} {text : List Char} (hm : p.maxDepth ≤ m)
    (hdeep : ∀ limit, p.parse text ≠ .error (.tooDeep limit)) :
    { p with maxDepth := m }.parse text = p.parse text := by
  have h : Tracks True Eq (p.parse text) ({ p with maxDepth := m }.parse text) :=
    tracks_readLevel interchangeable_eq (p.leavesRelated_eq m)
      (.more trivial (Nat.succ_le_succ hm)) (toLowerCase text)
  exact h.eq_of_ne_tooDeep hdeep

/-- The text `√-(-x)!`, with a run of two operators in front of a group that holds another one. -/
theorem parse_of_maxDepth_le_of_negations_in_group :
    let p : Parser := ⟨true, some ['x'], 1⟩
    let text := "sqrt -(-x)!".toList
    p.maxDepth ≤ 128 ∧ (∀ limit, p.parse text ≠ .error (.tooDeep limit)) ∧
      { p with maxDepth := 128 }.parse text = p.parse text := by
  intro p text
  have hok : (p.parse text).isOk = true := by decide +kernel
  have hdeep (limit : ℕ) : p.parse text ≠ .error (.tooDeep limit) := by
    intro h
    rw [h] at hok
    cases hok
  exact ⟨by decide, hdeep, parse_of_maxDepth_le (by decide) hdeep⟩

end Parser

end Formula
