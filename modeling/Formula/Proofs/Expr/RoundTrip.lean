import Formula.Proofs.Expr.Layout
import Formula.Proofs.Parser

/-!
# Texts that are read back

The text of an expression over literals is read as its layout (`readsAs_text`), at any depth and with
any operators. So a text is read back as the expression it was written for if and only if there is no
factorial of a remainder or of a logarithm in it (`parse_text_eq_iff`): these are the operators that
stand before their operands and are applied after factorials.
-/

namespace Formula.Expr

open Assembly Token

variable {e x a b : Expr} {p : Parser} {s s' : List Char} {t t' : Tree} {room least : ℕ}

/-! ## Characters of a text -/

/-- The characters of an operand, with the parentheses that its strength calls for. -/
def partText (least : ℕ) (x : Expr) : List Char :=
  if x.strength < least then '(' :: (x.text.toList ++ [')']) else x.text.toList

theorem toList_enclose (least : ℕ) (x : Expr) :
    (enclose least x.strength x.text).toList = x.partText least := by
  unfold enclose partText
  split_ifs
  · simp
  · rfl

theorem toList_text_negate (x : Expr) : (unary .negate x).text.toList = '-' :: x.partText 4 := by
  rw [text, String.toList_append, toList_enclose]
  rfl

theorem toList_text_factorial (x : Expr) :
    (unary .factorial x).text.toList = x.partText 6 ++ ['!'] := by
  rw [text, String.toList_append, toList_enclose]
  rfl

theorem toList_text_function {op : UnaryOp} (hop : IsFunction op) (x : Expr) :
    (unary op x).text.toList = op.keyword.toList ++ '(' :: (x.text.toList ++ [')']) := by
  have htext : (unary op x).text = op.keyword ++ "(" ++ x.text ++ ")" := by
    cases op <;> first | rfl | simp [IsFunction] at hop
  simp [htext]

theorem toList_text_sum {op : BinaryOp} (hop : op = .sum ∨ op = .difference) (a b : Expr) :
    (binary op a b).text.toList =
      a.text.toList ++ ' ' :: (op.keyword.toList ++ ' ' :: b.partText 2) := by
  have htext : (binary op a b).text =
      a.text ++ " " ++ op.keyword ++ " " ++ enclose 2 b.strength b.text := by
    rcases hop with rfl | rfl <;> rfl
  simp [htext, toList_enclose]

theorem toList_text_product {op : BinaryOp} (hop : op = .product ∨ op = .quotient) (a b : Expr) :
    (binary op a b).text.toList =
      a.partText 2 ++ ' ' :: (op.keyword.toList ++ ' ' :: b.partText 3) := by
  have htext : (binary op a b).text = enclose 2 a.strength a.text ++ " " ++ op.keyword ++ " " ++
      enclose 3 b.strength b.text := by
    rcases hop with rfl | rfl <;> rfl
  simp [htext, toList_enclose]

theorem toList_text_power (a b : Expr) :
    (binary .power a b).text.toList = a.partText 5 ++ '^' :: b.partText 5 := by
  simp [text, toList_enclose]

theorem toList_text_pair {op : BinaryOp} (hop : op.position = .beforeOperands) (a b : Expr) :
    (binary op a b).text.toList = op.keyword.toList ++
      '(' :: (a.text.toList ++ ',' :: (' ' :: b.text.toList ++ [')'])) := by
  have htext : (binary op a b).text = op.keyword ++ "(" ++ a.text ++ ", " ++ b.text ++ ")" := by
    cases op <;> first | rfl | cases hop
  simp [htext]

/-! ## Balance -/

theorem mem_spelled_binary (op : BinaryOp) : .binary op ∈ Operator.spelled := by
  cases op <;> decide

theorem mem_spelled_function {op : UnaryOp} (hop : IsFunction op) :
    .unary op ∈ Operator.spelled := by
  cases op <;> first | decide | simp [IsFunction] at hop

theorem balanced_keyword {op : Operator} (hop : op ∈ Operator.spelled) :
    Balanced op.keyword.toList := by
  have hplain : ∀ op ∈ Operator.spelled, op.keyword.toList.all (IsPlain ·) = true := by decide
  exact .plain fun c hc => of_decide_eq_true (List.all_eq_true.1 (hplain op hop) c hc)

theorem balanced_cons {c : Char} (hc : IsPlain c) (hs : Balanced s) : Balanced (c :: s) :=
  .append (.plain (List.forall_mem_singleton.2 hc)) hs

theorem balanced_partText (h : Balanced x.text.toList) : Balanced (x.partText least) := by
  unfold partText
  split_ifs
  · exact .group h
  · exact h

theorem balanced_partsText (n d : ℕ) : Balanced (Fraction.partsText false n d) := by
  have hdigits (n : ℕ) : Balanced (Digits.text n) :=
    .plain fun c hc => isPlain_of_isDigit (isDigits_text n c hc)
  by_cases hd : d = 1
  · rw [hd, Fraction.partsText_one]
    exact hdigits n
  · rw [Fraction.partsText_of_ne_one n hd]
    exact .append (hdigits n) (balanced_cons (by decide) (hdigits d))

theorem balanced_text (he : e.OverLiterals) : Balanced e.text.toList := by
  have hblank : IsPlain ' ' := by decide
  induction he with
  | literal hf hfinite hsign =>
    obtain ⟨n, d, hparts, -⟩ := Fraction.exists_simplified_eq hf hfinite hsign
    rw [text, Value.text, Fraction.toList_text hparts]
    exact balanced_partsText n d
  | @unary op x hx ih =>
    rcases op.written_cases with rfl | rfl | hop
    · rw [toList_text_negate]
      exact balanced_cons (by decide) (balanced_partText ih)
    · rw [toList_text_factorial]
      exact .append (balanced_partText ih) (.plain (List.forall_mem_singleton.2 (by decide)))
    · rw [toList_text_function hop]
      exact .append (balanced_keyword (mem_spelled_function hop)) (.group ih)
  | @binary op a b ha hb iha ihb =>
    have hkeyword : Balanced op.keyword.toList := balanced_keyword (mem_spelled_binary op)
    have hspaced {s : List Char} (hs : Balanced s) :
        Balanced (' ' :: (op.keyword.toList ++ ' ' :: s)) :=
      balanced_cons hblank (.append hkeyword (balanced_cons hblank hs))
    rcases op.written_cases with hop | hop | rfl | hop
    · rw [toList_text_sum hop]
      exact .append iha (hspaced (balanced_partText ihb))
    · rw [toList_text_product hop]
      exact .append (balanced_partText iha) (hspaced (balanced_partText ihb))
    · rw [toList_text_power]
      exact .append (balanced_partText iha) (balanced_cons (by decide) (balanced_partText ihb))
    · rw [toList_text_pair hop]
      exact .append hkeyword (.pair iha (balanced_cons hblank ihb))

/-! ## Reading -/

theorem cuts_binary {read : List Char → Traced Expr} (hname : IsApart p.variableName)
    (op : BinaryOp) : p.Cuts read op.keyword.toList [pending (.binary op)] := by
  have hkeyword : p.Cuts read (Operator.binary op).keyword.toList [pending (.binary op)] :=
    Parser.cuts_keyword hname (mem_spelled_binary op)
  exact hkeyword

theorem cuts_function {read : List Char → Traced Expr} (hname : IsApart p.variableName)
    {op : UnaryOp} (hop : IsFunction op) :
    p.Cuts read op.keyword.toList [pending (.unary op)] := by
  have hkeyword : p.Cuts read (Operator.unary op).keyword.toList [pending (.unary op)] :=
    Parser.cuts_keyword hname (mem_spelled_function hop)
  exact hkeyword

/-- The text gives the reading of the tree, with its minus signs not told apart yet. One level for each
character is enough for the groups in it. -/
def ReadsAs (p : Parser) (s : List Char) (t : Tree) : Prop :=
  ∀ room, s.length ≤ room → p.Yields (p.readLevel room) s (t.reading.map unmark)

theorem ReadsAs.outcome_readLevel (h : ReadsAs p s t) (ht : t.InOrder) (hroom : s.length < room) :
    (p.readLevel room s).outcome = .ok t.expr := by
  obtain ⟨room, rfl⟩ := Nat.exists_eq_succ_of_ne_zero (Nat.ne_zero_of_lt hroom)
  have hyields := h room (Nat.le_of_lt_succ hroom)
  exact Parser.outcome_readLevel ht hyields.row_eq (Nat.le_of_lt hroom)

theorem ReadsAs.after_blank (h : ReadsAs p s t) (hname : IsApart p.variableName) :
    ReadsAs p (' ' :: s) t := by
  intro room hroom
  exact (Parser.cuts_blank hname).append_yields (h room (Nat.le_of_lt hroom))

theorem map_unmark_leaf (ht : t.InOrder) : (Tree.leaf t.expr).reading.map unmark = [t.expr] := by
  rw [Tree.reading, List.map_singleton, unmark_operand ht.isResolved]

/-- A group is an operand for the level around it. -/
theorem ReadsAs.group (h : ReadsAs p s t) (ht : t.InOrder) (hname : IsApart p.variableName)
    (hs : Balanced s) : ReadsAs p ('(' :: (s ++ [')'])) (.leaf t.expr) := by
  intro room hroom
  rw [List.length_cons, List.length_append] at hroom
  rw [map_unmark_leaf ht]
  exact (Parser.cuts_group hname hs (h.outcome_readLevel ht (by omega))).yields

theorem ReadsAs.part (h : ReadsAs p x.text.toList x.layout) (hx : x.OverLiterals)
    (hname : IsApart p.variableName) (least : ℕ) :
    ReadsAs p (x.partText least) (part least x x.layout) := by
  unfold partText Expr.part
  split_ifs
  · exact h.group (inOrder_layout hx) hname (balanced_text hx)
  · exact h

theorem ReadsAs.negated (h : ReadsAs p s t) (hname : IsApart p.variableName) :
    ReadsAs p ('-' :: s) (.unary .negate t) := by
  intro room hroom
  have hminus : p.Cuts (p.readLevel room) ['-'] [pending (.binary .difference)] :=
    cuts_binary hname .difference
  exact hminus.append_yields (h room (Nat.le_of_lt hroom))

theorem ReadsAs.factorial (h : ReadsAs p s t) (hname : IsApart p.variableName) :
    ReadsAs p (s ++ ['!']) (withFactorial t) := by
  intro room hroom
  have hmem : Operator.unary .factorial ∈ Operator.spelled := by decide
  have hsign : p.Cuts (p.readLevel room) ['!'] [pending (.unary .factorial)] :=
    Parser.cuts_keyword hname hmem
  rw [List.length_append] at hroom
  rw [reading_withFactorial, List.map_append]
  exact (h room (by omega)).append (by decide) hsign.yields

theorem ReadsAs.applied {op : UnaryOp} (h : ReadsAs p s t) (hop : IsFunction op)
    (hname : IsApart p.variableName) : ReadsAs p (op.keyword.toList ++ s) (.unary op t) := by
  intro room hroom
  have hne : Operator.unary op ≠ .unary .negate := by
    rintro ⟨⟩
    simp [IsFunction] at hop
  rw [List.length_append] at hroom
  rw [Tree.reading_unary_before _ hop.position_eq, List.map_cons, unmark_pending hne]
  exact (cuts_function hname hop).append_yields (h room (by omega))

theorem map_unmark_binary {op : BinaryOp} (x y : Tree) (hop : op.position = .betweenOperands) :
    (Tree.binary op x y).reading.map unmark =
      x.reading.map unmark ++ pending (.binary op) :: y.reading.map unmark := by
  rw [Tree.reading_binary_between x y hop, List.map_append, List.map_cons, unmark_pending (by simp)]

/-- An operator with blanks around it. -/
theorem ReadsAs.spaced {op : BinaryOp} (h : ReadsAs p s t) (h' : ReadsAs p s' t')
    (hop : op.position = .betweenOperands) (hname : IsApart p.variableName) :
    ReadsAs p (s ++ ' ' :: (op.keyword.toList ++ ' ' :: s')) (.binary op t t') := by
  intro room hroom
  have hblank : p.Cuts (p.readLevel room) [' '] [] := Parser.cuts_blank hname
  simp only [List.length_append, List.length_cons] at hroom
  rw [map_unmark_binary t t' hop]
  refine (h room (by omega)).append (by decide) (hblank.append_yields ?_)
  exact (cuts_binary hname op).append_yields (hblank.append_yields (h' room (by omega)))

theorem ReadsAs.power (h : ReadsAs p s t) (h' : ReadsAs p s' t') (hname : IsApart p.variableName) :
    ReadsAs p (s ++ '^' :: s') (.binary .power t t') := by
  intro room hroom
  have hsign : p.Cuts (p.readLevel room) ['^'] [pending (.binary .power)] := cuts_binary hname .power
  rw [List.length_append, List.length_cons] at hroom
  rw [map_unmark_binary t t' rfl]
  exact (h room (by omega)).append (by decide) (hsign.append_yields (h' room (by omega)))

/-- The arguments of an operator are two operands for the level around them. -/
theorem ReadsAs.pair {op : BinaryOp} (h : ReadsAs p s t) (h' : ReadsAs p s' t') (ht : t.InOrder)
    (ht' : t'.InOrder) (hs : Balanced s) (hs' : Balanced s') (hop : op.position = .beforeOperands)
    (hname : IsApart p.variableName) :
    ReadsAs p (op.keyword.toList ++ '(' :: (s ++ ',' :: (s' ++ [')'])))
      (.binary op (.leaf t.expr) (.leaf t'.expr)) := by
  intro room hroom
  simp only [List.length_append, List.length_cons] at hroom
  have hleft : (p.readLevel room s).outcome = .ok t.expr := h.outcome_readLevel ht (by omega)
  have hright : (p.readLevel room s').outcome = .ok t'.expr := h'.outcome_readLevel ht' (by omega)
  rw [Tree.reading_binary_before _ _ hop, List.map_cons, List.map_append, map_unmark_leaf ht,
    map_unmark_leaf ht', unmark_pending (by simp)]
  exact ((cuts_binary hname op).append (Parser.cuts_pair hname hs hs' hleft hright)).yields

/-- The text of an expression over literals is read as its layout. -/
theorem readsAs_text (hexact : p.exact = true) (hname : IsApart p.variableName)
    (he : e.OverLiterals) : ReadsAs p e.text.toList e.layout := by
  induction he with
  | literal hf hfinite hsign =>
    intro room _
    obtain ⟨n, d, hparts, hd⟩ := Fraction.exists_simplified_eq hf hfinite hsign
    rw [text, Value.text, Fraction.toList_text hparts, layout, hparts]
    exact Parser.yields_literal hname hexact n hd
  | @unary op x hx ih =>
    rcases op.written_cases with rfl | rfl | hop
    · rw [toList_text_negate]
      exact (ih.part hx hname 4).negated hname
    · rw [toList_text_factorial]
      exact (ih.part hx hname 6).factorial hname
    · rw [toList_text_function hop, layout_function hop]
      exact (ih.group (inOrder_layout hx) hname (balanced_text hx)).applied hop hname
  | @binary op a b ha hb iha ihb =>
    rcases op.written_cases with hop | hop | rfl | hop
    · rw [toList_text_sum hop, layout_sum hop]
      exact iha.spaced (ihb.part hb hname 2) (BinaryOp.position_sum hop) hname
    · rw [toList_text_product hop, layout_product hop]
      exact (iha.part ha hname 2).spaced (ihb.part hb hname 3) (BinaryOp.position_product hop) hname
    · rw [toList_text_power]
      exact (iha.part ha hname 5).power (ihb.part hb hname 5) hname
    · rw [toList_text_pair hop, layout_pair hop]
      exact iha.pair (ihb.after_blank hname) (inOrder_layout ha) (inOrder_layout hb)
        (balanced_text ha) (balanced_cons (by decide) (balanced_text hb)) hop hname

theorem parse_text (he : e.OverLiterals) (hexact : p.exact = true)
    (hname : IsApart p.variableName) (hdepth : e.text.length ≤ p.maxDepth) :
    p.parse e.text.toList = .ok e.layout.expr := by
  rw [Parser.parse, Parser.parseTraced, (balanced_text he).toLowerCase_eq]
  refine (readsAs_text hexact hname he).outcome_readLevel (inOrder_layout he) ?_
  rw [String.length_toList]
  omega

/-- The text of an expression over literals is read by every parser of fractions that allows for one
level a character. It is read back as the expression if and only if it has no factorial of a remainder
or of a logarithm in it. The name of the variable must not be taken for a part of the text. -/
theorem parse_text_eq_iff {e : Expr} {p : Parser} (he : e.OverLiterals) (hexact : p.exact = true)
    (hname : IsApart p.variableName) (hdepth : e.text.length ≤ p.maxDepth) :
    ∃ t, p.parse e.text.toList = .ok t ∧ ((t == e) = true ↔
      ∀ op a b, unary .factorial (binary op a b) ∈ e.subexpressions →
        op ≠ .modulo ∧ op ≠ .logBase) := by
  refine ⟨e.layout.expr, parse_text he hexact hname hdepth, ?_⟩
  simp only [expr_layout_beq_iff he, BinaryOp.IsLate, not_or]

/-- The text `2 - 3/4!^(-2) / (3/4 / mod(2, 3/4))`, with fractions below all sorts of operators. -/
theorem parse_text_with_fractions :
    let two := constant (.fraction (.finite false 2 1))
    let f := constant (.fraction (.finite false 6 8))
    let e := binary .difference two
      (binary .quotient (binary .power (unary .factorial f) (unary .negate two))
        (binary .quotient f (binary .modulo two f)))
    let p : Parser := ⟨true, some ['x'], 36⟩
    e.OverLiterals ∧ p.exact = true ∧ IsApart p.variableName ∧ e.text.length ≤ p.maxDepth ∧
      ∃ t, p.parse e.text.toList = .ok t ∧ (t == e) = true := by
  intro two f e p
  have htwo : two.OverLiterals := .literal (by decide) rfl rfl
  have hf : f.OverLiterals := .literal (by decide) rfl rfl
  have he : e.OverLiterals := .binary htwo
    (.binary (.binary (.unary hf) (.unary htwo)) (.binary hf (.binary htwo hf)))
  have hname : IsApart p.variableName := by
    rintro c s ⟨⟩
    decide
  have hdepth : e.text.length ≤ p.maxDepth := by decide +kernel
  obtain ⟨t, ht, hiff⟩ := parse_text_eq_iff he rfl hname hdepth
  refine ⟨he, rfl, hname, hdepth, t, ht, hiff.2 fun op a b hmem => ?_⟩
  simp [e, two, f, subexpressions] at hmem

/-- The text `mod(1, 2)!` of a factorial is read as a remainder. -/
theorem parse_text_of_factorial_of_remainder :
    let one := constant (.fraction (.finite false 1 1))
    let two := constant (.fraction (.finite false 2 1))
    let e := unary .factorial (binary .modulo one two)
    let p : Parser := ⟨true, some ['x'], 128⟩
    e.OverLiterals ∧ p.exact = true ∧ e.text = "mod(1, 2)!" ∧ e.text.length ≤ p.maxDepth ∧
      p.parse e.text.toList = .ok (binary .modulo one (unary .factorial two)) ∧
      (binary .modulo one (unary .factorial two) == e) = false := by
  intro one two e p
  have he : e.OverLiterals :=
    .unary (.binary (.literal (by decide) rfl rfl) (.literal (by decide) rfl rfl))
  have hname : IsApart p.variableName := by
    rintro c s ⟨⟩
    decide
  have htext : e.text = "mod(1, 2)!" := by decide +kernel
  have hdepth : e.text.length ≤ p.maxDepth := by
    rw [htext]
    decide
  exact ⟨he, rfl, htext, hdepth, parse_text he rfl hname hdepth, rfl⟩

end Formula.Expr
