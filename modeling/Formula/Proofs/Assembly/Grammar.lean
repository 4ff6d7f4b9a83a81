import Formula.Proofs.Assembly.Covers

/-!
# The grammar of rows

`Derives minus n row t` says that the row is a phrase of the nonterminal `n` of the grammar of
arithmetic, with the tree `t`. The grammar writes the negation as `minus`: this is the operator of
differences in the rows that are assembled, and that of negations after these have been marked.
Marking turns phrases of the first kind into phrases of the second (`Derives.marked`), and back
(`Derives.unmarked`). Each tier turns phrases of a lower nonterminal into operands, so that a tree that
is assembled from a row is its tree in the grammar (`derives_of_assembleWithin`).
-/

namespace Formula.Assembly

open Formula.Expr

/-! ## Phrases -/

/-- The nonterminals, from sums down to the arguments of functions. -/
inductive Nonterminal where
  | sum
  | prod
  | factor
  | pow
  /-- An exponent. -/
  | parg
  /-- An operand with factorial signs. -/
  | post
  | atom
  /-- The argument of a function. -/
  | farg
deriving DecidableEq

/-- The functions of one argument. -/
def IsFunction (op : UnaryOp) : Prop :=
  op ∈ [UnaryOp.abs, .sqrt, .ln, .log2, .log10]

/-- The phrases of the grammar and their trees. -/
inductive Derives (minus : Operator) : Nonterminal → List Expr → Expr → Prop
  | sum_prod {s : List Expr} {x : Expr} (hx : Derives minus .prod s x) : Derives minus .sum s x
  | sum_add {op : BinaryOp} {s s' : List Expr} {x y : Expr} (hop : op = .sum ∨ op = .difference)
      (hx : Derives minus .sum s x) (hy : Derives minus .prod s' y) :
      Derives minus .sum (s ++ pending (.binary op) :: s') (.binary op x y)
  | prod_factor {s : List Expr} {x : Expr} (hx : Derives minus .factor s x) :
      Derives minus .prod s x
  | prod_mul {op : BinaryOp} {s s' : List Expr} {x y : Expr}
      (hop : op = .product ∨ op = .quotient) (hx : Derives minus .prod s x)
      (hy : Derives minus .factor s' y) :
      Derives minus .prod (s ++ pending (.binary op) :: s') (.binary op x y)
  | factor_pow {s : List Expr} {x : Expr} (hx : Derives minus .pow s x) : Derives minus .factor s x
  | factor_neg {s : List Expr} {x : Expr} (hx : Derives minus .factor s x) :
      Derives minus .factor (pending minus :: s) (.unary .negate x)
  | pow_post {s : List Expr} {x : Expr} (hx : Derives minus .post s x) : Derives minus .pow s x
  | pow_pow {s s' : List Expr} {x y : Expr} (hx : Derives minus .pow s x)
      (hy : Derives minus .parg s' y) :
      Derives minus .pow (s ++ pending (.binary .power) :: s') (.binary .power x y)
  | parg_post {s : List Expr} {x : Expr} (hx : Derives minus .post s x) : Derives minus .parg s x
  | parg_neg {s : List Expr} {x : Expr} (hx : Derives minus .parg s x) :
      Derives minus .parg (pending minus :: s) (.unary .negate x)
  | post_atom {s : List Expr} {x : Expr} (hx : Derives minus .atom s x) : Derives minus .post s x
  | post_factorial {s : List Expr} {x : Expr} (hx : Derives minus .post s x) :
      Derives minus .post (s ++ [pending (.unary .factorial)]) (.unary .factorial x)
  | atom_operand {e : Expr} (he : e.isResolved = true) : Derives minus .atom [e] e
  | atom_apply {op : UnaryOp} {s : List Expr} {x : Expr} (hop : IsFunction op)
      (hx : Derives minus .farg s x) :
      Derives minus .atom (pending (.unary op) :: s) (.unary op x)
  | farg_operand {e : Expr} (he : e.isResolved = true) : Derives minus .farg [e] e
  | farg_apply {op : UnaryOp} {s : List Expr} {x : Expr} (hop : IsFunction op)
      (hx : Derives minus .farg s x) :
      Derives minus .farg (pending (.unary op) :: s) (.unary op x)
  | farg_neg {s : List Expr} {x : Expr} (hx : Derives minus .farg s x) :
      Derives minus .farg (pending minus :: s) (.unary .negate x)

/-- The operators that the grammar writes. A negation is written as a difference. -/
def InGrammar : Operator → Prop
  | .unary op => op = .factorial ∨ IsFunction op
  | .binary op => op ∈ [BinaryOp.sum, .difference, .product, .quotient, .power]

/-- An entry of a row that the grammar could have written. -/
def IsWritten (e : Expr) : Prop :=
  e.isResolved = true ∨ ∃ op, InGrammar op ∧ e = pending op

/-! ## Marking -/

theorem markNegations_operand {e : Expr} (endsOperand : Bool) (row : List Expr)
    (he : e.isResolved = true) :
    markNegations endsOperand (e :: row) = e :: markNegations true row := by
  rw [markNegations, pendingOperator?_of_isResolved he]

theorem markNegations_minus (row : List Expr) :
    markNegations false (pending (.binary .difference) :: row) =
      pending (.unary .negate) :: markNegations false row := rfl

theorem markNegations_pending {op : Operator} {endsOperand : Bool} (row : List Expr)
    (h : op = .binary .difference → endsOperand = true) :
    markNegations endsOperand (pending op :: row) =
      pending op :: markNegations (op.position = .afterOperand) row := by
  rw [markNegations, pendingOperator?_pending]
  simp only
  rw [if_neg]
  rintro ⟨hop, hends⟩
  simp [h hop] at hends

theorem length_markNegations (endsOperand : Bool) (row : List Expr) :
    (markNegations endsOperand row).length = row.length := by
  induction row generalizing endsOperand with
  | nil => rfl
  | cons e row ih =>
    rw [markNegations]
    split
    · simp [ih]
    · split_ifs <;> simp [ih]

/-- Marking turns the first row into the second where an operand may start, and goes on as after an
operand. -/
def Marks (row row' : List Expr) : Prop :=
  ∀ rest, markNegations false (row ++ rest) = row' ++ markNegations true rest

namespace Marks

variable {s s' r r' : List Expr}

theorem operand {e : Expr} (he : e.isResolved = true) : Marks [e] [e] :=
  fun rest => markNegations_operand false rest he

theorem negated (h : Marks s r) :
    Marks (pending (.binary .difference) :: s) (pending (.unary .negate) :: r) := by
  intro rest
  rw [List.cons_append, markNegations_minus, h rest, List.cons_append]

theorem leading {op : UnaryOp} (hpos : op.position ≠ .afterOperand) (h : Marks s r) :
    Marks (pending (.unary op) :: s) (pending (.unary op) :: r) := by
  intro rest
  have hends : decide ((Operator.unary op).position = .afterOperand) = false :=
    decide_eq_false hpos
  rw [List.cons_append, markNegations_pending _ (by simp), hends, h rest, List.cons_append]

theorem trailing {op : UnaryOp} (hpos : op.position = .afterOperand) (h : Marks s r) :
    Marks (s ++ [pending (.unary op)]) (r ++ [pending (.unary op)]) := by
  intro rest
  have hends : decide ((Operator.unary op).position = .afterOperand) = true :=
    decide_eq_true hpos
  rw [List.append_assoc, h, List.singleton_append, markNegations_pending _ (by simp), hends]
  simp

theorem between {op : BinaryOp} (hpos : op.position ≠ .afterOperand) (h : Marks s r)
    (h' : Marks s' r') :
    Marks (s ++ pending (.binary op) :: s') (r ++ pending (.binary op) :: r') := by
  intro rest
  have hends : decide ((Operator.binary op).position = .afterOperand) = false :=
    decide_eq_false hpos
  rw [List.append_assoc, h, List.cons_append, markNegations_pending _ (by simp), hends, h' rest]
  simp

end Marks

theorem IsFunction.position_eq {op : UnaryOp} (h : IsFunction op) :
    op.position = .beforeOperands := by
  cases op <;> simp [IsFunction] at h <;> rfl

theorem IsFunction.tier_eq {op : UnaryOp} (h : IsFunction op) : op.tier = .application := by
  cases op <;> simp [IsFunction] at h <;> rfl

/-- Marking the negations of a phrase gives a phrase with the same tree. -/
theorem Derives.marked {n : Nonterminal} {row : List Expr} {t : Expr}
    (h : Derives (.binary .difference) n row t) :
    ∃ row', Marks row row' ∧ Derives (.unary .negate) n row' t := by
  induction h with
  | sum_prod _ ih =>
    obtain ⟨r, hr, hx⟩ := ih
    exact ⟨r, hr, .sum_prod hx⟩
  | sum_add hop _ _ ihx ihy =>
    obtain ⟨r, hr, hx⟩ := ihx
    obtain ⟨r', hr', hy⟩ := ihy
    exact ⟨_, hr.between (by rcases hop with rfl | rfl <;> decide) hr', .sum_add hop hx hy⟩
  | prod_factor _ ih =>
    obtain ⟨r, hr, hx⟩ := ih
    exact ⟨r, hr, .prod_factor hx⟩
  | prod_mul hop _ _ ihx ihy =>
    obtain ⟨r, hr, hx⟩ := ihx
    obtain ⟨r', hr', hy⟩ := ihy
    exact ⟨_, hr.between (by rcases hop with rfl | rfl <;> decide) hr', .prod_mul hop hx hy⟩
  | factor_pow _ ih =>
    obtain ⟨r, hr, hx⟩ := ih
    exact ⟨r, hr, .factor_pow hx⟩
  | factor_neg _ ih =>
    obtain ⟨r, hr, hx⟩ := ih
    exact ⟨_, hr.negated, .factor_neg hx⟩
  | pow_post _ ih =>
    obtain ⟨r, hr, hx⟩ := ih
    exact ⟨r, hr, .pow_post hx⟩
  | pow_pow _ _ ihx ihy =>
    obtain ⟨r, hr, hx⟩ := ihx
    obtain ⟨r', hr', hy⟩ := ihy
    exact ⟨_, hr.between (by decide) hr', .pow_pow hx hy⟩
  | parg_post _ ih =>
    obtain ⟨r, hr, hx⟩ := ih
    exact ⟨r, hr, .parg_post hx⟩
  | parg_neg _ ih =>
    obtain ⟨r, hr, hx⟩ := ih
    exact ⟨_, hr.negated, .parg_neg hx⟩
  | post_atom _ ih =>
    obtain ⟨r, hr, hx⟩ := ih
    exact ⟨r, hr, .post_atom hx⟩
  | post_factorial _ ih =>
    obtain ⟨r, hr, hx⟩ := ih
    exact ⟨_, hr.trailing rfl, .post_factorial hx⟩
  | atom_operand he => exact ⟨_, .operand he, .atom_operand he⟩
  | atom_apply hop _ ih =>
    obtain ⟨r, hr, hx⟩ := ih
    exact ⟨_, hr.leading (by simp [hop.position_eq]), .atom_apply hop hx⟩
  | farg_operand he => exact ⟨_, .operand he, .farg_operand he⟩
  | farg_apply hop _ ih =>
    obtain ⟨r, hr, hx⟩ := ih
    exact ⟨_, hr.leading (by simp [hop.position_eq]), .farg_apply hop hx⟩
  | farg_neg _ ih =>
    obtain ⟨r, hr, hx⟩ := ih
    exact ⟨_, hr.negated, .farg_neg hx⟩

/-- The entry before negations were marked. -/
def unmark (e : Expr) : Expr :=
  match e.pendingOperator? with
  | some (.unary .negate) => pending (.binary .difference)
  | _ => e

theorem unmark_operand {e : Expr} (he : e.isResolved = true) : unmark e = e := by
  rw [unmark, pendingOperator?_of_isResolved he]

theorem unmark_negate : unmark (pending (.unary .negate)) = pending (.binary .difference) := rfl

theorem unmark_pending {op : Operator} (h : op ≠ .unary .negate) :
    unmark (pending op) = pending op := by
  rw [unmark, pendingOperator?_pending]
  split
  · next hop => simp [h] at hop
  · rfl

/-- The operators of the grammar do not include the marked negation. -/
theorem InGrammar.ne_negate {op : Operator} (h : InGrammar op) : op ≠ .unary .negate := by
  rintro rfl
  simp [InGrammar, IsFunction] at h

theorem map_unmark_markNegations {row : List Expr} (endsOperand : Bool)
    (h : ∀ e ∈ row, IsWritten e) :
    (markNegations endsOperand row).map unmark = row := by
  induction row generalizing endsOperand with
  | nil => rfl
  | cons e row ih =>
    rw [List.forall_mem_cons] at h
    obtain ⟨he | ⟨op, hop, rfl⟩, hrow⟩ := h
    · rw [markNegations_operand endsOperand row he, List.map_cons, unmark_operand he, ih _ hrow]
    · by_cases hminus : op = .binary .difference ∧ endsOperand = false
      · obtain ⟨rfl, rfl⟩ := hminus
        rw [markNegations_minus, List.map_cons, unmark_negate, ih _ hrow]
      · have hends : op = .binary .difference → endsOperand = true := by simpa using hminus
        rw [markNegations_pending row hends, List.map_cons, unmark_pending hop.ne_negate, ih _ hrow]

theorem Derives.unmarked {n : Nonterminal} {row : List Expr} {t : Expr}
    (h : Derives (.unary .negate) n row t) :
    Derives (.binary .difference) n (row.map unmark) t := by
  induction h with
  | sum_prod _ ih => exact .sum_prod ih
  | sum_add hop _ _ ihx ihy =>
    rw [List.map_append, List.map_cons, unmark_pending (by simp)]
    exact .sum_add hop ihx ihy
  | prod_factor _ ih => exact .prod_factor ih
  | prod_mul hop _ _ ihx ihy =>
    rw [List.map_append, List.map_cons, unmark_pending (by simp)]
    exact .prod_mul hop ihx ihy
  | factor_pow _ ih => exact .factor_pow ih
  | factor_neg _ ih => exact .factor_neg ih
  | pow_post _ ih => exact .pow_post ih
  | pow_pow _ _ ihx ihy =>
    rw [List.map_append, List.map_cons, unmark_pending (by simp)]
    exact .pow_pow ihx ihy
  | parg_post _ ih => exact .parg_post ih
  | parg_neg _ ih => exact .parg_neg ih
  | post_atom _ ih => exact .post_atom ih
  | post_factorial _ ih =>
    rw [List.map_append, List.map_singleton, unmark_pending (by simp)]
    exact .post_factorial ih
  | atom_operand he =>
    rw [List.map_singleton, unmark_operand he]
    exact .atom_operand he
  | @atom_apply op _ _ hop _ ih =>
    rw [List.map_cons, unmark_pending (by rintro ⟨⟩; simp [IsFunction] at hop)]
    exact .atom_apply hop ih
  | farg_operand he =>
    rw [List.map_singleton, unmark_operand he]
    exact .farg_operand he
  | farg_apply hop _ ih =>
    rw [List.map_cons, unmark_pending (by rintro ⟨⟩; simp [IsFunction] at hop)]
    exact .farg_apply hop ih
  | farg_neg _ ih => exact .farg_neg ih

/-! ## Tiers -/

/-- The operators of marked rows that wait for one of the given tiers. -/
def Awaits (tiers : List Tier) (op : Operator) : Prop :=
  (op = .unary .negate ∨ InGrammar op) ∧ op.tier ∈ tiers

theorem Awaits.tail {tier : Tier} {tiers : List Tier} (op : Operator)
    (h : Awaits (tier :: tiers) op) (htier : op.tier ≠ tier) : Awaits tiers op :=
  ⟨h.1, (List.mem_cons.1 h.2).resolve_left htier⟩

theorem Awaits.leading_cases {tiers : List Tier} {op : Operator} (h : Awaits tiers op)
    (hpos : op.position = .beforeOperands) :
    op = .unary .negate ∧ .multiplication ∈ tiers ∨
      ∃ f, IsFunction f ∧ op = .unary f ∧ .application ∈ tiers := by
  obtain ⟨rfl | hop, htier⟩ := h
  · exact .inl ⟨rfl, htier⟩
  · cases op with
    | unary f =>
      obtain rfl | hf := hop
      · cases hpos
      · have htier' : (Operator.unary f).tier = .application := hf.tier_eq
        exact .inr ⟨f, hf, rfl, htier' ▸ htier⟩
    | binary op =>
      simp only [InGrammar, List.mem_cons, List.not_mem_nil, or_false] at hop
      rcases hop with rfl | rfl | rfl | rfl | rfl <;> cases hpos

theorem Awaits.between_cases {tiers : List Tier} {op : BinaryOp} (h : Awaits tiers (.binary op)) :
    (op = .sum ∨ op = .difference) ∧ op.tier = .addition ∨
      (op = .product ∨ op = .quotient) ∧ op.tier = .multiplication ∨
        op = .power ∧ op.tier = .exponent := by
  obtain ⟨hop, -⟩ := h
  simp only [reduceCtorEq, InGrammar, List.mem_cons, List.not_mem_nil, or_false, false_or] at hop
  rcases hop with rfl | rfl | rfl | rfl | rfl <;> simp [BinaryOp.tier]

theorem eq_factorial_of_position {op : UnaryOp} (h : op.position = .afterOperand) :
    op = .factorial := by
  cases op <;> first | rfl | cases h

/-- A single operand. -/
def IsOperand (s : List Expr) (e : Expr) : Prop :=
  s = [e] ∧ e.isResolved = true

theorem IsOperand.derives_atom {s : List Expr} {e : Expr} {minus : Operator} (h : IsOperand s e) :
    Derives minus .atom s e := by
  obtain ⟨rfl, he⟩ := h
  exact .atom_operand he

theorem IsOperand.derives_farg {s : List Expr} {e : Expr} {minus : Operator} (h : IsOperand s e) :
    Derives minus .farg s e := by
  obtain ⟨rfl, he⟩ := h
  exact .farg_operand he

/-- The rules of a tier for the operators of marked rows, of which those of `tiers` are still pending:
how arguments nest, and what the operators of the tier itself make of operands and arguments. -/
structure GrammarRules (tier : Tier) (tiers : List Tier) (L R A : List Expr → Expr → Prop) :
    Prop where
  passed : ∀ s e, R s e → L s e
  argument : ∀ s e, R s e → A s e
  nestedNegation : .multiplication ∈ tiers → ∀ s x, A s x →
    A (pending (.unary .negate) :: s) (.unary .negate x) := by simp
  nestedFunction : .application ∈ tiers → ∀ f s x, IsFunction f → A s x →
    A (pending (.unary f) :: s) (.unary f x) := by simp
  function : tier = .application → ∀ f s x, IsFunction f → A s x →
    L (pending (.unary f) :: s) (.unary f x) := by simp
  factorial : tier = .factorial → ∀ s x, L s x →
    L (s ++ [pending (.unary .factorial)]) (.unary .factorial x) := by simp
  power : tier = .exponent → ∀ s s' x y, L s x → A s' y →
    L (s ++ pending (.binary .power) :: s') (.binary .power x y) := by simp
  negation : tier = .multiplication → ∀ s x, A s x →
    L (pending (.unary .negate) :: s) (.unary .negate x) := by simp
  multiplication : tier = .multiplication → ∀ op s s' x y, op = .product ∨ op = .quotient →
    L s x → A s' y → L (s ++ pending (.binary op) :: s') (.binary op x y) := by simp
  addition : tier = .addition → ∀ op s s' x y, op = .sum ∨ op = .difference →
    L s x → A s' y → L (s ++ pending (.binary op) :: s') (.binary op x y) := by simp

theorem GrammarRules.tierRules {tier : Tier} {tiers : List Tier} {L R A : List Expr → Expr → Prop}
    (rules : GrammarRules tier tiers L R A) : TierRules tier (Awaits tiers) L R A where
  passed := rules.passed
  argument := rules.argument
  nested op s e hop hpos happ := by
    obtain ⟨rfl, htiers⟩ | ⟨f, hf, rfl, htiers⟩ := hop.leading_cases hpos
    · cases happ with
      | unary hx => exact rules.nestedNegation htiers _ _ hx
    · cases happ with
      | unary hx => exact rules.nestedFunction htiers _ _ _ hf hx
  leading op s e hop htier hpos happ := by
    obtain ⟨rfl, -⟩ | ⟨f, hf, rfl, -⟩ := hop.leading_cases hpos
    · cases happ with
      | unary hx => exact rules.negation htier.symm _ _ hx
    · cases happ with
      | unary hx => exact rules.function (htier.symm.trans hf.tier_eq) _ _ _ hf hx
  trailing op s x _ htier hpos hx := by
    obtain rfl := eq_factorial_of_position hpos
    exact rules.factorial htier.symm _ _ hx
  between op s s' x y hop htier _ hx hy := by
    obtain ⟨h, ht⟩ | ⟨h, ht⟩ | ⟨rfl, ht⟩ := hop.between_cases
    · exact rules.addition (htier.symm.trans ht) _ _ _ _ _ h hx hy
    · exact rules.multiplication (htier.symm.trans ht) _ _ _ _ _ h hx hy
    · exact rules.power (htier.symm.trans ht) _ _ _ _ hx hy

/-! ## Soundness -/

/-- The phrases of marked rows. -/
abbrev Phrase (n : Nonterminal) : List Expr → Expr → Prop :=
  Derives (.unary .negate) n

theorem grammarRules_container (tiers : List Tier) :
    GrammarRules .container tiers IsOperand IsOperand (Phrase .farg) where
  passed _ _ h := h
  argument _ _ h := h.derives_farg
  nestedNegation _ _ _ h := .farg_neg h
  nestedFunction _ _ _ _ hf h := .farg_apply hf h

theorem grammarRules_application (tiers : List Tier) :
    GrammarRules .application tiers (Phrase .atom) IsOperand (Phrase .farg) where
  passed _ _ h := h.derives_atom
  argument _ _ h := h.derives_farg
  nestedNegation _ _ _ h := .farg_neg h
  nestedFunction _ _ _ _ hf h := .farg_apply hf h
  function _ _ _ _ hf h := .atom_apply hf h

theorem grammarRules_factorial {tiers : List Tier} (h : .application ∉ tiers) :
    GrammarRules .factorial tiers (Phrase .post) (Phrase .atom) (Phrase .parg) where
  passed _ _ h := .post_atom h
  argument _ _ h := .parg_post (.post_atom h)
  nestedNegation _ _ _ h := .parg_neg h
  nestedFunction hmem := absurd hmem h
  factorial _ _ _ h := .post_factorial h

theorem grammarRules_modulo {tiers : List Tier} (h : .application ∉ tiers) :
    GrammarRules .modulo tiers (Phrase .post) (Phrase .post) (Phrase .parg) where
  passed _ _ h := h
  argument _ _ h := .parg_post h
  nestedNegation _ _ _ h := .parg_neg h
  nestedFunction hmem := absurd hmem h

theorem grammarRules_exponent {tiers : List Tier} (h : .application ∉ tiers) :
    GrammarRules .exponent tiers (Phrase .pow) (Phrase .post) (Phrase .parg) where
  passed _ _ h := .pow_post h
  argument _ _ h := .parg_post h
  nestedNegation _ _ _ h := .parg_neg h
  nestedFunction hmem := absurd hmem h
  power _ _ _ _ _ hx hy := .pow_pow hx hy

theorem grammarRules_multiplication {tiers : List Tier} (h : .application ∉ tiers) :
    GrammarRules .multiplication tiers (Phrase .prod) (Phrase .pow) (Phrase .factor) where
  passed _ _ h := .prod_factor (.factor_pow h)
  argument _ _ h := .factor_pow h
  nestedNegation _ _ _ h := .factor_neg h
  nestedFunction hmem := absurd hmem h
  negation _ _ _ h := .prod_factor (.factor_neg h)
  multiplication _ _ _ _ _ _ hop hx hy := .prod_mul hop hx hy

theorem grammarRules_addition :
    GrammarRules .addition [.addition] (Phrase .sum) (Phrase .prod) (Phrase .prod) where
  passed _ _ h := .sum_prod h
  argument _ _ h := h
  addition _ _ _ _ _ _ hop hx hy := .sum_add hop hx hy

/-- The tiers lead from single operands up to sums. -/
theorem tierChain_phrase :
    TierChain (Phrase .sum) Tier.descending (Awaits Tier.descending) IsOperand := by
  have hpow {s : List Expr} {e : Expr} (h : Phrase .pow s e) : Phrase .sum s e :=
    .sum_prod (.prod_factor (.factor_pow h))
  have hatom {s : List Expr} {e : Expr} (h : Phrase .atom s e) : Phrase .sum s e :=
    hpow (.pow_post (.post_atom h))
  refine .cons (grammarRules_container _).tierRules (fun _ _ h => hatom h.derives_atom)
    Awaits.tail ?_
  refine .cons (grammarRules_application _).tierRules (fun _ _ h => hatom h.derives_atom)
    Awaits.tail ?_
  refine .cons (grammarRules_factorial (by decide)).tierRules (fun _ _ => hatom) Awaits.tail ?_
  refine .cons (grammarRules_modulo (by decide)).tierRules (fun _ _ h => hpow (.pow_post h))
    Awaits.tail ?_
  refine .cons (grammarRules_exponent (by decide)).tierRules (fun _ _ h => hpow (.pow_post h))
    Awaits.tail ?_
  refine .cons (grammarRules_multiplication (by decide)).tierRules (fun _ _ => hpow)
    Awaits.tail ?_
  exact .cons grammarRules_addition.tierRules (fun _ _ => .sum_prod) Awaits.tail
    (.nil fun _ _ h => h)

theorem mem_descending (tier : Tier) : tier ∈ Tier.descending := by
  cases tier <;> decide

theorem covers_markNegations {row : List Expr} (endsOperand : Bool)
    (h : ∀ e ∈ row, IsWritten e) :
    Covers (Awaits Tier.descending) IsOperand (markNegations endsOperand row)
      (markNegations endsOperand row) := by
  induction row generalizing endsOperand with
  | nil => exact .nil
  | cons e row ih =>
    rw [List.forall_mem_cons] at h
    obtain ⟨he | ⟨op, hop, rfl⟩, hrow⟩ := h
    · rw [markNegations_operand endsOperand row he]
      exact .operand he ⟨rfl, he⟩ (ih _ hrow)
    · by_cases hminus : op = .binary .difference ∧ endsOperand = false
      · obtain ⟨rfl, rfl⟩ := hminus
        rw [markNegations_minus]
        exact .pending ⟨.inl rfl, mem_descending _⟩ (ih _ hrow)
      · have hends : op = .binary .difference → endsOperand = true := by simpa using hminus
        rw [markNegations_pending row hends]
        exact .pending ⟨.inr hop, mem_descending _⟩ (ih _ hrow)

/-- A tree that is assembled from a row is its tree in the grammar. -/
theorem derives_of_assembleWithin {limit room : ℕ} {row : List Expr} {t : Expr}
    (hrow : ∀ e ∈ row, IsWritten e) (h : (assembleWithin limit room row).outcome = .ok t) :
    Derives (.binary .difference) .sum row t := by
  obtain ⟨row', hrow', ht⟩ := Traced.bind_eq_ok h
  have hmarked := (tierChain_phrase.assembled (covers_markNegations false hrow) hrow' ht).2
  have hunmarked := hmarked.unmarked
  rwa [map_unmark_markNegations false hrow] at hunmarked

end Formula.Assembly
