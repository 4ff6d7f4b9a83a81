import Formula.Traced

/-!
# Assembly

A level of an expression is read as a row of operands and pending operators. `assemble` turns the
row into one tree: tier by tier, from left to right, every operator takes its operands from the
entries beside it. An operator that stands before its operands and waits in an operand's place of
another operator is applied first, which nests one level deeper.

The arguments `limit` and `room` are the greatest nesting level and how many levels are left.
-/

namespace Formula.Assembly

/-! ## Negations -/

/-- Turns a minus that does not follow an operand into a negation. The flag tells whether an operand
ends just before the row. -/
def markNegations (endsOperand : Bool) : List Expr → List Expr
  | [] => []
  | e :: rest =>
    match e.pendingOperator? with
    | none => e :: markNegations true rest
    | some op =>
      if op = .binary .difference ∧ !endsOperand then
        Expr.pending (.unary .negate) :: markNegations false rest
      else e :: markNegations (op.position = .afterOperand) rest

/-! ## Applying one operator -/

/-- The pending operator of an entry, if it stands before its operands. -/
def leadingOperator? (e : Expr) : Option Operator :=
  e.pendingOperator?.filter fun op => op.position = .beforeOperands

/-- Applies an operator that leads the row, by the given rule for leading operators. -/
def settle (resolve : Operator → List Expr → Traced (Expr × List Expr)) :
    List Expr → Traced (List Expr)
  | [] => .ok []
  | e :: rest =>
    match leadingOperator? e with
    | some op => (resolve op rest).bind fun (node, rest) => .ok (node :: rest)
    | none => .ok (e :: rest)

/-- Applies an operator that stands before its operands to the row behind it. Gives the node and
what is left of the row. -/
def resolveLeading (limit : Nat) : Nat → Operator → List Expr → Traced (Expr × List Expr)
  | 0, _, _ => .error (.tooDeep limit)
  | room + 1, op, row =>
    (settle (resolveLeading limit room) row).bind fun row =>
    match op, row with
    | .unary u, x :: rest =>
      if x.isResolved then .build (.unary u x) (.unary u x, rest) else .error (.missingOperand op)
    | .binary b, x :: rest =>
      (settle (resolveLeading limit room) rest).bind fun rest =>
      match rest with
      | y :: rest =>
        if x.isResolved && y.isResolved then .build (.binary b x y) (.binary b x y, rest)
        else .error (.missingOperand op)
      | [] => .error (.missingOperand op)
    | _, [] => .error (.missingOperand op)

/-- Applies an operator to the rows on its two sides, the left one given from its end. Gives the
node and what is left of the rows. -/
def resolve (limit room : Nat) (op : Operator) (left right : List Expr) :
    Traced (List Expr × Expr × List Expr) :=
  match op.position, room with
  | .beforeOperands, room =>
    (resolveLeading limit room op right).bind fun (node, rest) => .ok (left, node, rest)
  | _, 0 => .error (.tooDeep limit)
  | .afterOperand, _ + 1 =>
    match op, left with
    | .unary u, x :: left =>
      if x.isResolved then .build (.unary u x) (left, .unary u x, right)
      else .error (.missingOperand op)
    | _, _ => .error (.missingOperand op)
  | .betweenOperands, room + 1 =>
    (settle (resolveLeading limit room) right).bind fun right =>
    match op, left, right with
    | .binary b, x :: left, y :: right =>
      if x.isResolved && y.isResolved then .build (.binary b x y) (left, .binary b x y, right)
      else .error (.missingOperand op)
    | _, _, _ => .error (.missingOperand op)

/-! ## Lengths -/

theorem settle_length_le {r : Operator → List Expr → Traced (Expr × List Expr)}
    (hr : ∀ op row node rest, (r op row).outcome = .ok (node, rest) → rest.length ≤ row.length)
    {row rest : List Expr} (h : (settle r row).outcome = .ok rest) : rest.length ≤ row.length := by
  cases row with
  | nil => cases h; simp
  | cons e tail =>
    rw [settle] at h
    split at h
    · next op hop =>
      obtain ⟨⟨node, rest'⟩, h₁, h₂⟩ := Traced.bind_eq_ok h
      cases h₂
      simpa using hr op tail node rest' h₁
    · cases h; simp

theorem resolveLeading_length_le (limit room : Nat) (op : Operator) (row : List Expr) (node : Expr)
    (rest : List Expr) (h : (resolveLeading limit room op row).outcome = .ok (node, rest)) :
    rest.length ≤ row.length := by
  induction room generalizing op row node rest with
  | zero => cases h
  | succ room ih =>
    rw [resolveLeading] at h
    obtain ⟨row', h₁, h₂⟩ := Traced.bind_eq_ok h
    have hrow := settle_length_le ih h₁
    clear h
    split at h₂
    · split at h₂
      · cases h₂; simp only [List.length_cons] at hrow; omega
      · cases h₂
    · obtain ⟨row'', h₃, h₄⟩ := Traced.bind_eq_ok h₂
      have hrow' := settle_length_le ih h₃
      split at h₄
      · split at h₄
        · cases h₄; simp only [List.length_cons] at hrow hrow'; omega
        · cases h₄
      · cases h₄
    · cases h₂

theorem resolve_length_le {limit room : Nat} {op : Operator} {left right left' right' : List Expr}
    {node : Expr} (h : (resolve limit room op left right).outcome = .ok (left', node, right')) :
    right'.length ≤ right.length := by
  unfold resolve at h
  split at h
  · obtain ⟨⟨node', rest⟩, h₁, h₂⟩ := Traced.bind_eq_ok h
    cases h₂
    exact resolveLeading_length_le _ _ _ _ _ _ h₁
  · cases h
  · split at h
    · split at h <;> cases h
      simp
    · cases h
  · obtain ⟨row, h₁, h₂⟩ := Traced.bind_eq_ok h
    have := settle_length_le (resolveLeading_length_le _ _) h₁
    split at h₂
    · split at h₂ <;> cases h₂
      simp only [List.length_cons] at this
      omega
    · cases h₂

/-! ## Applying all operators -/

/-- The pending operator of an entry, if it belongs to a tier. -/
def operatorOf? (tier : Tier) (e : Expr) : Option Operator :=
  e.pendingOperator?.filter fun op => op.tier = tier

/-- Applies the operators of one tier from left to right. The row is given in two parts, the left
one from its end. -/
def applyTier (limit room : Nat) (tier : Tier) (left right : List Expr) : Traced (List Expr) :=
  match right with
  | [] => .ok left.reverse
  | e :: rest =>
    match operatorOf? tier e with
    | none => applyTier limit room tier (e :: left) rest
    | some op =>
      match h : resolve limit room op left rest with
      | ⟨built, .error err⟩ => ⟨built, .error err⟩
      | ⟨built, .ok (left', node, right')⟩ =>
        have := resolve_length_le (congrArg Traced.outcome h)
        let following := applyTier limit room tier (node :: left') right'
        ⟨built ++ following.built, following.outcome⟩
termination_by right.length
decreasing_by all_goals simp only [List.length_cons]; omega

/-- Applies the tiers in order, until only one entry is left. -/
def applyTiers (limit room : Nat) : List Tier → List Expr → Traced (List Expr)
  | [], row => .ok row
  | tier :: tiers, row =>
    if row.length ≤ 1 then .ok row
    else (applyTier limit room tier [] row).bind (applyTiers limit room tiers)

/-- The tree of a row, if one is left. -/
def single : List Expr → Except ParseError Expr
  | [] => .error .emptyExpression
  | [e] =>
    match e.pendingOperator? with
    | some op => .error (.missingOperand op)
    | none => .ok e
  | row => .error (.unresolvedStack row.length)

/-- The tree of a row of operands and pending operators with `room` levels left. -/
def assembleWithin (limit room : Nat) (row : List Expr) : Traced Expr :=
  (applyTiers limit room Tier.descending (markNegations false row)).bind fun row =>
    ⟨[], single row⟩

/-- The tree of a row of operands and pending operators at nesting level `depth`. -/
def assemble (row : List Expr) (depth limit : Nat) : Traced Expr :=
  assembleWithin limit (limit + 1 - depth) row

end Formula.Assembly
