import Formula.Proofs.Assembly.Covers

/-!
# Operands by their offsets

Where the operands of an operator stand is a table (`Operator.operandOffsets`), and so is the node that
the operator makes of them (`Expr.complete?`). An operator is applied by these tables: the entries behind
it that it asks for are settled one after another, and if there are resolved entries at all of its
offsets then, the node of these entries takes the place of the operator and of its operands
(`resolve_succ`).
-/

namespace Formula

/-! ## Offsets -/

namespace Operator

theorem operandOffsets_beforeOperands {op : Operator} (h : op.position = .beforeOperands) :
    (∃ u, op = unary u ∧ op.operandOffsets = [1]) ∨
      ∃ b, op = binary b ∧ op.operandOffsets = [1, 2] := by
  cases op with
  | unary u => exact .inl ⟨u, rfl, by simp only [operandOffsets, h]⟩
  | binary b => exact .inr ⟨b, rfl, by simp only [operandOffsets, h]⟩

theorem operandOffsets_afterOperand {op : Operator} (h : op.position = .afterOperand) :
    ∃ u, op = unary u ∧ op.operandOffsets = [-1] := by
  cases op with
  | unary u => exact ⟨u, rfl, by simp only [operandOffsets, h]⟩
  | binary b => cases b <;> cases h

theorem operandOffsets_betweenOperands {op : Operator} (h : op.position = .betweenOperands) :
    ∃ b, op = binary b ∧ op.operandOffsets = [-1, 1] := by
  cases op with
  | unary u => cases u <;> cases h
  | binary b => exact ⟨b, rfl, by simp only [operandOffsets, h]⟩

end Operator

namespace Assembly

open Formula.Expr

/-! ## Settled operands -/

/-- Settles the entry of a row that has `n` entries before it. -/
def settleAt (resolve : Operator → List Expr → Traced (Expr × List Expr)) :
    Nat → List Expr → Traced (List Expr)
  | 0, row => settle resolve row
  | _ + 1, [] => .ok []
  | n + 1, e :: row => (settleAt resolve n row).bind fun row => .ok (e :: row)

/-- Settles the entries at those of the offsets that lead to the right, one after another. -/
def settleOperands (resolve : Operator → List Expr → Traced (Expr × List Expr)) :
    List Int → List Expr → Traced (List Expr)
  | [], row => .ok row
  | .ofNat (n + 1) :: offsets, row =>
    (settleAt resolve n row).bind (settleOperands resolve offsets)
  | _ :: offsets, row => settleOperands resolve offsets row

/-- The entry at an offset from an operator between two rows, the left one given from its end. -/
def entryAt? (left right : List Expr) : Int → Option Expr
  | .ofNat 0 => none
  | .ofNat (n + 1) => right[n]?
  | .negSucc n => left[n]?

@[simp]
theorem entryAt?_neg_one (left right : List Expr) : entryAt? left right (-1) = left[0]? := rfl

@[simp]
theorem entryAt?_one (left right : List Expr) : entryAt? left right 1 = right[0]? := rfl

@[simp]
theorem entryAt?_two (left right : List Expr) : entryAt? left right 2 = right[1]? := rfl

/-- The node of an operator between two rows, if there are resolved entries at all of its offsets. -/
def nodeBetween? (op : Operator) (left right : List Expr) : Option Expr :=
  ((op.operandOffsets.mapM (entryAt? left right)).filter (·.all isResolved)).bind (complete? op)

/-! ## Applying one operator -/

variable {limit room : ℕ} {op : Operator} {left right : List Expr}

theorem settleOperands_one (r : Operator → List Expr → Traced (Expr × List Expr))
    (row : List Expr) : settleOperands r [1] row = settle r row :=
  Traced.bind_ok _

theorem settleOperands_one_two (r : Operator → List Expr → Traced (Expr × List Expr))
    (row : List Expr) : settleOperands r [1, 2] row = (settle r row).bind (settleAt r 1) := by
  change (settle r row).bind (fun row => (settleAt r 1 row).bind .ok) = _
  simp only [Traced.bind_ok]

theorem nodeBetween?_unary {u : UnaryOp} {offset : Int}
    (h : (Operator.unary u).operandOffsets = [offset]) :
    nodeBetween? (.unary u) left right =
      (entryAt? left right offset).bind fun x => if x.isResolved then some (unary u x) else none := by
  simp only [nodeBetween?, h, List.mapM_cons, List.mapM_nil]
  cases entryAt? left right offset with
  | none => rfl
  | some x => cases hx : x.isResolved <;> simp [Option.filter, hx, complete?]

theorem nodeBetween?_binary {b : BinaryOp} {i j : Int}
    (h : (Operator.binary b).operandOffsets = [i, j]) :
    nodeBetween? (.binary b) left right =
      (entryAt? left right i).bind fun x => (entryAt? left right j).bind fun y =>
        if x.isResolved && y.isResolved then some (binary b x y) else none := by
  simp only [nodeBetween?, h, List.mapM_cons, List.mapM_nil]
  cases entryAt? left right i with
  | none => rfl
  | some x =>
    cases entryAt? left right j with
    | none => rfl
    | some y => cases hx : x.isResolved <;> cases hy : y.isResolved <;>
        simp [Option.filter, hx, hy, complete?]

/-- A leading operator takes its operands from the settled row, as its tables say. -/
theorem resolveLeading_succ (hop : op.position = .beforeOperands) (left row : List Expr) :
    resolveLeading limit (room + 1) op row =
      (settleOperands (resolveLeading limit room) op.operandOffsets row).bind fun row =>
        match nodeBetween? op left row with
        | some node => .build node (node, row.drop op.operandOffsets.length)
        | none => .error (.missingOperand op) := by
  rw [resolveLeading]
  obtain ⟨u, rfl, hoffsets⟩ | ⟨b, rfl, hoffsets⟩ := Operator.operandOffsets_beforeOperands hop
  · simp only [nodeBetween?_unary hoffsets]
    rw [hoffsets, settleOperands_one]
    congr 1
    funext row
    cases row with
    | nil => rfl
    | cons x rest => cases hx : x.isResolved <;> simp [hx]
  · simp only [nodeBetween?_binary hoffsets]
    rw [hoffsets, settleOperands_one_two, Traced.bind_assoc]
    congr 1
    funext row
    cases row with
    | nil => rfl
    | cons x rest =>
      simp only [settleAt, Traced.bind_assoc, Traced.ok_bind]
      congr 1
      funext rest
      cases rest with
      | nil => rfl
      | cons y rest =>
        cases hx : x.isResolved <;> cases hy : y.isResolved <;> simp [hx, hy]

/-- An operator is applied by its tables. It settles the entries that it takes from the row behind it,
and its node takes the place of the entries at its offsets and of the operator itself; it misses an
operand if one of these entries is not there or not resolved. -/
theorem resolve_succ (limit room : ℕ) (op : Operator) (left right : List Expr) :
    resolve limit (room + 1) op left right =
      (settleOperands (resolveLeading limit room) op.operandOffsets right).bind fun right =>
        match nodeBetween? op left right with
        | some node => .build node
          (left.drop (op.operandOffsets.countP (· < 0)), node,
            right.drop (op.operandOffsets.countP (0 < ·)))
        | none => .error (.missingOperand op) := by
  cases hpos : op.position with
  | beforeOperands =>
    have hcount : op.operandOffsets.countP (· < 0) = 0 ∧
        op.operandOffsets.countP (0 < ·) = op.operandOffsets.length := by
      obtain ⟨_, _, h⟩ | ⟨_, _, h⟩ := Operator.operandOffsets_beforeOperands hpos <;> rw [h] <;> decide
    simp only [resolve, hpos]
    rw [resolveLeading_succ hpos left, Traced.bind_assoc, hcount.1, hcount.2]
    congr 1
    funext row
    cases nodeBetween? op left row <;> rfl
  | afterOperand =>
    obtain ⟨u, rfl, hoffsets⟩ := Operator.operandOffsets_afterOperand hpos
    simp only [resolve, hpos, nodeBetween?_unary hoffsets]
    rw [hoffsets]
    cases left with
    | nil => rfl
    | cons x left => cases hx : x.isResolved <;> simp [settleOperands, Traced.ok_bind, hx]
  | betweenOperands =>
    obtain ⟨b, rfl, hoffsets⟩ := Operator.operandOffsets_betweenOperands hpos
    have hsettle (row : List Expr) : settleOperands (resolveLeading limit room) [-1, 1] row =
        settle (resolveLeading limit room) row := settleOperands_one _ row
    simp only [resolve, hpos, nodeBetween?_binary hoffsets]
    rw [hoffsets, hsettle]
    congr 1
    funext row
    cases left with
    | nil => rfl
    | cons x left =>
      cases row with
      | nil => rfl
      | cons y row =>
        cases hx : x.isResolved <;> cases hy : y.isResolved <;> simp [hx, hy]

end Assembly

end Formula
