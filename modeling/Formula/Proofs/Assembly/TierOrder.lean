import Formula.Proofs.Assembly.Acceptance
import Formula.Proofs.Assembly.Reading

/-!
# Trees in the order of the tiers

A tree is `InOrder` if the operators below each operator belong to earlier tiers, up to what
left-to-right application allows within one tier. The first `k` tiers turn the reading of such a tree
into that of `settled k`, in which all subtrees of these tiers have become operands
(`passes_settled`). So the reading of a tree in order is assembled back into the tree
(`assembleWithin_reading`), with operators of all positions and tiers in it.
-/

namespace Formula

/-- The place of a tier in the order in which tiers are applied. -/
def Tier.rank : Tier → ℕ
  | container => 0
  | application => 1
  | factorial => 2
  | modulo => 3
  | exponent => 4
  | multiplication => 5
  | addition => 6

theorem Tier.rank_inj {a b : Tier} (h : a.rank = b.rank) : a = b := by
  cases a <;> cases b <;> first | rfl | cases h

theorem Tier.rank_lt (a : Tier) : a.rank < 7 := by
  cases a <;> decide

namespace Assembly

open Formula.Expr

variable {limit room : ℕ} {tier : Tier} {tiers : List Tier} {s s' : List Expr} {x y : Expr}

/-! ## Segments with leading operators -/

/-- Applying the operators that lead the segment makes one operand of it. -/
def Settles (limit room : ℕ) (s : List Expr) (x : Expr) : Prop :=
  x.isResolved = true ∧
    ∀ rest, (settle (resolveLeading limit room) (s ++ rest)).outcome = .ok (x :: rest)

theorem settles_operand (hx : x.isResolved = true) : Settles limit room [x] x := by
  refine ⟨hx, fun rest => ?_⟩
  rw [List.singleton_append, settle, leadingOperator?, pendingOperator?_of_isResolved hx]
  rfl

theorem resolveLeading_pair {op : BinaryOp} (hx : Settles limit room s x)
    (hy : Settles limit room s' y) (rest : List Expr) :
    (resolveLeading limit (room + 1) (.binary op) (s ++ s' ++ rest)).outcome =
      .ok (.binary op x y, rest) := by
  rw [resolveLeading, Traced.bind_outcome, List.append_assoc, hx.2]
  change (Traced.bind _ _).outcome = _
  rw [Traced.bind_outcome, hy.2]
  change (if (x.isResolved && y.isResolved) = true then Traced.build _ _ else _).outcome = _
  rw [if_pos (by rw [hx.1, hy.1, Bool.and_self])]
  rfl

/-- An operator that leads a segment and takes it for its operands makes one operand of both. -/
theorem settles_leading {op : Operator} {node : Expr} (hpos : op.position = .beforeOperands)
    (hnode : node.isResolved = true)
    (h : ∀ rest, (resolveLeading limit room op (s ++ rest)).outcome = .ok (node, rest)) :
    Settles limit room (pending op :: s) node := by
  refine ⟨hnode, fun rest => ?_⟩
  have hlead : leadingOperator? (pending op) = some op := by
    rw [leadingOperator?, pendingOperator?_pending, Option.filter_some, if_pos]
    exact decide_eq_true hpos
  rw [List.cons_append, settle, hlead]
  change (Traced.bind _ _).outcome = _
  rw [Traced.bind_outcome, h]
  rfl

namespace Passes

theorem of_resolveLeading {op : Operator} {node : Expr} (htier : op.tier = tier)
    (hpos : op.position = .beforeOperands)
    (h : ∀ rest, (resolveLeading limit room op (s ++ rest)).outcome = .ok (node, rest)) :
    Passes limit room tier (Expr.pending op :: s) [node] := by
  refine of_resolve (s := []) (r := []) op htier (self (by simp)) fun left rest => ?_
  unfold resolve
  rw [hpos]
  change (Traced.bind _ _).outcome = _
  rw [Traced.bind_outcome, h]
  rfl

theorem of_settles {op : BinaryOp} (htier : op.tier = tier) (hpos : op.position = .betweenOperands)
    (h : Passes limit (room + 1) tier s [x]) (hx : x.isResolved = true)
    (hy : Settles limit room s' y) :
    Passes limit (room + 1) tier (s ++ Expr.pending (.binary op) :: s') [.binary op x y] := by
  refine of_resolve (.binary op) htier h fun left rest => ?_
  have hpos' : (Operator.binary op).position = .betweenOperands := hpos
  unfold resolve
  rw [hpos']
  change (Traced.bind _ _).outcome = _
  rw [Traced.bind_outcome, hy.2]
  change (if (x.isResolved && y.isResolved) = true then Traced.build _ _ else _).outcome = _
  rw [if_pos (by rw [hx, hy.1, Bool.and_self])]
  rfl

end Passes

/-! ## Marking -/

theorem markNegations_before {op : Operator} {endsOperand : Bool} (row : List Expr)
    (hpos : op.position ≠ .afterOperand) (h : op = .binary .difference → endsOperand = true) :
    markNegations endsOperand (pending op :: row) = pending op :: markNegations false row := by
  rw [markNegations_pending row h, decide_eq_false hpos]

theorem markNegations_after {op : Operator} {endsOperand : Bool} (row : List Expr)
    (hpos : op.position = .afterOperand) (h : op ≠ .binary .difference) :
    markNegations endsOperand (pending op :: row) = pending op :: markNegations true row := by
  rw [markNegations_pending row fun hop => absurd hop h, decide_eq_true hpos]

namespace Tree

/-! ## Order -/

/-- The rank of the operator at the root. A leaf comes before all operators. -/
def rank : Tree → ℕ
  | leaf _ => 0
  | unary op _ => op.tier.rank
  | binary op _ _ => op.tier.rank

/-- Whether an operator that stands before its operands is at the root. -/
def IsLeading : Tree → Prop
  | leaf _ => False
  | unary op _ => op.position = .beforeOperands
  | binary op _ _ => op.position = .beforeOperands

instance : DecidablePred IsLeading
  | leaf _ => isFalse not_false
  | unary op _ => inferInstanceAs (Decidable (op.position = .beforeOperands))
  | binary op _ _ => inferInstanceAs (Decidable (op.position = .beforeOperands))

/-- The operands of each operator are leaves and operators of earlier tiers. Between its operands, an
operator may also have operators of its own tier on its left, and a leading one on its right. -/
inductive InOrder : Tree → Prop
  | leaf {e : Expr} (he : e.isResolved = true) : InOrder (leaf e)
  | unary {op : UnaryOp} {x : Tree} (hx : InOrder x) (hrank : x.rank < op.tier.rank) :
      InOrder (unary op x)
  | leading {op : BinaryOp} {x y : Tree} (hpos : op.position = .beforeOperands) (hx : InOrder x)
      (hy : InOrder y) (hxrank : x.rank < op.tier.rank) (hyrank : y.rank < op.tier.rank) :
      InOrder (binary op x y)
  | between {op : BinaryOp} {x y : Tree} (hpos : op.position = .betweenOperands) (hx : InOrder x)
      (hy : InOrder y) (hxrank : x.rank ≤ op.tier.rank)
      (hyrank : y.rank < op.tier.rank ∨ y.rank = op.tier.rank ∧ y.IsLeading) :
      InOrder (binary op x y)

/-- The rank as an even number if a leading operator is at the root, and as an odd one otherwise. -/
def height (t : Tree) : ℕ :=
  2 * t.rank + if t.IsLeading then 0 else 1

variable {t : Tree} {k : ℕ}

theorem rank_lt (t : Tree) : t.rank < 7 := by
  cases t with
  | leaf e => exact Nat.zero_lt_succ 6
  | unary op x => exact op.tier.rank_lt
  | binary op x y => exact op.tier.rank_lt

theorem rank_le_of_height_le (h : t.height ≤ 2 * k + 1) : t.rank ≤ k := by
  rw [height] at h
  omega

theorem rank_lt_of_height_lt (h : t.height < 2 * k) : t.rank < k := by
  rw [height] at h
  omega

theorem isLeading_of_height_le (h : t.height ≤ 2 * k) :
    t.rank < k ∨ t.rank = k ∧ t.IsLeading := by
  rw [height] at h
  split_ifs at h with hlead
  · by_cases hrank : t.rank = k
    · exact .inr ⟨hrank, hlead⟩
    · exact .inl (by omega)
  · exact .inl (by omega)

theorem height_le (t : Tree) : t.height ≤ 13 := by
  have hrank := t.rank_lt
  rw [height]
  split_ifs <;> omega

/-- The bounds on the heights of operands that an operator between them needs. -/
theorem InOrder.between_of_height {op : BinaryOp} {x y : Tree} (hpos : op.position = .betweenOperands)
    (hx : InOrder x) (hy : InOrder y) (hxheight : x.height ≤ 2 * op.tier.rank + 1)
    (hyheight : y.height ≤ 2 * op.tier.rank) : InOrder (binary op x y) :=
  .between hpos hx hy (rank_le_of_height_le hxheight) (isLeading_of_height_le hyheight)

theorem InOrder.isResolved (h : InOrder t) : t.expr.isResolved = true := by
  induction h with
  | leaf he => exact he
  | unary _ _ ih => exact ih
  | leading _ _ _ _ _ ihx ihy => rw [expr, Expr.isResolved, ihx, ihy, Bool.and_self]
  | between _ _ _ _ _ ihx ihy => rw [expr, Expr.isResolved, ihx, ihy, Bool.and_self]

/-! ## Settled subtrees -/

/-- The tree with leaves in place of the subtrees that the first `k` tiers put together. -/
def settled (k : ℕ) : Tree → Tree
  | leaf e => leaf e
  | unary op x => if op.tier.rank < k then leaf (.unary op x.expr) else unary op (x.settled k)
  | binary op x y =>
    if op.tier.rank < k then leaf (.binary op x.expr y.expr)
    else binary op (x.settled k) (y.settled k)

theorem settled_of_lt (h : t.rank < k) : t.settled k = leaf t.expr := by
  cases t with
  | leaf e => rfl
  | unary op x => exact if_pos h
  | binary op x y => exact if_pos h

theorem settled_succ (h : t.rank = k) : t.settled (k + 1) = leaf t.expr :=
  settled_of_lt (by omega)

theorem settled_unary {op : UnaryOp} (x : Tree) (h : k ≤ op.tier.rank) :
    (unary op x).settled k = unary op (x.settled k) :=
  if_neg (by omega)

theorem settled_binary {op : BinaryOp} (x y : Tree) (h : k ≤ op.tier.rank) :
    (binary op x y).settled k = binary op (x.settled k) (y.settled k) :=
  if_neg (by omega)

theorem settled_zero (t : Tree) : t.settled 0 = t := by
  induction t with
  | leaf e => rfl
  | unary op x ih => rw [settled_unary x (by omega), ih]
  | binary op x y ihx ihy => rw [settled_binary x y (by omega), ihx, ihy]

theorem expr_settled (k : ℕ) (t : Tree) : (t.settled k).expr = t.expr := by
  induction t with
  | leaf e => rfl
  | unary op x ih =>
    rw [settled]
    split_ifs
    · rfl
    · rw [expr, ih, expr]
  | binary op x y ihx ihy =>
    rw [settled]
    split_ifs
    · rfl
    · rw [expr, ihx, ihy, expr]

/-! ## Readings -/

theorem reading_unary_before {op : UnaryOp} (x : Tree) (h : op.position = .beforeOperands) :
    (unary op x).reading = pending (.unary op) :: x.reading := by
  rw [reading, h]

theorem reading_unary_after {op : UnaryOp} (x : Tree) (h : op.position = .afterOperand) :
    (unary op x).reading = x.reading ++ [pending (.unary op)] := by
  rw [reading, h]

theorem reading_binary_before {op : BinaryOp} (x y : Tree) (h : op.position = .beforeOperands) :
    (binary op x y).reading = pending (.binary op) :: (x.reading ++ y.reading) := by
  rw [reading, h]

theorem reading_binary_between {op : BinaryOp} (x y : Tree) (h : op.position = .betweenOperands) :
    (binary op x y).reading = x.reading ++ pending (.binary op) :: y.reading := by
  rw [reading, h]

theorem unary_position (op : UnaryOp) :
    op.position = .beforeOperands ∨ op.position = .afterOperand := by
  cases op <;> decide

theorem binary_position (op : BinaryOp) :
    op.position = .beforeOperands ∨ op.position = .betweenOperands := by
  cases op <;> decide

theorem length_reading_unary (op : UnaryOp) (x : Tree) :
    (unary op x).reading.length = x.reading.length + 1 := by
  rcases unary_position op with h | h
  · rw [reading_unary_before x h, List.length_cons]
  · rw [reading_unary_after x h, List.length_append, List.length_singleton]

theorem length_reading_binary (op : BinaryOp) (x y : Tree) :
    (binary op x y).reading.length = x.reading.length + y.reading.length + 1 := by
  rcases binary_position op with h | h
  · rw [reading_binary_before x y h, List.length_cons, List.length_append]
  · rw [reading_binary_between x y h, List.length_append, List.length_cons, Nat.add_assoc]

theorem length_reading_pos (t : Tree) : 0 < t.reading.length := by
  cases t with
  | leaf e => exact Nat.one_pos
  | unary op x =>
    rw [length_reading_unary]
    omega
  | binary op x y =>
    rw [length_reading_binary]
    omega

/-- A reading of one entry is that of a leaf. -/
theorem reading_eq_singleton (h : t.reading.length ≤ 1) : t.reading = [t.expr] := by
  cases t with
  | leaf e => rfl
  | unary op x =>
    have := x.length_reading_pos
    rw [length_reading_unary] at h
    omega
  | binary op x y =>
    have := x.length_reading_pos
    rw [length_reading_binary] at h
    omega

/-! ## One tier -/

/-- An operator of the current tier that stands before its operands finds them settled. -/
theorem InOrder.resolveLeading (h : InOrder t) (hlead : t.IsLeading) (limit room : ℕ) :
    ∃ op s, op.tier.rank = t.rank ∧ op.position = .beforeOperands ∧
      (t.settled t.rank).reading = pending op :: s ∧
      ∀ rest, (Assembly.resolveLeading limit (room + 1) op (s ++ rest)).outcome =
        .ok (t.expr, rest) := by
  cases h with
  | leaf => cases hlead
  | @unary op x hx hrank =>
    refine ⟨.unary op, [x.expr], rfl, hlead, ?_, fun rest => ?_⟩
    · show ((Tree.unary op x).settled op.tier.rank).reading = _
      rw [settled_unary x (Nat.le_refl _), reading_unary_before _ hlead]
      exact congrArg (_ :: ·) (congrArg reading (settled_of_lt hrank))
    · exact resolveLeading_of_settle ((settles_operand hx.isResolved).2 rest) hx.isResolved
  | @leading op x y hpos hx hy hxrank hyrank =>
    refine ⟨.binary op, [x.expr] ++ [y.expr], rfl, hpos, ?_, fun rest => ?_⟩
    · show ((binary op x y).settled op.tier.rank).reading = _
      rw [settled_binary x y (Nat.le_refl _), reading_binary_before _ _ hpos]
      exact congrArg (_ :: ·) (congrArg₂ (·.reading ++ ·.reading) (settled_of_lt hxrank)
        (settled_of_lt hyrank))
    · exact resolveLeading_pair (settles_operand hx.isResolved) (settles_operand hy.isResolved) rest
  | between hpos => cases hpos.symm.trans hlead

theorem InOrder.settles (h : InOrder t) (hrank : t.rank < k ∨ t.rank = k ∧ t.IsLeading)
    (limit room : ℕ) : Settles limit (room + 1) (t.settled k).reading t.expr := by
  rcases hrank with hlt | ⟨rfl, hlead⟩
  · rw [settled_of_lt hlt]
    exact settles_operand h.isResolved
  · obtain ⟨op, s, -, hpos, hreading, hres⟩ := h.resolveLeading hlead limit room
    rw [hreading]
    exact settles_leading hpos h.isResolved hres

theorem InOrder.passes_leading (h : InOrder t) (hlead : t.IsLeading) (hrank : t.rank = tier.rank)
    (limit room : ℕ) : Passes limit (room + 1) tier (t.settled tier.rank).reading [t.expr] := by
  obtain ⟨op, s, htier, hpos, hreading, hres⟩ := h.resolveLeading hlead limit room
  rw [← hrank, hreading]
  exact .of_resolveLeading (Tier.rank_inj (htier.trans hrank)) hpos hres

theorem passes_unary {op : UnaryOp} {x x' : Tree} (hop : op.tier ≠ tier)
    (hx : Passes limit room tier x.reading x'.reading) :
    Passes limit room tier (unary op x).reading (unary op x').reading := by
  have hpending : Passes limit room tier [pending (.unary op)] [pending (.unary op)] := .pending hop
  rcases unary_position op with hpos | hpos
  · rw [reading_unary_before x hpos, reading_unary_before x' hpos]
    exact hpending.append hx
  · rw [reading_unary_after x hpos, reading_unary_after x' hpos]
    exact hx.append hpending

theorem passes_binary {op : BinaryOp} {x x' y y' : Tree} (hop : op.tier ≠ tier)
    (hx : Passes limit room tier x.reading x'.reading)
    (hy : Passes limit room tier y.reading y'.reading) :
    Passes limit room tier (binary op x y).reading (binary op x' y').reading := by
  have hpending : Passes limit room tier [pending (.binary op)] [pending (.binary op)] := .pending hop
  rcases binary_position op with hpos | hpos
  · rw [reading_binary_before x y hpos, reading_binary_before x' y' hpos]
    exact hpending.append (hx.append hy)
  · rw [reading_binary_between x y hpos, reading_binary_between x' y' hpos]
    exact hx.append (hpending.append hy)

/-- Each tier settles the subtrees with its operators: those of earlier tiers are operands already,
and later operators are left alone. -/
theorem passes_settled (h : InOrder t) (tier : Tier) (limit room : ℕ) :
    Passes limit (room + 2) tier (t.settled tier.rank).reading
      (t.settled (tier.rank + 1)).reading := by
  have hearlier {t : Tree} (h : InOrder t) (hlt : t.rank < tier.rank) :
      Passes limit (room + 2) tier (t.settled tier.rank).reading
        (t.settled (tier.rank + 1)).reading := by
    rw [settled_of_lt hlt, settled_of_lt (Nat.lt_succ_of_lt hlt)]
    exact .operand h.isResolved
  induction h with
  | leaf he => exact .operand he
  | @unary op x hx hrank ih =>
    have h : InOrder (.unary op x) := .unary hx hrank
    rcases Nat.lt_trichotomy op.tier.rank tier.rank with hlt | heq | hgt
    · exact hearlier h hlt
    · rw [settled_succ (t := .unary op x) heq]
      rcases unary_position op with hpos | hpos
      · exact h.passes_leading hpos heq limit (room + 1)
      · rw [settled_unary x (Nat.le_of_eq heq.symm), reading_unary_after _ hpos,
          settled_of_lt (heq ▸ hrank)]
        exact .trailing (Tier.rank_inj heq) hpos (.operand hx.isResolved) hx.isResolved (by omega)
    · rw [settled_unary x (Nat.le_of_lt hgt), settled_unary x hgt]
      exact passes_unary (fun heq => by simp [heq] at hgt) ih
  | @leading op x y hpos hx hy hxrank hyrank ihx ihy =>
    have h : InOrder (.binary op x y) := .leading hpos hx hy hxrank hyrank
    rcases Nat.lt_trichotomy op.tier.rank tier.rank with hlt | heq | hgt
    · exact hearlier h hlt
    · rw [settled_succ (t := .binary op x y) heq]
      exact h.passes_leading hpos heq limit (room + 1)
    · rw [settled_binary x y (Nat.le_of_lt hgt), settled_binary x y hgt]
      exact passes_binary (fun heq => by simp [heq] at hgt) ihx ihy
  | @between op x y hpos hx hy hxrank hyrank ihx ihy =>
    have h : InOrder (.binary op x y) := .between hpos hx hy hxrank hyrank
    rcases Nat.lt_trichotomy op.tier.rank tier.rank with hlt | heq | hgt
    · exact hearlier h hlt
    · rw [settled_succ (t := .binary op x y) heq,
        settled_binary x y (Nat.le_of_eq heq.symm), reading_binary_between _ _ hpos]
      -- operators of the tier on the left have been applied before this one is reached
      rw [settled_of_lt (k := tier.rank + 1) (heq ▸ Nat.lt_succ_of_le hxrank)] at ihx
      rw [heq] at hyrank
      exact .of_settles (Tier.rank_inj heq) hpos ihx hx.isResolved (hy.settles hyrank limit room)
    · rw [settled_binary x y (Nat.le_of_lt hgt), settled_binary x y hgt]
      exact passes_binary (fun heq => by simp [heq] at hgt) ihx ihy

/-! ## All tiers -/

theorem applyTiers_settled (h : InOrder t) (tier : Tier)
    (hrest : (applyTiers limit (room + 2) tiers (t.settled (tier.rank + 1)).reading).outcome =
      .ok [t.expr]) :
    (applyTiers limit (room + 2) (tier :: tiers) (t.settled tier.rank).reading).outcome =
      .ok [t.expr] := by
  rw [applyTiers]
  split_ifs with hlength
  · rw [reading_eq_singleton hlength, expr_settled]
    rfl
  · rw [Traced.bind_outcome, (passes_settled h tier limit room).outcome_eq]
    exact hrest

/-- The tiers reduce the reading of a tree in order to its expression. -/
theorem applyTiers_reading (h : InOrder t) (hroom : t.reading.length ≤ room) :
    (applyTiers limit room Tier.descending t.reading).outcome = .ok [t.expr] := by
  by_cases hlength : t.reading.length ≤ 1
  · rw [Tier.descending, applyTiers, if_pos hlength, reading_eq_singleton hlength]
    rfl
  · obtain ⟨room, rfl⟩ : ∃ k, room = k + 2 := ⟨room - 2, by omega⟩
    have hlast : (applyTiers limit (room + 2) [] (t.settled 7).reading).outcome = .ok [t.expr] := by
      rw [settled_of_lt t.rank_lt]
      rfl
    have hfirst := applyTiers_settled h .container <| applyTiers_settled h .application <|
      applyTiers_settled h .factorial <| applyTiers_settled h .modulo <|
      applyTiers_settled h .exponent <| applyTiers_settled h .multiplication <|
      applyTiers_settled h .addition hlast
    rw [Tier.rank, settled_zero] at hfirst
    exact hfirst

/-! ## Negations -/

/-- Marking the negations restores the reading of a tree in order. Behind an operand, the tree must not
start with a negation. -/
theorem markNegations_reading (h : InOrder t) (endsOperand : Bool)
    (hstart : endsOperand = true → t.rank < Tier.multiplication.rank) (rest : List Expr) :
    markNegations endsOperand (t.reading.map unmark ++ rest) =
      t.reading ++ markNegations true rest := by
  induction h generalizing endsOperand rest with
  | leaf he =>
    show markNegations endsOperand ([unmark _] ++ rest) = _
    rw [unmark_operand he]
    exact markNegations_operand endsOperand rest he
  | @unary op x hx hrank ih =>
    rcases unary_position op with hpos | hpos
    · rw [reading_unary_before x hpos, List.map_cons, List.cons_append, List.cons_append]
      by_cases hneg : op = .negate
      · subst hneg
        obtain rfl : endsOperand = false := by
          rw [← Bool.not_eq_true]
          exact fun hends => Nat.lt_irrefl _ (hstart hends)
        rw [unmark_negate, markNegations_minus, ih false nofun]
      · have hop : (Operator.unary op).position ≠ .afterOperand := by simp [Operator.position, hpos]
        rw [unmark_pending (by simpa using hneg), markNegations_before _ hop (by simp),
          ih false nofun]
    · have hpos' : (Operator.unary op).position = .afterOperand := hpos
      have hop : unmark (pending (.unary op)) = pending (.unary op) := by
        refine unmark_pending ?_
        rintro ⟨⟩
        cases hpos
      rw [reading_unary_after x hpos, List.map_append, List.map_singleton, hop, List.append_assoc,
        ih endsOperand fun hends => Nat.lt_trans hrank (hstart hends), List.append_assoc,
        List.singleton_append, markNegations_after _ hpos' (by simp)]
      rfl
  | @leading op x y hpos hx hy hxrank hyrank ihx ihy =>
    have hop : (Operator.binary op).position ≠ .afterOperand := by simp [Operator.position, hpos]
    have hminus : Operator.binary op = .binary .difference → endsOperand = true := by
      rintro ⟨⟩
      cases hpos
    have hearly : op.tier.rank < Tier.multiplication.rank := by
      cases op <;> first | decide | cases hpos
    rw [reading_binary_before x y hpos, List.map_cons, List.map_append, List.cons_append,
      unmark_pending (by simp), markNegations_before _ hop hminus, List.append_assoc,
      ihx false nofun, ihy true fun _ => Nat.lt_trans hyrank hearly, List.cons_append,
      List.append_assoc]
  | @between op x y hpos hx hy hxrank hyrank ihx ihy =>
    have hop : (Operator.binary op).position ≠ .afterOperand := by simp [Operator.position, hpos]
    rw [reading_binary_between x y hpos, List.map_append, List.map_cons, List.append_assoc,
      ihx endsOperand fun hends => Nat.lt_of_le_of_lt hxrank (hstart hends), List.cons_append,
      unmark_pending (by simp), markNegations_before _ hop (fun _ => rfl), ihy false nofun,
      List.append_assoc, List.cons_append]

/-- The reading of a tree in order is assembled into its expression, if it is not longer than there are
levels. -/
theorem assembleWithin_reading (h : InOrder t) (hroom : t.reading.length ≤ room) :
    (assembleWithin limit room (t.reading.map unmark)).outcome = .ok t.expr := by
  have hmarked := markNegations_reading h false nofun []
  rw [List.append_nil, markNegations, List.append_nil] at hmarked
  rw [assembleWithin, hmarked, Traced.bind_outcome, applyTiers_reading h hroom]
  show single [t.expr] = _
  rw [single, pendingOperator?_of_isResolved h.isResolved]

end Tree

end Assembly

end Formula
