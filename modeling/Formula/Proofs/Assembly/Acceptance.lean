import Formula.Proofs.Assembly.Grammar

/-!
# What is assembled

Rows of the grammar are assembled into their trees. Each tier turns the phrases of one nonterminal
into single operands, wherever they stand in the row: `Passes` says so of a segment, in any context.
What is left is a phrase again, of the same tree and without the operators of the tier, so that after
the last tier a single operand remains. Together with the soundness of the tiers this gives the main
result, `assemble_eq_ok_iff`: with enough levels of nesting, a row is assembled if and only if the
grammar derives it, and into the tree that it derives.
-/

namespace Formula.Assembly

open Formula.Expr

variable {limit room : ℕ} {tier : Tier} {n : Nonterminal} {s s' r r' : List Expr} {x y t : Expr}

/-! ## Segments of a row -/

/-- The tier turns the first segment into the second, whatever stands around it. -/
def Passes (limit room : ℕ) (tier : Tier) (s s' : List Expr) : Prop :=
  ∀ left rest, (applyTier limit room tier left (s ++ rest)).outcome =
    (applyTier limit room tier (s'.reverse ++ left) rest).outcome

namespace Passes

theorem append (h : Passes limit room tier s r) (h' : Passes limit room tier s' r') :
    Passes limit room tier (s ++ s') (r ++ r') := by
  intro left rest
  rw [List.append_assoc, h, h', List.reverse_append, List.append_assoc]

theorem skip {e : Expr} (he : operatorOf? tier e = none) : Passes limit room tier [e] [e] :=
  fun left rest => congrArg Traced.outcome (applyTier_of_none left rest he)

theorem operand (he : x.isResolved = true) : Passes limit room tier [x] [x] :=
  skip (operatorOf?_of_isResolved tier he)

theorem pending {op : Operator} (hop : op.tier ≠ tier) :
    Passes limit room tier [Expr.pending op] [Expr.pending op] :=
  skip (by rw [operatorOf?_pending, if_neg hop])

theorem self (h : ∀ op, Expr.pending op ∈ s → op.tier ≠ tier) : Passes limit room tier s s := by
  induction s with
  | nil => exact fun left rest => rfl
  | cons e s ih =>
    have he : operatorOf? tier e = none := by
      cases hp : e.pendingOperator? with
      | none => rw [operatorOf?, hp, Option.filter_none]
      | some op =>
        obtain rfl := eq_pending_of_pendingOperator? hp
        rw [operatorOf?_pending, if_neg (h op List.mem_cons_self)]
    exact (skip he).append (ih fun op hop => h op (List.mem_cons_of_mem e hop))

theorem outcome_eq (h : Passes limit room tier s s') :
    (applyTier limit room tier [] s).outcome = .ok s' := by
  have hs := h [] []
  rw [List.append_nil, List.append_nil, applyTier_nil, List.reverse_reverse] at hs
  exact hs

/-- An operator of the tier is resolved as soon as it is reached. -/
theorem of_resolve (op : Operator) (htier : op.tier = tier) {node : Expr}
    (h : Passes limit room tier s r)
    (hres : ∀ left rest, (resolve limit room op (r.reverse ++ left) (s' ++ rest)).outcome =
      .ok (left, node, rest)) :
    Passes limit room tier (s ++ Expr.pending op :: s') [node] := by
  intro left rest
  rw [List.append_assoc, h, List.cons_append,
    applyTier_of_some _ _ (by rw [operatorOf?_pending, if_pos htier]), hres]
  rfl

end Passes

/-! ## Leading operators -/

/-- An operand behind operators that stand before it. -/
inductive Prefixed : List Expr → Expr → Prop
  | operand {e : Expr} (he : e.isResolved = true) : Prefixed [e] e
  | leading {op : UnaryOp} {s : List Expr} {x : Expr} (hpos : op.position = .beforeOperands)
      (hx : Prefixed s x) : Prefixed (pending (.unary op) :: s) (.unary op x)

theorem Prefixed.isResolved (h : Prefixed s x) : x.isResolved = true := by
  induction h with
  | operand he => exact he
  | leading _ _ ih => exact ih

theorem Prefixed.length_pos (h : Prefixed s x) : 0 < s.length := by
  cases h <;> simp

theorem resolveLeading_of_settle {op : UnaryOp} {row rest : List Expr}
    (h : (settle (resolveLeading limit room) row).outcome = .ok (x :: rest))
    (hx : x.isResolved = true) :
    (resolveLeading limit (room + 1) (.unary op) row).outcome = .ok (.unary op x, rest) := by
  rw [resolveLeading, Traced.bind_outcome, h]
  change (if x.isResolved = true then Traced.build _ _ else _).outcome = _
  rw [if_pos hx]
  rfl

/-- Leading operators are applied from the inside out. -/
theorem Prefixed.settle (h : Prefixed s x) (hroom : s.length ≤ room + 1) (rest : List Expr) :
    (Assembly.settle (resolveLeading limit room) (s ++ rest)).outcome = .ok (x :: rest) := by
  induction h generalizing room with
  | operand he =>
    rw [List.singleton_append, Assembly.settle, leadingOperator?, pendingOperator?_of_isResolved he]
    rfl
  | @leading op s x hpos hx ih =>
    have hlead : leadingOperator? (pending (.unary op)) = some (.unary op) := by
      rw [leadingOperator?, pendingOperator?_pending, Option.filter_some, if_pos]
      exact decide_eq_true hpos
    have hpos := hx.length_pos
    rw [List.length_cons] at hroom
    obtain ⟨room, rfl⟩ : ∃ k, room = k + 1 := ⟨room - 1, by omega⟩
    rw [List.cons_append, Assembly.settle, hlead]
    change (Traced.bind _ _).outcome = _
    rw [Traced.bind_outcome, resolveLeading_of_settle (ih (by omega)) hx.isResolved]
    rfl

theorem Prefixed.resolveLeading {op : UnaryOp} (h : Prefixed s x) (hroom : s.length ≤ room)
    (rest : List Expr) :
    (Assembly.resolveLeading limit room (.unary op) (s ++ rest)).outcome =
      .ok (.unary op x, rest) := by
  have hpos := h.length_pos
  obtain ⟨room, rfl⟩ : ∃ k, room = k + 1 := ⟨room - 1, by omega⟩
  exact resolveLeading_of_settle (h.settle (by omega) rest) h.isResolved

/-! ## Operators of a tier -/

namespace Passes

theorem leading {op : UnaryOp} (htier : op.tier = tier) (hpos : op.position = .beforeOperands)
    (hx : Prefixed s x) (hroom : s.length ≤ room) :
    Passes limit room tier (Expr.pending (.unary op) :: s) [.unary op x] := by
  refine of_resolve (s := []) (r := []) (.unary op) htier (self (by simp)) fun left rest => ?_
  have hpos' : (Operator.unary op).position = .beforeOperands := hpos
  unfold resolve
  rw [hpos']
  change (Traced.bind _ _).outcome = _
  rw [Traced.bind_outcome, hx.resolveLeading hroom]
  rfl

theorem trailing {op : UnaryOp} (htier : op.tier = tier) (hpos : op.position = .afterOperand)
    (h : Passes limit room tier s [x]) (hx : x.isResolved = true) (hroom : 0 < room) :
    Passes limit room tier (s ++ [Expr.pending (.unary op)]) [.unary op x] := by
  refine of_resolve (.unary op) htier h fun left rest => ?_
  have hpos' : (Operator.unary op).position = .afterOperand := hpos
  obtain ⟨room, rfl⟩ : ∃ k, room = k + 1 := ⟨room - 1, by omega⟩
  unfold resolve
  rw [hpos']
  change (if x.isResolved = true then Traced.build _ _ else _).outcome = _
  rw [if_pos hx]
  rfl

theorem between {op : BinaryOp} (htier : op.tier = tier) (hpos : op.position = .betweenOperands)
    (h : Passes limit room tier s [x]) (hx : x.isResolved = true) (hy : Prefixed s' y)
    (hroom : s'.length ≤ room) :
    Passes limit room tier (s ++ Expr.pending (.binary op) :: s') [.binary op x y] := by
  refine of_resolve (.binary op) htier h fun left rest => ?_
  have hpos' : (Operator.binary op).position = .betweenOperands := hpos
  have hlength := hy.length_pos
  obtain ⟨room, rfl⟩ : ∃ k, room = k + 1 := ⟨room - 1, by omega⟩
  unfold resolve
  rw [hpos']
  change (Traced.bind _ _).outcome = _
  rw [Traced.bind_outcome, hy.settle hroom]
  change (if (x.isResolved && y.isResolved) = true then Traced.build _ _ else _).outcome = _
  rw [if_pos (by rw [hx, hy.isResolved, Bool.and_self])]
  rfl

end Passes

/-! ## Operators that are left -/

/-- All pending operators of the row belong to one of the tiers. -/
def Within (tiers : List Tier) (s : List Expr) : Prop :=
  ∀ op, pending op ∈ s → op.tier ∈ tiers

variable {tiers : List Tier}

theorem pending_inj {op op' : Operator} (h : pending op = pending op') : op = op' := by
  have h' := congrArg pendingOperator? h
  rwa [pendingOperator?_pending, pendingOperator?_pending, Option.some.injEq] at h'

theorem within_append : Within tiers (s ++ s') ↔ Within tiers s ∧ Within tiers s' := by
  simp only [Within, List.mem_append, or_imp, forall_and]

theorem within_pending {op : Operator} :
    Within tiers (pending op :: s) ↔ op.tier ∈ tiers ∧ Within tiers s := by
  simp only [Within, List.mem_cons, or_imp, forall_and]
  refine and_congr_left fun _ => ⟨fun h => h op rfl, ?_⟩
  intro h op' heq
  rwa [pending_inj heq]

theorem within_operand (hx : x.isResolved = true) : Within tiers [x] := by
  intro op hop
  rw [List.mem_singleton] at hop
  rw [← hop, isResolved_pending] at hx
  cases hx

/-! ## Phrases without operators of some tiers -/

theorem Derives.isResolved {minus : Operator} (h : Derives minus n s t) : t.isResolved = true := by
  induction h with
  | atom_operand he | farg_operand he => exact he
  | sum_prod _ ih | prod_factor _ ih | factor_pow _ ih | pow_post _ ih | parg_post _ ih
  | post_atom _ ih | factor_neg _ ih | parg_neg _ ih | farg_neg _ ih | post_factorial _ ih
  | atom_apply _ _ ih | farg_apply _ _ ih => exact ih
  | sum_add _ _ _ ihx ihy | prod_mul _ _ _ ihx ihy | pow_pow _ _ ihx ihy =>
    rw [Expr.isResolved, ihx, ihy, Bool.and_self]

namespace Derives

theorem atom_isOperand (h : Phrase .atom s t) (hw : Within tiers s)
    (happ : .application ∉ tiers) : IsOperand s t := by
  cases h with
  | atom_operand he => exact ⟨rfl, he⟩
  | atom_apply hop _ => exact absurd (hop.tier_eq ▸ (within_pending.1 hw).1) happ

theorem post_isOperand (h : Phrase .post s t) (hw : Within tiers s)
    (happ : .application ∉ tiers) (hfact : .factorial ∉ tiers) : IsOperand s t := by
  cases h with
  | post_atom h => exact h.atom_isOperand hw happ
  | post_factorial _ => exact absurd (within_pending.1 (within_append.1 hw).2).1 hfact

theorem pow_isOperand (h : Phrase .pow s t) (hw : Within tiers s) (happ : .application ∉ tiers)
    (hfact : .factorial ∉ tiers) (hexp : .exponent ∉ tiers) : IsOperand s t := by
  cases h with
  | pow_post h => exact h.post_isOperand hw happ hfact
  | pow_pow _ _ => exact absurd (within_pending.1 (within_append.1 hw).2).1 hexp

theorem prod_isOperand (h : Phrase .prod s t) (hw : Within [.addition] s) : IsOperand s t := by
  cases h with
  | prod_factor h =>
    cases h with
    | factor_pow h => exact h.pow_isOperand hw (by decide) (by decide) (by decide)
    | factor_neg _ => simp [within_pending, Operator.tier, UnaryOp.tier] at hw
  | prod_mul hop _ _ =>
    have htier := (within_pending.1 (within_append.1 hw).2).1
    rcases hop with rfl | rfl <;> simp [Operator.tier, BinaryOp.tier] at htier

theorem farg_prefixed (h : Phrase .farg s t) : Prefixed s t := by
  generalize hn : Nonterminal.farg = n at h
  induction h with
  | farg_operand he => exact .operand he
  | farg_apply hop _ ih => exact .leading hop.position_eq (ih hn)
  | farg_neg _ ih => exact .leading rfl (ih hn)
  | _ => cases hn

theorem parg_prefixed (h : Phrase .parg s t) (hw : Within tiers s)
    (happ : .application ∉ tiers) (hfact : .factorial ∉ tiers) : Prefixed s t := by
  generalize hn : Nonterminal.parg = n at h
  induction h with
  | parg_post h _ =>
    obtain ⟨rfl, hx⟩ := h.post_isOperand hw happ hfact
    exact .operand hx
  | parg_neg _ ih => exact .leading rfl (ih (within_pending.1 hw).2 hn)
  | _ => cases hn

theorem factor_prefixed (h : Phrase .factor s t) (hw : Within tiers s)
    (happ : .application ∉ tiers) (hfact : .factorial ∉ tiers) (hexp : .exponent ∉ tiers) :
    Prefixed s t := by
  generalize hn : Nonterminal.factor = n at h
  induction h with
  | factor_pow h _ =>
    obtain ⟨rfl, hx⟩ := h.pow_isOperand hw happ hfact hexp
    exact .operand hx
  | factor_neg _ ih => exact .leading rfl (ih (within_pending.1 hw).2 hn)
  | _ => cases hn

/-! ## Phrases that become operands -/

/-- The application of functions makes operands of atoms. -/
theorem atom_passes (h : Phrase .atom s t) (hroom : s.length ≤ room) :
    Passes limit room .application s [t] := by
  cases h with
  | atom_operand he => exact .operand he
  | atom_apply hop hx =>
    rw [List.length_cons] at hroom
    exact .leading hop.tier_eq hop.position_eq hx.farg_prefixed (by omega)

/-- The factorials make operands of operands with factorial signs. -/
theorem post_passes (h : Phrase .post s t) (hw : Within tiers s) (happ : .application ∉ tiers)
    (hroom : s.length ≤ room) : Passes limit room .factorial s [t] := by
  generalize hn : Nonterminal.post = n at h
  induction h with
  | post_atom h _ =>
    obtain ⟨rfl, hx⟩ := h.atom_isOperand hw happ
    exact .operand hx
  | post_factorial h ih =>
    rw [List.length_append, List.length_singleton] at hroom
    exact .trailing rfl rfl (ih (within_append.1 hw).1 (by omega) hn) h.isResolved (by omega)
  | _ => cases hn

/-- The exponents make operands of powers. -/
theorem pow_passes (h : Phrase .pow s t) (hw : Within tiers s) (happ : .application ∉ tiers)
    (hfact : .factorial ∉ tiers) (hroom : s.length ≤ room) :
    Passes limit room .exponent s [t] := by
  generalize hn : Nonterminal.pow = n at h
  induction h with
  | pow_post h _ =>
    obtain ⟨rfl, hx⟩ := h.post_isOperand hw happ hfact
    exact .operand hx
  | pow_pow hx hy ihx _ =>
    rw [within_append, within_pending] at hw
    rw [List.length_append, List.length_cons] at hroom
    exact .between rfl rfl (ihx hw.1 (by omega) hn) hx.isResolved
      (hy.parg_prefixed hw.2.2 happ hfact) (by omega)
  | _ => cases hn

/-- The multiplications make operands of factors and products. -/
theorem prod_passes (h : Phrase .prod s t) (hw : Within [.multiplication, .addition] s)
    (hroom : s.length ≤ room) : Passes limit room .multiplication s [t] := by
  generalize hn : Nonterminal.prod = n at h
  induction h with
  | prod_factor h _ =>
    cases h with
    | factor_pow h =>
      obtain ⟨rfl, hx⟩ := h.pow_isOperand hw (by decide) (by decide) (by decide)
      exact .operand hx
    | factor_neg h =>
      rw [List.length_cons] at hroom
      exact .leading rfl rfl
        (h.factor_prefixed (within_pending.1 hw).2 (by decide) (by decide) (by decide)) (by omega)
  | prod_mul hop hx hy ihx _ =>
    rw [within_append, within_pending] at hw
    rw [List.length_append, List.length_cons] at hroom
    refine .between ?_ ?_ (ihx hw.1 (by omega) hn) hx.isResolved
      (hy.factor_prefixed hw.2.2 (by decide) (by decide) (by decide)) (by omega)
    · rcases hop with rfl | rfl <;> rfl
    · rcases hop with rfl | rfl <;> rfl
  | _ => cases hn

/-- The additions make operands of sums. -/
theorem sum_passes (h : Phrase .sum s t) (hw : Within [.addition] s) (hroom : s.length ≤ room) :
    Passes limit room .addition s [t] := by
  generalize hn : Nonterminal.sum = n at h
  induction h with
  | sum_prod h _ =>
    obtain ⟨rfl, hx⟩ := h.prod_isOperand hw
    exact .operand hx
  | sum_add hop hx hy ihx _ =>
    rw [within_append, within_pending] at hw
    rw [List.length_append, List.length_cons] at hroom
    obtain ⟨rfl, hyres⟩ := hy.prod_isOperand hw.2.2
    refine .between ?_ ?_ (ihx hw.1 (by omega) hn) hx.isResolved (.operand hyres) (by omega)
    · rcases hop with rfl | rfl <;> rfl
    · rcases hop with rfl | rfl <;> rfl
  | _ => cases hn

theorem operand (n : Nonterminal) (hx : x.isResolved = true) : Phrase n [x] x := by
  have hpost : Phrase .post [x] x := .post_atom (.atom_operand hx)
  cases n with
  | farg => exact .farg_operand hx
  | atom => exact .atom_operand hx
  | post => exact hpost
  | parg => exact .parg_post hpost
  | pow => exact .pow_post hpost
  | factor => exact .factor_pow (.pow_post hpost)
  | prod => exact .prod_factor (.factor_pow (.pow_post hpost))
  | sum => exact .sum_prod (.prod_factor (.factor_pow (.pow_post hpost)))

theorem length_pos {minus : Operator} (h : Derives minus n s t) : 0 < s.length := by
  induction h with
  | sum_prod _ ih | prod_factor _ ih | factor_pow _ ih | pow_post _ ih | parg_post _ ih
  | post_atom _ ih => exact ih
  | _ =>
    simp only [List.length_append, List.length_cons, List.length_nil]
    omega

/-- A phrase of one entry is its own tree. -/
theorem eq_singleton {minus : Operator} (h : Derives minus n s t) (hlen : s.length ≤ 1) :
    s = [t] := by
  induction h with
  | atom_operand he | farg_operand he => rfl
  | sum_prod _ ih | prod_factor _ ih | factor_pow _ ih | pow_post _ ih | parg_post _ ih
  | post_atom _ ih => exact ih hlen
  | factor_neg h | parg_neg h | farg_neg h | post_factorial h | atom_apply _ h
  | farg_apply _ h =>
    have := h.length_pos
    simp only [List.length_append, List.length_cons, List.length_nil] at hlen
    omega
  | sum_add _ hx hy | prod_mul _ hx hy | pow_pow hx hy =>
    have := hx.length_pos
    have := hy.length_pos
    simp only [List.length_append, List.length_cons] at hlen
    omega

end Derives

/-! ## One tier on a phrase -/

namespace Nonterminal

/-- The nonterminals whose phrases are built over those of the given one, by operators of later
tiers. -/
def above : Nonterminal → List Nonterminal
  | atom => [post, parg, pow, factor, prod, sum]
  | post => [parg, pow, factor, prod, sum]
  | pow => [factor, prod, sum]
  | prod => [sum]
  | _ => []

/-- The nonterminals of which phrases consist. -/
def parts : Nonterminal → List Nonterminal
  | sum => [sum, prod]
  | prod => [prod, factor]
  | factor => [factor, pow]
  | pow => [pow, parg, post]
  | parg => [parg, post]
  | post => [post, atom]
  | atom | farg => [farg]

/-- The tier of the operators that phrases are built with. -/
def operatorTier : Nonterminal → Tier
  | sum => .addition
  | prod | factor | parg => .multiplication
  | pow => .exponent
  | post => .factorial
  | atom | farg => .application

theorem parts_above {base n : Nonterminal} (h : n ∈ base.above) :
    ∀ m ∈ n.parts, m = base ∨ m ∈ base.above := by
  cases base <;> cases n <;> revert h <;> decide

theorem operatorTier_above {base n : Nonterminal} (h : n ∈ base.above) :
    n.operatorTier ≠ base.operatorTier := by
  cases base <;> cases n <;> revert h <;> decide

end Nonterminal

/-- The tier turns the row into a phrase of the same tree, without operators of the tier. -/
def Collapses (limit room : ℕ) (tier : Tier) (tiers : List Tier) (n : Nonterminal) (s : List Expr)
    (t : Expr) : Prop :=
  ∃ s', Passes limit room tier s s' ∧ Phrase n s' t ∧ Within tiers s' ∧ s'.length ≤ s.length

namespace Collapses

variable {m m' : Nonterminal}

theorem of_passes (h : Passes limit room tier s [t]) (ht : Phrase n s t) :
    Collapses limit room tier tiers n s t :=
  ⟨[t], h, .operand n ht.isResolved, within_operand ht.isResolved, ht.length_pos⟩

theorem unit (rule : ∀ r, Phrase m r t → Phrase n r t) (h : Collapses limit room tier tiers m s t) :
    Collapses limit room tier tiers n s t := by
  obtain ⟨r, hr, ht, hw, hlen⟩ := h
  exact ⟨r, hr, rule r ht, hw, hlen⟩

theorem leading {op : Operator} (htier : op.tier ≠ tier) (hmem : op.tier ∈ tier :: tiers)
    (rule : ∀ r, Phrase m r x → Phrase n (pending op :: r) t)
    (h : Collapses limit room tier tiers m s x) :
    Collapses limit room tier tiers n (pending op :: s) t := by
  obtain ⟨r, hr, hx, hw, hlen⟩ := h
  refine ⟨pending op :: r, (Passes.pending htier).append hr, rule r hx, ?_, by simpa using hlen⟩
  exact within_pending.2 ⟨(List.mem_cons.1 hmem).resolve_left htier, hw⟩

theorem trailing {op : Operator} (htier : op.tier ≠ tier) (hmem : op.tier ∈ tier :: tiers)
    (rule : ∀ r, Phrase m r x → Phrase n (r ++ [pending op]) t)
    (h : Collapses limit room tier tiers m s x) :
    Collapses limit room tier tiers n (s ++ [pending op]) t := by
  obtain ⟨r, hr, hx, hw, hlen⟩ := h
  refine ⟨r ++ [pending op], hr.append (.pending htier), rule r hx, ?_, by simpa using hlen⟩
  exact within_append.2 ⟨hw, within_pending.2
    ⟨(List.mem_cons.1 hmem).resolve_left htier, fun _ h => by cases h⟩⟩

theorem between {op : Operator} (htier : op.tier ≠ tier) (hmem : op.tier ∈ tier :: tiers)
    (rule : ∀ r r', Phrase m r x → Phrase m' r' y → Phrase n (r ++ pending op :: r') t)
    (h : Collapses limit room tier tiers m s x) (h' : Collapses limit room tier tiers m' s' y) :
    Collapses limit room tier tiers n (s ++ pending op :: s') t := by
  obtain ⟨r, hr, hx, hw, hlen⟩ := h
  obtain ⟨r', hr', hy, hw', hlen'⟩ := h'
  refine ⟨r ++ pending op :: r', hr.append ((Passes.pending htier).append hr'), rule r r' hx hy,
    ?_, ?_⟩
  · exact within_append.2 ⟨hw, within_pending.2
      ⟨(List.mem_cons.1 hmem).resolve_left htier, hw'⟩⟩
  · simp only [List.length_append, List.length_cons]
    omega

end Collapses

/-- The tier that makes operands of the phrases of one nonterminal acts on the phrases above. -/
theorem Derives.collapses (h : Phrase n s t) (limit : ℕ) (base : Nonterminal)
    (hn : n ∈ base.above) (hw : Within (base.operatorTier :: tiers) s)
    (hroom : s.length ≤ room)
    (hbase : ∀ s t, Phrase base s t → Within (base.operatorTier :: tiers) s → s.length ≤ room →
      Passes limit room base.operatorTier s [t]) :
    Collapses limit room base.operatorTier tiers n s t := by
  -- a part is a phrase of the nonterminal itself, or one above
  have hpart {n m : Nonterminal} {s : List Expr} {t : Expr} (hn : n ∈ base.above)
      (hm : m ∈ n.parts) (h : Phrase m s t) (hw : Within (base.operatorTier :: tiers) s)
      (hroom : s.length ≤ room)
      (ih : m ∈ base.above → Within (base.operatorTier :: tiers) s → s.length ≤ room →
        Collapses limit room base.operatorTier tiers m s t) :
      Collapses limit room base.operatorTier tiers m s t := by
    rcases Nonterminal.parts_above hn m hm with rfl | hm
    · exact .of_passes (hbase s t h hw hroom) h
    · exact ih hm hw hroom
  induction h with
  | sum_prod hx ih =>
    exact (hpart hn (by decide) hx hw hroom ih).unit fun _ => .sum_prod
  | prod_factor hx ih =>
    exact (hpart hn (by decide) hx hw hroom ih).unit fun _ => .prod_factor
  | factor_pow hx ih =>
    exact (hpart hn (by decide) hx hw hroom ih).unit fun _ => .factor_pow
  | pow_post hx ih =>
    exact (hpart hn (by decide) hx hw hroom ih).unit fun _ => .pow_post
  | parg_post hx ih =>
    exact (hpart hn (by decide) hx hw hroom ih).unit fun _ => .parg_post
  | post_atom hx ih =>
    exact (hpart hn (by decide) hx hw hroom ih).unit fun _ => .post_atom
  | sum_add hop hx hy ihx ihy =>
    have htier := Nonterminal.operatorTier_above hn
    rw [within_append, within_pending] at hw
    rw [List.length_append, List.length_cons] at hroom
    refine .between ?_ hw.2.1 (fun _ _ => .sum_add hop)
      (hpart hn (by decide) hx hw.1 (by omega) ihx)
      (hpart hn (by decide) hy hw.2.2 (by omega) ihy)
    rcases hop with rfl | rfl <;> exact htier
  | prod_mul hop hx hy ihx ihy =>
    have htier := Nonterminal.operatorTier_above hn
    rw [within_append, within_pending] at hw
    rw [List.length_append, List.length_cons] at hroom
    refine .between ?_ hw.2.1 (fun _ _ => .prod_mul hop)
      (hpart hn (by decide) hx hw.1 (by omega) ihx)
      (hpart hn (by decide) hy hw.2.2 (by omega) ihy)
    rcases hop with rfl | rfl <;> exact htier
  | pow_pow hx hy ihx ihy =>
    have htier := Nonterminal.operatorTier_above hn
    rw [within_append, within_pending] at hw
    rw [List.length_append, List.length_cons] at hroom
    exact .between htier hw.2.1 (fun _ _ => .pow_pow)
      (hpart hn (by decide) hx hw.1 (by omega) ihx)
      (hpart hn (by decide) hy hw.2.2 (by omega) ihy)
  | factor_neg hx ih =>
    have htier := Nonterminal.operatorTier_above hn
    rw [within_pending] at hw
    rw [List.length_cons] at hroom
    exact .leading htier hw.1 (fun _ => .factor_neg)
      (hpart hn (by decide) hx hw.2 (by omega) ih)
  | parg_neg hx ih =>
    have htier := Nonterminal.operatorTier_above hn
    rw [within_pending] at hw
    rw [List.length_cons] at hroom
    exact .leading htier hw.1 (fun _ => .parg_neg)
      (hpart hn (by decide) hx hw.2 (by omega) ih)
  | post_factorial hx ih =>
    have htier := Nonterminal.operatorTier_above hn
    rw [within_append, within_pending] at hw
    rw [List.length_append, List.length_cons] at hroom
    exact .trailing htier hw.2.1 (fun _ => .post_factorial)
      (hpart hn (by decide) hx hw.1 (by omega) ih)
  | atom_operand | atom_apply | farg_operand | farg_apply | farg_neg =>
    cases base <;> simp [Nonterminal.above] at hn

/-! ## All tiers -/

theorem Derives.within (h : Phrase n s t) :
    Within [.application, .factorial, .exponent, .multiplication, .addition] s := by
  induction h with
  | atom_operand he | farg_operand he => exact within_operand he
  | sum_prod _ ih | prod_factor _ ih | factor_pow _ ih | pow_post _ ih | parg_post _ ih
  | post_atom _ ih => exact ih
  | factor_neg _ ih | parg_neg _ ih | farg_neg _ ih => exact within_pending.2 ⟨by decide, ih⟩
  | atom_apply hop _ ih | farg_apply hop _ ih =>
    refine within_pending.2 ⟨?_, ih⟩
    rw [Operator.tier, hop.tier_eq]
    decide
  | post_factorial _ ih => exact within_append.2 ⟨ih, within_pending.2 ⟨by decide, nofun⟩⟩
  | sum_add hop _ _ ihx ihy =>
    refine within_append.2 ⟨ihx, within_pending.2 ⟨?_, ihy⟩⟩
    rcases hop with rfl | rfl <;> decide
  | prod_mul hop _ _ ihx ihy =>
    refine within_append.2 ⟨ihx, within_pending.2 ⟨?_, ihy⟩⟩
    rcases hop with rfl | rfl <;> decide
  | pow_pow _ _ ihx ihy => exact within_append.2 ⟨ihx, within_pending.2 ⟨by decide, ihy⟩⟩

theorem applyTiers_of_passes (h : Phrase .sum s t) (hp : Passes limit room tier s s')
    (hrest : (applyTiers limit room tiers s').outcome = .ok [t]) :
    (applyTiers limit room (tier :: tiers) s).outcome = .ok [t] := by
  rw [applyTiers]
  split_ifs with hlen
  · rw [h.eq_singleton hlen]
    rfl
  · rw [Traced.bind_outcome, hp.outcome_eq]
    exact hrest

/-- The tiers reduce a sum to its tree. -/
theorem applyTiers_phrase (h : Phrase .sum s t) (hroom : s.length ≤ room) :
    (applyTiers limit room Tier.descending s).outcome = .ok [t] := by
  obtain ⟨s₁, hp₁, h₁, hw₁, hlen₁⟩ := h.collapses limit .atom (by decide) h.within hroom
    fun _ _ h _ hroom => h.atom_passes hroom
  have hroom₁ := Nat.le_trans hlen₁ hroom
  obtain ⟨s₂, hp₂, h₂, hw₂, hlen₂⟩ := h₁.collapses limit .post (by decide) hw₁ hroom₁
    fun _ _ h hw hroom => h.post_passes hw (by decide) hroom
  have hroom₂ := Nat.le_trans hlen₂ hroom₁
  obtain ⟨s₃, hp₃, h₃, hw₃, hlen₃⟩ := h₂.collapses limit .pow (by decide) hw₂ hroom₂
    fun _ _ h hw hroom => h.pow_passes hw (by decide) (by decide) hroom
  have hroom₃ := Nat.le_trans hlen₃ hroom₂
  obtain ⟨s₄, hp₄, h₄, hw₄, hlen₄⟩ := h₃.collapses limit .prod (by decide) hw₃ hroom₃
    fun _ _ h hw hroom => h.prod_passes hw hroom
  have hcontainer : Passes limit room .container s s := by
    refine .self fun op hop htier => ?_
    have := h.within op hop
    simp [htier] at this
  have hmodulo : Passes limit room .modulo s₂ s₂ := by
    refine .self fun op hop htier => ?_
    have := hw₂ op hop
    simp [htier] at this
  refine applyTiers_of_passes h hcontainer (applyTiers_of_passes h hp₁ ?_)
  refine applyTiers_of_passes h₁ hp₂ (applyTiers_of_passes h₂ hmodulo ?_)
  refine applyTiers_of_passes h₂ hp₃ (applyTiers_of_passes h₃ hp₄ ?_)
  exact applyTiers_of_passes h₄ (h₄.sum_passes hw₄ (Nat.le_trans hlen₄ hroom₃)) rfl

/-- A row of the grammar is assembled into its tree, if it is not longer than there are levels. -/
theorem assembleWithin_of_derives {row : List Expr} (h : Derives (.binary .difference) .sum row t)
    (hroom : row.length ≤ room) : (assembleWithin limit room row).outcome = .ok t := by
  obtain ⟨row', hmarks, h'⟩ := h.marked
  have hrow : markNegations false row = row' := by
    have hrow := hmarks []
    rwa [List.append_nil, markNegations, List.append_nil] at hrow
  have hlen : row'.length ≤ room := by
    rwa [← hrow, length_markNegations]
  rw [assembleWithin, hrow, Traced.bind_outcome, applyTiers_phrase h' hlen]
  change single [t] = _
  rw [single, pendingOperator?_of_isResolved h'.isResolved]

/-- Assembly accepts exactly the rows of the grammar, and gives their trees: with at least as many
levels of nesting as entries, a row of operands and of operators of the grammar is assembled into `t`
if and only if the grammar derives it with the tree `t`. -/
theorem assemble_eq_ok_iff {row : List Expr} {depth limit : ℕ} {t : Expr}
    (hrow : ∀ e ∈ row, IsWritten e) (hlimit : depth + row.length ≤ limit) :
    (assemble row depth limit).outcome = .ok t ↔ Derives (.binary .difference) .sum row t := by
  constructor
  · exact derives_of_assembleWithin hrow
  · intro h
    exact assembleWithin_of_derives h (by omega)

/-- The row `- 2 ! ^ - 3 * - abs - 2`, which begins with a negation of a power. -/
theorem derives_negated_power :
    let two := constant (.fraction (.finite false 2 1))
    let three := constant (.fraction (.finite false 3 1))
    let minus := pending (.binary .difference)
    let row := [minus, two, pending (.unary .factorial), pending (.binary .power), minus, three,
      pending (.binary .product), minus, pending (.unary .abs), minus, two]
    let t := binary .product
      (unary .negate (binary .power (unary .factorial two) (unary .negate three)))
      (unary .negate (unary .abs (unary .negate two)))
    (assemble row 3 14).outcome = .ok t ∧ Derives (.binary .difference) .sum row t := by
  intro two three minus row t
  have hrow : ∀ e ∈ row, IsWritten e := by
    have hin : ∀ op ∈ [Operator.unary .factorial, .unary .abs, .binary .difference,
        .binary .product, .binary .power], IsWritten (pending op) := by
      intro op hop
      refine .inr ⟨op, ?_, rfl⟩
      simp only [List.mem_cons, List.not_mem_nil, or_false] at hop
      rcases hop with rfl | rfl | rfl | rfl | rfl <;> simp [InGrammar, IsFunction]
    simp only [row, minus, List.forall_mem_cons]
    exact ⟨hin _ (by decide), .inl rfl, hin _ (by decide), hin _ (by decide), hin _ (by decide),
      .inl rfl, hin _ (by decide), hin _ (by decide), hin _ (by decide), hin _ (by decide),
      .inl rfl, by simp⟩
  have h : (assemble row 3 14).outcome = .ok t := by cbv
  exact ⟨h, (assemble_eq_ok_iff hrow (by decide)).1 h⟩

end Formula.Assembly
