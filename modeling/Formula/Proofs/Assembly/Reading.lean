import Formula.Parser
import Formula.Proofs.Assembly.Covers

/-!
# Readings of trees

The reading of a tree lists its operands and operators from left to right, each operator where it is
written. Assembly finds a tree for a row whose reading is the row itself, after its negations are
marked (`assemble_reading`): nothing is lost, doubled or moved, and nothing is left pending, so that
all expressions that are read from texts are resolved.
-/

namespace Formula.Assembly

open Formula.Expr

/-! ## Trees of entries -/

/-- How a tree is put together from the entries of a row. -/
inductive Tree where
  | leaf (e : Expr)
  | unary (op : UnaryOp) (operand : Tree)
  | binary (op : BinaryOp) (left right : Tree)

namespace Tree

/-- The expression that is put together. -/
def expr : Tree → Expr
  | leaf e => e
  | unary op operand => .unary op operand.expr
  | binary op left right => .binary op left.expr right.expr

/-- The entries that are used as operands, from left to right. -/
def leaves : Tree → List Expr
  | leaf e => [e]
  | unary _ operand => operand.leaves
  | binary _ left right => left.leaves ++ right.leaves

/-- The operands and the pending operators from left to right, with each operator before, between or
after its operands as it is written. -/
def reading : Tree → List Expr
  | leaf e => [e]
  | unary op operand =>
    match op.position with
    | .afterOperand => operand.reading ++ [pending (.unary op)]
    | _ => pending (.unary op) :: operand.reading
  | binary op left right =>
    match op.position with
    | .beforeOperands => pending (.binary op) :: (left.reading ++ right.reading)
    | _ => left.reading ++ pending (.binary op) :: right.reading

/-- The row is the reading of a tree for the expression, with resolved entries for its operands. -/
def Reads (row : List Expr) (e : Expr) : Prop :=
  ∃ t : Tree, t.expr = e ∧ t.reading = row ∧ ∀ l ∈ t.leaves, l.isResolved = true

theorem reads_leaf {e : Expr} (he : e.isResolved = true) : Reads [e] e :=
  ⟨.leaf e, rfl, rfl, by simpa [leaves] using he⟩

theorem Reads.unary_after {op : UnaryOp} {s : List Expr} {x : Expr}
    (hpos : op.position = .afterOperand) (hx : Reads s x) :
    Reads (s ++ [pending (.unary op)]) (.unary op x) := by
  obtain ⟨t, rfl, rfl, ht⟩ := hx
  refine ⟨.unary op t, rfl, ?_, ht⟩
  rw [reading, hpos]

theorem Reads.unary_before {op : UnaryOp} {s : List Expr} {x : Expr}
    (hpos : op.position = .beforeOperands) (hx : Reads s x) :
    Reads (pending (.unary op) :: s) (.unary op x) := by
  obtain ⟨t, rfl, rfl, ht⟩ := hx
  refine ⟨.unary op t, rfl, ?_, ht⟩
  rw [reading, hpos]

theorem Reads.binary_before {op : BinaryOp} {s s' : List Expr} {x y : Expr}
    (hpos : op.position = .beforeOperands) (hx : Reads s x) (hy : Reads s' y) :
    Reads (pending (.binary op) :: (s ++ s')) (.binary op x y) := by
  obtain ⟨t, rfl, rfl, ht⟩ := hx
  obtain ⟨u, rfl, rfl, hu⟩ := hy
  refine ⟨.binary op t u, rfl, ?_, List.forall_mem_append.2 ⟨ht, hu⟩⟩
  rw [reading, hpos]

theorem Reads.binary_between {op : BinaryOp} {s s' : List Expr} {x y : Expr}
    (hpos : op.position = .betweenOperands) (hx : Reads s x) (hy : Reads s' y) :
    Reads (s ++ pending (.binary op) :: s') (.binary op x y) := by
  obtain ⟨t, rfl, rfl, ht⟩ := hx
  obtain ⟨u, rfl, rfl, hu⟩ := hy
  refine ⟨.binary op t u, rfl, ?_, List.forall_mem_append.2 ⟨ht, hu⟩⟩
  rw [reading, hpos]

theorem Reads.applied {op : Operator} {s : List Expr} {e : Expr}
    (hpos : op.position = .beforeOperands) (h : Applied Reads op s e) :
    Reads (pending op :: s) e := by
  cases h with
  | unary hx => exact hx.unary_before hpos
  | binary hx hy => exact hx.binary_before hpos hy

/-- All tiers keep readings. -/
theorem tierRules_reads (tier : Tier) (P : Operator → Prop) :
    TierRules tier P Reads Reads Reads where
  passed _ _ h := h
  argument _ _ h := h
  nested _ _ _ _ hpos h := Reads.applied hpos h
  leading _ _ _ _ _ hpos h := Reads.applied hpos h
  trailing _ _ _ _ _ hpos hx := hx.unary_after hpos
  between _ _ _ _ _ _ _ hpos hx hy := hx.binary_between hpos hy

theorem tierChain_reads (tiers : List Tier) (P : Operator → Prop) :
    TierChain Reads tiers P Reads := by
  induction tiers generalizing P with
  | nil => exact .nil fun _ _ h => h
  | cons tier tiers ih => exact .cons (tierRules_reads tier P) (fun _ _ h => h) (fun _ h _ => h) (ih P)

end Tree

/-! ## Rows -/

/-- An entry of a row is an operand or a pending operator. -/
def IsEntry (e : Expr) : Prop :=
  e.isResolved = true ∨ ∃ op, e = pending op

theorem isEntry_markNegations {row : List Expr} (endsOperand : Bool)
    (h : ∀ e ∈ row, IsEntry e) : ∀ e ∈ markNegations endsOperand row, IsEntry e := by
  induction row generalizing endsOperand with
  | nil => simp [markNegations]
  | cons e row ih =>
    rw [List.forall_mem_cons] at h
    rw [markNegations]
    split
    · exact List.forall_mem_cons.2 ⟨h.1, ih _ h.2⟩
    · split_ifs
      · exact List.forall_mem_cons.2 ⟨.inr ⟨_, rfl⟩, ih _ h.2⟩
      · exact List.forall_mem_cons.2 ⟨h.1, ih _ h.2⟩

theorem covers_self {row : List Expr} (h : ∀ e ∈ row, IsEntry e) :
    Covers (fun _ => True) Tree.Reads row row := by
  induction row with
  | nil => exact .nil
  | cons e row ih =>
    rw [List.forall_mem_cons] at h
    obtain ⟨he | ⟨op, rfl⟩, hrow⟩ := h
    · exact .operand he (Tree.reads_leaf he) (ih hrow)
    · exact .pending trivial (ih hrow)

theorem reads_of_assembleWithin {limit room : ℕ} {row : List Expr} {t : Expr}
    (hrow : ∀ e ∈ row, IsEntry e) (h : (assembleWithin limit room row).outcome = .ok t) :
    t.isResolved = true ∧ Tree.Reads (markNegations false row) t := by
  obtain ⟨row', hrow', ht⟩ := Traced.bind_eq_ok h
  exact (Tree.tierChain_reads _ _).assembled (covers_self (isEntry_markNegations false hrow)) hrow' ht

end Formula.Assembly

namespace Formula.Parser

open Assembly

/-! ## Texts -/

theorem isEntry_entry {p : Parser} {readGroup : List Char → Traced Expr}
    (hgroup : ∀ text e, (readGroup text).outcome = .ok e → e.isResolved = true) {token : Token}
    {e : Expr} (h : (p.entry readGroup token).outcome = .ok e) : IsEntry e := by
  cases token with
  | operator op =>
    cases h
    exact .inr ⟨op, rfl⟩
  | variableName =>
    cases h
    exact .inl rfl
  | literal text =>
    rw [entry] at h
    split at h
    · cases h
      exact .inl rfl
    · cases h
  | group text => exact .inl (hgroup text e h)

theorem isEntry_entries {p : Parser} {readGroup : List Char → Traced Expr}
    (hgroup : ∀ text e, (readGroup text).outcome = .ok e → e.isResolved = true)
    {tokens : List Token} {row : List Expr} (h : (p.entries readGroup tokens).outcome = .ok row) :
    ∀ e ∈ row, IsEntry e := by
  induction tokens generalizing row with
  | nil =>
    cases h
    simp
  | cons token tokens ih =>
    obtain ⟨e, he, h⟩ := Traced.bind_eq_ok h
    obtain ⟨row', hrow', h⟩ := Traced.bind_eq_ok h
    cases h
    exact List.forall_mem_cons.2 ⟨isEntry_entry hgroup he, ih hrow'⟩

/-- What is read at any level is resolved, since groups are. -/
theorem isResolved_readLevel {p : Parser} (room : ℕ) (text : List Char) (t : Expr)
    (h : (p.readLevel room text).outcome = .ok t) : t.isResolved = true := by
  induction room generalizing text t with
  | zero => cases h
  | succ room ih =>
    rw [readLevel] at h
    split at h
    · cases h
    · cases h
    · obtain ⟨row, hrow, h⟩ := Traced.bind_eq_ok h
      exact (reads_of_assembleWithin (isEntry_entries ih hrow) h).1

end Formula.Parser

namespace Formula.Assembly

open Formula.Expr

/-- Assembly keeps all entries in their order: the tree of a row of operands and pending operators has
the row, with its negations marked, for its reading. So no operand is missing in it, and in what is
read from any text. -/
theorem assemble_reading :
    (∀ (row : List Expr) (depth limit : ℕ) (t : Expr), (∀ e ∈ row, IsEntry e) →
      (assemble row depth limit).outcome = .ok t →
      (∃ tree : Tree, tree.expr = t ∧ tree.reading = markNegations false row ∧
        ∀ l ∈ tree.leaves, l.isResolved = true) ∧ t.isResolved = true) ∧
    ∀ (p : Parser) (text : List Char) (t : Expr), p.parse text = .ok t → t.isResolved = true := by
  refine ⟨fun row depth limit t hrow h => ?_, fun p text t h => ?_⟩
  · obtain ⟨hres, hreads⟩ := reads_of_assembleWithin hrow h
    exact ⟨hreads, hres⟩
  · exact Parser.isResolved_readLevel _ _ t h

/-- The row `- mod 2 ! 3 ^ - abs 3`, with operators of all three positions. -/
theorem assemble_reading_of_mixed_positions :
    let two := constant (.fraction (.finite false 2 1))
    let three := constant (.fraction (.finite false 3 1))
    let minus := pending (.binary .difference)
    let row := [minus, pending (.binary .modulo), two, pending (.unary .factorial), three,
      pending (.binary .power), minus, pending (.unary .abs), three]
    let t := unary .negate (binary .power (binary .modulo (unary .factorial two) three)
      (unary .negate (unary .abs three)))
    (assemble row 0 9).outcome = .ok t ∧
      (∃ tree : Tree, tree.expr = t ∧ tree.reading = markNegations false row ∧
        ∀ l ∈ tree.leaves, l.isResolved = true) ∧ t.isResolved = true := by
  intro two three minus row t
  have hrow : ∀ e ∈ row, IsEntry e := by
    simp only [row, List.forall_mem_cons]
    exact ⟨.inr ⟨_, rfl⟩, .inr ⟨_, rfl⟩, .inl rfl, .inr ⟨_, rfl⟩, .inl rfl, .inr ⟨_, rfl⟩,
      .inr ⟨_, rfl⟩, .inr ⟨_, rfl⟩, .inl rfl, by simp⟩
  have h : (assemble row 0 9).outcome = .ok t := by cbv
  exact ⟨h, assemble_reading.1 row 0 9 t hrow h⟩

end Formula.Assembly
