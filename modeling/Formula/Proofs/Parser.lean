import Formula.Proofs.Assembly.TierOrder
import Formula.Proofs.Token.Arguments

/-!
# Rows of texts

One level of a text is read as a `row` of operands and pending operators. `Cuts s r` says that the text
`s` contributes the entries `r`, whatever stands behind it, and `Yields s r` says so for texts that may
end in a literal. A level whose row is the reading of a tree in the order of the tiers is read as this
tree (`outcome_readLevel`).
-/

namespace Formula

namespace Parser

open Token Assembly Formula.Expr

variable {p : Parser} {read : List Char → Traced Expr} {s s' rest : List Char} {r r' : List Expr}
  {token : Token} {e : Expr}

/-! ## Rows -/

/-- The row of operands and pending operators that a text is cut into. -/
def row (p : Parser) (read : List Char → Traced Expr) (text : List Char) :
    Except ParseError (List Expr) :=
  (ofText p.variableName text).bind fun tokens => (p.entries read tokens).outcome

theorem row_nil : p.row read [] = .ok [] := by
  rw [row, ofText, dif_pos rfl]
  rfl

theorem outcome_entries_cons (tokens : List Token) (he : (p.entry read token).outcome = .ok e) :
    (p.entries read (token :: tokens)).outcome = (p.entries read tokens).outcome.map (e :: ·) := by
  rw [entries, Traced.bind_outcome, he]
  show (Traced.bind _ _).outcome = _
  rw [Traced.bind_outcome]
  cases (p.entries read tokens).outcome <;> rfl

theorem row_of_next (hne : s ≠ []) (h : next p.variableName s = .ok (some token, rest))
    (he : (p.entry read token).outcome = .ok e) :
    p.row read s = (p.row read rest).map (e :: ·) := by
  rw [row, ofText_of_next hne h, row]
  cases ofText p.variableName rest with
  | error _ => rfl
  | ok tokens => exact outcome_entries_cons tokens he

theorem row_of_blank (hne : s ≠ []) (h : next p.variableName s = .ok (none, rest)) :
    p.row read s = p.row read rest := by
  rw [row, ofText_of_next hne h, row]
  cases ofText p.variableName rest <;> rfl

theorem length_entries {tokens : List Token} (h : (p.entries read tokens).outcome = .ok r) :
    r.length = tokens.length := by
  induction tokens generalizing r with
  | nil =>
    cases h
    rfl
  | cons token tokens ih =>
    obtain ⟨e, -, h⟩ := Traced.bind_eq_ok h
    obtain ⟨row, hrow, h⟩ := Traced.bind_eq_ok h
    cases h
    rw [List.length_cons, List.length_cons, ih hrow]

/-- A row is not longer than its text. -/
theorem length_le_of_row (h : p.row read s = .ok r) : r.length ≤ s.length := by
  rw [row] at h
  cases htokens : ofText p.variableName s with
  | error _ =>
    rw [htokens] at h
    cases h
  | ok tokens =>
    rw [htokens] at h
    rw [length_entries h]
    exact length_le_of_ofText htokens

/-! ## Pieces of a text -/

/-- The text gives the entries, whatever stands behind it. -/
def Cuts (p : Parser) (read : List Char → Traced Expr) (s : List Char) (r : List Expr) : Prop :=
  ∀ rest, p.row read (s ++ rest) = (p.row read rest).map (r ++ ·)

/-- The text gives the entries if what stands behind it ends a literal. -/
def Yields (p : Parser) (read : List Char → Traced Expr) (s : List Char) (r : List Expr) : Prop :=
  ∀ rest, EndsLiteral rest → p.row read (s ++ rest) = (p.row read rest).map (r ++ ·)

theorem map_append_map_append (r r' : List Expr) (x : Except ParseError (List Expr)) :
    (x.map (r' ++ ·)).map (r ++ ·) = x.map (r ++ r' ++ ·) := by
  cases x with
  | error _ => rfl
  | ok row => exact congrArg Except.ok (List.append_assoc r r' row).symm

theorem Cuts.yields (h : p.Cuts read s r) : p.Yields read s r :=
  fun rest _ => h rest

theorem Cuts.append (h : p.Cuts read s r) (h' : p.Cuts read s' r') :
    p.Cuts read (s ++ s') (r ++ r') := by
  intro rest
  rw [List.append_assoc, h, h', map_append_map_append]

theorem Cuts.append_yields (h : p.Cuts read s r) (h' : p.Yields read s' r') :
    p.Yields read (s ++ s') (r ++ r') := by
  intro rest hrest
  rw [List.append_assoc, h, h' rest hrest, map_append_map_append]

theorem Yields.append {c : Char} (h : p.Yields read s r) (hc : c ∈ [' ', '!', '^'])
    (h' : p.Yields read (c :: s') r') : p.Yields read (s ++ c :: s') (r ++ r') := by
  intro rest hrest
  rw [List.append_assoc, List.cons_append, h _ (endsLiteral_cons hc), ← List.cons_append,
    h' rest hrest, map_append_map_append]

theorem Yields.row_eq (h : p.Yields read s r) : p.row read s = .ok r := by
  have hs := h [] endsLiteral_nil
  rw [List.append_nil, row_nil] at hs
  rw [hs]
  exact congrArg Except.ok (List.append_nil r)

theorem cuts_blank (hname : IsApart p.variableName) : p.Cuts read [' '] [] := by
  intro rest
  rw [List.singleton_append, row_of_blank (List.cons_ne_nil _ _) (next_blank hname rest)]
  cases p.row read rest <;> rfl

theorem cuts_keyword (hname : IsApart p.variableName) {op : Operator}
    (hop : op ∈ Operator.spelled) : p.Cuts read op.keyword.toList [pending op] :=
  fun rest => row_of_next (List.append_ne_nil_of_left_ne_nil (keyword_ne_nil hop) rest)
    (next_keyword hname hop rest) rfl

theorem outcome_entries_groups {args : List (List Char)} {es : List Expr}
    (hes : List.Forall₂ (fun a e => (read a).outcome = .ok e) args es) (tokens : List Token) :
    (p.entries read (args.map .group ++ tokens)).outcome =
      (p.entries read tokens).outcome.map (es ++ ·) := by
  induction hes with
  | nil =>
    rw [List.map_nil, List.nil_append]
    cases (p.entries read tokens).outcome <;> rfl
  | @cons a e args es he _ ih =>
    have hgroup : (p.entry read (.group a)).outcome = .ok e := he
    rw [List.map_cons, List.cons_append, outcome_entries_cons _ hgroup, ih]
    exact map_append_map_append [e] es _

/-- A list of arguments gives the expressions of its arguments. -/
theorem cuts_groups {args : List (List Char)} {es : List Expr} (hname : IsApart p.variableName)
    (hne : args ≠ []) (hargs : ∀ a ∈ args, IsUnbroken a)
    (hes : List.Forall₂ (fun a e => (read a).outcome = .ok e) args es) :
    p.Cuts read ('(' :: ([','].intercalate args ++ [')'])) es := by
  intro rest
  rw [List.cons_append, List.append_assoc, List.singleton_append, row,
    ofText_groups hname.ne_cons_of_mem (by decide) hne hargs, row]
  cases ofText p.variableName rest with
  | error _ => rfl
  | ok tokens => exact outcome_entries_groups hes tokens

theorem cuts_group (hname : IsApart p.variableName) (hs : Balanced s)
    (he : (read s).outcome = .ok e) : p.Cuts read ('(' :: (s ++ [')'])) [e] := by
  have hargs : ∀ a ∈ [s], IsUnbroken a := List.forall_mem_singleton.2 (isUnbroken_of_balanced hs)
  have h := cuts_groups hname (List.cons_ne_nil _ _) hargs (.cons he .nil)
  rwa [List.intercalate_singleton] at h

theorem cuts_pair {e' : Expr} (hname : IsApart p.variableName) (hs : Balanced s)
    (hs' : Balanced s') (he : (read s).outcome = .ok e) (he' : (read s').outcome = .ok e') :
    p.Cuts read ('(' :: (s ++ ',' :: (s' ++ [')']))) [e, e'] := by
  have hargs : ∀ a ∈ [s, s'], IsUnbroken a :=
    List.forall_mem_cons.2 ⟨isUnbroken_of_balanced hs,
      List.forall_mem_singleton.2 (isUnbroken_of_balanced hs')⟩
  have h := cuts_groups hname (List.cons_ne_nil _ _) hargs (.cons he (.cons he' .nil))
  rwa [List.intercalate_cons_cons, List.intercalate_singleton, List.append_assoc, List.append_assoc,
    List.singleton_append] at h

theorem yields_literal (hname : IsApart p.variableName) (hexact : p.exact = true) (n : ℕ) {d : ℕ}
    (hd : d ≠ 0) : p.Yields read (Fraction.partsText false n d)
      [constant (.fraction (.finite false n d))] := by
  intro rest hrest
  obtain ⟨c, s, hcs, -⟩ := Fraction.exists_partsText_eq_cons n d
  refine row_of_next ?_ (next_literal hname n d hrest) ?_
  · rw [hcs]
    exact List.cons_ne_nil _ _
  · rw [entry, readLiteral, if_pos hexact, Fraction.ofText, Fraction.read?_partsText ⟨hd, fun _ => rfl⟩]
    rfl

/-! ## Levels -/

/-- A level whose row is the reading of a tree in order is read as the expression of the tree. -/
theorem outcome_readLevel {room : ℕ} {t : Tree} (ht : t.InOrder)
    (hrow : p.row (p.readLevel room) s = .ok (t.reading.map unmark)) (hroom : s.length ≤ room + 1) :
    (p.readLevel (room + 1) s).outcome = .ok t.expr := by
  have hlength := length_le_of_row hrow
  rw [List.length_map] at hlength
  rw [row] at hrow
  rw [readLevel]
  split
  · next htokens =>
    rw [htokens] at hrow
    cases hrow
  · next htokens =>
    rw [htokens] at hrow
    have hpos := t.length_reading_pos
    have hnil : [] = t.reading.map unmark := Except.ok.inj hrow
    rw [← List.length_map (f := unmark), ← hnil] at hpos
    cases hpos
  · next tokens _ htokens =>
    rw [htokens] at hrow
    rw [Traced.bind_outcome]
    have hentries : (p.entries (p.readLevel room) tokens).outcome = .ok (t.reading.map unmark) := hrow
    rw [hentries]
    exact Tree.assembleWithin_reading ht (Nat.le_trans hlength hroom)

end Parser

end Formula
