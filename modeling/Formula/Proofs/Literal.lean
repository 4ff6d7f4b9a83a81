import Formula.Proofs.Fraction.Numeral
import Formula.Proofs.Token
import Mathlib.Data.List.TakeWhile

/-!
# Literals

The literals that are cut off a text have four forms, such as `12`, `1.5` or `1.`, `.5`, and `3/4`, and of
all literals that the text starts with the longest is taken (`literal?_eq_some_iff`). The reader of
fractions and the reader of 64-bit numbers go about them in different ways, but each of them accepts all
four forms (`IsLiteral.ofText_eq_ok`, `IsLiteral.readDouble?_eq_some`), so no literal of a text is ever
invalid.
-/

namespace Formula

/-- The forms of literals. -/
inductive IsLiteral : List Char → Prop
  | whole {n : List Char} (hn : IsDigits n) (hne : n ≠ []) : IsLiteral n
  | decimal {n d : List Char} (hn : IsDigits n) (hne : n ≠ []) (hd : IsDigits d) :
      IsLiteral (n ++ '.' :: d)
  | point {d : List Char} (hd : IsDigits d) (hne : d ≠ []) : IsLiteral ('.' :: d)
  | quotient {n d : List Char} (hn : IsDigits n) (hne : n ≠ []) (hd : IsDigits d) (hne' : d ≠ []) :
      IsLiteral (n ++ '/' :: d)

variable {s n d rest : List Char} {c : Char}

/-! ## Literals of a text -/

namespace Token

theorem startsWithDigit_scanLiteral (seen : Bool) (h : startsWithDigit s = true) :
    startsWithDigit (scanLiteral seen s).1 = true := by
  cases s with
  | nil => cases h
  | cons c s =>
    have hc : c.isDigit = true := h
    rw [scanLiteral, if_pos hc]
    exact hc

/-- Behind the point or the slash only digits belong to a literal. -/
theorem isDigits_scanLiteral (s : List Char) : IsDigits (scanLiteral true s).1 := by
  induction s with
  | nil => exact isDigits_nil
  | cons c s ih =>
    rw [scanLiteral]
    split
    · next hc => exact .cons hc ih
    · exact isDigits_nil

/-- What is cut off a text is a run of digits, or two of them with a point or a slash between. -/
theorem scanLiteral_cases (s : List Char) : ∃ n, IsDigits n ∧ ((scanLiteral false s).1 = n ∨
    ∃ d, IsDigits d ∧ ((scanLiteral false s).1 = n ++ '.' :: d ∨
      (scanLiteral false s).1 = n ++ '/' :: d ∧ startsWithDigit d = true)) := by
  induction s with
  | nil => exact ⟨[], isDigits_nil, .inl rfl⟩
  | cons c s ih =>
    rw [scanLiteral]
    split
    · next hc =>
      obtain ⟨n, hn, htext⟩ := ih
      refine ⟨c :: n, .cons hc hn, ?_⟩
      rcases htext with htext | ⟨d, hd, htext | ⟨htext, hdigit⟩⟩
      · exact .inl (congrArg (c :: ·) htext)
      · exact .inr ⟨d, hd, .inl (congrArg (c :: ·) htext)⟩
      · exact .inr ⟨d, hd, .inr ⟨congrArg (c :: ·) htext, hdigit⟩⟩
    · refine ⟨[], isDigits_nil, ?_⟩
      split
      · next hmark =>
        refine .inr ⟨_, isDigits_scanLiteral s, ?_⟩
        obtain rfl | ⟨rfl, hdigit⟩ : c = '.' ∨ c = '/' ∧ startsWithDigit s = true := by
          simpa using hmark
        · exact .inl rfl
        · exact .inr ⟨rfl, startsWithDigit_scanLiteral true hdigit⟩
      · exact .inl rfl

theorem ne_nil_of_startsWithDigit (h : startsWithDigit s = true) : s ≠ [] := by
  rintro rfl
  cases h

theorem isLiteral_of_literal? (h : literal? s = some (n, rest)) : IsLiteral n := by
  have hdigit (s : List Char) (hs : startsWithDigit s = true) :
      IsLiteral (scanLiteral false s).1 := by
    have hstart := startsWithDigit_scanLiteral false hs
    obtain ⟨n, hn, htext⟩ := scanLiteral_cases s
    rcases htext with htext | ⟨d, hd, htext | ⟨htext, hdigit⟩⟩ <;> rw [htext] at hstart ⊢
    · exact .whole hn (ne_nil_of_startsWithDigit hstart)
    · refine .decimal hn ?_ hd
      rintro rfl
      exact Bool.false_ne_true hstart
    · refine .quotient hn ?_ hd (ne_nil_of_startsWithDigit hdigit)
      rintro rfl
      exact Bool.false_ne_true hstart
  unfold literal? at h
  split at h
  · next s =>
    obtain ⟨hs, heq⟩ := Option.ite_none_right_eq_some.1 h
    obtain rfl : '.' :: (scanLiteral true s).1 = n := congrArg Prod.fst (Option.some.inj heq)
    exact .point (isDigits_scanLiteral s)
      (ne_nil_of_startsWithDigit (startsWithDigit_scanLiteral true hs))
  · obtain ⟨hs, heq⟩ := Option.ite_none_right_eq_some.1 h
    have hn := hdigit _ hs
    rwa [Option.some.inj heq] at hn

/-- Nothing is lost when a literal is cut off. -/
theorem scanLiteral_append (seen : Bool) (s : List Char) :
    (scanLiteral seen s).1 ++ (scanLiteral seen s).2 = s := by
  induction s generalizing seen with
  | nil => rfl
  | cons c s ih =>
    rw [scanLiteral]
    split
    · exact congrArg (c :: ·) (ih seen)
    · split
      · exact congrArg (c :: ·) (ih true)
      · rfl

theorem scanLiteral_point (rest : List Char) :
    scanLiteral false ('.' :: rest) = (scanLiteral true rest).map ('.' :: ·) id := rfl

theorem scanLiteral_slash (hrest : startsWithDigit rest = true) :
    scanLiteral false ('/' :: rest) = (scanLiteral true rest).map ('/' :: ·) id := by
  rw [scanLiteral, if_neg (by decide), if_pos (by simpa using hrest)]
  rfl

theorem startsWithDigit_append (hs : IsDigits s) (hne : s ≠ []) (rest : List Char) :
    startsWithDigit (s ++ rest) = true := by
  obtain ⟨c, s, rfl⟩ := List.exists_cons_of_ne_nil hne
  exact hs c List.mem_cons_self

/-- A literal at the start of a text is cut off whole, if not with more behind it. -/
theorem isPrefix_scanLiteral (h : IsLiteral s) (rest : List Char) :
    s <+: (scanLiteral false (s ++ rest)).1 := by
  have hbehind {d : List Char} (hd : IsDigits d) : d <+: (scanLiteral true (d ++ rest)).1 := by
    rw [scanLiteral_digits true hd]
    exact List.prefix_append _ _
  cases h with
  | whole hn hne =>
    rw [scanLiteral_digits false hn]
    exact List.prefix_append _ _
  | decimal hn hne hd =>
    rw [List.append_assoc, scanLiteral_digits false hn, List.cons_append, scanLiteral_point]
    simpa using hbehind hd
  | point hd hne =>
    rw [List.cons_append, scanLiteral_point]
    simpa using hbehind hd
  | quotient hn hne hd hne' =>
    rw [List.append_assoc, scanLiteral_digits false hn, List.cons_append,
      scanLiteral_slash (startsWithDigit_append hd hne' rest)]
    simpa using hbehind hd

theorem literal?_append (h : IsLiteral s) (rest : List Char) :
    literal? (s ++ rest) = some (scanLiteral false (s ++ rest)) := by
  have hdigit {n : List Char} (hn : IsDigits n) (hne : n ≠ []) (rest : List Char) :
      literal? (n ++ rest) = some (scanLiteral false (n ++ rest)) := by
    have hstart := startsWithDigit_append hn hne rest
    unfold literal?
    split
    · next heq =>
      rw [heq] at hstart
      cases hstart
    · exact if_pos hstart
  cases h with
  | whole hn hne => exact hdigit hn hne rest
  | decimal hn hne hd =>
    rw [List.append_assoc]
    exact hdigit hn hne _
  | point hd hne => exact if_pos (startsWithDigit_append hd hne rest)
  | quotient hn hne hd hne' =>
    rw [List.append_assoc]
    exact hdigit hn hne _

theorem literal?_eq_scanLiteral {text : List Char} (h : literal? s = some (text, rest)) :
    scanLiteral false s = (text, rest) := by
  unfold literal? at h
  split at h
  · exact Option.some.inj (Option.ite_none_right_eq_some.1 h).2
  · exact Option.some.inj (Option.ite_none_right_eq_some.1 h).2

/-- The literal cut off a text is the longest one that the text starts with. -/
theorem literal?_eq_some_iff {text : List Char} :
    literal? s = some (text, rest) ↔ s = text ++ rest ∧ IsLiteral text ∧
      ∀ t, t <+: s → IsLiteral t → t.length ≤ text.length := by
  have hlongest {t : List Char} (hinit : t <+: s) (ht : IsLiteral t) :
      literal? s = some (scanLiteral false s) ∧ t <+: (scanLiteral false s).1 := by
    obtain ⟨rest, rfl⟩ := hinit
    exact ⟨literal?_append ht rest, isPrefix_scanLiteral ht rest⟩
  constructor
  · intro h
    have hscan := literal?_eq_scanLiteral h
    have hsplit := scanLiteral_append false s
    rw [hscan] at hsplit
    refine ⟨hsplit.symm, isLiteral_of_literal? h, fun t hinit ht => ?_⟩
    have hle := (hlongest hinit ht).2.length_le
    rwa [hscan] at hle
  · rintro ⟨hsplit, htext, hmax⟩
    obtain ⟨hsome, hle⟩ := hlongest ⟨rest, hsplit.symm⟩ htext
    have hcut := scanLiteral_append false s
    have hge := hmax _ ⟨_, hcut⟩ (isLiteral_of_literal? hsome)
    obtain rfl := hle.eq_of_length_le hge
    rw [hsome, ← List.append_cancel_left (hcut.trans hsplit)]

theorem literal?_eq_none_iff : literal? s = none ↔ ∀ t, t <+: s → ¬ IsLiteral t := by
  constructor
  · rintro hnone t ⟨rest, rfl⟩ ht
    rw [literal?_append ht rest] at hnone
    cases hnone
  · intro h
    by_contra hsome
    obtain ⟨⟨text, rest⟩, hsome⟩ := Option.ne_none_iff_exists'.1 hsome
    obtain ⟨rfl, htext, -⟩ := literal?_eq_some_iff.1 hsome
    exact h text (List.prefix_append _ _) htext

theorem literal?_of_next {name : Option (List Char)}
    (h : next name s = .ok (some (.literal n), rest)) : literal? s = some (n, rest) := by
  rcases next_ok_cases h with ⟨h, -⟩ | ⟨_, _, h, -⟩ | ⟨_, _, _, h, -⟩ | ⟨_, h, hs⟩ | ⟨_, h, -⟩ <;>
    cases h
  exact hs

end Token

/-! ## Readers -/

namespace IsLiteral

theorem mem_cases (h : IsLiteral s) : ∀ c ∈ s, c.isDigit = true ∨ c = '.' ∨ c = '/' := by
  have hdigits {s : List Char} (hs : IsDigits s) : ∀ c ∈ s, c.isDigit = true ∨ c = '.' ∨ c = '/' :=
    fun c hc => .inl (hs c hc)
  cases h with
  | whole hn hne => exact hdigits hn
  | decimal hn hne hd =>
    exact List.forall_mem_append.2
      ⟨hdigits hn, List.forall_mem_cons.2 ⟨.inr (.inl rfl), hdigits hd⟩⟩
  | point hd hne => exact List.forall_mem_cons.2 ⟨.inr (.inl rfl), hdigits hd⟩
  | quotient hn hne hd hne' =>
    exact List.forall_mem_append.2
      ⟨hdigits hn, List.forall_mem_cons.2 ⟨.inr (.inr rfl), hdigits hd⟩⟩

theorem not_mem (h : IsLiteral s) (hc : c ∈ ['-', '+', 'e', 'E']) : c ∉ s := by
  intro hmem
  have hcases := h.mem_cases c hmem
  simp only [List.mem_cons, List.not_mem_nil, or_false] at hc
  rcases hc with rfl | rfl | rfl | rfl <;> simp at hcases

/-! ### Fractions -/

theorem exists_magnitude (h : IsLiteral s) : ∃ v, Magnitude s v := by
  cases h with
  | whole hn hne => exact ⟨_, .integer hn hne⟩
  | decimal hn hne hd => exact ⟨_, .decimal hn hd (.inl hne)⟩
  | point hd hne => exact ⟨_, .decimal isDigits_nil hd (.inr hne)⟩
  | quotient hn hne hd hne' => exact ⟨_, .quotient hn hne hd hne'⟩

/-- Every literal stands for a fraction. -/
theorem ofText_eq_ok (h : IsLiteral s) : ∃ f, Fraction.ofText s = .ok f := by
  obtain ⟨v, hv⟩ := h.exists_magnitude
  obtain ⟨f, hf, -⟩ := Fraction.read?_eq_some_of_numeral (.unsigned hv)
  exact ⟨f, Fraction.ofText_eq_ok_iff.2 hf⟩

/-! ### 64-bit numbers -/

theorem ofMantissa?_eq_some (h : IsLiteral s) (hslash : '/' ∉ s) :
    ∃ r, Scientific.ofMantissa? s = some r := by
  have hmantissa {n : List Char} (hn : IsDigits n) (r : List Char) :
      (n ++ r).takeWhile Char.isDigit = n ++ r.takeWhile Char.isDigit ∧
        (n ++ r).dropWhile Char.isDigit = r.dropWhile Char.isDigit :=
    ⟨List.takeWhile_append_of_pos hn, List.dropWhile_append_of_pos hn⟩
  cases h with
  | whole hn hne =>
    obtain ⟨htake, hdrop⟩ := hmantissa hn []
    rw [List.append_nil] at htake hdrop
    refine ⟨⟨s, 0⟩, ?_⟩
    simp [Scientific.ofMantissa?, htake, hdrop, hne]
  | @decimal n d hn hne hd =>
    obtain ⟨htake, hdrop⟩ := hmantissa hn ('.' :: d)
    refine ⟨⟨n ++ d, -d.length⟩, ?_⟩
    simpa [Scientific.ofMantissa?, IsDigits, htake, hdrop, hne] using hd
  | @point d hd hne =>
    refine ⟨⟨d, -d.length⟩, ?_⟩
    simpa [Scientific.ofMantissa?, IsDigits, hne] using hd
  | quotient hn hne hd hne' => simp at hslash

theorem floatingRead?_eq_some {α : Type} [Floating α] (h : IsLiteral s) (hslash : '/' ∉ s) :
    ∃ x : α, Floating.read? s = some x := by
  have hmark : ∀ c ∈ s, (c != 'e' && c != 'E') = true := by
    intro c hc
    rw [Bool.and_eq_true, bne_iff_ne, bne_iff_ne]
    constructor <;> rintro rfl
    · exact h.not_mem (by decide) hc
    · exact h.not_mem (by decide) hc
  have htake := List.takeWhile_eq_self_iff.2 hmark
  have hdrop := List.dropWhile_eq_nil_iff.2 hmark
  obtain ⟨r, hr⟩ := h.ofMantissa?_eq_some hslash
  have htext : Scientific.ofText? s = some r := by
    simp [Scientific.ofText?, htake, hdrop, hr]
  have hsign : Scientific.takeSign s = (false, s) := by
    unfold Scientific.takeSign
    split
    · exact absurd List.mem_cons_self (h.not_mem (by decide))
    · exact absurd List.mem_cons_self (h.not_mem (by decide))
    · rfl
  simp only [Floating.read?, hsign, htext]
  split_ifs
  · exact ⟨_, rfl⟩
  · exact ⟨_, rfl⟩
  · exact ⟨_, rfl⟩

/-- Every literal stands for a 64-bit number. -/
theorem readDouble?_eq_some (h : IsLiteral s) : ∃ x, Parser.readDouble? s = some x := by
  have hslash : '/'.isDigit = false := by decide
  unfold Parser.readDouble?
  by_cases hmem : '/' ∈ s
  · cases h with
    | whole hn hne => exact absurd hmem (hn.not_mem hslash)
    | decimal hn hne hd => simp [hn.not_mem hslash, hd.not_mem hslash] at hmem
    | point hd hne => simp [hd.not_mem hslash] at hmem
    | quotient hn hne hd hne' =>
      obtain ⟨x, hx⟩ := (whole hn hne).floatingRead?_eq_some (α := Float) (hn.not_mem hslash)
      obtain ⟨y, hy⟩ := (whole hd hne').floatingRead?_eq_some (α := Float) (hd.not_mem hslash)
      simp only [Digits.cut_append (hn.not_mem hslash), hx, hy]
      exact ⟨_, rfl⟩
  · rw [Digits.cut_eq_none hmem]
    exact h.floatingRead?_eq_some hmem

end IsLiteral

end Formula
