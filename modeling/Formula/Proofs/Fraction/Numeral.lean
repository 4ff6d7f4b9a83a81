import Formula.Parser
import Formula.Proofs.Fraction.Exactness
import Formula.Proofs.Fraction.Text

/-!
# Numerals

`Numeral s v` says that the text `s` is the number `v`: an integer, a decimal, or a quotient of two
integers, with an optional minus in front. These are the texts that are read as fractions, each as the
fraction of its number, and of all other texts the error names the whole (`ofText_numeral`). What is
written as a fraction is a numeral, which is read back in lowest terms.
-/

namespace Formula

variable {s n d : List Char}

/-! ## The grammar -/

/-- The quotient of two natural numbers. Over zero it is an infinity, or NaN if both are zero. -/
def Extended.quotient (n d : ℕ) : Extended :=
  if d = 0 then if n = 0 then nan else infinite false else finite (n / d)

/-- The texts of numbers without a sign. A decimal has digits on at least one side of its point. -/
inductive Magnitude : List Char → Extended → Prop
  | integer {n : List Char} (hn : IsDigits n) (hne : n ≠ []) :
      Magnitude n (.finite (Nat.ofDigitChars 10 n 0))
  | decimal {n d : List Char} (hn : IsDigits n) (hd : IsDigits d) (hne : n ≠ [] ∨ d ≠ []) :
      Magnitude (n ++ '.' :: d)
        (.finite (Nat.ofDigitChars 10 n 0 + Nat.ofDigitChars 10 d 0 / 10 ^ d.length))
  | quotient {n d : List Char} (hn : IsDigits n) (hne : n ≠ []) (hd : IsDigits d) (hne' : d ≠ []) :
      Magnitude (n ++ '/' :: d) (.quotient (Nat.ofDigitChars 10 n 0) (Nat.ofDigitChars 10 d 0))

/-- The texts of numbers. -/
inductive Numeral : List Char → Extended → Prop
  | unsigned {s : List Char} {v : Extended} (h : Magnitude s v) : Numeral s v
  | minus {s : List Char} {v : Extended} (h : Magnitude s v) : Numeral ('-' :: s) (-v)

theorem Magnitude.ne_minus {v : Extended} (h : Magnitude s v) (rest : List Char) :
    s ≠ '-' :: rest := by
  have hdigits {n : List Char} (hn : IsDigits n) : '-' ∉ n := hn.not_mem (by decide)
  have hmem : '-' ∉ s := by
    cases h with
    | integer hn hne => exact hdigits hn
    | decimal hn hd hne => simp [hdigits hn, hdigits hd]
    | quotient hn hne hd hne' => simp [hdigits hn, hdigits hd]
  rintro rfl
  exact hmem List.mem_cons_self

theorem Magnitude.exists_mem_isDigit {v : Extended} (h : Magnitude s v) :
    ∃ c ∈ s, c.isDigit = true := by
  cases h with
  | integer hn hne => exact hn.exists_mem hne
  | @decimal n d hn hd hne =>
    rcases hne with hne | hne
    · obtain ⟨c, hc, hdigit⟩ := hn.exists_mem hne
      exact ⟨c, List.mem_append_left _ hc, hdigit⟩
    · obtain ⟨c, hc, hdigit⟩ := hd.exists_mem hne
      exact ⟨c, List.mem_append_right n (List.mem_cons_of_mem _ hc), hdigit⟩
  | quotient hn hne hd hne' =>
    obtain ⟨c, hc, hdigit⟩ := hn.exists_mem hne
    exact ⟨c, List.mem_append_left _ hc, hdigit⟩

/-- Neither the empty text nor a point alone is a number. -/
theorem Magnitude.not_blank {v : Extended} (h : Magnitude s v) : ¬ (s = [] ∨ s = ['.']) := by
  obtain ⟨c, hc, hdigit⟩ := h.exists_mem_isDigit
  rintro (rfl | rfl)
  · cases hc
  · rw [List.mem_singleton.1 hc] at hdigit
    exact absurd hdigit (by decide)

namespace Fraction

variable {f : Fraction} {a : Bool} {v : Extended}

/-! ## Reading -/

theorem value_ofParts_quotient (a : Bool) (n d : ℕ) :
    (ofParts a n d).value = if a then -Extended.quotient n d else .quotient n d := by
  rw [value_ofParts_eq, Extended.quotient]
  cases a <;> split_ifs <;> simp_all [signed, neg_div]

/-- The terms of a decimal, over a power of ten. -/
theorem quotient_decimal (n d k : ℕ) :
    Extended.quotient (n * 10 ^ k + d) (10 ^ k) = .finite (n + d / 10 ^ k) := by
  have hscale : (10 : ℚ) ^ k ≠ 0 := pow_ne_zero k (by norm_num)
  rw [Extended.quotient, if_neg (pow_ne_zero k (by norm_num)), Extended.finite.injEq]
  push_cast
  field_simp

theorem quotient_one (n : ℕ) : Extended.quotient n 1 = .finite n := by
  rw [Extended.quotient, if_neg one_ne_zero, Nat.cast_one, div_one]

theorem magnitude_of_readMagnitude? (h : readMagnitude? a s = some f) (hs : ¬ (s = [] ∨ s = ['.'])) :
    f.WellFormed ∧ ∃ v, Magnitude s v ∧ f.value = if a then -v else v := by
  unfold readMagnitude? at h
  split at h
  · next n d hcut =>
    obtain ⟨rfl, -⟩ := Digits.cut_eq_some_iff.1 hcut
    obtain ⟨hempty, h⟩ := Option.ite_none_left_eq_some.1 h
    obtain ⟨hne, hne'⟩ : n ≠ [] ∧ d ≠ [] := by simpa using hempty
    split at h
    · next hk hl =>
      obtain ⟨hn, rfl⟩ := Digits.value?_eq_some_iff.1 hk
      obtain ⟨hd, rfl⟩ := Digits.value?_eq_some_iff.1 hl
      cases h
      exact ⟨wellFormed_ofParts _ _ _, _, .quotient hn hne hd hne', value_ofParts_quotient _ _ _⟩
    · cases h
  split at h
  · next n d hcut =>
    obtain ⟨rfl, -⟩ := Digits.cut_eq_some_iff.1 hcut
    have hne : n ≠ [] ∨ d ≠ [] := by
      by_contra hnil
      rw [not_or, not_ne_iff, not_ne_iff] at hnil
      exact hs (.inr (by rw [hnil.1, hnil.2]; rfl))
    split at h
    · next hk hl =>
      obtain ⟨hn, rfl⟩ := Digits.value?_eq_some_iff.1 hk
      obtain ⟨hd, rfl⟩ := Digits.value?_eq_some_iff.1 hl
      cases h
      refine ⟨wellFormed_ofParts _ _ _, _, .decimal hn hd hne, ?_⟩
      rw [← quotient_decimal]
      exact value_ofParts_quotient _ _ _
    · cases h
  · obtain ⟨k, hk, rfl⟩ := Option.map_eq_some_iff.1 h
    obtain ⟨hn, rfl⟩ := Digits.value?_eq_some_iff.1 hk
    refine ⟨wellFormed_ofParts _ _ _, _, .integer hn fun hnil => hs (.inl hnil), ?_⟩
    rw [← quotient_one]
    exact value_ofParts_quotient _ _ _

theorem readMagnitude?_eq_some (h : Magnitude s v) (a : Bool) :
    ∃ f, readMagnitude? a s = some f ∧ f.value = if a then -v else v := by
  have hslash : '/'.isDigit = false := by decide
  have hpoint : '.'.isDigit = false := by decide
  unfold readMagnitude?
  cases h with
  | integer hn hne =>
    rw [hn.cut_eq_none hslash, hn.cut_eq_none hpoint, hn.value?_eq, ← quotient_one]
    exact ⟨_, rfl, value_ofParts_quotient _ _ _⟩
  | @decimal n d hn hd hne =>
    have hcut : Digits.cut '/' (n ++ '.' :: d) = none := by
      refine Digits.cut_eq_none ?_
      simp [hn.not_mem hslash, hd.not_mem hslash]
    simp only [hcut, Digits.cut_append (hn.not_mem hpoint), hn.value?_eq, hd.value?_eq]
    rw [← quotient_decimal]
    exact ⟨_, rfl, value_ofParts_quotient _ _ _⟩
  | quotient hn hne hd hne' =>
    simp only [Digits.cut_append (hn.not_mem hslash), List.isEmpty_eq_false_iff.2 hne,
      List.isEmpty_eq_false_iff.2 hne', Bool.or_self, Bool.false_eq_true, if_false, hn.value?_eq,
      hd.value?_eq]
    exact ⟨_, rfl, value_ofParts_quotient _ _ _⟩

theorem numeral_of_read? (h : read? s = some f) : f.WellFormed ∧ Numeral s f.value := by
  by_cases hminus : ∃ rest, s = '-' :: rest
  · obtain ⟨rest, rfl⟩ := hminus
    rw [read?_minus, Option.ite_none_left_eq_some] at h
    obtain ⟨hwf, v, hv, hvalue⟩ := magnitude_of_readMagnitude? h.2 h.1
    exact ⟨hwf, hvalue ▸ .minus hv⟩
  · rw [not_exists] at hminus
    rw [read?_of_ne_minus hminus, Option.ite_none_left_eq_some] at h
    obtain ⟨hwf, v, hv, hvalue⟩ := magnitude_of_readMagnitude? h.2 h.1
    exact ⟨hwf, hvalue ▸ .unsigned hv⟩

theorem read?_eq_some_of_numeral (h : Numeral s v) : ∃ f, read? s = some f ∧ f.value = v := by
  cases h with
  | unsigned h =>
    rw [read?_of_ne_minus h.ne_minus, if_neg h.not_blank]
    exact readMagnitude?_eq_some h false
  | minus h =>
    rw [read?_minus, if_neg h.not_blank]
    exact readMagnitude?_eq_some h true

/-! ## Writing and reading -/

theorem read?_text (hf : f.IsRational) : read? f.text.toList = some f.simplified := by
  have hwf := wellFormed_simplified hf.1
  have hsimp := simplified_eq hf
  rw [hsimp] at hwf
  rw [toList_text hsimp, hsimp, read?_partsText hwf]

theorem ofText_eq_ok_iff : ofText s = .ok f ↔ read? s = some f := by
  unfold ofText
  split <;> simp_all

/-- The texts that are read as fractions are the numerals, each is read as its number, and any other
text is named by the error. What is written as a fraction is read back in lowest terms. -/
theorem ofText_numeral (s : List Char) :
    (∀ f, ofText s = .ok f → f.WellFormed ∧ Numeral s f.value) ∧
    (∀ v, Numeral s v → ∃ f, ofText s = .ok f ∧ f.value = v) ∧
    ((∀ v, ¬ Numeral s v) → ofText s = .error (.invalidLiteral s)) ∧
    ∀ f : Fraction, f.WellFormed → f.isFinite = true → ofText f.text.toList = .ok f.simplified := by
  refine ⟨fun f h => numeral_of_read? (ofText_eq_ok_iff.1 h), fun v h => ?_, fun h => ?_,
    fun f hwf hfin => ofText_eq_ok_iff.2 (read?_text ⟨hwf, hfin⟩)⟩
  · obtain ⟨f, hread, hvalue⟩ := read?_eq_some_of_numeral h
    exact ⟨f, ofText_eq_ok_iff.2 hread, hvalue⟩
  · unfold ofText
    split
    · next f hread => exact absurd (numeral_of_read? hread).2 (h f.value)
    · rfl

/-- A decimal with a minus and zeros at both ends, a text with two points, and a fraction that is not
in lowest terms. -/
theorem ofText_numeral_of_negatives :
    (∃ f, ofText "-007.50".toList = .ok f ∧ f.WellFormed ∧
      f.value = -.finite (7 + 50 / 10 ^ 2)) ∧
    ofText "-1.2.3".toList = .error (.invalidLiteral "-1.2.3".toList) ∧
    ofText (finite true 6 8).text.toList = .ok (finite true 3 4) := by
  obtain ⟨hsound, hcomplete, -⟩ := ofText_numeral "-007.50".toList
  obtain ⟨-, htwice, hinvalid, hwritten⟩ := ofText_numeral "-1.2.3".toList
  refine ⟨?_, hinvalid fun v hv => ?_, hwritten (finite true 6 8) (by decide) rfl⟩
  · have htext : "-007.50".toList = '-' :: (['0', '0', '7'] ++ '.' :: ['5', '0']) := by simp
    have hdecimal : Magnitude (['0', '0', '7'] ++ '.' :: ['5', '0']) (.finite (7 + 50 / 10 ^ 2)) :=
      .decimal (by decide) (by decide) (by decide)
    have hnumeral := Numeral.minus hdecimal
    rw [← htext] at hnumeral
    obtain ⟨f, hf, hvalue⟩ := hcomplete _ hnumeral
    exact ⟨f, hf, (hsound f hf).1, hvalue⟩
  · obtain ⟨f, hf, -⟩ := htwice v hv
    cases hf

end Fraction

end Formula
