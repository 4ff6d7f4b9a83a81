import Formula.Fraction.Text
import Formula.Proofs.Fraction.Rational

/-!
# Fractions and their texts

Numbers are written as runs of digits (`IsDigits`), and a finite fraction as one run or as two with a
slash between, behind its sign. Reading such a text gives the parts back (`read?_partsText`).
-/

namespace Formula

/-! ## Runs of digits -/

/-- A run of digits, which may be empty. -/
def IsDigits (s : List Char) : Prop :=
  ∀ c ∈ s, c.isDigit = true

instance : DecidablePred IsDigits :=
  fun s => decidable_of_iff (s.all Char.isDigit = true) List.all_eq_true

variable {s n d : List Char} {c mark : Char}

theorem isDigits_nil : IsDigits [] := nofun

theorem IsDigits.cons (hc : c.isDigit = true) (hs : IsDigits s) : IsDigits (c :: s) :=
  List.forall_mem_cons.2 ⟨hc, hs⟩

theorem IsDigits.not_mem (hs : IsDigits s) (hc : c.isDigit = false) : c ∉ s := by
  intro h
  rw [hs c h] at hc
  cases hc

theorem IsDigits.exists_mem (hs : IsDigits s) (hne : s ≠ []) : ∃ c ∈ s, c.isDigit = true := by
  obtain ⟨c, hc⟩ := List.exists_mem_of_ne_nil s hne
  exact ⟨c, hc, hs c hc⟩

theorem Digits.cut_eq_none (h : mark ∉ s) : Digits.cut mark s = none := by
  cases hcut : Digits.cut mark s with
  | none => rfl
  | some parts =>
    obtain ⟨before, behind⟩ := parts
    rw [(Digits.cut_eq_some_iff.1 hcut).1] at h
    simp at h

theorem IsDigits.cut_eq_none (hs : IsDigits s) (hmark : mark.isDigit = false) :
    Digits.cut mark s = none :=
  Digits.cut_eq_none (hs.not_mem hmark)

theorem Digits.cut_append (h : mark ∉ n) : Digits.cut mark (n ++ mark :: d) = some (n, d) :=
  Digits.cut_eq_some_iff.2 ⟨rfl, h⟩

theorem Digits.value?_eq_some_iff {k : ℕ} :
    Digits.value? s = some k ↔ IsDigits s ∧ Nat.ofDigitChars 10 s 0 = k := by
  rw [Digits.value?, Option.ite_none_right_eq_some, Option.some.injEq, List.all_eq_true]
  rfl

theorem IsDigits.value?_eq (hs : IsDigits s) :
    Digits.value? s = some (Nat.ofDigitChars 10 s 0) :=
  Digits.value?_eq_some_iff.2 ⟨hs, rfl⟩

/-! ### Written numbers -/

theorem isDigits_text (n : ℕ) : IsDigits (Digits.text n) :=
  fun _ => Nat.isDigit_of_mem_toDigits (by decide) (by decide)

theorem Digits.text_ne_nil (n : ℕ) : Digits.text n ≠ [] :=
  Nat.toDigits_ne_nil

theorem Digits.exists_text_eq_cons (n : ℕ) : ∃ c s, Digits.text n = c :: s ∧ c.isDigit = true := by
  obtain ⟨c, s, h⟩ := List.exists_cons_of_ne_nil (Digits.text_ne_nil n)
  exact ⟨c, s, h, isDigits_text n c (h ▸ List.mem_cons_self)⟩

theorem Digits.value?_text (n : ℕ) : Digits.value? (Digits.text n) = some n :=
  Digits.value?_eq_some_iff.2 ⟨isDigits_text n, Nat.ofDigitChars_ten_toDigits⟩

namespace Fraction

variable {f : Fraction} {n d : ℕ}

/-- The lowest terms of a fraction that is not negative. -/
theorem exists_simplified_eq (hf : f.WellFormed) (hfin : f.isFinite = true)
    (hneg : f.isNegative = false) : ∃ n d, f.simplified = finite false n d ∧ d ≠ 0 := by
  obtain ⟨a, n, d, rfl⟩ := exists_eq_finite hfin
  obtain rfl : a = false := hneg
  obtain ⟨k, l, hsimp, -, hl⟩ := exists_lowest_terms hf
  exact ⟨k, l, hsimp, hl⟩

theorem toList_text {a : Bool} (h : f.simplified = finite a n d) :
    f.text.toList = partsText a n d := by
  rw [text, h, String.toList_ofList]

theorem partsText_one (n : ℕ) : partsText false n 1 = Digits.text n := by
  simp [partsText]

theorem partsText_of_ne_one (n : ℕ) (hd : d ≠ 1) :
    partsText false n d = Digits.text n ++ '/' :: Digits.text d := by
  simp [partsText, hd]

theorem exists_partsText_eq_cons (n d : ℕ) :
    ∃ c s, partsText false n d = c :: s ∧ c.isDigit = true := by
  obtain ⟨c, s, h, hc⟩ := Digits.exists_text_eq_cons n
  exact ⟨c, _, by rw [partsText, h]; rfl, hc⟩

theorem read?_minus (s : List Char) :
    read? ('-' :: s) = if s = [] ∨ s = ['.'] then none else readMagnitude? true s := rfl

theorem read?_of_ne_minus {s : List Char} (h : ∀ rest, s ≠ '-' :: rest) :
    read? s = if s = [] ∨ s = ['.'] then none else readMagnitude? false s := by
  unfold read?
  split
  next negative body hbody =>
    split at hbody
    · next rest => exact absurd rfl (h rest)
    · cases hbody
      rfl

theorem readMagnitude?_partsText (a : Bool) (n d : ℕ) :
    readMagnitude? a (partsText false n d) = some (ofParts a n d) := by
  unfold readMagnitude?
  by_cases hone : d = 1
  · rw [hone, partsText_one, (isDigits_text n).cut_eq_none (by decide),
      (isDigits_text n).cut_eq_none (by decide), Digits.value?_text]
    rfl
  · have hcut : Digits.cut '/' (partsText false n d) = some (Digits.text n, Digits.text d) := by
      rw [partsText_of_ne_one n hone, Digits.cut_append ((isDigits_text n).not_mem (by decide))]
    have hn : (Digits.text n).isEmpty = false := List.isEmpty_eq_false_iff.2 (Digits.text_ne_nil n)
    have hd : (Digits.text d).isEmpty = false := List.isEmpty_eq_false_iff.2 (Digits.text_ne_nil d)
    simp only [hcut, hn, hd, Digits.value?_text, Bool.or_self, Bool.false_eq_true, if_false]

/-- What is written is read back. -/
theorem read?_partsText {a : Bool} (hf : (finite a n d).WellFormed) :
    read? (partsText a n d) = some (finite a n d) := by
  obtain ⟨c, s, hparts, hc⟩ := exists_partsText_eq_cons n d
  have hne {mark : Char} (hmark : mark.isDigit = false) : c ≠ mark := by
    rintro rfl
    rw [hmark] at hc
    cases hc
  have hblank : ¬ (partsText false n d = [] ∨ partsText false n d = ['.']) := by
    simp [hparts, hne]
  have hread : read? (partsText a n d) = readMagnitude? a (partsText false n d) := by
    cases a with
    | false =>
      have hminus (rest : List Char) : partsText false n d ≠ '-' :: rest := by simp [hparts, hne]
      rw [read?_of_ne_minus hminus, if_neg hblank]
    | true =>
      have hminus : partsText true n d = '-' :: partsText false n d := rfl
      rw [hminus, read?_minus, if_neg hblank]
  rw [hread, readMagnitude?_partsText, ofParts_of_wellFormed hf]

end Fraction

end Formula
