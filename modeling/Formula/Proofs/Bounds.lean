import Formula.Bounds
import Formula.Proofs.Fraction.Power

/-!
# Interval arithmetic on fractions

`Bounds.Holds b v` says that an interval with well-formed fractions for its ends holds the extended
rational `v`. For each operation on intervals there is one lemma: numbers of the operands give a
number of the result, unless that number is NaN. Infinite ends are no exception; where the ends give
NaN the interval is the whole line, which `holds_ofCandidates` takes care of once for all operations.
-/

namespace Formula

namespace Value

theorem min_fraction {f g : Fraction} (hf : f.WellFormed) (hg : g.WellFormed)
    (hfn : f.value ≠ .nan) (hgn : g.value ≠ .nan) :
    ∃ h, (fraction f).min (fraction g) = fraction h ∧ h.WellFormed ∧ h.value ≤ f.value ∧
      h.value ≤ g.value := by
  have hgt : ((fraction f).compare? (fraction g) == some .gt) = true ↔ ¬ f.value ≤ g.value := by
    rw [beq_iff_eq, compare?_fraction hf hg, Extended.compare?_eq_gt_iff hfn hgn]
  unfold min
  split_ifs with h
  · have hle := (Extended.le_total hfn hgn).resolve_left (hgt.1 h)
    exact ⟨g, rfl, hg, hle, Extended.le_refl hgn⟩
  · exact ⟨f, rfl, hf, Extended.le_refl hfn, not_not.1 fun hn => h (hgt.2 hn)⟩

theorem max_fraction {f g : Fraction} (hf : f.WellFormed) (hg : g.WellFormed)
    (hfn : f.value ≠ .nan) (hgn : g.value ≠ .nan) :
    ∃ h, (fraction f).max (fraction g) = fraction h ∧ h.WellFormed ∧ f.value ≤ h.value ∧
      g.value ≤ h.value := by
  have hlt : ((fraction f).compare? (fraction g) == some .lt) = true ↔ ¬ g.value ≤ f.value := by
    rw [beq_iff_eq, compare?_fraction hf hg, Extended.compare?_eq_lt_iff hfn hgn]
  unfold max
  split_ifs with h
  · have hle := (Extended.le_total hgn hfn).resolve_left (hlt.1 h)
    exact ⟨g, rfl, hg, hle, Extended.le_refl hgn⟩
  · exact ⟨f, rfl, hf, Extended.le_refl hfn, not_not.1 fun hn => h (hlt.2 hn)⟩

end Value

namespace Bounds

/-! ## Membership -/

/-- The interval has well-formed fractions for its ends, and the number lies between them. -/
def Holds (b : Bounds) (v : Extended) : Prop :=
  ∃ lo hi : Fraction, b = ⟨.fraction lo, .fraction hi⟩ ∧ lo.WellFormed ∧ hi.WellFormed ∧
    lo.value ≤ v ∧ v ≤ hi.value

theorem Holds.ne_nan {b : Bounds} {v : Extended} (h : b.Holds v) : v ≠ .nan := by
  obtain ⟨lo, hi, -, -, -, hlo, -⟩ := h
  exact (Extended.ne_nan_of_le hlo).2

theorem Holds.contains {b : Bounds} {f : Fraction} (hf : f.WellFormed) (h : b.Holds f.value) :
    b.contains (.fraction f) = true := by
  obtain ⟨lo, hi, rfl, hlo, hhi, h₁, h₂⟩ := h
  rw [Bounds.contains, Bool.and_eq_true, Value.le_fraction hlo hf, Value.le_fraction hf hhi]
  exact ⟨h₁, h₂⟩

theorem holds_point {f : Fraction} (hf : f.WellFormed) (hn : f.value ≠ .nan) :
    (point (.fraction f)).Holds f.value :=
  ⟨f, f, rfl, hf, hf, Extended.le_refl hn, Extended.le_refl hn⟩

theorem holds_unbounded {v : Extended} (hv : v ≠ .nan) : (unbounded .fraction).Holds v :=
  ⟨.infinite true, .infinite false, rfl, trivial, trivial, (Extended.bot_le v).2 hv,
    (Extended.le_top v).2 hv⟩

/-! ## Candidates -/

/-- An interval that is widened to further fractions holds what it held and the fractions. -/
theorem foldl_insert_spans {cs : List Fraction} (hwf : ∀ f ∈ cs, f.WellFormed)
    (hnan : ∀ f ∈ cs, f.value ≠ .nan) {lo hi : Fraction} (hlo : lo.WellFormed) (hhi : hi.WellFormed)
    (hlon : lo.value ≠ .nan) (hhin : hi.value ≠ .nan) :
    ∃ lo' hi' : Fraction, (cs.map Value.fraction).foldl insert ⟨.fraction lo, .fraction hi⟩ =
        ⟨.fraction lo', .fraction hi'⟩ ∧ lo'.WellFormed ∧ hi'.WellFormed ∧
      lo'.value ≤ lo.value ∧ hi.value ≤ hi'.value ∧
      ∀ f ∈ cs, lo'.value ≤ f.value ∧ f.value ≤ hi'.value := by
  induction cs generalizing lo hi with
  | nil => exact ⟨lo, hi, rfl, hlo, hhi, Extended.le_refl hlon, Extended.le_refl hhin, by simp⟩
  | cons f cs ih =>
    simp only [List.forall_mem_cons] at hwf hnan
    obtain ⟨lo₁, hmin, hlo₁, hlo₁le, hlo₁f⟩ := Value.min_fraction hlo hwf.1 hlon hnan.1
    obtain ⟨hi₁, hmax, hhi₁, hlehi₁, hfhi₁⟩ := Value.max_fraction hhi hwf.1 hhin hnan.1
    obtain ⟨lo₂, hi₂, heq, hlo₂, hhi₂, hle, hge, hall⟩ := ih hwf.2 hnan.2 hlo₁ hhi₁
      (Extended.ne_nan_of_le hlo₁le).1 (Extended.ne_nan_of_le hlehi₁).2
    refine ⟨lo₂, hi₂, ?_, hlo₂, hhi₂, Extended.le_trans hle hlo₁le, Extended.le_trans hlehi₁ hge,
      ?_⟩
    · rw [List.map_cons, List.foldl_cons, ← heq, insert, hmin, hmax]
    · rintro g (_ | ⟨_, hg⟩)
      · exact ⟨Extended.le_trans hle hlo₁f, Extended.le_trans hfhi₁ hge⟩
      · exact hall g hg

/-- A number is held if it lies between two of the candidates, or if one of them is NaN. -/
theorem holds_ofCandidates (cs : List Fraction) (vs : List Extended) {v : Extended}
    (hwf : ∀ f ∈ cs, f.WellFormed) (hvs : cs.map Fraction.value = vs) (hv : v ≠ .nan)
    (h : (∀ u ∈ vs, u ≠ .nan) → (∃ u ∈ vs, u ≤ v) ∧ ∃ u ∈ vs, v ≤ u) :
    (ofCandidates .fraction (cs.map .fraction)).Holds v := by
  subst hvs
  simp only [List.mem_map, forall_exists_index, and_imp, forall_apply_eq_imp_iff₂,
    exists_exists_and_eq_and] at h
  unfold ofCandidates
  split_ifs with hany
  · exact holds_unbounded hv
  have hnan : ∀ f ∈ cs, f.value ≠ .nan := by
    intro f hf hn
    refine hany (List.any_eq_true.2 ⟨.fraction f, List.mem_map_of_mem hf, ?_⟩)
    exact Fraction.isNaN_iff.2 hn
  obtain ⟨⟨f, hf, hfv⟩, g, hg, hvg⟩ := h hnan
  cases cs with
  | nil => cases hf
  | cons c cs =>
    simp only [List.forall_mem_cons] at hwf hnan
    obtain ⟨lo, hi, heq, hlo, hhi, hloc, hchi, hall⟩ :=
      foldl_insert_spans hwf.2 hnan.2 hwf.1 hwf.1 hnan.1 hnan.1
    have hspan : ∀ u ∈ c :: cs, lo.value ≤ u.value ∧ u.value ≤ hi.value := by
      rintro u (_ | ⟨_, hu⟩)
      · exact ⟨hloc, hchi⟩
      · exact hall u hu
    exact ⟨lo, hi, heq, hlo, hhi, Extended.le_trans (hspan f hf).1 hfv,
      Extended.le_trans hvg (hspan g hg).2⟩

/-! ## Operations -/

theorem holds_sum {b c : Bounds} {v w : Extended} (hb : b.Holds v) (hc : c.Holds w)
    (h : v + w ≠ .nan) : (b.sum c).Holds (v + w) := by
  obtain ⟨lo, hi, rfl, hlo, hhi, hlov, hvhi⟩ := hb
  obtain ⟨lo', hi', rfl, hlo', hhi', hlow, hwhi⟩ := hc
  refine holds_ofCandidates [lo + lo', hi + hi']
    [lo.value + lo'.value, hi.value + hi'.value] ?_ ?_ h fun hnan => ?_
  · simp [Fraction.wellFormed_add, hlo, hlo', hhi, hhi']
  · simp [Fraction.value_add, hlo, hlo', hhi, hhi']
  · exact ⟨⟨_, by simp, Extended.add_le_add hlov hlow (hnan _ (by simp)) h⟩,
      _, by simp, Extended.add_le_add hvhi hwhi h (hnan _ (by simp))⟩

theorem holds_negated {b : Bounds} {v : Extended} (h : b.Holds v) : b.negated.Holds (-v) := by
  obtain ⟨lo, hi, rfl, hlo, hhi, hlov, hvhi⟩ := h
  refine ⟨-hi, -lo, rfl, Fraction.wellFormed_neg _, Fraction.wellFormed_neg _, ?_, ?_⟩
  · rw [Fraction.value_neg hhi]
    exact Extended.neg_le_neg hvhi
  · rw [Fraction.value_neg hlo]
    exact Extended.neg_le_neg hlov

/-- A known sign is the sign of every number of the interval. -/
theorem isNegative?_sound {b : Bounds} {v : Extended} {negative : Bool} (h : b.Holds v)
    (hs : b.isNegative? = some negative) : if negative then ¬ 0 ≤ v else 0 ≤ v := by
  obtain ⟨lo, hi, rfl, hlo, hhi, hlov, hvhi⟩ := h
  have hzero : Value.zero (Bounds.kind ⟨.fraction lo, .fraction hi⟩) = .fraction .zero := rfl
  have hz : Fraction.zero.value ≠ .nan := by simp [Extended.zero_def]
  rw [isNegative?, hzero] at hs
  simp only at hs
  split_ifs at hs with hlt hle
  · obtain rfl : true = negative := by simpa using hs
    rw [Value.lt_fraction hhi Fraction.wellFormed_zero (Extended.ne_nan_of_le hvhi).2 hz,
      Fraction.value_zero] at hlt
    exact fun h0 => hlt (Extended.le_trans h0 hvhi)
  · obtain rfl : false = negative := by simpa using hs
    rw [Value.le_fraction Fraction.wellFormed_zero hlo, Fraction.value_zero] at hle
    exact Extended.le_trans hle hlov

theorem holds_abs {b : Bounds} {v : Extended} (h : b.Holds v) : b.abs.Holds v.abs := by
  have hv := h.ne_nan
  unfold abs
  split
  · next hs =>
    rw [Extended.abs_of_nonneg (isNegative?_sound h hs)]
    exact h
  · next hs =>
    rw [Extended.abs_of_neg hv (isNegative?_sound h hs)]
    exact holds_negated h
  · obtain ⟨lo, hi, rfl, hlo, hhi, hlov, hvhi⟩ := h
    have hneg : -v ≤ (-lo).value := by
      rw [Fraction.value_neg hlo]
      exact Extended.neg_le_neg hlov
    obtain ⟨m, hm, hmwf, hlom, hhim⟩ := Value.max_fraction (Fraction.wellFormed_neg lo) hhi
      (Extended.ne_nan_of_le hneg).2 (Extended.ne_nan_of_le hvhi).2
    refine ⟨.zero, m, by rw [← hm]; rfl, Fraction.wellFormed_zero, hmwf, ?_, ?_⟩
    · rw [Fraction.value_zero]
      exact Extended.abs_nonneg hv
    · exact Extended.abs_le_iff.2 ⟨Extended.le_trans hvhi hhim, Extended.le_trans hneg hlom⟩

theorem holds_product {b c : Bounds} {v w : Extended} (hb : b.Holds v) (hc : c.Holds w)
    (h : v * w ≠ .nan) : (b.corners (· * ·) c).Holds (v * w) := by
  obtain ⟨lo, hi, rfl, hlo, hhi, hlov, hvhi⟩ := hb
  obtain ⟨lo', hi', rfl, hlo', hhi', hlow, hwhi⟩ := hc
  refine holds_ofCandidates [lo * lo', lo * hi', hi * lo', hi * hi'] _ ?_ ?_ h
    (Extended.mul_between_corners hlov hvhi hlow hwhi h)
  · simp [Fraction.wellFormed_mul]
  · simp [Fraction.value_mul, hlo, hlo', hhi, hhi']

/-- An interval that does not contain zero lies on one side of it. -/
theorem not_containsZero {lo hi : Fraction} (hlo : lo.WellFormed) (hhi : hi.WellFormed)
    (h : ¬ (Bounds.containsZero ⟨.fraction lo, .fraction hi⟩) = true) :
    ¬ lo.value ≤ 0 ∨ ¬ 0 ≤ hi.value := by
  have hzero : Value.zero (Bounds.kind ⟨.fraction lo, .fraction hi⟩) = .fraction .zero := rfl
  rw [containsZero, hzero, contains, Bool.and_eq_true,
    Value.le_fraction hlo Fraction.wellFormed_zero, Value.le_fraction Fraction.wellFormed_zero hhi,
    Fraction.value_zero, not_and_or] at h
  exact h

theorem holds_quotient {b c : Bounds} {v w : Extended} (hb : b.Holds v) (hc : c.Holds w)
    (h : v * w⁻¹ ≠ .nan) :
    (if c.containsZero then unbounded .fraction else b.corners (· / ·) c).Holds (v * w⁻¹) := by
  split_ifs with hz
  · exact holds_unbounded h
  obtain ⟨lo, hi, rfl, hlo, hhi, hlov, hvhi⟩ := hb
  obtain ⟨lo', hi', rfl, hlo', hhi', hlow, hwhi⟩ := hc
  have hside := not_containsZero hlo' hhi' hz
  have hinv₁ : w⁻¹ ≤ lo'.value⁻¹ :=
    Extended.inv_le_inv hlow (hside.imp_right fun hn h0 => hn (Extended.le_trans h0 hwhi))
  have hinv₂ : hi'.value⁻¹ ≤ w⁻¹ :=
    Extended.inv_le_inv hwhi (hside.imp_left fun hn h0 => hn (Extended.le_trans hlow h0))
  refine holds_ofCandidates [lo / lo', lo / hi', hi / lo', hi / hi']
    [lo.value * lo'.value⁻¹, lo.value * hi'.value⁻¹, hi.value * lo'.value⁻¹,
      hi.value * hi'.value⁻¹] ?_ ?_ h fun hnan => ?_
  · simp [Fraction.wellFormed_div]
  · simp [Fraction.value_div, hlo, hlo', hhi, hhi']
  · -- the reciprocals lie between those of the ends, in reverse order
    have hperm : [lo.value * hi'.value⁻¹, lo.value * lo'.value⁻¹, hi.value * hi'.value⁻¹,
        hi.value * lo'.value⁻¹].Perm [lo.value * lo'.value⁻¹, lo.value * hi'.value⁻¹,
          hi.value * lo'.value⁻¹, hi.value * hi'.value⁻¹] :=
      (List.Perm.swap _ _ _).trans (((List.Perm.swap _ _ []).cons _).cons _)
    simp only [← hperm.mem_iff] at hnan ⊢
    exact Extended.mul_between_corners hlov hvhi hinv₂ hinv₁ h hnan

theorem holds_modulo {c : Bounds} {v w : Extended} (hc : c.Holds w) (h : v.modulo w ≠ .nan) :
    (ofCandidates .fraction [-c.min.abs.max c.max.abs, c.min.abs.max c.max.abs]).Holds
      (v.modulo w) := by
  obtain ⟨lo, hi, rfl, hlo, hhi, hlow, hwhi⟩ := hc
  have hlon := (Extended.ne_nan_of_le hlow).1
  have hhin := (Extended.ne_nan_of_le hwhi).2
  obtain ⟨reach, hmax, hreach, hlor, hhir⟩ := Value.max_fraction (Fraction.wellFormed_abs lo)
    (Fraction.wellFormed_abs hi) (by rwa [Fraction.value_abs hlo, Extended.abs_ne_nan])
    (by rwa [Fraction.value_abs hhi, Extended.abs_ne_nan])
  rw [Fraction.value_abs hlo] at hlor
  rw [Fraction.value_abs hhi] at hhir
  have hw : w.abs ≤ reach.value := by
    refine Extended.abs_le_iff.2 ⟨?_, ?_⟩
    · exact Extended.le_trans hwhi (Extended.le_trans (Extended.le_abs hhin).1 hhir)
    · exact Extended.le_trans (Extended.neg_le_neg hlow)
        (Extended.le_trans (Extended.le_abs hlon).2 hlor)
  have hr := Extended.abs_le_iff.1 (Extended.le_trans (Extended.abs_modulo_le h) hw)
  have hlist : [-(Value.fraction lo).abs.max (Value.fraction hi).abs,
      (Value.fraction lo).abs.max (Value.fraction hi).abs] = [-reach, reach].map Value.fraction := by
    change [-(Value.fraction lo.abs).max (Value.fraction hi.abs),
      (Value.fraction lo.abs).max (Value.fraction hi.abs)] = _
    rw [hmax]
    rfl
  rw [hlist]
  refine holds_ofCandidates _ [-reach.value, reach.value] ?_ ?_ h fun _ => ?_
  · simp [Fraction.wellFormed_neg, hreach]
  · simp [Fraction.value_neg hreach]
  · refine ⟨⟨-reach.value, by simp, ?_⟩, reach.value, by simp, hr.1⟩
    simpa using Extended.neg_le_neg hr.2

end Bounds

end Formula
