/-
**Rounding to doubles.**

A double is `m * 2 ^ e` with an integer `m` of at most 53 bits.  Rounding leaves the doubles alone and
keeps the order, and this is all that is needed to compare numbers that were computed on different
ways: a value below another one is rounded to a value below or equal to it.

Main results:

* `roundDouble_exact`, `roundDouble_natCast` — **doubles are left alone**;
* `roundDouble_mono` — **rounding keeps the order**;
* `roundDouble_le` — the relative error;
* `roundDouble_sub_one_lt` — subtracting one makes a double smaller.
-/

import ActiveRmt.PyValues

set_option relaxedAutoImplicit false
set_option autoImplicit false

/-! ### Exponents -/

theorem powTwo_eq (e : ℤ) : powTwo e = (2 : ℚ) ^ e := by
  cases e with
  | ofNat n =>
      rw [powTwo, Int.ofNat_eq_natCast, zpow_natCast]
      push_cast
      rfl
  | negSucc n =>
      rw [powTwo, Rat.mkRat_eq_div, zpow_negSucc]
      push_cast
      rw [one_div]

theorem powTwo_pos (e : ℤ) : 0 < powTwo e := by
  rw [powTwo_eq]
  positivity

/-- A positive rational lies between two powers of two that its parts determine. -/
theorem between_log2 {q : ℚ} (hq : 0 < q) :
    (2 : ℚ) ^ ((q.num.natAbs.log2 : ℤ) - q.den.log2 - 1) ≤ q ∧
      q < (2 : ℚ) ^ ((q.num.natAbs.log2 : ℤ) - q.den.log2 + 1) := by
  have hnum : 0 < q.num := Rat.num_pos.2 hq
  have hn : q.num.natAbs ≠ 0 := Int.natAbs_ne_zero.2 hnum.ne'
  have hd := q.den_nz
  have hval : q = (q.num.natAbs : ℚ) / q.den := by
    have hcast : ((q.num.natAbs : ℤ) : ℚ) = (q.num : ℚ) := by rw [Int.natAbs_of_nonneg hnum.le]
    rw [← Int.cast_natCast, hcast]
    exact (Rat.num_div_den q).symm
  have hdpos : (0 : ℚ) < q.den := by exact_mod_cast Nat.pos_of_ne_zero hd
  have hn₁ : (2 : ℚ) ^ q.num.natAbs.log2 ≤ q.num.natAbs := by
    exact_mod_cast Nat.log2_self_le hn
  have hn₂ : (q.num.natAbs : ℚ) < 2 ^ (q.num.natAbs.log2 + 1) := by
    exact_mod_cast Nat.lt_log2_self
  have hd₁ : (2 : ℚ) ^ q.den.log2 ≤ q.den := by exact_mod_cast Nat.log2_self_le hd
  have hd₂ : (q.den : ℚ) < 2 ^ (q.den.log2 + 1) := by exact_mod_cast Nat.lt_log2_self
  constructor
  · calc (2 : ℚ) ^ ((q.num.natAbs.log2 : ℤ) - q.den.log2 - 1)
        = 2 ^ q.num.natAbs.log2 / 2 ^ (q.den.log2 + 1) := by
          rw [show (q.num.natAbs.log2 : ℤ) - q.den.log2 - 1
              = (q.num.natAbs.log2 : ℤ) - ((q.den.log2 + 1 : ℕ) : ℤ) by push_cast; ring,
            zpow_sub₀ two_ne_zero, zpow_natCast, zpow_natCast]
      _ ≤ (q.num.natAbs : ℚ) / q.den := by
          rw [div_le_div_iff₀ (by positivity) hdpos]
          exact mul_le_mul hn₁ hd₂.le hdpos.le (by positivity)
      _ = q := hval.symm
  · calc q = (q.num.natAbs : ℚ) / q.den := hval
      _ < 2 ^ (q.num.natAbs.log2 + 1) / 2 ^ q.den.log2 := by
          rw [div_lt_div_iff₀ hdpos (by positivity)]
          exact mul_lt_mul hn₂ hd₁ (by positivity) (by positivity)
      _ = (2 : ℚ) ^ ((q.num.natAbs.log2 : ℤ) - q.den.log2 + 1) := by
          rw [show (q.num.natAbs.log2 : ℤ) - q.den.log2 + 1
              = ((q.num.natAbs.log2 + 1 : ℕ) : ℤ) - (q.den.log2 : ℤ) by push_cast; ring,
            zpow_sub₀ two_ne_zero, zpow_natCast, zpow_natCast]

/-- **The binary exponent** of a positive rational. -/
theorem binaryExponent_spec {q : ℚ} (hq : 0 < q) :
    (2 : ℚ) ^ binaryExponent q ≤ q ∧ q < (2 : ℚ) ^ (binaryExponent q + 1) := by
  obtain ⟨hlo, hhi⟩ := between_log2 hq
  unfold binaryExponent
  simp only [powTwo_eq]
  split_ifs with h
  · exact ⟨h, hhi⟩
  · rw [not_le] at h
    exact ⟨hlo, by rwa [sub_add_cancel]⟩

/-- Exponents keep the order. -/
theorem binaryExponent_mono {x y : ℚ} (hx : 0 < x) (hxy : x ≤ y) :
    binaryExponent x ≤ binaryExponent y := by
  have hlt : (2 : ℚ) ^ binaryExponent x < 2 ^ (binaryExponent y + 1) :=
    (binaryExponent_spec hx).1.trans_lt (hxy.trans_lt (binaryExponent_spec (hx.trans_le hxy)).2)
  exact Int.lt_add_one_iff.1 ((zpow_lt_zpow_iff_right₀ one_lt_two).1 hlt)

/-- An exponent is small when the number is. -/
theorem binaryExponent_lt {q : ℚ} (hq : 0 < q) {e : ℤ} (h : q < 2 ^ e) : binaryExponent q < e :=
  (zpow_lt_zpow_iff_right₀ one_lt_two).1 ((binaryExponent_spec hq).1.trans_lt h)

/-! ### Rounding to an integer -/

theorem roundHalfEven_intCast (n : ℤ) : roundHalfEven n = n := by
  unfold roundHalfEven
  simp

/-- Rounding chooses one of the two neighbours. -/
theorem floor_le_roundHalfEven (q : ℚ) :
    q.floor ≤ roundHalfEven q ∧ roundHalfEven q ≤ q.floor + 1 := by
  unfold roundHalfEven
  dsimp only
  split_ifs <;> omega

theorem roundHalfEven_mono {x y : ℚ} (h : x ≤ y) : roundHalfEven x ≤ roundHalfEven y := by
  have hfloor : x.floor ≤ y.floor := Rat.floor_monotone h
  rcases hfloor.lt_or_eq with hlt | heq
  · have hx := (floor_le_roundHalfEven x).2
    have hy := (floor_le_roundHalfEven y).1
    omega
  · unfold roundHalfEven
    dsimp only
    rw [heq]
    split_ifs <;> first | omega | linarith

/-- The error is half a unit at most. -/
theorem roundHalfEven_le (q : ℚ) : (roundHalfEven q : ℚ) ≤ q + 1 / 2 := by
  have hle : (q.floor : ℚ) ≤ q := Rat.floor_le q
  unfold roundHalfEven
  dsimp only
  split_ifs <;> (try push_cast) <;> linarith

/-! ### Rounding to a double -/

/-- The unit in the last place. -/
def unitOf (q : ℚ) : ℚ := powTwo (binaryExponent |q| - 52)

theorem unitOf_pos (q : ℚ) : 0 < unitOf q := powTwo_pos _

theorem roundDouble_eq {q : ℚ} (hq : q ≠ 0) :
    roundDouble q = roundHalfEven (q / unitOf q) * unitOf q := by
  rw [roundDouble, if_neg hq]
  rfl

/-- A positive rational has 53 bits above its last place. -/
theorem div_unitOf {q : ℚ} (hq : 0 < q) : 2 ^ 52 ≤ q / unitOf q ∧ q / unitOf q < 2 ^ 53 := by
  obtain ⟨hlo, hhi⟩ := binaryExponent_spec hq
  have hu := unitOf_pos q
  have hpow : ∀ n : ℕ, (2 : ℚ) ^ n * unitOf q = 2 ^ (binaryExponent q + (n - 52)) := by
    intro n
    rw [unitOf, abs_of_pos hq, powTwo_eq, ← zpow_natCast, ← zpow_add₀ two_ne_zero]
    congr 1
    ring
  constructor
  · rw [le_div_iff₀ hu, hpow]
    simpa using hlo
  · rw [div_lt_iff₀ hu, hpow]
    norm_num
    exact hhi

theorem roundHalfEven_div_unitOf {q : ℚ} (hq : 0 < q) :
    2 ^ 52 ≤ roundHalfEven (q / unitOf q) ∧ roundHalfEven (q / unitOf q) ≤ 2 ^ 53 := by
  obtain ⟨hlo, hhi⟩ := div_unitOf hq
  constructor
  · have h := roundHalfEven_mono (x := ((2 ^ 52 : ℤ) : ℚ)) (by push_cast; exact hlo)
    rwa [roundHalfEven_intCast] at h
  · have h := roundHalfEven_mono (y := ((2 ^ 53 : ℤ) : ℚ)) (by push_cast; exact hhi.le)
    rwa [roundHalfEven_intCast] at h

theorem roundDouble_pos {q : ℚ} (hq : 0 < q) : 0 < roundDouble q := by
  rw [roundDouble_eq hq.ne']
  refine mul_pos ?_ (unitOf_pos q)
  have := (roundHalfEven_div_unitOf hq).1
  exact_mod_cast lt_of_lt_of_le (by norm_num) this

theorem roundDouble_nonpos {q : ℚ} (hq : q ≤ 0) : roundDouble q ≤ 0 := by
  rcases hq.lt_or_eq with hlt | rfl
  · rw [roundDouble_eq hlt.ne]
    have hdiv : q / unitOf q ≤ ((0 : ℤ) : ℚ) := by
      push_cast
      exact div_nonpos_of_nonpos_of_nonneg hq (unitOf_pos q).le
    have h := roundHalfEven_mono hdiv
    rw [roundHalfEven_intCast] at h
    exact mul_nonpos_of_nonpos_of_nonneg (by exact_mod_cast h) (unitOf_pos q).le
  · exact (if_pos rfl).le

/-- **Doubles are left alone.** -/
theorem roundDouble_exact {m e : ℤ} (hm : |m| ≤ 2 ^ 53) :
    roundDouble (m * 2 ^ e) = m * 2 ^ e := by
  rcases eq_or_ne m 0 with rfl | h0
  · simp [roundDouble]
  have hpow : (0 : ℚ) < 2 ^ e := by positivity
  have hq : (m * 2 ^ e : ℚ) ≠ 0 := mul_ne_zero (by exact_mod_cast h0) hpow.ne'
  have habs : |(m * 2 ^ e : ℚ)| = (|m| : ℤ) * 2 ^ e := by
    rw [abs_mul, abs_of_pos hpow, Int.cast_abs]
  -- the exponent of the last place is `e` or smaller, or the number is a power of two
  suffices hint : ∃ n : ℤ, (m * 2 ^ e : ℚ) = n * unitOf (m * 2 ^ e) by
    obtain ⟨n, hn⟩ := hint
    have hdiv : (m * 2 ^ e : ℚ) / unitOf (m * 2 ^ e) = n := by
      rw [div_eq_iff (unitOf_pos _).ne']
      exact hn
    rw [roundDouble_eq hq, hdiv, roundHalfEven_intCast]
    exact hn.symm
  have hunit : unitOf (m * 2 ^ e : ℚ) = 2 ^ (binaryExponent |(m * 2 ^ e : ℚ)| - 52) := by
    rw [unitOf, powTwo_eq]
  rw [hunit]
  have hscale : ∀ {k : ℤ} {n : ℤ} {b : ℤ}, b - 52 ≤ k →
      (n * 2 ^ k : ℚ) = ((n * 2 ^ (k - (b - 52)).toNat : ℤ) : ℚ) * 2 ^ (b - 52) := by
    intro k n b hb
    push_cast
    rw [mul_assoc, ← zpow_natCast, Int.toNat_of_nonneg (by omega), ← zpow_add₀ two_ne_zero]
    congr 2
    ring
  rcases hm.lt_or_eq with hlt | heq
  · have hexp : binaryExponent |(m * 2 ^ e : ℚ)| < e + 53 := by
      refine binaryExponent_lt (abs_pos.2 hq) ?_
      rw [habs, add_comm, zpow_add₀ two_ne_zero]
      refine mul_lt_mul_of_pos_right ?_ hpow
      exact_mod_cast hlt
    exact ⟨_, hscale (by omega)⟩
  · obtain ⟨n, hn⟩ : ∃ n : ℤ, m = n * 2 := by
      rcases abs_choice m with h | h
      · exact ⟨2 ^ 52, by rw [← h, heq]; norm_num⟩
      · exact ⟨-2 ^ 52, by rw [← neg_neg m, ← h, heq]; norm_num⟩
    have hexp : binaryExponent |(m * 2 ^ e : ℚ)| < e + 54 := by
      refine binaryExponent_lt (abs_pos.2 hq) ?_
      rw [habs, add_comm, zpow_add₀ two_ne_zero, heq]
      refine mul_lt_mul_of_pos_right ?_ hpow
      norm_num
    have hval : (m * 2 ^ e : ℚ) = n * 2 ^ (e + 1) := by
      rw [hn, zpow_add₀ two_ne_zero]
      push_cast
      ring
    exact ⟨_, hval.trans (hscale (by omega))⟩

theorem roundDouble_natCast {n : ℕ} (hn : n ≤ 2 ^ 53) : roundDouble n = n := by
  have h := roundDouble_exact (m := n) (e := 0) (by rw [Nat.abs_cast]; exact_mod_cast hn)
  simpa using h

/-- **Rounding keeps the order.** -/
theorem roundDouble_mono {x y : ℚ} (hx : 0 ≤ x) (hxy : x ≤ y) : roundDouble x ≤ roundDouble y := by
  rcases hx.lt_or_eq with hpos | rfl
  · have hypos := hpos.trans_le hxy
    rw [roundDouble_eq hpos.ne', roundDouble_eq hypos.ne']
    rcases (binaryExponent_mono hpos hxy).lt_or_eq with hlt | heq
    · -- a power of two lies between the two
      have hstep : 2 * unitOf x ≤ unitOf y := by
        rw [unitOf, unitOf, abs_of_pos hpos, abs_of_pos hypos, powTwo_eq, powTwo_eq]
        calc (2 : ℚ) * 2 ^ (binaryExponent x - 52) = 2 ^ (binaryExponent x - 52 + 1) := by
              rw [zpow_add_one₀ two_ne_zero, mul_comm]
          _ ≤ 2 ^ (binaryExponent y - 52) := by
              refine (zpow_le_zpow_iff_right₀ one_lt_two).2 ?_
              omega
      have hxle : (roundHalfEven (x / unitOf x) : ℚ) ≤ 2 ^ 53 := by
        exact_mod_cast (roundHalfEven_div_unitOf hpos).2
      have hyge : (2 : ℚ) ^ 52 ≤ roundHalfEven (y / unitOf y) := by
        exact_mod_cast (roundHalfEven_div_unitOf hypos).1
      calc (roundHalfEven (x / unitOf x) : ℚ) * unitOf x ≤ 2 ^ 53 * unitOf x :=
            mul_le_mul_of_nonneg_right hxle (unitOf_pos x).le
        _ = 2 ^ 52 * (2 * unitOf x) := by ring
        _ ≤ 2 ^ 52 * unitOf y := by gcongr
        _ ≤ roundHalfEven (y / unitOf y) * unitOf y :=
            mul_le_mul_of_nonneg_right hyge (unitOf_pos y).le
    · have hunit : unitOf y = unitOf x := by
        rw [unitOf, unitOf, abs_of_pos hpos, abs_of_pos hypos, heq]
      rw [hunit]
      refine mul_le_mul_of_nonneg_right ?_ (unitOf_pos x).le
      exact_mod_cast roundHalfEven_mono ((div_le_div_iff_of_pos_right (unitOf_pos x)).2 hxy)
  · rw [roundDouble, if_pos rfl]
    exact roundDouble_nonneg hxy

/-- **The relative error.** -/
theorem roundDouble_le {q : ℚ} (hq : 0 ≤ q) : roundDouble q ≤ q * (1 + 1 / 2 ^ 53) := by
  rcases hq.lt_or_eq with hpos | rfl
  · have hu := unitOf_pos q
    have hunit : unitOf q ≤ q / 2 ^ 52 := by
      rw [le_div_iff₀ (by positivity), mul_comm]
      exact (le_div_iff₀ hu).1 (div_unitOf hpos).1
    rw [roundDouble_eq hpos.ne']
    calc (roundHalfEven (q / unitOf q) : ℚ) * unitOf q ≤ (q / unitOf q + 1 / 2) * unitOf q :=
          mul_le_mul_of_nonneg_right (roundHalfEven_le _) hu.le
      _ = q + unitOf q / 2 := by
          field_simp
      _ ≤ q + q / 2 ^ 52 / 2 := by gcongr
      _ = q * (1 + 1 / 2 ^ 53) := by ring
  · simp [roundDouble]

/-- **Subtracting one makes a double smaller.** -/
theorem roundDouble_sub_one_lt {x : ℚ} (hx : 0 < x) (hlt : x < 2 ^ 53) :
    roundDouble (roundDouble x - 1) < roundDouble x := by
  have hpos := roundDouble_pos hx
  rcases le_total (roundDouble x) 1 with hle | hge
  · exact (roundDouble_nonpos (by linarith)).trans_lt hpos
  · -- one is a multiple of the last place
    have hexp := binaryExponent_lt (e := 53) hx (by exact_mod_cast hlt)
    obtain ⟨k, hk⟩ : ∃ k : ℕ, binaryExponent x - 52 = -(k : ℤ) :=
      ⟨(52 - binaryExponent x).toNat, by omega⟩
    have hval : roundDouble x = roundHalfEven (x / unitOf x) * 2 ^ (-(k : ℤ)) := by
      have hunit : unitOf x = 2 ^ (-(k : ℤ)) := by
        rw [unitOf, abs_of_pos hx, powTwo_eq, hk]
      rw [roundDouble_eq hx.ne', ← hunit]
    have hone : (1 : ℚ) = ((2 ^ k : ℤ) : ℚ) * 2 ^ (-(k : ℤ)) := by
      push_cast
      rw [← zpow_natCast, ← zpow_add₀ two_ne_zero]
      simp
    have hsub : roundDouble x - 1 =
        ((roundHalfEven (x / unitOf x) - 2 ^ k : ℤ) : ℚ) * 2 ^ (-(k : ℤ)) := by
      rw [hval, Int.cast_sub, sub_mul, ← hone]
    have hnonneg : (0 : ℤ) ≤ roundHalfEven (x / unitOf x) - 2 ^ k := by
      have h0 : (0 : ℚ) ≤ ((roundHalfEven (x / unitOf x) - 2 ^ k : ℤ) : ℚ) * 2 ^ (-(k : ℤ)) := by
        rw [← hsub]
        linarith
      exact_mod_cast nonneg_of_mul_nonneg_left h0 (by positivity)
    have hbound : |roundHalfEven (x / unitOf x) - 2 ^ k| ≤ 2 ^ 53 := by
      rw [abs_of_nonneg hnonneg]
      have hle := (roundHalfEven_div_unitOf hx).2
      have hk0 : (0 : ℤ) < 2 ^ k := by positivity
      omega
    rw [hsub, roundDouble_exact hbound, ← hsub]
    linarith
