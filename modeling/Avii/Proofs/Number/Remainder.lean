import Avii.Proofs.Number.Rounding
import Avii.Value.Operator
import Mathlib.Data.Rat.Floor

/-!
# The remainder

The remainder of one finite number by another is exact (`remainder_exact`): it is what is left of
the dividend after the divisor is taken from it as often as their quotient says, cut off toward
zero, however many binary places the two are apart.

That the remainder of the units is again a number rests on the grid of magnitudes. A divisor on a
higher scale than the dividend is larger than it, and the dividend is left as it is. Otherwise both
are multiples of the spacing of the divisor, so the remainder is one, and it is below the divisor
(`exists_unitsOf_mod`). The magnitude of a number of units that has one is found again
(`magnitudeOf_unitsOf`).
-/

namespace Avii.Binary64

/-! ## Remainders of units -/

/-- Everything on a scale is a magnitude; what is below the start of the scale has its place on a
lower one. -/
theorem exists_unitsOf {f : Nat} (hf : f ≤ 2 * binade) (s : Nat) : ∃ m, unitsOf m = f * 2 ^ s := by
  induction s generalizing f with
  | zero => exact ⟨0 * binade + f, unitsOf_grid hf (.inl rfl)⟩
  | succ s ih =>
    rcases Nat.lt_or_ge f binade with hlow | hhigh
    · obtain ⟨m, hm⟩ := ih (f := 2 * f) (by omega)
      refine ⟨m, ?_⟩
      rw [hm, Nat.pow_succ]
      ring
    · exact ⟨(s + 1) * binade + f, unitsOf_grid hf (.inr hhigh)⟩

/-- What is left of one magnitude by another is a magnitude. -/
theorem exists_unitsOf_mod (k m : Nat) : ∃ r, unitsOf r = unitsOf k % unitsOf m := by
  rcases Nat.lt_or_ge (unitsOf k) (unitsOf m) with hlt | hge
  · exact ⟨k, (Nat.mod_eq_of_lt hlt).symm⟩
  have hmk : m ≤ k := unitsOf_strictMono.le_iff_le.mp hge
  obtain ⟨s, f, rfl, hf, hs⟩ := exists_grid k
  obtain ⟨t, g, rfl, hg, ht⟩ := exists_grid m
  have hscale : t ≤ s := by
    rw [binade_eq] at *
    omega
  obtain ⟨j, rfl⟩ := Nat.exists_eq_add_of_le' hscale
  have hspacing : unitsOf ((j + t) * binade + f) = f * 2 ^ j * 2 ^ t := by
    rw [unitsOf_grid (Nat.le_of_lt hf) hs, Nat.pow_add, Nat.mul_assoc]
  rw [hspacing, unitsOf_grid (Nat.le_of_lt hg) ht, Nat.mul_mod_mul_right]
  rcases Nat.eq_zero_or_pos g with rfl | hpos
  · exact ⟨_, by rw [hspacing, Nat.mod_zero]⟩
  · exact exists_unitsOf (Nat.le_of_lt (Nat.lt_trans (Nat.mod_lt _ hpos) hg)) t

/-- The scale of a number of units is no higher than one on which it has at most 53 places. -/
theorem scaleFor_le {f s : Nat} (hf : f < 2 * binade) : scaleFor (f * 2 ^ s) ≤ s := by
  by_cases hzero : f * 2 ^ s = 0
  · rw [hzero]
    exact Nat.zero_le s
  have hbound : f * 2 ^ s < 2 ^ (53 + s) := by
    rw [Nat.pow_add]
    exact Nat.mul_lt_mul_of_pos_right hf (Nat.two_pow_pos s)
  have hlog := (Nat.log2_lt hzero).mpr hbound
  unfold scaleFor
  omega

theorem unitsOf_magnitudeOf (m : Nat) : unitsOf (magnitudeOf (unitsOf m)) = unitsOf m := by
  obtain ⟨s, f, rfl, hf, hs⟩ := exists_grid m
  rw [unitsOf_grid (Nat.le_of_lt hf) hs]
  have hscale := scaleFor_le (s := s) hf
  have hbelow := scaleFor_lt (f * 2 ^ s)
  have habove := @le_of_scaleFor (f * 2 ^ s)
  have hdvd : 2 ^ scaleFor (f * 2 ^ s) ∣ f * 2 ^ s :=
    Nat.dvd_mul_left_of_dvd (Nat.pow_dvd_pow 2 hscale) f
  unfold magnitudeOf
  generalize scaleFor (f * 2 ^ s) = scale at *
  generalize f * 2 ^ s = u at *
  rw [Nat.pow_eq, unitsOf_grid, Nat.div_mul_cancel hdvd]
  · exact Nat.le_of_lt (Nat.div_lt_of_lt_mul (Nat.mul_comm _ _ ▸ hbelow))
  · by_cases hzero : scale = 0
    · exact .inl hzero
    · exact .inr ((Nat.le_div_iff_mul_le (Nat.two_pow_pos scale)).mpr (habove hzero))

/-- The magnitude of a number of units that has one is that magnitude. -/
theorem magnitudeOf_unitsOf (m : Nat) : magnitudeOf (unitsOf m) = m :=
  unitsOf_strictMono.injective (unitsOf_magnitudeOf m)

/-! ## Quotients cut off toward zero -/

/-- The whole part of a number, cut off toward zero. -/
def towardZero (q : ℚ) : ℤ :=
  if 0 ≤ q then ⌊q⌋ else ⌈q⌉

theorem towardZero_neg (q : ℚ) : towardZero (-q) = -towardZero q := by
  unfold towardZero
  rcases lt_trichotomy q 0 with hneg | rfl | hpos
  · rw [if_pos (by linarith), if_neg (by linarith), Int.floor_neg]
  · simp
  · rw [if_neg (by linarith), if_pos (by linarith), Int.ceil_neg]

/-- The quotient of two magnitudes, cut off, is that of their units. -/
theorem towardZero_valueOf (k m : Nat) :
    towardZero (valueOf k / valueOf m) = (unitsOf k / unitsOf m : Nat) := by
  have hratio : valueOf k / valueOf m = unitsOf k / unitsOf m :=
    div_div_div_cancel_right₀ unitsInOne_pos_rat.ne' _ _
  rw [towardZero, if_pos (div_nonneg (valueOf_nonneg k) (valueOf_nonneg m)), hratio,
    Rat.floor_natCast_div_natCast]
  rfl

theorem withSign_sub (b : Bool) (p q : ℚ) : withSign b (p - q) = withSign b p - withSign b q := by
  unfold withSign
  split
  next => exact neg_sub' p q
  next => rfl

/-- With signs, the quotient has the sign that differing signs make, and what is taken from the
dividend has the sign of the dividend. -/
theorem mul_towardZero (b c : Bool) (k m : Nat) :
    withSign c (valueOf m) * towardZero (withSign b (valueOf k) / withSign c (valueOf m)) =
      withSign b (valueOf m * (unitsOf k / unitsOf m : Nat)) := by
  have hquotient := towardZero_valueOf k m
  cases b <;> cases c <;>
    simp only [withSign, if_true, if_false, Bool.false_eq_true, div_neg, neg_div, neg_neg,
      towardZero_neg, hquotient, Int.cast_neg, Int.cast_natCast, neg_mul, mul_neg]

/-- The units that are left are those of the dividend less the divisor so many times. -/
theorem valueOf_mod {k m r : Nat} (h : unitsOf r = unitsOf k % unitsOf m) :
    valueOf r = valueOf k - valueOf m * (unitsOf k / unitsOf m : Nat) := by
  have hunits : (unitsOf m * (unitsOf k / unitsOf m : Nat) + unitsOf r : ℚ) = unitsOf k := by
    rw [h]
    exact_mod_cast Nat.div_add_mod (unitsOf k) (unitsOf m)
  rw [valueOf, valueOf, valueOf, ← hunits, add_div]
  ring

/-! ## The remainder of numbers -/

variable {x y : Binary64}

theorem rem_magnitude (hx : x.isFinite = true) (hy : y.isFinite = true) (hzero : y.isZero = false) :
    (x.rem y).isNegative = x.isNegative ∧ (x.rem y).magnitude < y.magnitude ∧
      unitsOf (x.rem y).magnitude = unitsOf x.magnitude % unitsOf y.magnitude := by
  have hx' : x.magnitude < infinity := of_decide_eq_true hx
  have hy' : y.magnitude < infinity := of_decide_eq_true hy
  have hy0 : 0 < y.magnitude := Nat.pos_of_ne_zero (of_decide_eq_false hzero)
  obtain ⟨r, hr⟩ := exists_unitsOf_mod x.magnitude y.magnitude
  have hpos : 0 < unitsOf y.magnitude :=
    Nat.lt_of_le_of_lt (Nat.zero_le _) (unitsOf_strictMono hy0)
  have hlt : r < y.magnitude := by
    refine unitsOf_strictMono.lt_iff_lt.mp ?_
    rw [hr]
    exact Nat.mod_lt _ hpos
  have hrem : x.rem y = ofMagnitude x.isNegative r := by
    have hnumbers : (x.isNaN || y.isNaN || x.isInfinite || y.isZero) = false := by
      rw [isNaN_eq_false_iff.mpr (Nat.le_of_lt hx'), isNaN_eq_false_iff.mpr (Nat.le_of_lt hy'),
        hzero, show x.isInfinite = false from decide_eq_false (Nat.ne_of_lt hx')]
      rfl
    have hinfinite : y.isInfinite = false := decide_eq_false (Nat.ne_of_lt hy')
    rw [rem, hnumbers, hinfinite, if_neg Bool.false_ne_true, if_neg Bool.false_ne_true, units,
      units, ← hr, magnitudeOf_unitsOf]
  obtain ⟨hsign, hmagnitude⟩ := ofMagnitude_parts x.isNegative
    (Nat.lt_trans hlt (Nat.lt_trans hy' infinity_lt_signPlace))
  rw [hrem, hsign, hmagnitude]
  exact ⟨rfl, hlt, hr⟩

theorem abs_value (x : Binary64) : |x.value| = valueOf x.magnitude := by
  have hvalue := valueOf_nonneg x.magnitude
  unfold value withSign
  split
  next => rw [abs_neg, abs_of_nonneg hvalue]
  next => exact abs_of_nonneg hvalue

end Binary64

open Binary64 (towardZero)

theorem Value.binary_rem {x y : Binary64} (hx : x.isFinite = true) (hzero : y.isZero = false) :
    Value.binary "%" (.number x) (.number y) = .ok (.number (x.rem y)) := by
  have hx' : x.isInfinite = false := decide_eq_false (Nat.ne_of_lt (of_decide_eq_true hx))
  show (Arithmetic.rem.apply x y).map Value.number = _
  simp [Arithmetic.apply, hzero, hx', Except.map]

/-- The remainder of finite numbers is exact: it is the dividend less the divisor times their
quotient, cut off toward zero. It is smaller than the divisor and has the sign of the dividend, also
where it is zero. -/
theorem remainder_exact {x y : Binary64} (hx : x.isFinite = true) (hy : y.isFinite = true)
    (hzero : y.isZero = false) :
    ∃ r : Binary64, Value.binary "%" (.number x) (.number y) = .ok (.number r) ∧
      r.isFinite = true ∧ r.value = x.value - y.value * towardZero (x.value / y.value) ∧
      |r.value| < |y.value| ∧ r.isNegative = x.isNegative := by
  obtain ⟨hsign, hlt, hunits⟩ := Binary64.rem_magnitude hx hy hzero
  refine ⟨x.rem y, Value.binary_rem hx hzero, ?_, ?_, ?_, hsign⟩
  · exact decide_eq_true (Nat.lt_trans hlt (of_decide_eq_true hy))
  · rw [Binary64.value, Binary64.value, Binary64.value, Binary64.mul_towardZero, hsign,
      Binary64.valueOf_mod hunits, Binary64.withSign_sub]
  · rw [Binary64.abs_value, Binary64.abs_value]
    exact Binary64.valueOf_strictMono hlt

/-- Two units are left of the least finite number by three units, below zero. -/
theorem remainder_exact_units :
    let x : Binary64 := ⟨0xFFEFFFFFFFFFFFFF⟩
    let y : Binary64 := ⟨3⟩
    let r : Binary64 := ⟨0x8000000000000002⟩
    Value.binary "%" (.number x) (.number y) = .ok (.number r) ∧
      r.value = x.value - y.value * towardZero (x.value / y.value) ∧
      |r.value| < |y.value| ∧ r.isNegative = x.isNegative := by
  intro x y r
  obtain ⟨r', hr', -, hvalue, hlt, hsign⟩ :=
    remainder_exact (x := x) (y := y) (by decide) (by decide) (by decide)
  have hrem : x.rem y = r := by decide +kernel
  have hbinary := Value.binary_rem (x := x) (y := y) (by decide) (by decide)
  rw [hrem] at hbinary
  cases hr'.symm.trans hbinary
  exact ⟨hbinary, hvalue, hlt, hsign⟩

end Avii
