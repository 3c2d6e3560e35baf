import Avii.Number.Binary64
import Mathlib.Algebra.Order.Field.Rat
import Mathlib.Data.Nat.Cast.Order.Field
import Mathlib.Order.Monotone.Basic
import Mathlib.Tactic.Linarith
import Mathlib.Tactic.Positivity
import Mathlib.Tactic.Ring

/-!
# Rounding to nearest

A decimal is read as the number nearest to it. `IsNearest q m` says so without the way in which the
number is found: no magnitude is nearer to the rational `q` than `m`, and `m` is even if another one
is as near. There is only one such magnitude (`IsNearest.unique`), a magnitude is nearest to the
number that it stands for (`isNearest_valueOf`), and `nearestDecimal` finds it for every decimal
(`nearestDecimal_isNearest`).

All of it rests on the spacing of the magnitudes (`unitsOf_grid`): on every scale they are whole
multiples of a power of two, and each scale starts where the one below it ends.
-/

namespace Avii.Binary64

/-! ## The grid of magnitudes -/

theorem binade_eq : binade = 4503599627370496 := rfl

/-- A magnitude on a scale, up to the start of the next scale but one. -/
theorem unitsOf_grid {s f : Nat} (hf : f ≤ 2 * binade) (hs : s = 0 ∨ binade ≤ f) :
    unitsOf (s * binade + f) = f * 2 ^ s := by
  simp only [binade_eq] at hf hs ⊢
  rcases Nat.lt_or_eq_of_le hf with hlt | rfl
  · have hscale : scaleOf (s * 4503599627370496 + f) = s := by
      unfold scaleOf
      rw [binade_eq]
      omega
    rw [unitsOf, hscale, binade_eq, Nat.add_sub_cancel_left, Nat.pow_eq]
  · have hscale : scaleOf (s * 4503599627370496 + 2 * 4503599627370496) = s + 1 := by
      unfold scaleOf
      rw [binade_eq]
      omega
    have hrest : s * 4503599627370496 + 2 * 4503599627370496 - (s + 1) * 4503599627370496
        = 4503599627370496 := by omega
    rw [unitsOf, hscale, binade_eq, hrest, Nat.pow_eq, Nat.pow_succ]
    ring

/-- Every magnitude has a place on a scale. -/
theorem exists_grid (m : Nat) :
    ∃ s f, m = s * binade + f ∧ f < 2 * binade ∧ (s = 0 ∨ binade ≤ f) := by
  refine ⟨scaleOf m, m - scaleOf m * binade, ?_⟩
  unfold scaleOf
  rw [binade_eq]
  omega

/-- Larger magnitudes stand for larger numbers. -/
theorem unitsOf_strictMono : StrictMono unitsOf := by
  refine strictMono_nat_of_lt_succ fun m => ?_
  obtain ⟨s, f, rfl, hf, hs⟩ := exists_grid m
  rw [Nat.add_assoc, unitsOf_grid (Nat.le_of_lt hf) hs,
    unitsOf_grid hf (hs.imp_right fun h => Nat.le_succ_of_le h)]
  exact Nat.mul_lt_mul_of_pos_right (Nat.lt_succ_self f) (Nat.two_pow_pos s)

/-! ## Quotients -/

/-- A quotient is rounded by half its divisor at most, and a half goes to the even neighbour. -/
structure Rounds (n d r : Nat) : Prop where
  below : 2 * r * d ≤ 2 * n + d
  above : 2 * n ≤ 2 * r * d + d
  evenBelow : 2 * r * d = 2 * n + d → Even r
  evenAbove : 2 * n = 2 * r * d + d → Even r

/-- The rounded quotient is a rounding to nearest, ties to even. -/
theorem roundDiv_rounds (n : Nat) {d : Nat} (hd : 0 < d) : Rounds n d (roundDiv n d) := by
  have hn := Nat.div_add_mod n d
  have hr := Nat.mod_lt n hd
  have hq : 2 * (n / d) * d = 2 * (d * (n / d)) := by ring
  have hq' : 2 * (n / d + 1) * d = 2 * (d * (n / d)) + 2 * d := by ring
  unfold roundDiv
  dsimp only
  split
  next h => exact ⟨by omega, by omega, fun _ => Nat.even_iff.mpr (by omega), by omega⟩
  next h => exact ⟨by omega, by omega, by omega, fun _ => Nat.even_iff.mpr (by omega)⟩

/-- What is at most a whole number is rounded to that number at most. -/
theorem Rounds.le {n d r k : Nat} (h : Rounds n d r) (hd : 0 < d) (hk : n ≤ k * d) : r ≤ k := by
  have htwice : 2 * r * d ≤ (2 * k + 1) * d := by
    have := h.below
    have hexpand : (2 * k + 1) * d = 2 * (k * d) + d := by ring
    omega
  have := Nat.le_of_mul_le_mul_right htwice hd
  omega

/-- What is at least a whole number is rounded to that number at least. -/
theorem Rounds.ge {n d r k : Nat} (h : Rounds n d r) (hd : 0 < d) (hk : k * d ≤ n) : k ≤ r := by
  have htwice : 2 * k * d ≤ (2 * r + 1) * d := by
    have := h.above
    have hexpand : (2 * r + 1) * d = 2 * r * d + d := by ring
    have hexpand' : 2 * k * d = 2 * (k * d) := by ring
    omega
  have := Nat.le_of_mul_le_mul_right htwice hd
  omega

/-! ## What it is to be nearest -/

/-- The number that a magnitude stands for. That of the infinities stands for the power of two past
the finite numbers. -/
def valueOf (m : Nat) : ℚ :=
  unitsOf m / unitsInOne

/-- The magnitude nearest to a number, an even one if two are equally near. -/
structure IsNearest (q : ℚ) (m : Nat) : Prop where
  le : m ≤ infinity
  near : ∀ k ≤ infinity, |valueOf m - q| ≤ |valueOf k - q|
  even : ∀ k ≤ infinity, k ≠ m → |valueOf m - q| = |valueOf k - q| → Even m

/-- One is a power of two of the smallest units. -/
theorem unitsInOne_eq : unitsInOne = 2 ^ 1074 := by
  unfold unitsInOne
  generalize 1074 = n
  rfl

theorem unitsInOne_pos : 0 < unitsInOne := by
  unfold unitsInOne
  generalize 1074 = n
  exact Nat.two_pow_pos n

theorem unitsInOne_pos_rat : (0 : ℚ) < unitsInOne := by
  exact_mod_cast unitsInOne_pos

/-- Larger magnitudes stand for larger numbers. -/
theorem valueOf_strictMono : StrictMono valueOf := by
  intro k m h
  have hunits : (unitsOf k : ℚ) < unitsOf m := by exact_mod_cast unitsOf_strictMono h
  exact div_lt_div_of_pos_right hunits unitsInOne_pos_rat

theorem valueOf_zero : valueOf 0 = 0 := by
  have hunits : unitsOf 0 = 0 := rfl
  rw [valueOf, hunits, Nat.cast_zero, zero_div]

theorem valueOf_nonneg (m : Nat) : 0 ≤ valueOf m :=
  valueOf_zero ▸ valueOf_strictMono.monotone (Nat.zero_le m)

/-- Past the midpoint of two numbers the larger one is nearer. -/
theorem abs_le_of_midpoint {a b q : ℚ} (hab : a < b) (h : a + b ≤ 2 * q) :
    |b - q| ≤ |a - q| ∧ (|b - q| = |a - q| → a + b = 2 * q) := by
  have ha : |a - q| = q - a := by
    rw [abs_sub_comm]
    exact abs_of_nonneg (by linarith)
  rw [ha]
  rcases abs_cases (b - q) with ⟨hb, -⟩ | ⟨hb, -⟩
  · rw [hb]
    exact ⟨by linarith, fun heq => by linarith⟩
  · rw [hb]
    exact ⟨by linarith, fun heq => by linarith⟩

/-- Before the midpoint of two numbers the smaller one is nearer. -/
theorem abs_le_of_midpoint' {a b q : ℚ} (hab : a < b) (h : 2 * q ≤ a + b) :
    |a - q| ≤ |b - q| ∧ (|a - q| = |b - q| → 2 * q = a + b) := by
  have := abs_le_of_midpoint (neg_lt_neg hab) (q := -q) (by linarith)
  rw [neg_sub_neg, neg_sub_neg, abs_sub_comm q a, abs_sub_comm q b] at this
  exact ⟨this.1, fun heq => by linarith [this.2 heq]⟩

/-- It is enough to compare with the two neighbours: a number is nearest that lies between the
midpoints to them. -/
theorem IsNearest.of_midpoints {q : ℚ} {m : Nat} (hle : m ≤ infinity)
    (hbelow : ∀ k, k + 1 = m → valueOf k + valueOf m ≤ 2 * q ∧
      (valueOf k + valueOf m = 2 * q → Even m))
    (habove : m < infinity → 2 * q ≤ valueOf m + valueOf (m + 1) ∧
      (2 * q = valueOf m + valueOf (m + 1) → Even m)) : IsNearest q m := by
  have hnear : ∀ k ≤ infinity, k ≠ m → |valueOf m - q| ≤ |valueOf k - q| ∧
      (|valueOf m - q| = |valueOf k - q| → Even m) := by
    intro k hk hkm
    rcases Nat.lt_or_gt_of_ne hkm with hlt | hgt
    · obtain ⟨j, rfl⟩ := Nat.exists_eq_add_of_lt hlt
      obtain ⟨hmid, heven⟩ := hbelow (k + j) rfl
      have hkj : valueOf k ≤ valueOf (k + j) := valueOf_strictMono.monotone (Nat.le_add_right k j)
      obtain ⟨hcloser, htie⟩ := abs_le_of_midpoint (valueOf_strictMono hlt) (q := q) (by linarith)
      exact ⟨hcloser, fun heq => heven (by linarith [htie heq])⟩
    · obtain ⟨hmid, heven⟩ := habove (Nat.lt_of_lt_of_le hgt hk)
      have hkj : valueOf (m + 1) ≤ valueOf k := valueOf_strictMono.monotone hgt
      obtain ⟨hcloser, htie⟩ := abs_le_of_midpoint' (valueOf_strictMono hgt) (q := q) (by linarith)
      exact ⟨hcloser, fun heq => heven (by linarith [htie heq])⟩
  refine ⟨hle, fun k hk => ?_, fun k hk hne => (hnear k hk hne).2⟩
  by_cases hkm : k = m
  · rw [hkm]
  · exact (hnear k hk hkm).1

/-! ## Rounding finds the nearest number -/

/-- At the scale for it, a number of units is below two binades. -/
theorem scaleFor_lt (u : Nat) : u < 2 * binade * 2 ^ scaleFor u := by
  have hbound : u < 2 ^ (u.log2 + 1) := Nat.lt_log2_self
  have hpow : 2 ^ (u.log2 + 1) ≤ 2 ^ (53 + scaleFor u) :=
    Nat.pow_le_pow_right (by omega) (by unfold scaleFor; omega)
  calc u < 2 ^ (53 + scaleFor u) := Nat.lt_of_lt_of_le hbound hpow
    _ = 2 * binade * 2 ^ scaleFor u := by rw [Nat.pow_add, binade_eq]

/-- Unless it is on the finest grid, it is at least one binade there. -/
theorem le_of_scaleFor {u : Nat} (h : scaleFor u ≠ 0) : binade * 2 ^ scaleFor u ≤ u := by
  have hlog : 52 + scaleFor u = u.log2 := by
    unfold scaleFor at h ⊢
    omega
  have hpow : 2 ^ (52 + scaleFor u) ≤ u := by
    rw [hlog]
    refine Nat.log2_self_le ?_
    rintro rfl
    exact h (by decide)
  calc binade * 2 ^ scaleFor u = 2 ^ (52 + scaleFor u) := by rw [Nat.pow_add, binade_eq]
    _ ≤ u := hpow

/-- A quotient of units lies between the midpoints to the neighbours of a magnitude, on one of them
only if the magnitude is even. -/
structure Between (u d m : Nat) : Prop where
  below : ∀ k, k + 1 = m → (unitsOf k + unitsOf m) * d ≤ 2 * u
  above : 2 * u ≤ (unitsOf m + unitsOf (m + 1)) * d
  evenBelow : ∀ k, k + 1 = m → (unitsOf k + unitsOf m) * d = 2 * u → Even m
  evenAbove : 2 * u = (unitsOf m + unitsOf (m + 1)) * d → Even m

section Scale

variable {u d s r : Nat}

/-- On the grid of a scale, the units of a magnitude are a multiple of its spacing. -/
theorem unitsOf_grid_mul {f : Nat} (hf : f ≤ 2 * binade) (hs : s = 0 ∨ binade ≤ f) (d : Nat) :
    unitsOf (s * binade + f) * d = f * (d * 2 ^ s) := by
  rw [unitsOf_grid hf hs]
  ring

/-- A quotient that is rounded on a scale is past the midpoint to the magnitude below. At the start
of the scale that one is on another scale, but there the quotient is past the magnitude itself. -/
theorem Rounds.past_midpoint (h : Rounds u (d * 2 ^ s) r) (hd : 0 < d)
    (hlow : s = 0 ∨ binade * (d * 2 ^ s) ≤ u) (hr : r ≤ 2 * binade) (hs : s = 0 ∨ binade ≤ r)
    {k : Nat} (hk : k + 1 = s * binade + r) :
    (unitsOf k + unitsOf (s * binade + r)) * d ≤ 2 * u ∧
      ((unitsOf k + unitsOf (s * binade + r)) * d = 2 * u → Even r) := by
  have hunits := unitsOf_grid_mul hr hs d
  have hstep : unitsOf k * d < unitsOf (s * binade + r) * d :=
    Nat.mul_lt_mul_of_pos_right (unitsOf_strictMono (by omega)) hd
  rw [Nat.add_mul]
  rcases Nat.lt_or_ge u (r * (d * 2 ^ s)) with hlt | hge
  · have hinside : s = 0 ∨ binade < r :=
      hlow.imp_right fun hu => Nat.lt_of_mul_lt_mul_right (Nat.lt_of_le_of_lt hu hlt)
    obtain ⟨p, rfl⟩ : ∃ p, r = p + 1 := by
      refine Nat.exists_eq_add_one.mpr (Nat.pos_of_ne_zero ?_)
      rintro rfl
      omega
    obtain rfl : k = s * binade + p := by omega
    have hk := unitsOf_grid_mul (s := s) (f := p) (by omega) (by omega) d
    have hsum : p * (d * 2 ^ s) + (p + 1) * (d * 2 ^ s) + d * 2 ^ s
        = 2 * (p + 1) * (d * 2 ^ s) := by ring
    have := h.below
    rw [hunits, hk]
    exact ⟨by omega, fun heq => h.evenBelow (by omega)⟩
  · exact ⟨by omega, fun heq => by omega⟩

/-- It is before the midpoint to the magnitude above. At the end of the scale it is before the
magnitude itself. -/
theorem Rounds.before_midpoint (h : Rounds u (d * 2 ^ s) r) (hd : 0 < d)
    (hhigh : u ≤ 2 * binade * (d * 2 ^ s)) (hr : r ≤ 2 * binade) (hs : s = 0 ∨ binade ≤ r) :
    2 * u ≤ (unitsOf (s * binade + r) + unitsOf (s * binade + r + 1)) * d ∧
      (2 * u = (unitsOf (s * binade + r) + unitsOf (s * binade + r + 1)) * d → Even r) := by
  have hunits := unitsOf_grid_mul hr hs d
  have hstep : unitsOf (s * binade + r) * d < unitsOf (s * binade + r + 1) * d :=
    Nat.mul_lt_mul_of_pos_right (unitsOf_strictMono (Nat.lt_succ_self _)) hd
  rw [Nat.add_mul]
  rcases Nat.lt_or_ge (r * (d * 2 ^ s)) u with hlt | hge
  · have hinside : r < 2 * binade := Nat.lt_of_mul_lt_mul_right (Nat.lt_of_lt_of_le hlt hhigh)
    have hk := unitsOf_grid_mul (s := s) (f := r + 1) hinside (by omega) d
    have hsum : r * (d * 2 ^ s) + (r + 1) * (d * 2 ^ s)
        = 2 * r * (d * 2 ^ s) + d * 2 ^ s := by ring
    have := h.above
    rw [hunits, Nat.add_assoc, hk]
    exact ⟨by omega, fun heq => h.evenAbove (by omega)⟩
  · exact ⟨by omega, fun heq => by omega⟩

/-- A quotient rounded on the grid of its scale lies between the midpoints around the result. -/
theorem Rounds.between (h : Rounds u (d * 2 ^ s) r) (hd : 0 < d)
    (hlow : s = 0 ∨ binade * (d * 2 ^ s) ≤ u) (hhigh : u ≤ 2 * binade * (d * 2 ^ s)) :
    Between u d (s * binade + r) := by
  have hD : 0 < d * 2 ^ s := Nat.mul_pos hd (Nat.two_pow_pos s)
  have hr : r ≤ 2 * binade := h.le hD hhigh
  have hs : s = 0 ∨ binade ≤ r := hlow.imp_right (h.ge hD)
  have heven : Even r → Even (s * binade + r) :=
    Even.add (Nat.even_mul.mpr (.inr (by rw [binade_eq]; decide)))
  exact ⟨fun k hk => (h.past_midpoint hd hlow hr hs hk).1, (h.before_midpoint hd hhigh hr hs).1,
    fun k hk heq => heven ((h.past_midpoint hd hlow hr hs hk).2 heq),
    fun heq => heven ((h.before_midpoint hd hhigh hr hs).2 heq)⟩

end Scale

/-- Twice a quotient and the sum of two magnitudes are compared in units. -/
theorem sum_valueOf (j k : Nat) (n : Nat) {d : Nat} (hd : 0 < d) :
    (valueOf j + valueOf k ≤ 2 * ((n : ℚ) / d) ↔
      (unitsOf j + unitsOf k) * d ≤ 2 * (n * unitsInOne)) ∧
    (2 * ((n : ℚ) / d) ≤ valueOf j + valueOf k ↔
      2 * (n * unitsInOne) ≤ (unitsOf j + unitsOf k) * d) := by
  have hd' : (0 : ℚ) < d := by exact_mod_cast hd
  have hsum : valueOf j + valueOf k = ((unitsOf j + unitsOf k : Nat) : ℚ) / unitsInOne := by
    rw [Nat.cast_add, add_div]
    rfl
  have htwice : 2 * ((n : ℚ) / d) = ((2 * n : Nat) : ℚ) / d := by
    rw [Nat.cast_mul, mul_div_assoc]
    rfl
  rw [hsum, htwice, div_le_div_iff₀ unitsInOne_pos_rat hd', div_le_div_iff₀ hd' unitsInOne_pos_rat,
    ← Nat.mul_assoc]
  exact ⟨by exact_mod_cast Iff.rfl, by exact_mod_cast Iff.rfl⟩

/-- What lies between the midpoints of a magnitude is rounded to it, or to infinity if the magnitude
is beyond it. -/
theorem Between.isNearest {n d m : Nat} (h : Between (n * unitsInOne) d m) (hd : 0 < d) :
    IsNearest ((n : ℚ) / d) (min infinity m) := by
  have hsum := fun j k => sum_valueOf j k n hd
  rcases Nat.lt_or_ge infinity m with hm | hm
  · rw [Nat.min_eq_left (Nat.le_of_lt hm)]
    refine .of_midpoints (Nat.le_refl _) (fun k hk => ?_) fun hlt => absurd hlt (Nat.lt_irrefl _)
    -- both magnitudes are below the midpoint to `m`
    have hbelow := (hsum (m - 1) m).1.mpr (h.below (m - 1) (by omega))
    have hk' : valueOf k < valueOf (m - 1) := valueOf_strictMono (by omega)
    have hm' : valueOf infinity < valueOf m := valueOf_strictMono hm
    exact ⟨by linarith, fun heq => by linarith⟩
  · rw [Nat.min_eq_right hm]
    refine .of_midpoints hm (fun k hk => ⟨(hsum k m).1.mpr (h.below k hk), fun heq => ?_⟩)
      fun _ => ⟨(hsum m (m + 1)).2.mpr h.above, fun heq => ?_⟩
    · exact h.evenBelow k hk
        (Nat.le_antisymm ((hsum k m).1.mp heq.le) ((hsum k m).2.mp heq.ge))
    · exact h.evenAbove
        (Nat.le_antisymm ((hsum m (m + 1)).2.mp heq.le) ((hsum m (m + 1)).1.mp heq.ge))

/-- The magnitude that is computed for a quotient is the nearest one. -/
theorem nearest_isNearest (n : Nat) {d : Nat} (hd : 0 < d) :
    IsNearest ((n : ℚ) / d) (nearest n d) := by
  have hbetween : Between (n * unitsInOne) d (scaleFor (n * unitsInOne / d) * binade +
      roundDiv (n * unitsInOne) (d * 2 ^ scaleFor (n * unitsInOne / d))) := by
    generalize n * unitsInOne = u
    have hfloor : u / d * d ≤ u := Nat.div_mul_le_self u d
    have hceil : u < (u / d + 1) * d := (Nat.div_lt_iff_lt_mul hd).mp (Nat.lt_succ_self _)
    refine (roundDiv_rounds u (Nat.mul_pos hd (Nat.two_pow_pos _))).between hd ?_ ?_
    · by_cases hs : scaleFor (u / d) = 0
      · exact .inl hs
      · right
        calc binade * (d * 2 ^ scaleFor (u / d)) = binade * 2 ^ scaleFor (u / d) * d := by ring
          _ ≤ u / d * d := Nat.mul_le_mul_right d (le_of_scaleFor hs)
          _ ≤ u := hfloor
    · calc u ≤ (u / d + 1) * d := Nat.le_of_lt hceil
        _ ≤ 2 * binade * 2 ^ scaleFor (u / d) * d := Nat.mul_le_mul_right d (scaleFor_lt (u / d))
        _ = 2 * binade * (d * 2 ^ scaleFor (u / d)) := by ring
  exact hbetween.isNearest hd

/-! ## Magnitudes are nearest to their own numbers -/

/-- A magnitude is nearest to its own number. -/
theorem isNearest_valueOf {m : Nat} (hm : m ≤ infinity) : IsNearest (valueOf m) m := by
  refine ⟨hm, fun k _ => ?_, fun k _ hkm heq => ?_⟩
  · rw [sub_self, abs_zero]
    exact abs_nonneg _
  · rw [sub_self, abs_zero, eq_comm, abs_eq_zero, sub_eq_zero] at heq
    exact absurd (valueOf_strictMono.injective heq) hkm

/-- Only one magnitude is nearest to a number: two could only be even ones, and then the magnitude
between them would be nearer. -/
theorem IsNearest.unique {q : ℚ} {k m : Nat} (hk : IsNearest q k) (hm : IsNearest q m) : k = m := by
  by_contra hne
  wlog hlt : k < m generalizing k m
  · exact this hm hk (Ne.symm hne) (by omega)
  have hdist : |valueOf k - q| = |valueOf m - q| := le_antisymm (hk.near m hm.le) (hm.near k hk.le)
  have hkeven := Nat.even_iff.mp (hk.even m hm.le (Ne.symm hne) hdist)
  have hmeven := Nat.even_iff.mp (hm.even k hk.le hne hdist.symm)
  have hbelow : valueOf k < valueOf (k + 1) := valueOf_strictMono (Nat.lt_succ_self k)
  have habove : valueOf (k + 1) < valueOf m := valueOf_strictMono (by omega)
  have hnear := hk.near (k + 1) (Nat.le_trans hlt hm.le)
  rcases abs_eq_abs.mp hdist with h | h
  · linarith
  · have hfar : |valueOf k - q| = q - valueOf k := by
      rw [abs_sub_comm]
      exact abs_of_pos (by linarith)
    rw [hfar] at hnear
    rcases le_abs'.mp hnear with h' | h' <;> linarith

/-- Past the finite numbers, infinity is nearest. -/
theorem IsNearest.infinity {q : ℚ} (h : valueOf infinity ≤ q) : IsNearest q infinity := by
  refine .of_midpoints (Nat.le_refl _) (fun k hk => ?_) fun hlt => absurd hlt (Nat.lt_irrefl _)
  have hk' : valueOf k < valueOf Binary64.infinity := valueOf_strictMono (by omega)
  exact ⟨by linarith, fun heq => by linarith⟩

/-- Below half the smallest number, zero is nearest. -/
theorem IsNearest.zero {q : ℚ} (h : 2 * q < valueOf 1) : IsNearest q 0 := by
  refine .of_midpoints (Nat.zero_le _) (fun k hk => absurd hk (Nat.succ_ne_zero k)) fun _ => ?_
  rw [valueOf_zero]
  exact ⟨by linarith, fun heq => by linarith⟩

/-! ## Decimals -/

/-- Ten to a power is more than eight to it. -/
theorem two_pow_le_ten_pow {a b : Nat} (h : a ≤ 3 * b) : 2 ^ a ≤ 10 ^ b :=
  calc 2 ^ a ≤ 2 ^ (3 * b) := Nat.pow_le_pow_right (by decide) h
    _ = 8 ^ b := Nat.pow_mul 2 3 b
    _ ≤ 10 ^ b := Nat.pow_le_pow_left (by decide) b

/-- Each binade starts with a power of two. -/
theorem unitsOf_start (e : Nat) : unitsOf ((e + 1) * binade) = 2 ^ (52 + e) := by
  rw [Nat.succ_mul, unitsOf_grid (by omega) (.inr (Nat.le_refl _)), Nat.pow_add]
  rfl

/-- Infinity stands for the power of two past the finite numbers. -/
theorem valueOf_infinity : valueOf infinity = 2 ^ 1024 := by
  have hunits : unitsOf infinity = 2 ^ 1024 * unitsInOne := by
    have hplace : infinity = (2046 + 1) * binade := rfl
    rw [hplace, unitsOf_start, unitsInOne_eq, ← Nat.pow_add]
  rw [valueOf, hunits, Nat.cast_mul, Nat.cast_pow, mul_div_cancel_right₀ _ unitsInOne_pos_rat.ne']
  rfl

/-- The smallest magnitude stands for the smallest unit. -/
theorem valueOf_one : valueOf 1 = 1 / 2 ^ 1074 := by
  have hunits : unitsOf 1 = 1 := by decide
  rw [valueOf, hunits, unitsInOne_eq, Nat.cast_pow]
  rfl

/-- A decimal with enough places is below half of a power of two. -/
theorem twice_lt_of_places {digits j k : Nat} (h : digits.log2 + 2 + k ≤ 3 * j) :
    2 * ((digits : ℚ) / 10 ^ j) < 1 / 2 ^ k := by
  have hbound : 2 * digits * 2 ^ k < 10 ^ j :=
    calc 2 * digits * 2 ^ k < 2 * 2 ^ (digits.log2 + 1) * 2 ^ k :=
          Nat.mul_lt_mul_of_pos_right
            (Nat.mul_lt_mul_of_pos_left Nat.lt_log2_self (by decide)) (Nat.two_pow_pos k)
      _ = 2 ^ (digits.log2 + 2 + k) := by
          rw [Nat.pow_add _ _ k, Nat.pow_add, Nat.pow_succ]
          ring
      _ ≤ 10 ^ j := two_pow_le_ten_pow h
  rw [← mul_div_assoc, div_lt_div_iff₀ (by positivity) (by positivity), one_mul]
  exact_mod_cast hbound

/-- The magnitude that is computed for a decimal is the nearest one, also where its exponent decides
alone. -/
theorem nearestDecimal_isNearest (digits : Nat) (exponent : Int) :
    IsNearest (digits * 10 ^ exponent) (nearestDecimal digits exponent) := by
  unfold nearestDecimal
  split
  next hzero =>
    refine .zero ?_
    rw [hzero, Nat.cast_zero, zero_mul, mul_zero, valueOf_one]
    positivity
  next hpos =>
  have hone : (1 : ℚ) ≤ digits := by exact_mod_cast Nat.pos_of_ne_zero hpos
  obtain ⟨j, rfl | rfl⟩ := exponent.eq_nat_or_neg
  · rw [zpow_natCast]
    split
    next hlarge =>
      refine .infinity ?_
      rw [valueOf_infinity]
      calc (2 : ℚ) ^ 1024 ≤ 10 ^ j := by exact_mod_cast two_pow_le_ten_pow (by omega)
        _ ≤ digits * 10 ^ j := le_mul_of_one_le_left (by positivity) hone
    next =>
      rw [if_neg (by omega), if_pos (Int.natCast_nonneg j), Int.toNat_natCast]
      have hnearest := nearest_isNearest (digits * Nat.pow 10 j) Nat.one_pos
      simpa using hnearest
  · rw [zpow_neg, zpow_natCast, ← div_eq_mul_inv]
    rw [if_neg (by omega)]
    split
    next hsmall =>
      refine .zero ?_
      rw [valueOf_one]
      exact twice_lt_of_places (by omega)
    next =>
      split
      next hexp =>
        obtain rfl : j = 0 := by omega
        have hnearest := nearest_isNearest digits Nat.one_pos
        simpa using hnearest
      next =>
        rw [Int.neg_neg, Int.toNat_natCast]
        have hnearest := nearest_isNearest digits (Nat.pow_pos (n := j) (show 0 < 10 by decide))
        simpa using hnearest

/-! ## Numbers with a sign -/

theorem signPlace_eq : signPlace = 9223372036854775808 := rfl

/-- A double is its sign and its magnitude. -/
theorem ofMagnitude_magnitude (x : Binary64) : ofMagnitude x.isNegative x.magnitude = x := by
  have hbits := x.bits.toNat_lt
  have hnat : (if x.isNegative then signPlace + x.magnitude else x.magnitude) = x.bits.toNat := by
    unfold isNegative magnitude
    rw [signPlace_eq]
    split <;> simp at * <;> omega
  rw [ofMagnitude, hnat, UInt64.ofNat_toNat]

/-- A sign and a magnitude are those of a double. -/
theorem ofMagnitude_parts (negative : Bool) {m : Nat} (h : m < signPlace) :
    (ofMagnitude negative m).isNegative = negative ∧ (ofMagnitude negative m).magnitude = m := by
  rw [signPlace_eq] at h
  unfold ofMagnitude isNegative magnitude
  rw [signPlace_eq]
  cases negative <;> simp <;> omega

theorem infinity_lt_signPlace : infinity < signPlace := by decide

/-- A number with a sign. -/
def withSign (negative : Bool) (q : ℚ) : ℚ :=
  if negative then -q else q

/-- The number that a double stands for. -/
def value (x : Binary64) : ℚ :=
  withSign x.isNegative (valueOf x.magnitude)

/-- No double is nearer to a number, and if one that stands for something else is as near, the
significand is even. -/
structure NearestTo (q : ℚ) (x : Binary64) : Prop where
  isNumber : x.isNaN = false
  near : ∀ y : Binary64, y.isNaN = false → |x.value - q| ≤ |y.value - q|
  even : ∀ y : Binary64, y.isNaN = false → y.value ≠ x.value → |x.value - q| = |y.value - q| →
    Even x.magnitude

/-- The numbers are the magnitudes up to infinity. -/
theorem isNaN_eq_false_iff {x : Binary64} : x.isNaN = false ↔ x.magnitude ≤ infinity := by
  unfold isNaN
  rw [decide_eq_false_iff_not, Nat.not_lt]

section Sign

variable {b c : Bool} {a q : ℚ} {m : Nat} {x y : Binary64}

/-- A sign loses nothing. -/
theorem withSign_injective (b : Bool) : Function.Injective (withSign b) := by
  cases b with
  | false => exact Function.injective_id
  | true => exact neg_injective

/-- With equal signs, numbers are as far apart as without. -/
theorem distance_same (b : Bool) (a q : ℚ) : |withSign b a - withSign b q| = |a - q| := by
  cases b with
  | false => rfl
  | true =>
    show |-a - -q| = |a - q|
    rw [neg_sub_neg, abs_sub_comm]

/-- With opposite signs, they are as far apart as they are large together. -/
theorem distance_opposite (hbc : b ≠ c) (ha : 0 ≤ a) (hq : 0 ≤ q) :
    |withSign b a - withSign c q| = a + q := by
  obtain rfl : b = !c := Bool.eq_not.mpr hbc
  cases c with
  | false =>
    show |-a - q| = a + q
    rw [abs_sub_comm, sub_neg_eq_add, add_comm]
    exact abs_of_nonneg (by linarith)
  | true =>
    show |a - -q| = a + q
    rw [sub_neg_eq_add]
    exact abs_of_nonneg (by linarith)

/-- If a number of the other sign is as near as a magnitude, then so is zero. -/
theorem IsNearest.even_of_opposite (h : IsNearest q m) (hq : 0 ≤ q) (ha : 0 ≤ a)
    (heq : |valueOf m - q| = a + q) : Even m := by
  have hzero : |valueOf 0 - q| = q := by rw [valueOf_zero, zero_sub, abs_neg, abs_of_nonneg hq]
  by_cases hm : m = 0
  · rw [hm]
    exact Even.zero
  · exact h.even 0 (Nat.zero_le _) (Ne.symm hm)
      (le_antisymm (h.near 0 (Nat.zero_le _)) (by rw [hzero, heq]; linarith))

/-- Numbers of the other sign are no nearer, so it is enough to compare magnitudes. -/
theorem IsNearest.nearestTo (h : IsNearest q x.magnitude) (hq : 0 ≤ q) :
    NearestTo (withSign x.isNegative q) x := by
  refine ⟨isNaN_eq_false_iff.mpr h.le, fun y hy => ?_, fun y hy hne heq => ?_⟩
  · have hnear := h.near y.magnitude (isNaN_eq_false_iff.mp hy)
    rw [value, value, distance_same]
    by_cases hsign : y.isNegative = x.isNegative
    · rwa [hsign, distance_same]
    · have hvalue := valueOf_nonneg y.magnitude
      rw [distance_opposite hsign hvalue hq]
      exact hnear.trans (abs_le.mpr ⟨by linarith, by linarith⟩)
  · rw [value, value, distance_same] at heq
    by_cases hsign : y.isNegative = x.isNegative
    · rw [hsign, distance_same] at heq
      refine h.even y.magnitude (isNaN_eq_false_iff.mp hy) (fun hmagnitude => hne ?_) heq
      rw [value, value, hsign, hmagnitude]
    · have hvalue := valueOf_nonneg y.magnitude
      rw [distance_opposite hsign hvalue hq] at heq
      exact h.even_of_opposite hq hvalue heq

/-- A magnitude is compared as that of the number with the same sign. -/
theorem NearestTo.isNearest (h : NearestTo (withSign x.isNegative q) x) :
    IsNearest q x.magnitude := by
  have hvalue : ∀ k ≤ infinity,
      (ofMagnitude x.isNegative k).value = withSign x.isNegative (valueOf k) := fun k hk => by
    obtain ⟨hsign, hmagnitude⟩ :=
      ofMagnitude_parts x.isNegative (Nat.lt_of_le_of_lt hk infinity_lt_signPlace)
    rw [value, hsign, hmagnitude]
  have hnumber : ∀ k ≤ infinity, (ofMagnitude x.isNegative k).isNaN = false := fun k hk => by
    rwa [isNaN_eq_false_iff,
      (ofMagnitude_parts x.isNegative (Nat.lt_of_le_of_lt hk infinity_lt_signPlace)).2]
  refine ⟨isNaN_eq_false_iff.mp h.isNumber, fun k hk => ?_, fun k hk hne heq => ?_⟩
  · have hnear := h.near _ (hnumber k hk)
    rwa [hvalue k hk, value, distance_same, distance_same] at hnear
  · refine h.even _ (hnumber k hk) (fun heq' => hne ?_) ?_
    · rw [hvalue k hk] at heq'
      exact valueOf_strictMono.injective (withSign_injective _ heq')
    · rw [hvalue k hk, value, distance_same, distance_same]
      exact heq

/-- Only one double of a sign is nearest to a number. -/
theorem NearestTo.unique (hx : NearestTo (withSign x.isNegative q) x)
    (hy : NearestTo (withSign x.isNegative q) y) (hsign : y.isNegative = x.isNegative) : y = x := by
  have hmagnitude : y.magnitude = x.magnitude := by
    rw [← hsign] at hy
    exact hy.isNearest.unique hx.isNearest
  rw [← ofMagnitude_magnitude y, ← ofMagnitude_magnitude x, hsign, hmagnitude]

end Sign

end Avii.Binary64
