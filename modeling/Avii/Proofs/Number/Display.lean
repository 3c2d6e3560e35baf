import Avii.Proofs.Eval.WellFormed
import Avii.Proofs.Number.Positional
import Avii.Proofs.Token.Layout

/-!
# Displayed numbers

The display of a finite number is in positional notation, and the number is the one nearest to the
exact value of the text (`display_isPositional`). So a displayed number is read back bit for bit
(`read?_display`), by the scan and the evaluation too if it has no sign (`display_roundTrip`).

The shortest decimal is found on one of many grids, but nothing depends on which: what is found on
any grid reads back as the magnitude, and the finest grid has a point that equals it
(`Decimal.search_isNearest`). Taking zeros off its end does not change its value.
-/

namespace Avii

open Binary64 (IsNearest NearestTo valueOf infinity unitsOf)

/-! ## Shortest decimals -/

namespace Decimal

variable {m : Nat}

theorem onGrid?_nearest {exponent : Int} {d : Decimal} (h : onGrid? m exponent = some d) :
    d.nearest = m := by
  unfold onGrid? at h
  dsimp only at h
  split at h
  next hbelow =>
    split at h
    next habove =>
      cases h
      exact habove.1
    next =>
      cases h
      exact hbelow
  next =>
    split at h
    next habove =>
      cases h
      exact habove
    next => cases h

/-- Halves can be written in decimal. -/
theorem halves_value (u places : Nat) :
    value ⟨u * Nat.pow 5 places, -places⟩ = u / 2 ^ places := by
  have hten : (10 : ℚ) ^ places = 5 ^ places * 2 ^ places := by
    rw [← mul_pow]
    norm_num
  rw [value, zpow_neg, zpow_natCast, ← div_eq_mul_inv, hten, Nat.pow_eq, Nat.cast_mul, Nat.cast_pow,
    mul_comm, Nat.cast_ofNat, mul_div_mul_left _ _ (by positivity)]

theorem exact_value (m : Nat) : (exact m).value = valueOf m := by
  have hfinest : finest = -((1074 : Nat) : Int) := rfl
  rw [exact, valueOf, Binary64.unitsInOne_eq, hfinest]
  generalize 1074 = places
  rw [halves_value, Nat.cast_pow, Nat.cast_ofNat]

/-- What the search finds reads back as the magnitude, on whichever grid it is. -/
theorem search_isNearest (hm : m ≤ infinity) (grids : Nat) (exponent : Int) :
    IsNearest (search m grids exponent).value m := by
  fun_induction search m grids exponent with
  | case1 =>
    rw [exact_value]
    exact Binary64.isNearest_valueOf hm
  | case2 exponent grids d hd =>
    have hnearest := Binary64.nearestDecimal_isNearest d.digits d.exponent
    rwa [← onGrid?_nearest hd]
  | case3 exponent grids _ ih => exact ih

theorem trimmed_value (rounds : Nat) (d : Decimal) : (trimmed rounds d).value = d.value := by
  fun_induction trimmed rounds d with
  | case1 => rfl
  | case2 rounds d h ih =>
    have hdigits : d.digits / 10 * 10 = d.digits := by omega
    rw [ih, value, value, zpow_add₀ (by norm_num), zpow_one, mul_comm (10 ^ d.exponent),
      ← mul_assoc]
    congr 1
    exact_mod_cast hdigits
  | case3 => rfl

/-- As many rounds as the digits have binary places take off all zeros. -/
theorem trimmed_ends {rounds : Nat} {d : Decimal} (h0 : d.digits ≠ 0)
    (h : d.digits < 2 ^ (rounds + 1)) : (trimmed rounds d).digits % 10 ≠ 0 := by
  fun_induction trimmed rounds d with
  | case1 d => omega
  | case2 rounds d hzero ih =>
    refine ih (by dsimp only; omega) ?_
    dsimp only
    rw [Nat.pow_succ] at h
    omega
  | case3 rounds d hzero => omega

theorem shortest_isNearest (hm : m ≤ infinity) : IsNearest (shortest m).value m := by
  rw [shortest, trimmed_value]
  exact search_isNearest hm _ _

theorem shortest_ends (hpos : m ≠ 0) (hm : m ≤ infinity) : (shortest m).digits % 10 ≠ 0 := by
  refine trimmed_ends (fun hzero => hpos ?_) Nat.lt_log2_self
  have hsearch := search_isNearest hm (leading m - finest).toNat (leading m)
  rw [value, hzero, Nat.cast_zero, zero_mul] at hsearch
  refine hsearch.unique (.zero ?_)
  rw [mul_zero, Binary64.valueOf_one]
  positivity

end Decimal

/-! ## Displays -/

namespace Binary64

variable {x : Binary64}

theorem isFinite_iff : x.isFinite = true ↔ x.magnitude < infinity := by
  unfold isFinite
  rw [decide_eq_true_eq]

/-- A whole number is what its whole part says. -/
theorem valueOf_whole (h : x.isInteger = true) : valueOf x.magnitude = x.whole := by
  have hdvd : x.units % unitsInOne = 0 := by
    simpa using (Bool.and_eq_true_iff.mp h).2
  have hunits : x.units = x.whole * unitsInOne :=
    (Nat.div_mul_cancel (Nat.dvd_of_mod_eq_zero hdvd)).symm
  rw [valueOf, div_eq_iff unitsInOne_pos_rat.ne']
  exact_mod_cast hunits

/-- A finite number is displayed in positional notation, with its sign, and it is the one nearest to
the text's value. -/
theorem display_isPositional (h : x.isFinite = true) : ∃ p : Positional,
    x.display = p.text ∧ p.negative = x.isNegative ∧ IsNearest p.size x.magnitude := by
  have hlt := isFinite_iff.mp h
  have hnan : x.isNaN = false := isNaN_eq_false_iff.mpr (Nat.le_of_lt hlt)
  have hinf : x.isInfinite = false := decide_eq_false (Nat.ne_of_lt hlt)
  unfold display
  rw [hnan, hinf, if_neg Bool.false_ne_true, if_neg Bool.false_ne_true]
  split
  next hwhole =>
    obtain ⟨p, hnegative, hchars, hsize⟩ := Positional.exists_whole x.isNegative x.whole
    refine ⟨p, ?_, hnegative, ?_⟩
    · rw [Positional.text, hnegative, hchars]
    · rw [hsize, ← valueOf_whole hwhole]
      exact isNearest_valueOf (Nat.le_of_lt hlt)
  next hwhole =>
    have hpos : x.magnitude ≠ 0 := by
      intro hzero
      have hunits : x.units = 0 := by
        rw [units, hzero]
        rfl
      rw [isInteger, h, hunits, Nat.zero_mod] at hwhole
      exact hwhole rfl
    obtain ⟨p, hnegative, hchars, hsize⟩ :=
      Decimal.exists_positional x.isNegative (Decimal.shortest_ends hpos (Nat.le_of_lt hlt))
    refine ⟨p, ?_, hnegative, ?_⟩
    · rw [Positional.text, hnegative, hchars]
    · rw [hsize]
      exact Decimal.shortest_isNearest (Nat.le_of_lt hlt)

theorem read?_infinite (negative : Bool) :
    Numeral.read? (signed negative "inf".toList) = some (infinite negative) := by
  cases negative <;> decide +kernel

/-- What is displayed is read back, bit for bit. -/
theorem read?_display (h : x.isNaN = false) : Numeral.read? x.display = some x := by
  rcases Nat.lt_or_eq_of_le (isNaN_eq_false_iff.mp h) with hlt | heq
  · obtain ⟨p, hdisplay, hnegative, hnearest⟩ := display_isPositional (isFinite_iff.mpr hlt)
    obtain ⟨m, hm, hm'⟩ := p.magnitude?_isNearest
    rw [hdisplay, Positional.text, Numeral.read?_signed _ p.plain, hm, Option.map_some,
      hm'.unique hnearest, hnegative, ofMagnitude_magnitude]
  · have hinf : x.isInfinite = true := decide_eq_true heq
    rw [display, h, hinf, if_neg Bool.false_ne_true, if_pos rfl, read?_infinite,
      infinite, ← heq, ofMagnitude_magnitude]

/-- The number that is displayed is the only one that the text can stand for. -/
theorem display_nearestTo (h : x.isFinite = true) : ∃ p : Positional, x.display = p.text ∧
    ∀ y : Binary64, NearestTo p.value y ∧ y.isNegative = p.negative ↔ y = x := by
  obtain ⟨p, hdisplay, hnegative, hnearest⟩ := display_isPositional h
  have hx := hnearest.nearestTo p.size_nonneg
  refine ⟨p, hdisplay, fun y => ?_⟩
  rw [Positional.value, hnegative]
  constructor
  · rintro ⟨hy, hsign⟩
    exact hx.unique hy hsign
  · rintro rfl
    exact ⟨hx, rfl⟩

end Binary64

/-- A plain numeral is one token. -/
theorem tokenize_plain {s : String} (h : Numeral.IsPlain s.toList) :
    tokenize s = .ok [⟨.number, s, 1, 1⟩, .endAt (Position.start.advance s.toList)] := by
  rw [tokenize_iff]
  have hlayout : Scan.Layout [] (s.toList ++ []) _ :=
    .token (.number h) (Scan.stops_end _ _) (.finish s.toList)
  rwa [List.append_nil, String.ofList_toList] at hlayout

/-- Numbers survive their display. A finite number is displayed without an exponent, and it is the
nearest to the exact value of the text, of the sign that the text has. If it has no sign, the scan
finds one token, which evaluates to the number bit for bit. No other number has the same display. -/
theorem display_roundTrip :
    (∀ x : Binary64, x.isFinite = true → ∃ p : Positional, x.display = p.text ∧
      ∀ y : Binary64, NearestTo p.value y ∧ y.isNegative = p.negative ↔ y = x) ∧
    (∀ x : Binary64, x.isFinite = true → x.isNegative = false → ∃ number : Token,
      number.kind = .number ∧
      tokenize x.display = .ok [number, .endAt (Position.start.advance x.display.toList)] ∧
      ∀ n scope m, evalTree (n + 1) scope (.leaf number.leaf) m = .ok (.number x) m) ∧
    ∀ x y : Binary64, x.isNaN = false → y.isNaN = false → (x.display = y.display ↔ x = y) := by
  refine ⟨fun x hx => Binary64.display_nearestTo hx, fun x hx hsign => ?_, fun x y hx hy => ?_⟩
  · obtain ⟨p, hdisplay, hnegative, -⟩ := Binary64.display_isPositional hx
    have hchars : x.display.toList = p.chars := by
      rw [hdisplay, Positional.text, hnegative, hsign, Binary64.signed, if_neg Bool.false_ne_true,
        String.toList_ofList]
    have hnumber : x.isNaN = false :=
      Binary64.isNaN_eq_false_iff.mpr (Nat.le_of_lt (Binary64.isFinite_iff.mp hx))
    exact ⟨_, rfl, tokenize_plain (hchars ▸ p.plain),
      fun n scope m => Eval.evalTree_number (Binary64.read?_display hnumber)⟩
  · constructor
    · intro heq
      have hread := Binary64.read?_display hx
      rw [heq, Binary64.read?_display hy] at hread
      exact (Option.some.inj hread).symm
    · rintro rfl
      rfl

/-- A tenth, and the two zeros. -/
theorem display_roundTrip_tenth :
    (∃ p : Positional, p.text = "0.1" ∧ ∀ y : Binary64,
      NearestTo p.value y ∧ y.isNegative = p.negative ↔ y = ⟨0x3FB999999999999A⟩) ∧
    (∃ number : Token, number.kind = .number ∧
      tokenize "0.1" = .ok [number, .endAt (Position.start.advance "0.1".toList)] ∧
      ∀ n scope m, evalTree (n + 1) scope (.leaf number.leaf) m =
        .ok (.number ⟨0x3FB999999999999A⟩) m) ∧
    ("-0" = "0" ↔ (⟨0x8000000000000000⟩ : Binary64) = ⟨0⟩) := by
  have htenth : Binary64.display ⟨0x3FB999999999999A⟩ = "0.1" := by decide +kernel
  have hminus : Binary64.display ⟨0x8000000000000000⟩ = "-0" := by decide +kernel
  have hzero : Binary64.display ⟨0⟩ = "0" := by decide +kernel
  obtain ⟨hnearest, htoken, hdistinct⟩ := display_roundTrip
  refine ⟨?_, ?_, ?_⟩
  · obtain ⟨p, hp, hy⟩ := hnearest ⟨0x3FB999999999999A⟩ (by decide)
    exact ⟨p, hp.symm.trans htenth, hy⟩
  · have := htoken ⟨0x3FB999999999999A⟩ (by decide) (by decide)
    rwa [htenth] at this
  · have := hdistinct ⟨0x8000000000000000⟩ ⟨0⟩ (by decide) (by decide)
    rwa [hminus, hzero] at this

end Avii
