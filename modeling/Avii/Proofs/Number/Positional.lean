import Avii.Number.Decimal
import Avii.Proofs.Number.Rounding
import Avii.Proofs.Token.Texts

/-!
# Positional notation

A text in positional notation has a sign, digits, and perhaps a point with more digits, without
zeros in front or at the end that say nothing. `Positional` holds the parts of such a text and has
an exact value. A decimal without zeros at its end is laid out as one
(`Decimal.exists_positional`), and a numeral in this notation is read as the magnitude nearest to
its value (`Positional.magnitude?_isNearest`).
-/

namespace Avii

open Text (isAsciiDigit natOfDigits)

/-! ## Digits -/

namespace Text

theorem natOfDigits_eq (ds : List Char) : natOfDigits ds = Nat.ofDigitChars 10 ds 0 := rfl

theorem natOfDigits_append (ds es : List Char) :
    natOfDigits (ds ++ es) = natOfDigits ds * 10 ^ es.length + natOfDigits es := by
  rw [natOfDigits_eq, natOfDigits_eq, natOfDigits_eq, Nat.ofDigitChars_append,
    Nat.ofDigitChars_eq_ofDigitChars_zero, Nat.mul_comm]

theorem natOfDigits_toDigits (n : Nat) : natOfDigits (Nat.toDigits 10 n) = n := by
  rw [natOfDigits_eq, Nat.ofDigitChars_ten_toDigits]

theorem natOfDigits_zeros (n : Nat) : natOfDigits (List.replicate n '0') = 0 := by
  rw [natOfDigits_eq, Nat.ofDigitChars_replicate_zero, Nat.mul_zero]

theorem toDigits_digits {n : Nat} : ∀ c ∈ Nat.toDigits 10 n, isAsciiDigit c = true := by
  intro c hc
  have hdigit : 48 ≤ c.val ∧ c.val ≤ 57 := by
    simpa [Char.isDigit] using Nat.isDigit_of_mem_toDigits (by decide) (by decide) hc
  exact decide_eq_true hdigit

theorem zeros_digits {n : Nat} : ∀ c ∈ List.replicate n '0', isAsciiDigit c = true := by
  intro c hc
  rw [List.eq_of_mem_replicate hc]
  decide

/-- The digits of a number other than zero start with one other than zero. -/
theorem toDigits_head? {n : Nat} (h : n ≠ 0) : (Nat.toDigits 10 n).head? ≠ some '0' := by
  induction n using Nat.strong_induction_on with
  | _ n ih =>
    rcases Nat.lt_or_ge n 10 with hn | hn
    · rw [Nat.toDigits_of_lt_base hn]
      simpa using h
    · rw [Nat.toDigits_of_base_le (by decide) hn,
        List.head?_append_of_ne_nil _ Nat.toDigits_ne_nil]
      exact ih (n / 10) (by omega) (by omega)

/-- The last digit is the remainder by ten. -/
theorem toDigits_getLast? (n : Nat) :
    (Nat.toDigits 10 n).getLast? = some (Nat.digitChar (n % 10)) := by
  rcases Nat.lt_or_ge n 10 with hn | hn
  · rw [Nat.toDigits_of_lt_base hn, Nat.mod_eq_of_lt hn]
    rfl
  · rw [Nat.toDigits_of_base_le (by decide) hn]
    simp

end Text

/-! ## Texts in positional notation -/

/-- The parts of a text in positional notation. -/
structure Positional where
  negative : Bool
  whole : List Char
  fraction : List Char
  whole_digits : ∀ c ∈ whole, isAsciiDigit c = true
  fraction_digits : ∀ c ∈ fraction, isAsciiDigit c = true
  whole_ne : whole ≠ []
  whole_leads : whole.head? = some '0' → whole = ['0']
  fraction_ends : fraction.getLast? ≠ some '0'

namespace Positional

/-- The text without its sign. -/
def chars (p : Positional) : List Char :=
  p.whole ++ if p.fraction = [] then [] else '.' :: p.fraction

/-- The text. -/
def text (p : Positional) : String :=
  Binary64.signed p.negative p.chars

/-- The exact absolute value. -/
def size (p : Positional) : ℚ :=
  natOfDigits p.whole + natOfDigits p.fraction / 10 ^ p.fraction.length

/-- The exact value. -/
def value (p : Positional) : ℚ :=
  Binary64.withSign p.negative p.size

theorem size_eq (p : Positional) :
    p.size = natOfDigits (p.whole ++ p.fraction) * 10 ^ (-(p.fraction.length : Int)) := by
  rw [size, Text.natOfDigits_append, zpow_neg, zpow_natCast, ← div_eq_mul_inv, Nat.cast_add,
    Nat.cast_mul, Nat.cast_pow, add_div]
  simp

theorem size_nonneg (p : Positional) : 0 ≤ p.size := by
  unfold size
  positivity

theorem plain (p : Positional) : Numeral.IsPlain p.chars := by
  refine ⟨p.whole, p.whole_ne, p.whole_digits, ?_⟩
  unfold chars
  split
  next => exact .inl (List.append_nil _)
  next h => exact .inr ⟨p.fraction, h, p.fraction_digits, rfl⟩

/-- A numeral in positional notation denotes the magnitude nearest to its value. -/
theorem magnitude?_isNearest (p : Positional) :
    ∃ m, Numeral.magnitude? p.chars = some m ∧ Binary64.IsNearest p.size m := by
  refine ⟨Binary64.nearestDecimal (natOfDigits (p.whole ++ p.fraction)) (-p.fraction.length), ?_,
    p.size_eq ▸ Binary64.nearestDecimal_isNearest _ _⟩
  by_cases hfraction : p.fraction = []
  · obtain ⟨htake, hdrop⟩ := Numeral.takeWhile_all p.whole_digits
    simp [Numeral.magnitude?, chars, hfraction, htake, hdrop, p.whole_ne, Numeral.exponent?]
  · obtain ⟨htake, hdrop⟩ := Numeral.takeWhile_digits p.whole_digits p.fraction
    obtain ⟨htake', hdrop'⟩ := Numeral.takeWhile_all p.fraction_digits
    simp [Numeral.magnitude?, chars, hfraction, htake, hdrop, htake', hdrop', p.whole_ne,
      Numeral.exponent?]

/-- The digits of a whole number, zero included. -/
theorem exists_whole (negative : Bool) (n : Nat) : ∃ p : Positional, p.negative = negative ∧
    p.chars = Nat.toDigits 10 n ∧ p.size = n := by
  refine ⟨⟨negative, Nat.toDigits 10 n, [], Text.toDigits_digits, by simp, Nat.toDigits_ne_nil, ?_,
    by simp⟩, rfl, List.append_nil _, ?_⟩
  · intro hhead
    by_cases hzero : n = 0
    · rw [hzero, Nat.toDigits_zero]
    · exact absurd hhead (Text.toDigits_head? hzero)
  · rw [size_eq, List.append_nil, Text.natOfDigits_toDigits]
    simp

end Positional

/-! ## Decimals in positional notation -/

namespace Decimal

/-- The number that a decimal denotes. -/
def value (d : Decimal) : ℚ :=
  d.digits * 10 ^ d.exponent

/-- A decimal with zeros behind its digits. -/
theorem exists_positional_zeros (negative : Bool) {n : Nat} (h : n ≠ 0) (j : Nat) :
    ∃ p : Positional, p.negative = negative ∧
      p.chars = Nat.toDigits 10 n ++ List.replicate j '0' ∧ p.size = n * 10 ^ (j : Int) := by
  refine ⟨⟨negative, Nat.toDigits 10 n ++ List.replicate j '0', [], ?_, by simp, by simp, ?_,
    by simp⟩, rfl, List.append_nil _, ?_⟩
  · exact List.forall_mem_append.mpr ⟨Text.toDigits_digits, Text.zeros_digits⟩
  · rw [List.head?_append_of_ne_nil _ Nat.toDigits_ne_nil]
    exact fun hzero => absurd hzero (Text.toDigits_head? h)
  · rw [Positional.size_eq, List.append_nil, Text.natOfDigits_append, Text.natOfDigits_toDigits,
      Text.natOfDigits_zeros]
    simp

/-- A decimal with a point between its digits. -/
theorem exists_positional_inside (negative : Bool) {n j : Nat} (h : n % 10 ≠ 0) (hpos : 0 < j)
    (hj : j < (Nat.toDigits 10 n).length) :
    ∃ p : Positional, p.negative = negative ∧
      p.chars = (Nat.toDigits 10 n).take ((Nat.toDigits 10 n).length - j) ++
        '.' :: (Nat.toDigits 10 n).drop ((Nat.toDigits 10 n).length - j) ∧
      p.size = n * 10 ^ (-j : Int) := by
  have hhead := Text.toDigits_head? (n := n) (by omega)
  have hlast := Text.toDigits_getLast? n
  have hdigits := Text.toDigits_digits (n := n)
  have hvalue := Text.natOfDigits_toDigits n
  generalize Nat.toDigits 10 n = ds at *
  have hdrop : ds.drop (ds.length - j) ≠ [] := by
    rw [Ne, List.drop_eq_nil_iff]
    omega
  refine ⟨⟨negative, ds.take (ds.length - j), ds.drop (ds.length - j),
    fun c hc => hdigits c (List.mem_of_mem_take hc),
    fun c hc => hdigits c (List.mem_of_mem_drop hc), ?_, ?_, ?_⟩, rfl, ?_, ?_⟩
  · rw [Ne, List.take_eq_nil_iff]
    rintro (h | rfl)
    · omega
    · simp at hj
  · rw [List.head?_take, if_neg (by omega)]
    exact fun hzero => absurd hzero hhead
  · rw [List.getLast?_drop, if_neg (by omega), hlast]
    simpa using h
  · rw [Positional.chars, if_neg hdrop]
  · rw [Positional.size_eq, List.take_append_drop, hvalue, List.length_drop,
      Nat.sub_sub_self (Nat.le_of_lt hj)]

/-- A decimal with a point in front of its digits. -/
theorem exists_positional_front (negative : Bool) {n : Nat} (h : n % 10 ≠ 0) (k : Nat) :
    ∃ p : Positional, p.negative = negative ∧
      p.chars = '0' :: '.' :: List.replicate k '0' ++ Nat.toDigits 10 n ∧
      p.size = n * 10 ^ (-(k + (Nat.toDigits 10 n).length) : Int) := by
  have hne : List.replicate k '0' ++ Nat.toDigits 10 n ≠ [] := by simp
  refine ⟨⟨negative, ['0'], List.replicate k '0' ++ Nat.toDigits 10 n,
    List.forall_mem_singleton.mpr (by decide), ?_, by simp, fun _ => rfl, ?_⟩, rfl, ?_, ?_⟩
  · exact List.forall_mem_append.mpr ⟨Text.zeros_digits, Text.toDigits_digits⟩
  · rw [List.getLast?_append, Text.toDigits_getLast?]
    simpa using h
  · rw [Positional.chars, if_neg hne]
    rfl
  · have hzero : natOfDigits ['0'] = 0 := rfl
    rw [Positional.size_eq, Text.natOfDigits_append, Text.natOfDigits_append, hzero,
      Text.natOfDigits_zeros, Text.natOfDigits_toDigits]
    simp

/-- A decimal without zeros at the end of its digits is laid out in positional notation. -/
theorem exists_positional (negative : Bool) {d : Decimal} (h : d.digits % 10 ≠ 0) :
    ∃ p : Positional, p.negative = negative ∧ p.chars = d.positional ∧ p.size = d.value := by
  obtain ⟨n, e⟩ := d
  rcases lt_or_ge e 0 with he | he
  · obtain ⟨j, rfl⟩ := Int.exists_eq_neg_ofNat (Int.le_of_lt he)
    have hplaces : (-(-(j : Int))).toNat = j := by omega
    rw [value]
    rcases Nat.lt_or_ge j (Nat.toDigits 10 n).length with hj | hj
    · have hpositional : positional ⟨n, -j⟩ =
          (Nat.toDigits 10 n).take ((Nat.toDigits 10 n).length - j) ++
            '.' :: (Nat.toDigits 10 n).drop ((Nat.toDigits 10 n).length - j) := by
        simp only [positional, digitChars, hplaces]
        rw [if_neg (by omega), if_pos hj]
      rw [hpositional]
      exact exists_positional_inside negative h (by omega) hj
    · obtain ⟨k, rfl⟩ := Nat.exists_eq_add_of_le' hj
      have hpositional : positional ⟨n, -((k + (Nat.toDigits 10 n).length : Nat) : Int)⟩ =
          '0' :: '.' :: List.replicate k '0' ++ Nat.toDigits 10 n := by
        simp only [positional, digitChars, hplaces, Nat.add_sub_cancel]
        rw [if_neg (by omega), if_neg (by omega)]
      rw [hpositional, Nat.cast_add]
      exact exists_positional_front negative h k
  · obtain ⟨j, rfl⟩ := Int.eq_ofNat_of_zero_le he
    have hpositional : positional ⟨n, j⟩ = Nat.toDigits 10 n ++ List.replicate j '0' := by
      simp [positional, digitChars]
    rw [hpositional]
    exact exists_positional_zeros negative (fun hzero => h (by simp [hzero])) j

end Decimal

end Avii
