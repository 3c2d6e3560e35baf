import Avii.Proofs.Number.Display
import Avii.Proofs.Number.Remainder
import Avii.Value.Member

/-!
# Numbers as keys

A number and its display name the same member of every value (`member_display`), but for the numbers
with a sign that are whole: those are no index, and their displays are not digits.

To objects a number is its display. Arrays and strings take the number itself, and of a text only
digits. The display of a whole number is the digits of its whole part, few enough to be read. The
display of any other number is not digits alone: digits are the exact value of a whole number, and
the number nearest to a whole one is whole (`IsNearest.isWhole`), since from 2^53 on there are no
others and below it all whole numbers are there.
-/

namespace Avii

open Binary64 (binade infinity unitsInOne unitsOf valueOf IsNearest)

/-! ## Numbers nearest to whole numbers -/

namespace Binary64

variable {m n : Nat} {x : Binary64}

/-- Up to 2^53 every whole number is there. -/
theorem exists_valueOf_nat (h : n ≤ 2 * binade) : ∃ k ≤ infinity, valueOf k = n := by
  obtain ⟨k, hk⟩ := exists_unitsOf h 1074
  rw [← unitsInOne_eq] at hk
  have hvalue : valueOf k = n := by
    rw [valueOf, hk, Nat.cast_mul, mul_div_cancel_right₀ _ unitsInOne_pos_rat.ne']
  refine ⟨k, Nat.le_of_not_lt fun hlt => ?_, hvalue⟩
  have hlarge := valueOf_strictMono hlt
  rw [hvalue, valueOf_infinity] at hlarge
  have hbound : (n : ℚ) ≤ 2 ^ 53 := by exact_mod_cast h
  have hpow : (2 : ℚ) ^ 53 ≤ 2 ^ 1024 := pow_le_pow_right₀ one_le_two (by decide)
  exact absurd (hbound.trans hpow) (not_le.mpr hlarge)

/-- From 2^53 on every number is whole. -/
theorem isWhole_of_large (h : ((2 * binade : Nat) : ℚ) ≤ valueOf m) : unitsInOne ∣ unitsOf m := by
  obtain ⟨s, f, rfl, hf, hs⟩ := exists_grid m
  have hunits : 2 * binade * unitsInOne ≤ f * 2 ^ s := by
    rw [valueOf, le_div_iff₀ unitsInOne_pos_rat, unitsOf_grid (Nat.le_of_lt hf) hs] at h
    exact_mod_cast h
  rw [unitsOf_grid (Nat.le_of_lt hf) hs]
  have hscale : 1074 ≤ s := by
    by_contra hlow
    have hpow : 2 ^ s ≤ unitsInOne := by
      rw [unitsInOne_eq]
      generalize 1074 = places at hlow ⊢
      exact Nat.pow_le_pow_right Nat.two_pos (Nat.le_of_not_le hlow)
    have hsmall : f * 2 ^ s < 2 * binade * unitsInOne :=
      Nat.lt_of_le_of_lt (Nat.mul_le_mul_left f hpow)
        (Nat.mul_lt_mul_of_pos_right hf unitsInOne_pos)
    exact absurd hunits (Nat.not_le.mpr hsmall)
  rw [unitsInOne_eq]
  generalize 1074 = places at hscale ⊢
  exact Nat.dvd_mul_left_of_dvd (Nat.pow_dvd_pow 2 hscale) f

/-- The number nearest to a whole one is whole. -/
theorem IsNearest.isWhole (h : IsNearest n m) : unitsInOne ∣ unitsOf m := by
  rcases Nat.le_total n (2 * binade) with hsmall | hlarge
  · -- a whole number that is there is nearest to itself
    obtain ⟨k, hk, hvalue⟩ := exists_valueOf_nat hsmall
    have hnear := h.near k hk
    rw [hvalue, sub_self, abs_zero, abs_nonpos_iff, sub_eq_zero, valueOf,
      div_eq_iff unitsInOne_pos_rat.ne'] at hnear
    exact ⟨n, by rw [Nat.mul_comm]; exact_mod_cast hnear⟩
  · -- no number below 2^53 is nearer than 2^53 itself
    obtain ⟨k, hk, hvalue⟩ := exists_valueOf_nat (Nat.le_refl (2 * binade))
    refine isWhole_of_large (le_of_not_gt fun hlt => ?_)
    have hnear := h.near k hk
    have hn : ((2 * binade : Nat) : ℚ) ≤ n := by exact_mod_cast hlarge
    rw [hvalue, abs_sub_comm, abs_sub_comm _ (n : ℚ), abs_of_pos (by linarith),
      abs_of_nonneg (by linarith)] at hnear
    linarith

/-! ## Displays that are digits -/

theorem isInteger_iff :
    x.isInteger = true ↔ x.isFinite = true ∧ unitsInOne ∣ unitsOf x.magnitude := by
  rw [isInteger, units, Bool.and_eq_true, decide_eq_true_eq, Nat.dvd_iff_mod_eq_zero]

/-- The display of a whole number without a sign is the digits of its whole part. -/
theorem display_whole (h : x.isInteger = true) (hsign : x.isNegative = false) :
    x.display.toList = Nat.toDigits 10 x.whole := by
  have hlt := isFinite_iff.mp (isInteger_iff.mp h).1
  have hnan : x.isNaN = false := isNaN_eq_false_iff.mpr (Nat.le_of_lt hlt)
  have hinf : x.isInfinite = false := decide_eq_false (Nat.ne_of_lt hlt)
  rw [display, hnan, hinf, h, hsign, if_neg Bool.false_ne_true, if_neg Bool.false_ne_true,
    if_pos rfl, signed, if_neg Bool.false_ne_true, String.toList_ofList]

/-- They are few enough to be read as an index. -/
theorem length_display_whole (h : x.isInteger = true) :
    (Nat.toDigits 10 x.whole).length ≤ indexDigits := by
  have hlt := valueOf_strictMono (isFinite_iff.mp (isInteger_iff.mp h).1)
  rw [valueOf_whole h, valueOf_infinity] at hlt
  have hwhole : x.whole < 10 ^ 342 :=
    Nat.lt_of_lt_of_le (by exact_mod_cast hlt) (two_pow_le_ten_pow (by decide))
  exact Nat.le_trans ((Nat.length_toDigits_le_iff (by decide) (by decide)).mpr hwhole) (by decide)

/-- A number whose display is digits alone is whole. -/
theorem isInteger_of_digits (h : ∀ c ∈ x.display.toList, Text.isAsciiDigit c = true) :
    x.isInteger = true := by
  rcases Nat.lt_trichotomy x.magnitude infinity with hlt | heq | hgt
  · have hfinite := isFinite_iff.mpr hlt
    obtain ⟨p, hdisplay, -, hnearest⟩ := display_isPositional hfinite
    rw [hdisplay, Positional.text, signed, String.toList_ofList] at h
    have hfraction : p.fraction = [] := by
      by_contra hne
      have hpoint : '.' ∈ p.chars := by simp [Positional.chars, hne]
      refine absurd (h '.' ?_) (by decide)
      split
      next => exact List.mem_cons_of_mem _ hpoint
      next => exact hpoint
    have hsize : p.size = (Text.natOfDigits p.whole : Nat) := by
      rw [Positional.size_eq, hfraction, List.append_nil]
      simp
    rw [hsize] at hnearest
    exact isInteger_iff.mpr ⟨hfinite, hnearest.isWhole⟩
  · have hnan : x.isNaN = false := isNaN_eq_false_iff.mpr (Nat.le_of_eq heq)
    have hinf : x.isInfinite = true := decide_eq_true heq
    rw [display, hnan, hinf, if_neg Bool.false_ne_true, if_pos rfl, signed,
      String.toList_ofList] at h
    refine absurd (h 'i' ?_) (by decide)
    split <;> decide
  · have hnan : x.isNaN = true := decide_eq_true hgt
    rw [display, hnan, if_pos rfl] at h
    exact absurd (h 'N' (by decide)) (by decide)

/-- A finite number of a natural value is whole, and that is its whole part. -/
theorem whole_of_value (hx : x.isFinite = true) (h : valueOf x.magnitude = n) :
    x.isInteger = true ∧ x.whole = n := by
  have hunits : unitsOf x.magnitude = n * unitsInOne := by
    rw [valueOf, div_eq_iff unitsInOne_pos_rat.ne'] at h
    exact_mod_cast h
  have hwhole := isInteger_iff.mpr ⟨hx, hunits ▸ Nat.dvd_mul_left unitsInOne n⟩
  exact ⟨hwhole, Nat.cast_injective ((valueOf_whole hwhole).symm.trans h)⟩

end Binary64

/-! ## Reading by a number and by its display -/

/-- The mistakes of reading a member. -/
def RuntimeCause.IsAccess : RuntimeCause → Prop
  | .badObjectKey _ | .indexNotWhole _ | .indexNotNumeric _ | .badIndex _ | .noMembers _ => True
  | _ => False

/-- Two reads that end alike: with the same answer, or both with a mistake of reading a member. -/
inductive SameRead {α : Type} : Except Fault α → Except Fault α → Prop
  | answer (a : α) : SameRead (.ok a) (.ok a)
  | refused {c d : RuntimeCause} (hc : c.IsAccess) (hd : d.IsAccess) :
    SameRead (.error (.of c)) (.error (.of d))

theorem SameRead.map {α β : Type} {r s : Except Fault α} (h : SameRead r s) (f : α → β) :
    SameRead (r.map f) (s.map f) := by
  cases h with
  | answer a => exact .answer (f a)
  | refused hc hd => exact .refused hc hd

namespace Value

variable {x : Binary64}

/-- The index that a whole number without a sign names. -/
theorem sequenceIndex_whole (h : x.isInteger = true) (hsign : x.isNegative = false) :
    (number x).sequenceIndex = .ok (some x.whole) := by
  rw [sequenceIndex, h, hsign]
  rfl

/-- Digits name the index that they denote. -/
theorem sequenceIndex_digits {s : String} {n : Nat} (hs : s.toList = Nat.toDigits 10 n)
    (hlen : (Nat.toDigits 10 n).length ≤ indexDigits) :
    (string s).sequenceIndex = .ok (some n) := by
  have hall : (Nat.toDigits 10 n).all Text.isAsciiDigit = true :=
    List.all_eq_true.mpr Text.toDigits_digits
  have hne : (Nat.toDigits 10 n).isEmpty = false := by simp
  simp only [sequenceIndex, hs, hall, hne, Bool.not_false, Bool.and_self, if_true,
    if_neg (Nat.not_lt.mpr hlen), Text.natOfDigits_toDigits]

/-- A number and its display name the same index, or neither names one. -/
theorem sequenceIndex_display (h : x.isInteger = true → x.isNegative = false) :
    SameRead (number x).sequenceIndex (string x.display).sequenceIndex := by
  cases hwhole : x.isInteger with
  | true =>
    rw [sequenceIndex_whole hwhole (h hwhole), sequenceIndex_digits
      (Binary64.display_whole hwhole (h hwhole)) (Binary64.length_display_whole hwhole)]
    exact .answer _
  | false =>
    have hdigits : x.display.toList.all Text.isAsciiDigit = false :=
      Bool.eq_false_iff.mpr fun hall => Bool.eq_false_iff.mp hwhole
        (Binary64.isInteger_of_digits (List.all_eq_true.mp hall))
    have hnumber : (number x).sequenceIndex = .error (.of (.indexNotWhole x.display)) := by
      rw [sequenceIndex, hwhole]
      rfl
    have htext : (string x.display).sequenceIndex = .error (.of (.indexNotNumeric x.display)) := by
      simp only [sequenceIndex, hdigits, Bool.and_false, if_neg Bool.false_ne_true]
    rw [hnumber, htext]
    exact .refused trivial trivial

end Value

/-- A number and its display are the same key. For every target they read the same member, or both
are refused as no way to read it, if the number is not a whole one with a sign. A key whose value is
a natural number reads the item of an array and the character of a string at that index, and null
past the end. -/
theorem member_display {x : Binary64} (h : x.isInteger = true → x.isNegative = false) :
    (∀ target : Value, SameRead (target.member (.number x)) (target.member (.string x.display))) ∧
    ∀ n : Nat, x.isFinite = true → x.value = n → ∀ key ∈ [Value.number x, .string x.display],
      (∀ items, (Value.array items).member key = .ok (items[n]?.getD .null)) ∧
      ∀ s, (Value.string s).member key =
        .ok ((s.toList[n]?.map fun c => .string (String.ofList [c])).getD .null) := by
  constructor
  · intro target
    have hindex := Value.sequenceIndex_display h
    cases target with
    | object slots => exact .answer _
    | array items => exact hindex.map _
    | string s => exact hindex.map _
    | null | bool | number | closure | native => exact .refused trivial trivial
  · intro n hx hvalue key hkey
    have hmagnitude : valueOf x.magnitude = n := by
      rw [← Binary64.abs_value, hvalue, Nat.abs_cast]
    obtain ⟨hwhole, rfl⟩ := Binary64.whole_of_value hx hmagnitude
    have hindex : key.sequenceIndex = .ok (some x.whole) := by
      rcases List.mem_pair.mp hkey with rfl | rfl
      · exact Value.sequenceIndex_whole hwhole (h hwhole)
      · exact Value.sequenceIndex_digits (Binary64.display_whole hwhole (h hwhole))
          (Binary64.length_display_whole hwhole)
    refine ⟨fun items => ?_, fun s => ?_⟩
    · rw [Value.member, hindex]
      rfl
    · rw [Value.member, hindex, ← Text.charAt?_eq]
      rfl

/-- Two and a half of it, for any target, and the item of an array at two. -/
theorem member_display_two :
    (∀ target : Value, SameRead (target.member (.number ⟨0x3FE0000000000000⟩))
      (target.member (.string "0.5"))) ∧
    (∀ target : Value, SameRead (target.member (.number ⟨0x4000000000000000⟩))
      (target.member (.string "2"))) ∧
    ∀ key ∈ [Value.number ⟨0x4000000000000000⟩, .string "2"],
      ∀ items, (Value.array items).member key = .ok (items[2]?.getD .null) := by
  have hhalf : Binary64.display ⟨0x3FE0000000000000⟩ = "0.5" := by decide +kernel
  have htwo : Binary64.display ⟨0x4000000000000000⟩ = "2" := by decide +kernel
  have hvalue : Binary64.value ⟨0x4000000000000000⟩ = (2 : Nat) := by
    have hmagnitude := Binary64.valueOf_whole (x := ⟨0x4000000000000000⟩) (by decide +kernel)
    have hwhole : Binary64.whole ⟨0x4000000000000000⟩ = 2 := by decide +kernel
    rw [hwhole] at hmagnitude
    exact hmagnitude
  obtain ⟨hparts, -⟩ := member_display (x := ⟨0x3FE0000000000000⟩) (by decide +kernel)
  obtain ⟨hsame, hitem⟩ := member_display (x := ⟨0x4000000000000000⟩) (by decide +kernel)
  rw [hhalf] at hparts
  rw [htwo] at hsame hitem
  exact ⟨hparts, hsame, fun key hkey => (hitem 2 (by decide) hvalue key hkey).1⟩

end Avii
