import Avii.Number.Decimal
import Avii.Number.Numeral
import Avii.Proofs.Syntax.Acceptance
import Avii.Token.Scan

/-!
# The texts of tokens

What a scan says about the tokens it makes: a property of everything that can be cut off a text
holds of all of them (`tokensFrom_forall`). So a list of tokens has one `eof`, its last
(`tokenize_endsOnce`), the text of a number is a numeral that is read (`numeral_reads`), and a name
starts with something other than a digit.
-/

namespace Avii

open Text (isAsciiDigit)

/-! ## Numerals -/

namespace Numeral

/-- The ASCII digits are ten characters in a row. -/
theorem isAsciiDigit_iff {c : Char} : isAsciiDigit c = true ↔ 48 ≤ c.toNat ∧ c.toNat ≤ 57 := by
  unfold isAsciiDigit
  simp only [decide_eq_true_eq]
  exact Iff.rfl

theorem asciiDigit_digit {c : Char} (h : isAsciiDigit c = true) : asciiDigit c = c := by
  have hc := isAsciiDigit_iff.mp h
  have hv : Text.digitValue? c = some (c.toNat - 48) := by
    unfold Text.digitValue? Text.digitZeros
    rw [List.find?_cons_of_pos (by simp only [Bool.and_eq_true, decide_eq_true_eq]; omega)]
    rfl
  unfold asciiDigit
  rw [hv]
  show Char.ofNat (48 + (c.toNat - 48)) = c
  rw [show 48 + (c.toNat - 48) = c.toNat by omega]
  exact Char.ofNat_toNat c

theorem isPadding_digit {c : Char} (h : isAsciiDigit c = true) : isPadding c = false := by
  have hc := isAsciiDigit_iff.mp h
  unfold isPadding Text.isBlank
  simp only [Bool.and_eq_false_iff, Bool.or_eq_false_iff, decide_eq_false_iff_not,
    beq_eq_false_iff_ne]
  left
  refine ⟨⟨⟨⟨⟨⟨⟨⟨⟨⟨?_, ?_⟩, ?_⟩, ?_⟩, ?_⟩, ?_⟩, ?_⟩, ?_⟩, ?_⟩, ?_⟩, ?_⟩ <;> omega

/-- Digits, or digits with a point and more digits. -/
def IsPlain (cs : List Char) : Prop :=
  ∃ whole, whole ≠ [] ∧ (∀ c ∈ whole, isAsciiDigit c = true) ∧
    (cs = whole ∨ ∃ fraction, fraction ≠ [] ∧ (∀ c ∈ fraction, isAsciiDigit c = true) ∧
      cs = whole ++ '.' :: fraction)

/-- A plain numeral is made of digits and points, and has digits at both ends. -/
theorem IsPlain.chars {cs : List Char} (h : IsPlain cs) :
    (∀ c ∈ cs, isAsciiDigit c = true ∨ c = '.') ∧
      (∃ d rest, cs = d :: rest ∧ isAsciiDigit d = true) ∧
      ∃ d rest, cs.reverse = d :: rest ∧ isAsciiDigit d = true := by
  have ends : ∀ {l : List Char}, l ≠ [] → (∀ c ∈ l, isAsciiDigit c = true) →
      ∃ d rest, l = d :: rest ∧ isAsciiDigit d = true := by
    intro l hl hd
    cases l with
    | nil => exact absurd rfl hl
    | cons d rest => exact ⟨d, rest, rfl, hd d (List.mem_cons_self ..)⟩
  obtain ⟨whole, hw, hd, rfl | ⟨fraction, hf, hfd, rfl⟩⟩ := h
  · refine ⟨fun c hc => .inl (hd c hc), ends hw hd, ?_⟩
    exact ends (by simpa using hw) fun c hc => hd c (List.mem_reverse.mp hc)
  · refine ⟨?_, ?_, ?_⟩
    · intro c hc
      rcases List.mem_append.mp hc with hc | hc
      · exact .inl (hd c hc)
      · rcases List.mem_cons.mp hc with rfl | hc
        · exact .inr rfl
        · exact .inl (hfd c hc)
    · obtain ⟨d, rest, rfl, hdd⟩ := ends hw hd
      exact ⟨d, rest ++ '.' :: fraction, rfl, hdd⟩
    -- the last digit is that of the fraction
    · obtain ⟨d, rest, hr, hdd⟩ := ends (by simpa using hf)
        (fun c hc => hfd c (List.mem_reverse.mp hc) : ∀ c ∈ fraction.reverse, _)
      exact ⟨d, rest ++ '.' :: whole.reverse, by simp [hr], hdd⟩

theorem dropWhile_padding {d : Char} (h : isAsciiDigit d = true) (rest : List Char) :
    (d :: rest).dropWhile isPadding = d :: rest := by
  rw [List.dropWhile_cons, isPadding_digit h]
  rfl

/-- A plain numeral has no padding. -/
theorem unpadded_plain {cs : List Char} (h : IsPlain cs) : unpadded cs = cs := by
  obtain ⟨-, ⟨d, rest, hfront, hd⟩, ⟨e, rest', hback, he⟩⟩ := h.chars
  unfold unpadded
  rw [hfront, dropWhile_padding hd, ← hfront, hback, dropWhile_padding he, ← hback,
    List.reverse_reverse]

/-- It is written in ASCII digits. -/
theorem asciiDigit_plain {cs : List Char} (h : IsPlain cs) : cs.map asciiDigit = cs := by
  refine (List.map_congr_left ?_).trans (List.map_id cs)
  intro c hc
  rcases h.chars.1 c hc with hd | rfl
  · exact asciiDigit_digit hd
  · decide

/-- A text without underscores is joined already. -/
theorem joined?_plain : ∀ {cs : List Char} (before : Bool), '_' ∉ cs → joined? before cs = some cs
  | [], _, _ => rfl
  | c :: cs, before, h => by
    have hc : c ≠ '_' := by
      rintro rfl
      exact h (List.mem_cons_self ..)
    have hcs := joined?_plain (isAsciiDigit c) fun hmem => h (List.mem_cons_of_mem c hmem)
    rw [joined?]
    · rw [hcs]
      rfl
    · intro c' rest' heq
      cases heq
      exact absurd rfl hc
    · intro heq
      cases heq
      exact absurd rfl hc

theorem takeWhile_all {ds : List Char} (h : ∀ c ∈ ds, isAsciiDigit c = true) :
    ds.takeWhile isAsciiDigit = ds ∧ ds.dropWhile isAsciiDigit = [] := by
  have htake := @List.takeWhile_append_of_pos _ isAsciiDigit ds [] h
  have hdrop := @List.dropWhile_append_of_pos _ isAsciiDigit ds [] h
  simpa using And.intro htake hdrop

/-- A point ends the digits before it. -/
theorem takeWhile_digits {ds : List Char} (h : ∀ c ∈ ds, isAsciiDigit c = true)
    (rest : List Char) :
    (ds ++ '.' :: rest).takeWhile isAsciiDigit = ds ∧
      (ds ++ '.' :: rest).dropWhile isAsciiDigit = '.' :: rest := by
  rw [List.takeWhile_append_of_pos h, List.dropWhile_append_of_pos h]
  have hdot : isAsciiDigit '.' = false := by decide
  simp [hdot]

/-- A plain numeral has a magnitude. -/
theorem magnitude?_plain {cs : List Char} (h : IsPlain cs) : (magnitude? cs).isSome := by
  obtain ⟨whole, hw, hd, rfl | ⟨fraction, -, hfd, rfl⟩⟩ := h
  · unfold magnitude?
    rw [(takeWhile_all hd).1, (takeWhile_all hd).2]
    simp [hw, exponent?]
  · obtain ⟨htake, hdrop⟩ := takeWhile_digits hd fraction
    unfold magnitude?
    rw [htake, hdrop]
    simp only [(takeWhile_all hfd).1, (takeWhile_all hfd).2]
    simp [hw, exponent?]

theorem toLower_digit {c : Char} (h : isAsciiDigit c = true) : c.toLower = c := by
  have hc := isAsciiDigit_iff.mp h
  unfold Char.toLower
  rw [dif_neg]
  rintro ⟨hA, -⟩
  have : 65 ≤ c.toNat := hA
  omega

/-- The words that are read as numbers start with a letter; any other text has to have a
magnitude. -/
theorem unsigned?_plain (negative : Bool) {cs : List Char} (h : IsPlain cs) :
    unsigned? negative cs = (magnitude? cs).map (.ofMagnitude negative) := by
  have hname : ∀ w : String, w.toList.head?.any isAsciiDigit = false →
      String.ofList (cs.map Char.toLower) ≠ w := by
    rintro w hw rfl
    obtain ⟨d, rest, rfl, hd⟩ := h.chars.2.1
    simp [toLower_digit hd, hd] at hw
  have hinf := hname "inf" (by decide)
  have hinfinity := hname "infinity" (by decide)
  have hnan := hname "nan" (by decide)
  simp [unsigned?, hinf, hinfinity, hnan]

/-- It has no sign. -/
theorem sign_plain {cs : List Char} (h : IsPlain cs) : sign cs = (false, cs) := by
  obtain ⟨d, rest, rfl, hd⟩ := h.chars.2.1
  unfold sign
  split
  next heq =>
    cases heq
    exact absurd hd (by decide)
  next heq =>
    cases heq
    exact absurd hd (by decide)
  next => rfl

theorem unpadded_minus {cs : List Char} (h : IsPlain cs) : unpadded ('-' :: cs) = '-' :: cs := by
  obtain ⟨-, -, ⟨d, rest, hback, hd⟩⟩ := h.chars
  have hminus : isPadding '-' = false := by decide
  unfold unpadded
  rw [List.dropWhile_cons, hminus, if_neg Bool.false_ne_true, List.reverse_cons, hback,
    List.cons_append, dropWhile_padding hd, ← List.cons_append, ← hback, ← List.reverse_cons,
    List.reverse_reverse]

/-- A plain numeral denotes its magnitude, with the sign in front of it. -/
theorem read?_signed (negative : Bool) {cs : List Char} (h : IsPlain cs) :
    read? (Binary64.signed negative cs) = (magnitude? cs).map (.ofMagnitude negative) := by
  have hscore : '_' ∉ cs := by
    intro hmem
    rcases h.chars.1 '_' hmem with h' | h'
    · exact absurd h' (by decide)
    · exact absurd h' (by decide)
  unfold read? Binary64.signed
  rw [String.toList_ofList]
  cases negative with
  | false =>
    rw [if_neg Bool.false_ne_true, unpadded_plain h, asciiDigit_plain h, joined?_plain false hscore]
    simp only [sign_plain h]
    exact unsigned?_plain false h
  | true =>
    have hminus : asciiDigit '-' = '-' := by decide
    rw [if_pos rfl, unpadded_minus h, List.map_cons, hminus, asciiDigit_plain h,
      joined?_plain false (by simp [hscore])]
    simp only [sign]
    exact unsigned?_plain true h

/-- A plain numeral is read. -/
theorem numeral_reads {s : String} (h : IsPlain s.toList) : (read? s).isSome := by
  have hread := read?_signed false h
  rw [Binary64.signed, if_neg Bool.false_ne_true, String.ofList_toList] at hread
  rw [hread, Option.isSome_map]
  exact magnitude?_plain h

end Numeral

/-! ## Tokens -/

namespace Scan

variable {P : Kind → String → Prop}

/-- What holds of everything that is cut off a text, and of `eof`, holds of all its tokens. -/
theorem tokensFrom_forall (heof : P .eof "")
    (hcut : ∀ {pos : Position} {c : Char} {rest : List Char} {t : Cut},
      cut pos c rest = .ok t → P t.kind t.text) {pos : Position} {cs : List Char}
    {ts : List Token} (h : tokensFrom pos cs = .ok ts) : ∀ t ∈ ts, P t.kind t.text := by
  fun_induction tokensFrom pos cs generalizing ts with
  | case1 pos =>
    cases h
    intro t ht
    rw [List.mem_singleton.mp ht]
    exact heof
  | case2 pos c rest hgap ih => exact ih h
  | case3 => cases h
  | case4 => cases h
  | case5 pos c rest hgap t hc ts' hts ih =>
    cases h
    intro u hu
    rcases List.mem_cons.mp hu with rfl | hu
    · exact hcut hc
    · exact ih hts u hu

/-- The text of what is cut off: a number is a plain numeral, a name starts like a word, and
nothing is an `eof`. -/
structure Textual (kind : Kind) (text : String) : Prop where
  number : kind = .number → Numeral.IsPlain text.toList
  name : kind = .ident → ∃ c cs, text.toList = c :: cs ∧ isWordStart c = true

/-- No word is a number or the closing end. -/
theorem Kind.ofWord_cases (w : String) : Kind.ofWord w ≠ .number ∧ Kind.ofWord w ≠ .eof := by
  unfold Kind.ofWord
  repeat' split
  all_goals exact ⟨by decide, by decide⟩

/-- What a choice between a kind and other ones gives has what they all have. -/
theorem of_ite {P : Kind → Prop} {p : Prop} [Decidable p] {a : Kind} {o : Option Kind}
    (ha : p → P a) (ho : ∀ k, o = some k → P k) :
    ∀ k, (if p then some a else o) = some k → P k := by
  intro k h
  by_cases hp : p
  · rw [if_pos hp] at h
    cases h
    exact ha hp
  · rw [if_neg hp] at h
    exact ho k h

theorem Kind.ofMark?_cases {c : Char} :
    ∀ k, Kind.ofMark? c = some k → k ≠ .number ∧ k ≠ .ident ∧ k ≠ .eof := by
  unfold Kind.ofMark?
  repeat refine of_ite (fun _ => by decide) ?_
  simp

/-- What is cut as a number is a plain numeral. -/
theorem number_plain {pos : Position} {c : Char} {rest : List Char} {t : Cut}
    (hc : isAsciiDigit c = true) (h : number pos (c :: rest) = .ok t) :
    t.kind = .number ∧ Numeral.IsPlain t.text.toList := by
  have hwhole : (c :: rest).takeWhile isAsciiDigit ≠ [] := by simp [hc]
  have hdigits : ∀ {cs : List Char}, ∀ d ∈ cs.takeWhile isAsciiDigit, isAsciiDigit d = true :=
    List.all_eq_true.mp List.all_takeWhile
  unfold number at h
  split at h
  next after _ =>
    split at h
    next => cases h
    next hfraction =>
      cases h
      refine ⟨rfl, _, hwhole, hdigits, .inr ⟨after.takeWhile isAsciiDigit, ?_, hdigits, ?_⟩⟩
      · exact hfraction
      · simp
  next =>
    cases h
    exact ⟨rfl, _, hwhole, hdigits, .inl (by simp)⟩

/-- Every token that is cut has a text of its kind. -/
theorem cut_textual {pos : Position} {c : Char} {rest : List Char} {t : Cut}
    (h : cut pos c rest = .ok t) : Textual t.kind t.text ∧ t.kind ≠ .eof := by
  unfold cut at h
  split at h
  next =>
    split at h
    next =>
      cases h
      exact ⟨⟨by simp, by simp⟩, by simp⟩
    next => cases h
  next =>
    split at h
    next hd =>
      obtain ⟨hk, hplain⟩ := number_plain hd h
      exact ⟨⟨fun _ => hplain, by simp [hk]⟩, by simp [hk]⟩
    next =>
      split at h
      next hw =>
        cases h
        have hkind := Kind.ofWord_cases (String.ofList ((c :: rest).takeWhile isWordChar))
        -- a word may be a keyword, but it starts like a name in any case
        refine ⟨⟨fun hk => absurd hk hkind.1, fun _ => ?_⟩, hkind.2⟩
        have hc : isWordChar c = true := by simp [isWordChar, hw]
        exact ⟨c, rest.takeWhile isWordChar, by simp [word, hc], hw⟩
      next =>
        unfold mark at h
        split at h
        next =>
          cases h
          exact ⟨⟨by simp, by simp⟩, by simp⟩
        next =>
          cases h
          exact ⟨⟨by simp, by simp⟩, by simp⟩
        next =>
          split at h
          next hk =>
            cases h
            obtain ⟨hn, hi, he⟩ := Kind.ofMark?_cases _ hk
            exact ⟨⟨fun h => absurd h hn, fun h => absurd h hi⟩, he⟩
          next => cases h

/-- The tokens of a text have one `eof`, the last. -/
theorem tokensFrom_endsOnce {pos : Position} {cs : List Char} {ts : List Token}
    (h : tokensFrom pos cs = .ok ts) : Syntax.EndsOnce ts := by
  fun_induction tokensFrom pos cs generalizing ts with
  | case1 pos =>
    cases h
    exact ⟨[], _, rfl, rfl, by simp⟩
  | case2 pos c rest hgap ih => exact ih h
  | case3 => cases h
  | case4 => cases h
  | case5 pos c rest hgap t hc ts' hts ih =>
    cases h
    obtain ⟨body, e, rfl, he, hbody⟩ := ih hts
    refine ⟨_ :: body, e, rfl, he, ?_⟩
    intro u hu
    rcases List.mem_cons.mp hu with rfl | hu
    · exact (cut_textual hc).2
    · exact hbody u hu

end Scan

/-- The tokens of a text have one end, which comes last. -/
theorem tokenize_endsOnce {source : String} {ts : List Token} (h : tokenize source = .ok ts) :
    Syntax.EndsOnce ts :=
  Scan.tokensFrom_endsOnce h

/-- The texts of the tokens of a text. -/
theorem tokenize_textual {source : String} {ts : List Token} (h : tokenize source = .ok ts) :
    ∀ t ∈ ts, Scan.Textual t.kind t.text :=
  Scan.tokensFrom_forall ⟨by simp, by simp⟩ (fun hc => (Scan.cut_textual hc).1) h

end Avii
