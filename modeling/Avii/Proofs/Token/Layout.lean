import Avii.Proofs.Grammar.Nesting
import Avii.Proofs.Token.Texts
import Mathlib.Data.List.Induction

/-!
# How tokens lie in a text

A token is spelled by a piece of the text (`Spells`), and the piece goes as far as it can (`Stops`).
`Layout before cs ts` says that the text `cs`, which comes after `before`, is read as the tokens
`ts`: pieces that spell them with gaps between. The scan finds exactly the layouts
(`tokensFrom_iff`), so that what can be said of a text and its tokens is proved about layouts, by
induction over them and without another look at the scan.
-/

namespace Avii

open Text (isAsciiDigit)
open Grammar (advance_append)

/-! ## Places -/

namespace Position

/-- The line of what comes after a text. -/
def lineAfter (before : List Char) : Int :=
  1 + before.count '\n'

/-- The column of what comes after a text. -/
def columnAfter (before : List Char) : Int :=
  1 + (before.reverse.takeWhile (· ≠ '\n')).length

/-- The place that is kept along a text is told by the text alone. -/
theorem start_advance (before : List Char) :
    start.advance before = ⟨lineAfter before, columnAfter before⟩ := by
  induction before using List.reverseRecOn with
  | nil => rfl
  | append_singleton before c ih =>
    rw [advance_append, ih]
    show step _ c = _
    by_cases hc : c = '\n'
    · subst hc
      simp [step, lineAfter, columnAfter]
      omega
    · simp [step, lineAfter, columnAfter, hc]
      omega

end Position

namespace Scan

/-! ## Literals -/

/-- What the characters between the quotes of a literal denote. -/
inductive Denotes : List Char → List Char → Prop where
  | nil : Denotes [] []
  | escape {e d : Char} {body ds : List Char} (hd : Escape.denoted? e = some d)
      (h : Denotes body ds) : Denotes ('\\' :: e :: body) (d :: ds)
  | plain {c : Char} {body ds : List Char} (hq : c ≠ Text.doubleQuote) (hb : c ≠ '\\')
      (h : Denotes body ds) : Denotes (c :: body) (c :: ds)

/-- Every quote between the quotes of a literal has a backslash before it. -/
def quotesEscaped : List Char → Bool
  | '\\' :: _ :: rest => quotesEscaped rest
  | c :: rest => c ≠ Text.doubleQuote && quotesEscaped rest
  | [] => true

/-- What denotes something has its quotes escaped. -/
theorem Denotes.quotesEscaped {body ds : List Char} (h : Denotes body ds) :
    quotesEscaped body = true := by
  induction h with
  | nil => rfl
  | escape _ _ ih => exact ih
  | @plain c body ds hq hb _ ih =>
    rw [Scan.quotesEscaped]
    · simp [hq, ih]
    · exact fun _ _ h => absurd h hb

/-- Its escapes are read as what they denote. -/
theorem Denotes.decodes {body ds : List Char} (h : Denotes body ds) (line : Int) :
    Escape.decodeBody line body = .ok ds := by
  induction h with
  | nil => rfl
  | escape hd _ ih =>
    rw [Escape.decodeBody]
    simp only [hd, ih]
    rfl
  | @plain c body ds _ hb _ ih =>
    rw [Escape.decodeBody, ih]
    · rfl
    · exact fun h => absurd h hb
    · exact fun _ _ h => absurd h hb

/-- A literal is read up to the first quote that no escape holds. -/
theorem literal_iff {opened pos stop : Position} {cs ds after : List Char} :
    literal opened pos cs = .ok (ds, stop, after) ↔
      ∃ body, Denotes body ds ∧ cs = body ++ Text.doubleQuote :: after ∧
        stop = pos.advance (body ++ [Text.doubleQuote]) := by
  constructor
  · intro h
    fun_induction literal opened pos cs generalizing ds stop after with
    | case1 => cases h
    | case2 =>
      cases h
      exact ⟨[], .nil, rfl, rfl⟩
    | case3 => cases h
    | case4 => cases h
    | case5 pos e rest d hd ds' stop' after' hq heq ih =>
      cases h
      obtain ⟨body, hbody, rfl, rfl⟩ := ih heq
      exact ⟨'\\' :: e :: body, .escape hd hbody, rfl, rfl⟩
    | case6 => cases h
    | case7 pos c rest hq hb ds' stop' after' heq ih =>
      cases h
      obtain ⟨body, hbody, rfl, rfl⟩ := ih heq
      exact ⟨c :: body, .plain hq hb hbody, rfl, rfl⟩
    | case8 => cases h
  · rintro ⟨body, hbody, rfl, rfl⟩
    induction hbody generalizing pos with
    | nil =>
      unfold literal
      rfl
    | escape hd _ ih =>
      unfold literal
      simp only [List.cons_append, if_neg (by decide : '\\' ≠ Text.doubleQuote), if_true, hd, ih]
      rfl
    | plain hq hb _ ih =>
      unfold literal
      simp only [List.cons_append, if_neg hq, if_neg hb, ih]
      rfl

/-! ## Single tokens -/

/-- A piece of text spells a token of a kind and a text. -/
inductive Spells : List Char → Kind → String → Prop where
  | literal {body ds : List Char} (h : Denotes body ds) :
      Spells (Text.doubleQuote :: (body ++ [Text.doubleQuote])) .string (String.ofList ds)
  | number {raw : List Char} (h : Numeral.IsPlain raw) : Spells raw .number (String.ofList raw)
  | word {c : Char} {cs : List Char} (hc : isWordStart c = true)
      (hcs : ∀ d ∈ cs, isWordChar d = true) :
      Spells (c :: cs) (Kind.ofWord (String.ofList (c :: cs))) (String.ofList (c :: cs))
  | comparison {c : Char} (h : c = '=' ∨ c = '!') : Spells [c, '='] .condop (String.ofList [c, '='])
  | mark {c : Char} {kind : Kind} (h : Kind.ofMark? c = some kind) :
      Spells [c] kind (String.ofList [c])

/-- The piece that spells a token goes as far as it can. -/
structure Stops (raw : List Char) (kind : Kind) (after : List Char) : Prop where
  number : kind = .number → ∀ c, after.head? = some c →
    isAsciiDigit c = false ∧ (c = '.' → '.' ∈ raw)
  word : ∀ c, raw.head? = some c → isWordStart c = true → ∀ d, after.head? = some d →
    isWordChar d = false
  equals : kind = .equals → after.head? ≠ some '='

theorem stops_end (raw : List Char) (kind : Kind) : Stops raw kind [] :=
  ⟨by simp, by simp, by simp⟩

/-- A gap and a semicolon stop every token. -/
theorem Stops.of_break {raw : List Char} {kind : Kind} {c : Char} {after : List Char}
    (h : isGap c = true ∨ c = ';') : Stops raw kind (c :: after) := by
  have hc : isAsciiDigit c = false ∧ c ≠ '.' ∧ isWordChar c = false ∧ c ≠ '=' := by
    have : c = ' ' ∨ c = '\t' ∨ c = '\r' ∨ c = '\n' ∨ c = ';' := by
      rcases h with h | h
      · have := of_decide_eq_true h
        tauto
      · tauto
    rcases this with rfl | rfl | rfl | rfl | rfl <;> decide
  obtain ⟨hdigit, hdot, hword, heq⟩ := hc
  refine ⟨?_, ?_, ?_⟩
  · rintro - d ⟨⟩
    exact ⟨hdigit, fun h => absurd h hdot⟩
  · rintro - - - d ⟨⟩
    exact hword
  · rintro - ⟨⟩
    exact heq rfl

/-! ## Cutting -/

/-- A word starts with an ASCII letter or an underscore. -/
theorem isWordStart_iff {c : Char} : isWordStart c = true ↔
    c.toNat = 95 ∨ (97 ≤ c.toNat ∧ c.toNat ≤ 122) ∨ (65 ≤ c.toNat ∧ c.toNat ≤ 90) := by
  unfold isWordStart
  simp only [decide_eq_true_eq]
  rw [← Char.toNat_inj]
  exact Iff.rfl

/-- The gaps between tokens are blanks, tabs and the ends of lines. -/
theorem isGap_iff {c : Char} :
    isGap c = true ↔ c.toNat = 32 ∨ c.toNat = 9 ∨ c.toNat = 13 ∨ c.toNat = 10 := by
  unfold isGap
  simp only [decide_eq_true_eq]
  rw [← Char.toNat_inj, ← Char.toNat_inj, ← Char.toNat_inj, ← Char.toNat_inj]
  exact Iff.rfl

theorem isGap_wordChar {c : Char} (h : isWordChar c = true) : isGap c = false := by
  refine Bool.eq_false_iff.mpr fun hgap => ?_
  have hc := isGap_iff.mp hgap
  rcases Bool.or_eq_true_iff.mp h with h | h
  · have := isWordStart_iff.mp h
    omega
  · have := Numeral.isAsciiDigit_iff.mp h
    omega

/-- No word starts with a digit. -/
theorem isWordStart_digit {c : Char} (h : isAsciiDigit c = true) : isWordStart c = false := by
  have hc := Numeral.isAsciiDigit_iff.mp h
  refine Bool.eq_false_iff.mpr fun hw => ?_
  have := isWordStart_iff.mp hw
  omega

/-- The first character that is not skipped. -/
theorem head?_dropWhile {p : Char → Bool} {cs : List Char} {c : Char}
    (h : (cs.dropWhile p).head? = some c) : p c = false := by
  have := List.head?_dropWhile_not p cs
  rw [h] at this
  exact this

theorem takeWhile_forall {p : Char → Bool} {cs : List Char} :
    ∀ c ∈ cs.takeWhile p, p c = true :=
  List.all_eq_true.mp List.all_takeWhile

/-- A run of characters that goes as far as it can is found as such. -/
theorem takeWhile_run {p : Char → Bool} {run after : List Char} (hrun : ∀ c ∈ run, p c = true)
    (hafter : ∀ c, after.head? = some c → p c = false) :
    (run ++ after).takeWhile p = run ∧ (run ++ after).dropWhile p = after := by
  rw [List.takeWhile_append_of_pos hrun, List.dropWhile_append_of_pos hrun]
  cases after with
  | nil => simp
  | cons c after => simp [hafter c rfl]

/-- What is cut as a number spells one, as far as it goes. -/
theorem number_spells {pos : Position} {c : Char} {rest : List Char} {t : Cut}
    (hc : isAsciiDigit c = true) (h : number pos (c :: rest) = .ok t) :
    ∃ raw, c :: rest = raw ++ t.rest ∧ t.stop = pos.advance raw ∧
      Spells raw t.kind t.text ∧ Stops raw t.kind t.rest := by
  have hsplit := List.takeWhile_append_dropWhile (p := isAsciiDigit) (l := c :: rest)
  have hwhole : (c :: rest).takeWhile isAsciiDigit = c :: rest.takeWhile isAsciiDigit := by
    simp [hc]
  have hstart := isWordStart_digit hc
  unfold number at h
  split at h
  next after hdrop =>
    split at h
    next => cases h
    next hfraction =>
      cases h
      refine ⟨(c :: rest).takeWhile isAsciiDigit ++ '.' :: after.takeWhile isAsciiDigit, ?_, ?_,
        .number ⟨_, by simp [hwhole], takeWhile_forall, .inr ⟨_, hfraction, takeWhile_forall, rfl⟩⟩,
        ?_, ?_, by simp⟩
      · rw [List.append_assoc, List.cons_append, List.takeWhile_append_dropWhile, ← hdrop, hsplit]
      · rw [advance_append]
      · exact fun _ d hd => ⟨head?_dropWhile hd, fun _ => by simp⟩
      · rw [hwhole]
        rintro d hd hw
        cases hd
        exact absurd hw (by simp [hstart])
  next hpoint =>
    cases h
    refine ⟨(c :: rest).takeWhile isAsciiDigit, hsplit.symm, rfl,
      .number ⟨_, by simp [hwhole], takeWhile_forall, .inl rfl⟩, ?_, ?_, by simp⟩
    · refine fun _ d hd => ⟨head?_dropWhile hd, ?_⟩
      rintro rfl
      -- a point after the digits is taken with what follows it
      obtain ⟨after, hafter⟩ := List.head?_eq_some_iff.mp hd
      exact absurd hafter (hpoint after)
    · rw [hwhole]
      rintro d hd hw
      cases hd
      exact absurd hw (by simp [hstart])

/-- What spells a number is cut as it. -/
theorem number_spelled {raw after : List Char} (pos : Position) (h : Numeral.IsPlain raw)
    (hstop : Stops raw .number after) :
    number pos (raw ++ after) = .ok ⟨.number, String.ofList raw, pos.advance raw, after⟩ := by
  obtain ⟨whole, -, hwhole, rfl | ⟨fraction, hne, hfraction, rfl⟩⟩ := h
  · obtain ⟨htake, hdrop⟩ := takeWhile_run hwhole fun c hc => (hstop.number rfl c hc).1
    unfold number
    simp only [htake, hdrop]
    split
    next after' =>
      -- a point would have to be one of the digits
      have hdot := hwhole '.' ((hstop.number rfl '.' rfl).2 rfl)
      exact absurd hdot (by decide)
    next => rfl
  · obtain ⟨htake, hdrop⟩ := Numeral.takeWhile_digits hwhole (fraction ++ after)
    obtain ⟨htake', hdrop'⟩ := takeWhile_run hfraction fun c hc => (hstop.number rfl c hc).1
    unfold number
    simp only [List.append_assoc, List.cons_append, htake, hdrop, htake', hdrop', advance_append]

/-- What the characters that are marks have. -/
theorem ofMark?_char {c : Char} : ∀ kind, Kind.ofMark? c = some kind →
    (c ≠ Text.doubleQuote ∧ isAsciiDigit c = false ∧ isWordStart c = false ∧ c ≠ '!') ∧
      isGap c = false ∧ kind ≠ .string ∧ (kind = .equals ↔ c = '=') := by
  unfold Kind.ofMark?
  refine of_ite ?_ ?_
  · rintro (rfl | rfl | rfl | rfl | rfl | rfl) <;> decide
  repeat refine of_ite (by rintro rfl; decide) ?_
  simp

/-- A mark stops by itself, unless it could be the start of a comparison. -/
theorem Stops.of_mark {c : Char} {kind : Kind} {after : List Char}
    (h : Kind.ofMark? c = some kind) (hkind : kind ≠ .equals) : Stops [c] kind after := by
  obtain ⟨⟨-, -, hword, -⟩, -⟩ := ofMark?_char _ h
  refine ⟨?_, ?_, fun h => absurd h hkind⟩
  · rintro rfl
    exact absurd rfl (Kind.ofMark?_cases _ h).1
  · rintro d hd hw
    cases hd
    exact absurd hw (by simp [hword])

/-- What is cut as a mark spells one. -/
theorem mark_spells {pos : Position} {c : Char} {rest : List Char} {t : Cut}
    (h : mark pos c rest = .ok t) : ∃ raw, c :: rest = raw ++ t.rest ∧ t.stop = pos.advance raw ∧
      Spells raw t.kind t.text ∧ Stops raw t.kind t.rest := by
  unfold mark at h
  split at h
  next rest =>
    cases h
    exact ⟨['=', '='], rfl, rfl, .comparison (.inl rfl), by simp,
      by rintro d ⟨⟩ h; exact absurd h (by decide), by simp⟩
  next rest =>
    cases h
    exact ⟨['!', '='], rfl, rfl, .comparison (.inr rfl), by simp,
      by rintro d ⟨⟩ h; exact absurd h (by decide), by simp⟩
  next heq _ =>
    split at h
    next kind hk =>
      cases h
      obtain ⟨⟨-, -, hword, -⟩, -, -, hequals⟩ := ofMark?_char _ hk
      refine ⟨[c], rfl, rfl, .mark hk, ?_, ?_, ?_⟩
      · rintro rfl
        exact absurd rfl (Kind.ofMark?_cases _ hk).1
      · rintro d ⟨⟩ h
        exact absurd h (by simp [hword])
      · intro hkind hrest
        obtain ⟨rest', rfl⟩ := List.head?_eq_some_iff.mp hrest
        exact heq rest' (hequals.mp hkind) rfl
    next => cases h

/-- What spells a mark is cut as it, unless a longer one goes on. -/
theorem mark_spelled {c : Char} {kind : Kind} {after : List Char} (pos : Position)
    (h : Kind.ofMark? c = some kind) (hstop : Stops [c] kind after) :
    mark pos c after = .ok ⟨kind, String.ofList [c], pos.step c, after⟩ := by
  obtain ⟨⟨-, -, -, hbang⟩, -, -, hequals⟩ := ofMark?_char _ h
  unfold mark
  split
  next => exact absurd rfl (hstop.equals (hequals.mpr rfl))
  next => exact absurd rfl hbang
  next => rw [h]

/-- No word is a string or an equals sign. -/
theorem Kind.ofWord_ne (w : String) : Kind.ofWord w ≠ .string ∧ Kind.ofWord w ≠ .equals := by
  unfold Kind.ofWord
  repeat' split
  all_goals exact ⟨by decide, by decide⟩

/-- What is cut off a text spells the token, and goes as far as it can. -/
theorem cut_spells {pos : Position} {c : Char} {rest : List Char} {t : Cut}
    (h : cut pos c rest = .ok t) : ∃ raw, c :: rest = raw ++ t.rest ∧ t.stop = pos.advance raw ∧
      Spells raw t.kind t.text ∧ Stops raw t.kind t.rest := by
  unfold cut at h
  split at h
  next hquote =>
    subst hquote
    split at h
    next heq =>
      cases h
      obtain ⟨body, hbody, rfl, rfl⟩ := literal_iff.mp heq
      refine ⟨Text.doubleQuote :: (body ++ [Text.doubleQuote]), by simp, rfl, .literal hbody,
        by simp, ?_, by simp⟩
      rintro d ⟨⟩ h
      exact absurd h (by decide)
    next => cases h
  next =>
    split at h
    next hd => exact number_spells hd h
    next =>
      split at h
      next hw =>
        cases h
        have hc : isWordChar c = true := by simp [isWordChar, hw]
        have htake : (c :: rest).takeWhile isWordChar = c :: rest.takeWhile isWordChar := by
          simp [hc]
        have hdrop : (c :: rest).dropWhile isWordChar = rest.dropWhile isWordChar := by simp [hc]
        unfold word
        simp only [htake, hdrop]
        refine ⟨c :: rest.takeWhile isWordChar, by simp, rfl, .word hw takeWhile_forall, ?_, ?_, ?_⟩
        · exact fun h => absurd h (Kind.ofWord_cases _).1
        · exact fun _ _ _ _ => head?_dropWhile
        · exact fun h => absurd h (Kind.ofWord_ne _).2
      next => exact mark_spells h

/-- What spells a token and goes as far as it can is cut off. -/
theorem cut_spelled {raw after : List Char} {kind : Kind} {text : String} {c : Char}
    {rest : List Char} (pos : Position) (h : Spells raw kind text) (hstop : Stops raw kind after)
    (htext : c :: rest = raw ++ after) :
    isGap c = false ∧ cut pos c rest = .ok ⟨kind, text, pos.advance raw, after⟩ := by
  cases h with
  | @literal body ds h =>
    cases htext
    refine ⟨by decide, ?_⟩
    unfold cut
    rw [if_pos rfl]
    have : literal pos (pos.step Text.doubleQuote) (body ++ [Text.doubleQuote] ++ after) =
        .ok (ds, _, after) := literal_iff.mpr ⟨body, h, by simp, rfl⟩
    simp only [List.append_eq, this]
    rfl
  | number h =>
    obtain ⟨d, ds, rfl, hd⟩ := h.chars.2.1
    cases htext
    have hquote : c ≠ Text.doubleQuote := by rintro rfl; exact absurd hd (by decide)
    refine ⟨isGap_wordChar (by simp [isWordChar, hd]), ?_⟩
    unfold cut
    rw [if_neg hquote, if_pos hd]
    exact number_spelled pos h hstop
  | @word c cs hc hcs =>
    cases htext
    have hchar : isWordChar c = true := by simp [isWordChar, hc]
    have hquote : c ≠ Text.doubleQuote := by rintro rfl; exact absurd hc (by decide)
    have hdigit : ¬ isAsciiDigit c = true := fun h => absurd hc (by simp [isWordStart_digit h])
    refine ⟨isGap_wordChar hchar, ?_⟩
    have hrun : ∀ d ∈ c :: cs, isWordChar d = true := by
      intro d hd
      rcases List.mem_cons.mp hd with rfl | hd
      · exact hchar
      · exact hcs d hd
    obtain ⟨htake, hdrop⟩ := takeWhile_run hrun fun d hd => hstop.word c rfl hc d hd
    unfold cut
    rw [if_neg hquote, if_neg hdigit, if_pos hc]
    unfold word
    rw [List.append_eq, ← List.cons_append, htake, hdrop]
  | comparison h =>
    cases htext
    rcases h with rfl | rfl <;> exact ⟨by decide, rfl⟩
  | mark h =>
    cases htext
    obtain ⟨⟨hquote, hdigit, hword, -⟩, hgap, -, -⟩ := ofMark?_char _ h
    refine ⟨hgap, ?_⟩
    unfold cut
    rw [if_neg hquote, if_neg (by simp [hdigit]), if_neg (by simp [hword])]
    exact mark_spelled pos h hstop

/-! ## Layouts -/

/-- The text `cs`, which comes after `before`, is read as the tokens `ts`. -/
inductive Layout : List Char → List Char → List Token → Prop where
  | finish (before : List Char) : Layout before [] [Token.endAt (Position.start.advance before)]
  | gap {before : List Char} {c : Char} {cs : List Char} {ts : List Token}
      (hc : isGap c = true) (h : Layout (before ++ [c]) cs ts) : Layout before (c :: cs) ts
  | token {before raw after : List Char} {kind : Kind} {text : String} {ts : List Token}
      (hs : Spells raw kind text) (hstop : Stops raw kind after)
      (h : Layout (before ++ raw) after ts) :
      Layout before (raw ++ after)
        (⟨kind, text, Position.lineAfter before, Position.columnAfter before⟩ :: ts)

/-- A token is spelled with at least one character. -/
theorem Spells.ne_nil {raw : List Char} {kind : Kind} {text : String} (h : Spells raw kind text) :
    raw ≠ [] := by
  cases h with
  | number h =>
    obtain ⟨d, ds, rfl, -⟩ := h.chars.2.1
    simp
  | _ => simp

/-- Every text has a token, if only its end. -/
theorem Layout.ne_nil {before cs : List Char} {ts : List Token} (h : Layout before cs ts) :
    ts ≠ [] := by
  induction h with
  | gap _ _ ih => exact ih
  | _ => simp

/-- The scan finds exactly the layouts. -/
theorem tokensFrom_iff {before cs : List Char} {ts : List Token} :
    tokensFrom (Position.start.advance before) cs = .ok ts ↔ Layout before cs ts := by
  constructor
  · generalize hpos : Position.start.advance before = pos
    intro h
    fun_induction tokensFrom pos cs generalizing before ts with
    | case1 pos =>
      cases h
      subst hpos
      exact .finish before
    | case2 pos c rest hgap ih =>
      refine .gap hgap (ih ?_ h)
      rw [advance_append, hpos]
      rfl
    | case3 => cases h
    | case4 => cases h
    | case5 pos c rest hgap t hc ts' hts ih =>
      cases h
      obtain ⟨raw, htext, hstop, hspells, hstops⟩ := cut_spells hc
      have hrest : Layout (before ++ raw) t.rest ts' :=
        ih (by rw [advance_append, hpos, hstop]) hts
      rw [htext, ← hpos, Position.start_advance]
      exact .token hspells hstops hrest
  · intro h
    induction h with
    | finish before =>
      unfold tokensFrom
      rfl
    | gap hc _ ih =>
      unfold tokensFrom
      rw [if_pos hc, ← ih, advance_append]
      rfl
    | @token before raw after kind text ts hs hstop _ ih =>
      obtain ⟨c, rest, htext⟩ : ∃ c rest, raw ++ after = c :: rest := by
        obtain ⟨c, raw', rfl⟩ := List.exists_cons_of_ne_nil hs.ne_nil
        exact ⟨c, raw' ++ after, rfl⟩
      obtain ⟨hgap, hcut⟩ := cut_spelled (Position.start.advance before) hs hstop htext.symm
      rw [advance_append] at ih
      rw [htext, Grammar.tokensFrom_cut hgap hcut ih, Position.start_advance]

/-! ## Other texts around a layout -/

/-- A token stops where it did if the same comes next, and at a break. -/
theorem Stops.splice {raw lead after ds : List Char} {kind : Kind} {c : Char}
    (h : Stops raw kind (lead ++ after)) (hc : isGap c = true ∨ c = ';') :
    Stops raw kind (lead ++ c :: ds) := by
  cases lead with
  | nil => exact .of_break hc
  | cons d lead => exact ⟨h.number, h.word, h.equals⟩

/-- From any of its tokens on a text can be replaced by another that starts with a break. What is
left of the first text before the last of its tokens, the `eof`, is all of it. -/
theorem Layout.splice {before cs : List Char} {ts : List Token} (h : Layout before cs ts) {i : Nat}
    (hi : i < ts.length) : ∃ lead after, cs = lead ++ after ∧ (i + 1 = ts.length → after = []) ∧
      ∀ {c : Char} {ds : List Char} {us : List Token}, isGap c = true ∨ c = ';' →
        Layout (before ++ lead) (c :: ds) us →
          Layout before (lead ++ c :: ds) (ts.take i ++ us) := by
  induction h generalizing i with
  | finish before =>
    obtain rfl : i = 0 := by simpa using hi
    exact ⟨[], [], rfl, fun _ => rfl, fun _ h => by simpa using h⟩
  | @gap before c cs ts hc _ ih =>
    obtain ⟨lead, after, rfl, hlast, hsplice⟩ := ih hi
    refine ⟨c :: lead, after, rfl, hlast, fun hd h => .gap hc (hsplice hd ?_)⟩
    rwa [List.append_assoc, List.singleton_append]
  | @token before raw after kind text ts hs hstop h ih =>
    cases i with
    | zero =>
      have : ts.length ≠ 0 := fun h0 => h.ne_nil (List.eq_nil_of_length_eq_zero h0)
      refine ⟨[], raw ++ after, rfl, fun h1 => absurd h1 ?_, fun _ h => ?_⟩
      · rw [List.length_cons]
        omega

      · simpa using h
    | succ i =>
      obtain ⟨lead, after, rfl, hlast, hsplice⟩ := ih (i := i) (by simpa using hi)
      refine ⟨raw ++ lead, after, by simp, fun h1 => hlast (by simpa using h1), fun hd h => ?_⟩
      rw [List.append_assoc, List.take_succ_cons, List.cons_append]
      refine .token hs (hstop.splice hd) (hsplice hd ?_)
      rwa [List.append_assoc]

/-- A text is read as the same tokens, but for their places, after any other. -/
theorem Layout.moved {before cs : List Char} {ts : List Token} (h : Layout before cs ts)
    (before' : List Char) : ∃ us, Layout before' cs us ∧
      List.Forall₂ (fun t u : Token => t.kind = u.kind ∧ t.text = u.text) ts us := by
  induction h generalizing before' with
  | finish before => exact ⟨_, .finish before', .cons ⟨rfl, rfl⟩ .nil⟩
  | gap hc _ ih =>
    obtain ⟨us, hus, hsame⟩ := ih (before' ++ [_])
    exact ⟨us, .gap hc hus, hsame⟩
  | token hs hstop _ ih =>
    obtain ⟨us, hus, hsame⟩ := ih (before' ++ _)
    exact ⟨_, .token hs hstop hus, .cons ⟨rfl, rfl⟩ hsame⟩

/-! ## Distinct places -/

end Scan

namespace Position

/-- A place comes before another in a text. -/
def Precedes (p q : Position) : Prop :=
  p.line < q.line ∨ p.line = q.line ∧ p.column < q.column

/-- Places in a text are in order. -/
theorem Precedes.trans {p q r : Position} (h : p.Precedes q) (h' : q.Precedes r) :
    p.Precedes r := by
  unfold Precedes at *
  omega

/-- A character moves on. -/
theorem precedes_step (p : Position) (c : Char) : p.Precedes (p.step c) := by
  unfold Precedes step
  split
  · exact .inl (Int.lt_succ p.line)
  · exact .inr ⟨rfl, Int.lt_succ p.column⟩

/-- What comes after some text comes after its start. -/
theorem precedes_append {before cs : List Char} (h : cs ≠ []) :
    (start.advance before).Precedes (start.advance (before ++ cs)) := by
  rw [advance_append]
  generalize start.advance before = p
  induction cs generalizing p with
  | nil => exact absurd rfl h
  | cons c cs ih =>
    show p.Precedes ((p.step c).advance cs)
    by_cases hcs : cs = []
    · subst hcs
      exact precedes_step p c
    · exact (precedes_step p c).trans (ih hcs _)

end Position

/-- Where a token starts. -/
def Token.place (t : Token) : Position := ⟨t.line, t.column⟩

namespace Scan

open Position (Precedes)

/-- No token of a layout comes before the place where the layout starts, so all of them come after
a place from which there is some text to it. -/
theorem Layout.after {before cs raw : List Char} {ts : List Token}
    (h : Layout (before ++ raw) cs ts) (hraw : raw ≠ []) :
    ∀ t ∈ ts, (Position.start.advance before).Precedes t.place := by
  generalize htext : before ++ raw = text at h
  induction h generalizing raw with
  | finish text =>
    intro t ht
    rw [List.mem_singleton.mp ht, ← htext]
    exact Position.precedes_append hraw
  | @gap text c _ _ _ _ ih => exact @ih (raw ++ [c]) (by simp) (by simp [← htext])
  | @token text next _ _ _ _ hs _ _ ih =>
    intro t ht
    rcases List.mem_cons.mp ht with rfl | ht
    · show Precedes _ ⟨Position.lineAfter text, Position.columnAfter text⟩
      rw [← Position.start_advance, ← htext]
      exact Position.precedes_append hraw
    · exact @ih (raw ++ next) (by simp [hraw]) (by simp [← htext]) t ht

/-- Every token comes before all that follow it. -/
theorem Layout.ordered {before cs : List Char} {ts : List Token} (h : Layout before cs ts) :
    ts.Pairwise fun t u => t.place.Precedes u.place := by
  induction h with
  | finish before => exact List.pairwise_singleton _ _
  | gap _ _ ih => exact ih
  | @token before raw after kind text ts hs _ h ih =>
    refine List.pairwise_cons.mpr ⟨fun u hu => ?_, ih⟩
    show Precedes ⟨Position.lineAfter before, Position.columnAfter before⟩ _
    rw [← Position.start_advance]
    exact h.after hs.ne_nil u hu

end Scan

/-- A text is tokenized exactly into what it lays out. -/
theorem tokenize_iff {source : String} {ts : List Token} :
    tokenize source = .ok ts ↔ Scan.Layout [] source.toList ts :=
  @Scan.tokensFrom_iff [] source.toList ts

end Avii
