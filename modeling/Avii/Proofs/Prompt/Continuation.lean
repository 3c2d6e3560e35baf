import Avii.Prompt.Keys
import Avii.Proofs.Syntax.Acceptance
import Avii.Proofs.Token.Layout

/-!
# Complete programs are not held back

The prompt holds a text back while a bracket or a literal is open. A text that would run is never
held back (`complete_submits`), although it is the text as typed that the prompt looks at, and the
text without its invisible characters that would run.

Two facts meet here. The brackets of every phrase are balanced (`derives_depth`), whatever the depth
in front of it. And brackets and literals can be followed through a text without looking at any
other token (`ending`); on this an invisible character has no effect, unless it comes after a
backslash, where it makes an escape that the scan refuses (`ending_visible`). Such a text is not
held back either.
-/

namespace Avii

/-- The depth of open brackets after a token of a kind; a closing bracket too many does not
count. -/
def Kind.depthAfter (k : Kind) (d : Nat) : Nat :=
  if k.opens then d + 1 else if k.closes then d - 1 else d

namespace Syntax

/-! ## Brackets of phrases -/

/-- The depth of open brackets after some tokens, from a depth before them. -/
def depthFrom (d : Nat) (ts : List Token) : Nat :=
  ts.foldl (fun d t => t.kind.depthAfter d) d

theorem depthFrom_cons (d : Nat) (t : Token) (ts : List Token) :
    depthFrom d (t :: ts) = depthFrom (t.kind.depthAfter d) ts :=
  rfl

/-- A token that is no bracket leaves the depth alone. -/
theorem depthFrom_over {t : Token} {k : Kind} (ht : t.kind = k) (d : Nat) (ts : List Token)
    (hk : ∀ d, k.depthAfter d = d := by exact fun _ => rfl) :
    depthFrom d (t :: ts) = depthFrom d ts := by
  rw [depthFrom_cons, ht, hk]

/-- What is in a pair of brackets is one deeper, and what is past them is not. -/
theorem depthFrom_enclosed {l r : Token} {ts rest : List Token} (hl : l.kind.opens = true)
    (hr : r.kind.closes = true) (h : ∀ d, depthFrom d ts = depthFrom d (r :: rest)) (d : Nat) :
    depthFrom d (l :: ts) = depthFrom d rest := by
  have hopen : l.kind.depthAfter d = d + 1 := by rw [Kind.depthAfter, if_pos hl]
  have hclose : r.kind.depthAfter (d + 1) = d := by
    have hr' : r.kind.opens = false := by
      cases hk : r.kind <;> simp_all [Kind.opens, Kind.closes]
    simp [Kind.depthAfter, hr', hr]
  rw [depthFrom_cons, hopen, h, depthFrom_cons, hclose]

/-- The brackets of a phrase are balanced. -/
theorem derives_depth {φ : Phrase} {ts rest : List Token} {out : List Tree}
    (h : Derives φ ts out rest) (d : Nat) : depthFrom d ts = depthFrom d rest := by
  induction h generalizing d with
  | noItems | noMoreParams | noArguments | noMoreArguments | noProperties => rfl
  | semicolon ht _ ih => rw [depthFrom_over ht, ih]
  | item _ _ ihs ih | arguments _ _ ihs ih => rw [ihs, ih]
  | expressionItem _ _ _ ihe ih => rw [ihe, ih]
  | bareDeclaration hw hn hs => rw [depthFrom_over hw, depthFrom_over hn, depthFrom_over hs]
  | declaration hw hn heq _ hs ih =>
    rcases hw with hw | hw
    · rw [depthFrom_over hw, depthFrom_over hn, depthFrom_over heq, ih, depthFrom_over hs]
    · rw [depthFrom_over hw, depthFrom_over hn, depthFrom_over heq, ih, depthFrom_over hs]
  | function hw hn _ _ ihps ihb => rw [depthFrom_over hw, depthFrom_over hn, ihps, ihb]
  | conditional _ ih | value _ ih | operand _ ih | base _ ih | primary _ ih
  | lastProperty _ ih => exact ih d
  | ifOnly hw _ _ ihe ihb => rw [depthFrom_over hw, ihe, ihb]
  | ifElse hw _ _ ho _ ihe ihb ihc | ifElseIf hw _ _ ho _ ihe ihb ihc =>
    rw [depthFrom_over hw, ihe, ihb, depthFrom_over ho, ihc]
  | block hl _ hr ih | parenthesized hl _ hr ih | object hl _ hr ih | array hl _ hr ih =>
    exact depthFrom_enclosed (by rw [hl]; rfl) (by rw [hr]; rfl) ih d
  | noParams hl hr =>
    exact depthFrom_enclosed (by rw [hl]; rfl) (by rw [hr]; rfl) (fun _ => rfl) d
  | params hl hp _ hr _ ih =>
    exact depthFrom_enclosed (by rw [hl]; rfl) (by rw [hr]; rfl)
      (fun d => by rw [depthFrom_over hp, ih]) d
  | moreParams hc hp _ ih => rw [depthFrom_over hc, depthFrom_over hp, ih]
  | assignment _ heq _ _ iht ihe => rw [iht, depthFrom_over heq, ihe]
  | join _ hop _ iha ihb =>
    rcases isOperator_kind hop with hk | hk
    · rw [iha, depthFrom_over hk, ihb]
    · rw [iha, depthFrom_over hk, ihb]
  | raise _ hop _ iha ihb => rw [iha, depthFrom_over (kind_of_isOneOf hop), ihb]
  | field _ hd hn ih => rw [ih, depthFrom_over hd, depthFrom_over hn]
  | index _ hl _ hr ihe ihk | call _ hl _ hr ihe ihk =>
    rw [ihe]
    exact depthFrom_enclosed (by rw [hl]; rfl) (by rw [hr]; rfl) ihk d
  | moreArguments hc _ _ ihe ih => rw [depthFrom_over hc, ihe, ih]
  | atom ht =>
    rcases ht with ht | ht | ht
    · exact depthFrom_over ht d _
    · exact depthFrom_over ht d _
    · exact depthFrom_over ht d _
  | functionLiteral hw _ _ ihps ihb => rw [depthFrom_over hw, ihps, ihb]
  | properties _ hc _ ihp ih => rw [ihp, depthFrom_over hc, ih]
  | shorthand hk => exact depthFrom_over hk d _
  | property hk hc _ ih => rw [depthFrom_over hk, depthFrom_over hc, ih]

/-- No bracket of a program is left open. -/
theorem IsProgram.openDepth {ts : List Token} {t : Tree} (h : IsProgram ts t) :
    Prompt.openDepth ts = 0 := by
  obtain ⟨ss, e, he, hss, -⟩ := h
  have := derives_depth hss 0
  rwa [depthFrom_over he] at this

end Syntax

open Syntax (depthFrom)

namespace Prompt

open Scan (Spells Denotes cut cut_spells tokensFrom literal isGap isWordChar)
open Text (isAsciiDigit)

/-! ## Brackets and literals of texts -/

/-- How a text ends. -/
inductive Ending where
  /-- Outside of literals, at a depth of open brackets. -/
  | outside (depth : Nat)
  /-- In a literal that is open. -/
  | inside
  /-- Nowhere: there is a bad escape before. -/
  | broken
deriving DecidableEq

/-- The depth of open brackets after a character that is not part of a literal. -/
def depthAfter (d : Nat) (c : Char) : Nat :=
  match Kind.ofMark? c with
  | some k => k.depthAfter d
  | none => d

/-- How a text ends that starts at a depth of brackets, in a literal or outside. -/
def ending (d : Nat) (within : Bool) : List Char → Ending
  | [] => if within then .inside else .outside d
  | c :: cs =>
    if within then
      if c = Text.doubleQuote then ending d false cs
      else if c = '\\' then
        match cs with
        | [] => .inside
        | e :: cs => if (Escape.denoted? e).isSome then ending d true cs else .broken
      else ending d true cs
    else if c = Text.doubleQuote then ending d true cs
    else ending (depthAfter d c) false cs

section Equations

variable (d : Nat) (cs : List Char)

theorem ending_opening : ending d false (Text.doubleQuote :: cs) = ending d true cs := by
  rw [ending.eq_def]
  simp only [Bool.false_eq_true, if_false, if_true]

theorem ending_closing : ending d true (Text.doubleQuote :: cs) = ending d false cs := by
  rw [ending.eq_def]
  simp only [if_true]

theorem ending_escape (e : Char) : ending d true ('\\' :: e :: cs) =
    if (Escape.denoted? e).isSome then ending d true cs else .broken := by
  rw [ending.eq_def]
  simp only [if_true, if_neg (by decide : '\\' ≠ Text.doubleQuote)]

theorem ending_inner {c : Char} (hq : c ≠ Text.doubleQuote) (hb : c ≠ '\\') :
    ending d true (c :: cs) = ending d true cs := by
  rw [ending.eq_def]
  simp only [if_true, if_neg hq, if_neg hb]

theorem ending_outer {c : Char} (hq : c ≠ Text.doubleQuote) :
    ending d false (c :: cs) = ending (depthAfter d c) false cs := by
  rw [ending.eq_def]
  simp only [Bool.false_eq_true, if_false, if_neg hq]

end Equations

/-- A run of characters that are neither quotes nor marks. -/
theorem ending_plain {raw : List Char}
    (hraw : ∀ c ∈ raw, c ≠ Text.doubleQuote ∧ ∀ d, depthAfter d c = d) (d : Nat)
    (after : List Char) : ending d false (raw ++ after) = ending d false after := by
  induction raw with
  | nil => rfl
  | cons c raw ih =>
    obtain ⟨hc, hdepth⟩ := hraw c List.mem_cons_self
    rw [List.cons_append, ending_outer _ _ hc, hdepth,
      ih fun e he => hraw e (List.mem_cons_of_mem c he)]

/-- A body that denotes something is passed over, and so is the quote after it. -/
theorem ending_body {body ds : List Char} (h : Denotes body ds) (d : Nat) (after : List Char) :
    ending d true (body ++ Text.doubleQuote :: after) = ending d false after := by
  induction h with
  | nil => exact ending_closing d after
  | escape hd _ ih => rw [List.cons_append, List.cons_append, ending_escape, hd, ← ih]; rfl
  | plain hq hb _ ih => rw [List.cons_append, ending_inner _ _ hq hb, ih]

/-- In a literal that is never closed no escape is bad: the scan would have stopped there. -/
theorem ending_open {opened pos : Position} {cs : List Char} {l c : Int}
    (h : literal opened pos cs = .error (.unterminatedString l c)) (d : Nat) :
    ending d true cs = .inside := by
  fun_induction literal opened pos cs with
  | case1 => rfl
  | case2 => cases h
  | case3 =>
    rw [ending.eq_def]
    simp only [if_true, if_neg (by decide : '\\' ≠ Text.doubleQuote)]
  | case4 => cases h
  | case5 => cases h
  | case6 _ _ _ _ hd _ _ herr ih =>
    cases h
    rw [ending_escape, hd, ← ih herr]
    rfl
  | case7 => cases h
  | case8 _ _ _ hq hb _ herr ih =>
    cases h
    rw [ending_inner _ _ hq hb, ih herr]

/-! ## Tokens -/

/-- A character that is no bracket leaves the depth alone. -/
theorem depthAfter_other {c : Char} (h : ∀ k, Kind.ofMark? c = some k → ∀ d, k.depthAfter d = d)
    (d : Nat) : depthAfter d c = d := by
  unfold depthAfter
  split
  next k hk => exact h k hk d
  next => rfl

/-- Gaps and the characters of words and numbers are neither quotes nor brackets. -/
theorem ordinary_inert {c : Char}
    (h : isWordChar c = true ∨ isGap c = true ∨ c = '.' ∨ c = '=' ∨ c = '!') :
    c ≠ Text.doubleQuote ∧ ∀ d, depthAfter d c = d := by
  refine ⟨?_, depthAfter_other fun k hk => ?_⟩
  · rintro rfl
    exact absurd h (by decide)
  · obtain ⟨⟨-, hdigit, hword, hbang⟩, hgap, -, -⟩ := Scan.ofMark?_char k hk
    rcases h with h | h | rfl | rfl | rfl
    · simp [isWordChar, hdigit, hword] at h
    · simp [hgap] at h
    · cases hk
      exact fun _ => rfl
    · cases hk
      exact fun _ => rfl
    · exact absurd rfl hbang

theorem ofWord_depthAfter (w : String) (d : Nat) : (Kind.ofWord w).depthAfter d = d := by
  unfold Kind.ofWord
  repeat' split
  all_goals rfl

/-- What spells a token has the effect of the token. -/
theorem ending_spelled {raw : List Char} {kind : Kind} {text : String} (h : Spells raw kind text)
    (d : Nat) (after : List Char) :
    ending d false (raw ++ after) = ending (kind.depthAfter d) false after := by
  cases h with
  | @literal body ds h =>
    rw [List.cons_append, List.append_assoc, List.singleton_append, ending_opening, ending_body h]
    rfl
  | number h =>
    refine ending_plain (fun c hc => ordinary_inert ?_) d after
    rcases h.chars.1 c hc with hdigit | hdot
    · exact .inl (by simp [isWordChar, hdigit])
    · exact .inr (.inr (.inl hdot))
  | @word c cs hc hcs =>
    rw [ofWord_depthAfter]
    refine ending_plain (fun e he => ordinary_inert (.inl ?_)) d after
    rcases List.mem_cons.mp he with rfl | he
    · simp [isWordChar, hc]
    · exact hcs e he
  | comparison h =>
    refine ending_plain (fun e he => ordinary_inert ?_) d after
    rcases List.mem_pair.mp he with rfl | rfl
    · exact .inr (.inr (.inr h))
    · exact .inr (.inr (.inr (.inl rfl)))
  | mark h =>
    obtain ⟨⟨hquote, -⟩, -⟩ := Scan.ofMark?_char _ h
    rw [List.singleton_append, ending_outer _ _ hquote, depthAfter, h]

/-- Where there is no token because of an open literal, the text ends in it. -/
theorem ending_uncut {pos : Position} {c : Char} {rest : List Char} {l k : Int}
    (h : cut pos c rest = .error (.unterminatedString l k)) (d : Nat) :
    ending d false (c :: rest) = .inside := by
  unfold cut at h
  split at h
  next hquote =>
    subst hquote
    split at h
    next => cases h
    next hopen =>
      cases h
      rw [ending_opening, ending_open hopen]
  next =>
    -- numbers and marks fail in other ways
    exfalso
    split at h
    next =>
      unfold Scan.number at h
      split at h
      next =>
        split at h
        next => cases h
        next => cases h
      next => cases h
    next =>
      split at h
      next => cases h
      next =>
        unfold Scan.mark at h
        split at h
        next => cases h
        next => cases h
        next =>
          split at h
          next => cases h
          next => cases h

/-- A text that is read as tokens ends where these end. -/
theorem ending_tokens {pos : Position} {cs : List Char} {ts : List Token}
    (h : tokensFrom pos cs = .ok ts) (d : Nat) :
    ending d false cs = .outside (depthFrom d ts) := by
  fun_induction tokensFrom pos cs generalizing ts d with
  | case1 =>
    cases h
    rfl
  | case2 pos c rest hgap ih =>
    obtain ⟨hquote, hdepth⟩ := ordinary_inert (.inr (.inl hgap))
    rw [ending_outer _ _ hquote, hdepth, ih h]
  | case3 => cases h
  | case4 => cases h
  | case5 pos c rest hgap t hcut ts' hts ih =>
    cases h
    obtain ⟨raw, htext, -, hspells, -⟩ := cut_spells hcut
    rw [htext, ending_spelled hspells, ih hts]
    rfl

/-- A text in which a literal is open ends in it. -/
theorem ending_unterminated {pos : Position} {cs : List Char} {l k : Int}
    (h : tokensFrom pos cs = .error (.unterminatedString l k)) (d : Nat) :
    ending d false cs = .inside := by
  fun_induction tokensFrom pos cs generalizing d with
  | case1 => cases h
  | case2 pos c rest hgap ih =>
    obtain ⟨hquote, hdepth⟩ := ordinary_inert (.inr (.inl hgap))
    rw [ending_outer _ _ hquote, hdepth, ih h]
  | case3 pos c rest hgap e hcut =>
    cases h
    exact ending_uncut hcut d
  | case4 pos c rest hgap t hcut e hts ih =>
    cases h
    obtain ⟨raw, htext, -, hspells, -⟩ := cut_spells hcut
    rw [htext, ending_spelled hspells, ih hts]
  | case5 => cases h

/-! ## Invisible characters -/

/-- An invisible character is no quote, no backslash, no escape and no bracket. -/
theorem invisible_inert {c : Char} (h : isInvisible c = true) :
    c ≠ Text.doubleQuote ∧ c ≠ '\\' ∧ Escape.denoted? c = none ∧ ∀ d, depthAfter d c = d := by
  have hc : c.toNat = 0x200B ∨ c.toNat = 0x200C ∨ c.toNat = 0x200D ∨ c.toNat = 0xFEFF ∨
      c.toNat = 0xA0 ∨ c.toNat = 13 := by
    simpa [isInvisible, or_assoc] using h
  rw [← Char.ofNat_toNat c]
  rcases hc with hc | hc | hc | hc | hc | hc <;> rw [hc] <;>
    exact ⟨by decide, by decide, by decide, fun _ => rfl⟩

theorem filter_visible {c : Char} (h : isInvisible c = false) (cs : List Char) :
    (c :: cs).filter (!isInvisible ·) = c :: cs.filter (!isInvisible ·) :=
  List.filter_cons_of_pos (by simp [h])

theorem filter_invisible {c : Char} (h : isInvisible c = true) (cs : List Char) :
    (c :: cs).filter (!isInvisible ·) = cs.filter (!isInvisible ·) :=
  List.filter_cons_of_neg (by simp [h])

/-- Without its invisible characters a text ends as it does with them, unless one of them makes a
bad escape. -/
theorem ending_visible (d : Nat) (within : Bool) (cs : List Char) :
    ending d within cs = .broken ∨
      ending d within (cs.filter (!isInvisible ·)) = ending d within cs := by
  have hquote : isInvisible Text.doubleQuote = false := by decide
  have hslash : isInvisible '\\' = false := by decide
  fun_induction ending d within cs with
  | case1 | case4 => exact .inr rfl
  | case2 d within hout =>
    rw [Bool.eq_false_iff.mpr hout]
    exact .inr rfl
  | case3 d cs ih => rwa [filter_visible hquote, ending_closing]
  | case5 d e cs hd _ ih =>
    have he : isInvisible e = false :=
      Bool.eq_false_iff.mpr fun h => by simp [(invisible_inert h).2.2.1] at hd
    rwa [filter_visible hslash, filter_visible he, ending_escape, if_pos hd]
  | case6 => exact .inl rfl
  | case7 d c cs hq hb ih =>
    cases hc : isInvisible c with
    | true => rwa [filter_invisible hc]
    | false => rwa [filter_visible hc, ending_inner _ _ hq hb]
  | case8 d within cs hout ih =>
    rwa [filter_visible hquote, Bool.eq_false_iff.mpr hout, ending_opening]
  | case9 d within c cs hout hq ih =>
    rw [Bool.eq_false_iff.mpr hout]
    cases hc : isInvisible c with
    | true =>
      rw [(invisible_inert hc).2.2.2] at ih ⊢
      rwa [filter_invisible hc]
    | false => rwa [filter_visible hc, ending_outer _ _ hq]

/-! ## Complete programs -/

/-- A text that would run, once its invisible characters are gone, is not held back. -/
theorem complete_submits {text : String} {ts : List Token} {n : Nat} {t : Tree}
    (hts : tokenize (normalize text) = .ok ts) (ht : (Parser.program n).run ts = .ok t) :
    needsContinuation text = false ∧ submits text = true := by
  have hdepth : depthFrom 0 ts = 0 := (Syntax.program_reads ht (tokenize_endsOnce hts)).openDepth
  have hnormal : ending 0 false (text.toList.filter (!isInvisible ·)) = .outside 0 := by
    have := ending_tokens hts 0
    rwa [normalize, String.toList_ofList, hdepth] at this
  have htyped : ending 0 false text.toList = .broken ∨ ending 0 false text.toList = .outside 0 :=
    (ending_visible 0 false text.toList).imp_right fun h => h.symm.trans hnormal
  have hnot : needsContinuation text = false := by
    unfold needsContinuation
    split
    next us hus =>
      have hends : ending 0 false text.toList = .outside (openDepth us) := ending_tokens hus 0
      rw [hends] at htyped
      simp only [reduceCtorEq, Ending.outside.injEq, false_or] at htyped
      simp [htyped]
    next l k hopen =>
      have hends : ending 0 false text.toList = .inside := ending_unterminated hopen 0
      rw [hends] at htyped
      simp at htyped
    next => rfl
  exact ⟨hnot, by simp [submits, hnot]⟩

/-- The bracket in this literal is not one, with or without the invisible character after it. -/
theorem complete_submits_literal :
    needsContinuation "f(\"[\u200b\")" = false ∧ submits "f(\"[\u200b\")" = true := by
  have hts : tokenize (normalize "f(\"[\u200b\")") = .ok [⟨.ident, "f", 1, 1⟩, ⟨.lpar, "(", 1, 2⟩,
      ⟨.string, "[", 1, 3⟩, ⟨.rpar, ")", 1, 6⟩, ⟨.eof, "", 1, 7⟩] := by decide +kernel
  exact complete_submits (n := 20) hts rfl

end Prompt

end Avii
