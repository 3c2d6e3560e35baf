import Avii.Grammar.Build
import Avii.Proofs.Grammar.Completeness
import Avii.Proofs.Token.Texts
import Mathlib.Data.List.Forall2

/-!
# Tokens and lexemes

The grammar's lexemes are found in the order of the parse, and only those that the parser can use
are looked for; tokens are cut off a text without knowing what they are for. Where the parser can
use the terminal of a token, it finds that very token: `cut_lexeme` for one of them. Where it can
take the lexemes of all tokens one after the other, the text is parsed as these are
(`tokens_parse`). The two scans differ only where the parser accepts less than the token at hand,
and there the lexeme found need not be the token: `a.let` has a name where the tokens have a
keyword.
-/

namespace Avii.Grammar

open Scan (Cut isWordStart isWordChar cut literal number word mark tokensFrom isGap)
open Text (isAsciiDigit)

/-! ## Terminals of tokens -/

/-- The terminal of an arithmetic operator. -/
def arithmeticTerminal (text : String) : Terminal :=
  if text = "+" then .plus
  else if text = "-" then .minus
  else if text = "*" then .star
  else if text = "/" then .slash
  else if text = "%" then .percent
  else .caret

/-- The terminal of an operator of conditions. -/
def conditionTerminal (text : String) : Terminal :=
  if text = "and" then .andWord
  else if text = "or" then .orWord
  else if text = "==" then .eq
  else .neq

/-- The terminal of a token, by its kind and its text. -/
def terminalOf (kind : Kind) (text : String) : Terminal :=
  match kind with
  | .number => .number
  | .string => .string
  | .ident => .ident
  | .letWord => .letWord
  | .constWord => .constWord
  | .funcWord => .funcWord
  | .ifWord => .ifWord
  | .elseWord => .elseWord
  | .binop => arithmeticTerminal text
  | .condop => conditionTerminal text
  | .equals => .equal
  | .lpar => .lpar
  | .rpar => .rpar
  | .lbrace => .lbrace
  | .rbrace => .rbrace
  | .lsqb => .lsqb
  | .rsqb => .rsqb
  | .comma => .comma
  | .colon => .colon
  | .semi => .semicolon
  | .dot => .dot
  | .eof => .finish

/-- The kind of the tokens that have a terminal. -/
def Terminal.kind : Terminal → Kind
  | .number => .number
  | .string => .string
  | .ident => .ident
  | .letWord => .letWord
  | .constWord => .constWord
  | .funcWord => .funcWord
  | .ifWord => .ifWord
  | .elseWord => .elseWord
  | .plus | .minus | .star | .slash | .percent | .caret => .binop
  | .andWord | .orWord | .eq | .neq => .condop
  | .equal => .equals
  | .lpar => .lpar
  | .rpar => .rpar
  | .lbrace => .lbrace
  | .rbrace => .rbrace
  | .lsqb => .lsqb
  | .rsqb => .rsqb
  | .comma => .comma
  | .colon => .colon
  | .semicolon => .semi
  | .dot => .dot
  | .finish => .eof

theorem terminalOf_kind (kind : Kind) (text : String) : (terminalOf kind text).kind = kind := by
  cases kind with
  | binop =>
    show (arithmeticTerminal text).kind = .binop
    unfold arithmeticTerminal
    repeat' split
    all_goals rfl
  | condop =>
    show (conditionTerminal text).kind = .condop
    unfold conditionTerminal
    repeat' split
    all_goals rfl
  | _ => rfl

/-- A token of another kind has another terminal. -/
theorem terminalOf_ne {kind : Kind} {text : String} {a : Terminal} (h : kind ≠ a.kind) :
    terminalOf kind text ≠ a := by
  rintro rfl
  exact h (terminalOf_kind kind text).symm

theorem leafKind_kind {a : Terminal} (h : a.isPart = true) : a.leafKind = .ofKind a.kind := by
  cases a <;> first | rfl | cases h

/-- A lexeme stands for a token: it has its terminal, and becomes its leaf if it becomes one. -/
structure Lexes (t : Token) (l : Lexeme) : Prop where
  terminal : l.terminal = terminalOf t.kind t.text
  leaf : l.terminal.isPart = true → buildLeaf l = .ok (.leaf t.leaf)

/-- The characters of a cut are a lexeme, wherever its terminal is accepted. -/
structure CutsAs (pos : Position) (cs : List Char) (t : Cut) (raw : List Char) : Prop where
  text : cs = raw ++ t.rest
  stop : t.stop = pos.advance raw
  found : ∀ accepts : Terminal → Bool, accepts (terminalOf t.kind t.text) = true →
    lexemeAt? accepts cs = some (terminalOf t.kind t.text, raw.length)
  leaf : Lexes ⟨t.kind, t.text, pos.line, pos.column⟩
    ⟨terminalOf t.kind t.text, String.ofList raw, pos.line, pos.column⟩

/-! ## Literals -/

/-- The texts that the expression `(\\.|[^"\\])*` matches as a whole: a backslash takes any
character along but a line feed. -/
inductive Enclosed : List Char → Prop where
  | nil : Enclosed []
  | escape {e : Char} {body : List Char} (he : e ≠ '\n') (h : Enclosed body) :
      Enclosed ('\\' :: e :: body)
  | plain {c : Char} {body : List Char} (hq : c ≠ Text.doubleQuote) (hb : c ≠ '\\')
      (h : Enclosed body) : Enclosed (c :: body)

theorem literalLength?_quote (rest : List Char) :
    literalLength? (Text.doubleQuote :: rest) = some 1 := by
  unfold literalLength?
  rw [if_pos rfl]

theorem literalLength?_escape {e : Char} (he : e ≠ '\n') (rest : List Char) :
    literalLength? ('\\' :: e :: rest) = (literalLength? rest).map (· + 2) := by
  rw [literalLength?.eq_def]
  simp only [if_neg (by decide : '\\' ≠ Text.doubleQuote), if_true, if_neg he]

theorem literalLength?_plain {c : Char} (hq : c ≠ Text.doubleQuote) (hb : c ≠ '\\')
    (rest : List Char) : literalLength? (c :: rest) = (literalLength? rest).map (· + 1) := by
  rw [literalLength?.eq_def]
  simp only [if_neg hq, if_neg hb]

/-- The expression has one match at the most, and it is the one that is found. -/
theorem literalLength?_iff {cs : List Char} {n : Nat} :
    literalLength? cs = some n ↔
      ∃ body after, Enclosed body ∧ cs = body ++ Text.doubleQuote :: after ∧
        n = body.length + 1 := by
  constructor
  · intro h
    fun_induction literalLength? cs generalizing n with
    | case1 => cases h
    | case2 rest =>
      cases h
      exact ⟨[], rest, .nil, rfl, rfl⟩
    | case3 => cases h
    | case4 => cases h
    | case5 e rest he _ ih =>
      obtain ⟨m, hm, rfl⟩ := Option.map_eq_some_iff.mp h
      obtain ⟨body, after, hbody, rfl, rfl⟩ := ih hm
      exact ⟨'\\' :: e :: body, after, .escape he hbody, rfl, rfl⟩
    | case6 c rest hq hb ih =>
      obtain ⟨m, hm, rfl⟩ := Option.map_eq_some_iff.mp h
      obtain ⟨body, after, hbody, rfl, rfl⟩ := ih hm
      exact ⟨c :: body, after, .plain hq hb hbody, rfl, rfl⟩
  · rintro ⟨body, after, hbody, rfl, rfl⟩
    induction hbody with
    | nil => exact literalLength?_quote after
    | escape he _ ih =>
      rw [List.cons_append, List.cons_append, literalLength?_escape he, ih]
      rfl
    | plain hq hb _ ih =>
      rw [List.cons_append, literalLength?_plain hq hb, ih]
      rfl

theorem advance_append (pos : Position) (cs ds : List Char) :
    pos.advance (cs ++ ds) = (pos.advance cs).advance ds :=
  List.foldl_append

/-- A literal has its length, and its body denotes what the scan reads. -/
theorem literal_lexeme {opened pos stop : Position} {cs ds after : List Char}
    (h : literal opened pos cs = .ok (ds, stop, after)) :
    ∃ body, cs = body ++ Text.doubleQuote :: after ∧
      stop = pos.advance (body ++ [Text.doubleQuote]) ∧
      literalLength? cs = some (body.length + 1) ∧
      ∀ line, Escape.decodeBody line body = .ok ds := by
  fun_induction literal opened pos cs generalizing ds stop after with
  | case1 => cases h
  | case2 pos rest =>
    cases h
    exact ⟨[], rfl, rfl, literalLength?_quote rest, fun _ => rfl⟩
  | case3 => cases h
  | case4 => cases h
  | case5 pos e rest d hd ds' stop' after' hq heq ih =>
    cases h
    obtain ⟨body, rfl, rfl, hlen, hdecode⟩ := ih heq
    have he : e ≠ '\n' := by
      rintro rfl
      have hnone : Escape.denoted? '\n' = none := by decide
      rw [hnone] at hd
      cases hd
    refine ⟨'\\' :: e :: body, rfl, rfl, ?_, ?_⟩
    · rw [literalLength?_escape he, hlen]
      rfl
    · intro line
      rw [Escape.decodeBody]
      simp only [hd, hdecode line]
      rfl
  | case6 => cases h
  | case7 pos c rest hq hb ds' stop' after' heq ih =>
    cases h
    obtain ⟨body, rfl, rfl, hlen, hdecode⟩ := ih heq
    refine ⟨c :: body, rfl, rfl, ?_, ?_⟩
    · rw [literalLength?_plain hq hb, hlen]
      rfl
    · intro line
      rw [Escape.decodeBody]
      · rw [hdecode line]
        rfl
      · exact fun h => absurd h hb
      · exact fun _ _ h => absurd h hb
  | case8 => cases h

/-! ## Other cuts -/

/-- What is not a literal becomes a leaf as it stands. -/
theorem lexes_plain {kind : Kind} {text : String} {line column : Int} (h : kind ≠ .string) :
    Lexes ⟨kind, text, line, column⟩ ⟨terminalOf kind text, text, line, column⟩ := by
  refine ⟨rfl, fun hpart => ?_⟩
  unfold buildLeaf Token.leaf
  dsimp only
  rw [leafKind_kind hpart, terminalOf_kind]
  split
  next heq => exact absurd heq (terminalOf_ne h)
  next => rfl

theorem drop_takeWhile (p : Char → Bool) (cs : List Char) :
    cs.drop (cs.takeWhile p).length = cs.dropWhile p := by
  conv => lhs; arg 2; rw [← List.takeWhile_append_dropWhile (p := p) (l := cs)]
  exact List.drop_left

theorem number_lexeme {pos : Position} {c : Char} {rest : List Char} {t : Cut}
    (hc : isAsciiDigit c = true) (hquote : c ≠ Text.doubleQuote)
    (h : number pos (c :: rest) = .ok t) : ∃ raw, CutsAs pos (c :: rest) t raw := by
  have hfound : ∀ accepts : Terminal → Bool, accepts .number = true →
      lexemeAt? accepts (c :: rest) = some (.number, numberLength (c :: rest)) := by
    intro accepts ha
    rw [lexemeAt?, if_neg hquote, if_pos hc, if_pos ha]
  have hsplit := List.takeWhile_append_dropWhile (p := isAsciiDigit) (l := c :: rest)
  have hlength := drop_takeWhile isAsciiDigit (c :: rest)
  unfold number at h
  split at h
  next after hdrop =>
    split at h
    next => cases h
    next hfraction =>
      cases h
      refine ⟨(c :: rest).takeWhile isAsciiDigit ++ '.' :: after.takeWhile isAsciiDigit,
        ?_, ?_, ?_, lexes_plain (by simp)⟩
      · rw [List.append_assoc, List.cons_append, List.takeWhile_append_dropWhile, ← hdrop, hsplit]
      · rw [advance_append]
      · intro accepts ha
        rw [hfound accepts ha]
        unfold numberLength
        simp only [hlength, hdrop]
        cases hdigits : after.takeWhile isAsciiDigit with
        | nil => exact absurd hdigits hfraction
        | cons d ds =>
          -- the point and the digits after it count for both scanners
          simp only [List.length_cons, List.length_append]
          rw [Nat.add_assoc, Nat.add_comm 1]
          rfl
  next hpoint =>
    cases h
    refine ⟨(c :: rest).takeWhile isAsciiDigit, hsplit.symm, rfl, ?_, lexes_plain (by simp)⟩
    intro accepts ha
    rw [hfound accepts ha]
    unfold numberLength
    simp only [hlength]
    rfl

/-- A word is a name, or a keyword. -/
theorem keyword?_cases (w : String) :
    (keyword? w = none ∧ Kind.ofWord w = .ident) ∨
      ∃ k, keyword? w = some k ∧ terminalOf (Kind.ofWord w) w = k ∧ Kind.ofWord w ≠ .string ∧
        (k, w.toList) ∈ fixed ∧ k ≠ .equal := by
  unfold keyword? Kind.ofWord
  by_cases h1 : w = "let"
  · subst h1
    exact .inr ⟨_, rfl, rfl, by decide, by decide, by decide⟩
  by_cases h2 : w = "const"
  · subst h2
    exact .inr ⟨_, rfl, rfl, by decide, by decide, by decide⟩
  by_cases h3 : w = "func"
  · subst h3
    exact .inr ⟨_, rfl, rfl, by decide, by decide, by decide⟩
  by_cases h4 : w = "if"
  · subst h4
    exact .inr ⟨_, rfl, rfl, by decide, by decide, by decide⟩
  by_cases h5 : w = "else"
  · subst h5
    exact .inr ⟨_, rfl, rfl, by decide, by decide, by decide⟩
  by_cases h6 : w = "and"
  · subst h6
    exact .inr ⟨_, rfl, rfl, by decide, by decide, by decide⟩
  by_cases h7 : w = "or"
  · subst h7
    exact .inr ⟨_, rfl, rfl, by decide, by decide, by decide⟩
  left
  simp [h1, h2, h3, h4, h5, h6, h7]

/-- No lexeme of a fixed terminal is the front of another, but for `=` and `==`. -/
theorem fixed_apart : ∀ p ∈ fixed, ∀ q ∈ fixed, p.2 <+: q.2 → q.1 ≠ .eq → p = q := by
  decide

/-- A text that starts with a lexeme of a fixed terminal, with `=` only if not with `==`, is found
to do so where that terminal is accepted. -/
theorem fixedAt?_found {accepts : Terminal → Bool} {a : Terminal} {lexeme rest : List Char}
    (ha : accepts a = true) (hmem : (a, lexeme) ∈ fixed)
    (hequal : a = .equal → ∀ more, rest ≠ '=' :: more) :
    fixedAt? accepts (lexeme ++ rest) = some (a, lexeme.length) := by
  have htwo : ∀ p ∈ fixed, p.1 = .eq → p.2 = ['=', '='] := by decide
  by_cases heq : a = .eq
  · subst heq
    obtain rfl : lexeme = ['=', '='] := htwo _ hmem rfl
    simp [fixedAt?, fixed, ha, List.find?, List.isPrefixOf]
  have hsome : (fixed.find? fun p => accepts p.1 && p.2.isPrefixOf (lexeme ++ rest)).isSome :=
    List.find?_isSome.mpr ⟨(a, lexeme), hmem, by simp [ha]⟩
  obtain ⟨p, hp⟩ := Option.isSome_iff_exists.mp hsome
  have hpmem := List.mem_of_find?_eq_some hp
  have hprefix : p.2 <+: lexeme ++ rest := by
    have h := List.find?_some hp
    rw [Bool.and_eq_true, List.isPrefixOf_iff_prefix] at h
    exact h.2
  have hfound : p = (a, lexeme) := by
    rcases List.prefix_or_prefix_of_prefix hprefix (List.prefix_append lexeme rest) with h | h
    · exact fixed_apart p hpmem (a, lexeme) hmem h heq
    · by_cases hpeq : p.1 = .eq
      · -- then the text starts with `==`, and only `=` could be the lexeme
        rw [htwo p hpmem hpeq] at h hprefix
        have hone : ∀ q ∈ fixed, q.2 <+: ['=', '='] → q.1 ≠ .eq → q = (.equal, ['=']) := by
          decide
        obtain ⟨rfl, rfl⟩ := Prod.mk.inj (hone _ hmem h heq)
        obtain ⟨more, hmore⟩ := hprefix
        exact absurd (List.cons.inj hmore).2.symm (hequal rfl more)
      · exact (fixed_apart (a, lexeme) hmem p hpmem h hpeq).symm
  unfold fixedAt?
  simp only [hp, hfound, Option.map_some]

theorem word_lexeme {pos : Position} {c : Char} {rest : List Char} (hquote : c ≠ Text.doubleQuote)
    (hdigit : isAsciiDigit c = false) (hword : isWordStart c = true) :
    ∃ raw, CutsAs pos (c :: rest) (word pos (c :: rest)) raw := by
  have hsplit := List.takeWhile_append_dropWhile (p := isWordChar) (l := c :: rest)
  unfold word
  dsimp only
  rcases keyword?_cases (String.ofList ((c :: rest).takeWhile isWordChar)) with
    ⟨hkey, hkind⟩ | ⟨k, hkey, hterminal, hplain, hmem, hequal⟩
  · rw [hkind]
    refine ⟨_, hsplit.symm, rfl, ?_, lexes_plain (by simp)⟩
    intro accepts ha
    rw [lexemeAt?, if_neg hquote, hdigit, if_neg Bool.false_ne_true, hword, Bool.true_and,
      if_pos (show accepts .ident = true from ha)]
    simp only [hkey]
    rfl
  · refine ⟨_, hsplit.symm, rfl, ?_, lexes_plain hplain⟩
    rw [hterminal]
    intro accepts ha
    rw [lexemeAt?, if_neg hquote, hdigit, if_neg Bool.false_ne_true, hword, Bool.true_and]
    -- where names are not accepted a keyword is found as a fixed lexeme instead
    split
    next =>
      simp only [hkey]
      rw [if_pos ha]
    next =>
      rw [String.toList_ofList] at hmem
      have h := @fixedAt?_found accepts k _ ((c :: rest).dropWhile isWordChar) ha hmem
        fun h => absurd h hequal
      rw [hsplit] at h
      exact h

/-- A mark of one character is a lexeme of a fixed terminal. -/
theorem ofMark?_fixed {c : Char} : ∀ kind, Kind.ofMark? c = some kind →
    (terminalOf kind (String.ofList [c]), [c]) ∈ fixed ∧ kind ≠ .string ∧
      (terminalOf kind (String.ofList [c]) = .equal → c = '=') := by
  unfold Kind.ofMark?
  refine Scan.of_ite ?_ ?_
  · rintro (rfl | rfl | rfl | rfl | rfl | rfl)
    all_goals decide
  repeat refine Scan.of_ite (by rintro rfl; decide) ?_
  intro kind hnone
  cases hnone

theorem mark_lexeme {pos : Position} {c : Char} {rest : List Char} {t : Cut}
    (hquote : c ≠ Text.doubleQuote) (hdigit : isAsciiDigit c = false)
    (hword : isWordStart c = false) (h : mark pos c rest = .ok t) :
    ∃ raw, CutsAs pos (c :: rest) t raw := by
  have hfound : ∀ accepts : Terminal → Bool,
      lexemeAt? accepts (c :: rest) = fixedAt? accepts (c :: rest) := by
    intro accepts
    rw [lexemeAt?, if_neg hquote, hdigit, if_neg Bool.false_ne_true, hword, Bool.false_and,
      if_neg Bool.false_ne_true]
  unfold mark at h
  split at h
  next rest =>
    cases h
    refine ⟨['=', '='], rfl, rfl, ?_, lexes_plain (by simp)⟩
    intro accepts ha
    rw [hfound]
    exact @fixedAt?_found accepts .eq ['=', '='] rest ha (by decide)
      fun h => absurd h (by decide)
  next rest =>
    cases h
    refine ⟨['!', '='], rfl, rfl, ?_, lexes_plain (by simp)⟩
    intro accepts ha
    rw [hfound]
    exact @fixedAt?_found accepts .neq ['!', '='] rest ha (by decide)
      fun h => absurd h (by decide)
  next hdouble _ =>
    split at h
    next kind hkind =>
      cases h
      obtain ⟨hmem, hplain, hequal⟩ := ofMark?_fixed kind hkind
      refine ⟨[c], rfl, rfl, ?_, lexes_plain hplain⟩
      intro accepts ha
      rw [hfound]
      refine @fixedAt?_found accepts _ [c] rest ha hmem ?_
      -- a second `=` would have been taken along
      intro h more hmore
      exact hdouble _ (hequal h) hmore
    next => cases h

/-- What is cut off a text is a lexeme, wherever its terminal is accepted. -/
theorem cut_lexeme {pos : Position} {c : Char} {rest : List Char} {t : Cut}
    (h : cut pos c rest = .ok t) : ∃ raw, CutsAs pos (c :: rest) t raw := by
  unfold cut at h
  by_cases hquote : c = Text.doubleQuote
  · rw [if_pos hquote] at h
    subst hquote
    split at h
    next ds stop after heq =>
      cases h
      obtain ⟨body, rfl, rfl, hlen, hdecode⟩ := literal_lexeme heq
      refine ⟨Text.doubleQuote :: (body ++ [Text.doubleQuote]), by simp, rfl, ?_, rfl, ?_⟩
      · intro accepts ha
        rw [lexemeAt?, if_pos rfl, if_pos (show accepts .string = true from ha), hlen]
        simp [terminalOf]
      · intro _
        simp only [buildLeaf, terminalOf, String.toList_ofList, List.drop_succ_cons, List.drop_zero,
          List.dropLast_concat, hdecode]
        rfl
    next => cases h
  · rw [if_neg hquote] at h
    cases hdigit : isAsciiDigit c with
    | true =>
      rw [if_pos hdigit] at h
      exact number_lexeme hdigit hquote h
    | false =>
      rw [hdigit, if_neg Bool.false_ne_true] at h
      cases hword : isWordStart c with
      | true =>
        rw [if_pos hword] at h
        cases h
        exact word_lexeme hquote hdigit hword
      | false =>
        rw [hword, if_neg Bool.false_ne_true] at h
        exact mark_lexeme hquote hdigit hword h

/-! ## Whole texts -/

section Texts

variable {t : Lalr.Table}

/-- A lexeme that can be taken is accepted. -/
theorem accepts_of_take? {s s' : Stack} {l : Lexeme} (h : s.take? t l = some s') :
    s.accepts t l.terminal = true := by
  unfold Stack.accepts Lalr.Table.accepts
  cases ha : t.action? s.top l.terminal.code with
  | some => rfl
  | none =>
    have hsettle : Stack.settle t l.terminal s.rounds s = none := by
      have hrounds : s.rounds = s.rounds - 1 + 1 := by
        have : s.rounds = s.length * (Variable.count + 1) + (Variable.count + 1) :=
          Nat.succ_mul ..
        omega
      rw [hrounds, Stack.settle]
      simp only [ha]
    rw [Stack.take?, hsettle] at h
    cases h

theorem takes_nil {s u : Stack} {rest : List Lexeme} (h : Takes t s [] u rest) : rest = [] := by
  cases h
  rfl

/-- One lexeme of a text is taken. -/
theorem parseFrom_take {s s' : Stack} {l : Lexeme} {raw after : List Char} {c : Char}
    {rest : List Char} {pos last : Position} {steps : Nat} (hgap : isGap c = false)
    (htext : c :: rest = raw ++ after)
    (hfound : lexemeAt? (s.accepts t) (c :: rest) = some (l.terminal, raw.length))
    (hl : l = ⟨l.terminal, String.ofList raw, pos.line, pos.column⟩)
    (htake : s.take? t l = some s') :
    parseFrom t (steps + 1) s last pos (c :: rest) =
      parseFrom t steps s' pos (pos.advance raw) after := by
  rw [parseFrom, hgap, if_neg Bool.false_ne_true]
  simp only [hfound]
  rw [htext, List.take_left, List.drop_left, ← hl]
  simp only [htake]

/-- A text is parsed as the lexemes of its tokens are: where these are taken one after the other,
the program ends with the stack that they lead to. -/
theorem tokens_parse {pos : Position} {cs : List Char} {ts : List Token}
    (h : tokensFrom pos cs = .ok ts) :
    ∃ ls, List.Forall₂ Lexes ts ls ∧
      ∀ (s u : Stack) (e : Lexeme) (steps : Nat) (last : Position), Takes t s ls u [e] →
        cs.length < steps → ∃ last', parseFrom t steps s last pos cs = u.finish t last' := by
  fun_induction tokensFrom pos cs generalizing ts with
  | case1 pos =>
    cases h
    refine ⟨[⟨.finish, "", pos.line, pos.column⟩], .cons ⟨rfl, by simp [Terminal.isPart]⟩ .nil, ?_⟩
    intro s u e steps last htakes hsteps
    cases htakes with
    | step _ hrest => cases takes_nil hrest
    | refl =>
      obtain ⟨n, rfl⟩ : ∃ n, steps = n + 1 := ⟨steps - 1, by omega⟩
      exact ⟨last, rfl⟩
  | case2 pos c rest hgap ih =>
    obtain ⟨ls, hls, hparse⟩ := ih h
    refine ⟨ls, hls, ?_⟩
    intro s u e steps last htakes hsteps
    obtain ⟨n, rfl⟩ : ∃ n, steps = n + 1 := ⟨steps - 1, by omega⟩
    rw [parseFrom, if_pos hgap]
    exact hparse s u e n last htakes (Nat.lt_of_succ_lt_succ hsteps)
  | case3 => cases h
  | case4 => cases h
  | case5 pos c rest hgap t' hc ts' hts ih =>
    cases h
    obtain ⟨ls, hls, hparse⟩ := ih hts
    obtain ⟨raw, hraw⟩ := cut_lexeme hc
    refine ⟨_ :: ls, .cons hraw.leaf hls, ?_⟩
    intro s u e steps last htakes hsteps
    obtain ⟨n, rfl⟩ : ∃ n, steps = n + 1 := ⟨steps - 1, by omega⟩
    cases htakes with
    | refl =>
      -- a text has at least the token that closes it
      cases hls
      obtain ⟨body, close, hbody, -⟩ := Scan.tokensFrom_endsOnce hts
      exact absurd hbody (by simp)
    | @step _ _ s' _ _ _ htake hrest =>
      have hlength := Scan.cut_length hc
      rw [parseFrom_take (by simpa using hgap) hraw.text (hraw.found _ (accepts_of_take? htake)) rfl
        htake, ← hraw.stop]
      exact hparse s' u e n pos hrest (by omega)

end Texts

end Avii.Grammar
