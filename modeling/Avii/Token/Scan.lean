import Avii.Text.Digit
import Avii.Token.Escape

/-!
# From text to tokens

`tokenize` reads a text from left to right. Space, tab, carriage return and line feed stand between
tokens. A token is the longest number, word or operator at its place, or a string literal up to its
closing quote. Positions are those of the first character of each token.
-/

namespace Avii

/-- The kind of a word: a keyword, a word operator, or a name. -/
def Kind.ofWord (w : String) : Kind :=
  if w = "let" then .letWord
  else if w = "const" then .constWord
  else if w = "func" then .funcWord
  else if w = "if" then .ifWord
  else if w = "else" then .elseWord
  else if w = "and" ∨ w = "or" then .condop
  else .ident

/-- The kind of an operator or punctuation mark of one character. -/
def Kind.ofMark? (c : Char) : Option Kind :=
  if c = '+' ∨ c = '-' ∨ c = '*' ∨ c = '/' ∨ c = '%' ∨ c = '^' then some .binop
  else if c = '=' then some .equals
  else if c = '(' then some .lpar
  else if c = ')' then some .rpar
  else if c = '\x7b' then some .lbrace
  else if c = '\x7d' then some .rbrace
  else if c = '[' then some .lsqb
  else if c = ']' then some .rsqb
  else if c = ',' then some .comma
  else if c = ':' then some .colon
  else if c = ';' then some .semi
  else if c = '.' then some .dot
  else none

namespace Scan

open Text (isAsciiDigit)

/-! ## Characters -/

/-- The characters that may stand between tokens. -/
def isGap (c : Char) : Bool :=
  c = ' ' ∨ c = '\t' ∨ c = '\r' ∨ c = '\n'

/-- A character that may start a word: an ASCII letter or the underscore. -/
def isWordStart (c : Char) : Bool :=
  c = '_' ∨ ('a' ≤ c ∧ c ≤ 'z') ∨ ('A' ≤ c ∧ c ≤ 'Z')

/-- A character that may go on in a word. -/
def isWordChar (c : Char) : Bool :=
  isWordStart c || isAsciiDigit c

/-! ## Cutting tokens off a text -/

/-- What the scan cuts off the front of a text: a token's kind and text, the place just past it and
the characters that follow. -/
structure Cut where
  kind : Kind
  text : String
  stop : Position
  rest : List Char

/-- Reads a literal from just past its opening quote, which stands at `opened`: the characters it
denotes, the place past its closing quote, and the rest. -/
def literal (opened pos : Position) :
    List Char → Except LexError (List Char × Position × List Char)
  | [] => .error (.unterminatedString opened.line opened.column)
  | c :: rest =>
    if c = Text.doubleQuote then .ok ([], pos.step c, rest)
    else if c = '\\' then
      match rest with
      | [] => .error (.unterminatedString opened.line opened.column)
      | e :: rest =>
        match Escape.denoted? e with
        | none => .error (.badEscape (String.ofList [e]) pos.line)
        | some d =>
          match literal opened ((pos.step c).step e) rest with
          | .ok (ds, stop, after) => .ok (d :: ds, stop, after)
          | .error err => .error err
    else
      match literal opened (pos.step c) rest with
      | .ok (ds, stop, after) => .ok (c :: ds, stop, after)
      | .error err => .error err

/-- Reads a number that starts with a digit: digits, and a point with digits if a point follows. -/
def number (pos : Position) (cs : List Char) : Except LexError Cut :=
  let whole := cs.takeWhile isAsciiDigit
  let past := pos.advance whole
  match cs.dropWhile isAsciiDigit with
  | '.' :: after =>
    match after.takeWhile isAsciiDigit with
    | [] => .error (.malformedNumber (String.ofList whole) past.line past.column)
    | fraction =>
      .ok ⟨.number, String.ofList (whole ++ '.' :: fraction), past.advance ('.' :: fraction),
        after.dropWhile isAsciiDigit⟩
  | after => .ok ⟨.number, String.ofList whole, past, after⟩

/-- Reads a word. -/
def word (pos : Position) (cs : List Char) : Cut :=
  let w := cs.takeWhile isWordChar
  ⟨Kind.ofWord (String.ofList w), String.ofList w, pos.advance w, cs.dropWhile isWordChar⟩

/-- Reads an operator or a punctuation mark: two characters where they are one operator. -/
def mark (pos : Position) (c : Char) (rest : List Char) : Except LexError Cut :=
  match c, rest with
  | '=', '=' :: rest => .ok ⟨.condop, "==", pos.advance ['=', '='], rest⟩
  | '!', '=' :: rest => .ok ⟨.condop, "!=", pos.advance ['!', '='], rest⟩
  | c, rest =>
    match Kind.ofMark? c with
    | some kind => .ok ⟨kind, String.ofList [c], pos.step c, rest⟩
    | none => .error (.unexpectedCharacter c pos.line pos.column)

/-- Cuts one token off a text that starts with `c`, which is not a gap. -/
def cut (pos : Position) (c : Char) (rest : List Char) : Except LexError Cut :=
  if c = Text.doubleQuote then
    match literal pos (pos.step c) rest with
    | .ok (ds, stop, after) => .ok ⟨.string, String.ofList ds, stop, after⟩
    | .error e => .error e
  else if isAsciiDigit c then number pos (c :: rest)
  else if isWordStart c then .ok (word pos (c :: rest))
  else mark pos c rest

/-! ## Progress -/

/-- Dropping characters makes a text no longer. -/
theorem dropWhile_length_le (p : Char → Bool) (cs : List Char) :
    (cs.dropWhile p).length ≤ cs.length :=
  (List.dropWhile_sublist p).length_le

/-- Dropping the first character makes a text shorter. -/
theorem dropWhile_length_lt {p : Char → Bool} {c : Char} (rest : List Char) (h : p c = true) :
    ((c :: rest).dropWhile p).length < (c :: rest).length := by
  have := dropWhile_length_le p rest
  simp only [List.dropWhile_cons, h, if_true, List.length_cons]
  omega

/-- What follows a literal is shorter than what follows its opening quote. -/
theorem literal_length {opened pos stop : Position} {cs ds after : List Char}
    (h : literal opened pos cs = .ok (ds, stop, after)) : after.length < cs.length := by
  fun_induction literal opened pos cs generalizing ds stop after with
  | case1 => cases h
  | case2 => cases h; simp
  | case3 => cases h
  | case4 => cases h
  | case5 _ _ _ _ _ _ _ _ _ heq ih =>
    cases h
    have := ih heq
    simp only [List.length_cons]
    omega
  | case6 => cases h
  | case7 _ _ _ _ _ _ _ _ heq ih =>
    cases h
    have := ih heq
    simp only [List.length_cons]
    omega
  | case8 => cases h

/-- A number takes at least one character. -/
theorem number_length {pos : Position} {c : Char} {rest : List Char} {t : Cut}
    (hc : isAsciiDigit c = true) (h : number pos (c :: rest) = .ok t) :
    t.rest.length < (c :: rest).length := by
  have hlt := dropWhile_length_lt rest hc
  unfold number at h
  split at h
  · next after heq =>
    split at h
    · cases h
    · cases h
      have := dropWhile_length_le isAsciiDigit after
      rw [heq] at hlt
      simp only [List.length_cons] at hlt ⊢
      omega
  · cases h
    exact hlt

/-- An operator or punctuation mark takes at least one character. -/
theorem mark_length {pos : Position} {c : Char} {rest : List Char} {t : Cut}
    (h : mark pos c rest = .ok t) : t.rest.length < (c :: rest).length := by
  unfold mark at h
  split at h
  · cases h; simp only [List.length_cons]; omega
  · cases h; simp only [List.length_cons]; omega
  · split at h
    · cases h; simp
    · cases h

/-- Every token takes at least one character. -/
theorem cut_length {pos : Position} {c : Char} {rest : List Char} {t : Cut}
    (h : cut pos c rest = .ok t) : t.rest.length < (c :: rest).length := by
  unfold cut at h
  split at h
  · split at h
    · next heq =>
      cases h
      have := literal_length heq
      simp only [List.length_cons]
      omega
    · cases h
  · split at h
    · next hd => exact number_length hd h
    · split at h
      · next hw =>
        cases h
        exact dropWhile_length_lt rest (by simp [isWordChar, hw])
      · exact mark_length h

/-! ## Whole texts -/

/-- The tokens of a text that starts at a place, closed by `eof`. -/
def tokensFrom (pos : Position) (cs : List Char) : Except LexError (List Token) :=
  match cs with
  | [] => .ok [Token.endAt pos]
  | c :: rest =>
    if isGap c then tokensFrom (pos.step c) rest
    else
      match _h : cut pos c rest with
      | .error e => .error e
      | .ok t =>
        match tokensFrom t.stop t.rest with
        | .error e => .error e
        | .ok ts => .ok (⟨t.kind, t.text, pos.line, pos.column⟩ :: ts)
termination_by cs.length
decreasing_by
  · simp
  · exact cut_length ‹_›

end Scan

/-- The tokens of a text. -/
def tokenize (source : String) : Except LexError (List Token) :=
  Scan.tokensFrom .start source.toList

end Avii
