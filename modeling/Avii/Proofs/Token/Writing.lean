import Avii.Proofs.Syntax.Lookahead
import Avii.Proofs.Token.Exactness

/-!
# Writing tokens down

A word, that is the kind and the text of a token, is written as its text; for a literal that is what
stands between the quotes, where a quote and a backslash get a backslash in front and all else
stands for itself (`written`). What is written for words that can be read, with gaps between them,
is read as these words (`entries_layout`), and so it is with single spaces (`tokenize_unwords`).

`IsWord` lists the words that there are. They are the words of the tokens of texts (`isWord_iff`),
and they can all be read back (`tokenize_written`).
-/

namespace Avii.Scan

/-- A character between the quotes of a literal, with a backslash in front where it needs one. -/
def escaped (c : Char) : List Char :=
  if c = Text.doubleQuote ∨ c = '\\' then ['\\', c] else [c]

/-- How a word is written. -/
def written (word : Kind × String) : List Char :=
  if word.1 = .string then Text.doubleQuote :: (word.2.toList.flatMap escaped ++ [Text.doubleQuote])
  else word.2.toList

/-- Words with spaces between them. -/
def unwords (words : List (Kind × String)) : List Char :=
  [' '].intercalate (words.map written)

/-- A word that can be read. -/
def Readable (word : Kind × String) : Prop :=
  Spells (written word) word.1 word.2

/-- Escaped characters denote what they were. -/
theorem denotes_escaped (ds : List Char) : Denotes (ds.flatMap escaped) ds := by
  induction ds with
  | nil => exact .nil
  | cons d ds ih =>
    rw [List.flatMap_cons]
    by_cases hd : d = Text.doubleQuote ∨ d = '\\'
    · have hdenoted : Escape.denoted? d = some d := by
        rcases hd with rfl | rfl <;> decide
      rw [escaped, if_pos hd]
      exact .escape hdenoted ih
    · rw [escaped, if_neg hd]
      rw [not_or] at hd
      exact .plain hd.1 hd.2 ih

/-- Every text can be read as that of a literal. -/
theorem readable_string (s : String) : Readable (.string, s) := by
  have h := Spells.literal (denotes_escaped s.toList)
  rwa [String.ofList_toList] at h

/-- A plain numeral can be read. -/
theorem readable_number {s : String} (h : Numeral.IsPlain s.toList) : Readable (.number, s) := by
  have hs := Spells.number h
  rwa [String.ofList_toList] at hs

/-- A word that is made of the characters of words can be read as what it is. -/
theorem readable_word {s : String} {c : Char} {cs : List Char} (hs : s.toList = c :: cs)
    (hc : isWordStart c = true) (hcs : cs.all isWordChar = true) :
    Readable (Kind.ofWord s, s) := by
  have h := Spells.word hc (List.all_eq_true.mp hcs)
  rw [← hs, String.ofList_toList] at h
  have hwritten : written (Kind.ofWord s, s) = s.toList := if_neg (Kind.ofWord_ne s).1
  unfold Readable
  rwa [hwritten]

theorem readable_mark {c : Char} {kind : Kind} (h : Kind.ofMark? c = some kind) :
    Readable (kind, String.ofList [c]) := by
  have hwritten : written (kind, String.ofList [c]) = [c] := by
    rw [written, if_neg (ofMark?_char _ h).2.2.1, String.toList_ofList]
  unfold Readable
  rw [hwritten]
  exact .mark h

/-! ## Gaps between words -/

/-- A word and the gap before it. -/
structure Entry where
  gap : List Char
  word : Kind × String

/-- The text of a word with the gap before it. -/
def Entry.chars (e : Entry) : List Char :=
  e.gap ++ written e.word

/-- Where no other text follows, or a gap does, every token stops. -/
theorem Stops.of_gap {raw after : List Char} {kind : Kind}
    (h : ∀ c, after.head? = some c → isGap c = true) : Stops raw kind after := by
  cases after with
  | nil => exact stops_end raw kind
  | cons c after => exact .of_break (.inl (h c rfl))

/-- A gap between tokens lays nothing out. -/
theorem Layout.gaps {before gap cs : List Char} {ts : List Token}
    (hgap : ∀ c ∈ gap, isGap c = true) (h : Layout (before ++ gap) cs ts) :
    Layout before (gap ++ cs) ts := by
  induction gap generalizing before with
  | nil => simpa using h
  | cons c gap ih =>
    refine .gap (hgap c List.mem_cons_self) (ih (fun d hd => hgap d (List.mem_cons_of_mem c hd)) ?_)
    rwa [List.append_assoc, List.singleton_append]

/-- Words are read as these words if there is a gap before each of them but the first. -/
theorem entries_layout {es : List Entry} {final : List Char} (hwords : ∀ e ∈ es, Readable e.word)
    (hgaps : ∀ e ∈ es, ∀ c ∈ e.gap, isGap c = true) (hapart : ∀ e ∈ es.tail, e.gap ≠ [])
    (hfinal : ∀ c ∈ final, isGap c = true) (before : List Char) :
    ∃ (ts : List Token) (e : Token),
      Layout before (es.flatMap Entry.chars ++ final) (ts ++ [e]) ∧
        ts.map Token.spelling = es.map Entry.word ∧ e.kind = .eof ∧ e.text = "" := by
  induction es generalizing before with
  | nil =>
    have hend : Layout before (final ++ []) [Token.endAt _] := Layout.gaps hfinal (.finish _)
    rw [List.append_nil] at hend
    exact ⟨[], _, hend, rfl, rfl, rfl⟩
  | cons e es ih =>
    have hstop : ∀ c, (es.flatMap Entry.chars ++ final).head? = some c → isGap c = true := by
      intro c hc
      cases es with
      | nil => exact hfinal c (List.mem_of_head? hc)
      | cons next es =>
        have hnext : next ∈ e :: next :: es := List.mem_cons_of_mem e List.mem_cons_self
        obtain ⟨d, gap, hgap⟩ := List.exists_cons_of_ne_nil (hapart next List.mem_cons_self)
        have hd : isGap d = true := hgaps next hnext d (hgap ▸ List.mem_cons_self)
        simp only [List.flatMap_cons, Entry.chars, hgap, List.cons_append, List.head?_cons] at hc
        cases hc
        exact hd
    obtain ⟨ts, last, hlayout, hts, hlast⟩ := ih
      (fun f hf => hwords f (List.mem_cons_of_mem e hf))
      (fun f hf => hgaps f (List.mem_cons_of_mem e hf))
      (fun f hf => hapart f (List.mem_of_mem_tail hf)) (before ++ e.gap ++ written e.word)
    have htoken := Layout.token (hwords e List.mem_cons_self) (.of_gap hstop) hlayout
    have hwhole := Layout.gaps (hgaps e List.mem_cons_self) htoken
    rw [← List.append_assoc, ← List.append_assoc, ← Entry.chars, ← List.flatMap_cons] at hwhole
    refine ⟨_ :: ts, last, hwhole, ?_, hlast⟩
    rw [List.map_cons, List.map_cons, hts]
    rfl

/-- Words with single spaces between them. -/
def singleSpaced : List (Kind × String) → List Entry
  | [] => []
  | word :: words => ⟨[], word⟩ :: words.map (⟨[' '], ·⟩)

/-- There is a space before each word but the first. -/
theorem singleSpaced_tail (words : List (Kind × String)) :
    ∀ e ∈ (singleSpaced words).tail, e.gap = [' '] := by
  cases words with
  | nil => simp [singleSpaced]
  | cons word words =>
    intro e he
    obtain ⟨w, -, rfl⟩ := List.mem_map.mp he
    rfl

theorem singleSpaced_gaps {words : List (Kind × String)} :
    ∀ e ∈ singleSpaced words, ∀ c ∈ e.gap, isGap c = true := by
  cases words with
  | nil => simp [singleSpaced]
  | cons word words =>
    intro e he
    rcases List.mem_cons.mp he with rfl | he
    · simp
    · rw [singleSpaced_tail (word :: words) e he]
      exact List.forall_mem_singleton.mpr (by decide)

/-- To space words changes none of them. -/
theorem singleSpaced_words (words : List (Kind × String)) :
    (singleSpaced words).map Entry.word = words := by
  cases words with
  | nil => rfl
  | cons word words => simp [singleSpaced, Function.comp_def]

theorem unwords_cons (word next : Kind × String) (words : List (Kind × String)) :
    unwords (word :: next :: words) = written word ++ ' ' :: unwords (next :: words) := by
  simp [unwords, List.intercalate]

/-- Words with spaces between them are the entries of a text. -/
theorem unwords_eq (words : List (Kind × String)) :
    unwords words = (singleSpaced words).flatMap Entry.chars := by
  cases words with
  | nil => rfl
  | cons word words =>
    induction words generalizing word with
    | nil => simp [unwords, List.intercalate, singleSpaced, Entry.chars]
    | cons next words ih =>
      rw [unwords_cons, ih]
      simp [singleSpaced, Entry.chars]

/-! ## The words that there are -/

/-- The keywords, the two word operators among them. -/
def keywords : List (Kind × String) :=
  [(.letWord, "let"), (.constWord, "const"), (.funcWord, "func"), (.ifWord, "if"),
    (.elseWord, "else"), (.condop, "and"), (.condop, "or")]

/-- The operators and punctuation marks of one character. -/
def marks : List (Kind × Char) :=
  [(.binop, '+'), (.binop, '-'), (.binop, '*'), (.binop, '/'), (.binop, '%'), (.binop, '^'),
    (.equals, '='), (.lpar, '('), (.rpar, ')'), (.lbrace, '\x7b'), (.rbrace, '\x7d'), (.lsqb, '['),
    (.rsqb, ']'), (.comma, ','), (.colon, ':'), (.semi, ';'), (.dot, '.')]

/-- A kind and a text that a token can have. -/
inductive IsWord : Kind × String → Prop where
  | keyword {word : Kind × String} (h : word ∈ keywords) : IsWord word
  | mark {kind : Kind} {c : Char} (h : (kind, c) ∈ marks) : IsWord (kind, String.ofList [c])
  | comparison {c : Char} (h : c = '=' ∨ c = '!') : IsWord (.condop, String.ofList [c, '='])
  | name {text : String} {c : Char} {cs : List Char} (htext : text.toList = c :: cs)
      (hc : isWordStart c = true) (hcs : ∀ d ∈ cs, isWordChar d = true)
      (hother : ∀ word ∈ keywords, word.2 ≠ text) : IsWord (.ident, text)
  | number {text : String} (h : Numeral.IsPlain text.toList) : IsWord (.number, text)
  | string (text : String) : IsWord (.string, text)

/-- Every keyword is a word of its own kind. -/
theorem keywords_ofWord : ∀ word ∈ keywords, Kind.ofWord word.2 = word.1 ∧
    word.2.toList.head?.any isWordStart = true ∧ word.2.toList.all isWordChar = true := by
  decide

/-- Any other word is a name. -/
theorem ofWord_name {text : String} (h : ∀ word ∈ keywords, word.2 ≠ text) :
    Kind.ofWord text = .ident := by
  simp only [keywords, List.forall_mem_cons, List.not_mem_nil, false_imp_iff, implies_true,
    and_true, ne_comm] at h
  obtain ⟨hlet, hconst, hfunc, hif, helse, hand, hor⟩ := h
  simp [Kind.ofWord, hlet, hconst, hfunc, hif, helse, hand, hor]

theorem marks_ofMark? : ∀ m ∈ marks, Kind.ofMark? m.2 = some m.1 := by
  decide

theorem mem_marks {c : Char} : ∀ kind, Kind.ofMark? c = some kind → (kind, c) ∈ marks := by
  unfold Kind.ofMark?
  refine of_ite ?_ ?_
  · rintro (rfl | rfl | rfl | rfl | rfl | rfl) <;> decide
  repeat refine of_ite (by rintro rfl; decide) ?_
  simp

/-- Every word that a text can have can be read. -/
theorem IsWord.readable {word : Kind × String} (h : IsWord word) : Readable word := by
  cases h with
  | keyword h =>
    obtain ⟨hkind, hstart, hall⟩ := keywords_ofWord word h
    obtain ⟨c, hc, hstart⟩ := (Option.any_eq_true _ _).mp hstart
    obtain ⟨cs, htext⟩ := List.head?_eq_some_iff.mp hc
    rw [htext, List.all_cons, Bool.and_eq_true] at hall
    have hread := readable_word htext hstart hall.2
    rwa [hkind] at hread
  | mark h => exact readable_mark (marks_ofMark? _ h)
  | @comparison c h =>
    have hwritten : written (.condop, String.ofList [c, '=']) = [c, '='] := by
      rw [written, if_neg (by simp), String.toList_ofList]
    unfold Readable
    rw [hwritten]
    exact .comparison h
  | name htext hc hcs hother =>
    have hread := readable_word htext hc (List.all_eq_true.mpr hcs)
    rwa [ofWord_name hother] at hread
  | number h => exact readable_number h
  | string text => exact readable_string text

/-- Whatever spells a token spells a word. -/
theorem Spells.isWord {raw : List Char} {kind : Kind} {text : String} (h : Spells raw kind text) :
    IsWord (kind, text) := by
  cases h with
  | literal => exact .string _
  | number h => exact .number (by rwa [String.toList_ofList])
  | @word c cs hc hcs =>
    by_cases hkey : ∃ word ∈ keywords, word.2 = String.ofList (c :: cs)
    · obtain ⟨word, hmem, htext⟩ := hkey
      rw [← htext, (keywords_ofWord word hmem).1]
      exact .keyword hmem
    · have hother : ∀ word ∈ keywords, word.2 ≠ String.ofList (c :: cs) :=
        fun word hmem htext => hkey ⟨word, hmem, htext⟩
      rw [ofWord_name hother]
      exact .name String.toList_ofList hc hcs hother
  | comparison h => exact .comparison h
  | mark h => exact .mark (mem_marks _ h)

end Avii.Scan

namespace Avii

open Scan (Entry IsWord Readable isGap singleSpaced unwords)

theorem tokenize_layout {text : List Char} {ts : List Token} {last : Token}
    {words : List (Kind × String)} (h : Scan.Layout [] text (ts ++ [last]))
    (hts : ts.map Token.spelling = words) (hlast : last.kind = .eof ∧ last.text = "") :
    ∃ ts, tokenize (String.ofList text) = .ok ts ∧
      ts.map Token.spelling = words ++ [(.eof, "")] := by
  refine ⟨ts ++ [last], ?_, ?_⟩
  · rw [tokenize_iff, String.toList_ofList]
    exact h
  · rw [List.map_append, hts, List.map_singleton, Token.spelling, hlast.1, hlast.2]

/-- A text of words with spaces between them has these words as its tokens, and an `eof`. -/
theorem tokenize_unwords {words : List (Kind × String)} (h : ∀ word ∈ words, Readable word) :
    ∃ ts, tokenize (String.ofList (unwords words)) = .ok ts ∧
      ts.map Token.spelling = words ++ [(.eof, "")] := by
  have hwords : ∀ e ∈ singleSpaced words, Readable e.word := fun e he =>
    h e.word (Scan.singleSpaced_words words ▸ List.mem_map_of_mem he)
  have hapart : ∀ e ∈ (singleSpaced words).tail, e.gap ≠ [] := fun e he => by
    simp [Scan.singleSpaced_tail words e he]
  have hfinal : ∀ c ∈ ([] : List Char), isGap c = true := by simp
  obtain ⟨ts, last, hlayout, hts, hlast⟩ :=
    Scan.entries_layout hwords Scan.singleSpaced_gaps hapart hfinal []
  rw [List.append_nil, ← Scan.unwords_eq] at hlayout
  exact tokenize_layout hlayout (hts.trans (Scan.singleSpaced_words words)) hlast

/-- The words that there are, are those of the tokens of texts. -/
theorem isWord_iff {word : Kind × String} : IsWord word ↔
    ∃ source ts, tokenize source = .ok ts ∧ ∃ t ∈ ts, t.kind ≠ .eof ∧ t.spelling = word := by
  constructor
  · intro h
    have hreadable : ∀ w ∈ [word], Readable w := by simpa using h.readable
    obtain ⟨ts, htokens, hts⟩ := tokenize_unwords hreadable
    have hmem : word ∈ ts.map Token.spelling := by simp [hts]
    obtain ⟨t, ht, rfl⟩ := List.mem_map.mp hmem
    exact ⟨_, ts, htokens, t, ht, h.readable.inner, rfl⟩
  · rintro ⟨source, ts, hts, t, ht, hkind, rfl⟩
    refine Scan.tokensFrom_forall (P := fun kind text => kind ≠ .eof → IsWord (kind, text))
      (fun h => absurd rfl h) (fun hcut _ => ?_) hts t ht hkind
    obtain ⟨raw, -, -, hspells, -⟩ := Scan.cut_spells hcut
    exact hspells.isWord

/-- Words that are written down with gaps between them, and perhaps before and after them, are read
back as these words. -/
theorem tokenize_written {es : List Entry} {final : List Char} (hwords : ∀ e ∈ es, IsWord e.word)
    (hgaps : ∀ e ∈ es, ∀ c ∈ e.gap, isGap c = true) (hapart : ∀ e ∈ es.tail, e.gap ≠ [])
    (hfinal : ∀ c ∈ final, isGap c = true) :
    ∃ ts, tokenize (String.ofList (es.flatMap Entry.chars ++ final)) = .ok ts ∧
      ts.map Token.spelling = es.map Entry.word ++ [(.eof, "")] := by
  obtain ⟨ts, last, hlayout, hts, hlast⟩ :=
    Scan.entries_layout (fun e he => (hwords e he).readable) hgaps hapart hfinal []
  exact tokenize_layout hlayout hts hlast

/-- A number before a point, two signs of assignment, a keyword before a name, and a literal of a
quote, a backslash, a line feed and a null character. -/
theorem tokenize_written_apart :
    ∃ ts, tokenize "1 .\n=\t=\r let x \"\\\"\\\\\n\x00\"\n" = .ok ts ∧
      ts.map Token.spelling = [(.number, "1"), (.dot, "."), (.equals, "="), (.equals, "="),
        (.letWord, "let"), (.ident, "x"), (.string, "\"\\\n\x00"), (.eof, "")] := by
  have hname : IsWord (.ident, "x") :=
    .name (show "x".toList = ['x'] by decide) (by decide) (by simp) (by decide)
  have hnumber : IsWord (.number, "1") :=
    .number ⟨['1'], by simp, List.forall_mem_singleton.mpr (by decide), .inl (by decide)⟩
  have hdot : IsWord (.dot, ".") := .mark (c := '.') (by decide)
  have hequals : IsWord (.equals, "=") := .mark (c := '=') (by decide)
  have hlet : IsWord (.letWord, "let") := .keyword (by decide)
  have hwords : ∀ e ∈ ([⟨[], (.number, "1")⟩, ⟨[' '], (.dot, ".")⟩, ⟨['\n'], (.equals, "=")⟩,
      ⟨['\t'], (.equals, "=")⟩, ⟨['\r', ' '], (.letWord, "let")⟩, ⟨[' '], (.ident, "x")⟩,
      ⟨[' '], (.string, "\"\\\n\x00")⟩] : List Entry), IsWord e.word := by
    simp only [List.forall_mem_cons, List.not_mem_nil, false_imp_iff, implies_true, and_true]
    exact ⟨hnumber, hdot, hequals, hequals, hlet, hname, .string _⟩
  have hfinal : ∀ c ∈ ['\n'], isGap c = true := List.forall_mem_singleton.mpr (by decide)
  have hread := tokenize_written hwords (by simp [isGap]) (by simp) hfinal
  exact hread

end Avii
