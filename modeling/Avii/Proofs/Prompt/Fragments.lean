import Avii.Proofs.Token.Exactness
import Avii.Proofs.Token.Literals
import Mathlib.Data.List.TakeWhile

/-!
# Fragments of a line

Highlighting cuts a text into fragments without losing or repeating any of it, whatever the text is
(`highlight_joined`). On one line that is a list of tokens it is as fine as the tokens are: each
token has a fragment of its own, which holds the piece that spells it and has the style of its
group, and what stands between is gaps without a style (`fragmentsFrom_parts`).

The fragments are found from the columns of the tokens. On several lines columns say nothing about
places in the whole text, and tokens may be passed over; there only the first of the two is proved.
-/

namespace Avii.Prompt

open Scan (Spells isGap)

/-! ## Nothing is lost -/

/-- The text of some fragments. -/
def joined (fs : List Fragment) : String :=
  String.join (fs.map Fragment.text)

@[simp] theorem joined_nil : joined [] = "" := String.join_nil

@[simp] theorem joined_cons (f : Fragment) (fs : List Fragment) :
    joined (f :: fs) = f.text ++ joined fs :=
  String.join_cons

@[simp] theorem joined_append (fs gs : List Fragment) :
    joined (fs ++ gs) = joined fs ++ joined gs := by
  simp [joined]

@[simp] theorem joined_plain (cs : List Char) : joined (plain cs) = String.ofList cs := by
  cases cs with
  | nil => rfl
  | cons c cs => simp [plain]

/-- Whatever the tokens are, the fragments are those of the whole text. -/
theorem fragmentsFrom_joined (cs : List Char) (pos : Nat) (ts : List Token) :
    joined (fragmentsFrom cs pos ts) = String.ofList cs := by
  fun_induction fragmentsFrom cs pos ts with
  | case1 => exact joined_plain _
  | case2 => exact joined_plain _
  | case3 _ _ _ _ _ _ _ ih => exact ih
  | case4 cs pos t rest _ start _ shown span ih =>
    rw [joined_append, joined_plain, joined_cons, ih, ← String.ofList_append,
      ← String.ofList_append, List.take_append_drop]
    exact congrArg String.ofList (List.take_append_drop _ cs)

theorem highlight_joined (text : String) : joined (highlight text) = text := by
  unfold highlight
  split
  next h => simp [h]
  next =>
    split
    next => simp
    next ts _ =>
      split
      next => simp
      next => rw [fragmentsFrom_joined, String.ofList_toList]

/-! ## Nothing is passed over -/

/-- A text that is a list of tokens has the fragments of these; there are some unless it is
empty. -/
theorem highlight_tokens {text : String} {ts : List Token} (hne : text ≠ "")
    (hts : tokenize text = .ok ts) : highlight text = fragmentsFrom text.toList 0 ts := by
  have hjoined := fragmentsFrom_joined text.toList 0 ts
  unfold highlight
  rw [if_neg hne, hts]
  dsimp only
  generalize fragmentsFrom text.toList 0 ts = fs at hjoined ⊢
  cases fs with
  | nil =>
    rw [joined_nil, String.ofList_toList] at hjoined
    exact absurd hjoined.symm hne
  | cons => rfl

/-- A token takes as many characters as the piece that spells it. -/
theorem tokenSpan_spells {raw : List Char} {t : Token} (h : Spells raw t.kind t.text)
    (after : List Char) : tokenSpan (raw ++ after) t = raw.length := by
  unfold tokenSpan
  split
  next hkind =>
    obtain ⟨body, rfl, hbody⟩ := h.body hkind
    have hspan := literalSpan_enclosed hbody.enclosed after
    simpa using hspan
  next hkind => rw [h.plain hkind, String.length_toList]

/-- On the first line a column is a place. -/
theorem columnAfter_line {before : List Char} (h : '\n' ∉ before) :
    Position.columnAfter before = 1 + before.length := by
  have hall : ∀ c ∈ before.reverse, decide (c ≠ '\n') = true := by
    intro c hc
    have hne : c ≠ '\n' := fun heq => h (heq ▸ List.mem_reverse.mp hc)
    simpa using hne
  have htake := List.takeWhile_eq_self_iff.mpr hall
  rw [Position.columnAfter, htake, List.length_reverse]

/-- The fragments of the parts of a line, each followed by the gap after it. -/
def shown (last : Token) : List Part → List Fragment
  | [] => []
  | p :: ps =>
    ⟨(Group.ofToken p.token (ps.map Part.token ++ [last]).head?).style, String.ofList p.raw⟩
      :: (plain p.gap ++ shown last ps)

/-- Each part has a fragment, and so has each gap that is not empty. -/
theorem fragmentsFrom_parts {parts : List Part} {last : Token} (hlast : last.kind = .eof)
    {before gap : List Char} (hline : '\n' ∉ before ++ gap ++ parts.flatMap Part.chars)
    (hparts : ∀ (front : List Part) (p : Part) (back : List Part), parts = front ++ p :: back →
      p.Exact (before ++ gap ++ front.flatMap Part.chars) (p.gap ++ back.flatMap Part.chars)) :
    fragmentsFrom (gap ++ parts.flatMap Part.chars) before.length
      (parts.map Part.token ++ [last]) = plain gap ++ shown last parts := by
  induction parts generalizing before gap with
  | nil =>
    simp [fragmentsFrom, hlast, shown]
  | cons p ps ih =>
    have hp := hparts [] p ps rfl
    have hcolumn : (p.token.column - 1).toNat = before.length + gap.length := by
      have hlead : '\n' ∉ before ++ gap := fun h => hline (List.mem_append_left _ h)
      rw [hp.column, List.flatMap_nil, List.append_nil, columnAfter_line hlead, List.length_append]
      omega
    have hline' : '\n' ∉ before ++ gap ++ p.raw ++ p.gap ++ ps.flatMap Part.chars := by
      simpa [Part.chars] using hline
    have hrest := ih hline'
      (fun front q back hsplit => by
        simpa [Part.chars] using hparts (p :: front) q back (by rw [hsplit]; rfl))
    have hstart : ¬ before.length + gap.length < before.length := by omega
    have htext : (gap ++ (p :: ps).flatMap Part.chars).drop gap.length =
        p.raw ++ (p.gap ++ ps.flatMap Part.chars) := by simp [Part.chars]
    rw [List.map_cons, List.cons_append, fragmentsFrom, if_neg hp.inner]
    simp only [hcolumn, if_neg hstart, Nat.add_sub_cancel_left, htext,
      tokenSpan_spells hp.spelled, List.take_left, List.drop_left, shown]
    simp only [List.length_append] at hrest
    rw [hrest]

/-- The fragments of a text make up the text. Of a line that is a list of tokens each token has a
fragment, which holds its piece of the line and has the style of its group, and between these are
gaps without a style. -/
theorem highlight_partitions (text : String) :
    joined (highlight text) = text ∧
      ∀ ts, text ≠ "" → '\n' ∉ text.toList → tokenize text = .ok ts →
        ∃ lead parts last, (∀ c ∈ lead, isGap c = true) ∧
          text.toList = lead ++ parts.flatMap Part.chars ∧
          ts = parts.map Part.token ++ [last] ∧ last.kind = .eof ∧
          (∀ front p back, parts = front ++ p :: back →
            p.Exact (lead ++ front.flatMap Part.chars) (p.gap ++ back.flatMap Part.chars)) ∧
          highlight text = plain lead ++ shown last parts := by
  refine ⟨highlight_joined text, fun ts hne hline hts => ?_⟩
  obtain ⟨lead, parts, hlead, htext, rfl, hparts⟩ := (tokenize_iff.mp hts).parts
  refine ⟨lead, parts, _, hlead, htext, rfl, rfl, hparts, ?_⟩
  have hfragments := @fragmentsFrom_parts parts
    (Token.endAt (Position.start.advance ([] ++ text.toList))) rfl [] lead
    (by rwa [List.nil_append, ← htext]) hparts
  rw [← htext] at hfragments
  exact (highlight_tokens hne hts).trans hfragments

/-- A name before a parenthesis, a gap, and a literal with an escape. -/
theorem highlight_partitions_call :
    let text := "f (\"\\\"\")"
    let ts : List Token := [⟨.ident, "f", 1, 1⟩, ⟨.lpar, "(", 1, 3⟩, ⟨.string, "\"", 1, 4⟩,
      ⟨.rpar, ")", 1, 8⟩, ⟨.eof, "", 1, 9⟩]
    text ≠ "" ∧ '\n' ∉ text.toList ∧ tokenize text = .ok ts ∧
      ∃ lead parts last, text.toList = lead ++ parts.flatMap Part.chars ∧
        ts = parts.map Part.token ++ [last] ∧ highlight text = plain lead ++ shown last parts := by
  intro text ts
  have hne : text ≠ "" := by decide
  have hline : '\n' ∉ text.toList := by decide
  have hts : tokenize text = .ok ts := by decide +kernel
  obtain ⟨lead, parts, last, -, htext, hsplit, -, -, hfragments⟩ :=
    (highlight_partitions text).2 ts hne hline hts
  exact ⟨hne, hline, hts, lead, parts, last, htext, hsplit, hfragments⟩

end Avii.Prompt
