import Avii.Text.Split
import Avii.Value.Operator
import Mathlib.Data.List.Infix

/-!
# Splitting and joining

The pieces of a text, joined with the separator, are the text again, and each cut is made at the
leftmost occurrence in what is left (`split_inverts_join`).

`Cuts` says what a list of pieces is without the way in which occurrences are found. That the
search finds them all rests on the window: as long as the separator is not longer than what is left,
the fingerprint is that of the next characters, as many as the separator has (`Window.next`), so
the comparison of fingerprints never misses an occurrence (`Window.standsAt_iff`).
-/

namespace Avii.Text

/-! ## Fingerprints -/

theorem foldl_fingerprint (h : UInt64) (cs : List Char) :
    cs.foldl (fun n c => n * fingerprintBase + share c) h =
      h * fingerprintBase ^ cs.length + fingerprint cs := by
  unfold fingerprint
  induction cs generalizing h with
  | nil => simp
  | cons c cs ih =>
    rw [List.foldl_cons, List.foldl_cons, ih, ih (0 * _ + _), List.length_cons]
    grind

theorem foldl_factor (h : UInt64) (cs : List Char) :
    cs.foldl (fun n _ => n * fingerprintBase) h = h * fingerprintBase ^ cs.length := by
  induction cs generalizing h with
  | nil => simp
  | cons c cs ih =>
    rw [List.foldl_cons, ih, List.length_cons]
    grind

theorem fingerprint_cons (c : Char) (cs : List Char) :
    fingerprint (c :: cs) = share c * fingerprintBase ^ cs.length + fingerprint cs := by
  rw [fingerprint, List.foldl_cons, foldl_fingerprint]
  grind

theorem fingerprint_concat (cs : List Char) (c : Char) :
    fingerprint (cs ++ [c]) = fingerprint cs * fingerprintBase + share c := by
  rw [fingerprint, List.foldl_append]
  rfl

variable {sep : List Char}

/-- A window that moves on by one character has the fingerprint of the characters that are in it
then. -/
theorem moved_fingerprint {c a : Char} {inner ahead : List Char}
    (h : sep.length = inner.length + 1) :
    (Sought.of sep).moved (fingerprint (c :: inner)) c (a :: ahead) =
      fingerprint (inner ++ [a]) := by
  have hfactor : (Sought.of sep).factor = fingerprintBase ^ inner.length := by
    show sep.tail.foldl (fun n _ => n * fingerprintBase) 1 = _
    rw [foldl_factor, List.length_tail, h, Nat.add_sub_cancel]
    grind
  rw [Sought.moved, hfactor, fingerprint_cons, fingerprint_concat, leadingShare]
  grind

/-- The fingerprint is that of the window on what is left, and the text ahead is what follows the
window, if what is left is as long as the window. -/
structure Window (sep : List Char) (mark : UInt64) (ahead left : List Char) : Prop where
  mark : sep.length ≤ left.length → mark = fingerprint (left.take sep.length)
  ahead : sep.length ≤ left.length → ahead = left.drop sep.length

theorem Window.next {mark : UInt64} {c : Char} {ahead left : List Char}
    (h : Window sep mark ahead (c :: left)) (hsep : sep ≠ []) :
    Window sep ((Sought.of sep).moved mark c ahead) ahead.tail left := by
  obtain ⟨k, hk⟩ := Nat.exists_eq_add_one.mpr (List.length_pos_of_ne_nil hsep)
  have hahead : sep.length ≤ left.length →
      ∃ a, left.drop k = a :: left.drop sep.length := fun hlong =>
    ⟨left[k], by rw [List.drop_eq_getElem_cons (by omega), hk]⟩
  constructor
  · intro hlong
    obtain ⟨a, ha⟩ := hahead hlong
    have hlength : (left.take k).length = k := by rw [List.length_take]; omega
    have htake : left.take sep.length = left.take k ++ [a] := by
      rw [hk, List.take_add, ha, List.take_succ_cons, List.take_zero]
    have hcut : (c :: left).drop sep.length = a :: left.drop sep.length := by
      rw [← ha, hk, List.drop_succ_cons]
    have hmark : mark = fingerprint (c :: left.take k) := by
      rw [h.mark (Nat.le_succ_of_le hlong), hk, List.take_succ_cons]
    rw [h.ahead (Nat.le_succ_of_le hlong), hcut, hmark, htake,
      moved_fingerprint (by rw [hk, hlength])]
  · intro hlong
    obtain ⟨a, ha⟩ := hahead hlong
    rw [h.ahead (Nat.le_succ_of_le hlong), hk, List.drop_succ_cons, List.tail_drop]

/-- The separator is found exactly where it stands. -/
theorem Window.standsAt_iff {mark : UInt64} {ahead left : List Char}
    (h : Window sep mark ahead left) :
    (Sought.of sep).standsAt mark left = true ↔ sep <+: left := by
  unfold Sought.standsAt
  rw [Bool.and_eq_true, List.isPrefixOf_iff_prefix]
  refine ⟨fun hboth => hboth.2, fun hprefix => ⟨?_, hprefix⟩⟩
  have htake : left.take sep.length = sep := (List.prefix_iff_eq_take.mp hprefix).symm
  rw [h.mark hprefix.length_le, htake]
  exact beq_self_eq_true _

/-! ## Cuts -/

/-- The separator occurs nowhere in a text before a place. -/
def NotBefore (sep text : List Char) (i : Nat) : Prop :=
  ∀ j < i, ¬ sep <+: text.drop j

/-- A text without the separator is one piece; any other is cut at the leftmost occurrence, and what
follows that is cut in turn. -/
inductive Cuts (sep : List Char) : List Char → List (List Char) → Prop where
  | whole {text : List Char} (h : ¬ sep <:+: text) : Cuts sep text [text]
  | cut {piece rest : List Char} {ps : List (List Char)}
      (first : NotBefore sep (piece ++ (sep ++ rest)) piece.length) (h : Cuts sep rest ps) :
      Cuts sep (piece ++ (sep ++ rest)) (piece :: ps)

/-- A text in which the separator does not occur before the end does not contain it. -/
theorem NotBefore.not_infix {text : List Char} (h : NotBefore sep text text.length)
    (hsep : sep ≠ []) : ¬ sep <:+: text := by
  rintro ⟨front, back, rfl⟩
  have hpos := List.length_pos_of_ne_nil hsep
  refine h front.length ?_ ?_
  · rw [List.length_append, List.length_append]
    omega
  · rw [List.append_assoc, List.drop_left]
    exact List.prefix_append sep back

/-- While the rest of an occurrence is passed there is no piece yet; otherwise the piece so far has
no occurrence in front of it. -/
theorem pieces_cuts (hsep : sep ≠ []) : ∀ {left : List Char} {skip : Nat} {piece : List Char}
    {mark : UInt64} {ahead : List Char}, Window sep mark ahead left → skip ≤ left.length →
    (skip ≠ 0 → piece = []) → NotBefore sep (piece.reverse ++ left) piece.length →
    Cuts sep (piece.reverse ++ left.drop skip) (pieces (.of sep) skip piece mark ahead left)
  | [], skip, piece, mark, ahead, _, hskip, _, hfirst => by
    obtain rfl : skip = 0 := Nat.le_zero.mp hskip
    rw [List.append_nil, ← List.length_reverse] at hfirst
    rw [List.drop_zero, List.append_nil, pieces]
    exact .whole (hfirst.not_infix hsep)
  | c :: left, k + 1, piece, mark, ahead, hwindow, hskip, hpiece, _ => by
    obtain rfl : piece = [] := hpiece (Nat.succ_ne_zero k)
    rw [pieces, List.drop_succ_cons]
    exact pieces_cuts hsep (hwindow.next hsep) (Nat.le_of_succ_le_succ hskip) (fun _ => rfl)
      fun _ hj => absurd hj (Nat.not_lt_zero _)
  | c :: left, 0, piece, mark, ahead, hwindow, _, _, hfirst => by
    rw [pieces, List.drop_zero]
    split
    next hstands =>
      obtain ⟨rest, hrest⟩ := hwindow.standsAt_iff.mp hstands
      obtain ⟨k, hk⟩ := Nat.exists_eq_add_one.mpr (List.length_pos_of_ne_nil hsep)
      have hlength := congrArg List.length hrest
      rw [List.length_append, List.length_cons] at hlength
      have hafter : left.drop (sep.length - 1) = rest := by
        rw [hk, Nat.add_sub_cancel, ← List.drop_succ_cons, ← hk, ← hrest, List.drop_left]
      have hskip : sep.length - 1 ≤ left.length := by omega
      have hpassed := pieces_cuts hsep (hwindow.next hsep) hskip (fun _ => @rfl _ [])
        fun _ hj => absurd hj (Nat.not_lt_zero _)
      rw [List.reverse_nil, List.nil_append, hafter] at hpassed
      rw [← hrest] at hfirst ⊢
      rw [← List.length_reverse] at hfirst
      exact .cut hfirst hpassed
    next hstands =>
      have hsplit : piece.reverse ++ c :: left = (c :: piece).reverse ++ left := by simp
      rw [hsplit]
      refine pieces_cuts hsep (hwindow.next hsep) (Nat.zero_le _) (fun h => absurd rfl h) ?_
      intro j hj
      rw [← hsplit]
      rcases Nat.lt_or_eq_of_le (Nat.le_of_lt_succ hj) with hlt | rfl
      · exact hfirst j hlt
      · -- the place after the piece so far, where the separator was looked for
        rw [← List.length_reverse, List.drop_left]
        exact fun hprefix => hstands (hwindow.standsAt_iff.mpr hprefix)

theorem splitChars_cuts (text : List Char) (hsep : sep ≠ []) :
    Cuts sep text (splitChars text sep) := by
  unfold splitChars
  rw [if_neg (by simpa using hsep)]
  split
  next hshort => exact .whole fun hinfix => Nat.not_le_of_lt hshort hinfix.length_le
  next =>
    have hstart : Window sep (fingerprint (text.take sep.length)) (text.drop sep.length) text :=
      ⟨fun _ => rfl, fun _ => rfl⟩
    exact pieces_cuts hsep hstart (Nat.zero_le _) (fun _ => rfl)
      fun _ hj => absurd hj (Nat.not_lt_zero _)

/-! ## What cuts are -/

namespace Cuts

variable {text : List Char} {ps : List (List Char)}

theorem ne_nil (h : Cuts sep text ps) : ps ≠ [] := by
  cases h <;> exact List.cons_ne_nil _ _

theorem intercalate (h : Cuts sep text ps) : sep.intercalate ps = text := by
  induction h with
  | whole => exact List.intercalate_singleton
  | @cut piece rest ps _ h ih =>
    obtain ⟨q, qs, rfl⟩ := List.exists_cons_of_ne_nil h.ne_nil
    rw [List.intercalate_cons_cons, ih, List.append_assoc]

/-- No piece contains the separator: an occurrence in it would be further left than the one at its
end. -/
theorem not_infix (h : Cuts sep text ps) (hsep : sep ≠ []) : ∀ p ∈ ps, ¬ sep <:+: p := by
  induction h with
  | whole h => exact List.forall_mem_singleton.mpr h
  | @cut piece rest ps first _ ih =>
    refine List.forall_mem_cons.mpr ⟨?_, ih⟩
    refine NotBefore.not_infix (fun j hj hprefix => first j hj ?_) hsep
    rw [List.drop_append_of_le_length (Nat.le_of_lt hj)]
    exact hprefix.trans (List.prefix_append _ _)

/-- A piece with others after it ends at the leftmost occurrence in the part of the text that begins
with it. -/
theorem leftmost (h : Cuts sep text ps) {before after : List (List Char)} {p : List Char}
    (hps : ps = before ++ p :: after) (hafter : after ≠ []) :
    ∃ rest, text = before.flatMap (· ++ sep) ++ (p ++ (sep ++ rest)) ∧
      NotBefore sep (p ++ (sep ++ rest)) p.length := by
  induction h generalizing before with
  | whole =>
    cases before with
    | nil =>
      obtain ⟨-, rfl⟩ := List.cons.inj hps
      exact absurd rfl hafter
    | cons => simp at hps
  | @cut piece rest ps first _ ih =>
    cases before with
    | nil =>
      obtain ⟨rfl, rfl⟩ := List.cons.inj hps
      exact ⟨rest, rfl, first⟩
    | cons q before =>
      obtain ⟨rfl, htail⟩ := List.cons.inj hps
      obtain ⟨rest', rfl, hleftmost⟩ := ih htail
      refine ⟨rest', ?_, hleftmost⟩
      rw [List.flatMap_cons]
      simp only [List.append_assoc]

end Cuts

/-! ## Texts -/

/-- A text stands in another one at a place. -/
def OccursAt (sep text : String) (i : Nat) : Prop :=
  sep.toList <+: text.toList.drop i

/-- The pieces of a text. Joined with the separator they are the text. An empty separator leaves
single characters. Any other leaves at least one piece and stands in none of them, and where a piece
ends that is not the last, the separator follows, for the first time in the part of the text that
begins with the piece. -/
structure IsSplit (text sep : String) (ps : List String) : Prop where
  joined : sep.intercalate ps = text
  characters : sep = "" → ps.length = text.length ∧ ∀ p ∈ ps, p.length = 1
  ne_nil : sep ≠ "" → ps ≠ []
  apart : sep ≠ "" → ∀ p ∈ ps, ∀ i, ¬ OccursAt sep p i
  leftmost : sep ≠ "" → ∀ before p after, ps = before ++ p :: after → after ≠ [] →
    ∃ part, text = String.join (before.map (· ++ sep)) ++ part ∧ p.toList <+: part.toList ∧
      OccursAt sep part p.length ∧ ∀ i < p.length, ¬ OccursAt sep part i

theorem intercalate_characters (cs : List Char) :
    ([] : List Char).intercalate (cs.map ([·])) = cs := by
  induction cs with
  | nil => rfl
  | cons c cs ih =>
    cases cs with
    | nil => rfl
    | cons d ds =>
      rw [List.map_cons] at ih
      rw [List.map_cons, List.map_cons, List.intercalate_cons_cons, ih]
      rfl

/-- An empty separator splits a text into its characters. -/
theorem split_empty (text : String) : IsSplit text "" (split text "") := by
  have hsplit : split text "" = text.toList.map fun c => String.ofList [c] := by
    unfold split splitChars
    simp
  refine ⟨?_, fun _ => ⟨?_, ?_⟩, fun h => absurd rfl h, fun h => absurd rfl h,
    fun h => absurd rfl h⟩
  · rw [hsplit, ← String.toList_inj, String.toList_intercalate, List.map_map]
    simp only [Function.comp_def, String.toList_ofList, String.toList_empty]
    exact intercalate_characters text.toList
  · rw [hsplit, List.length_map, String.length_toList]
  · rw [hsplit]
    intro p hp
    obtain ⟨c, -, rfl⟩ := List.mem_map.mp hp
    rw [String.length_ofList]
    rfl

theorem split_nonempty (text : String) {sep : String} (hsep : sep ≠ "") :
    IsSplit text sep (split text sep) := by
  have hchars : sep.toList ≠ [] := fun h => hsep (String.toList_eq_nil_iff.mp h)
  have hcuts := splitChars_cuts text.toList hchars
  have htexts : (split text sep).map String.toList = splitChars text.toList sep.toList := by
    unfold split
    simp [Function.comp_def]
  refine ⟨?_, fun h => absurd h hsep, fun _ => ?_, fun _ p hp i => ?_, fun _ => ?_⟩
  · rw [← String.toList_inj, String.toList_intercalate, htexts, hcuts.intercalate]
  · rw [split, Ne, List.map_eq_nil_iff]
    exact hcuts.ne_nil
  · intro hoccurs
    refine hcuts.not_infix hchars p.toList (htexts ▸ List.mem_map_of_mem hp) ?_
    exact hoccurs.isInfix.trans (List.drop_suffix i _).isInfix
  · intro before p after hps hafter
    have hps' : splitChars text.toList sep.toList =
        before.map String.toList ++ p.toList :: after.map String.toList := by
      rw [← htexts, hps, List.map_append, List.map_cons]
    obtain ⟨rest, htext, hfirst⟩ := hcuts.leftmost hps' (by simpa using hafter)
    refine ⟨p ++ (sep ++ String.ofList rest), ?_, ?_, ?_, ?_⟩
    · rw [← String.toList_inj, htext]
      simp [List.flatMap_map]
    · simp
    · rw [OccursAt, String.toList_append, ← String.length_toList, List.drop_left]
      simp
    · intro i hi
      rw [OccursAt, String.toList_append, String.toList_append, String.toList_ofList]
      exact hfirst i (String.length_toList ▸ hi)

theorem split_isSplit (text sep : String) : IsSplit text sep (split text sep) := by
  by_cases hsep : sep = ""
  · rw [hsep]
    exact split_empty text
  · exact split_nonempty text hsep

end Text

/-- Splitting is the inverse of joining. On operands that are strings or numbers, but not both
numbers, division gives the pieces of the display of the first at the display of the second. -/
theorem split_inverts_join {l r : Value} (hl : l.isTextual = true) (hr : r.isTextual = true)
    (hnumbers : ¬ (l.type = .number ∧ r.type = .number)) :
    ∃ ps : List String, Value.binary "/" l r = .ok (.array (ps.map .string)) ∧
      Text.IsSplit l.display r.display ps := by
  refine ⟨Text.split l.display r.display, ?_, Text.split_isSplit _ _⟩
  have hsign : Arithmetic.ofSign? "/" = some .div := rfl
  unfold Value.binary
  rw [hsign]
  dsimp only
  split
  next => exact absurd ⟨rfl, rfl⟩ hnumbers
  next => simp [hl, hr]

/-- A text in which the separator overlaps itself. -/
theorem split_inverts_join_overlap :
    Value.binary "/" (.string "aaa") (.string "aa") = .ok (.array [.string "", .string "a"]) ∧
      Text.IsSplit "aaa" "aa" ["", "a"] := by
  obtain ⟨ps, hps, hsplit⟩ := split_inverts_join (l := .string "aaa") (r := .string "aa") rfl rfl
    (by simp [Value.type])
  have hpieces : Text.split "aaa" "aa" = ["", "a"] := by decide +kernel
  have hbinary : Value.binary "/" (.string "aaa") (.string "aa") =
      .ok (.array ((Text.split "aaa" "aa").map .string)) := rfl
  rw [hpieces] at hbinary
  have heq : ps.map Value.string = ["", "a"].map Value.string := by
    injection hps.symm.trans hbinary with harray
    injection harray
  rw [List.map_injective_iff.mpr (fun _ _ h => Value.string.inj h) heq] at hsplit
  exact ⟨hbinary, hsplit⟩

end Avii
