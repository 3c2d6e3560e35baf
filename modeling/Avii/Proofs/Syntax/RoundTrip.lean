import Avii.Proofs.Places.Irrelevance
import Avii.Proofs.Syntax.Rendering

/-!
# Rendering undone

The text that the tree of a program is rendered as is parsed to that tree, but for places
(`render_parsed`). So every tree that the grammar can make is the tree of some text, and the
parentheses that rendering leaves out were not needed.

The words of a tree, each at line and column 1, are derived as the phrase of its rank
(`ReadsBack`), with one lemma for each construct and `formed_readsBack` over all of them: at a lower
rank they are too (`derives_looser`), and in parentheses at any. The tokens of the rendered text are
these words at other places, which makes no difference.
-/

namespace Avii.Syntax

open Avii.Parser (program)
open Scan (isWordStart)

/-! ## Words and trees at one place -/

/-- A word as a token at line and column 1. -/
def stampedToken (word : Kind × String) : Token := ⟨word.1, word.2, 1, 1⟩

/-- The line that a node with a label gets from words that all stand in line 1. -/
def stampedLine : Label → Option Int
  | .program | .body | .params | .args => none
  | _ => some 1

mutual

/-- A tree as it is made from words at line and column 1. -/
def stamped : Tree → Tree
  | .absent => .absent
  | .leaf l => .leaf ⟨l.kind, l.text, some 1, some 1⟩
  | .node label _ cs => .node label (stampedLine label) (stampedAll cs)

/-- Some trees as they are made from words at line and column 1. -/
def stampedAll : List Tree → List Tree
  | [] => []
  | t :: ts => stamped t :: stampedAll ts

end

/-- Trees are stamped one by one. -/
theorem stampedAll_eq_map (ts : List Tree) : stampedAll ts = ts.map stamped := by
  induction ts with
  | nil => rfl
  | cons t ts ih => rw [stampedAll, ih, List.map_cons]

mutual

/-- To stamp a tree changes its places only. -/
theorem stamped_placeless : ∀ t : Tree, (stamped t).placeless = t.placeless
  | .absent => rfl
  | .leaf _ => rfl
  | .node label line cs => by
    unfold Tree.placeless
    rw [stamped, Tree.transplant_node, Tree.transplant_node, stampedAll_eq_map,
      stamped_placelessAll cs]
    rfl

theorem stamped_placelessAll : ∀ ts : List Tree,
    (ts.map stamped).map (Tree.transplant .forget) = ts.map (Tree.transplant .forget)
  | [] => rfl
  | t :: ts => by
    rw [List.map_cons, List.map_cons, List.map_cons, stamped_placelessAll ts]
    exact congrArg (· :: _) (stamped_placeless t)

end

/-! ## Ranks -/

/-- What is made at a rank is also made at the one below. -/
theorem derives_below {r : Nat} {ts rest : List Token} {t : Tree}
    (h : Derives (phraseAt (r + 1)) ts [t] rest) : Derives (phraseAt r) ts [t] rest := by
  match r with
  | 0 => exact .value h
  | 1 | 2 | 3 | 4 => exact .operand h
  | 5 => exact .base h
  | 6 => exact .primary h
  | _ + 7 => exact h

/-- What is made at a rank is also made at all below. -/
theorem derives_looser {r r' : Nat} (hr : r ≤ r') {ts rest : List Token} {t : Tree}
    (h : Derives (phraseAt r') ts [t] rest) : Derives (phraseAt r) ts [t] rest := by
  induction hr with
  | refl => exact h
  | step _ ih => exact ih (derives_below h)

/-- What is made as a primary expression is made at every rank. -/
theorem derives_primary {ts rest : List Token} {t : Tree} (h : Derives .primary ts [t] rest)
    (r : Nat) : Derives (phraseAt r) ts [t] rest :=
  derives_looser (Nat.le_add_right r primaryRank) (by cases r <;> exact h)

/-! ## Reading words back -/

/-- The words of a tree are derived as what it is in a role. -/
def ReadsBack : Role → Tree → Prop
  | .expression, t => ∀ rest,
    Derives (phraseAt (rank t)) ((words t).map stampedToken ++ rest) [stamped t] rest
  | .property, t => ∀ rest,
    Derives .property ((words t).map stampedToken ++ rest) [stamped t] rest
  | .statement, t => ∀ {rest stop : List Token} {ss : List Tree}, Derives .items rest ss stop →
    Derives .items ((Part.closed ⟨t, words t⟩).map stampedToken ++ rest) (stamped t :: ss) stop

section Pieces

variable {t : Tree} {es ps ss : List Tree}

/-- As an operand, with parentheses where they are needed, an expression is made at the rank that is
asked for. -/
theorem readsBack_operand (h : ReadsBack .expression t) (r : Nat) (rest : List Token) :
    Derives (phraseAt r) ((Part.operand r ⟨t, words t⟩).map stampedToken ++ rest) [stamped t]
      rest := by
  unfold Part.operand
  by_cases hr : rank t < r
  · rw [if_pos hr]
    have hinner := derives_looser (Nat.zero_le _) (h (stampedToken (fixed .rpar) :: rest))
    simp only [List.map_cons, List.map_append, List.map_nil, List.cons_append, List.append_assoc,
      List.nil_append]
    exact derives_primary (.parenthesized rfl hinner rfl) r
  · rw [if_neg hr]
    exact derives_looser (Nat.le_of_not_lt hr) (h rest)

theorem readsBack_expression (h : ReadsBack .expression t) (rest : List Token) :
    Derives .expression ((words t).map stampedToken ++ rest) [stamped t] rest :=
  derives_looser (Nat.zero_le _) (h rest)

/-- Expressions with commas before them are read back. -/
theorem readsBack_moreArguments (hes : ∀ e ∈ es, ReadsBack .expression e) (rest : List Token) :
    Derives .moreArguments
      (((parts es).flatMap fun q => fixed .comma :: q.words).map stampedToken ++ rest)
      (es.map stamped) rest := by
  induction es with
  | nil => exact .noMoreArguments
  | cons e es ih =>
    rw [List.forall_mem_cons] at hes
    simp only [parts, List.flatMap_cons, List.map_append, List.map_cons, List.cons_append,
      List.append_assoc]
    exact .moreArguments rfl (readsBack_expression hes.1 _) (ih hes.2)

/-- Expressions with commas between them are read back. -/
theorem readsBack_arguments (hes : ∀ e ∈ es, ReadsBack .expression e) (rest : List Token) :
    Derives .arguments ((Part.commas (parts es)).map stampedToken ++ rest) (es.map stamped)
      rest := by
  cases es with
  | nil => exact .noArguments
  | cons e es =>
    rw [List.forall_mem_cons] at hes
    simp only [parts, Part.commas, List.map_append, List.append_assoc]
    exact .arguments (readsBack_expression hes.1 _) (readsBack_moreArguments hes.2 rest)

theorem readsBack_properties (hps : ∀ p ∈ ps, ReadsBack .property p) (rest : List Token) :
    Derives .properties ((Part.commas (parts ps)).map stampedToken ++ rest) (ps.map stamped)
      rest := by
  induction ps with
  | nil => exact .noProperties
  | cons p ps ih =>
    rw [List.forall_mem_cons] at hps
    cases ps with
    | nil =>
      simp only [parts, Part.commas, List.flatMap_nil, List.append_nil]
      exact .lastProperty (hps.1 rest)
    | cons q ps =>
      have hmore := ih hps.2
      simp only [parts, Part.commas, List.flatMap_cons, List.map_append, List.map_cons,
        List.cons_append, List.append_assoc] at hmore ⊢
      exact .properties (hps.1 _) rfl hmore

/-- Statements with their semicolons are read back. -/
theorem readsBack_items (hss : ∀ s ∈ ss, ReadsBack .statement s) (rest : List Token) :
    Derives .items (((parts ss).flatMap Part.closed).map stampedToken ++ rest) (ss.map stamped)
      rest := by
  induction ss with
  | nil => exact .noItems
  | cons s ss ih =>
    rw [List.forall_mem_cons] at hss
    simp only [parts, List.flatMap_cons, List.map_append, List.append_assoc]
    exact hss.1 (ih hss.2)

theorem readsBack_block (hss : ∀ s ∈ ss, ReadsBack .statement s) (line : Option Int)
    (rest : List Token) :
    Derives .block ((words (.node .body line ss)).map stampedToken ++ rest)
      [stamped (.node .body line ss)] rest := by
  rw [stamped, stampedAll_eq_map]
  simp only [words, Part.arrange, List.map_append, List.map_cons, List.map_nil, List.cons_append,
    List.append_assoc, List.nil_append]
  exact .block rfl (readsBack_items hss _) rfl

theorem IsIdentifier.stamped {l : Leaf} (h : IsIdentifier l) :
    (stampedToken (leafToken l.kind, l.text)).kind = .ident ∧
      Tree.leaf (stampedToken (leafToken l.kind, l.text)).leaf = Syntax.stamped (.leaf l) := by
  rw [h.kind]
  exact ⟨rfl, congrArg (fun k => Tree.leaf ⟨k, l.text, some 1, some 1⟩) h.kind.symm⟩

/-- Names with commas before them are read back as parameters. -/
theorem readsBack_moreParams {ps : List Leaf} (hps : ∀ p ∈ ps, IsIdentifier p) (rest : List Token) :
    Derives .moreParams (((parts (ps.map .leaf)).flatMap fun q => fixed .comma :: q.words).map
      stampedToken ++ rest) ((ps.map Tree.leaf).map stamped) rest := by
  induction ps with
  | nil => exact .noMoreParams
  | cons p ps ih =>
    rw [List.forall_mem_cons] at hps
    obtain ⟨hident, hleaf⟩ := hps.1.stamped
    simp only [List.map_cons, parts, words, List.flatMap_cons, List.cons_append, List.nil_append,
      ← hleaf]
    exact .moreParams rfl hident (ih hps.2)

theorem stamped_words (ps : List Leaf) :
    ((ps.map Tree.leaf).map stamped).map Tree.word = ps.map Leaf.text := by
  induction ps with
  | nil => rfl
  | cons p ps ih => exact congrArg (p.text :: ·) ih

theorem readsBack_params {ps : List Leaf} (hps : IsParameters ps) (line : Option Int)
    (rest : List Token) : Derives .params
      ((words (.node .params line (ps.map .leaf))).map stampedToken ++ rest)
      [stamped (.node .params line (ps.map .leaf))] rest := by
  rw [stamped, stampedAll_eq_map]
  cases ps with
  | nil => exact .noParams rfl rfl
  | cons p ps =>
    obtain ⟨hp, hmore⟩ := List.forall_mem_cons.mp hps.names
    obtain ⟨hident, hleaf⟩ := hp.stamped
    have hdiffer := hps.differ
    rw [← stamped_words, List.map_cons, List.map_cons, ← hleaf] at hdiffer
    simp only [words, List.map_cons, parts, Part.arrange, Part.commas, List.map_append,
      List.cons_append, List.append_assoc, List.nil_append, List.map_nil, ← hleaf]
    exact .params rfl hident (readsBack_moreParams hmore _) rfl hdiffer

end Pieces

/-! ## Operators -/

/-- A sign of conditions is an operator of a level that makes conditions. -/
theorem condition_level {sign : String} (h : sign ∈ conditionSigns) : ∃ ℓ : Level,
    signRank sign = ℓ.rank ∧ ℓ.label = .condition ∧
      ℓ.isOperator (stampedToken (.condop, sign)) = true := by
  simp only [conditionSigns, List.mem_cons, List.not_mem_nil, or_false] at h
  rcases h with rfl | rfl | rfl | rfl
  · exact ⟨.logical, rfl, rfl, rfl⟩
  · exact ⟨.logical, rfl, rfl, rfl⟩
  · exact ⟨.equality, rfl, rfl, rfl⟩
  · exact ⟨.equality, rfl, rfl, rfl⟩

/-- A sign of arithmetic is that of powers, or an operator of a level that makes binary nodes. -/
theorem arithmetic_level {sign : String} (h : sign ∈ arithmeticSigns) : sign = "^" ∨ ∃ ℓ : Level,
    signRank sign = ℓ.rank ∧ ℓ.label = .binary ∧
      ℓ.isOperator (stampedToken (.binop, sign)) = true := by
  simp only [arithmeticSigns, List.mem_cons, List.not_mem_nil, or_false] at h
  rcases h with rfl | rfl | rfl | rfl | rfl | rfl
  · exact .inr ⟨.sum, rfl, rfl, rfl⟩
  · exact .inr ⟨.sum, rfl, rfl, rfl⟩
  · exact .inr ⟨.product, rfl, rfl, rfl⟩
  · exact .inr ⟨.product, rfl, rfl, rfl⟩
  · exact .inr ⟨.product, rfl, rfl, rfl⟩
  · exact .inl rfl

/-- Two operands with an operator between them that groups to the left. -/
theorem readsBack_join {ℓ : Level} {sign : String} {kind : Kind} {a b : Tree}
    (hrank : signRank sign = ℓ.rank) (hop : ℓ.isOperator (stampedToken (kind, sign)) = true)
    (ha : ReadsBack .expression a) (hb : ReadsBack .expression b) (rest : List Token) :
    Derives (phraseAt (signRank sign))
      ((Part.operand (leftRank (signRank sign)) ⟨a, words a⟩ ++ (kind, sign) ::
        Part.operand (rightRank (signRank sign)) ⟨b, words b⟩).map stampedToken ++ rest)
      [.node ℓ.label (some 1) [stamped a, .leaf (stampedToken (kind, sign)).leaf, stamped b]]
      rest := by
  have hpower : signRank sign ≠ powerRank := by
    rw [hrank]
    cases ℓ <;> decide
  obtain ⟨hlevel, hoperand⟩ : phraseAt (signRank sign) = .level ℓ ∧
      phraseAt (signRank sign + 1) = ℓ.operand := by
    rw [hrank]
    cases ℓ <;> exact ⟨rfl, rfl⟩
  rw [leftRank, if_neg hpower, rightRank, if_neg hpower]
  simp only [List.map_append, List.map_cons, List.append_assoc, List.cons_append]
  have hleft := readsBack_operand ha (signRank sign) (stampedToken (kind, sign) ::
    ((Part.operand (signRank sign + 1) ⟨b, words b⟩).map stampedToken ++ rest))
  have hright := readsBack_operand hb (signRank sign + 1) rest
  rw [hlevel] at hleft ⊢
  rw [hoperand] at hright
  exact .join hleft hop hright

/-- Two operands with the sign of powers between them. -/
theorem readsBack_power {a b : Tree} (ha : ReadsBack .expression a)
    (hb : ReadsBack .expression b) (rest : List Token) :
    Derives .power
      ((Part.operand chainRank ⟨a, words a⟩ ++ (.binop, "^") ::
        Part.operand powerRank ⟨b, words b⟩).map stampedToken ++ rest)
      [.node .binary (some 1) [stamped a, .leaf (stampedToken (.binop, "^")).leaf, stamped b]]
      rest := by
  simp only [List.map_append, List.map_cons, List.append_assoc, List.cons_append]
  exact .raise (readsBack_operand ha chainRank _) rfl (readsBack_operand hb powerRank rest)

/-! ## Trees -/

/-- Only expressions get a semicolon as statements. -/
theorem closed_expression {t : Tree} (h : Formed .expression t) :
    Part.closed ⟨t, words t⟩ = words t ++ [fixed .semi] := by
  cases h <;> rfl

/-- Every expression is there. -/
theorem after_expression {t : Tree} (h : Formed .expression t) (word : Kind × String) :
    Part.after word ⟨t, words t⟩ = word :: words t := by
  cases h <;> rfl

/-- A condition or a binary node with the words of its operands around its operator. -/
theorem readsBack_operation {label : Label} {line : Option Int} {op : Leaf} {a b : Tree}
    (hlabel : label = .condition ∨ label = .binary)
    (h : ∀ rest, Derives (phraseAt (signRank op.text))
      ((Part.operand (leftRank (signRank op.text)) ⟨a, words a⟩ ++ (leafToken op.kind, op.text) ::
        Part.operand (rightRank (signRank op.text)) ⟨b, words b⟩).map stampedToken ++ rest)
      [.node label (some 1) [stamped a, stamped (.leaf op), stamped b]] rest) :
    ReadsBack .expression (.node label line [a, .leaf op, b]) := by
  intro rest
  rcases hlabel with rfl | rfl
  all_goals
    have hwords := h rest
    rw [List.append_cons] at hwords
    exact hwords

/-- Declarations and `if` get no semicolon as statements. -/
theorem readsBack_declaration {label : Label} {line : Option Int} {cs : List Tree}
    (hlabel : label = .vardecl ∨ label = .fndecl ∨ label = .ifstmt)
    (h : ∀ rest, Derives .statement ((words (.node label line cs)).map stampedToken ++ rest)
      [stamped (.node label line cs)] rest) : ReadsBack .statement (.node label line cs) := by
  intro rest stop ss hrest
  rcases hlabel with rfl | rfl | rfl
  all_goals exact .item (h rest) hrest

theorem IsKeyword.stamped {l : Leaf} (h : IsKeyword l) :
    ((stampedToken (leafToken l.kind, l.text)).kind = .letWord ∨
      (stampedToken (leafToken l.kind, l.text)).kind = .constWord) ∧
      Tree.leaf (stampedToken (leafToken l.kind, l.text)).leaf = Syntax.stamped (.leaf l) := by
  rcases h with ⟨hk, -⟩ | ⟨hk, -⟩
  · rw [hk]
    exact ⟨.inl rfl, congrArg (fun k => Tree.leaf ⟨k, l.text, some 1, some 1⟩) hk.symm⟩
  · rw [hk]
    exact ⟨.inr rfl, congrArg (fun k => Tree.leaf ⟨k, l.text, some 1, some 1⟩) hk.symm⟩

section Cases

variable {line line' line'' : Option Int} {name : Leaf} {t value : Tree} {es ss us : List Tree}

theorem readsBack_literal {l : Leaf} (hk : l.kind = .number ∨ l.kind = .string) :
    ReadsBack .expression (.leaf l) := by
  intro rest
  -- the leaf that the parser makes of the token is the stamped one
  rcases hk with hk | hk
  · have hatom : Derives .primary (stampedToken (.number, l.text) :: rest) _ rest :=
      .atom (.inl rfl)
    rw [stamped, words, hk]
    exact hatom
  · have hatom : Derives .primary (stampedToken (.string, l.text) :: rest) _ rest :=
      .atom (.inr (.inl rfl))
    rw [stamped, words, hk]
    exact hatom

theorem readsBack_name (h : IsIdentifier name) : ReadsBack .expression (.leaf name) := by
  intro rest
  obtain ⟨hident, hleaf⟩ := h.stamped
  rw [← hleaf, words]
  exact .atom (.inr (.inr hident))

theorem readsBack_assign (ht : IsIdentifier name) (hv : ReadsBack .expression value) :
    ReadsBack .expression (.node .assign line [.leaf name, value]) := by
  intro rest
  obtain ⟨hident, hleaf⟩ := ht.stamped
  show Derives .expression _ [.node .assign (some 1) [_, _]] rest
  simp only [words, parts, Part.arrange, List.map_cons, List.cons_append, List.nil_append,
    ← hleaf]
  refine .assignment (derives_primary (.atom (.inr (.inr hident))) 1) rfl ?_
    (readsBack_expression hv rest)
  rw [hleaf]
  exact decide_eq_true ht.kind

theorem readsBack_condition {op : Leaf} {a b : Tree} (hk : op.kind = .condop)
    (ht : op.text ∈ conditionSigns) (ha : ReadsBack .expression a)
    (hb : ReadsBack .expression b) :
    ReadsBack .expression (.node .condition line [a, .leaf op, b]) := by
  obtain ⟨ℓ, hrank, hlabel, hop⟩ := condition_level ht
  refine readsBack_operation (.inl rfl) fun rest => ?_
  have hjoin := readsBack_join hrank hop ha hb rest
  rw [hlabel] at hjoin
  rw [stamped, hk]
  exact hjoin

theorem readsBack_binary {op : Leaf} {a b : Tree} (hk : op.kind = .binop)
    (ht : op.text ∈ arithmeticSigns) (ha : ReadsBack .expression a)
    (hb : ReadsBack .expression b) :
    ReadsBack .expression (.node .binary line [a, .leaf op, b]) := by
  refine readsBack_operation (.inr rfl) fun rest => ?_
  rw [stamped, hk]
  rcases arithmetic_level ht with hpower | ⟨ℓ, hrank, hlabel, hop⟩
  · rw [hpower]
    exact readsBack_power ha hb rest
  · have hjoin := readsBack_join hrank hop ha hb rest
    rw [hlabel] at hjoin
    exact hjoin

theorem readsBack_field (ht : ReadsBack .expression t) (hn : IsIdentifier name) :
    ReadsBack .expression (.node .field line [t, .leaf name]) := by
  intro rest
  obtain ⟨hident, hleaf⟩ := hn.stamped
  show Derives .chain _ [.node .field (some 1) [_, _]] rest
  simp only [words, parts, Part.arrange, List.map_append, List.map_cons, List.map_nil,
    List.cons_append, List.append_assoc, List.nil_append, ← hleaf]
  exact .field (readsBack_operand ht chainRank _) rfl hident

theorem readsBack_index {key : Tree} (ht : ReadsBack .expression t)
    (hk : ReadsBack .expression key) : ReadsBack .expression (.node .index line [t, key]) := by
  intro rest
  show Derives .chain _ [.node .index (some 1) [_, _]] rest
  simp only [words, parts, Part.arrange, List.map_append, List.map_cons, List.map_nil,
    List.cons_append, List.append_assoc, List.nil_append]
  exact .index (readsBack_operand ht chainRank _) rfl (readsBack_expression hk _) rfl

theorem readsBack_call (ht : ReadsBack .expression t) (hes : ∀ e ∈ es, ReadsBack .expression e) :
    ReadsBack .expression (.node .call line [t, .node .args line' es]) := by
  intro rest
  show Derives .chain _ [.node .call (some 1) [_, .node .args none (stampedAll _)]] rest
  rw [stampedAll_eq_map]
  simp only [words, parts, Part.arrange, List.map_append, List.map_cons, List.map_nil,
    List.cons_append, List.append_assoc, List.nil_append]
  exact .call (readsBack_operand ht chainRank _) rfl (readsBack_arguments hes _) rfl

theorem readsBack_array (hes : ∀ e ∈ es, ReadsBack .expression e) :
    ReadsBack .expression (.node .array line es) := by
  intro rest
  show Derives .primary _ [.node .array (some 1) (stampedAll _)] rest
  rw [stampedAll_eq_map]
  simp only [words, Part.arrange, List.map_append, List.map_cons, List.map_nil,
    List.cons_append, List.append_assoc, List.nil_append]
  exact .array rfl (readsBack_arguments hes _) rfl

theorem readsBack_object {ps : List Tree} (hps : ∀ p ∈ ps, ReadsBack .property p) :
    ReadsBack .expression (.node .object line ps) := by
  intro rest
  show Derives .primary _ [.node .object (some 1) (stampedAll _)] rest
  rw [stampedAll_eq_map]
  simp only [words, Part.arrange, List.map_append, List.map_cons, List.map_nil,
    List.cons_append, List.append_assoc, List.nil_append]
  exact .object rfl (readsBack_properties hps _) rfl

theorem readsBack_functionLiteral {ps : List Leaf} (hps : IsParameters ps)
    (hss : ∀ s ∈ ss, ReadsBack .statement s) : ReadsBack .expression
      (.node .fnliteral line [.node .params line' (ps.map .leaf), .node .body line'' ss]) := by
  intro rest
  show Derives .primary _ [.node .fnliteral (some 1) [stamped (.node .params _ _), _]] rest
  rw [words]
  simp only [parts, Part.arrange, List.map_append, List.map_cons, List.cons_append,
    List.append_assoc]
  exact .functionLiteral rfl (readsBack_params hps _ _) (readsBack_block hss _ rest)

theorem readsBack_shorthand (hk : IsIdentifier name) :
    ReadsBack .property (.node .prop line [.leaf name, .absent]) := by
  intro rest
  obtain ⟨hident, hleaf⟩ := hk.stamped
  show Derives .property _ [.node .prop (some 1) [_, .absent]] rest
  simp only [words, parts, Part.arrange, Part.after, List.map_cons, List.map_nil,
    List.cons_append, List.nil_append, List.append_nil, ← hleaf]
  exact .shorthand hident

theorem readsBack_property (hk : IsIdentifier name) (hvalue : Formed .expression value)
    (hv : ReadsBack .expression value) :
    ReadsBack .property (.node .prop line [.leaf name, value]) := by
  intro rest
  obtain ⟨hident, hleaf⟩ := hk.stamped
  show Derives .property _ [.node .prop (some 1) [_, _]] rest
  simp only [words, parts, Part.arrange, after_expression hvalue, List.map_cons,
    List.cons_append, List.nil_append, ← hleaf]
  exact .property hident rfl (readsBack_expression hv rest)

/-- The semicolon after an expression keeps it apart from the next statement. -/
theorem readsBack_expressionStatement (ht : Formed .expression t)
    (h : ReadsBack .expression t) : ReadsBack .statement t := by
  intro rest stop ss hrest
  rw [closed_expression ht]
  simp only [List.map_append, List.map_cons, List.map_nil, List.append_assoc, List.cons_append,
    List.nil_append]
  refine .expressionItem (readsBack_expression h _) ?_ (.semicolon rfl hrest)
  intro t ht
  rw [List.head?_cons, Option.mem_some_iff] at ht
  rw [← ht]
  decide

/-- A declaration without a value is one with `let`. -/
theorem readsBack_bareDeclaration {keyword : Leaf} (hk : keyword.kind = .letWord)
    (ht : keyword.text = "let") (hn : IsIdentifier name) :
    ReadsBack .statement (.node .vardecl line [.leaf keyword, .leaf name, .absent]) := by
  refine readsBack_declaration (.inl rfl) fun rest => ?_
  obtain ⟨hident, hleaf⟩ := hn.stamped
  obtain ⟨-, hword⟩ := IsKeyword.stamped (.inl ⟨hk, ht⟩)
  show Derives .statement _ [.node .vardecl (some 1) [_, _, .absent]] rest
  simp only [words, parts, Part.arrange, Part.after, List.map_cons, List.map_nil,
    List.cons_append, List.nil_append, ← hleaf, ← hword]
  exact .bareDeclaration (by rw [hk]; rfl) hident rfl

theorem readsBack_initialized {keyword : Leaf} (hk : IsKeyword keyword) (hn : IsIdentifier name)
    (hvalue : Formed .expression value) (hv : ReadsBack .expression value) :
    ReadsBack .statement (.node .vardecl line [.leaf keyword, .leaf name, value]) := by
  refine readsBack_declaration (.inl rfl) fun rest => ?_
  obtain ⟨hident, hleaf⟩ := hn.stamped
  obtain ⟨hkind, hword⟩ := hk.stamped
  show Derives .statement _ [.node .vardecl (some 1) [_, _, _]] rest
  simp only [words, parts, Part.arrange, after_expression hvalue, List.map_append, List.map_cons,
    List.map_nil, List.cons_append, List.append_assoc, List.nil_append, ← hleaf, ← hword]
  exact .declaration hkind hident rfl (readsBack_expression hv _) rfl

theorem readsBack_function {ps : List Leaf} (hn : IsIdentifier name) (hps : IsParameters ps)
    (hss : ∀ s ∈ ss, ReadsBack .statement s) : ReadsBack .statement
      (.node .fndecl line
        [.leaf name, .node .params line' (ps.map .leaf), .node .body line'' ss]) := by
  refine readsBack_declaration (.inr (.inl rfl)) fun rest => ?_
  obtain ⟨hident, hleaf⟩ := hn.stamped
  show Derives .statement _ [.node .fndecl (some 1) [_, stamped (.node .params _ _), _]] rest
  rw [words]
  simp only [parts, words_leaf, Part.arrange, List.map_append, List.map_cons, List.cons_append,
    List.append_assoc, List.nil_append, ← hleaf]
  exact .function rfl hident (readsBack_params hps _ _) (readsBack_block hss _ rest)

theorem readsBack_ifOnly (ht : ReadsBack .expression t) (hss : ∀ s ∈ ss, ReadsBack .statement s) :
    ReadsBack .statement (.node .ifstmt line [t, .node .body line' ss, .absent]) := by
  refine readsBack_declaration (.inr (.inr rfl)) fun rest => ?_
  show Derives .statement _ [.node .ifstmt (some 1) [_, _, .absent]] rest
  rw [words]
  simp only [parts, Part.arrange, Part.after, List.map_append, List.map_cons, List.cons_append,
    List.append_assoc, List.append_nil]
  exact .conditional (.ifOnly rfl (readsBack_expression ht _) (readsBack_block hss _ rest))

theorem readsBack_ifElse (ht : ReadsBack .expression t) (hss : ∀ s ∈ ss, ReadsBack .statement s)
    (hus : ∀ s ∈ us, ReadsBack .statement s) : ReadsBack .statement
      (.node .ifstmt line [t, .node .body line' ss, .node .body line'' us]) := by
  refine readsBack_declaration (.inr (.inr rfl)) fun rest => ?_
  show Derives .statement _ [.node .ifstmt (some 1) [_, _, _]] rest
  rw [words]
  simp only [parts, Part.arrange, Part.after, List.map_append, List.map_cons, List.cons_append,
    List.append_assoc]
  exact .conditional (.ifElse rfl (readsBack_expression ht _) (readsBack_block hss _ _) rfl
    (readsBack_block hus _ rest))

end Cases

/-- The words of a tree that the grammar can make are derived as that tree. -/
theorem formed_readsBack {role : Role} {t : Tree} (h : Formed role t) : ReadsBack role t := by
  induction h with
  | number hk _ => exact readsBack_literal (.inl hk)
  | string hk => exact readsBack_literal (.inr hk)
  | name h => exact readsBack_name h
  | assign ht _ ihv => exact readsBack_assign ht ihv
  | condition hk ht _ _ iha ihb => exact readsBack_condition hk ht iha ihb
  | binary hk ht _ _ iha ihb => exact readsBack_binary hk ht iha ihb
  | field _ hn iht => exact readsBack_field iht hn
  | index _ _ iht ihk => exact readsBack_index iht ihk
  | call _ _ ihc ihes => exact readsBack_call ihc ihes
  | array _ ihes => exact readsBack_array ihes
  | object _ ihps => exact readsBack_object ihps
  | functionLiteral hps _ ihss => exact readsBack_functionLiteral hps ihss
  | shorthand hk => exact readsBack_shorthand hk
  | property hk hv ihv => exact readsBack_property hk hv ihv
  | expressionStatement h ih => exact readsBack_expressionStatement h ih
  | bareDeclaration hk ht hn => exact readsBack_bareDeclaration hk ht hn
  | declaration hk hn hi ihi => exact readsBack_initialized hk hn hi ihi
  | function hn hps _ ihss => exact readsBack_function hn hps ihss
  | ifOnly _ _ iht ihss => exact readsBack_ifOnly iht ihss
  | ifElse _ _ _ iht ihss ihus => exact readsBack_ifElse iht ihss ihus

/-! ## Programs -/

/-- Tokens that are moved to one place are their words there. -/
theorem relocate_stamped (ts : List Token) :
    ts.map (Token.relocate fun _ => 1) = (ts.map Token.spelling).map stampedToken := by
  rw [List.map_map]
  rfl

/-- To relocate tokens moves no end. -/
theorem EndsOnce.relocate {ts : List Token} (h : EndsOnce ts) (φ : Int → Int) :
    EndsOnce (ts.map (Token.relocate φ)) := by
  obtain ⟨body, e, rfl, he, hbody⟩ := h
  refine ⟨body.map (Token.relocate φ), e.relocate φ, by simp, he, ?_⟩
  intro t ht
  obtain ⟨u, hu, rfl⟩ := List.mem_map.mp ht
  exact hbody u hu

/-- The words of a program, and an `eof`, are that program. -/
theorem words_isProgram {t : Tree} (h : IsProgramTree t) :
    IsProgram ((words t ++ [(Kind.eof, "")]).map stampedToken) (stamped t) := by
  obtain ⟨line, ss, rfl, hss⟩ := h
  have hitems := readsBack_items (fun s hs => formed_readsBack (hss s hs))
    [stampedToken (.eof, "")]
  rw [words, List.map_append, List.map_singleton, stamped, stampedAll_eq_map]
  exact ⟨_, _, rfl, hitems, rfl⟩

/-- What is parsed at one place is parsed at any places, and differs in them only. -/
theorem program_of_stamped {ts : List Token} {t : Tree} {n : Nat}
    (h : (program n).run (ts.map (Token.relocate fun _ => 1)) = .ok t) :
    ∃ t', (program n).run ts = .ok t' ∧ t'.placeless = t.placeless := by
  have hrun := Parser.run_relocate (Parser.carries_program (φ := fun _ => 1) rfl n) ts
  rw [h] at hrun
  cases hparsed : (program n).run ts with
  | ok t' =>
    rw [hparsed] at hrun
    exact ⟨t', rfl, (Except.ok.inj hrun).symm⟩
  | error r =>
    rw [hparsed] at hrun
    cases hrun

/-- The text that a program is rendered as is parsed, within a large enough budget, to a tree that
differs from it in lines and columns only. -/
theorem render_parsed {t : Tree} (h : IsProgramTree t) : ∃ ts t', tokenize (render t) = .ok ts ∧
    t'.placeless = t.placeless ∧ ∃ N, ∀ n, N ≤ n → (program n).run ts = .ok t' := by
  obtain ⟨ts, htokens, hts⟩ := tokenize_unwords (program_legible h)
  have hends := tokenize_endsOnce htokens
  have hstamped := words_isProgram h
  rw [← hts, ← relocate_stamped] at hstamped
  obtain ⟨N, hN⟩ := program_runs hstamped (hends.relocate _)
  -- the tree is made within one budget, and so within all that are large enough
  obtain ⟨t', hrun, hsame⟩ := program_of_stamped (hN N (Nat.le_refl N))
  exact ⟨ts, t', htokens, hsame.trans (stamped_placeless t),
    program_runs (program_reads hrun hends) hends⟩

/-- Powers group to the right and bind tighter than a sum, an assignment binds least of all, and the
quotes in a literal get a backslash. -/
theorem render_parsed_powers :
    let name (s : String) : Leaf := ⟨.ident, s, none, none⟩
    let sign (s : String) : Leaf := ⟨.binop, s, none, none⟩
    let power : Tree := .node .binary none [.leaf (name "b"), .leaf (sign "^"), .leaf (name "c")]
    let powers : Tree := .node .binary none [power, .leaf (sign "^"), .leaf (name "d")]
    let quoted : Tree := .leaf ⟨.string, "say \"x\"", none, none⟩
    let sum : Tree :=
      .node .binary none [.node .assign none [.leaf (name "a"), powers], .leaf (sign "+"), quoted]
    let t : Tree := .node .program none [sum]
    render t = "( a = ( b ^ c ) ^ d ) + \"say \\\"x\\\"\" ;" ∧
      ∃ ts t', tokenize (render t) = .ok ts ∧ t'.placeless = t.placeless ∧
        ∃ N, ∀ n, N ≤ n → (program n).run ts = .ok t' := by
  intro name sign power powers quoted sum t
  have hname : ∀ c : Char, isWordStart c = true → Kind.ofWord (String.ofList [c]) = .ident →
      IsIdentifier (name (String.ofList [c])) := fun c hc hplain =>
    ⟨rfl, ⟨c, [], String.toList_ofList, hc, by simp⟩, hplain⟩
  have hpower : Formed .expression power :=
    .binary rfl (by decide) (.name (hname 'b' rfl rfl)) (.name (hname 'c' rfl rfl))
  have hpowers : Formed .expression powers :=
    .binary rfl (by decide) hpower (.name (hname 'd' rfl rfl))
  have hsum : Formed .expression sum :=
    .binary rfl (by decide) (.assign (hname 'a' rfl rfl) hpowers) (.string rfl)
  refine ⟨by decide +kernel, render_parsed ⟨none, [sum], rfl, ?_⟩⟩
  intro s hs
  rw [List.mem_singleton.mp hs]
  exact .expressionStatement hsum

end Avii.Syntax
