import Avii.Proofs.Grammar.Agreement
import Avii.Proofs.Syntax.Shape

/-!
# What the symbols of the grammar mean

Each symbol of the grammar stands for a phrase (`Means`), and each rule respects that: what its body
means its head means too (`rules_meant`). So what is derived from a symbol by the grammar is derived
as its phrase, from any tokens that the lexemes stand for (`yields_means`): the converse of
`derives_covered`. The trees are those that the parts are built into, but for the lines of inner
nodes.

The grammar lists all but the last item of a list first, and a phrase its first item. So the
meaning of a list is that it goes in front of others (`Leading`). The two checks that the grammar
leaves to the building of trees, on parameters and on targets of assignments, are passed where a
tree has been built.
-/

namespace Avii.Grammar

open Syntax (Phrase Level Derives startsApart arithmeticSigns conditionSigns)

/-! ## Operators -/

/-- A token that is an operator has the text of one. -/
structure Signed (t : Token) : Prop where
  arithmetic : t.kind = .binop → t.text ∈ arithmeticSigns
  condition : t.kind = .condop → t.text ∈ conditionSigns

/-- The level whose operators a terminal is one of. -/
def levelOf? : Terminal → Option Level
  | .andWord | .orWord => some .logical
  | .eq | .neq => some .equality
  | .plus | .minus => some .sum
  | .star | .slash | .percent => some .product
  | _ => none

section Operators

variable {t : Token} {ℓ : Level}

/-- The operators of levels are of two kinds. -/
theorem levelOf?_kind {a : Terminal} (h : levelOf? a = some ℓ) :
    a.kind = .binop ∨ a.kind = .condop := by
  cases a with
  | plus | minus | star | slash | percent => exact .inl rfl
  | andWord | orWord | eq | neq => exact .inr rfl
  | _ => cases h

/-- A token with a terminal of a level is an operator of it. -/
theorem isOperator_of_terminal (ht : Signed t) (h : levelOf? (terminalOf t.kind t.text) = some ℓ) :
    ℓ.isOperator t = true := by
  have hkind := levelOf?_kind h
  rw [terminalOf_kind] at hkind
  obtain ⟨kind, text, line, column⟩ := t
  dsimp only at h hkind
  rcases hkind with rfl | rfl
  · have htext := ht.arithmetic rfl
    simp only [arithmeticSigns, List.mem_cons, List.not_mem_nil, or_false] at htext
    rcases htext with rfl | rfl | rfl | rfl | rfl | rfl
    · cases h; rfl
    · cases h; rfl
    · cases h; rfl
    · cases h; rfl
    · cases h; rfl
    · cases h
  · have htext := ht.condition rfl
    simp only [conditionSigns, List.mem_cons, List.not_mem_nil, or_false] at htext
    rcases htext with rfl | rfl | rfl | rfl
    · cases h; rfl
    · cases h; rfl
    · cases h; rfl
    · cases h; rfl

/-- A caret is the sign of a power. -/
theorem isPower_of_terminal (ht : Signed t) (h : terminalOf t.kind t.text = .caret) :
    Parser.isPower t = true := by
  have hkind : t.kind = .binop := by
    rw [← terminalOf_kind t.kind t.text, h]
    rfl
  obtain ⟨kind, text, line, column⟩ := t
  dsimp only at h hkind
  subst hkind
  have htext := ht.arithmetic rfl
  simp only [arithmeticSigns, List.mem_cons, List.not_mem_nil, or_false] at htext
  rcases htext with rfl | rfl | rfl | rfl | rfl | rfl
  · cases h
  · cases h
  · cases h
  · cases h
  · cases h
  · rfl

end Operators

/-! ## Meanings -/

/-- Tokens are a phrase that contributes one tree. -/
def Single (φ : Phrase) (ts : List Token) (out : List Tree) (rest : List Token) : Prop :=
  ∃ e, out = [e] ∧ Derives φ ts [e] rest

/-- Tokens are a phrase that contributes one tree and ends where a chain cannot go on. -/
def Apart (φ : Phrase) (ts : List Token) (out : List Tree) (rest : List Token) : Prop :=
  Single φ ts out rest ∧ startsApart rest

/-- Tokens in front of a list make a longer list. -/
def Leading (φ : Phrase) (ts : List Token) (out : List Tree) (rest : List Token) : Prop :=
  ∀ more stop, Derives φ rest more stop → Derives φ ts (out ++ more) stop

/-- Tokens make a list of any property that they follow. -/
def Closes (ts : List Token) (more : List Tree) (stop : List Token) : Prop :=
  ∀ ts₀ p, Derives .property ts₀ [p] ts → Derives .properties ts₀ (p :: more) stop

/-- What a symbol means: tokens up to a rest stand for it, and contribute some trees. -/
def Means : Symbol → List Token → List Tree → List Token → Prop
  | .t a, ts, out, rest => ∃ k, ts = k :: rest ∧ Signed k ∧ terminalOf k.kind k.text = a ∧
      out = if a.isPart then [.leaf k.leaf] else []
  | .v .root, _, _, _ => True
  | .v .start, ts, out, rest => ∃ ss, out = [.node .program none ss] ∧ Derives .items ts ss rest
  | .v .items, ts, out, rest | .v .item, ts, out, rest => Leading .items ts out rest
  | .v .stmt, ts, out, rest => Single .statement ts out rest ∨ Apart .expression ts out rest
  | .v .vardecl, ts, out, rest | .v .fndecl, ts, out, rest => Single .statement ts out rest
  | .v .ifstmt, ts, out, rest => Single .conditional ts out rest
  | .v .block, ts, out, rest => Single .block ts out rest
  | .v .params, ts, out, rest => Single .params ts out rest
  | .v .moreParams, ts, out, rest =>
    Leading .moreParams ts out rest ∧ ∀ t ∈ out, ∃ l, t = .leaf l
  | .v .expr, ts, out, rest | .v .assign, ts, out, rest => Apart .expression ts out rest
  | .v .logical, ts, out, rest => Apart (.level .logical) ts out rest
  | .v .equality, ts, out, rest => Apart (.level .equality) ts out rest
  | .v .additive, ts, out, rest => Apart (.level .sum) ts out rest
  | .v .multiplicative, ts, out, rest => Apart (.level .product) ts out rest
  | .v .power, ts, out, rest => Apart .power ts out rest
  | .v .chain, ts, out, rest => Single .chain ts out rest
  | .v .arglist, ts, out, rest =>
    ∃ es, out = [.node .args none es] ∧ Derives .arguments ts es rest
  | .v .moreExprs, ts, out, rest => Leading .moreArguments ts out rest
  | .v .primary, ts, out, rest | .v .object, ts, out, rest | .v .array, ts, out, rest
  | .v .fnliteral, ts, out, rest => Single .primary ts out rest
  | .v .moreProps, ts, out, rest =>
    ∀ more stop, Closes rest more stop → Closes ts (out ++ more) stop
  | .v .prop, ts, out, rest => Single .property ts out rest

/-- What some symbols mean, one after the other. -/
def MeansAll : List Symbol → List Token → List Tree → List Token → Prop
  | [], ts, out, rest => ts = rest ∧ out = []
  | x :: xs, ts, out, rest =>
    ∃ o os mid, out = o ++ os ∧ Means x ts o mid ∧ MeansAll xs mid os rest

/-- What the body of a rule means its head means too. A rule that makes a node does so of what its
parts have been built into. -/
def Rule.Meant (r : Rule) : Prop :=
  ∀ ts out rest, MeansAll r.body ts out rest →
    (r.head = .power → r.body = [.v .chain] → startsApart rest) →
    match r.shape with
    | .splice => Means (.v r.head) ts out rest
    | .node form =>
      (∃ built t, built.map Tree.bare = out.map Tree.bare ∧ buildNode form built = .ok t) →
        ∃ tree, Makes form out tree ∧ Means (.v r.head) ts [tree] rest

section Bodies

variable {xs : List Symbol} {head : Variable} {form : Form} {a : Terminal} {φ : Phrase}
  {ts rest : List Token} {out : List Tree}

/-- A rule that hands its parts on. -/
theorem meant_splice
    (h : ∀ ts out rest, MeansAll xs ts out rest → Means (.v head) ts out rest) :
    (⟨head, xs, .splice⟩ : Rule).Meant :=
  fun ts out rest hbody _ => h ts out rest hbody

/-- A rule that makes a node of any parts. -/
theorem meant_node (h : ∀ ts out rest, MeansAll xs ts out rest →
      ∃ tree, Makes form out tree ∧ Means (.v head) ts [tree] rest) :
    (⟨head, xs, .node form⟩ : Rule).Meant :=
  fun ts out rest hbody _ _ => h ts out rest hbody

/-- A body that starts with a token that is no part of the tree. -/
theorem MeansAll.mark (h : MeansAll (.t a :: xs) ts out rest) (ha : a.isPart = false) :
    ∃ k mid, ts = k :: mid ∧ k.kind = a.kind ∧ MeansAll xs mid out rest := by
  obtain ⟨o, os, mid, rfl, ⟨k, rfl, -, hk, rfl⟩, h⟩ := h
  rw [ha, if_neg Bool.false_ne_true, List.nil_append]
  exact ⟨k, mid, rfl, by rw [← hk, terminalOf_kind], h⟩

/-- A body that starts with a token that is a part of the tree. -/
theorem MeansAll.part (h : MeansAll (.t a :: xs) ts out rest) (ha : a.isPart = true) :
    ∃ k mid os, ts = k :: mid ∧ out = .leaf k.leaf :: os ∧ k.kind = a.kind ∧
      MeansAll xs mid os rest := by
  obtain ⟨o, os, mid, rfl, ⟨k, rfl, -, hk, rfl⟩, h⟩ := h
  rw [if_pos ha]
  exact ⟨k, mid, os, rfl, rfl, by rw [← hk, terminalOf_kind], h⟩

/-- A body that starts with a variable for one tree. -/
theorem MeansAll.tree {x : Symbol} (h : MeansAll (x :: xs) ts out rest)
    (hx : ∀ {ts out rest}, Means x ts out rest → Single φ ts out rest) :
    ∃ e os mid, out = e :: os ∧ Derives φ ts [e] mid ∧ MeansAll xs mid os rest := by
  obtain ⟨o, os, mid, rfl, hmeans, h⟩ := h
  obtain ⟨e, rfl, he⟩ := hx hmeans
  exact ⟨e, os, mid, rfl, he, h⟩

/-- A body of one symbol. -/
theorem MeansAll.only {x : Symbol} (h : MeansAll [x] ts out rest) : Means x ts out rest := by
  obtain ⟨o, os, mid, rfl, hmeans, rfl, rfl⟩ := h
  rw [List.append_nil]
  exact hmeans

end Bodies

/-! ## Statements -/

section Statements

/-- A program is its items. -/
theorem meant_start : (⟨.start, [.v .items], .node .program⟩ : Rule).Meant := by
  refine meant_node fun ts out rest h => ?_
  have hitems := h.only [] rest .noItems
  rw [List.append_nil] at hitems
  exact ⟨.node .program none out, makes_all .program fun _ => rfl, out, rfl, hitems⟩

/-- A program may be empty. -/
theorem meant_empty : (⟨.start, [], .node .program⟩ : Rule).Meant := by
  refine meant_node fun ts out rest ⟨hts, hout⟩ => ?_
  subst hts hout
  exact ⟨.node .program none [], makes_all .program fun _ => rfl, [], rfl, .noItems⟩

/-- An item goes behind the items before it. -/
theorem meant_items : (⟨.items, [.v .items, .v .item], .splice⟩ : Rule).Meant := by
  refine meant_splice fun ts out rest h more stop hmore => ?_
  obtain ⟨o, os, mid, rfl, hfirst, hlast⟩ := h
  rw [List.append_assoc]
  exact hfirst _ _ (hlast.only _ _ hmore)

theorem meant_statement : (⟨.item, [.v .stmt], .splice⟩ : Rule).Meant := by
  refine meant_splice fun ts out rest h more stop hmore => ?_
  rcases h.only with ⟨s, rfl, hs⟩ | ⟨⟨e, rfl, he⟩, hapart⟩
  · exact .item hs hmore
  · exact .expressionItem he hapart hmore

/-- A semicolon contributes nothing. -/
theorem meant_semicolon : (⟨.item, [.t .semicolon], .splice⟩ : Rule).Meant := by
  refine meant_splice fun ts out rest h more stop hmore => ?_
  obtain ⟨k, mid, rfl, hk, rfl, rfl⟩ := h.mark rfl
  exact .semicolon hk hmore

theorem meant_conditional : (⟨.stmt, [.v .ifstmt], .splice⟩ : Rule).Meant := by
  refine meant_splice fun ts out rest h => ?_
  obtain ⟨s, rfl, hs⟩ := h.only
  exact .inl ⟨s, rfl, .conditional hs⟩

/-- A declaration without a value is one with the value absent. -/
theorem meant_bareDeclaration :
    (⟨.vardecl, [.t .letWord, .t .ident, .t .semicolon], .node .bareDeclaration⟩ : Rule).Meant := by
  refine meant_node fun ts out rest h => ?_
  obtain ⟨word, _, _, rfl, rfl, hword, h⟩ := h.part rfl
  obtain ⟨name, _, _, rfl, rfl, hname, h⟩ := h.part rfl
  obtain ⟨semi, _, rfl, hsemi, rfl, rfl⟩ := h.mark rfl
  exact ⟨_, makes_bareDeclaration, _, rfl, .bareDeclaration hword hname hsemi⟩

/-- A declaration with a value, by either keyword. -/
theorem meant_declaration {a : Terminal} (ha : a = .letWord ∨ a = .constWord) :
    (⟨.vardecl, [.t a, .t .ident, .t .equal, .v .expr, .t .semicolon],
      .node .initDeclaration⟩ : Rule).Meant := by
  refine meant_node fun ts out rest h => ?_
  obtain ⟨word, _, _, rfl, rfl, hword, h⟩ := h.part (by rcases ha with rfl | rfl <;> rfl)
  obtain ⟨name, _, _, rfl, rfl, hname, h⟩ := h.part rfl
  obtain ⟨eq, _, rfl, heq, h⟩ := h.mark rfl
  obtain ⟨e, _, _, rfl, he, h⟩ := h.tree And.left
  obtain ⟨semi, _, rfl, hsemi, rfl, rfl⟩ := h.mark rfl
  have hkind : word.kind = .letWord ∨ word.kind = .constWord := by
    rcases ha with rfl | rfl
    · exact .inl hword
    · exact .inr hword
  exact ⟨_, makes_initDeclaration, _, rfl, .declaration hkind hname heq he hsemi⟩

/-- A function declaration has a name, parameters and a block. -/
theorem meant_function : (⟨.fndecl, [.t .funcWord, .t .ident, .v .params, .v .block],
    .node .functionDeclaration⟩ : Rule).Meant := by
  refine meant_node fun ts out rest h => ?_
  obtain ⟨word, _, _, rfl, rfl, hword, h⟩ := h.part rfl
  obtain ⟨name, _, _, rfl, rfl, hname, h⟩ := h.part rfl
  obtain ⟨ps, _, _, rfl, hps, h⟩ := h.tree id
  obtain ⟨b, _, _, rfl, hb, rfl, rfl⟩ := h.tree id
  exact ⟨_, makes_functionDeclaration, _, rfl, .function hword hname hps hb⟩

/-- A conditional without an alternative is one with the alternative absent. -/
theorem meant_ifOnly :
    (⟨.ifstmt, [.t .ifWord, .v .expr, .v .block], .node .ifOnly⟩ : Rule).Meant := by
  refine meant_node fun ts out rest h => ?_
  obtain ⟨word, _, _, rfl, rfl, hword, h⟩ := h.part rfl
  obtain ⟨e, _, _, rfl, he, h⟩ := h.tree And.left
  obtain ⟨b, _, _, rfl, hb, rfl, rfl⟩ := h.tree id
  exact ⟨_, makes_ifOnly, _, rfl, .ifOnly hword he hb⟩

/-- A block is an alternative. -/
theorem meant_ifElse : (⟨.ifstmt, [.t .ifWord, .v .expr, .v .block, .t .elseWord, .v .block],
    .node .ifElse⟩ : Rule).Meant := by
  refine meant_node fun ts out rest h => ?_
  obtain ⟨word, _, _, rfl, rfl, hword, h⟩ := h.part rfl
  obtain ⟨e, _, _, rfl, he, h⟩ := h.tree And.left
  obtain ⟨b, _, _, rfl, hb, h⟩ := h.tree id
  obtain ⟨other, _, _, rfl, rfl, hother, h⟩ := h.part rfl
  obtain ⟨c, _, _, rfl, hc, rfl, rfl⟩ := h.tree id
  exact ⟨_, makes_ifElse, _, rfl, .ifElse hword he hb hother hc⟩

/-- A conditional is an alternative as the only statement of a block. -/
theorem meant_ifElseIf : (⟨.ifstmt, [.t .ifWord, .v .expr, .v .block, .t .elseWord, .v .ifstmt],
    .node .ifElseIf⟩ : Rule).Meant := by
  refine meant_node fun ts out rest h => ?_
  obtain ⟨word, _, _, rfl, rfl, hword, h⟩ := h.part rfl
  obtain ⟨e, _, _, rfl, he, h⟩ := h.tree And.left
  obtain ⟨b, _, _, rfl, hb, h⟩ := h.tree id
  obtain ⟨other, _, _, rfl, rfl, hother, h⟩ := h.part rfl
  obtain ⟨c, _, _, rfl, hc, rfl, rfl⟩ := h.tree id
  exact ⟨_, makes_ifElseIf, _, rfl, .ifElseIf hword he hb hother hc⟩

/-- A block may be empty. -/
theorem meant_emptyBlock : (⟨.block, [.t .lbrace, .t .rbrace], .node .block⟩ : Rule).Meant := by
  refine meant_node fun ts out rest h => ?_
  obtain ⟨l, _, rfl, hl, h⟩ := h.mark rfl
  obtain ⟨r, _, rfl, hr, rfl, rfl⟩ := h.mark rfl
  exact ⟨_, makes_all .block fun _ => rfl, _, rfl, .block hl .noItems hr⟩

theorem meant_block :
    (⟨.block, [.t .lbrace, .v .items, .t .rbrace], .node .block⟩ : Rule).Meant := by
  refine meant_node fun ts out rest h => ?_
  obtain ⟨l, _, rfl, hl, h⟩ := h.mark rfl
  obtain ⟨ss, _, _, rfl, hitems, h⟩ := h
  obtain ⟨r, _, rfl, hr, rfl, rfl⟩ := h.mark rfl
  exact ⟨_, makes_all .block fun _ => rfl, _, rfl, .block hl (hitems _ _ .noItems) hr⟩

/-- There may be no parameters. -/
theorem meant_noParams : (⟨.params, [.t .lpar, .t .rpar], .node .params⟩ : Rule).Meant := by
  refine meant_node fun ts out rest h => ?_
  obtain ⟨l, _, rfl, hl, h⟩ := h.mark rfl
  obtain ⟨r, _, rfl, hr, rfl, rfl⟩ := h.mark rfl
  exact ⟨_, makes_params (by simp) List.nodup_nil, _, rfl, .noParams hl hr⟩

/-- Names without a repeated one differ. -/
theorem nodup_of_firstRepeated {names : List Tree} (hleaf : ∀ t ∈ names, ∃ l, t = .leaf l)
    {seen : List String} (h : firstRepeated seen names = none) :
    (names.map Tree.word).Nodup ∧ ∀ t ∈ names, t.word ∉ seen := by
  induction names generalizing seen with
  | nil => exact ⟨List.nodup_nil, by simp⟩
  | cons t names ih =>
    obtain ⟨l, rfl⟩ := hleaf t (List.mem_cons_self ..)
    rw [firstRepeated] at h
    cases hseen : seen.contains l.text with
    | true =>
      rw [hseen, if_pos rfl] at h
      cases h
    | false =>
      rw [hseen, if_neg Bool.false_ne_true] at h
      obtain ⟨hnodup, hnew⟩ := ih (fun u hu => hleaf u (List.mem_cons_of_mem _ hu)) h
      refine ⟨?_, ?_⟩
      · rw [List.map_cons, List.nodup_cons]
        refine ⟨fun hmem => ?_, hnodup⟩
        obtain ⟨u, hu, hword⟩ := List.mem_map.mp hmem
        exact hnew u hu (by rw [hword]; exact List.mem_cons_self)
      · intro u hu
        rcases List.mem_cons.mp hu with rfl | hu
        · simpa [Tree.word] using hseen
        · exact fun hmem => hnew u hu (List.mem_cons_of_mem _ hmem)

/-- What is repeated among leaves is a leaf. -/
theorem firstRepeated_leaf {names : List Tree} (hleaf : ∀ t ∈ names, ∃ l, t = .leaf l)
    {seen : List String} {t : Tree} (h : firstRepeated seen names = some t) : ∃ l, t = .leaf l := by
  induction names generalizing seen with
  | nil => cases h
  | cons u names ih =>
    obtain ⟨l, rfl⟩ := hleaf u (List.mem_cons_self ..)
    rw [firstRepeated] at h
    split at h
    next =>
      cases h
      exact ⟨l, rfl⟩
    next => exact ih (fun u hu => hleaf u (List.mem_cons_of_mem _ hu)) h

/-- Parameters that a node has been made of differ. -/
theorem nodup_of_buildParams {names : List Tree} {t : Tree}
    (hleaf : ∀ t ∈ names, ∃ l, t = .leaf l) (h : buildParams names = .ok t) :
    (names.map Tree.word).Nodup := by
  cases hrepeated : firstRepeated [] names with
  | none => exact (nodup_of_firstRepeated hleaf hrepeated).1
  | some u =>
    obtain ⟨l, rfl⟩ := firstRepeated_leaf hleaf hrepeated
    rw [buildParams, hrepeated] at h
    cases h

/-- Parameters that have been built are the leaves of their tokens, and differ. -/
theorem params_built {out : List Tree} (hleaf : ∀ t ∈ out, ∃ l, t = .leaf l)
    (h : ∃ built t, built.map Tree.bare = out.map Tree.bare ∧ buildNode .params built = .ok t) :
    (out.map Tree.word).Nodup := by
  obtain ⟨built, t, hbare, hbuild⟩ := h
  obtain rfl := bares_leaves hleaf hbare
  exact nodup_of_buildParams hleaf hbuild

/-- A single parameter cannot be repeated. -/
theorem meant_oneParam :
    (⟨.params, [.t .lpar, .t .ident, .t .rpar], .node .params⟩ : Rule).Meant := by
  intro ts out rest h _ _
  obtain ⟨l, _, rfl, hl, h⟩ := h.mark rfl
  obtain ⟨name, _, _, rfl, rfl, hname, h⟩ := h.part rfl
  obtain ⟨r, _, rfl, hr, rfl, rfl⟩ := h.mark rfl
  exact ⟨_, makes_params (by simp) (by simp), _, rfl,
    .params hl hname .noMoreParams hr (by simp)⟩

/-- Parameters that become a node are not repeated, so they are derived. -/
theorem meant_params :
    (⟨.params, [.t .lpar, .t .ident, .v .moreParams, .t .rpar], .node .params⟩ : Rule).Meant := by
  intro ts out rest h _ hbuilt
  obtain ⟨l, _, rfl, hl, h⟩ := h.mark rfl
  obtain ⟨name, _, _, rfl, rfl, hname, h⟩ := h.part rfl
  obtain ⟨ps, _, _, rfl, ⟨hps, hleaf⟩, h⟩ := h
  obtain ⟨r, _, rfl, hr, rfl, rfl⟩ := h.mark rfl
  have hmore := hps _ _ .noMoreParams
  rw [List.append_nil] at hbuilt hmore ⊢
  have hleaves : ∀ t ∈ .leaf name.leaf :: ps, ∃ l, t = Tree.leaf l := by
    intro t ht
    rcases List.mem_cons.mp ht with rfl | ht
    · exact ⟨_, rfl⟩
    · exact hleaf t ht
  have hdiffer := params_built hleaves hbuilt
  exact ⟨_, makes_params hleaves hdiffer, _, rfl, .params hl hname hmore hr hdiffer⟩

/-- The list of further parameters starts with a comma. -/
theorem meant_firstParam : (⟨.moreParams, [.t .comma, .t .ident], .splice⟩ : Rule).Meant := by
  refine meant_splice fun ts out rest h => ?_
  obtain ⟨comma, _, rfl, hcomma, h⟩ := h.mark rfl
  obtain ⟨name, _, _, rfl, rfl, hname, rfl, rfl⟩ := h.part rfl
  exact ⟨fun more stop hmore => .moreParams hcomma hname hmore, by simp⟩

/-- It goes on with a comma. -/
theorem meant_moreParams :
    (⟨.moreParams, [.v .moreParams, .t .comma, .t .ident], .splice⟩ : Rule).Meant := by
  refine meant_splice fun ts out rest h => ?_
  obtain ⟨ps, _, _, rfl, ⟨hps, hleaf⟩, h⟩ := h
  obtain ⟨comma, _, rfl, hcomma, h⟩ := h.mark rfl
  obtain ⟨name, _, _, rfl, rfl, hname, rfl, rfl⟩ := h.part rfl
  refine ⟨fun more stop hmore => ?_, ?_⟩
  · rw [List.append_assoc]
    exact hps _ _ (.moreParams hcomma hname hmore)
  · intro t ht
    rcases List.mem_append.mp ht with ht | ht
    · exact hleaf t ht
    · exact ⟨_, List.mem_singleton.mp ht⟩

end Statements

/-! ## Expressions -/

section Expressions

/-- A rule that goes from one level to the next. -/
theorem meant_level {x : Symbol} {head : Variable} {φ ψ : Phrase}
    (hx : ∀ {ts out rest}, Means x ts out rest → Apart φ ts out rest)
    (hφ : ∀ {ts e rest}, Derives φ ts [e] rest → Derives ψ ts [e] rest)
    (hhead : ∀ {ts out rest}, Apart ψ ts out rest → Means (.v head) ts out rest) :
    (⟨head, [x], .splice⟩ : Rule).Meant := by
  refine meant_splice fun ts out rest h => ?_
  obtain ⟨⟨e, rfl, he⟩, hapart⟩ := hx h.only
  exact hhead ⟨⟨e, rfl, hφ he⟩, hapart⟩

/-- An operand of a level stands for the level if nothing is joined to it. -/
theorem meant_operand (ℓ : Level) :
    (⟨levelVariable ℓ, [.v (operandVariable ℓ)], .splice⟩ : Rule).Meant := by
  cases ℓ with
  | logical => exact meant_level id (fun h => @Derives.operand .logical _ _ _ h) id
  | equality => exact meant_level id (fun h => @Derives.operand .equality _ _ _ h) id
  | sum => exact meant_level id (fun h => @Derives.operand .sum _ _ _ h) id
  | product => exact meant_level id (fun h => @Derives.operand .product _ _ _ h) id

/-- Two operands with an operator of a level between them. -/
theorem meant_join {ℓ : Level} {a : Terminal} (ha : levelOf? a = some ℓ) :
    (⟨levelVariable ℓ, [.v (levelVariable ℓ), .t a, .v (operandVariable ℓ)],
      .node (levelForm ℓ)⟩ : Rule).Meant := by
  have hleft : ∀ {ts out rest}, Means (.v (levelVariable ℓ)) ts out rest ↔
      Apart (.level ℓ) ts out rest := by
    cases ℓ <;> exact Iff.rfl
  have hright : ∀ {ts out rest}, Means (.v (operandVariable ℓ)) ts out rest →
      Apart ℓ.operand ts out rest := by
    cases ℓ <;> exact id
  have hmakes : ∀ {l op r : Tree} {line : Option Int},
      Makes (levelForm ℓ) [l, op, r] (.node ℓ.label line [l, op, r]) := by
    intro l op r line
    refine makes_operation _ ?_
    cases ℓ <;> exact fun _ _ _ => rfl
  refine meant_node fun ts out rest h => ?_
  obtain ⟨l, _, _, rfl, hl, h⟩ := h.tree fun h => (hleft.mp h).1
  obtain ⟨_, _, _, rfl, ⟨op, rfl, hsigned, hop, rfl⟩, hlast⟩ := h
  obtain ⟨⟨r, rfl, hr⟩, hapart⟩ := hright hlast.only
  have hpart : a.isPart = true := by
    rcases levelOf?_kind ha with hk | hk
    · rw [← hop, operator_isPart (.inr (by rw [← terminalOf_kind op.kind op.text, hop, hk]))]
    · rw [← hop, operator_isPart (.inl (by rw [← terminalOf_kind op.kind op.text, hop, hk]))]
  rw [if_pos hpart]
  rw [← hop] at ha
  exact ⟨_, hmakes, hleft.mpr ⟨⟨_, rfl, .join hl (isOperator_of_terminal hsigned ha) hr⟩, hapart⟩⟩

/-- A chain stands for a power if it is not raised to one. -/
theorem meant_base : (⟨.power, [.v .chain], .splice⟩ : Rule).Meant := by
  intro ts out rest h hapart
  obtain ⟨e, rfl, he⟩ := h.only
  exact ⟨⟨e, rfl, .base he⟩, hapart rfl rfl⟩

/-- A chain is raised to a power, which may be raised itself. -/
theorem meant_raise :
    (⟨.power, [.v .chain, .t .caret, .v .power], .node .binary⟩ : Rule).Meant := by
  refine meant_node fun ts out rest h => ?_
  obtain ⟨a, _, _, rfl, ha, h⟩ := h.tree id
  obtain ⟨_, _, _, rfl, ⟨op, rfl, hsigned, hop, rfl⟩, hlast⟩ := h
  obtain ⟨⟨b, rfl, hb⟩, hapart⟩ := hlast.only
  exact ⟨_, makes_operation .binary fun _ _ _ => rfl,
    ⟨_, rfl, .raise ha (isPower_of_terminal hsigned hop) hb⟩, hapart⟩

/-- The target of an assignment that has been built is a name. -/
theorem meant_assignment :
    (⟨.assign, [.v .logical, .t .equal, .v .assign], .node .assignment⟩ : Rule).Meant := by
  intro ts out rest h _ hbuilt
  obtain ⟨target, _, _, rfl, htarget, h⟩ := h.tree And.left
  obtain ⟨eq, _, rfl, heq, h⟩ := h.mark rfl
  obtain ⟨⟨e, rfl, he⟩, hapart⟩ := h.only
  obtain ⟨built, t, hbare, hbuild⟩ := hbuilt
  obtain ⟨target', e', rfl, htarget', -⟩ := bares_two hbare
  have hname : Parser.isName target = true := by
    rw [buildNode] at hbuild
    unfold buildAssignment at hbuild
    split at hbuild
    next l =>
      split at hbuild
      next hident =>
        rw [Tree.bare_eq_leaf htarget'.symm]
        exact decide_eq_true hident
      next => cases hbuild
    next => cases hbuild
  exact ⟨_, makes_assignment hname, ⟨_, rfl, .assignment htarget heq hname he⟩, hapart⟩

/-- A dot and a name go behind a chain. -/
theorem meant_field : (⟨.chain, [.v .chain, .t .dot, .t .ident], .node .field⟩ : Rule).Meant := by
  refine meant_node fun ts out rest h => ?_
  obtain ⟨e, _, _, rfl, he, h⟩ := h.tree id
  obtain ⟨dot, _, rfl, hdot, h⟩ := h.mark rfl
  obtain ⟨name, _, _, rfl, rfl, hname, rfl, rfl⟩ := h.part rfl
  exact ⟨_, makes_pair .field fun _ _ => ⟨_, rfl⟩, _, rfl, .field he hdot hname⟩

theorem meant_index :
    (⟨.chain, [.v .chain, .t .lsqb, .v .expr, .t .rsqb], .node .index⟩ : Rule).Meant := by
  refine meant_node fun ts out rest h => ?_
  obtain ⟨e, _, _, rfl, he, h⟩ := h.tree id
  obtain ⟨l, _, rfl, hl, h⟩ := h.mark rfl
  obtain ⟨k, _, _, rfl, hk, h⟩ := h.tree And.left
  obtain ⟨r, _, rfl, hr, rfl, rfl⟩ := h.mark rfl
  exact ⟨_, makes_pair .index fun _ _ => ⟨_, rfl⟩, _, rfl, .index he hl hk hr⟩

/-- A call may have no arguments. -/
theorem meant_emptyCall :
    (⟨.chain, [.v .chain, .t .lpar, .t .rpar], .node .call⟩ : Rule).Meant := by
  refine meant_node fun ts out rest h => ?_
  obtain ⟨e, _, _, rfl, he, h⟩ := h.tree id
  obtain ⟨l, _, rfl, hl, h⟩ := h.mark rfl
  obtain ⟨r, _, rfl, hr, rfl, rfl⟩ := h.mark rfl
  exact ⟨_, makes_call, _, rfl, .call he hl .noArguments hr⟩

/-- It may have any. -/
theorem meant_call :
    (⟨.chain, [.v .chain, .t .lpar, .v .arglist, .t .rpar], .node .call⟩ : Rule).Meant := by
  refine meant_node fun ts out rest h => ?_
  obtain ⟨e, _, _, rfl, he, h⟩ := h.tree id
  obtain ⟨l, _, rfl, hl, h⟩ := h.mark rfl
  obtain ⟨_, _, _, rfl, ⟨es, rfl, hes⟩, hend⟩ := h
  obtain ⟨r, _, rfl, hr, rfl, rfl⟩ := hend.mark rfl
  exact ⟨_, makes_pair .call fun _ _ => ⟨_, rfl⟩, _, rfl, .call he hl hes hr⟩

/-- The arguments are a node even if there is only one. -/
theorem meant_oneArgument : (⟨.arglist, [.v .expr], .node .args⟩ : Rule).Meant := by
  refine meant_node fun ts out rest h => ?_
  obtain ⟨⟨e, rfl, he⟩, -⟩ := h.only
  exact ⟨_, makes_all .args fun _ => rfl, _, rfl, .arguments he .noMoreArguments⟩

theorem meant_arguments : (⟨.arglist, [.v .expr, .v .moreExprs], .node .args⟩ : Rule).Meant := by
  refine meant_node fun ts out rest h => ?_
  obtain ⟨e, _, _, rfl, he, h⟩ := h.tree And.left
  have hmore := h.only [] rest .noMoreArguments
  rw [List.append_nil] at hmore
  exact ⟨_, makes_all .args fun _ => rfl, _, rfl, .arguments he hmore⟩

/-- The list of further expressions starts with a comma. -/
theorem meant_firstExpression : (⟨.moreExprs, [.t .comma, .v .expr], .splice⟩ : Rule).Meant := by
  refine meant_splice fun ts out rest h more stop hmore => ?_
  obtain ⟨comma, _, rfl, hcomma, h⟩ := h.mark rfl
  obtain ⟨⟨e, rfl, he⟩, -⟩ := h.only
  exact .moreArguments hcomma he hmore

/-- It goes on with a comma. -/
theorem meant_moreExpressions :
    (⟨.moreExprs, [.v .moreExprs, .t .comma, .v .expr], .splice⟩ : Rule).Meant := by
  refine meant_splice fun ts out rest h more stop hmore => ?_
  obtain ⟨es, _, _, rfl, hes, h⟩ := h
  obtain ⟨comma, _, rfl, hcomma, h⟩ := h.mark rfl
  obtain ⟨⟨e, rfl, he⟩, -⟩ := h.only
  rw [List.append_assoc]
  exact hes _ _ (.moreArguments hcomma he hmore)

end Expressions

/-! ## Primary expressions -/

section Primary

/-- A number, a string or a name. -/
theorem meant_atom {a : Terminal} (ha : a = .number ∨ a = .string ∨ a = .ident) :
    (⟨.primary, [.t a], .splice⟩ : Rule).Meant := by
  refine meant_splice fun ts out rest h => ?_
  obtain ⟨k, _, _, rfl, rfl, hk, rfl, rfl⟩ := h.part (by rcases ha with rfl | rfl | rfl <;> rfl)
  refine ⟨_, rfl, .atom ?_⟩
  rcases ha with rfl | rfl | rfl
  · exact .inl hk
  · exact .inr (.inl hk)
  · exact .inr (.inr hk)

/-- Parentheses contribute nothing. -/
theorem meant_parenthesized :
    (⟨.primary, [.t .lpar, .v .expr, .t .rpar], .splice⟩ : Rule).Meant := by
  refine meant_splice fun ts out rest h => ?_
  obtain ⟨l, _, rfl, hl, h⟩ := h.mark rfl
  obtain ⟨e, _, _, rfl, he, h⟩ := h.tree And.left
  obtain ⟨r, _, rfl, hr, rfl, rfl⟩ := h.mark rfl
  exact ⟨e, rfl, .parenthesized hl he hr⟩

/-- An object may be empty. -/
theorem meant_emptyObject : (⟨.object, [.t .lbrace, .t .rbrace], .node .object⟩ : Rule).Meant := by
  refine meant_node fun ts out rest h => ?_
  obtain ⟨l, _, rfl, hl, h⟩ := h.mark rfl
  obtain ⟨r, _, rfl, hr, rfl, rfl⟩ := h.mark rfl
  exact ⟨_, makes_all .object fun _ => rfl, _, rfl, .object hl .noProperties hr⟩

/-- Nothing closes a list of properties. -/
theorem closes_nil {rest : List Token} : Closes rest [] rest :=
  fun _ _ hp => .lastProperty hp

/-- A comma closes a list of properties. -/
theorem closes_comma {comma : Token} {rest : List Token} (h : comma.kind = .comma) :
    Closes (comma :: rest) [] rest :=
  fun _ _ hp => .properties hp h .noProperties

/-- A comma and a property go on with a list of properties. -/
theorem closes_cons {comma : Token} {ts mid stop : List Token} {p : Tree} {more : List Tree}
    (hc : comma.kind = .comma) (hp : Derives .property ts [p] mid) (h : Closes mid more stop) :
    Closes (comma :: ts) (p :: more) stop :=
  fun _ _ hfirst => .properties hfirst hc (h _ _ hp)

theorem meant_oneProperty :
    (⟨.object, [.t .lbrace, .v .prop, .t .rbrace], .node .object⟩ : Rule).Meant := by
  refine meant_node fun ts out rest h => ?_
  obtain ⟨l, _, rfl, hl, h⟩ := h.mark rfl
  obtain ⟨p, _, _, rfl, hp, h⟩ := h.tree id
  obtain ⟨r, _, rfl, hr, rfl, rfl⟩ := h.mark rfl
  exact ⟨_, makes_all .object fun _ => rfl, _, rfl, .object hl (closes_nil _ _ hp) hr⟩

/-- A comma may follow the last property. -/
theorem meant_onePropertyComma :
    (⟨.object, [.t .lbrace, .v .prop, .t .comma, .t .rbrace], .node .object⟩ : Rule).Meant := by
  refine meant_node fun ts out rest h => ?_
  obtain ⟨l, _, rfl, hl, h⟩ := h.mark rfl
  obtain ⟨p, _, _, rfl, hp, h⟩ := h.tree id
  obtain ⟨comma, _, rfl, hcomma, h⟩ := h.mark rfl
  obtain ⟨r, _, rfl, hr, rfl, rfl⟩ := h.mark rfl
  exact ⟨_, makes_all .object fun _ => rfl, _, rfl, .object hl (closes_comma hcomma _ _ hp) hr⟩

theorem meant_properties :
    (⟨.object, [.t .lbrace, .v .prop, .v .moreProps, .t .rbrace], .node .object⟩ : Rule).Meant := by
  refine meant_node fun ts out rest h => ?_
  obtain ⟨l, _, rfl, hl, h⟩ := h.mark rfl
  obtain ⟨p, _, _, rfl, hp, h⟩ := h.tree id
  obtain ⟨ps, _, _, rfl, hps, h⟩ := h
  obtain ⟨r, _, rfl, hr, rfl, rfl⟩ := h.mark rfl
  exact ⟨_, makes_all .object fun _ => rfl, _, rfl, .object hl (hps _ _ closes_nil _ _ hp) hr⟩

/-- It may do so after several. -/
theorem meant_propertiesComma :
    (⟨.object, [.t .lbrace, .v .prop, .v .moreProps, .t .comma, .t .rbrace],
      .node .object⟩ : Rule).Meant := by
  refine meant_node fun ts out rest h => ?_
  obtain ⟨l, _, rfl, hl, h⟩ := h.mark rfl
  obtain ⟨p, _, _, rfl, hp, h⟩ := h.tree id
  obtain ⟨ps, _, _, rfl, hps, h⟩ := h
  obtain ⟨comma, _, rfl, hcomma, h⟩ := h.mark rfl
  obtain ⟨r, _, rfl, hr, rfl, rfl⟩ := h.mark rfl
  exact ⟨_, makes_all .object fun _ => rfl, _, rfl,
    .object hl (hps _ _ (closes_comma hcomma) _ _ hp) hr⟩

/-- The list of further properties starts with a comma. -/
theorem meant_firstProperty : (⟨.moreProps, [.t .comma, .v .prop], .splice⟩ : Rule).Meant := by
  refine meant_splice fun ts out rest h more stop hmore => ?_
  obtain ⟨comma, _, rfl, hcomma, h⟩ := h.mark rfl
  obtain ⟨p, rfl, hp⟩ := h.only
  exact closes_cons hcomma hp hmore

/-- It goes on with a comma. -/
theorem meant_moreProperties :
    (⟨.moreProps, [.v .moreProps, .t .comma, .v .prop], .splice⟩ : Rule).Meant := by
  refine meant_splice fun ts out rest h more stop hmore => ?_
  obtain ⟨ps, _, _, rfl, hps, h⟩ := h
  obtain ⟨comma, _, rfl, hcomma, h⟩ := h.mark rfl
  obtain ⟨p, rfl, hp⟩ := h.only
  rw [List.append_assoc]
  exact hps _ _ (closes_cons hcomma hp hmore)

/-- A name alone is a property with the value absent. -/
theorem meant_shorthand : (⟨.prop, [.t .ident], .node .prop⟩ : Rule).Meant := by
  refine meant_node fun ts out rest h => ?_
  obtain ⟨key, _, _, rfl, rfl, hkey, rfl, rfl⟩ := h.part rfl
  exact ⟨_, makes_shorthand, _, rfl, .shorthand hkey⟩

theorem meant_property :
    (⟨.prop, [.t .ident, .t .colon, .v .expr], .node .prop⟩ : Rule).Meant := by
  refine meant_node fun ts out rest h => ?_
  obtain ⟨key, _, _, rfl, rfl, hkey, h⟩ := h.part rfl
  obtain ⟨colon, _, rfl, hcolon, h⟩ := h.mark rfl
  obtain ⟨⟨e, rfl, he⟩, -⟩ := h.only
  exact ⟨_, makes_pair .prop fun _ _ => ⟨_, rfl⟩, _, rfl, .property hkey hcolon he⟩

/-- An array may be empty. -/
theorem meant_emptyArray : (⟨.array, [.t .lsqb, .t .rsqb], .node .array⟩ : Rule).Meant := by
  refine meant_node fun ts out rest h => ?_
  obtain ⟨l, _, rfl, hl, h⟩ := h.mark rfl
  obtain ⟨r, _, rfl, hr, rfl, rfl⟩ := h.mark rfl
  exact ⟨_, makes_all .array fun _ => rfl, _, rfl, .array hl .noArguments hr⟩

/-- An array of one expression has it for its only child. -/
theorem meant_oneElement :
    (⟨.array, [.t .lsqb, .v .expr, .t .rsqb], .node .array⟩ : Rule).Meant := by
  refine meant_node fun ts out rest h => ?_
  obtain ⟨l, _, rfl, hl, h⟩ := h.mark rfl
  obtain ⟨e, _, _, rfl, he, h⟩ := h.tree And.left
  obtain ⟨r, _, rfl, hr, rfl, rfl⟩ := h.mark rfl
  exact ⟨_, makes_all .array fun _ => rfl, _, rfl, .array hl (.arguments he .noMoreArguments) hr⟩

theorem meant_elements :
    (⟨.array, [.t .lsqb, .v .expr, .v .moreExprs, .t .rsqb], .node .array⟩ : Rule).Meant := by
  refine meant_node fun ts out rest h => ?_
  obtain ⟨l, _, rfl, hl, h⟩ := h.mark rfl
  obtain ⟨e, _, _, rfl, he, h⟩ := h.tree And.left
  obtain ⟨es, _, _, rfl, hes, h⟩ := h
  obtain ⟨r, _, rfl, hr, rfl, rfl⟩ := h.mark rfl
  have hmore := hes _ _ .noMoreArguments
  rw [List.append_nil] at hmore ⊢
  exact ⟨_, makes_all .array fun _ => rfl, _, rfl, .array hl (.arguments he hmore) hr⟩

/-- A function literal has parameters and a block, and no name. -/
theorem meant_functionLiteral :
    (⟨.fnliteral, [.t .funcWord, .v .params, .v .block], .node .functionLiteral⟩ : Rule).Meant := by
  refine meant_node fun ts out rest h => ?_
  obtain ⟨word, _, _, rfl, rfl, hword, h⟩ := h.part rfl
  obtain ⟨ps, _, _, rfl, hps, h⟩ := h.tree id
  obtain ⟨b, _, _, rfl, hb, rfl, rfl⟩ := h.tree id
  exact ⟨_, makes_functionLiteral, _, rfl, .functionLiteral hword hps hb⟩

end Primary

/-! ## All rules -/

/-- A rule whose head means what its body does. -/
theorem meant_same {x : Symbol} {head : Variable}
    (h : ∀ {ts out rest}, Means x ts out rest → Means (.v head) ts out rest) :
    (⟨head, [x], .splice⟩ : Rule).Meant :=
  meant_splice fun _ _ _ hbody => h hbody.only

/-- Every rule about statements is meant. -/
theorem statementRules_meant : ∀ r ∈ statementRules, r.Meant := by
  simp only [statementRules, List.forall_mem_cons, List.not_mem_nil, false_imp_iff, implies_true,
    and_true]
  exact ⟨meant_splice fun _ _ _ _ => trivial, meant_start, meant_empty, meant_same id, meant_items,
    meant_statement, meant_semicolon, meant_same .inl, meant_same .inl, meant_conditional,
    meant_same .inr, meant_bareDeclaration, meant_declaration (.inl rfl),
    meant_declaration (.inr rfl), meant_function, meant_ifOnly, meant_ifElse, meant_ifElseIf,
    meant_emptyBlock, meant_block, meant_noParams, meant_oneParam, meant_params, meant_firstParam,
    meant_moreParams⟩

/-- Every rule about expressions is meant. -/
theorem expressionRules_meant : ∀ r ∈ expressionRules, r.Meant := by
  simp only [expressionRules, List.forall_mem_cons, List.not_mem_nil, false_imp_iff, implies_true,
    and_true]
  exact ⟨meant_same id, meant_level id .value id, meant_assignment, meant_operand .logical,
    meant_join (a := .andWord) rfl, meant_join (a := .orWord) rfl, meant_operand .equality,
    meant_join (a := .eq) rfl, meant_join (a := .neq) rfl, meant_operand .sum,
    meant_join (a := .plus) rfl, meant_join (a := .minus) rfl, meant_operand .product,
    meant_join (a := .star) rfl, meant_join (a := .slash) rfl, meant_join (a := .percent) rfl,
    meant_base, meant_raise, meant_same fun ⟨e, he, h⟩ => ⟨e, he, .primary h⟩, meant_field,
    meant_index, meant_emptyCall, meant_call, meant_oneArgument, meant_arguments,
    meant_firstExpression, meant_moreExpressions⟩

/-- Every rule about primary expressions is meant. -/
theorem primaryRules_meant : ∀ r ∈ primaryRules, r.Meant := by
  simp only [primaryRules, List.forall_mem_cons, List.not_mem_nil, false_imp_iff, implies_true,
    and_true]
  exact ⟨meant_atom (.inl rfl), meant_atom (.inr (.inl rfl)), meant_atom (.inr (.inr rfl)),
    meant_parenthesized, meant_same id, meant_same id, meant_same id, meant_emptyObject,
    meant_oneProperty, meant_onePropertyComma, meant_properties, meant_propertiesComma,
    meant_firstProperty, meant_moreProperties, meant_shorthand, meant_property, meant_emptyArray,
    meant_oneElement, meant_elements, meant_functionLiteral⟩

/-- What the body of a rule means its head means too. -/
theorem rules_meant : ∀ r ∈ rules, r.Meant := by
  intro r hr
  rcases List.mem_append.mp hr with hr | hr
  · rcases List.mem_append.mp hr with hr | hr
    · exact statementRules_meant r hr
    · exact expressionRules_meant r hr
  · exact primaryRules_meant r hr

/-! ## Derivations -/

/-- A lexeme stands for a token, which has the text of an operator if it is one. -/
structure Stands (t : Token) (l : Lexeme) : Prop where
  lexes : Lexes t l
  signed : Signed t

/-- What two lists of parses are built into is built one after the other. -/
theorem buildAll_append {ps qs : List Parse} {n : Nat} {built : List Tree}
    (h : buildAll n (ps ++ qs) = .ok built) :
    ∃ bs cs, built = bs ++ cs ∧ buildAll n ps = .ok bs ∧ buildAll n qs = .ok cs := by
  induction ps generalizing built with
  | nil => exact ⟨[], built, rfl, rfl, h⟩
  | cons p ps ih =>
    rw [List.cons_append, buildAll] at h
    split at h
    next => cases h
    next t hp =>
      split at h
      next => cases h
      next ts hps =>
        cases h
        obtain ⟨bs, cs, rfl, hbs, hcs⟩ := ih hps
        refine ⟨t :: bs, cs, rfl, ?_, hcs⟩
        rw [buildAll, hp]
        simp only [hbs]

/-- What a single parse is built into is one tree. -/
theorem buildAll_single {p : Parse} {n : Nat} {built : List Tree}
    (h : buildAll n [p] = .ok built) : ∃ t, built = [t] ∧ build n p = .ok t := by
  rw [buildAll] at h
  split at h
  next => cases h
  next t hp =>
    cases h
    exact ⟨t, rfl, hp⟩

/-- A node is built from what its parts have been built into. -/
theorem build_node {form : Form} {ps : List Parse} {n : Nat} {t : Tree}
    (h : build n (.node form ps) = .ok t) :
    ∃ m built, buildAll m ps = .ok built ∧ buildNode form built = .ok t := by
  cases n with
  | zero => cases h
  | succ m =>
    rw [build] at h
    split at h
    next built hbuilt => exact ⟨m, built, hbuilt, h⟩
    next => cases h

section Derivations

variable {ls rest : List Lexeme} {ts : List Token}

/-- What a rule that ends a chain does not refuse does not go on with the chain. -/
theorem startsApart_of_refuses {r : Rule} (hts : List.Forall₂ Stands ts ls)
    (h : r.refuses (upcoming ls) = false) (hhead : r.head = .power)
    (hbody : r.body = [.v .chain]) : startsApart ts := by
  rw [Rule.refuses, hhead, hbody] at h
  simp only [decide_true, Bool.true_and, Bool.or_eq_false_iff, decide_eq_false_iff_not] at h
  cases hts with
  | nil => exact fun t ht => by cases ht
  | cons hl _ =>
    rintro u ⟨⟩
    rw [upcoming, hl.lexes.terminal] at h
    refine ⟨fun hk => h.1 ?_, fun hk => h.2 ?_⟩
    · rw [hk]
      rfl
    · rw [hk]
      rfl

/-- The tree of a lexeme's part is the leaf of its token. -/
theorem built_parts {t : Token} {l : Lexeme} (h : Stands t l) {n : Nat} {built : List Tree}
    (hbuilt : buildAll n l.parts = .ok built) :
    built = if l.terminal.isPart then [.leaf t.leaf] else [] := by
  unfold Lexeme.parts at hbuilt
  cases hpart : l.terminal.isPart with
  | true =>
    rw [hpart, if_pos rfl] at hbuilt
    obtain ⟨leaf, rfl, hleaf⟩ := buildAll_single hbuilt
    rw [build, h.lexes.leaf hpart] at hleaf
    rw [if_pos rfl, Except.ok.inj hleaf]
  | false =>
    rw [hpart, if_neg Bool.false_ne_true] at hbuilt
    rw [if_neg Bool.false_ne_true, Except.ok.inj hbuilt]

/-- Where the parts that a rule makes have been built, so have those of its body. -/
theorem buildAll_made {r : Rule} {ps : List Parse} {n : Nat} {built : List Tree}
    (h : buildAll n (r.made ps) = .ok built) : ∃ m inner, buildAll m ps = .ok inner := by
  unfold Rule.made at h
  split at h
  next =>
    obtain ⟨t, -, ht⟩ := buildAll_single h
    obtain ⟨m, inner, hinner, -⟩ := build_node ht
    exact ⟨m, inner, hinner⟩
  next => exact ⟨n, built, h⟩

/-- Where trees have been built, so have the leaves of all lexemes that they are derived from. -/
theorem yields_leaves {xs : List Symbol} {ps : List Parse} (h : Yields xs ls ps rest) {n : Nat}
    {built : List Tree} (hbuilt : buildAll n ps = .ok built) :
    ∃ read, ls = read ++ rest ∧
      ∀ l ∈ read, l.terminal.isPart = true → ∃ leaf, buildLeaf l = .ok leaf := by
  induction h generalizing n built with
  | nil => exact ⟨[], rfl, by simp⟩
  | @terminal l xs ls rest ps _ ih =>
    obtain ⟨bs, cs, rfl, hbs, hcs⟩ := buildAll_append hbuilt
    obtain ⟨read, rfl, hread⟩ := ih hcs
    refine ⟨l :: read, rfl, List.forall_mem_cons.mpr ⟨fun hpart => ?_, hread⟩⟩
    rw [Lexeme.parts, if_pos hpart] at hbs
    obtain ⟨leaf, -, hleaf⟩ := buildAll_single hbs
    exact ⟨leaf, by rwa [build] at hleaf⟩
  | rule _ _ _ _ _ ih ihrest =>
    obtain ⟨bs, cs, rfl, hbs, hcs⟩ := buildAll_append hbuilt
    obtain ⟨m, inner, hinner⟩ := buildAll_made hbs
    obtain ⟨read, rfl, hread⟩ := ih hinner
    obtain ⟨more, rfl, hmore⟩ := ihrest hcs
    exact ⟨read ++ more, by rw [List.append_assoc], List.forall_mem_append.mpr ⟨hread, hmore⟩⟩

/-- What is derived from symbols has their meaning, for all tokens that the lexemes stand for. The
trees are those that the parts are built into, but for the lines of inner nodes. -/
theorem yields_means {xs : List Symbol} {ps : List Parse} (h : Yields xs ls ps rest)
    (hts : List.Forall₂ Stands ts ls) {n : Nat} {built : List Tree}
    (hbuilt : buildAll n ps = .ok built) : ∃ out after, List.Forall₂ Stands after rest ∧
      out.map Tree.bare = built.map Tree.bare ∧ MeansAll xs ts out after := by
  -- a rule takes the meaning of its body for that of its head
  induction h generalizing ts n built with
  | nil =>
    cases hbuilt
    exact ⟨[], ts, hts, rfl, rfl, rfl⟩
  | @terminal l xs ls rest ps hrest ih =>
    obtain ⟨t, more, hl, hmore, rfl⟩ := List.forall₂_cons_right_iff.mp hts
    obtain ⟨bs, cs, rfl, hbs, hcs⟩ := buildAll_append hbuilt
    obtain ⟨out, after, hafter, hbare, hmeans⟩ := ih hmore hcs
    rw [built_parts hl hbs]
    refine ⟨_ ++ out, after, hafter, ?_, _, _, _, rfl,
      ⟨t, rfl, hl.signed, hl.lexes.terminal.symm, rfl⟩, hmeans⟩
    rw [List.map_append, List.map_append, hbare]
  | @rule r xs ls mid rest ps qs hr hbody _ hnext _ ih ihrest =>
    obtain ⟨bs, cs, rfl, hbs, hcs⟩ := buildAll_append hbuilt
    have hmeant := rules_meant r hr
    unfold Rule.made at hbs
    cases hshape : r.shape with
    | splice =>
      simp only [hshape] at hbs
      obtain ⟨out, between, hbetween, hbare, hmeans⟩ := ih hts hbs
      obtain ⟨more, after, hafter, hbares, hothers⟩ := ihrest hbetween hcs
      have hhead := hmeant ts out between hmeans (startsApart_of_refuses hbetween hnext)
      simp only [hshape] at hhead
      exact ⟨out ++ more, after, hafter, by rw [List.map_append, List.map_append, hbare, hbares],
        out, more, between, rfl, hhead, hothers⟩
    | node form =>
      simp only [hshape] at hbs
      obtain ⟨t, rfl, ht⟩ := buildAll_single hbs
      obtain ⟨m, inner, hinner, hnode⟩ := build_node ht
      obtain ⟨out, between, hbetween, hbare, hmeans⟩ := ih hts hinner
      obtain ⟨more, after, hafter, hbares, hothers⟩ := ihrest hbetween hcs
      have hhead := hmeant ts out between hmeans (startsApart_of_refuses hbetween hnext)
      simp only [hshape] at hhead
      obtain ⟨tree, hmakes, hhead⟩ := hhead ⟨inner, t, hbare.symm, hnode⟩
      -- the node that was built is the tree, but for its line
      obtain ⟨t', ht', htree⟩ := hmakes inner hbare.symm
      rw [hnode] at ht'
      cases ht'
      refine ⟨tree :: more, after, hafter, ?_, [tree], more, between, rfl, hhead, hothers⟩
      rw [List.map_cons, List.cons_append, List.nil_append, List.map_cons, htree, hbares]

/-- Tokens that stand for the last lexeme are an `eof`. -/
theorem stands_last {le : Lexeme} (hts : List.Forall₂ Stands ts [le])
    (hfinish : le.terminal = .finish) : ∃ e, ts = [e] ∧ e.kind = .eof := by
  obtain ⟨e, more, he, hmore, rfl⟩ := List.forall₂_cons_right_iff.mp hts
  cases hmore
  refine ⟨e, rfl, ?_⟩
  rw [← terminalOf_kind e.kind e.text, ← he.lexes.terminal, hfinish]
  rfl

/-- The tokens of a text whose lexemes are derived as a program are a program, with the tree that
has been built but for the lines of inner nodes. -/
theorem program_means {le : Lexeme} {p : Parse} {n : Nat} {t : Tree}
    (hts : List.Forall₂ Stands ts ls) (hfinish : le.terminal = .finish)
    (h : Yields [.v .start] ls [p] [le] ∨ p = .node .program [] ∧ ls = [le])
    (ht : build n p = .ok t) : ∃ t', Syntax.IsProgram ts t' ∧ t'.bare = t.bare := by
  rcases h with h | ⟨rfl, rfl⟩
  · have hall : buildAll n [p] = .ok [t] := by
      rw [buildAll, ht]
      rfl
    obtain ⟨out, after, hafter, hbare, hmeans⟩ := yields_means h hts hall
    obtain ⟨e, rfl, he⟩ := stands_last hafter hfinish
    obtain ⟨ss, rfl, hss⟩ := hmeans.only
    exact ⟨_, ⟨ss, e, he, hss, rfl⟩, (List.cons.inj hbare).1⟩
  · obtain ⟨e, rfl, he⟩ := stands_last hts hfinish
    obtain ⟨m, built, hbuilt, hnode⟩ := build_node ht
    cases hbuilt
    cases hnode
    exact ⟨_, ⟨[], e, he, .noItems, rfl⟩, rfl⟩

end Derivations

end Avii.Grammar
