import Avii.Grammar.Build
import Avii.Proofs.Grammar.Lexemes
import Mathlib.Data.List.Forall2

/-!
# What becomes of a parse

A parse becomes a tree within a budget of nested nodes, and the budget is used up exactly where the
parse nests more deeply than it is large. `Lowers` says both of a parse and the tree it should
become, the latter up to the lines that inner nodes carry: the grammar gives some nodes no line
where others would have one, and the line of a node is nothing but a hint.

Nodes are made of their parts one by one (`lowers_node`), so it is enough to know what each form of
node is made into (`Makes`). The checks on parameters and targets of assignments are part of that;
the trees that are meant here have passed them already.
-/

namespace Avii

namespace Tree

mutual

/-- A tree without the lines of its inner nodes; its leaves are as they were. -/
def bare : Tree → Tree
  | absent => absent
  | leaf l => leaf l
  | node label _ cs => node label none (bareAll cs)

/-- Trees without the lines of their inner nodes. -/
def bareAll : List Tree → List Tree
  | [] => []
  | t :: ts => bare t :: bareAll ts

end

/-- The lines are taken off a list of trees one by one. -/
theorem bareAll_eq_map (ts : List Tree) : bareAll ts = ts.map bare := by
  induction ts with
  | nil => rfl
  | cons t ts ih => rw [bareAll, ih, List.map_cons]

/-- A bare node has no line, and bare children. -/
theorem bare_node (label : Label) (line : Option Int) (cs : List Tree) :
    (node label line cs).bare = node label none (cs.map bare) := by
  rw [bare, bareAll_eq_map]

/-- Only the leaf itself looks like a leaf. -/
theorem bare_eq_leaf {t : Tree} {l : Leaf} (h : t.bare = leaf l) : t = leaf l := by
  cases t with
  | absent => cases h
  | leaf => exact h
  | node => cases h

end Tree

namespace Grammar

mutual

/-- How deeply the nodes of a parse nest. -/
def Parse.height : Parse → Nat
  | .lexeme _ => 0
  | .node _ parts => Parse.heights parts + 1

/-- How deeply the nodes of some parses nest at most. -/
def Parse.heights : List Parse → Nat
  | [] => 0
  | p :: ps => max p.height (Parse.heights ps)

end

/-- A parse becomes a tree, up to the lines of inner nodes, with every budget that is as large as
it nests, and is too deep for every other. -/
structure Lowers (p : Parse) (t : Tree) : Prop where
  within : ∀ n, p.height ≤ n → ∃ t', build n p = .ok t' ∧ t'.bare = t.bare
  beyond : ∀ n, n < p.height → build n p = .error .tooDeep

/-- The lexeme of a token becomes its leaf. -/
theorem lowers_leaf {tok : Token} {l : Lexeme} (hl : Lexes tok l)
    (hpart : l.terminal.isPart = true) : Lowers (.lexeme l) (.leaf tok.leaf) :=
  ⟨fun _ _ => ⟨_, hl.leaf hpart, rfl⟩, fun _ h => absurd h (Nat.not_lt_zero _)⟩

/-- Parses that become trees do so one by one, within a budget for the deepest of them. -/
theorem buildAll_within {ps : List Parse} {ts : List Tree} (h : List.Forall₂ Lowers ps ts) {n : Nat}
    (hn : Parse.heights ps ≤ n) :
    ∃ ts', buildAll n ps = .ok ts' ∧ ts'.map Tree.bare = ts.map Tree.bare := by
  induction h with
  | nil => exact ⟨[], rfl, rfl⟩
  | cons hp _ ih =>
    rw [Parse.heights] at hn
    obtain ⟨t', ht, hbare⟩ := hp.within n (by omega)
    obtain ⟨ts', hts, hbares⟩ := ih (by omega)
    refine ⟨t' :: ts', ?_, by rw [List.map_cons, List.map_cons, hbare, hbares]⟩
    rw [buildAll, ht]
    simp only [hts]

/-- With less budget, the first one that nests more deeply is too deep. -/
theorem buildAll_beyond {ps : List Parse} {ts : List Tree} (h : List.Forall₂ Lowers ps ts) {n : Nat}
    (hn : n < Parse.heights ps) : buildAll n ps = .error .tooDeep := by
  induction h with
  | nil => exact absurd hn (Nat.not_lt_zero _)
  | @cons p t ps _ hp _ ih =>
    rw [Parse.heights] at hn
    rw [buildAll]
    by_cases hfirst : n < p.height
    · rw [hp.beyond n hfirst]
    · obtain ⟨t', ht, -⟩ := hp.within n (by omega)
      rw [ht]
      simp only [ih (by omega)]

/-- A form of node makes a tree of some trees, up to lines. -/
def Makes (form : Form) (ts : List Tree) (t : Tree) : Prop :=
  ∀ ts', ts'.map Tree.bare = ts.map Tree.bare →
    ∃ t', buildNode form ts' = .ok t' ∧ t'.bare = t.bare

/-- A node becomes a tree if its parts do and its form makes it of them. -/
theorem lowers_node {form : Form} {ps : List Parse} {ts : List Tree} {t : Tree}
    (hps : List.Forall₂ Lowers ps ts) (hform : Makes form ts t) : Lowers (.node form ps) t := by
  refine ⟨?_, ?_⟩
  · intro n hn
    rw [Parse.height] at hn
    obtain ⟨n, rfl⟩ : ∃ m, n = m + 1 := ⟨n - 1, by omega⟩
    obtain ⟨ts', hts, hbares⟩ := buildAll_within hps (show Parse.heights ps ≤ n by omega)
    obtain ⟨t', ht, hbare⟩ := hform ts' hbares
    refine ⟨t', ?_, hbare⟩
    rw [build, hts]
    exact ht
  · intro n hn
    rw [Parse.height] at hn
    cases n with
    | zero => rw [build]
    | succ n => rw [build, buildAll_beyond hps (by omega)]

/-! ## What the forms make -/

section Forms

variable {a b c d e : Tree} {ts : List Tree} {line : Option Int}

/-- A form that keeps all its parts. -/
theorem makes_all (form : Form) {label : Label}
    (h : ∀ ts, buildNode form ts = .ok (.node label none ts)) :
    Makes form ts (.node label line ts) := by
  intro ts' hbares
  exact ⟨_, h ts', by rw [Tree.bare_node, Tree.bare_node, hbares]⟩

/-- Trees that are the same up to lines are so one by one. -/
theorem bares_cons {ts' rest : List Tree} (h : ts'.map Tree.bare = (a :: rest).map Tree.bare) :
    ∃ a' rest', ts' = a' :: rest' ∧ a'.bare = a.bare ∧
      rest'.map Tree.bare = rest.map Tree.bare := by
  cases ts' with
  | nil => cases h
  | cons a' rest' =>
    rw [List.map_cons, List.map_cons, List.cons.injEq] at h
    exact ⟨a', rest', rfl, h.1, h.2⟩

theorem bares_nil {ts' : List Tree} (h : ts'.map Tree.bare = [].map Tree.bare) : ts' = [] :=
  List.map_eq_nil_iff.mp h

theorem bares_two {ts' : List Tree} (h : ts'.map Tree.bare = [a, b].map Tree.bare) :
    ∃ a' b', ts' = [a', b'] ∧ a'.bare = a.bare ∧ b'.bare = b.bare := by
  obtain ⟨a', _, rfl, ha, h⟩ := bares_cons h
  obtain ⟨b', _, rfl, hb, h⟩ := bares_cons h
  rw [bares_nil h]
  exact ⟨a', b', rfl, ha, hb⟩

theorem bares_three {ts' : List Tree} (h : ts'.map Tree.bare = [a, b, c].map Tree.bare) :
    ∃ a' b' c', ts' = [a', b', c'] ∧ a'.bare = a.bare ∧ b'.bare = b.bare ∧ c'.bare = c.bare := by
  obtain ⟨a', _, rfl, ha, h⟩ := bares_cons h
  obtain ⟨b', c', rfl, hb, hc⟩ := bares_two h
  exact ⟨a', b', c', rfl, ha, hb, hc⟩

/-- A declaration without a value has it absent. -/
theorem makes_bareDeclaration :
    Makes .bareDeclaration [a, b] (.node .vardecl line [a, b, .absent]) := by
  intro ts' h
  obtain ⟨a', b', rfl, ha, hb⟩ := bares_two h
  exact ⟨_, rfl, by simp [Tree.bare_node, ha, hb]⟩

theorem makes_initDeclaration :
    Makes .initDeclaration [a, b, c] (.node .vardecl line [a, b, c]) := by
  intro ts' h
  obtain ⟨a', b', c', rfl, ha, hb, hc⟩ := bares_three h
  exact ⟨_, rfl, by simp [Tree.bare_node, ha, hb, hc]⟩

/-- A function declaration is made without its keyword. -/
theorem makes_functionDeclaration :
    Makes .functionDeclaration [a, b, c, d] (.node .fndecl line [b, c, d]) := by
  intro ts' h
  obtain ⟨a', _, rfl, -, h⟩ := bares_cons h
  obtain ⟨b', c', d', rfl, hb, hc, hd⟩ := bares_three h
  exact ⟨_, rfl, by simp [Tree.bare_node, hb, hc, hd]⟩

/-- A conditional without an alternative has it absent. -/
theorem makes_ifOnly : Makes .ifOnly [a, b, c] (.node .ifstmt line [b, c, .absent]) := by
  intro ts' h
  obtain ⟨a', b', c', rfl, -, hb, hc⟩ := bares_three h
  exact ⟨_, rfl, by simp [Tree.bare_node, hb, hc]⟩

/-- A conditional is made without its keywords. -/
theorem makes_ifElse : Makes .ifElse [a, b, c, d, e] (.node .ifstmt line [b, c, e]) := by
  intro ts' h
  obtain ⟨a', _, rfl, -, h⟩ := bares_cons h
  obtain ⟨b', _, rfl, hb, h⟩ := bares_cons h
  obtain ⟨c', d', e', rfl, hc, -, he⟩ := bares_three h
  exact ⟨_, rfl, by simp [Tree.bare_node, hb, hc, he]⟩

/-- A conditional as an alternative is put into a block of its own. -/
theorem makes_ifElseIf :
    Makes .ifElseIf [a, b, c, d, e] (.node .ifstmt line [b, c, .node .body none [e]]) := by
  intro ts' h
  obtain ⟨a', _, rfl, -, h⟩ := bares_cons h
  obtain ⟨b', _, rfl, hb, h⟩ := bares_cons h
  obtain ⟨c', d', e', rfl, hc, -, he⟩ := bares_three h
  exact ⟨_, rfl, by simp [Tree.bare_node, hb, hc, he]⟩

/-- An operation has the line of its operator. -/
theorem makes_operation (form : Form) {label : Label}
    (h : ∀ l op r, buildNode form [l, op, r] = .ok (.node label (leafLine op) [l, op, r])) :
    Makes form [a, b, c] (.node label line [a, b, c]) := by
  intro ts' hbares
  obtain ⟨a', b', c', rfl, ha, hb, hc⟩ := bares_three hbares
  exact ⟨_, h a' b' c', by simp [Tree.bare_node, ha, hb, hc]⟩

/-- A member or an index, a call with arguments, a property with a value. -/
theorem makes_pair (form : Form) {label : Label}
    (h : ∀ l r, ∃ line, buildNode form [l, r] = .ok (.node label line [l, r])) :
    Makes form [a, b] (.node label line [a, b]) := by
  intro ts' hbares
  obtain ⟨a', b', rfl, ha, hb⟩ := bares_two hbares
  obtain ⟨line', hbuild⟩ := h a' b'
  exact ⟨_, hbuild, by simp [Tree.bare_node, ha, hb]⟩

/-- A call without arguments has an empty node for them. -/
theorem makes_call : Makes .call [a] (.node .call line [a, .node .args none []]) := by
  intro ts' h
  obtain ⟨a', _, rfl, ha, h⟩ := bares_cons h
  rw [bares_nil h]
  exact ⟨_, rfl, by simp [Tree.bare_node, ha]⟩

/-- A property without a value has it absent. -/
theorem makes_shorthand : Makes .prop [a] (.node .prop line [a, .absent]) := by
  intro ts' h
  obtain ⟨a', _, rfl, ha, h⟩ := bares_cons h
  rw [bares_nil h]
  exact ⟨_, rfl, by simp [Tree.bare_node, ha]⟩

/-- A function literal is made without its keyword. -/
theorem makes_functionLiteral :
    Makes .functionLiteral [a, b, c] (.node .fnliteral line [b, c]) := by
  intro ts' h
  obtain ⟨a', b', c', rfl, -, hb, hc⟩ := bares_three h
  exact ⟨_, rfl, by simp [Tree.bare_node, hb, hc]⟩

/-- The target of an assignment has to be a name. -/
theorem makes_assignment (ha : Parser.isName a = true) :
    Makes .assignment [a, b] (.node .assign line [a, b]) := by
  intro ts' h
  obtain ⟨a', b', rfl, ha', hb⟩ := bares_two h
  cases a with
  | absent => cases ha
  | node => cases ha
  | leaf l =>
    obtain rfl := Tree.bare_eq_leaf ha'
    have hl : l.kind = .ident := by simpa [Parser.isName] using ha
    refine ⟨.node .assign l.line [.leaf l, b'], ?_, by simp [Tree.bare_node, hb]⟩
    rw [buildNode, buildAssignment, if_pos hl]

/-- Among distinct names none is repeated. -/
theorem firstRepeated_none {names : List Tree} (hleaf : ∀ t ∈ names, ∃ l, t = .leaf l) :
    ∀ {seen : List String}, (names.map Tree.word).Nodup →
      (∀ t ∈ names, t.word ∉ seen) → firstRepeated seen names = none := by
  induction names with
  | nil => exact fun _ _ => rfl
  | cons t names ih =>
    intro seen hnodup hseen
    obtain ⟨l, rfl⟩ := hleaf t (List.mem_cons_self ..)
    rw [List.map_cons, List.nodup_cons] at hnodup
    have hfirst : seen.contains l.text = false := by
      simpa [Tree.word] using hseen _ (List.mem_cons_self ..)
    rw [firstRepeated, hfirst, if_neg Bool.false_ne_true]
    refine ih (fun u hu => hleaf u (List.mem_cons_of_mem _ hu)) hnodup.2 ?_
    intro u hu hmem
    rcases List.mem_cons.mp hmem with h | h
    · exact hnodup.1 (List.mem_map.mpr ⟨u, hu, h⟩)
    · exact hseen u (List.mem_cons_of_mem _ hu) h

/-- Only leaves themselves look like leaves. -/
theorem bares_leaves (hleaf : ∀ t ∈ ts, ∃ l, t = .leaf l) {ts' : List Tree}
    (h : ts'.map Tree.bare = ts.map Tree.bare) : ts' = ts := by
  induction ts generalizing ts' with
  | nil => exact bares_nil h
  | cons t ts ih =>
    obtain ⟨t', rest, rfl, ht, hrest⟩ := bares_cons h
    obtain ⟨l, rfl⟩ := hleaf t (List.mem_cons_self ..)
    rw [Tree.bare_eq_leaf ht, ih (fun u hu => hleaf u (List.mem_cons_of_mem _ hu)) hrest]

/-- The names of a list of parameters have to differ. -/
theorem makes_params (hleaf : ∀ t ∈ ts, ∃ l, t = .leaf l) (hnodup : (ts.map Tree.word).Nodup) :
    Makes .params ts (.node .params line ts) := by
  intro ts' h
  obtain rfl := bares_leaves hleaf h
  refine ⟨.node .params none ts', ?_, by rw [Tree.bare_node, Tree.bare_node]⟩
  rw [buildNode, buildParams, firstRepeated_none hleaf hnodup (by simp)]

end Forms

end Grammar

end Avii
