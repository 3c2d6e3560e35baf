import Avii.Proofs.Grammar.Agreement

/-!
# Where the parsers part

The parser by descent reads a chain of members in a loop, so that a chain of any length has a tree
within a small budget (`chain_parsed`). The tree nests as deeply as the chain is long. The parser by
table gives up a tree that nests more deeply than its own budget allows for, since a node of a parse
becomes at most two nodes of a tree, one inside the other (`build_depth`). A chain that is long
enough has a tree by descent only (`long_chain_too_deep`).
-/

namespace Avii

namespace Tree

mutual

/-- How deeply the inner nodes of a tree nest. -/
def depth : Tree → Nat
  | absent => 0
  | leaf _ => 0
  | node _ _ cs => depths cs + 1

/-- How deeply the inner nodes of some trees nest at most. -/
def depths : List Tree → Nat
  | [] => 0
  | t :: ts => max t.depth (depths ts)

end

theorem depths_le {ts : List Tree} {d : Nat} (h : ∀ t ∈ ts, t.depth ≤ d) : depths ts ≤ d := by
  induction ts with
  | nil => exact Nat.zero_le d
  | cons t ts ih =>
    rw [depths]
    have hfirst := h t (List.mem_cons_self ..)
    have hrest := ih fun u hu => h u (List.mem_cons_of_mem t hu)
    omega

theorem depth_node_le {label : Label} {line : Option Int} {cs : List Tree} {d : Nat}
    (h : ∀ c ∈ cs, c.depth ≤ d) : (node label line cs).depth ≤ d + 1 :=
  Nat.succ_le_succ (depths_le h)

mutual

/-- Lines do not matter for the depth. -/
theorem depth_bare : ∀ t : Tree, t.bare.depth = t.depth
  | absent => rfl
  | leaf _ => rfl
  | node _ _ cs => congrArg (· + 1) (depths_bare cs)

theorem depths_bare : ∀ ts : List Tree, depths (bareAll ts) = depths ts
  | [] => rfl
  | t :: ts => by rw [bareAll, depths, depths, depth_bare t, depths_bare ts]

end

end Tree

namespace Grammar

/-! ## Depth within a budget -/

theorem buildParams_ok {ts : List Tree} {t : Tree} (h : buildParams ts = .ok t) :
    t = .node .params none ts := by
  unfold buildParams at h
  split at h
  next => cases h
  next =>
    cases h
    rfl

theorem buildAssignment_ok {target value t : Tree} (h : buildAssignment target value = .ok t) :
    ∃ line, t = .node .assign line [target, value] := by
  unfold buildAssignment at h
  split at h
  next =>
    split at h
    next =>
      cases h
      exact ⟨_, rfl⟩
    next => cases h
  next => cases h

/-- A node of a parse becomes at most two nodes, one inside the other. -/
theorem buildNode_depth {form : Form} {ts : List Tree} {t : Tree} {d : Nat}
    (hts : ∀ u ∈ ts, u.depth ≤ d) (h : buildNode form ts = .ok t) : t.depth ≤ d + 2 := by
  have hkeep : ∀ {label : Label} {line : Option Int} {cs : List Tree},
      (∀ c ∈ cs, c ∈ ts ∨ c.depth ≤ d + 1) → (Tree.node label line cs).depth ≤ d + 2 := by
    intro label line cs hcs
    refine Tree.depth_node_le fun c hc => ?_
    rcases hcs c hc with hmem | hle
    · exact Nat.le_succ_of_le (hts c hmem)
    · exact hle
  have hnone : Tree.absent.depth ≤ d + 1 := Nat.zero_le _
  have hinner : ∀ {label : Label} {cs : List Tree}, (∀ c ∈ cs, c ∈ ts) →
      (Tree.node label none cs).depth ≤ d + 1 :=
    fun hcs => Tree.depth_node_le fun c hc => hts c (hcs c hc)
  unfold buildNode at h
  split at h
  case h_9 =>
    rw [buildParams_ok h]
    exact hkeep fun c hc => .inl hc
  case h_10 =>
    obtain ⟨line, rfl⟩ := buildAssignment_ok h
    exact hkeep fun c hc => .inl hc
  all_goals
    cases h
    refine hkeep fun c hc => ?_
    grind

theorem buildLeaf_depth {l : Lexeme} {t : Tree} (h : buildLeaf l = .ok t) : t.depth ≤ 0 := by
  unfold buildLeaf at h
  split at h
  next =>
    split at h
    next =>
      cases h
      exact Nat.le_refl 0
    next => cases h
  next =>
    cases h
    exact Nat.le_refl 0

theorem buildAll_depth {n d : Nat} (h : ∀ {p : Parse} {t : Tree}, build n p = .ok t → t.depth ≤ d)
    {ps : List Parse} {ts : List Tree} (hts : buildAll n ps = .ok ts) : ∀ u ∈ ts, u.depth ≤ d := by
  induction ps generalizing ts with
  | nil =>
    cases hts
    simp
  | cons p ps ih =>
    rw [buildAll] at hts
    split at hts
    next => cases hts
    next t ht =>
      split at hts
      next => cases hts
      next us hus =>
        cases hts
        intro u hu
        rcases List.mem_cons.mp hu with rfl | hu
        · exact h ht
        · exact ih hus u hu

/-- A tree nests at most twice as deeply as the budget that it was made within. -/
theorem build_depth {n : Nat} :
    ∀ {p : Parse} {t : Tree}, build n p = .ok t → t.depth ≤ 2 * n := by
  induction n with
  | zero =>
    intro p t h
    cases p with
    | lexeme l => exact buildLeaf_depth (by rwa [build] at h)
    | node form parts =>
      rw [build] at h
      cases h
  | succ n ih =>
    intro p t h
    cases p with
    | lexeme l =>
      have hleaf := buildLeaf_depth (show buildLeaf l = .ok t by rwa [build] at h)
      omega
    | node form parts =>
      rw [build] at h
      split at h
      next ts hts => exact buildNode_depth (buildAll_depth ih hts) h
      next => cases h

/-! ## Long chains -/

/-- The text of some accesses to members. -/
def accessText : Nat → List Char
  | 0 => []
  | n + 1 => '.' :: 'x' :: accessText n

/-- The tokens of some accesses to members, and the end. -/
inductive Accesses : Nat → List Token → Prop where
  | none {e : Token} (he : e.kind = .eof) : Accesses 0 [e]
  | more {n : Nat} {dot name : Token} {ts : List Token} (hd : dot.kind = .dot)
    (hn : name.kind = .ident) (h : Accesses n ts) : Accesses (n + 1) (dot :: name :: ts)

/-- A text whose first token is known. -/
theorem tokensFrom_cut {pos : Position} {c : Char} {rest : List Char} {u : Scan.Cut}
    {ts : List Token} (hgap : Scan.isGap c = false) (hcut : Scan.cut pos c rest = .ok u)
    (hts : Scan.tokensFrom u.stop u.rest = .ok ts) :
    Scan.tokensFrom pos (c :: rest) = .ok (⟨u.kind, u.text, pos.line, pos.column⟩ :: ts) := by
  rw [Scan.tokensFrom, if_neg (by simp [hgap])]
  split
  next heq =>
    rw [hcut] at heq
    cases heq
  next heq =>
    rw [hcut] at heq
    cases heq
    simp only [hts]

theorem name_scanned {n : Nat} {pos : Position} {ts : List Token}
    (h : Scan.tokensFrom (pos.step 'x') (accessText n) = .ok ts) :
    Scan.tokensFrom pos ('x' :: accessText n) =
      .ok (⟨.ident, "x", pos.line, pos.column⟩ :: ts) := by
  have hcut : Scan.cut pos 'x' (accessText n) = .ok ⟨.ident, "x", pos.step 'x', accessText n⟩ := by
    cases n with
    | zero => rfl
    | succ n => rfl
  exact tokensFrom_cut (by decide) hcut h

theorem accesses_scanned (n : Nat) :
    ∀ pos, ∃ ts, Scan.tokensFrom pos (accessText n) = .ok ts ∧ Accesses n ts := by
  induction n with
  | zero =>
    intro pos
    exact ⟨[.endAt pos], by rw [accessText, Scan.tokensFrom], .none rfl⟩
  | succ n ih =>
    intro pos
    obtain ⟨ts, hts, haccesses⟩ := ih ((pos.step '.').step 'x')
    have hname := name_scanned hts
    have hdot : Scan.cut pos '.' ('x' :: accessText n) =
        .ok ⟨.dot, ".", pos.step '.', 'x' :: accessText n⟩ := rfl
    refine ⟨_, tokensFrom_cut (by decide) hdot hname, .more ?_ ?_ haccesses⟩
    · rfl
    · rfl

section Descent

open Avii.Parser Avii.Syntax

variable {n : Nat} {ts : List Token} {t : Tree}

/-- Each access nests what it is made to one node deeper. -/
theorem accesses_linked {k : Nat} (h : Accesses n ts) : ∀ target : Tree, ∃ t e,
    Extends k target ts t [e] ∧ e.kind = .eof ∧ target.depth + n ≤ t.depth := by
  induction h with
  | none he =>
    intro target
    exact ⟨target, _, fun rounds hrounds => ⟨rounds, hrounds, rfl⟩, he, Nat.le_refl _⟩
  | @more n dot name ts hd hn _ ih =>
    intro target
    let field : Tree := .node .field (some name.line) [target, .leaf name.leaf]
    obtain ⟨t, e, hextends, he, hdepth⟩ := ih field
    -- the loop goes on with the node that the access made, so no call nests for it
    have hfield : target.depth + 1 ≤ field.depth := by
      simp only [field, Tree.depth, Tree.depths]
      omega
    refine ⟨t, e, ?_, he, by omega⟩
    intro rounds hrounds
    simp only [List.length_cons] at hrounds
    obtain ⟨r, rfl⟩ : ∃ r, rounds = r + 1 := ⟨rounds - 1, by omega⟩
    rw [links_field hd hn]
    exact hextends r (by omega)

/-- A name and accesses are a chain, whatever the budget. -/
theorem chain_linked {name : Token} (hn : name.kind = .ident) (h : Accesses n ts) (k : Nat) :
    ∃ t e, chain (k + 2) (name :: ts) = .ok (t, [e]) ∧ e.kind = .eof ∧ n ≤ t.depth := by
  have hprimary : primary (k + 1) (name :: ts) = .ok (.leaf name.leaf, ts) := by
    rw [Parser.primary, bind_run (current_run _)]
    simp only [next_cons, hn]
    rw [bind_run (advance_cons (by simp [hn]) _)]
    rfl
  obtain ⟨t, e, hextends, he, hdepth⟩ := accesses_linked h (.leaf name.leaf)
  exact ⟨t, e, hextends.run hprimary (by simp [isLink, he]), he, by omega⟩

/-- A level of operators that has one operand only. -/
theorem level_alone {ℓ : Level} {k : Nat} {rest : List Token}
    (h : operandOf ℓ k ts = .ok (t, rest)) (hrest : endsExpression (next rest).kind) :
    levelOf ℓ (k + 1) ts = .ok (t, rest) := by
  have hstop : ℓ.isOperator (next rest) = false := by
    refine not_operator_of_tightness ?_
    rw [tightness_ends hrest]
    cases ℓ <;> decide
  rw [levelOf_succ]
  exact Joins.run h (fun rounds hrounds => ⟨rounds, hrounds, rfl⟩) hstop

/-- A chain that nothing goes on with is an expression. -/
theorem chain_alone {k : Nat} {rest : List Token} (h : chain k ts = .ok (t, rest))
    (hrest : endsExpression (next rest).kind) : expression (k + 7) ts = .ok (t, rest) := by
  have hpower : power (k + 1) ts = .ok (t, rest) := by
    have hstop : isPower (next rest) = false :=
      not_power_of_tightness (by rw [tightness_ends hrest]; decide)
    rw [Parser.power, bind_run h, bind_run (current_run _), if_neg (by simp [hstop])]
    rfl
  have hproduct : levelOf .product (k + 2) ts = .ok (t, rest) := level_alone hpower hrest
  have hsum : levelOf .sum (k + 3) ts = .ok (t, rest) := level_alone hproduct hrest
  have hequality : levelOf .equality (k + 4) ts = .ok (t, rest) := level_alone hsum hrest
  have hlogical : levelOf .logical (k + 5) ts = .ok (t, rest) := level_alone hequality hrest
  rw [Parser.expression, Parser.assignment, bind_run (show logical (k + 5) ts = _ from hlogical),
    bind_run (current_run _), if_neg hrest.2.2.2.2.2]
  rfl

/-- An expression that nothing follows is a program. -/
theorem expression_alone {k : Nat} {e : Token} (hts : EndsOnce ts)
    (h : expression k ts = .ok (t, [e])) (he : e.kind = .eof) :
    (program (k + 1)).run ts = .ok (.node .program none [t]) := by
  have hd := ((sound k).expression h).1
  have hs := statement_expression hd h
  have hnone : ∀ rounds, [e].length ≤ rounds →
      statementsUpTo (fun k => k = .eof) (statement (k + 1)) rounds [e] = .ok ([], [e]) :=
    fun rounds _ => statementsUpTo_stop (by simp [he]) _ rounds
  exact program_run hts (statementsUpTo_cons (by simp) hd (.inr rfl) hs hnone)

end Descent

/-- A chain of members. -/
def chainText (n : Nat) : String :=
  String.ofList ('x' :: accessText n)

/-- A chain of any length has a tree by descent, which nests as deeply as the chain is long; ten
nested calls are enough for it. -/
theorem chain_parsed (n k : Nat) :
    ∃ ts t, tokenize (chainText n) = .ok ts ∧ parseTokens (k + 10) ts = .ok t ∧ n < t.depth := by
  obtain ⟨us, hus, haccesses⟩ := accesses_scanned n (Position.start.step 'x')
  let name : Token := ⟨.ident, "x", 1, 1⟩
  have hts : tokenize (chainText n) = .ok (name :: us) := by
    rw [tokenize, chainText, String.toList_ofList]
    exact name_scanned hus
  have hname : name.kind = .ident := rfl
  obtain ⟨t, e, hchain, he, hdepth⟩ := chain_linked hname haccesses k
  refine ⟨_, .node .program none [t], hts, ?_, ?_⟩
  · exact expression_alone (tokenize_endsOnce hts)
      (chain_alone hchain (by simp [Syntax.endsExpression, he])) he
  · simp only [Tree.depth, Tree.depths]
    omega

/-- A chain that is as long as the limit of nested calls has a tree by descent only. -/
theorem long_chain {limit n : Nat} (hlimit : 10 ≤ limit) (hn : limit ≤ n) :
    ∃ ts t, tokenize (chainText n) = .ok ts ∧ parseTokens limit ts = .ok t ∧
      parseTree limit (chainText n) = .error (.build .tooDeep) := by
  obtain ⟨k, rfl⟩ : ∃ k, limit = k + 10 := ⟨limit - 10, by omega⟩
  obtain ⟨ts, t, hts, ht, hdepth⟩ := chain_parsed n k
  refine ⟨ts, t, hts, ht, ?_⟩
  obtain ⟨p, hp, hlowers⟩ := parse_lowers hts ht
  refine (parseTree_lowers hp hlowers _).2 ?_
  -- within the budget the tree would be too shallow
  by_contra hheight
  obtain ⟨t', hbuild, hbare⟩ := hlowers.within (nodesWithin (k + 10)) (by omega)
  have hle := build_depth hbuild
  have hsame : t'.depth = t.depth := by rw [← Tree.depth_bare t', hbare, Tree.depth_bare]
  have hnodes : 2 * nodesWithin (k + 10) ≤ k + 10 := Nat.mul_div_le (k + 10) 2
  omega

/-- For instance a chain of six thousand members, within a limit of five thousand calls. -/
theorem long_chain_too_deep :
    ∃ ts t, tokenize (chainText 6000) = .ok ts ∧ parseTokens 5000 ts = .ok t ∧
      parseTree 5000 (chainText 6000) = .error (.build .tooDeep) :=
  long_chain (by decide) (by decide)

end Grammar

end Avii
