import Avii.Proofs.Grammar.Context

/-!
# The parts of a node

The step from parses to trees takes nodes apart: it counts on a name here, on a list of arguments
there. The rules give it what it counts on. What the parts of a variable are is written down once
(`Variable.parts`), and what a form of node is made of too (`Form.parts`); each rule is checked to
keep to both (`rules_fit`), and by induction over the derivation so does every node of a parse
(`parse_proper`). So each step from a node to a tree makes a node of its own kind, or refuses what
the grammar leaves to it (`Form.handles`).
-/

namespace Avii.Grammar

/-! ## What is known about parts -/

/-- What is known about a part: that it is a lexeme, or a node of some form, or nothing. -/
inductive Part where
  | lexeme
  | node (form : Form)
  | any
deriving DecidableEq

namespace Part

/-- A parse is what is known about it. -/
def Is : Part → Parse → Prop
  | lexeme, .lexeme _ => True
  | node form, .node form' _ => form = form'
  | any, _ => True
  | _, _ => False

/-- Is everything that is one part also the other? -/
def covers (a b : Part) : Bool :=
  a = any || a = b

theorem covers_is {a b : Part} {p : Parse} (h : a.covers b = true) (hp : b.Is p) : a.Is p := by
  simp only [covers, Bool.or_eq_true, decide_eq_true_eq] at h
  rcases h with rfl | rfl
  · trivial
  · exact hp

end Part

/-- What is known about a list of parts: about each of them, or about any number of them. -/
inductive Parts where
  | list (ps : List Part)
  | many (p : Part)
deriving DecidableEq

namespace Parts

/-- Some parses are what is known about them. -/
def Are : Parts → List Parse → Prop
  | list as, ps => List.Forall₂ Part.Is as ps
  | many a, ps => ∀ p ∈ ps, a.Is p

/-- Is everything that is one list of parts also the other? -/
def covers : Parts → Parts → Bool
  | many a, many b => a.covers b
  | many a, list bs => bs.all a.covers
  | list as, list bs => List.all₂ Part.covers as bs
  | list _, many _ => false

/-- What is known about two lists one after the other. -/
def append : Parts → Parts → Parts
  | list as, list bs => list (as ++ bs)
  | many a, many b => many (if a.covers b then a else .any)
  | many a, list bs | list bs, many a => many (if bs.all a.covers then a else .any)

theorem all_are {a : Part} {bs : List Part} {ps : List Parse} (h : bs.all a.covers = true)
    (hps : List.Forall₂ Part.Is bs ps) : ∀ p ∈ ps, a.Is p := by
  induction hps with
  | nil => simp
  | cons hp _ ih =>
    rw [List.all_cons, Bool.and_eq_true] at h
    exact List.forall_mem_cons.mpr ⟨Part.covers_is h.1 hp, ih h.2⟩

theorem covers_are {as bs : Parts} {ps : List Parse} (h : as.covers bs = true) (hps : bs.Are ps) :
    as.Are ps := by
  cases as with
  | list as =>
    cases bs with
    | many b => cases h
    | list bs =>
      rw [covers, List.all₂_eq_true] at h
      induction h generalizing ps with
      | nil => exact hps
      | cons hab _ ih =>
        obtain ⟨p, qs, hp, hqs, rfl⟩ := List.forall₂_cons_left_iff.mp hps
        exact .cons (Part.covers_is hab hp) (ih hqs)
  | many a =>
    cases bs with
    | list bs => exact all_are h hps
    | many b => exact fun p hp => Part.covers_is h (hps p hp)

/-- Parts that are all of one kind are so together with others of that kind. -/
theorem are_weaken {a : Part} {c : Bool} {ps : List Parse} (h : c = true → ∀ p ∈ ps, a.Is p) :
    ∀ p ∈ ps, (if c = true then a else .any).Is p := by
  intro p hp
  split
  next hc => exact h hc p hp
  next => trivial

theorem append_are {as bs : Parts} {ps qs : List Parse} (hps : as.Are ps) (hqs : bs.Are qs) :
    (as.append bs).Are (ps ++ qs) := by
  cases as with
  | list as =>
    cases bs with
    | list bs => exact List.rel_append hps hqs
    | many b => exact are_weaken fun hc => List.forall_mem_append.mpr ⟨all_are hc hps, hqs⟩
  | many a =>
    cases bs with
    | list bs => exact are_weaken fun hc => List.forall_mem_append.mpr ⟨hps, all_are hc hqs⟩
    | many b =>
      exact are_weaken fun hc => List.forall_mem_append.mpr
        ⟨hps, fun q hq => Part.covers_is hc (hqs q hq)⟩

end Parts

/-! ## The parts of variables and forms -/

/-- The parts that a variable stands for. -/
def Variable.parts : Variable → Parts
  | .start => .list [.node .program]
  | .params => .list [.node .params]
  | .block => .list [.node .block]
  | .arglist => .list [.node .args]
  | .moreParams => .many .lexeme
  | .root | .items | .item | .moreExprs | .moreProps => .many .any
  | _ => .list [.any]

/-- The parts that a symbol stands for. -/
def Symbol.parts : Symbol → Parts
  | t a => .list (if a.isPart then [.lexeme] else [])
  | v head => head.parts

/-- The parts that symbols stand for, one after the other. -/
def bodyParts : List Symbol → Parts
  | [] => .list []
  | x :: xs => x.parts.append (bodyParts xs)

/-- What the parts of a form of node are, in one of several ways. -/
def Form.parts : Form → List Parts
  | program | block | args | object | array => [.many .any]
  | params => [.many .lexeme]
  | bareDeclaration => [.list [.lexeme, .lexeme]]
  | initDeclaration => [.list [.lexeme, .lexeme, .any]]
  | functionDeclaration => [.list [.lexeme, .lexeme, .node .params, .node .block]]
  | ifOnly => [.list [.lexeme, .any, .node .block]]
  | ifElse => [.list [.lexeme, .any, .node .block, .lexeme, .node .block]]
  | ifElseIf => [.list [.lexeme, .any, .node .block, .lexeme, .any]]
  | assignment => [.list [.any, .any]]
  | condition | binary => [.list [.any, .lexeme, .any]]
  | field => [.list [.any, .lexeme]]
  | index => [.list [.any, .any]]
  | call => [.list [.any], .list [.any, .node .args]]
  | prop => [.list [.lexeme], .list [.lexeme, .any]]
  | functionLiteral => [.list [.lexeme, .node .params, .node .block]]

/-- Does a rule make what its head stands for, and a node only of the parts that its form has? -/
def Rule.fits (r : Rule) : Bool :=
  match r.shape with
  | .node form => r.head.parts.covers (.list [.node form]) &&
      form.parts.any (·.covers (bodyParts r.body))
  | .splice => r.head.parts.covers (bodyParts r.body)

theorem rules_fit : ∀ r ∈ rules, r.fits = true := by
  decide

/-! ## The nodes of a parse -/

/-- All nodes of a parse, and all its lexemes, have some property. -/
inductive Parse.All (node : Form → List Parse → Prop) (lexeme : Lexeme → Prop) : Parse → Prop where
  | lexeme {l : Lexeme} (h : lexeme l) : All node lexeme (.lexeme l)
  | node {form : Form} {parts : List Parse} (h : node form parts)
      (hparts : ∀ p ∈ parts, All node lexeme p) : All node lexeme (.node form parts)

theorem Parse.All.imp {node node' : Form → List Parse → Prop} {lexeme lexeme' : Lexeme → Prop}
    {p : Parse} (h : p.All node lexeme) (hnode : ∀ form parts, node form parts → node' form parts)
    (hlexeme : ∀ l, lexeme l → lexeme' l) : p.All node' lexeme' := by
  induction h with
  | lexeme h => exact .lexeme (hlexeme _ h)
  | node h _ ih => exact .node (hnode _ _ h) ih

/-- A node has the parts that its form is made of. -/
def Form.Has (form : Form) (parts : List Parse) : Prop :=
  ∃ ps ∈ form.parts, ps.Are parts

theorem lexeme_parts (l : Lexeme) : (Symbol.t l.terminal).parts.Are l.parts := by
  unfold Lexeme.parts
  simp only [Symbol.parts]
  split
  next => exact .cons trivial .nil
  next => exact .nil

/-- What a rule makes is what its head stands for, and has parts that its form is made of. -/
theorem Rule.made_proper {P : Lexeme → Prop} {r : Rule} {ps : List Parse} (hr : r ∈ rules)
    (hbody : (bodyParts r.body).Are ps) (hps : ∀ p ∈ ps, p.All Form.Has P) :
    r.head.parts.Are (r.made ps) ∧ ∀ p ∈ r.made ps, p.All Form.Has P := by
  have hfits := rules_fit r hr
  unfold Rule.fits at hfits
  unfold Rule.made
  cases hshape : r.shape with
  | splice =>
    simp only [hshape] at hfits
    exact ⟨Parts.covers_are hfits hbody, hps⟩
  | node form =>
    simp only [hshape, Bool.and_eq_true, List.any_eq_true] at hfits
    obtain ⟨hhead, way, hway, hcovers⟩ := hfits
    have hone : (Parts.list [.node form]).Are [.node form ps] := .cons rfl .nil
    exact ⟨Parts.covers_are hhead hone,
      List.forall_mem_singleton.mpr (.node ⟨way, hway, Parts.covers_are hcovers hbody⟩ hps)⟩

/-- The nodes of what is derived have the parts that their forms are made of. -/
theorem yields_proper {P : Lexeme → Prop} {xs : List Symbol} {ls rest : List Lexeme}
    {ps : List Parse} (h : Yields xs ls ps rest) (hls : ∀ l ∈ ls, P l) :
    (bodyParts xs).Are ps ∧ (∀ p ∈ ps, p.All Form.Has P) ∧ ∀ l ∈ rest, P l := by
  induction h with
  | nil => exact ⟨.nil, by simp, hls⟩
  | @terminal l xs ls rest ps _ ih =>
    obtain ⟨hl, hls⟩ := List.forall_mem_cons.mp hls
    obtain ⟨hare, hps, hrest⟩ := ih hls
    refine ⟨Parts.append_are (lexeme_parts l) hare, List.forall_mem_append.mpr ⟨?_, hps⟩, hrest⟩
    unfold Lexeme.parts
    split
    next => exact List.forall_mem_singleton.mpr (.lexeme hl)
    next => simp
  | @rule r xs ls mid rest ps qs hr _ _ _ _ ih ihrest =>
    obtain ⟨hbody, hps, hmid⟩ := ih hls
    obtain ⟨hare, hqs, hrest⟩ := ihrest hmid
    obtain ⟨hhead, hmade⟩ := Rule.made_proper hr hbody hps
    exact ⟨Parts.append_are hhead hare, List.forall_mem_append.mpr ⟨hmade, hqs⟩, hrest⟩

/-! ## The lexemes of a parse -/

/-- A lexeme that is a string literal has quotes around a body that the grammar's expression
matches. -/
def Lexeme.Closed (l : Lexeme) : Prop :=
  l.terminal = .string → ∃ body, Enclosed body ∧
    l.text.toList = Text.doubleQuote :: (body ++ [Text.doubleQuote])

theorem fixed_not_string : ∀ q ∈ fixed, q.1 ≠ .string := by
  decide

/-- Only a quote starts a string literal, and a quote closes it. -/
theorem lexemeAt?_string {accepts : Terminal → Bool} {cs : List Char} {n : Nat}
    (h : lexemeAt? accepts cs = some (.string, n)) : ∃ body, Enclosed body ∧
      cs.take n = Text.doubleQuote :: (body ++ [Text.doubleQuote]) := by
  unfold lexemeAt? at h
  split at h
  next => cases h
  next c rest =>
    split at h
    next hquote =>
      split at h
      next =>
        obtain ⟨k, hk, heq⟩ := Option.map_eq_some_iff.mp h
        obtain ⟨body, after, hbody, rfl, rfl⟩ := literalLength?_iff.mp hk
        cases heq
        refine ⟨body, hbody, ?_⟩
        rw [List.take_succ_cons, hquote, List.append_cons, List.take_left' (by simp)]
      next => cases h
    next =>
      split at h
      next =>
        split at h
        next => cases h
        next => cases h
      next =>
        split at h
        next =>
          rcases keyword?_cases (String.ofList ((c :: rest).takeWhile Scan.isWordChar)) with
            ⟨hnone, -⟩ | ⟨k, hk, -, -, hfixed, -⟩
          · simp [hnone] at h
          · have hstring := fixed_not_string _ hfixed
            simp only [hk, Option.some.injEq, Prod.mk.injEq] at h
            split at h
            next => exact absurd h.1 hstring
            next => cases h.1
        next =>
          obtain ⟨⟨a, lexeme⟩, hfound, heq⟩ := Option.map_eq_some_iff.mp h
          cases heq
          exact absurd rfl (fixed_not_string _ (List.mem_of_find?_eq_some hfound))

/-- The lexemes that the parser takes are closed literals, or no literals. -/
theorem readingsFrom_closed {t : Lalr.Table} {steps : Nat} {s : Stack} {pos : Position}
    {cs : List Char} : ∀ r ∈ readingsFrom t steps s pos cs, r.lexeme.Closed := by
  have hfound : ∀ {accepts : Terminal → Bool} {cs : List Char} {a : Terminal} {n : Nat}
      {pos : Position}, lexemeAt? accepts cs = some (a, n) →
      (Reading.lexeme ⟨a, cs.take n, pos, cs.drop n⟩).Closed := by
    intro accepts cs a n pos h hstring
    obtain rfl : a = .string := hstring
    obtain ⟨body, hbody, htake⟩ := lexemeAt?_string h
    exact ⟨body, hbody, by rw [Reading.lexeme, String.toList_ofList, htake]⟩
  fun_induction readingsFrom t steps s pos cs with
  | case1 => simp
  | case2 => simp
  | case3 _ _ _ _ _ _ ih => exact ih
  | case4 => simp
  | case5 _ _ _ _ _ _ a n h => exact List.forall_mem_singleton.mpr (hfound h)
  | case6 _ _ _ _ _ _ a n h _ _ _ ih => exact List.forall_mem_cons.mpr ⟨hfound h, ih⟩

/-- The nodes of a parse have the parts that their forms are made of, and its literals are
closed. -/
theorem parse_proper {source : String} {p : Parse} (h : parse source = .ok p) :
    p.All Form.Has Lexeme.Closed := by
  rcases @readings_derived _ _ h ⟨.finish, "", 0, 0⟩ rfl with hyields | ⟨rfl, -⟩
  · refine (yields_proper hyields fun l hl => ?_).2.1 p (List.mem_singleton_self p)
    rcases List.mem_append.mp hl with hl | hl
    · obtain ⟨r, hr, rfl⟩ := List.mem_map.mp hl
      exact readingsFrom_closed r hr
    · rw [List.mem_singleton.mp hl]
      intro hstring
      cases hstring
  · exact .node ⟨_, List.mem_singleton_self _, by simp [Parts.Are]⟩ (by simp)

/-! ## What each step makes -/

/-- The label of the nodes that a form of node becomes. -/
def Form.label : Form → Label
  | program => .program
  | bareDeclaration | initDeclaration => .vardecl
  | functionDeclaration => .fndecl
  | ifOnly | ifElse | ifElseIf => .ifstmt
  | block => .body
  | params => .params
  | assignment => .assign
  | condition => .condition
  | binary => .binary
  | field => .field
  | index => .index
  | call => .call
  | args => .args
  | object => .object
  | prop => .prop
  | array => .array
  | functionLiteral => .fnliteral

/-- A node whose parts have become trees becomes a node of the label of its form, or is refused. -/
def Form.Handles (form : Form) (parts : List Parse) : Prop :=
  ∀ n ts, buildAll n parts = .ok ts →
    (∃ line cs, buildNode form ts = .ok (.node form.label line cs)) ∨
    ∃ e, buildNode form ts = .error (.invalid e)

/-- There are as many trees as parts. -/
theorem buildAll_length {n : Nat} {ps : List Parse} {ts : List Tree} (h : buildAll n ps = .ok ts) :
    ts.length = ps.length := by
  induction ps generalizing ts with
  | nil =>
    cases h
    rfl
  | cons p ps ih =>
    rw [buildAll] at h
    split at h
    next => cases h
    next =>
      split at h
      next => cases h
      next hrest =>
        cases h
        rw [List.length_cons, ih hrest, List.length_cons]

theorem buildParams_cases (ts : List Tree) :
    (∃ cs, buildParams ts = .ok (.node .params none cs)) ∨
      ∃ e, buildParams ts = .error (.invalid e) := by
  unfold buildParams
  split
  next => exact .inr ⟨_, rfl⟩
  next => exact .inl ⟨_, rfl⟩

theorem buildAssignment_cases (target value : Tree) :
    (∃ line cs, buildAssignment target value = .ok (.node .assign line cs)) ∨
      ∃ e, buildAssignment target value = .error (.invalid e) := by
  unfold buildAssignment
  split
  next =>
    split
    next => exact .inl ⟨_, _, rfl⟩
    next => exact .inr ⟨_, rfl⟩
  next => exact .inr ⟨_, rfl⟩

/-- No form is made of more or fewer parts than its step takes apart. -/
theorem Form.handles {form : Form} {parts : List Parse} (h : form.Has parts) :
    form.Handles parts := by
  intro n ts hts
  obtain ⟨way, hway, hare⟩ := h
  have hcount : ∀ as, way = .list as → ts.length = as.length := by
    rintro as rfl
    rw [buildAll_length hts, List.Forall₂.length_eq hare]
  cases form
  case program | block | args | object | array => exact .inl ⟨_, _, rfl⟩
  case params =>
    rcases buildParams_cases ts with ⟨cs, hok⟩ | hrefused
    · exact .inl ⟨_, cs, hok⟩
    · exact .inr hrefused
  case assignment =>
    obtain ⟨target, value, rfl⟩ := List.length_eq_two.mp (hcount _ (List.mem_singleton.mp hway))
    exact buildAssignment_cases target value
  case bareDeclaration | field | index =>
    obtain ⟨a, b, rfl⟩ := List.length_eq_two.mp (hcount _ (List.mem_singleton.mp hway))
    exact .inl ⟨_, _, rfl⟩
  case initDeclaration | ifOnly | condition | binary | functionLiteral =>
    obtain ⟨a, b, c, rfl⟩ := List.length_eq_three.mp (hcount _ (List.mem_singleton.mp hway))
    exact .inl ⟨_, _, rfl⟩
  case functionDeclaration =>
    match ts, hcount _ (List.mem_singleton.mp hway) with
    | [_, _, _, _], _ => exact .inl ⟨_, _, rfl⟩
  case ifElse | ifElseIf =>
    match ts, hcount _ (List.mem_singleton.mp hway) with
    | [_, _, _, _, _], _ => exact .inl ⟨_, _, rfl⟩
  case call | prop =>
    rcases List.mem_pair.mp hway with hway | hway
    · obtain ⟨a, rfl⟩ := List.length_eq_one_iff.mp (hcount _ hway)
      exact .inl ⟨_, _, rfl⟩
    · obtain ⟨a, b, rfl⟩ := List.length_eq_two.mp (hcount _ hway)
      exact .inl ⟨_, _, rfl⟩

end Avii.Grammar
