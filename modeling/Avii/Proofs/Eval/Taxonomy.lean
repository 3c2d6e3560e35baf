import Avii.Proofs.Eval.Permanence
import Avii.Proofs.Eval.WellFormed

/-!
# How runs can end

A session runs one program text after the other in one outermost scope. Whatever the texts, each
one that has a tree ends in a value, in a mistake of the program, out of budget, or in one of two
operations without an answer; never because a tree is not as it should be
(`session_ends_well`).

Every fault is raised somewhere (`fails_raises`), and all that such a run carries out is good, so
it is enough to see what a good moment can raise (`raises_verdict`): one look at each construct,
with its parts known to have succeeded. `Verdict` names the three kinds of raising that are told
apart by what the operands were; every other one is a plain mistake of the program.
-/

namespace Avii.Eval

open Store (Leads)
open Syntax (Shaped Shape Evaluable Labelled arithmeticSigns conditionSigns)

/-! ## Verdicts -/

/-- The mistakes other than an operator applied to what it has no meaning for. -/
def Plain : RuntimeCause → Prop
  | .unknownOperator _ | .noPairOperator .. => False
  | _ => True

/-- The remainder of an infinite number by one that is neither zero nor not a number. -/
structure InfiniteRemainder (p : Moment) : Prop where
  raised : ∃ n scope l op r m x y m₁ m₂,
    p = ⟨n + 1, .construct scope .binary [l, op, r], m⟩ ∧ op.word = "%" ∧
    evalTree n scope l m = .ok (.number x) m₁ ∧ evalTree n scope r m₁ = .ok (.number y) m₂ ∧
    x.isInfinite = true ∧ y.isZero = false ∧ y.isNaN = false

/-- The index of an array or a string by a string of more digits than are read. -/
structure LongIndex (p : Moment) : Prop where
  raised : ∃ n scope target key m v s m₁ m₂,
    p = ⟨n + 1, .construct scope .index [target, key], m⟩ ∧
    evalTree n scope target m = .ok v m₁ ∧ (v.type = .array ∨ v.type = .string) ∧
    evalTree n scope key m₁ = .ok (.string s) m₂ ∧
    s.toList.all Text.isAsciiDigit = true ∧ indexDigits < s.toList.length

/-- A logical operator between two numbers or two strings. -/
structure MisappliedLogic (p : Moment) : Prop where
  raised : ∃ n scope l op r m v w m₁ m₂,
    p = ⟨n + 1, .construct scope .condition [l, op, r], m⟩ ∧
    (op.word = "and" ∨ op.word = "or") ∧
    evalTree n scope l m = .ok v m₁ ∧ evalTree n scope r m₁ = .ok w m₂ ∧
    (v.type = .number ∧ w.type = .number ∨ v.type = .string ∧ w.type = .string)

/-- What a fault that a moment raises may be. A mistake has the line of the tree that the moment is
about, or none if it is about something else. -/
inductive Verdict (p : Moment) : Fault → Prop where
  | depth : Verdict p .depth
  | plain {cause : RuntimeCause} (h : Plain cause) : Verdict p (.runtime cause p.line)
  | misapplied {sign : String} {type : ValueType} (h : MisappliedLogic p) :
      Verdict p (.runtime (.noPairOperator sign type) p.line)
  | remainder (h : InfiniteRemainder p) : Verdict p (.domain .infiniteDividend)
  | index (h : LongIndex p) : Verdict p (.domain .indexTooLong)

/-! ## Operations -/

/-- Every arithmetic sign is an operator, and only the percent sign is the remainder. -/
theorem ofSign?_known {sign : String} (h : sign ∈ arithmeticSigns) :
    ∃ op, Arithmetic.ofSign? sign = some op ∧ (op = .rem → sign = "%") := by
  simp only [arithmeticSigns, List.mem_cons, List.not_mem_nil, or_false] at h
  rcases h with rfl | rfl | rfl | rfl | rfl | rfl
  all_goals exact ⟨_, rfl, by decide⟩

/-- What an arithmetic operator can fail with. -/
theorem binary_error {sign : String} {l r : Value} {f : Fault} (hsign : sign ∈ arithmeticSigns)
    (h : Value.binary sign l r = .error f) :
    (∃ cause, f = .of cause ∧ Plain cause) ∨
    (f = .domain .infiniteDividend ∧ sign = "%" ∧ ∃ x y, l = .number x ∧ r = .number y ∧
      x.isInfinite = true ∧ y.isZero = false ∧ y.isNaN = false) := by
  obtain ⟨op, hop, hrem⟩ := ofSign?_known hsign
  unfold Value.binary at h
  rw [hop] at h
  simp only at h
  split at h
  next x y =>
    cases op with
    | add | sub | mul | pow => simp [Arithmetic.apply, Except.map] at h
    | div =>
      cases hz : y.isZero with
      | false => simp [Arithmetic.apply, hz, Except.map] at h
      | true =>
        simp only [Arithmetic.apply, hz, if_true, Except.map, Except.error.injEq] at h
        exact .inl ⟨_, h.symm, trivial⟩
    | rem =>
      cases hz : y.isZero with
      | true =>
        simp only [Arithmetic.apply, hz, if_true, Except.map, Except.error.injEq] at h
        exact .inl ⟨_, h.symm, trivial⟩
      | false =>
        by_cases hi : (x.isInfinite && !y.isNaN) = true
        · have hboth := hi
          simp only [Bool.and_eq_true, Bool.not_eq_true'] at hboth
          simp only [Arithmetic.apply, hz, hi, Bool.false_eq_true, if_true, if_false, Except.map,
            Except.error.injEq] at h
          exact .inr ⟨h.symm, hrem rfl, x, y, rfl, rfl, hboth.1, hz, hboth.2⟩
        · simp [Arithmetic.apply, hz, hi, Except.map] at h
  next =>
    split at h
    next => cases h
    next =>
      split at h
      next => cases h
      next =>
        cases h
        exact .inl ⟨_, rfl, trivial⟩

/-- Only the logical operators have no meaning as equalities. -/
theorem equality_error {sign : String} {type : ValueType} {b : Bool} {f : Fault}
    (hsign : sign ∈ conditionSigns) (h : Value.equality sign type b = .error f) :
    f = .of (.noPairOperator sign type) ∧ (sign = "and" ∨ sign = "or") := by
  simp only [conditionSigns, List.mem_cons, List.not_mem_nil, or_false] at hsign
  unfold Value.equality at h
  split at h
  next => cases h
  next heq =>
    split at h
    next => cases h
    next hne =>
      cases h
      refine ⟨rfl, ?_⟩
      rcases hsign with h | h | h | h
      · exact .inl h
      · exact .inr h
      · exact absurd h heq
      · exact absurd h hne

/-- What a condition can fail with: a logical operator between two numbers or two strings. -/
theorem condition_error {sign : String} {l r : Value} {f : Fault} (hsign : sign ∈ conditionSigns)
    (h : Value.condition sign l r = .error f) :
    ∃ type, f = .of (.noPairOperator sign type) ∧ (sign = "and" ∨ sign = "or") ∧
      (l.type = .number ∧ r.type = .number ∨ l.type = .string ∧ r.type = .string) := by
  unfold Value.condition at h
  split at h
  next =>
    split at h
    next => cases h
    next hand =>
      split at h
      next => cases h
      next hor =>
        obtain ⟨-, hlogic⟩ := equality_error hsign h
        exact absurd hlogic (not_or.mpr ⟨hand, hor⟩)
  next =>
    obtain ⟨hf, hlogic⟩ := equality_error hsign h
    exact ⟨_, hf, hlogic, .inl ⟨rfl, rfl⟩⟩
  next =>
    obtain ⟨hf, hlogic⟩ := equality_error hsign h
    exact ⟨_, hf, hlogic, .inr ⟨rfl, rfl⟩⟩
  next => cases h

/-- What an index can fail with. -/
theorem sequenceIndex_error {k : Value} {f : Fault} (h : k.sequenceIndex = .error f) :
    (∃ cause, f = .of cause ∧ Plain cause) ∨
    (f = .domain .indexTooLong ∧ ∃ s, k = .string s ∧
      s.toList.all Text.isAsciiDigit = true ∧ indexDigits < s.toList.length) := by
  unfold Value.sequenceIndex at h
  split at h
  next =>
    split at h
    next =>
      cases h
      exact .inl ⟨_, rfl, trivial⟩
    next =>
      split at h
      next => cases h
      next => cases h
  next s =>
    dsimp only at h
    split at h
    next hd =>
      split at h
      next hlen =>
        cases h
        rw [Bool.and_eq_true] at hd
        exact .inr ⟨rfl, s, rfl, hd.2, hlen⟩
      next => cases h
    next =>
      cases h
      exact .inl ⟨_, rfl, trivial⟩
  next =>
    cases h
    exact .inl ⟨_, rfl, trivial⟩

/-- What reading a member can fail with. -/
theorem member_error {v k : Value} {f : Fault} (h : v.member k = .error f) :
    (∃ cause, f = .of cause ∧ Plain cause) ∨
    (f = .domain .indexTooLong ∧ (v.type = .array ∨ v.type = .string) ∧ ∃ s, k = .string s ∧
      s.toList.all Text.isAsciiDigit = true ∧ indexDigits < s.toList.length) := by
  unfold Value.member at h
  split at h
  next =>
    have hk := map_eq_error.mp h
    unfold Value.objectKey at hk
    split at hk
    next => cases hk
    next => cases hk
    next =>
      cases hk
      exact .inl ⟨_, rfl, trivial⟩
  next =>
    rcases sequenceIndex_error (map_eq_error.mp h) with h | ⟨hf, hs⟩
    · exact .inl h
    · exact .inr ⟨hf, .inl rfl, hs⟩
  next =>
    rcases sequenceIndex_error (map_eq_error.mp h) with h | ⟨hf, hs⟩
    · exact .inl h
    · exact .inr ⟨hf, .inr rfl, hs⟩
  next =>
    cases h
    exact .inl ⟨_, rfl, trivial⟩

/-! ## Scopes of calls -/

/-- Parameters that differ, and that a scope does not bind yet, are bound without fault. -/
theorem bindParams_ok {scope : ScopeId} : ∀ {ps : List String} {vs : List Value} {m : Machine},
    ps.Nodup → (∀ p ∈ ps, m.store.bindsAt scope p = false) →
      ∃ m', bindParams scope ps vs m = .ok () m'
  | [], vs, m, _, _ => ⟨m, by unfold bindParams; rfl⟩
  | p :: ps, [], m, _, _ => ⟨m, rfl⟩
  | p :: ps, v :: vs, m, hnodup, hfree => by
    rw [List.nodup_cons] at hnodup
    have hfault : m.store.definitionFault? scope p = none := by
      simp [Store.definitionFault?, hfree p (List.mem_cons_self ..)]
    have hdefine : define scope p v false m =
        .ok () { m with store := m.store.bind scope ⟨p, v, false⟩ } := by
      simp [define, update, hfault]
    rw [bindParams, bind_run hdefine]
    refine bindParams_ok hnodup.2 ?_
    -- binding one parameter leaves the others unbound, since they differ from it
    intro q hq
    have hne : p ≠ q := by
      rintro rfl
      exact hnodup.1 hq
    have hbefore := hfree q (List.mem_cons_of_mem p hq)
    unfold Store.bindsAt Scope.binds at hbefore ⊢
    unfold Store.bind
    rw [Store.scopes_modify, if_pos rfl]
    cases hs : m.store.scopes[scope]? with
    | none => rfl
    | some s =>
      rw [hs] at hbefore
      simp only [Option.map_some, Option.any_some] at hbefore ⊢
      rw [Scope.find?_bind, if_neg hne, Option.or_none]
      exact hbefore

/-- A closure with differing parameters opens its scope whenever the arguments are as many. -/
theorem openScope_ok {c : Closure} {args : List Value} {m : Machine} (hc : c.params.Nodup)
    (hlen : args.length = c.params.length) : ∃ scope m', openScope c args m = .ok scope m' := by
  have harity : ∀ name, checkArity name (some c.params.length) args m = .ok () m := by
    intro name
    simp [checkArity, hlen]
  have hchild : child c.scope m =
      .ok m.store.next { m with store := m.store.create (.empty (some c.scope)) } := rfl
  rw [openScope, bind_run (harity _), bind_run hchild]
  have hfree : ∀ p ∈ c.params,
      (m.store.create (.empty (some c.scope))).bindsAt m.store.next p = false := by
    intro p _
    unfold Store.bindsAt
    rw [Store.scopes_create, if_pos rfl]
    simp [Scope.binds, Scope.find?, Scope.empty]
  obtain ⟨m', hm'⟩ := @bindParams_ok m.store.next c.params args
    { m with store := m.store.create (.empty (some c.scope)) } hc hfree
  rw [bind_run hm']
  exact ⟨_, _, rfl⟩

/-- A scope that is not opened had the wrong number of arguments. -/
theorem openScope_error {c : Closure} {args : List Value} {m m' : Machine} {f : Fault}
    (hc : c.params.Nodup) (h : openScope c args m = .error f m') :
    ∃ name, f = .of (.arity name c.params.length args.length) := by
  by_cases hlen : args.length = c.params.length
  · obtain ⟨scope, m₁, hok⟩ := @openScope_ok c args m hc hlen
    rw [hok] at h
    cases h
  · rw [openScope, bind_fails (show checkArity _ (some c.params.length) args m = .error _ m by
      simp only [checkArity, if_neg hlen]; rfl)] at h
    cases h
    exact ⟨_, rfl⟩

/-! ## What good moments raise -/

section Raising

variable {n : Nat} {scope : ScopeId} {m m' : Machine} {f : Fault} {p : Moment}

/-- A definition fails only because the name is taken. -/
theorem define_error {name : String} {v : Value} {constant : Bool}
    (h : define scope name v constant m = .error f m') : f = .of (.alreadyDefined name) := by
  unfold define update at h
  simp only [Store.definitionFault?] at h
  split at h
  next hf =>
    split at hf
    next =>
      cases hf
      cases h
      rfl
    next => cases hf
  next => cases h

/-- An assignment fails with a plain mistake. -/
theorem assign_error {name : String} {v : Value} (h : assign scope name v m = .error f m') :
    ∃ cause, f = .of cause ∧ Plain cause := by
  unfold assign update at h
  simp only [Store.assignmentFault?] at h
  split at h
  next hf =>
    split at hf
    next =>
      cases hf
      cases h
      exact ⟨_, rfl, trivial⟩
    next =>
      split at hf
      next =>
        cases hf
        cases h
        exact ⟨_, rfl, trivial⟩
      next => cases hf
  next => cases h

/-- A name that is not found is undefined. -/
theorem lookup_error {name : String} (h : lookup scope name m = .error f m') :
    f = .of (.undefined name) := by
  unfold lookup Store.lookup at h
  cases hg : m.store.get? scope name with
  | none =>
    simp only [hg] at h
    cases h
    rfl
  | some v =>
    simp only [hg] at h
    cases h

/-- A mistake of a plain kind, where there is no line to give it. -/
theorem verdict_plain (h : ∃ cause, f = .of cause ∧ Plain cause) (hline : p.line = none) :
    Verdict p f := by
  obtain ⟨cause, rfl, hplain⟩ := h
  have hverdict : Verdict p (.runtime cause p.line) := .plain hplain
  rwa [hline] at hverdict

/-- A part of a raising moment that is a tree has given a value. -/
theorem part_value {t : Tree} (hparts : ∀ q, Part p q → q.fault? = none)
    (h : Part p ⟨n, .tree scope t, m⟩) : ∃ v m₁, evalTree n scope t m = .ok v m₁ :=
  faultOf_eq_none.mp (hparts _ h)

/-- A tree that is a name gives it. -/
theorem identifier_name {role : String} {t : Tree} (h : Syntax.IsName t) :
    ∃ name, identifier role t = .ok name := by
  obtain ⟨l, rfl, hl⟩ := h
  exact ⟨l.text, by simp [identifier, hl]⟩

/-- A tree with a label has children under it. -/
theorem childrenOf_labelled {label : Label} {t : Tree} (h : Labelled label t) :
    ∃ cs, childrenOf label t = .ok cs := by
  obtain ⟨line, cs, rfl⟩ := h
  exact ⟨cs, by simp [childrenOf]⟩

/-- A leaf raises at most that its name is not defined. -/
theorem leaf_verdict {l : Leaf} (hl : GoodLeaf l) (he : Evaluable (.leaf l))
    (h : Raises ⟨n + 1, .tree scope (.leaf l), m⟩ f) :
    Verdict ⟨n + 1, .tree scope (.leaf l), m⟩ f := by
  obtain ⟨m', hm⟩ := faultOf_eq_some.mp h.1
  have hrun : located (.leaf l) (leaf scope l) m = .error f m' := hm
  unfold located at hrun
  cases hx : leaf scope l m with
  | ok v m₁ => simp [hx] at hrun
  | error g m₁ =>
    simp only [hx] at hrun
    cases hrun
    unfold leaf at hx
    -- a number is read, a string is what it says, and a name may be missing
    rcases he with hk | hk | hk
    · obtain ⟨x, hx'⟩ := Option.isSome_iff_exists.mp (hl.number hk)
      simp [hk, numeral, hx'] at hx
    · simp [hk] at hx
    · simp only [hk] at hx
      rw [lookup_error hx]
      exact .plain trivial

/-- What a variable declaration raises itself comes from the definition of its name. -/
theorem vardecl_verdict {keyword name init : Tree} (hn : Syntax.IsName name)
    (h : Raises ⟨n + 1, .construct scope .vardecl [keyword, name, init], m⟩ f) :
    Verdict ⟨n + 1, .construct scope .vardecl [keyword, name, init], m⟩ f := by
  obtain ⟨hfault, hparts⟩ := h
  obtain ⟨m', hm⟩ := faultOf_eq_some.mp hfault
  obtain ⟨x, hx⟩ := @identifier_name "Variable name" _ hn
  have hinit : ∃ v m₁, optional (pure .null) (evalTree n scope) init m = .ok v m₁ := by
    by_cases ha : init = .absent
    · exact ⟨.null, m, by rw [ha]; rfl⟩
    · rw [optional_present ha]
      exact part_value hparts (.initial hx ha)
  obtain ⟨v, m₁, hv⟩ := hinit
  rw [evalConstruct, construct, variableDeclaration, hx, bind_run (ofExcept_ok _ m),
    bind_run hv, bind_error] at hm
  rcases hm with hm | ⟨_, _, -, hm⟩
  · rw [define_error hm]
    exact .plain trivial
  · cases hm

theorem fndecl_verdict {name ps b : Tree} (hn : Syntax.IsName name) (hps : Labelled .params ps)
    (hb : Labelled .body b) (h : Raises ⟨n + 1, .construct scope .fndecl [name, ps, b], m⟩ f) :
    Verdict ⟨n + 1, .construct scope .fndecl [name, ps, b], m⟩ f := by
  obtain ⟨m', hm⟩ := faultOf_eq_some.mp h.1
  obtain ⟨x, hx⟩ := @identifier_name "Function name" _ hn
  obtain ⟨qs, hqs⟩ := childrenOf_labelled hps
  obtain ⟨bs, hbs⟩ := childrenOf_labelled hb
  have hchild : child scope m =
      .ok m.store.next { m with store := m.store.create (.empty (some scope)) } := rfl
  rw [evalConstruct, construct, functionDeclaration, hx, bind_run (ofExcept_ok _ m), hqs,
    bind_run (ofExcept_ok _ m), hbs, bind_run (ofExcept_ok _ m), bind_run hchild,
    bind_error] at hm
  rcases hm with hm | ⟨_, _, -, hm⟩
  · rw [define_error hm]
    exact .plain trivial
  · cases hm

/-- A function literal with the right parts raises nothing. -/
theorem fnliteral_verdict {ps b : Tree} (hps : Labelled .params ps) (hb : Labelled .body b)
    (h : Raises ⟨n + 1, .construct scope .fnliteral [ps, b], m⟩ f) :
    Verdict ⟨n + 1, .construct scope .fnliteral [ps, b], m⟩ f := by
  obtain ⟨m', hm⟩ := faultOf_eq_some.mp h.1
  obtain ⟨qs, hqs⟩ := childrenOf_labelled hps
  obtain ⟨bs, hbs⟩ := childrenOf_labelled hb
  rw [evalConstruct, construct, functionLiteral, hqs, bind_run (ofExcept_ok _ m), hbs,
    bind_run (ofExcept_ok _ m)] at hm
  cases hm

/-- Neither does a conditional. -/
theorem ifstmt_verdict {test b c : Tree} (hb : Labelled .body b)
    (hc : c = .absent ∨ Labelled .body c)
    (h : Raises ⟨n + 1, .construct scope .ifstmt [test, b, c], m⟩ f) :
    Verdict ⟨n + 1, .construct scope .ifstmt [test, b, c], m⟩ f := by
  obtain ⟨hfault, hparts⟩ := h
  obtain ⟨m', hm⟩ := faultOf_eq_some.mp hfault
  obtain ⟨v, m₁, hv⟩ := part_value hparts .test
  rw [evalConstruct, construct, conditional, bind_run hv] at hm
  split at hm
  next x =>
    -- a branch that is there is a part, so it has not failed
    by_cases ha : (if x = true then b else c) = .absent
    · rw [ha] at hm
      cases hm
    · have hbranch : Labelled .body (if x = true then b else c) := by
        split
        next => exact hb
        next hx => exact hc.resolve_left (by simpa [hx] using ha)
      obtain ⟨cs, hcs⟩ := childrenOf_labelled hbranch
      obtain ⟨w, m₂, hw⟩ := faultOf_eq_none.mp (hparts _ (.branch hv hcs))
      rw [optional_present ha, block, hcs, bind_run (ofExcept_ok _ _)] at hm
      cases hm.symm.trans hw
  next =>
    cases hm
    exact .plain trivial

/-- An arithmetic operation raises what its operator fails with. -/
theorem binary_verdict {l r : Tree} {op : Leaf} (hop : op.text ∈ arithmeticSigns)
    (h : Raises ⟨n + 1, .construct scope .binary [l, .leaf op, r], m⟩ f) :
    Verdict ⟨n + 1, .construct scope .binary [l, .leaf op, r], m⟩ f := by
  obtain ⟨hfault, hparts⟩ := h
  obtain ⟨m', hm⟩ := faultOf_eq_some.mp hfault
  obtain ⟨v, m₁, hv⟩ := part_value hparts (.left (.inl rfl))
  obtain ⟨w, m₂, hw⟩ := part_value hparts (.right (.inl rfl) hv)
  rw [evalConstruct, construct, operation, bind_run hv, bind_run hw, ofExcept_eq_error] at hm
  rcases binary_error hop hm.1 with hplain | ⟨rfl, hsign, x, y, rfl, rfl, hx, hy, hy'⟩
  · exact verdict_plain hplain rfl
  · exact .remainder ⟨_, _, _, _, _, _, _, _, _, _, rfl, hsign, hv, hw, hx, hy, hy'⟩

theorem condition_verdict {l r : Tree} {op : Leaf} (hop : op.text ∈ conditionSigns)
    (h : Raises ⟨n + 1, .construct scope .condition [l, .leaf op, r], m⟩ f) :
    Verdict ⟨n + 1, .construct scope .condition [l, .leaf op, r], m⟩ f := by
  obtain ⟨hfault, hparts⟩ := h
  obtain ⟨m', hm⟩ := faultOf_eq_some.mp hfault
  obtain ⟨v, m₁, hv⟩ := part_value hparts (.left (.inr rfl))
  obtain ⟨w, m₂, hw⟩ := part_value hparts (.right (.inr rfl) hv)
  rw [evalConstruct, construct, operation, bind_run hv, bind_run hw, ofExcept_eq_error] at hm
  obtain ⟨type, rfl, hsign, htypes⟩ := condition_error hop hm.1
  exact .misapplied ⟨_, _, _, _, _, _, _, _, _, _, rfl, hsign, hv, hw, htypes⟩

/-- An assignment raises what giving the name a value fails with. -/
theorem assign_verdict {name value : Tree} (hn : Syntax.IsName name)
    (h : Raises ⟨n + 1, .construct scope .assign [name, value], m⟩ f) :
    Verdict ⟨n + 1, .construct scope .assign [name, value], m⟩ f := by
  obtain ⟨hfault, hparts⟩ := h
  obtain ⟨m', hm⟩ := faultOf_eq_some.mp hfault
  obtain ⟨x, hx⟩ := @identifier_name "Assignment target" _ hn
  obtain ⟨v, m₁, hv⟩ := part_value hparts (.assigned hx)
  rw [evalConstruct, construct, assignment, hx, bind_run (ofExcept_ok _ m), bind_run hv,
    bind_error] at hm
  rcases hm with hm | ⟨_, _, -, hm⟩
  · exact verdict_plain (assign_error hm) rfl
  · cases hm

/-- An object raises nothing but an undefined shorthand. -/
theorem object_verdict {cs : List Tree} (hcs : ∀ c ∈ cs, Syntax.IsProperty c)
    (h : Raises ⟨n + 1, .construct scope .object cs, m⟩ f) :
    Verdict ⟨n + 1, .construct scope .object cs, m⟩ f := by
  obtain ⟨hfault, hparts⟩ := h
  obtain ⟨m', hm⟩ := faultOf_eq_some.mp hfault
  rw [evalConstruct, construct, bind_error] at hm
  rcases hm with hm | ⟨_, _, -, hm⟩
  · obtain ⟨before, t, after, slots, m₁, rfl, hb, ht⟩ := properties_error_iff.mp hm
    obtain ⟨line, key, value, rfl, hk, -⟩ := hcs t (by simp)
    obtain ⟨x, hx⟩ := @identifier_name "Object key" _ hk
    have hprop : childrenOf .prop (.node .prop line [key, value]) = .ok [key, value] := rfl
    rw [property, hprop, bind_run (ofExcept_ok _ m₁)] at ht
    simp only at ht
    rw [hx, bind_run (ofExcept_ok _ m₁), bind_error] at ht
    rcases ht with ht | ⟨_, _, -, ht⟩
    · by_cases ha : value = .absent
      -- a property without a value takes that of the variable of its name
      · rw [ha] at ht
        rw [lookup_error ht]
        exact .plain trivial
      · rw [optional_present ha] at ht
        obtain ⟨v, m₂, hv⟩ := part_value hparts (.property hb hprop hx ha)
        rw [ht] at hv
        cases hv
    · cases ht
  · cases hm

/-- A name is no index, so a named member is never too long a one. -/
theorem field_verdict {target : Tree} {l : Leaf} (hl : GoodLeaf l) (hk : l.kind = .ident)
    (h : Raises ⟨n + 1, .construct scope .field [target, .leaf l], m⟩ f) :
    Verdict ⟨n + 1, .construct scope .field [target, .leaf l], m⟩ f := by
  obtain ⟨hfault, hparts⟩ := h
  obtain ⟨m', hm⟩ := faultOf_eq_some.mp hfault
  obtain ⟨v, m₁, hv⟩ := part_value hparts (.target (.inl rfl))
  rw [evalConstruct, construct, field, bind_run hv, ofExcept_eq_error] at hm
  rcases member_error hm.1 with hplain | ⟨-, -, s, hs, hdigits, -⟩
  · exact verdict_plain hplain rfl
  · cases hs
    exact absurd hdigits (by simp [Tree.word, hl.name hk])

/-- An index raises what the member fails with. -/
theorem index_verdict {target key : Tree}
    (h : Raises ⟨n + 1, .construct scope .index [target, key], m⟩ f) :
    Verdict ⟨n + 1, .construct scope .index [target, key], m⟩ f := by
  obtain ⟨hfault, hparts⟩ := h
  obtain ⟨m', hm⟩ := faultOf_eq_some.mp hfault
  obtain ⟨v, m₁, hv⟩ := part_value hparts (.target (.inr rfl))
  obtain ⟨k, m₂, hk⟩ := part_value hparts (.key hv)
  rw [evalConstruct, construct, index, bind_run hv, bind_run hk, ofExcept_eq_error] at hm
  rcases member_error hm.1 with hplain | ⟨rfl, htype, s, rfl, hdigits, hlen⟩
  · exact verdict_plain hplain rfl
  · exact .index ⟨_, _, _, _, _, _, _, _, _, rfl, hv, htype, hk, hdigits, hlen⟩

/-- To show arguments can only run out of budget. -/
theorem displayed_error {budget : Nat} {args : List Value}
    (h : displayed budget args m = .error f m') : f = .depth := by
  unfold displayed at h
  split at h
  next =>
    cases h
    rfl
  next => cases h

/-- A wrong number of arguments is a plain mistake. -/
theorem checkArity_error {name : String} {wanted : Option Nat} {args : List Value}
    (h : checkArity name wanted args m = .error f m') :
    ∃ k, f = .of (.arity name k args.length) := by
  unfold checkArity at h
  split at h
  next k =>
    split at h
    next => cases h
    next =>
      cases h
      exact ⟨k, rfl⟩
  next => cases h

theorem length_error {v : Value} (h : v.length = .error f) :
    ∃ cause, f = .of cause ∧ Plain cause := by
  unfold Value.length at h
  split at h
  all_goals cases h
  exact ⟨_, rfl, trivial⟩

/-- A built-in function fails for want of budget or with a plain mistake. -/
theorem native_error {budget : Nat} {g : Native} {args : List Value}
    (h : native budget g args m = .error f m') :
    f = .depth ∨ ∃ cause, f = .of cause ∧ Plain cause := by
  cases g with
  | print | println =>
    rw [native, bind_error] at h
    rcases h with h | ⟨_, _, -, h⟩
    · exact .inl (displayed_error h)
    · cases h
  | len =>
    cases args with
    | nil => cases h
    | cons v vs =>
      have h' : (ofExcept v.length >>= fun n => pure (HostAnswer.value n)) m = .error f m' := h
      rw [bind_error, ofExcept_eq_error] at h'
      rcases h' with ⟨hlen, -⟩ | ⟨_, _, -, h'⟩
      · exact .inr (length_error hlen)
      · cases h'

/-- No built-in function answers with something foreign. -/
theorem native_not_foreign {budget : Nat} {g : Native} {args : List Value} {type : String} :
    native budget g args m ≠ .ok (.foreign type) m' := by
  intro h
  cases g with
  | print | println =>
    rw [native, bind_eq_ok] at h
    obtain ⟨_, _, -, h⟩ := h
    cases h
  | len =>
    cases args with
    | nil => cases h
    | cons v vs =>
      have h' : (ofExcept v.length >>= fun n => pure (HostAnswer.value n)) m =
          .ok (.foreign type) m' := h
      rw [bind_eq_ok] at h'
      obtain ⟨_, _, -, h'⟩ := h'
      cases h'

/-- A built-in function raises a plain mistake, or has no budget to print with. -/
theorem callHost_error {budget : Nat} {g : Native} {args : List Value}
    (h : callHost g.name g.arity (native budget g) args m = .error f m') :
    f = .depth ∨ ∃ cause, f = .of cause ∧ Plain cause := by
  rw [callHost, bind_error] at h
  rcases h with h | ⟨_, m₁, -, h⟩
  · obtain ⟨k, rfl⟩ := checkArity_error h
    exact .inr ⟨_, rfl, trivial⟩
  · rw [bind_error] at h
    rcases h with h | ⟨answer, m₂, hanswer, h⟩
    · exact native_error h
    · cases answer with
      | nothing | value => cases h
      | foreign type => exact absurd hanswer native_not_foreign

/-- A call raises what its callee cannot be applied for. -/
theorem call_verdict {v : Value} {vs : List Value}
    (h : Raises ⟨n + 1, .call v vs, m⟩ f) : Verdict ⟨n + 1, .call v vs, m⟩ f := by
  obtain ⟨hfault, hparts⟩ := h
  obtain ⟨m', hm⟩ := faultOf_eq_some.mp hfault
  rw [callValue] at hm
  unfold apply at hm
  split at hm
  next c =>
    obtain ⟨w, m₁, hw⟩ := faultOf_eq_none.mp (hparts _ .closure)
    cases hm.symm.trans hw
  next g =>
    rcases callHost_error hm with rfl | hplain
    · exact .depth
    · exact verdict_plain hplain rfl
  next =>
    cases hm
    exact .plain trivial

/-- To enter a closure with distinct parameters raises no repeated definition. -/
theorem enter_verdict {c : Closure} {vs : List Value} (hc : c.params.Nodup)
    (h : Raises ⟨n + 1, .enter c vs, m⟩ f) : Verdict ⟨n + 1, .enter c vs, m⟩ f := by
  obtain ⟨hfault, hparts⟩ := h
  obtain ⟨m', hm⟩ := faultOf_eq_some.mp hfault
  rw [enterClosure, callClosure, bind_error] at hm
  rcases hm with hm | ⟨scope, m₁, ho, hm⟩
  · obtain ⟨name, rfl⟩ := openScope_error hc hm
    exact .plain trivial
  · obtain ⟨w, m₂, hw⟩ := faultOf_eq_none.mp (hparts _ (.enter ho))
    cases hm.symm.trans hw

/-- The constructs that only carry out their parts raise nothing. -/
theorem construct_verdict {label : Label} {line : Option Int} {cs : List Tree}
    (hg : Good (.node label line cs)) (h : Raises ⟨n + 1, .construct scope label cs, m⟩ f) :
    Verdict ⟨n + 1, .construct scope label cs, m⟩ f := by
  obtain ⟨hwf, he⟩ := hg
  have hshape := hwf.shape
  cases label with
  -- for each label the shape names the children, and the parts have all given values
  | program | body =>
    obtain ⟨m', hm⟩ := faultOf_eq_some.mp h.1
    obtain ⟨v, m₁, hv⟩ := faultOf_eq_none.mp (h.2 _ (.body (by simp)))
    cases hm.symm.trans hv
  | vardecl =>
    obtain ⟨keyword, name, init, rfl, hn, -⟩ := hshape
    exact vardecl_verdict hn h
  | fndecl =>
    obtain ⟨name, ps, b, rfl, hn, hps, hb⟩ := hshape
    exact fndecl_verdict hn hps hb h
  | ifstmt =>
    obtain ⟨test, b, c, rfl, -, hb, hc⟩ := hshape
    exact ifstmt_verdict hb hc h
  | binary =>
    obtain ⟨a, op, b, rfl, -, hop, -⟩ := hshape
    exact binary_verdict hop h
  | condition =>
    obtain ⟨a, op, b, rfl, -, hop, -⟩ := hshape
    exact condition_verdict hop h
  | assign =>
    obtain ⟨name, value, rfl, hn, -⟩ := hshape
    exact assign_verdict hn h
  | object => exact object_verdict hshape h
  | array =>
    obtain ⟨m', hm⟩ := faultOf_eq_some.mp h.1
    obtain ⟨vs, m₁, hvs⟩ := faultOf_eq_none.mp (h.2 _ .array)
    rw [evalConstruct, construct, bind_run hvs] at hm
    cases hm
  | field =>
    obtain ⟨target, name, rfl, -, l, rfl, hl⟩ := hshape
    exact field_verdict (hwf.child (by simp)).leaf hl h
  | index =>
    obtain ⟨target, key, rfl, -, -⟩ := hshape
    exact index_verdict h
  | call =>
    obtain ⟨callee, as, rfl, -, -⟩ := hshape
    obtain ⟨m', hm⟩ := faultOf_eq_some.mp h.1
    obtain ⟨v, m₁, hv⟩ := part_value h.2 .callee
    obtain ⟨vs, m₂, hvs⟩ := faultOf_eq_none.mp (h.2 _ (.arguments hv))
    obtain ⟨w, m₃, hw⟩ := faultOf_eq_none.mp (h.2 _ (.call hv hvs))
    rw [evalConstruct, construct, call, bind_run hv, bind_run hvs] at hm
    cases hm.symm.trans hw
  | fnliteral =>
    obtain ⟨ps, b, rfl, hps, hb⟩ := hshape
    exact fnliteral_verdict hps hb h
  -- what is left is never evaluated by itself
  | prop => exact absurd rfl he.1
  | params => exact absurd rfl he.2.1
  | args => exact absurd rfl he.2.2.1
  | other name => exact absurd rfl (he.2.2.2 name)

/-- What a good moment may raise. -/
theorem raises_verdict {p : Moment} (hp : GoodMoment p) (h : Raises p f) : Verdict p f := by
  obtain ⟨budget, task, m⟩ := p
  obtain ⟨-, ht⟩ := hp
  cases budget with
  -- without budget nothing is carried out
  | zero =>
    have hdepth : f = .depth := by
      obtain ⟨hfault, -⟩ := h
      cases task <;> exact (Option.some.inj hfault).symm
    rw [hdepth]
    exact .depth
  | succ n =>
    cases task with
    | tree scope t =>
      obtain ⟨hwf, he⟩ := ht
      cases t with
      | absent => exact absurd he id
      | leaf l => exact leaf_verdict hwf.leaf he h
      | node label line cs =>
        obtain ⟨m', hm⟩ := faultOf_eq_some.mp h.1
        obtain ⟨v, m₁, hv⟩ := faultOf_eq_none.mp (h.2 _ .node)
        have hm' : located (.node label line cs) (evalConstruct n scope label cs) m =
            .error f m' := hm
        rw [located, hv] at hm'
        -- a node fails only where its construct does, and that is a part
        cases hm'
    | construct scope label cs =>
      obtain ⟨line, hg⟩ := ht
      exact construct_verdict hg h
    | items scope ts =>
      obtain ⟨m', hm⟩ := faultOf_eq_some.mp h.1
      rw [evalItems, all_error_iff] at hm
      obtain ⟨before, t, after, vs, m₁, rfl, hb, hm⟩ := hm
      -- the tree that failed is a part, and parts do not fail
      obtain ⟨v, m₂, hv⟩ := part_value h.2 (.item hb)
      cases hm.symm.trans hv
    | arguments scope t =>
      obtain ⟨m', hm⟩ := faultOf_eq_some.mp h.1
      obtain ⟨ts, hts⟩ := childrenOf_labelled ht.2
      obtain ⟨vs, m₁, hvs⟩ := faultOf_eq_none.mp (h.2 _ (.argumentItems hts))
      rw [evalArguments, arguments, hts, bind_run (ofExcept_ok _ m)] at hm
      cases hm.symm.trans hvs
    | statements scope ts =>
      obtain ⟨m', hm⟩ := faultOf_eq_some.mp h.1
      rw [evalStatements, sequence_error_iff] at hm
      obtain ⟨before, t, after, v, m₁, rfl, hb, hm⟩ := hm
      obtain ⟨v, m₂, hv⟩ := part_value h.2 (.statement hb)
      cases hm.symm.trans hv
    | call v vs => exact call_verdict h
    | enter c vs =>
      obtain ⟨hc, -⟩ := ht
      cases hc with
      | closure hparams _ => exact enter_verdict hparams h

end Raising

/-! ## Sessions -/

/-- A program text to be run: the text, the limit of nested calls that it is read within, and the
budget for its evaluation, if that can be had. -/
structure Submission where
  source : String
  limit : Nat
  budget : Except LimitError Nat

/-- Runs a program text in the outermost scope. -/
def Submission.run (s : Submission) : Run Value :=
  Program.run s.limit s.budget Machine.globalId s.source

/-- The machine after program texts were run one after the other in one outermost scope, whatever
they ended in. -/
def runAll (runs : List Submission) : Machine :=
  runs.foldl (fun m s => final (s.run m)) .fresh

/-- The machine that the tree of a program text is evaluated with: the one that the text was
submitted to, with a few notes. -/
def noted (source : String) (ts : List Token) (t : Tree) (m : Machine) : Machine :=
  { m with events := .evaluating t.heading :: .parsed t.children.length ::
      .tokenized source.length ts.length :: m.events }

/-- What is noted once a text has been read. -/
def readNotes (source : String) (ts : List Token) (t : Tree) (m : Machine) : Machine :=
  { m with events := .parsed t.children.length :: .tokenized source.length ts.length :: m.events }

/-- A text that has a tree within the limit is read to that tree. -/
theorem read_parsed {source : String} {limit : Nat} {ts : List Token} {t : Tree} (m : Machine)
    (hts : tokenize source = .ok ts) (ht : parseTokens limit ts = .ok t) :
    Program.read limit source m = .ok t (readNotes source ts t m) := by
  have htokens : Program.tokens source m =
      .ok ts { m with events := .tokenized source.length ts.length :: m.events } := by
    unfold Program.tokens
    rw [hts]
    rfl
  rw [Program.read, bind_run htokens]
  unfold Program.tree
  rw [ht]
  rfl

/-- Any other text is refused, which is reported and leaves store and output as they are. -/
theorem read_refused {source : String} (limit : Nat) (m : Machine)
    (h : ∀ ts t, tokenize source = .ok ts → parseTokens limit ts ≠ .ok t) :
    ∃ f m', Program.read limit source m = .error f m' ∧ f.isReported = true ∧
      m'.store = m.store ∧ m'.output = m.output := by
  cases hts : tokenize source with
  | error e =>
    have htokens : Program.tokens source m = .error (.lexical e) m := by
      unfold Program.tokens
      rw [hts]
      rfl
    exact ⟨_, _, bind_fails htokens _, rfl, rfl, rfl⟩
  | ok ts =>
    have htokens : Program.tokens source m =
        .ok ts { m with events := .tokenized source.length ts.length :: m.events } := by
      unfold Program.tokens
      rw [hts]
      rfl
    rw [Program.read, bind_run htokens]
    unfold Program.tree
    cases ht : parseTokens limit ts with
    | ok t => exact absurd ht (h ts t hts)
    | error r => exact ⟨_, _, rfl, by cases r <;> rfl, rfl, rfl⟩

/-- A text with a tree is run by evaluating the tree. -/
theorem run_parsed {source : String} {limit : Nat} {ts : List Token} {t : Tree} (budget : Nat)
    (scope : ScopeId) (m : Machine) (hts : tokenize source = .ok ts)
    (ht : parseTokens limit ts = .ok t) :
    Program.run limit (.ok budget) scope source m =
      Run.ofEval (evalTree budget scope t) (noted source ts t m) :=
  Program.run_granted (read_parsed m hts ht) budget scope

/-- A text with a tree cannot be run without a budget, and then does nothing. -/
theorem run_unbudgeted {source : String} {limit : Nat} {ts : List Token} {t : Tree}
    (e : LimitError) (scope : ScopeId) (m : Machine) (hts : tokenize source = .ok ts)
    (ht : parseTokens limit ts = .ok t) : ∃ m',
    Program.run limit (.error e) scope source m = .error (.budget e) m' ∧
      m'.store = m.store ∧ m'.output = m.output :=
  ⟨_, Program.run_ungranted (read_parsed m hts ht) e scope, rfl, rfl⟩

/-- A program text that is not evaluated leaves the store as it is. -/
theorem run_store (limit : Nat) (budget : Except LimitError Nat) (scope : ScopeId)
    (source : String) (m : Machine) :
    (final (Program.run limit budget scope source m)).store = m.store ∨
      ∃ n ts t, budget = .ok n ∧ tokenize source = .ok ts ∧ parseTokens limit ts = .ok t := by
  by_cases hparses : ∃ ts t, tokenize source = .ok ts ∧ parseTokens limit ts = .ok t
  · obtain ⟨ts, t, hts, ht⟩ := hparses
    cases budget with
    | ok n => exact .inr ⟨n, ts, t, rfl, hts, ht⟩
    | error e =>
      obtain ⟨m', hrun, hstore, -⟩ := run_unbudgeted e scope m hts ht
      exact .inl (by rw [hrun]; exact hstore)
  · obtain ⟨f, m', hread, -, hstore, -⟩ :=
      read_refused limit m fun ts t hts ht => hparses ⟨ts, t, hts, ht⟩
    exact .inl (by rw [Program.run_refused hread]; exact hstore)

/-- An evaluation of a well-formed tree keeps the store sound. -/
theorem evalTree_soundStore {n : Nat} {scope : ScopeId} {t : Tree} {m : Machine}
    (hs : SoundStore m.store) (ht : WellFormed t) :
    SoundStore (final (evalTree n scope t m)).store := by
  have hkeeps : Keeps soundness m.store soundness.value (evalTree n scope t) :=
    (evaluates soundness_lawful n).tree trivial ht
  exact (hkeeps.final hs).2

/-- A run of a program text keeps the store sound. -/
theorem run_sound {limit : Nat} {budget : Except LimitError Nat} {scope : ScopeId}
    {source : String} {m : Machine} (hs : SoundStore m.store) :
    SoundStore (final (Program.run limit budget scope source m)).store := by
  rcases run_store limit budget scope source m with h | ⟨n, ts, t, rfl, hts, ht⟩
  · rw [h]
    exact hs
  · have hstore : SoundStore (noted source ts t m).store := hs
    rw [run_parsed n scope m hts ht, final_ofEval]
    exact evalTree_soundStore hstore (tree_wellFormed hts ht).1

/-- What is built in is sound. -/
theorem createGlobal_sound {s : Store} (hs : SoundStore s) : SoundStore s.createGlobal :=
  Store.AllBound.createGlobal hs .null .number .bool .native

/-- A fresh machine is sound. -/
theorem fresh_sound : SoundStore Machine.fresh.store :=
  createGlobal_sound (Store.allBound_empty _)

/-- Every session keeps the store sound. -/
theorem runAll_sound (runs : List Submission) : SoundStore (runAll runs).store := by
  have hfrom : ∀ m : Machine, SoundStore m.store →
      SoundStore (runs.foldl (fun m s => final (s.run m)) m).store := by
    induction runs with
    | nil => exact fun m hm => hm
    | cons s runs ih => exact fun m hm => ih _ (run_sound hm)
  exact hfrom .fresh fresh_sound

/-- A fault is raised, but for its line, by a moment of a given kind. -/
def Arises (p : Moment) (f : Fault) (kind : Moment → Prop) : Prop :=
  ∃ q g line, Reaches p q ∧ Raises q g ∧ f = g.located line ∧ kind q

/-- A fault is one that the run of a program text may end in. -/
structure EndsWell (p : Moment) (f : Fault) : Prop where
  kind : f = .depth ∨ (∃ cause line, f = .runtime cause line) ∨
    f = .domain .infiniteDividend ∨ f = .domain .indexTooLong
  remainder : f = .domain .infiniteDividend → Arises p f InfiniteRemainder
  index : f = .domain .indexTooLong → Arises p f LongIndex
  operator : ∀ sign line, f ≠ .runtime (.unknownOperator sign) line
  pair : ∀ sign type line, f = .runtime (.noPairOperator sign type) line →
    Arises p f MisappliedLogic

/-- A mistake with a line is the same mistake. -/
theorem located_runtime (cause : RuntimeCause) (line line' : Option Int) :
    ∃ l, (Fault.runtime cause line).located line' = .runtime cause l := by
  cases line with
  | none => exact ⟨line', rfl⟩
  | some n => exact ⟨some n, rfl⟩

/-- Whatever a good moment ends in, it ends well. -/
theorem good_endsWell {p : Moment} {f : Fault} (hp : GoodMoment p) (h : p.fault? = some f) :
    EndsWell p f := by
  -- the fault comes from a good moment, and has only got a line since
  obtain ⟨q, g, line, hq, hraises, rfl⟩ := fails_raises h
  have hverdict := raises_verdict (reaches_good hq hp) hraises
  cases hverdict with
  | depth => constructor <;> simp [Fault.located]
  | @plain cause hplain =>
    obtain ⟨l, hl⟩ := located_runtime cause q.line line
    rw [hl]
    constructor
    · exact .inr (.inl ⟨cause, l, rfl⟩)
    · simp
    · simp
    · rintro sign _ ⟨⟩
      exact hplain
    · rintro sign type _ ⟨⟩
      exact absurd hplain id
  | @misapplied sign type hlogic =>
    have harises : Arises p ((Fault.runtime (.noPairOperator sign type) q.line).located line)
        MisappliedLogic := ⟨q, _, line, hq, hraises, rfl, hlogic⟩
    obtain ⟨l, hl⟩ := located_runtime (.noPairOperator sign type) q.line line
    rw [hl] at harises ⊢
    constructor
    · exact .inr (.inl ⟨_, l, rfl⟩)
    · simp
    · simp
    · simp
    · exact fun _ _ _ _ => harises
  | remainder hr =>
    constructor
    · exact .inr (.inr (.inl rfl))
    · exact fun _ => ⟨q, _, line, hq, hraises, rfl, hr⟩
    · simp [Fault.located]
    · simp [Fault.located]
    · simp [Fault.located]
  | index hi =>
    constructor
    · exact .inr (.inr (.inr rfl))
    · simp [Fault.located]
    · exact fun _ => ⟨q, _, line, hq, hraises, rfl, hi⟩
    · simp [Fault.located]
    · simp [Fault.located]

/-- How the run of a program text that has a tree ends after any session, whatever limits its texts
were read and evaluated within. Without a budget, because the wanted limit cannot be read or set,
the run ends in just that and does nothing. With one, however large, it ends in a value or ends
well, and no call of a closure in it fails because its parameters are bound already: given as many
arguments as there are parameters, they are bound. -/
theorem session_ends_well (earlier : List Submission) (source : String) (limit : Nat)
    (budget : Except LimitError Nat) (ts : List Token) (t : Tree) (hts : tokenize source = .ok ts)
    (ht : parseTokens limit ts = .ok t) :
    let m := runAll earlier
    (∀ e, budget = .error e → ∃ m', (Submission.mk source limit budget).run m =
      .error (.budget e) m' ∧ m'.store = m.store ∧ m'.output = m.output) ∧
    ∀ n, budget = .ok n →
      let start : Moment := ⟨n, .tree Machine.globalId t, noted source ts t m⟩
      ((∃ v m', (Submission.mk source limit budget).run m = .ok v m') ∨
        ∃ f m', (Submission.mk source limit budget).run m = .error (.fault f) m' ∧
          EndsWell start f) ∧
      ∀ k c args m', Reaches start ⟨k, .enter c args, m'⟩ →
        (args.length = c.params.length → ∃ scope m'', openScope c args m' = .ok scope m'') ∧
        ∀ name m'', openScope c args m' ≠ .error (.of (.alreadyDefined name)) m'' := by
  intro m
  refine ⟨?_, ?_⟩
  · rintro e rfl
    exact run_unbudgeted e Machine.globalId m hts ht
  rintro n rfl start
  have hstart : GoodMoment start := ⟨runAll_sound earlier, tree_wellFormed hts ht⟩
  refine ⟨?_, ?_⟩
  · rw [Submission.run, run_parsed n Machine.globalId m hts ht, Run.ofEval]
    cases hm : evalTree n Machine.globalId t (noted source ts t m) with
    | ok v m' => exact .inl ⟨v, m', rfl⟩
    | error f m' =>
      refine .inr ⟨f, m', rfl, good_endsWell hstart ?_⟩
      exact faultOf_eq_some.mpr ⟨m', hm⟩
  · intro k c args m' hreach
    obtain ⟨-, hc, -⟩ := reaches_good hreach hstart
    cases hc with
    | closure hparams _ =>
      refine ⟨openScope_ok hparams, ?_⟩
      intro name m'' h
      obtain ⟨_, heq⟩ := openScope_error hparams h
      cases heq

/-- For instance `1 % 0`, after a session that defined a function. -/
theorem session_ends_well_modulo :
    let m := runAll [⟨"func f(a) { a }", 100, .ok 10⟩]
    ∃ ts t f m', tokenize "1 % 0" = .ok ts ∧ parseTokens 100 ts = .ok t ∧
      (Submission.mk "1 % 0" 100 (.ok 10)).run m = .error (.fault f) m' ∧
      EndsWell ⟨10, .tree Machine.globalId t, noted "1 % 0" ts t m⟩ f := by
  intro m
  have hts : tokenize "1 % 0" = .ok [⟨.number, "1", 1, 1⟩, ⟨.binop, "%", 1, 3⟩,
      ⟨.number, "0", 1, 5⟩, ⟨.eof, "", 1, 6⟩] := by with_unfolding_all rfl
  have h := session_ends_well [⟨"func f(a) { a }", 100, .ok 10⟩] "1 % 0" 100 (.ok 10) _ _ hts rfl
  rcases (h.2 10 rfl).1 with ⟨v, m', hv⟩ | ⟨f, m', hf, hends⟩
  · rw [Submission.run, run_parsed 10 _ _ hts rfl] at hv
    cases hv
  · exact ⟨_, _, f, m', hts, rfl, hf, hends⟩

/-- A limit that is larger than can be set is wanted for the evaluation of a number: the run ends in
neither a value nor a fault. -/
theorem session_ends_unset :
    let wanted : Settings := ⟨none, none, some "2147483648"⟩
    let run := (Submission.mk "1" 1000 (wanted.raise 1000)).run .fresh
    (∃ ts t, tokenize "1" = .ok ts ∧ parseTokens 1000 ts = .ok t) ∧
      (∃ m, run = .error (.budget .tooLarge) m) ∧
      ∀ v f m, run ≠ .ok v m ∧ run ≠ .error (.fault f) m := by
  intro wanted run
  have hts : tokenize "1" = .ok [⟨.number, "1", 1, 1⟩, ⟨.eof, "", 1, 2⟩] := by
    with_unfolding_all rfl
  have hwanted : wanted.raise 1000 = .error .tooLarge := by decide +kernel
  have ht : parseTokens 1000 [⟨.number, "1", 1, 1⟩, ⟨.eof, "", 1, 2⟩] =
      .ok (.node .program none [.leaf ⟨.number, "1", some 1, some 1⟩]) := rfl
  obtain ⟨m, hm, -⟩ := run_unbudgeted .tooLarge Machine.globalId .fresh hts ht
  have hrun : run = .error (.budget .tooLarge) m := by
    show Program.run 1000 (wanted.raise 1000) Machine.globalId "1" .fresh = _
    rw [hwanted, hm]
  exact ⟨⟨_, _, hts, rfl⟩, ⟨m, hrun⟩, fun v f m' => ⟨by rw [hrun]; nofun, by rw [hrun]; nofun⟩⟩

end Avii.Eval
