import Avii.Proofs.Syntax.Completeness

/-!
# Loops of the parser without rounds

A repetition is given as many rounds as there are tokens left, and takes a token in every round. So
it never runs out of rounds, and is what one round says it is: it goes on with itself, not with the
same repetition in fewer rounds (`joined_round` and its siblings, all from `Repeats.unroll`).
-/

namespace Avii.Parser

open Syntax (Level isOperator_kind kind_of_isOneOf)

variable {α β σ : Type}

/-- What a parser gives back is shorter than what it was given. -/
def Lessens (p : Parser α) : Prop :=
  ∀ {ts rest : List Token} {a : α}, p ts = .ok (a, rest) → rest.length < ts.length

/-- What a parser gives back is no longer than what it was given. -/
def Shrinks (p : Parser α) : Prop :=
  ∀ {ts rest : List Token} {a : α}, p ts = .ok (a, rest) → rest.length ≤ ts.length

/-- What takes a token takes no fewer than none. -/
theorem Lessens.shrinks {p : Parser α} (h : Lessens p) : Shrinks p :=
  fun hp => Nat.le_of_lt (h hp)

theorem pure_shrinks (a : α) : Shrinks (pure a : Parser α) := by
  intro ts rest b h
  exact Nat.le_of_eq (congrArg List.length (pure_ok.mp h).2.symm)

/-- What adds no tokens step by step adds none. -/
theorem Shrinks.bind {p : Parser α} {f : α → Parser β} (hp : Shrinks p)
    (hf : ∀ a, Shrinks (f a)) : Shrinks (p >>= f) := by
  intro ts rest b h
  obtain ⟨a, mid, ha, hb⟩ := bind_ok.mp h
  exact Nat.le_trans (hf a hb) (hp ha)

/-- It is enough that the first step takes one. -/
theorem Lessens.bind {p : Parser α} {f : α → Parser β} (hp : Lessens p)
    (hf : ∀ a, Shrinks (f a)) : Lessens (p >>= f) := by
  intro ts rest b h
  obtain ⟨a, mid, ha, hb⟩ := bind_ok.mp h
  exact Nat.lt_of_le_of_lt (hf a hb) (hp ha)

/-- What comes after a parser matters only where the parser gets to. -/
theorem bind_congr {p : Parser α} {f g : α → Parser β} {ts : List Token}
    (h : ∀ a rest, p ts = .ok (a, rest) → f a rest = g a rest) : (p >>= f) ts = (p >>= g) ts := by
  simp only [bind, StateT.bind, Except.bind]
  cases hp : p ts with
  | error => rfl
  | ok r => exact h r.1 r.2 hp

/-- A token other than the closing end is taken. -/
theorem advance_lessens {ts rest : List Token} {t : Token} (h : advance ts = .ok (t, rest))
    (hk : (next ts).kind ≠ .eof) : rest.length < ts.length := by
  rw [advance_ok h hk]
  exact Nat.lt_succ_self rest.length

theorem expect_lessens {kind : Kind} {fault : Kind → ParseFault} (hk : kind ≠ .eof) :
    Lessens (expect kind fault) := by
  intro ts rest t h
  rw [(expect_ok h hk).1]
  exact Nat.lt_succ_self rest.length

/-- A token that is accepted makes the list shorter, and nothing else changes it. -/
theorem accept_shrinks {kind : Kind} {ts rest : List Token} {b : Bool}
    (h : accept kind ts = .ok (b, rest)) (hk : kind ≠ .eof) :
    rest.length ≤ ts.length ∧ (b = true → rest.length < ts.length) := by
  rcases accept_ok h hk with ⟨-, t, rfl, -⟩ | ⟨rfl, rfl, -⟩
  · simp
  · simp

/-! ## Rounds -/

/-- A loop is its rounds, and a round goes on only with fewer tokens than it was given. -/
structure Repeats (loop : Nat → σ → Parser β) (round : (σ → Parser β) → σ → Parser β) :
    Prop where
  nil : ∀ k s, loop k s [] = loop 0 s []
  succ : ∀ k s, loop (k + 1) s = round (loop k) s
  fewer : ∀ {L L' : σ → Parser β} {s : σ} {ts : List Token},
    (∀ s' us, us.length < ts.length → L s' us = L' s' us) → round L s ts = round L' s ts

namespace Repeats

variable {loop : Nat → σ → Parser β} {round : (σ → Parser β) → σ → Parser β}

/-- Such a loop does the same for all rounds that are enough. -/
theorem enough (h : Repeats loop round) : ∀ {k k' : Nat} {s : σ} {ts : List Token},
    ts.length ≤ k → ts.length ≤ k' → loop k s ts = loop k' s ts := by
  intro k
  induction k with
  | zero =>
    intro k' s ts hk _
    rw [List.eq_nil_of_length_eq_zero (Nat.le_zero.mp hk)]
    exact (h.nil k' s).symm
  | succ k ih =>
    intro k' s ts hk hk'
    cases k' with
    | zero =>
      rw [List.eq_nil_of_length_eq_zero (Nat.le_zero.mp hk')]
      exact h.nil (k + 1) s
    | succ k' =>
      rw [h.succ, h.succ]
      exact h.fewer fun s' us hus => ih (by omega) (by omega)

/-- With a round for every token it is one round, and then itself. -/
theorem unroll (h : Repeats loop round) (s : σ) :
    (fun ts => loop ts.length s ts) = round (fun s ts => loop ts.length s ts) s := by
  funext ts
  rw [h.enough (Nat.le_refl _) (Nat.le_succ _), h.succ]
  exact h.fewer fun s' us hus => h.enough (Nat.le_of_lt hus) (Nat.le_refl _)

end Repeats

/-! ## Levels of operators -/

/-- All that operators of a level join to an operand. -/
def joined (ℓ : Level) (operand : Parser Tree) (left : Tree) : Parser Tree := fun ts =>
  joinLeft ℓ.isOperator ℓ.label operand ts.length left ts

/-- One operator of a level and its right operand, and then what `again` does. -/
def joinRound (ℓ : Level) (operand : Parser Tree) (again : Tree → Parser Tree) (left : Tree) :
    Parser Tree := do
  let op ← current
  if ℓ.isOperator op then
    let _ ← advance
    let right ← operand
    again (.node ℓ.label (some op.line) [left, .leaf op.leaf, right])
  else
    return left

/-- An operator is not the closing end. -/
theorem operator_inner {ℓ : Level} {t : Token} (h : ℓ.isOperator t = true) : t.kind ≠ .eof := by
  rcases isOperator_kind h with hk | hk <;> simp [hk]

/-- Joining operators is a loop of rounds, each of which takes an operator. -/
theorem joinLeft_repeats {ℓ : Level} {operand : Parser Tree} (hp : Lessens operand) :
    Repeats (joinLeft ℓ.isOperator ℓ.label operand) (joinRound ℓ operand) := by
  refine ⟨?_, fun _ _ => rfl, ?_⟩
  · exact fun k t => Syntax.joinLeft_stop (by cases ℓ <;> rfl) k t
  · intro L L' left ts h
    unfold joinRound
    rw [bind_run (current_run _), bind_run (current_run _)]
    split
    next hop =>
      refine bind_congr fun op us hadv => bind_congr fun right vs hright => h _ _ ?_
      exact Nat.lt_trans (hp hright) (advance_lessens hadv (operator_inner hop))
    next => rfl

/-- What operators of a level join is one round, and then the same again. -/
theorem joined_round {ℓ : Level} {operand : Parser Tree} (hp : Lessens operand) (left : Tree) :
    joined ℓ operand left = joinRound ℓ operand (joined ℓ operand) left :=
  (joinLeft_repeats hp).unroll left

/-- A level of operators is an operand and what is joined to it. -/
theorem leftGrouped_joined (ℓ : Level) (operand : Parser Tree) :
    leftGrouped ℓ.isOperator ℓ.label operand = operand >>= joined ℓ operand := by
  funext ts
  refine bind_congr fun left rest _ => ?_
  rw [bind_run (current_run _)]
  split
  next => rfl
  next hop => exact (Syntax.joinLeft_stop (by simpa using hop) _ left).symm

/-! ## Links -/

/-- All links that follow a tree. -/
def linked (expr : Parser Tree) (arguments : Parser (List Tree)) (target : Tree) : Parser Tree :=
  fun ts => links expr arguments ts.length target ts

/-- One link, and then what `again` does. -/
def linkRound (expr : Parser Tree) (arguments : Parser (List Tree)) (again : Tree → Parser Tree)
    (target : Tree) : Parser Tree := do
  let t ← current
  match t.kind with
  | .dot =>
    let _ ← advance
    let name ← expect .ident .propertyName
    again (.node .field (some name.line) [target, .leaf name.leaf])
  | .lsqb =>
    let _ ← advance
    let key ← expr
    let _ ← expectKind .rsqb
    again (.node .index (some t.line) [target, key])
  | .lpar =>
    let _ ← advance
    let args ← arguments
    let _ ← expectKind .rpar
    again (.node .call (some t.line) [target, .node .args none args])
  | _ => return target

/-- Linking is a loop of rounds, each of which takes a dot or a bracket. -/
theorem links_repeats {expr : Parser Tree} {args : Parser (List Tree)} (hp : Lessens expr)
    (ha : Shrinks args) : Repeats (links expr args) (linkRound expr args) := by
  refine ⟨?_, fun _ _ => rfl, ?_⟩
  · exact fun k t => Syntax.links_stop rfl k t
  · intro L L' target ts h
    unfold linkRound
    rw [bind_run (current_run _), bind_run (current_run _)]
    cases hk : (next ts).kind with
    | dot =>
      refine bind_congr fun _ us hadv => bind_congr fun name vs hname => h _ _ ?_
      exact Nat.lt_trans (expect_lessens (by decide) hname) (advance_lessens hadv (by simp [hk]))
    | lsqb =>
      refine bind_congr fun _ us hadv => bind_congr fun key vs hkey =>
        bind_congr fun _ ws hclose => h _ _ ?_
      exact Nat.lt_trans (expect_lessens (by decide) hclose)
        (Nat.lt_trans (hp hkey) (advance_lessens hadv (by simp [hk])))
    | lpar =>
      refine bind_congr fun _ us hadv => bind_congr fun as vs has =>
        bind_congr fun _ ws hclose => h _ _ ?_
      exact Nat.lt_trans (expect_lessens (by decide) hclose)
        (Nat.lt_of_le_of_lt (ha has) (advance_lessens hadv (by simp [hk])))
    | _ => rfl

/-- What links join to a target is one round, and then the same again. -/
theorem linked_round {expr : Parser Tree} {args : Parser (List Tree)} (hp : Lessens expr)
    (ha : Shrinks args) (target : Tree) :
    linked expr args target = linkRound expr args (linked expr args) target :=
  (links_repeats hp ha).unroll target

/-! ## Lists -/

/-- All items that follow commas. -/
def commaed (item : Parser Tree) : Parser (List Tree) := fun ts =>
  afterCommas item ts.length ts

/-- One item after a comma, and then what `again` does. -/
def commaRound (item : Parser Tree) (again : Parser (List Tree)) : Parser (List Tree) := do
  if ← accept .comma then
    let t ← item
    return t :: (← again)
  else
    return []

/-- Items after commas are a loop of rounds, each of which takes a comma. -/
theorem afterCommas_repeats {item : Parser Tree} (hp : Lessens item) :
    Repeats (fun k (_ : Unit) => afterCommas item k) fun again _ => commaRound item (again ()) := by
  refine ⟨?_, fun _ _ => rfl, ?_⟩
  · intro k _
    cases k <;> rfl
  · intro L L' _ ts h
    unfold commaRound
    refine bind_congr fun b us hb => ?_
    split
    next hcomma =>
      refine bind_congr fun t vs ht => ?_
      have hvs := Nat.lt_trans (hp ht) ((accept_shrinks hb (by decide)).2 hcomma)
      simp only [bind, StateT.bind, h () vs hvs]
    next => rfl

/-- They are one round, and then the same again. -/
theorem commaed_round {item : Parser Tree} (hp : Lessens item) :
    commaed item = commaRound item (commaed item) :=
  (afterCommas_repeats hp).unroll ()

/-- A list is an item and the items after commas. -/
theorem separated_commaed (item : Parser Tree) :
    separated item = item >>= fun t => commaed item >>= fun ts => pure (t :: ts) := by
  funext ts
  refine bind_congr fun t rest _ => ?_
  rw [bind_run (current_run _)]
  split
  next => rfl
  next hcomma =>
    -- without a comma there are no more items
    have : commaed item rest = .ok ([], rest) := by
      unfold commaed
      cases rest with
      | nil => rfl
      | cons u us =>
        rw [List.length_cons, afterCommas, bind_run (accept_other hcomma)]
        rfl
    rw [bind_run this]

/-- One property of an object, and then what `again` does. -/
def propertyRound (expr : Parser Tree) (again : Parser (List Tree)) : Parser (List Tree) := do
  let t ← current
  if t.kind = .rbrace ∨ t.kind = .eof then
    return []
  else
    let prop ← property expr
    if ← accept .comma then
      return prop :: (← again)
    else
      return [prop]

/-- All properties of an object. -/
def listed (expr : Parser Tree) : Parser (List Tree) := fun ts =>
  properties expr ts.length ts

/-- Properties are a loop of rounds, each of which takes a property. -/
theorem properties_repeats {expr : Parser Tree} (hp : Lessens (property expr)) :
    Repeats (fun k (_ : Unit) => properties expr k)
      fun again _ => propertyRound expr (again ()) := by
  refine ⟨?_, fun _ _ => rfl, ?_⟩
  · intro k _
    cases k <;> rfl
  · intro L L' _ ts h
    unfold propertyRound
    rw [bind_run (current_run _), bind_run (current_run _)]
    split
    next => rfl
    next =>
      refine bind_congr fun prop us hprop => bind_congr fun b vs hb => ?_
      split
      next hcomma =>
        have hvs := Nat.lt_trans ((accept_shrinks hb (by decide)).2 hcomma) (hp hprop)
        simp only [bind, StateT.bind, h () vs hvs]
      next => rfl

/-- They are one round, and then the same again. -/
theorem listed_round {expr : Parser Tree} (hp : Lessens (property expr)) :
    listed expr = propertyRound expr (listed expr) :=
  (properties_repeats hp).unroll ()

/-- All parameters that follow commas. -/
def named (seen : List String) : Parser (List Tree) := fun ts =>
  parametersAfter seen ts.length ts

/-- One parameter after a comma, and then what `again` does. -/
def parameterRound (again : List String → Parser (List Tree)) (seen : List String) :
    Parser (List Tree) := do
  if ← accept .comma then
    let p ← parameter seen
    return .leaf p :: (← again (p.text :: seen))
  else
    return []

/-- A parameter takes a name. -/
theorem parameter_lessens (seen : List String) : Lessens (parameter seen) := by
  intro ts rest p h
  obtain ⟨t, rfl, -⟩ := Syntax.parameter_reads h
  exact Nat.lt_succ_self rest.length

/-- Parameters after commas are a loop of rounds, each of which has seen one more name. -/
theorem parametersAfter_repeats :
    Repeats (fun k seen => parametersAfter seen k) parameterRound := by
  refine ⟨?_, fun _ _ => rfl, ?_⟩
  · intro k seen
    cases k <;> rfl
  · intro L L' seen ts h
    unfold parameterRound
    refine bind_congr fun b us hb => ?_
    split
    next hcomma =>
      refine bind_congr fun p vs hp => ?_
      have hvs := Nat.lt_trans (parameter_lessens seen hp)
        ((accept_shrinks hb (by decide)).2 hcomma)
      simp only [bind, StateT.bind, h _ vs hvs]
    next => rfl

/-- They are one round, and then the same again. -/
theorem named_round (seen : List String) : named seen = parameterRound named seen :=
  parametersAfter_repeats.unroll seen

/-! ## Statements -/

/-- One statement or semicolon, and then what `again` does. -/
def statementRound (isEnd : Kind → Bool) (statement : Parser Tree) (again : Parser (List Tree)) :
    Parser (List Tree) := do
  let t ← current
  if isEnd t.kind then
    return []
  else if t.kind = .semi then
    let _ ← advance
    again
  else
    let s ← statement
    return s :: (← again)

/-- Statements up to an end are a loop of rounds, each of which takes a statement or a semicolon. -/
theorem statementsUpTo_repeats {isEnd : Kind → Bool} {statement : Parser Tree}
    (hend : isEnd .eof = true) (hp : Lessens statement) :
    Repeats (fun k (_ : Unit) => statementsUpTo isEnd statement k)
      fun again _ => statementRound isEnd statement (again ()) := by
  refine ⟨?_, fun _ _ => rfl, ?_⟩
  · exact fun k _ => Syntax.statementsUpTo_stop hend _ k
  · intro L L' _ ts h
    unfold statementRound
    rw [bind_run (current_run _), bind_run (current_run _)]
    split
    next => rfl
    next =>
      split
      next hsemi =>
        exact bind_congr fun _ us hadv => h () us (advance_lessens hadv (by simp [hsemi]))
      next =>
        refine bind_congr fun s us hs => ?_
        simp only [bind, StateT.bind, h () us (hp hs)]

/-- They are one round, and then the same again. -/
theorem statements_round {isEnd : Kind → Bool} {statement : Parser Tree} (hend : isEnd .eof = true)
    (hp : Lessens statement) :
    statements isEnd statement = statementRound isEnd statement (statements isEnd statement) :=
  (statementsUpTo_repeats hend hp).unroll ()

end Avii.Parser
