import Avii.Grammar.Parse

/-!
# The table answers for the grammar

What a table-driven parser needs of its table is that it lets the parser walk through the body of
every rule that may start in a state, and end the rule there on whatever may come next (`Fits`).
Which terminals a variable may start with, and which may follow it in a state, is evidence that
comes along with the table: it need not be as small as it could be, only closed under the rules.
And it must let the parser end a rule only where the body of the rule has been read (`Sound`): the
last symbols on every path to a state are known (`Led`).

The table is built by a computation, so this is a matter of running a check on what was built
(`table_checked`), once; how the table comes about plays no part. A terminal that can both be taken
and end a rule is taken, and the grammar has such places: a chain goes on where it can. The rule
that ends a chain is therefore not asked to end before `(` or `[` (`Rule.refuses`).
-/

namespace Avii.Grammar

open Lalr (Bits)

/-! ## What is asked of the table -/

/-- Must the rule not be followed by a terminal? The operand that is a chain ends where the chain
cannot go on. -/
def Rule.refuses (r : Rule) (a : Terminal) : Bool :=
  r.head = .power && r.body = [.v .chain] && (a = .lpar || a = .lsqb)

section Evidence

variable (t : Lalr.Table) (first : Variable → Bits) (follow : Nat → Variable → Bits)

/-- The terminals that a symbol may start with. -/
def Starts : Symbol → Terminal → Prop
  | .t b, a => a = b
  | .v head, a => (first head).has a.code = true

/-- The terminals that may come where the rest of a body is to be read; after its end, those that
may come after the rule. -/
def Opens (after : Terminal → Prop) : List Symbol → Terminal → Prop
  | [], a => after a
  | x :: _, a => Starts first x a

/-- From a state the parser can walk through some symbols, and a state in which it is `done` is
where that ends; what comes after a variable on the way may follow it in the state it starts in. -/
def Fits (done : Nat → Prop) (after : Terminal → Prop) : Nat → List Symbol → Prop
  | state, [] => done state
  | state, x :: rest =>
    (∀ head, x = .v head → ∀ a, Opens first after rest a →
      (follow state head).has a.code = true) ∧
    ∃ next, t.goto? state x.code = some next ∧ Fits done after next rest

/-- A table answers for the grammar. -/
structure Certified : Prop where
  /-- A variable starts with what the bodies of its rules start with. -/
  starts : ∀ r ∈ rules, ∀ x rest, r.body = x :: rest → ∀ a, Starts first x a →
    Starts first (.v r.head) a
  /-- Every rule of a variable that may start in a state can be read and ended. -/
  fits : ∀ state next p r, t.goto? state r.head.code = some next → rules[p]? = some r →
    r.body ≠ [] →
    Fits t first follow
      (fun final => ∀ a : Terminal, (follow state r.head).has a.code = true → r.refuses a = false →
        t.action? final a.code = some (.reduce p))
      (fun a => (follow state r.head).has a.code = true) state r.body
  /-- A program can be read from the first state, and then the end of the text is taken. -/
  root : Fits t first follow
    (fun final => ∃ state, t.action? final Terminal.finish.code = some (.shift state))
    (· = .finish) 0 [.v .start]
  /-- An empty program ends before it starts. -/
  empty : ∃ p r, t.action? 0 Terminal.finish.code = some (.reduce p) ∧ rules[p]? = some r ∧
    r.head = .start ∧ r.body = [] ∧ r.shape = .node .program

end Evidence

/-- Whatever path leads to a state, the last symbols on it are the given ones, the last first. -/
def Led (t : Lalr.Table) : List Symbol → Nat → Prop
  | [], _ => True
  | x :: xs, state =>
    state ≠ 0 ∧ ∀ before a, t.goto? before a = some state → a = x.code ∧ Led t xs before

/-- A table lets rules end only where their bodies have been read. -/
structure Sound (t : Lalr.Table) : Prop where
  /-- Nothing leads back to the first state. -/
  first : ∀ state a, t.goto? state a ≠ some 0
  /-- A program starts in the first state only. -/
  start : ∀ state next, t.goto? state (Symbol.v .start).code = some next → state = 0
  /-- The end of the text is taken after a program only. -/
  finish : ∀ state next, t.action? state Terminal.finish.code = some (.shift next) →
    Led t [.v .start] state
  /-- A rule ends where its body has been read, and not before a terminal that it refuses; the
  start rule never does. -/
  ends : ∀ state p r, ∀ a : Terminal, t.action? state a.code = some (.reduce p) →
    rules[p]? = some r → r.body ≠ [] →
    Led t r.body.reverse state ∧ r.refuses a = false ∧ r.head ≠ .root
  /-- The rule without a body ends where the text ends before it has started. -/
  empty : ∀ state p r, ∀ a : Terminal, t.action? state a.code = some (.reduce p) →
    rules[p]? = some r → r.body = [] → state = 0 ∧ a = .finish

/-! ## The check -/

/-- Is one set part of another? -/
def within (a b : Bits) : Bool :=
  a ||| b == b

/-- A set within another has no other elements. -/
theorem has_of_within {a b : Bits} (h : within a b = true) {n : Nat} (hn : a.has n = true) :
    b.has n = true := by
  have hor : a ||| b = b := by simpa [within] using h
  unfold Bits.has at hn ⊢
  rw [← hor, Nat.testBit_or, hn, Bool.true_or]

/-- The set of the terminals that a rule must not be followed by. -/
def Rule.refused (r : Rule) : Bits :=
  if r.head = .power && r.body = [.v .chain] then
    Bits.single Terminal.lpar.code ||| Bits.single Terminal.lsqb.code
  else 0

theorem refused_has (r : Rule) (a : Terminal) : r.refused.has a.code = r.refuses a := by
  unfold Rule.refused Rule.refuses
  by_cases h : (decide (r.head = .power) && decide (r.body = [.v .chain])) = true
  · rw [if_pos h, h]
    cases a <;> rfl
  · rw [if_neg h]
    rw [Bool.not_eq_true] at h
    rw [h, Bool.false_and]
    exact Nat.zero_testBit _

/-- Does a rule end in a state on all terminals of a set, but for those that it refuses? Then
none of them is taken there, and it comes first among the rules that may end. -/
def endsOn (t : Lalr.Table) (p : Nat) (after refused : Bits) (state : Nat) : Bool :=
  match t.rows[state]? with
  | none => false
  | some row =>
    row.moves.all (fun m => !after.has m.1 || refused.has m.1) &&
    match row.ends with
    | [] => within after refused
    | (q, ends) :: _ => q == p && within after (ends ||| refused)

/-- Where a rule is checked to end, the table reduces by it before every terminal that may
follow. -/
theorem endsOn_sound {t : Lalr.Table} {p state : Nat} {after refused : Bits}
    (h : endsOn t p after refused state = true) {a : Nat} (ha : after.has a = true)
    (hr : refused.has a = false) : t.action? state a = some (.reduce p) := by
  unfold endsOn at h
  cases hrow : t.rows[state]? with
  | none => simp [hrow] at h
  | some row =>
    simp only [hrow, Bool.and_eq_true, List.all_eq_true] at h
    obtain ⟨hmoves, hends⟩ := h
    have hlookup : row.moves.lookup a = none := by
      -- the terminal is in the set and not refused, so it is none of those that can be taken
      rw [List.lookup_eq_none_iff]
      intro m hm
      have := hmoves m hm
      rw [bne_iff_ne]
      rintro rfl
      simp [ha, hr] at this
    unfold Lalr.Table.action?
    simp only [hrow, hlookup]
    split at hends
    next heq =>
      -- no rule ends here, so there is nothing to end on
      have := has_of_within hends ha
      rw [hr] at this
      cases this
    next q ends more heq =>
      rw [Bool.and_eq_true, beq_iff_eq] at hends
      have hin := has_of_within hends.2 ha
      unfold Bits.has at hin hr
      rw [Nat.testBit_or, hr, Bool.or_false] at hin
      rw [heq, List.find?_cons_of_pos (by exact hin), hends.1]
      rfl

section Evidence

variable (t : Lalr.Table) (first : Variable → Bits) (follow : Nat → Variable → Bits)

/-- The set of the terminals that a symbol may start with. -/
def startSet : Symbol → Bits
  | .t b => Bits.single b.code
  | .v head => first head

/-- The set of the terminals that may come where the rest of a body is to be read. -/
def openSet (after : Bits) : List Symbol → Bits
  | [] => after
  | x :: _ => startSet first x

/-- Can the parser walk through some symbols? -/
def fits (done : Nat → Bool) (after : Bits) : Nat → List Symbol → Bool
  | state, [] => done state
  | state, x :: rest =>
    (match x with
      | .t _ => true
      | .v head => within (openSet first after rest) (follow state head)) &&
    match t.goto? state x.code with
    | none => false
    | some next => fits done after next rest

/-- Does a variable start with what its rules start with? -/
def startsChecked : Bool :=
  rules.all fun r =>
    match r.body with
    | [] => true
    | x :: _ => within (startSet first x) (first r.head)

/-- Can every rule of a variable that may start in a state be read and ended? -/
def rulesChecked : Bool :=
  (List.range t.rows.length).all fun state =>
    rules.zipIdx.all fun (r, p) =>
      match t.goto? state r.head.code, r.body with
      | none, _ | _, [] => true
      | some _, body =>
        fits t first follow (endsOn t p (follow state r.head) r.refused) (follow state r.head)
          state body

/-- Can a program be read from the first state? -/
def rootChecked : Bool :=
  fits t first follow
    (fun final => ((t.goto? final Terminal.finish.code)).isSome)
    (Bits.single Terminal.finish.code) 0 [.v .start]

/-- Does an empty program end before it starts? -/
def emptyChecked : Bool :=
  match t.action? 0 Terminal.finish.code with
  | some (.reduce p) =>
    match rules[p]? with
    | some r => r.head = .start && r.body = [] && r.shape = .node .program
    | none => false
  | _ => false

/-- Does the table answer for the grammar? -/
def checked : Bool :=
  startsChecked first && rulesChecked t first follow && rootChecked t first follow &&
    emptyChecked t

end Evidence

/-- The moves of a table: a state, a symbol, and the state that it leads to. -/
def movesOf (t : Lalr.Table) : List (Nat × Nat × Nat) :=
  t.rows.zipIdx.flatMap fun (row, state) => row.moves.map fun (a, next) => (state, a, next)

/-- Do the last symbols on every path to a state agree with some, the last first? -/
def led (moves : List (Nat × Nat × Nat)) : List Nat → Nat → Bool
  | [], _ => true
  | x :: xs, state =>
    !Nat.beq state 0 &&
      moves.all fun m => !Nat.beq m.2.2 state || (Nat.beq m.2.1 x && led moves xs m.1)

/-- Is a move none that should not be there? -/
def moveChecked (moves : List (Nat × Nat × Nat)) (m : Nat × Nat × Nat) : Bool :=
  m.2.2 != 0 && (m.2.1 != (Symbol.v .start).code || m.1 == 0) &&
    (m.2.1 != Terminal.finish.code || led moves [(Symbol.v .start).code] m.1)

/-- Does a rule end in a state only where it should? -/
def endChecked (moves : List (Nat × Nat × Nat)) (row : Lalr.Row) (state : Nat)
    (e : Nat × Bits) : Bool :=
  match rules[e.1]? with
  | none => true
  | some r =>
    if r.body = [] then state == 0 && within e.2 (Bits.single Terminal.finish.code)
    else
      r.head != .root && led moves (r.body.reverse.map Symbol.code) state &&
        Terminal.all.all fun a => !r.refuses a || (row.moves.lookup a.code).isSome

/-- Does a table let rules end only where they should? -/
def soundChecked (t : Lalr.Table) : Bool :=
  let moves := movesOf t
  moves.all (moveChecked moves) &&
    t.rows.zipIdx.all fun (row, state) => row.ends.all (endChecked moves row state)

/-! ## What the check says -/

/-- Terminals have codes of their own. -/
theorem code_injective {a b : Terminal} (h : a.code = b.code) : a = b := by
  rw [← Terminal.ofNat_ctorIdx a, ← Terminal.ofNat_ctorIdx b]
  exact congrArg Terminal.ofNat h

theorem single_has {n m : Nat} : (Bits.single n).has m = true ↔ m = n := by
  unfold Bits.has Bits.single
  rw [Nat.one_shiftLeft, Nat.testBit_two_pow, decide_eq_true_iff]
  exact eq_comm

/-- The start set of a symbol has the terminals that it may start with. -/
theorem startSet_has {first : Variable → Bits} {x : Symbol} {a : Terminal} :
    (startSet first x).has a.code = true ↔ Starts first x a := by
  cases x with
  | t b =>
    refine single_has.trans ⟨code_injective, ?_⟩
    rintro rfl
    rfl
  | v head => exact Iff.rfl

/-- The open set has the terminals that may come next. -/
theorem openSet_has {first : Variable → Bits} {after : Bits} {P : Terminal → Prop}
    (hafter : ∀ a, P a → after.has a.code = true) {rest : List Symbol} {a : Terminal}
    (h : Opens first P rest a) : (openSet first after rest).has a.code = true := by
  cases rest with
  | nil => exact hafter a h
  | cons x rest => exact startSet_has.mpr h

/-- Where a body is checked to fit, the table leads through it. -/
theorem fits_sound {t : Lalr.Table} {first : Variable → Bits} {follow : Nat → Variable → Bits}
    {done : Nat → Bool} {after : Bits} {Q : Nat → Prop} {P : Terminal → Prop}
    (hdone : ∀ state, done state = true → Q state)
    (hafter : ∀ a, P a → after.has a.code = true) :
    ∀ {body : List Symbol} {state : Nat},
      fits t first follow done after state body = true → Fits t first follow Q P state body
  | [], state, h => hdone state h
  | x :: rest, state, h => by
    simp only [fits, Bool.and_eq_true] at h
    obtain ⟨hfollow, hnext⟩ := h
    refine ⟨?_, ?_⟩
    · rintro head rfl a ha
      exact has_of_within hfollow (openSet_has hafter ha)
    · cases hgoto : t.goto? state x.code with
      | none => simp [hgoto] at hnext
      | some next =>
        rw [hgoto] at hnext
        exact ⟨next, rfl, fits_sound hdone hafter hnext⟩

/-- What can be moved over by a terminal is taken. -/
theorem action?_of_goto? {t : Lalr.Table} {state a next : Nat} (h : t.goto? state a = some next) :
    t.action? state a = some (.shift next) := by
  unfold Lalr.Table.goto? at h
  unfold Lalr.Table.action?
  cases hrow : t.rows[state]? with
  | none => simp [hrow] at h
  | some row =>
    rw [hrow, Option.bind_some] at h
    simp only [h]

/-- What passes the check is certified. -/
theorem certified_of_checked {t : Lalr.Table} {first : Variable → Bits}
    {follow : Nat → Variable → Bits} (h : checked t first follow = true) :
    Certified t first follow := by
  unfold checked at h
  simp only [Bool.and_eq_true] at h
  obtain ⟨⟨⟨hstarts, hrules⟩, hroot⟩, hempty⟩ := h
  refine ⟨?_, ?_, ?_, ?_⟩
  · intro r hr x rest hbody a ha
    have hwithin := List.all_eq_true.mp hstarts r hr
    simp only [hbody] at hwithin
    exact has_of_within hwithin (startSet_has.mpr ha)
  · intro state next p r hgoto hp hbody
    have hstate : state < t.rows.length := by
      -- a state that something leads out of is one of the table's
      refine Nat.lt_of_not_le fun hlarge => ?_
      unfold Lalr.Table.goto? at hgoto
      rw [List.getElem?_eq_none hlarge] at hgoto
      cases hgoto
    have hrule := List.all_eq_true.mp
      (List.all_eq_true.mp hrules state (List.mem_range.mpr hstate)) (r, p)
      (List.mem_zipIdx_iff_getElem?.mpr hp)
    simp only [hgoto] at hrule
    refine fits_sound ?_ (fun a ha => ha) hrule
    intro final hends a ha hrefuses
    exact endsOn_sound hends ha (by rw [refused_has, hrefuses])
  · refine fits_sound ?_ (fun a ha => single_has.mpr (congrArg Terminal.code ha)) hroot
    intro final hfinal
    obtain ⟨state, hstate⟩ := Option.isSome_iff_exists.mp hfinal
    exact ⟨state, action?_of_goto? hstate⟩
  · unfold emptyChecked at hempty
    split at hempty
    next p hp =>
      split at hempty
      next r hr =>
        simp only [Bool.and_eq_true, decide_eq_true_eq] at hempty
        exact ⟨p, r, hp, hr, hempty.1.1, hempty.1.2, hempty.2⟩
      next => cases hempty
    next => cases hempty

theorem mem_of_lookup {α β : Type} [BEq α] [LawfulBEq α] {a : α} {b : β} {xs : List (α × β)}
    (h : xs.lookup a = some b) : (a, b) ∈ xs := by
  induction xs with
  | nil => cases h
  | cons x xs ih =>
    rw [List.lookup_cons] at h
    by_cases hx : (a == x.1) = true
    · rw [hx] at h
      rw [eq_of_beq hx, ← Option.some.inj h]
      exact List.mem_cons_self
    · rw [Bool.not_eq_true] at hx
      rw [hx] at h
      exact List.mem_cons_of_mem x (ih h)

/-- Every move of the table is listed. -/
theorem mem_movesOf {t : Lalr.Table} {state a next : Nat} (h : t.goto? state a = some next) :
    (state, a, next) ∈ movesOf t := by
  obtain ⟨row, hrow, hlookup⟩ := Option.bind_eq_some_iff.mp h
  refine List.mem_flatMap.mpr ⟨(row, state), List.mem_zipIdx_iff_getElem?.mpr hrow, ?_⟩
  exact List.mem_map.mpr ⟨(a, next), mem_of_lookup hlookup, rfl⟩

/-- Where symbols are checked to lead to a state, they do. -/
theorem led_sound {t : Lalr.Table} : ∀ {xs : List Symbol} {state : Nat},
    led (movesOf t) (xs.map Symbol.code) state = true → Led t xs state
  | [], _, _ => trivial
  | x :: xs, state, h => by
    simp only [List.map_cons, led, Bool.and_eq_true, List.all_eq_true] at h
    refine ⟨?_, fun before a hgoto => ?_⟩
    · rintro rfl
      exact absurd h.1 (by decide)
    · have hmove := h.2 _ (mem_movesOf hgoto)
      simp only [Nat.beq_refl, Bool.not_true, Bool.false_or, Bool.and_eq_true, Nat.beq_eq] at hmove
      exact ⟨hmove.1, led_sound hmove.2⟩

/-- What the parser takes moves it over, and a rule ends that may end there. -/
theorem action?_cases {t : Lalr.Table} {state a : Nat} {action : Lalr.Action}
    (h : t.action? state a = some action) : ∃ row, t.rows[state]? = some row ∧
      ((∃ next, t.goto? state a = some next ∧ action = .shift next) ∨
        ∃ e ∈ row.ends, row.moves.lookup a = none ∧ e.2.has a = true ∧ action = .reduce e.1) := by
  unfold Lalr.Table.action? at h
  cases hrow : t.rows[state]? with
  | none => simp [hrow] at h
  | some row =>
    refine ⟨row, rfl, ?_⟩
    cases hlookup : row.moves.lookup a with
    | some next =>
      simp only [hrow, hlookup, Option.some.injEq] at h
      refine .inl ⟨next, ?_, h.symm⟩
      rw [Lalr.Table.goto?, hrow, Option.bind_some, hlookup]
    | none =>
      simp only [hrow, hlookup] at h
      obtain ⟨e, he, rfl⟩ := Option.map_eq_some_iff.mp h
      exact .inr ⟨e, List.mem_of_find?_eq_some he, rfl, by simpa using List.find?_some he, rfl⟩

/-- What passes the check of its entries is sound. -/
theorem sound_of_checked {t : Lalr.Table} (h : soundChecked t = true) : Sound t := by
  unfold soundChecked at h
  simp only [Bool.and_eq_true] at h
  obtain ⟨hmoves, hends⟩ := h
  have hmove : ∀ {state a next : Nat}, t.goto? state a = some next →
      moveChecked (movesOf t) (state, a, next) = true := fun hgoto =>
    List.all_eq_true.mp hmoves _ (mem_movesOf hgoto)
  have hend : ∀ {state p : Nat} {r : Rule} {a : Nat},
      t.action? state a = some (.reduce p) → rules[p]? = some r → ∃ row bits,
        row.moves.lookup a = none ∧ bits.has a = true ∧
        endChecked (movesOf t) row state (p, bits) = true := by
    intro state p r a haction hp
    obtain ⟨row, hrow, ⟨next, -, hshift⟩ | ⟨e, he, hlookup, hbits, hreduce⟩⟩ :=
      action?_cases haction
    · cases hshift
    · cases hreduce
      have hrow' := List.all_eq_true.mp hends (row, state) (List.mem_zipIdx_iff_getElem?.mpr hrow)
      exact ⟨row, e.2, hlookup, hbits, List.all_eq_true.mp hrow' e he⟩
  unfold moveChecked at hmove
  unfold endChecked at hend
  simp only [Bool.and_eq_true, Bool.or_eq_true, bne_iff_ne, beq_iff_eq] at hmove
  refine ⟨?_, ?_, ?_, ?_, ?_⟩
  · exact fun state a hgoto => (hmove hgoto).1.1 rfl
  · exact fun state next hgoto => (hmove hgoto).1.2.resolve_left fun hne => hne rfl
  · intro state next haction
    obtain ⟨-, -, ⟨next', hgoto, -⟩ | ⟨e, -, -, -, hreduce⟩⟩ := action?_cases haction
    · exact led_sound ((hmove hgoto).2.resolve_left fun hne => hne rfl)
    · cases hreduce
  · intro state p r a haction hp hbody
    obtain ⟨row, bits, hlookup, -, hchecked⟩ := hend haction hp
    simp only [hp, if_neg hbody, Bool.and_eq_true, bne_iff_ne, List.all_eq_true,
      Bool.or_eq_true] at hchecked
    obtain ⟨⟨hroot, hled⟩, hrefused⟩ := hchecked
    refine ⟨led_sound hled, ?_, hroot⟩
    -- a terminal that the rule refuses is taken, so nothing ends on it
    cases hrefuses : r.refuses a with
    | false => rfl
    | true =>
      have hall : a ∈ Terminal.all := by cases a <;> decide
      rcases hrefused a hall with hnot | htaken
      · rw [hrefuses] at hnot
        cases hnot
      · rw [hlookup] at htaken
        cases htaken
  · intro state p r a haction hp hbody
    obtain ⟨row, bits, -, hbits, hchecked⟩ := hend haction hp
    simp only [hp, if_pos hbody, Bool.and_eq_true, beq_iff_eq] at hchecked
    exact ⟨hchecked.1, code_injective (single_has.mp (has_of_within hchecked.2 hbits))⟩

/-- The table stands both checks, with the sets that it was built from. -/
theorem table_checked :
    (checked table (fun head => Bits.block Terminal.count head.code coded.first)
      (fun state head => Bits.block Terminal.count (state * Variable.count + head.ctorIdx)
        (coded.facts.follow coded.facts.walks)) &&
      soundChecked table) = true := by
  -- the checks are one computation on closed terms, which the kernel runs
  decide +kernel

/-- The table answers for the grammar. -/
theorem certified : ∃ first follow, Certified table first follow :=
  ⟨_, _, certified_of_checked (Bool.and_eq_true_iff.mp table_checked).1⟩

/-- The table lets rules end only where they should. -/
theorem table_sound : Sound table :=
  sound_of_checked (Bool.and_eq_true_iff.mp table_checked).2

end Avii.Grammar
