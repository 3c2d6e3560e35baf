import Avii.Lalr.Basic

/-!
# Tables of LALR(1) parsers

From a grammar to the table of its LALR(1) parser. An item is a rule with a dot in its body; a state
is a set of items, those that the parser may be in the middle of. States with the same items are one
state. Where a variable starts in a state, the parser walks through the bodies of its rules and
comes to states where the rules end; what may follow the variable there may follow each of them.
Where a terminal can both be taken and end a rule, it is taken.

Items are numbered so that moving the dot adds one, hence moving the dots of a whole set is one
shift.
-/

namespace Avii.Lalr

/-- What a parser does on a terminal. -/
inductive Action where
  /-- Takes the terminal and goes to a state. -/
  | shift (state : Nat)
  /-- Replaces the body of a rule by its head. -/
  | reduce (rule : Nat)
deriving DecidableEq

/-- What a parser does in a state. -/
structure Row where
  /-- The states after each symbol. -/
  moves : List (Nat × Nat)
  /-- The rules that may end, each with the terminals that end it. -/
  ends : List (Nat × Bits)
deriving DecidableEq

/-- The table of a parser; it starts in state zero. -/
structure Table where
  rows : List Row
deriving DecidableEq

namespace Grammar

/-! ## States -/

/-- How many item numbers each rule has; bodies are shorter than this. -/
def stride : Nat := 16

/-- The number of an item. -/
def itemNumber (rule dot : Nat) : Nat :=
  rule * stride + dot

/-- How many item numbers there are. -/
def itemCount (g : Grammar) : Nat :=
  g.rules.length * stride

/-- The rules with their numbers. -/
def numbered (g : Grammar) : List (Nat × Rule) :=
  (List.range g.rules.length).zip g.rules

/-- For each of some symbols, the item that has it after the dot; the first item is given. -/
def itemsFrom (width item : Nat) : List Nat → Bits
  | [] => 0
  | x :: xs => Bits.place width x (Bits.single item) ||| itemsFrom width (item + 1) xs

/-- For each symbol, the items that have it after the dot. -/
def itemsBefore (g : Grammar) : Bits :=
  Bits.union (fun (p, r) => itemsFrom g.itemCount (itemNumber p 0) r.body) g.numbered

/-- For each variable, the items of its own rules with the dot in front. -/
def openings (g : Grammar) : Bits :=
  Bits.union (fun (p, r) => Bits.place g.itemCount r.head (Bits.single (itemNumber p 0)))
    g.numbered

/-- Adds to the openings of each variable those of the variables that its rules start with. -/
def growOpenings (g : Grammar) (opening : Bits) : Bits :=
  opening ||| Bits.union
    (fun r =>
      match r.body with
      | [] => 0
      | x :: _ => Bits.place g.itemCount r.head (Bits.block g.itemCount x opening))
    g.rules

/-- For each symbol, all items that may start where it starts. -/
def allOpenings (g : Grammar) : Bits :=
  Bits.grow g.growOpenings roundLimit g.openings

/-- What table construction looks up for each symbol: its number, the items that have it after the
dot, and the items that may start where it starts. -/
structure Entry where
  symbol : Nat
  before : Bits
  opening : Bits

/-- The entries of all symbols. -/
def entries (g : Grammar) : List Entry :=
  let before := g.itemsBefore
  let opening := g.allOpenings
  (List.range g.symbols).map fun x =>
    ⟨x, Bits.block g.itemCount x before, Bits.block g.itemCount x opening⟩

/-- A set of items with all that may start at its dots. -/
def close (entries : List Entry) (kernel : Bits) : Bits :=
  kernel ||| Bits.union (fun e => if kernel &&& e.before = 0 then 0 else e.opening) entries

/-- The moves from a closed set of items: for each symbol after a dot, the items past it. -/
def movesFrom (entries : List Entry) (closed : Bits) : List (Nat × Bits) :=
  entries.filterMap fun e =>
    let target := (closed &&& e.before) <<< 1
    if target = 0 then none else some (e.symbol, target)

/-- Moves with the numbers of their targets, and the states known then: a target that is not among
the states known before comes after them. -/
def numberTargets : List Bits → List (Nat × Bits) → List Bits × List (Nat × Nat)
  | states, [] => (states, [])
  | states, (x, target) :: rest =>
    match states.findIdx? (· == target) with
    | some n =>
      match numberTargets states rest with
      | (states', moves) => (states', (x, n) :: moves)
    | none =>
      match numberTargets (states ++ [target]) rest with
      | (states', moves) => (states', (x, states.length) :: moves)

/-- The moves from states in the order in which they are found, from number `done` on and at most a
number of them, given the states known so far. -/
def explore (entries : List Entry) : Nat → Nat → List Bits → List (List (Nat × Nat))
  | 0, _, _ => []
  | rounds + 1, done, states =>
    match states[done]? with
    | none => []
    | some kernel =>
      match numberTargets states (movesFrom entries (close entries kernel)) with
      | (states', moves) => moves :: explore entries rounds (done + 1) states'

/-- More states than a grammar of reasonable size has. -/
def stateLimit : Nat := 1000

/-- The moves from all states of a grammar. -/
def moves (g : Grammar) : List (List (Nat × Nat)) :=
  explore g.entries stateLimit 0 [Bits.single (itemNumber 0 0)]

/-- The state that a symbol leads to from a state. -/
def move? (moves : List (List (Nat × Nat))) (state symbol : Nat) : Option Nat :=
  moves[state]?.bind (·.lookup symbol)

/-! ## Terminals that may follow -/

/-- What a grammar says of its symbols and states, worked out once. -/
structure Facts where
  terminals : Nat
  heads : Nat
  nullable : Bits
  first : Bits
  rules : List (Nat × Rule)
  moves : List (List (Nat × Nat))

/-- The facts of a grammar. -/
def facts (g : Grammar) : Facts where
  terminals := g.terminals
  heads := g.symbols - g.terminals
  nullable := g.nullable
  first := g.first
  rules := g.numbered
  moves := g.moves

/-- What walks through the bodies of rules come across. An origin is a state and a variable that
starts in it, by number. -/
structure Walks where
  /-- For each origin, the terminals that come first after the variable. -/
  fresh : Bits
  /-- Two origins: what may follow the first may follow the second. -/
  links : List (Nat × Nat)
  /-- A state, the rule that ends in it, and the origin of the rule. -/
  ends : List (Nat × Nat × Nat)

namespace Facts

/-- The number of an origin. -/
def origin (f : Facts) (state head : Nat) : Nat :=
  state * f.heads + (head - f.terminals)

/-- The terminals that may come first in a list of symbols. -/
def firstOf (f : Facts) (symbols : List Nat) : Bits :=
  Grammar.firstOf f.terminals f.nullable f.first symbols

/-- Walks from a state through the rest of a rule's body. -/
def walk (f : Facts) (origin rule : Nat) : Nat → List Nat → Walks → Walks
  | state, [], w => { w with ends := (state, rule, origin) :: w.ends }
  | state, x :: rest, w =>
    let w :=
      if x < f.terminals then w
      else
        let here := f.origin state x
        { w with
          fresh := w.fresh ||| Bits.place f.terminals here (f.firstOf rest)
          links := if rest.all f.nullable.has then (origin, here) :: w.links else w.links }
    match move? f.moves state x with
    | none => w
    | some next => f.walk origin rule next rest w

/-- Walks through all rules of a variable that starts in a state. -/
def walkRules (f : Facts) (state head : Nat) (w : Walks) : Walks :=
  f.rules.foldl
    (fun w (p, r) => if r.head = head then f.walk (f.origin state head) p state r.body w else w) w

/-- Walks through the rules of all variables in all states; the head of the start rule starts in
state zero. -/
def walks (f : Facts) : Walks :=
  ((List.range f.moves.length).zip f.moves).foldl
    (fun w (state, moves) =>
      moves.foldl (fun w (x, _) => if x < f.terminals then w else f.walkRules state x w) w)
    (match f.rules with
      | [] => ⟨0, [], []⟩
      | (_, r) :: _ => f.walkRules 0 r.head ⟨0, [], []⟩)

/-- Hands what may follow origins on along links. -/
def handOn (f : Facts) (links : List (Nat × Nat)) (follow : Bits) : Bits :=
  links.foldr
    (fun (source, target) follow =>
      follow ||| Bits.place f.terminals target (Bits.block f.terminals source follow))
    follow

/-- For each origin, the terminals that may follow the variable. -/
def follow (f : Facts) (w : Walks) : Bits :=
  Bits.grow (f.handOn w.links) roundLimit w.fresh

/-- The number of a rule that ends in a state. -/
def ending (f : Facts) (state rule : Nat) : Nat :=
  state * f.rules.length + rule

/-- For each rule that ends in a state, the terminals that end it. -/
def endings (f : Facts) (w : Walks) (follow : Bits) : Bits :=
  Bits.union
    (fun (state, rule, origin) =>
      Bits.place f.terminals (f.ending state rule) (Bits.block f.terminals origin follow))
    w.ends

/-- The rules that may end in a state, each with the terminals that end it. -/
def endsAt (f : Facts) (endings : Bits) (state : Nat) : List (Nat × Bits) :=
  (List.range f.rules.length).filterMap fun rule =>
    let after := Bits.block f.terminals (f.ending state rule) endings
    if after = 0 then none else some (rule, after)

/-- The table of a parser. -/
def table (f : Facts) : Table :=
  let w := f.walks
  let endings := f.endings w (f.follow w)
  ⟨((List.range f.moves.length).zip f.moves).map fun (state, moves) =>
    ⟨moves, f.endsAt endings state⟩⟩

end Facts

/-! ## The table -/

/-- The table of the parser of a grammar. -/
def table (g : Grammar) : Table :=
  g.facts.table

end Grammar

namespace Table

/-- What the parser does in a state on a terminal. -/
def action? (t : Table) (state terminal : Nat) : Option Action :=
  match t.rows[state]? with
  | none => none
  | some row =>
    match row.moves.lookup terminal with
    | some s => some (.shift s)
    | none => (row.ends.find? fun e => e.2.has terminal).map fun e => .reduce e.1

/-- The state that follows a state once a variable has been read. -/
def goto? (t : Table) (state head : Nat) : Option Nat :=
  t.rows[state]?.bind fun row => row.moves.lookup head

/-- Does the parser have an action in a state on a terminal? -/
def accepts (t : Table) (state terminal : Nat) : Bool :=
  (t.action? state terminal).isSome

end Table

end Avii.Lalr
