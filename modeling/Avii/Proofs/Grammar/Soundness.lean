import Avii.Proofs.Grammar.Completeness

/-!
# The parser finds nothing but derivations

What the parser ends up with when it has taken all lexemes of a text is derived from them
(`finish_derives`): the converse of `program_finishes`.

A state knows the last symbols that led to it. So a rule that ends in a state finds the symbols of
its body on top of the stack, whatever path led there (`Stacked.pop`), and what these were derived
from is what its head is derived from. That is an invariant of the stack: each frame stands for a
symbol, derived from lexemes that follow on those of the frame below (`Stacked`).
-/

namespace Avii.Grammar

/-! ## Symbols by number -/

theorem symbol_code_injective {x y : Symbol} (h : x.code = y.code) : x = y := by
  have hterminal : ∀ a : Terminal, a.code < Terminal.count := by
    intro a
    cases a <;> decide
  have hvariable : ∀ head : Variable, Terminal.count ≤ head.code := fun head => Nat.le_add_right ..
  cases x with
  | t a =>
    cases y with
    | t b => exact congrArg Symbol.t (code_injective h)
    | v head => exact absurd h (Nat.ne_of_lt (Nat.lt_of_lt_of_le (hterminal a) (hvariable head)))
  | v head =>
    cases y with
    | t b => exact absurd h.symm (Nat.ne_of_lt (Nat.lt_of_lt_of_le (hterminal b) (hvariable head)))
    | v other =>
      have hidx : head.ctorIdx = other.ctorIdx := Nat.add_left_cancel h
      rw [← Variable.ofNat_ctorIdx head, hidx, Variable.ofNat_ctorIdx]

/-- The rule without a body is that of the empty program. -/
theorem rule_without_body : ∀ r ∈ rules, r.body = [] → r = ⟨.start, [], .node .program⟩ := by
  decide

/-- A program is part of the start rule only. -/
theorem start_not_in_body : ∀ r ∈ rules, r.head ≠ .root → Symbol.v .start ∉ r.body.reverse := by
  decide

/-- The rule of a program that is not empty. -/
theorem rule_of_start : ∀ r ∈ rules, r.head = .start → r.body ≠ [] → r.shape = .node .program := by
  decide

/-! ## Stacks -/

/-- A symbol is derived from lexemes, or is the program that there are none of. -/
def Derived (x : Symbol) (ls : List Lexeme) (ps : List Parse) (rest : List Lexeme) : Prop :=
  Yields [x] ls ps rest ∨ x = .v .start ∧ ps = [.node .program []] ∧ ls = rest

/-- The frames of a stack stand for some symbols, the last first, which are derived from the
lexemes of a list up to a rest. -/
inductive Stacked (t : Lalr.Table) (ls : List Lexeme) :
    Stack → List Symbol → List Lexeme → Prop where
  | initial : Stacked t ls .initial [] ls
  | push {s : Stack} {xs : List Symbol} {mid rest : List Lexeme} {x : Symbol} {ps : List Parse}
      {state : Nat} (h : Stacked t ls s xs mid) (hgoto : t.goto? s.top x.code = some state)
      (hx : Derived x mid ps rest) : Stacked t ls (⟨state, ps.reverse⟩ :: s) (x :: xs) rest

section Runs

variable {t : Lalr.Table} {ls rest : List Lexeme} {s u : Stack} {xs ys : List Symbol}

/-- The first state is only at the bottom of a stack. -/
theorem Stacked.initial_of_top (ht : Sound t) (h : Stacked t ls s xs rest) (htop : s.top = 0) :
    s = .initial ∧ ls = rest := by
  cases h with
  | initial => exact ⟨rfl, rfl⟩
  | @push _ _ _ _ _ _ state _ hgoto _ =>
    have hstate : state = 0 := htop
    rw [hstate] at hgoto
    exact absurd hgoto (ht.first _ _)

/-- The frames of the symbols that led to the state on top come off the stack. -/
theorem Stacked.pop (h : Stacked t ls s xs rest) (hled : Led t ys s.top)
    (hys : Symbol.v .start ∉ ys) : ∃ fs below zs mid ps, s = fs ++ below ∧ fs.length = ys.length ∧
      Stack.parts fs = ps.reverse ∧ Stacked t ls below zs mid ∧ Yields ys.reverse mid ps rest := by
  induction ys generalizing s xs rest with
  | nil => exact ⟨[], s, xs, rest, [], rfl, rfl, rfl, h, .nil⟩
  | cons y ys ih =>
    obtain ⟨hne, hbefore⟩ := hled
    rw [List.mem_cons, not_or] at hys
    cases h with
    | initial => exact absurd rfl hne
    | @push s xs mid rest x ps state h hgoto hx =>
      obtain ⟨hcode, hled⟩ := hbefore _ _ hgoto
      obtain rfl := symbol_code_injective hcode
      have hyields : Yields [x] mid ps rest := hx.resolve_right fun hstart => hys.1 hstart.1.symm
      obtain ⟨fs, below, zs, first, qs, rfl, hlen, hparts, hbelow, hbody⟩ := ih h hled hys.2
      refine ⟨⟨state, ps.reverse⟩ :: fs, below, zs, first, qs ++ ps, rfl, ?_, ?_, hbelow, ?_⟩
      · rw [List.length_cons, List.length_cons, hlen]
      · rw [stackParts_cons, hparts, List.reverse_append]
      · rw [List.reverse_cons]
        exact hbody.append hyields

/-- A rule without a body makes the empty program of the initial stack. -/
theorem Stacked.reduce_empty (ht : Sound t) (h : Stacked t ls s xs rest) {r : Rule} {s' : Stack}
    (hr : r ∈ rules) (hbody : r.body = []) (htop : s.top = 0) (hs' : s.reduce? t r = some s') :
    ∃ ys, Stacked t ls s' ys rest := by
  obtain ⟨rfl, rfl⟩ := h.initial_of_top ht htop
  obtain rfl := rule_without_body r hr hbody
  obtain ⟨state, hgoto, rfl⟩ := Option.map_eq_some_iff.mp hs'
  exact ⟨_, h.push (x := .v .start) hgoto (.inr ⟨rfl, rfl, rfl⟩)⟩

/-- A rule that ends takes the frames of its body for what its head is derived from. -/
theorem Stacked.reduce (ht : Sound t) (h : Stacked t ls s xs rest) {p : Nat} {r : Rule}
    {s' : Stack} (ha : t.action? s.top (upcoming rest).code = some (.reduce p))
    (hp : rules[p]? = some r) (hs' : s.reduce? t r = some s') : ∃ ys, Stacked t ls s' ys rest := by
  have hr : r ∈ rules := List.mem_of_getElem? hp
  by_cases hbody : r.body = []
  · obtain ⟨htop, -⟩ := ht.empty _ p r _ ha hp hbody
    exact h.reduce_empty ht hr hbody htop hs'
  · obtain ⟨hled, hrefuses, hroot⟩ := ht.ends _ p r _ ha hp hbody
    obtain ⟨fs, below, zs, mid, ps, rfl, hlen, hparts, hbelow, hyields⟩ :=
      h.pop hled (start_not_in_body r hr hroot)
    rw [List.length_reverse] at hlen
    rw [List.reverse_reverse] at hyields
    obtain ⟨state, hgoto, -⟩ := Option.map_eq_some_iff.mp hs'
    rw [← hlen, List.drop_left] at hgoto
    rw [reduce?_frames hlen hparts hgoto] at hs'
    cases hs'
    have hhead := Yields.rule hr hbody hyields hrefuses .nil
    rw [List.append_nil] at hhead
    exact ⟨_, hbelow.push (x := .v r.head) hgoto (.inl hhead)⟩

/-- Rules that end before a terminal is taken keep the invariant. -/
theorem Stacked.settle (ht : Sound t) (h : Stacked t ls s xs rest) {n state : Nat}
    (hs : Stack.settle t (upcoming rest) n s = some (u, state)) :
    (∃ ys, Stacked t ls u ys rest) ∧
      t.action? u.top (upcoming rest).code = some (.shift state) := by
  induction n generalizing s xs with
  | zero => cases hs
  | succ n ih =>
    rw [Stack.settle] at hs
    split at hs
    next => cases hs
    next next haction =>
      cases hs
      exact ⟨⟨xs, h⟩, haction⟩
    next p haction =>
      split at hs
      next => cases hs
      next r hp =>
        split at hs
        next => cases hs
        next s' hs' =>
          obtain ⟨ys, hys⟩ := h.reduce ht haction hp hs'
          exact ih hys hs

theorem goto?_of_shift {state next : Nat} {a : Nat}
    (h : t.action? state a = some (.shift next)) : t.goto? state a = some next := by
  obtain ⟨row, -, ⟨next', hgoto, hshift⟩ | ⟨e, -, -, -, hreduce⟩⟩ := action?_cases h
  · cases hshift
    exact hgoto
  · cases hreduce

/-- A lexeme that is taken becomes a frame. -/
theorem Stacked.take (ht : Sound t) {l : Lexeme} (h : Stacked t ls s xs (l :: rest))
    (hs : s.take? t l = some u) : ∃ ys, Stacked t ls u ys rest := by
  obtain ⟨⟨below, state⟩, hsettle, rfl⟩ := Option.map_eq_some_iff.mp hs
  obtain ⟨⟨ys, hys⟩, hshift⟩ := h.settle ht hsettle
  have hterminal := Yields.terminal (l := l) (@Yields.nil rest)
  rw [List.append_nil] at hterminal
  have hpush := hys.push (x := .t l.terminal) (goto?_of_shift hshift) (.inl hterminal)
  rw [parts_reverse] at hpush
  exact ⟨_, hpush⟩

theorem Stacked.takes (ht : Sound t) {mid : List Lexeme} (h : Stacked t ls s xs mid)
    (htakes : Takes t s mid u rest) : ∃ ys, Stacked t ls u ys rest := by
  induction htakes generalizing xs with
  | refl => exact ⟨xs, h⟩
  | step hl _ ih =>
    obtain ⟨ys, hys⟩ := h.take ht hl
    exact ih hys

/-- A program is one node. -/
theorem yields_start {ps : List Parse} (h : Yields [.v .start] ls ps rest) : ∃ p, ps = [p] := by
  generalize hx : [Symbol.v .start] = zs at h
  cases h with
  | nil => cases hx
  | terminal => cases hx
  | rule hr hbody _ _ hrest =>
    obtain ⟨hhead, rfl⟩ := List.cons.inj hx
    cases hrest
    rw [Rule.made, rule_of_start _ hr (Symbol.v.inj hhead).symm hbody]
    exact ⟨_, rfl⟩

/-- What a stack is finished with is derived from all lexemes, or is the empty program. -/
theorem finish_derives (ht : Sound t) (htakes : Takes t .initial ls u rest)
    (hrest : upcoming rest = .finish) {last : Position} {p : Parse}
    (hp : u.finish t last = .ok p) :
    Yields [.v .start] ls [p] rest ∨ p = .node .program [] ∧ ls = rest := by
  obtain ⟨xs, hu⟩ := Stacked.initial.takes ht htakes
  unfold Stack.finish at hp
  split at hp
  next state q more below next hsettle =>
    cases hp
    rw [← hrest] at hsettle
    obtain ⟨⟨ys, hys⟩, hshift⟩ := hu.settle ht hsettle
    rw [hrest] at hshift
    -- the frame on top is that of a program, which only the initial stack is below
    obtain ⟨-, hbefore⟩ := ht.finish _ _ hshift
    generalize htop : (⟨state, p :: more⟩ : Frame) = top at hys hbefore
    cases hys with
    | initial => cases htop
    | @push s _ mid _ x ps _ hs hgoto hx =>
      obtain ⟨hcode, -⟩ := hbefore _ _ hgoto
      obtain rfl := symbol_code_injective hcode
      obtain ⟨-, rfl⟩ := hs.initial_of_top ht (ht.start _ _ hgoto)
      have hparts : p :: more = ps.reverse := congrArg Frame.parts htop
      rcases hx with hyields | ⟨-, rfl, rfl⟩
      · obtain ⟨q, rfl⟩ := yields_start hyields
        obtain rfl := (List.cons.inj hparts).1
        exact .inl hyields
      · exact .inr ⟨(List.cons.inj hparts).1, rfl⟩
  next => cases hp

end Runs

end Avii.Grammar
