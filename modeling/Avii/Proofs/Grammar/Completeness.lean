import Avii.Proofs.Grammar.Validation

/-!
# The parser finds every derivation

`Yields` is the grammar as derivations over lexemes, with the parts that they make, and with one
restriction: a chain ends only where it cannot go on. The parser, run on the lexemes of a program,
finds exactly the parts of the derivation (`program_finishes`).

The argument follows the derivation. From a stack in whose top state some symbols can be read, the
parser takes the first lexeme at once, then the others, and is left with rules to end; ending them
leaves one frame for each symbol (`yields_reads`). The parser ends rules only when it sees the next
lexeme, and within a limit. That the limit is far enough away is part of what is carried along: of
two rules that end one after the other, the second shortens the stack or has a head of higher rank,
so the height of the stack pays for all of them.
-/

namespace Avii.Grammar

open Lalr (Bits)

/-! ## Derivations -/

/-- What a lexeme contributes to the parts. -/
def Lexeme.parts (l : Lexeme) : List Parse :=
  if l.terminal.isPart then [.lexeme l] else []

/-- The parts that a rule makes of those of its body. -/
def Rule.made (r : Rule) (ps : List Parse) : List Parse :=
  match r.shape with
  | .node form => [.node form ps]
  | .splice => ps

/-- The terminal that comes next. -/
def upcoming : List Lexeme → Terminal
  | [] => .finish
  | l :: _ => l.terminal

/-- The lexemes of a list up to a rest are derived from some symbols, and make some parts. -/
inductive Yields : List Symbol → List Lexeme → List Parse → List Lexeme → Prop where
  | nil {ls : List Lexeme} : Yields [] ls [] ls
  | terminal {l : Lexeme} {xs : List Symbol} {ls rest : List Lexeme} {ps : List Parse}
      (h : Yields xs ls ps rest) : Yields (.t l.terminal :: xs) (l :: ls) (l.parts ++ ps) rest
  | rule {r : Rule} {xs : List Symbol} {ls mid rest : List Lexeme} {ps qs : List Parse}
      (hr : r ∈ rules) (hbody : r.body ≠ []) (h : Yields r.body ls ps mid)
      (hnext : r.refuses (upcoming mid) = false) (hrest : Yields xs mid qs rest) :
      Yields (.v r.head :: xs) ls (r.made ps ++ qs) rest

/-- Derivations go one after the other. -/
theorem Yields.append {xs ys : List Symbol} {ls mid rest : List Lexeme} {ps qs : List Parse}
    (h : Yields xs ls ps mid) (h' : Yields ys mid qs rest) :
    Yields (xs ++ ys) ls (ps ++ qs) rest := by
  induction h with
  | nil => exact h'
  | terminal _ ih =>
    rw [List.append_assoc]
    exact .terminal (ih h')
  | rule hr hbody hb hnext _ _ ih =>
    rw [List.append_assoc]
    exact .rule hr hbody hb hnext (ih h')

/-- What symbols derive starts with a terminal that the first of them may start with. -/
theorem yields_starts {t : Lalr.Table} {first : Variable → Bits} {follow : Nat → Variable → Bits}
    (hc : Certified t first follow) {xs : List Symbol} {ls rest : List Lexeme}
    {ps : List Parse} (h : Yields xs ls ps rest) :
    ∀ x more, xs = x :: more → Starts first x (upcoming ls) := by
  induction h with
  | nil =>
    intro _ _ h
    cases h
  | terminal =>
    rintro x more ⟨⟩
    rfl
  | @rule r _ _ _ _ _ _ hr hbody _ _ _ ih _ =>
    rintro x more ⟨⟩
    cases hb : r.body with
    | nil => exact absurd hb hbody
    | cons y ys => exact hc.starts r hr y ys hb _ (ih y ys hb)

/-! ## Ranks -/

/-- The rank of a symbol: a rule with one symbol in its body has a head of higher rank. -/
def Symbol.rank : Symbol → Nat
  | .t _ => 0
  | .v .arglist => Variable.count
  | .v head => Variable.count - head.ctorIdx

/-- The rank of the last of some symbols. -/
def lastRank : List Symbol → Nat
  | [] => 0
  | [x] => x.rank
  | _ :: xs => lastRank xs

/-- More than any rank. -/
def width : Nat := Variable.count + 1

theorem rank_lt (x : Symbol) : x.rank < width := by
  cases x with
  | t => exact Nat.succ_pos _
  | v head => cases head <;> decide

theorem lastRank_lt : ∀ xs : List Symbol, lastRank xs < width
  | [] => Nat.succ_pos _
  | [x] => rank_lt x
  | _ :: y :: xs => lastRank_lt (y :: xs)

/-- A rule with one symbol has a head of a higher rank. -/
def ranksUp (r : Rule) : Bool :=
  match r.body with
  | [x] => x.rank < (Symbol.v r.head).rank
  | _ => true

/-- A rule with a single symbol raises the rank. -/
theorem rank_single {r : Rule} (hr : r ∈ rules) {x : Symbol} (hx : r.body = [x]) :
    x.rank < (Symbol.v r.head).rank := by
  have hall : rules.all ranksUp = true := by decide
  have h := List.all_eq_true.mp hall r hr
  simpa only [ranksUp, hx, decide_eq_true_eq] using h

/-- The frames of a body pay for the end of its rule. -/
theorem rank_paid {r : Rule} (hr : r ∈ rules) (hbody : r.body ≠ []) (height : Nat) :
    lastRank r.body + 1 + (height + 1) * width ≤
      (r.body.length + height) * width + (Symbol.v r.head).rank := by
  cases hb : r.body with
  | nil => exact absurd hb hbody
  | cons x xs =>
    cases xs with
    | nil =>
      -- the stack stays as high, so the rank has to rise
      have h : x.rank < (Symbol.v r.head).rank := rank_single hr hb
      simp only [lastRank, List.length_cons, List.length_nil, Nat.zero_add, Nat.add_comm 1 height]
      omega
    | cons y ys =>
      -- the stack gets lower by a frame at least, which is worth any rank
      have h := lastRank_lt (x :: y :: ys)
      have hle : (height + 1 + 1) * width ≤ (ys.length + 1 + 1 + height) * width :=
        Nat.mul_le_mul_right width (by omega)
      simp only [List.length_cons]
      rw [Nat.succ_mul] at hle
      omega

/-! ## Ending rules -/

section Runs

variable {t : Lalr.Table}

/-- With a terminal ahead, a number of rules end one after the other. -/
inductive Ends (t : Lalr.Table) (a : Terminal) : Nat → Stack → Stack → Prop where
  | refl (s : Stack) : Ends t a 0 s s
  | step {k p : Nat} {r : Rule} {s s' u : Stack}
      (ha : t.action? s.top a.code = some (.reduce p)) (hp : rules[p]? = some r)
      (hr : s.reduce? t r = some s') (h : Ends t a k s' u) : Ends t a (k + 1) s u

/-- One more rule may end. -/
theorem Ends.snoc {a : Terminal} {k p : Nat} {r : Rule} {s u u' : Stack} (h : Ends t a k s u)
    (ha : t.action? u.top a.code = some (.reduce p)) (hp : rules[p]? = some r)
    (hr : u.reduce? t r = some u') : Ends t a (k + 1) s u' := by
  induction h with
  | refl => exact .step ha hp hr (.refl _)
  | step ha' hp' hr' _ ih => exact .step ha' hp' hr' (ih ha hr)

/-- To settle goes through the rules that end. -/
theorem settle_ends {a : Terminal} {k : Nat} {s u : Stack} (h : Ends t a k s u) (n : Nat) :
    Stack.settle t a (k + n) s = Stack.settle t a n u := by
  induction h with
  | refl => rw [Nat.zero_add]
  | @step k p r s s' u ha hp hr _ ih =>
    rw [Nat.add_right_comm, Stack.settle]
    simp only [ha, hp, hr]
    exact ih

/-- Rules end within the limit, and then the terminal is taken. -/
theorem settle_of_ends {a : Terminal} {k state : Nat} {s u : Stack} (h : Ends t a k s u)
    (hk : k < s.rounds) (ha : t.action? u.top a.code = some (.shift state)) :
    Stack.settle t a s.rounds s = some (u, state) := by
  have hrounds : s.rounds = k + (s.rounds - k - 1 + 1) := by omega
  rw [hrounds, settle_ends h, Stack.settle]
  simp only [ha]

/-- After the rules that end, a lexeme is shifted. -/
theorem take?_of_ends {l : Lexeme} {k state : Nat} {s u : Stack} (h : Ends t l.terminal k s u)
    (hk : k < s.rounds) (ha : t.action? u.top l.terminal.code = some (.shift state)) :
    s.take? t l = some (⟨state, l.parts⟩ :: u) := by
  rw [Stack.take?, settle_of_ends h hk ha]
  rfl

/-- The parser takes lexemes one after the other. -/
inductive Takes (t : Lalr.Table) : Stack → List Lexeme → Stack → List Lexeme → Prop where
  | refl (s : Stack) (ls : List Lexeme) : Takes t s ls s ls
  | step {l : Lexeme} {s s' u : Stack} {ls rest : List Lexeme} (hl : s.take? t l = some s')
      (h : Takes t s' ls u rest) : Takes t s (l :: ls) u rest

/-- Lexemes are taken one after the other. -/
theorem Takes.trans {s u v : Stack} {ls mid rest : List Lexeme} (h : Takes t s ls u mid)
    (h' : Takes t u mid v rest) : Takes t s ls v rest := by
  induction h with
  | refl => exact h'
  | step hl _ ih => exact .step hl (ih h')

/-! ## Reading symbols -/

/-- From one stack the parser takes the first lexeme at once, then all others before a rest; the
rules that end after that lead to another stack. How many they are is paid for by the height of the
stack before them, but for a credit. -/
def Reads (t : Lalr.Table) (s : Stack) (ls : List Lexeme) (s' : Stack) (rest : List Lexeme)
    (credit : Nat) : Prop :=
  ∃ l ls' state u k, ls = l :: ls' ∧
    t.action? s.top l.terminal.code = some (.shift state) ∧
    Takes t (⟨state, l.parts⟩ :: s) ls' u rest ∧ Ends t (upcoming rest) k u s' ∧
    k + s'.length * width ≤ u.length * width + credit

/-- The rounds of a stack are enough for the rules that end: each pays with its rank or with a
frame. -/
theorem lt_rounds {k credit : Nat} {u s : Stack} (hcredit : credit < width)
    (h : k + s.length * width ≤ u.length * width + credit) : k < u.rounds := by
  have hrounds : u.rounds = u.length * width + width := Nat.succ_mul ..
  omega

/-- What is read from where another reading ends is read with it. -/
theorem Reads.trans {s₁ s₂ s₃ : Stack} {ls mid rest : List Lexeme} {c c' : Nat}
    (h : Reads t s₁ ls s₂ mid c) (hc : c < width) (h' : Reads t s₂ mid s₃ rest c') :
    Reads t s₁ ls s₃ rest c' := by
  obtain ⟨l, ls', state, u, k, rfl, hl, htakes, hends, hk⟩ := h
  obtain ⟨l₂, ls₂, state₂, u₂, k₂, rfl, hl₂, htakes₂, hends₂, hk₂⟩ := h'
  -- the rules left to end by the first reading end when its successor's first lexeme is seen
  have htake := take?_of_ends hends (lt_rounds hc hk) hl₂
  exact ⟨l, ls', state, u₂, k₂, rfl, hl, htakes.trans (.step htake htakes₂), hends₂, hk₂⟩

/-- One more rule ends. -/
theorem Reads.reduce {s s₁ s₂ : Stack} {ls rest : List Lexeme} {c c' p : Nat} {r : Rule}
    (h : Reads t s ls s₁ rest c)
    (ha : t.action? s₁.top (upcoming rest).code = some (.reduce p))
    (hp : rules[p]? = some r) (hr : s₁.reduce? t r = some s₂)
    (hc : c + 1 + s₂.length * width ≤ s₁.length * width + c') : Reads t s ls s₂ rest c' := by
  obtain ⟨l, ls', state, u, k, rfl, hl, htakes, hends, hk⟩ := h
  exact ⟨l, ls', state, u, k + 1, rfl, hl, htakes, hends.snoc ha hp hr, by omega⟩

theorem parts_reverse (l : Lexeme) : l.parts.reverse = l.parts := by
  unfold Lexeme.parts
  split
  next => rfl
  next => rfl

theorem stackParts_cons (f : Frame) (fs : Stack) :
    Stack.parts (f :: fs) = f.parts ++ Stack.parts fs := by
  cases fs with
  | nil => simp [Stack.parts]
  | cons => rfl

theorem stackParts_snoc (fs : Stack) (f : Frame) :
    Stack.parts (fs ++ [f]) = Stack.parts fs ++ f.parts := by
  induction fs with
  | nil => rfl
  | cons g fs ih => rw [List.cons_append, stackParts_cons, ih, stackParts_cons, List.append_assoc]

/-- The end of a rule whose body has its frames on top of a stack. -/
theorem reduce?_frames {fs s : Stack} {r : Rule} {ps : List Parse} {next : Nat}
    (hfs : fs.length = r.body.length) (hparts : Stack.parts fs = ps.reverse)
    (hgoto : t.goto? s.top r.head.code = some next) :
    Stack.reduce? t (fs ++ s) r = some (⟨next, (r.made ps).reverse⟩ :: s) := by
  unfold Stack.reduce? Rule.made
  simp only [← hfs, List.take_left, List.drop_left, hgoto, hparts, Option.map_some]
  cases r.shape with
  | node form => simp
  | splice => rfl

/-- A lexeme that can be moved over is read. -/
theorem reads_terminal {s : Stack} {l : Lexeme} {ls : List Lexeme} {next : Nat}
    (hgoto : t.goto? s.top l.terminal.code = some next) :
    Reads t s (l :: ls) (⟨next, l.parts⟩ :: s) ls 0 :=
  ⟨l, ls, next, _, 0, rfl, action?_of_goto? hgoto, .refl _ _, .refl _, by simp⟩

variable {first : Variable → Bits} {follow : Nat → Variable → Bits}

/-- What comes after a variable in a derivation is what the table expects there. -/
theorem yields_opens (hc : Certified t first follow) {xs : List Symbol}
    {mid rest : List Lexeme} {qs : List Parse} {P : Terminal → Prop}
    (h : Yields xs mid qs rest) (hP : P (upcoming rest)) : Opens first P xs (upcoming mid) := by
  cases xs with
  | nil =>
    cases h
    exact hP
  | cons x xs => exact yields_starts hc h x xs rfl

/-- Some lexemes are read, wherever some symbols can be read, as a frame for each symbol. -/
def ReadAs (t : Lalr.Table) (first : Variable → Bits) (follow : Nat → Variable → Bits)
    (xs : List Symbol) (ls : List Lexeme) (ps : List Parse) (rest : List Lexeme) : Prop :=
  ∀ (Q : Nat → Prop) (P : Terminal → Prop) (s : Stack), xs ≠ [] →
    Fits t first follow Q P s.top xs → P (upcoming rest) →
    ∃ fs : Stack, fs.length = xs.length ∧ Stack.parts fs = ps.reverse ∧
      Q (Stack.top (fs ++ s)) ∧ Reads t s ls (fs ++ s) rest (lastRank xs)

/-- Once there is a frame for the first symbol, the others are read from above it. -/
theorem readAs_cons {x : Symbol} {xs : List Symbol} {ls mid rest : List Lexeme}
    {ps qs : List Parse} {Q : Nat → Prop} {P : Terminal → Prop} {s : Stack} {next : Nat}
    (hx : Reads t s ls (⟨next, ps.reverse⟩ :: s) mid x.rank) (hxs : Yields xs mid qs rest)
    (hfits : Fits t first follow Q P next xs) (hP : P (upcoming rest))
    (ih : ReadAs t first follow xs mid qs rest) :
    ∃ fs : Stack, fs.length = (x :: xs).length ∧ Stack.parts fs = (ps ++ qs).reverse ∧
      Q (Stack.top (fs ++ s)) ∧ Reads t s ls (fs ++ s) rest (lastRank (x :: xs)) := by
  cases xs with
  | nil =>
    cases hxs
    exact ⟨[⟨next, ps.reverse⟩], rfl, by simp [Stack.parts], hfits, hx⟩
  | cons y ys =>
    -- the frame of the first symbol is part of the stack that the others are read on
    obtain ⟨fs, hlen, hparts, hQ, hreads⟩ :=
      ih Q P (⟨next, ps.reverse⟩ :: s) (List.cons_ne_nil y ys) hfits hP
    refine ⟨fs ++ [⟨next, ps.reverse⟩], ?_, ?_, ?_, ?_⟩
    · rw [List.length_append, hlen]
      rfl
    · rw [stackParts_snoc, hparts, List.reverse_append]
    · rw [List.append_assoc]
      exact hQ
    · rw [List.append_assoc]
      exact hx.trans (rank_lt x) hreads

/-- What can be derived from symbols is read as a frame for each of them. -/
theorem yields_reads (hc : Certified t first follow) {xs : List Symbol}
    {ls rest : List Lexeme} {ps : List Parse} (h : Yields xs ls ps rest) :
    ReadAs t first follow xs ls ps rest := by
  induction h with
  | nil => exact fun _ _ _ h => absurd rfl h
  | @terminal l xs ls rest ps hrest ih =>
    intro Q P s _ hfits hP
    obtain ⟨-, next, hgoto, hfits⟩ := hfits
    have hread := @reads_terminal t s l ls next hgoto
    rw [← parts_reverse l] at hread
    exact readAs_cons hread hrest hfits hP ih
  | @rule r xs ls mid rest ps qs hr hbody _ hnext hrest ih ihrest =>
    intro Q P s _ hfits hP
    obtain ⟨hfollow, next, hgoto, hfits⟩ := hfits
    obtain ⟨p, hp⟩ := List.mem_iff_getElem?.mp hr
    -- what comes after the variable may follow it here, so its rule can be ended then
    have hafter := hfollow r.head rfl (upcoming mid) (yields_opens hc hrest hP)
    obtain ⟨fs, hlen, hparts, hends, hreads⟩ :=
      ih _ _ s hbody (hc.fits s.top next p r hgoto hp hbody) hafter
    have hread : Reads t s ls (⟨next, (r.made ps).reverse⟩ :: s) mid (Symbol.v r.head).rank := by
      refine hreads.reduce (hends _ hafter hnext) hp (reduce?_frames hlen hparts hgoto) ?_
      have hpaid := rank_paid hr hbody s.length
      rw [List.length_append, hlen]
      exact hpaid
    exact readAs_cons hread hrest hfits hP ihrest

/-! ## Programs -/

/-- The stack that the parser starts with. -/
def Stack.initial : Stack := [⟨0, []⟩]

/-- The parser takes the lexemes of a program, and finds what they were derived as. -/
theorem program_finishes (hc : Certified t first follow) {ls rest : List Lexeme} {p : Parse}
    (h : Yields [.v .start] ls [p] rest) (hrest : upcoming rest = .finish) :
    ∃ u, Takes t .initial ls u rest ∧ ∀ last, u.finish t last = .ok p := by
  obtain ⟨fs, hlen, hparts, ⟨state, hstate⟩, hreads⟩ :=
    yields_reads hc h _ _ .initial (List.cons_ne_nil _ _) hc.root hrest
  obtain ⟨l, ls', first, u, k, rfl, hl, htakes, hends, hk⟩ := hreads
  have hinitial : Stack.take? t .initial l = some (⟨first, l.parts⟩ :: Stack.initial) :=
    take?_of_ends (.refl _) (by decide) hl
  refine ⟨u, .step hinitial htakes, ?_⟩
  intro last
  rw [hrest] at hends
  have hsettle := settle_of_ends hends (lt_rounds (lastRank_lt _) hk) hstate
  obtain ⟨f, rfl⟩ := List.length_eq_one_iff.mp hlen
  unfold Stack.finish
  rw [hsettle]
  have hf : f.parts = [p] := hparts
  obtain ⟨top, parts⟩ := f
  cases hf
  rfl

/-- Where there is no lexeme, the parser finds the empty program. -/
theorem empty_finishes (hc : Certified t first follow) (last : Position) :
    Stack.initial.finish t last = .ok (.node .program []) := by
  obtain ⟨p, r, haction, hp, hhead, hbody, hshape⟩ := hc.empty
  obtain ⟨-, next, hgoto, state, hstate⟩ := hc.root
  have hreduce : Stack.initial.reduce? t r =
      some (⟨next, [.node .program []]⟩ :: Stack.initial) := by
    have hgoto' : t.goto? Stack.initial.top r.head.code = some next := by
      rw [hhead]
      exact hgoto
    have h := @reduce?_frames t [] .initial r [] next (by rw [hbody]; rfl) rfl hgoto'
    rw [Rule.made, hshape] at h
    exact h
  have hends : Ends t .finish 1 .initial (⟨next, [.node .program []]⟩ :: Stack.initial) :=
    .step haction hp hreduce (.refl _)
  unfold Stack.finish
  rw [settle_of_ends hends (by decide) hstate]

end Runs

end Avii.Grammar
