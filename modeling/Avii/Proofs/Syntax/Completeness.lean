import Avii.Proofs.Syntax.Soundness

/-!
# What is derived is read

The other direction: a derivation says what a parser does with the tokens it starts from, once
the budget is large enough and provided that the token after the phrase does not go on with it
(`tightness`). `Runs` says this for every phrase, `runs` proves it by induction on the
derivation.

The grammar groups to the left where the parser loops, so for the levels of operators and for
chains `Runs` speaks about the loop: it gets from the first operand to the whole phrase, and as
it takes a token in every round, it then still has rounds enough for all tokens left.
-/

namespace Avii.Syntax

open Avii.Parser

/-! ## Large budgets -/

/-- It holds for all budgets that are large enough. -/
def Eventually (P : Nat → Prop) : Prop :=
  ∃ N, ∀ n, N ≤ n → P n

namespace Eventually

variable {P Q R : Nat → Prop}

/-- What holds for every budget holds for all large ones. -/
theorem always (h : ∀ n, P n) : Eventually P :=
  ⟨0, fun n _ => h n⟩

/-- What follows from a property of large budgets holds for large budgets. -/
theorem mono (hP : Eventually P) (h : ∀ n, P n → Q n) : Eventually Q := by
  obtain ⟨N, hN⟩ := hP
  exact ⟨N, fun n hn => h n (hN n hn)⟩

/-- Two properties of large budgets hold together from the larger of their two bounds on. -/
theorem both (hP : Eventually P) (hQ : Eventually Q) (h : ∀ n, P n → Q n → R n) :
    Eventually R := by
  obtain ⟨N, hN⟩ := hP
  obtain ⟨M, hM⟩ := hQ
  exact ⟨max N M, fun n hn => h n (hN n (by omega)) (hM n (by omega))⟩

/-- Two properties of large budgets are one. -/
theorem and (hP : Eventually P) (hQ : Eventually Q) : Eventually fun n => P n ∧ Q n :=
  hP.both hQ fun _ h h' => ⟨h, h'⟩

/-- What a construct needs of its parts, it needs with one call less. -/
theorem under (hP : Eventually P) (h : ∀ n, P n → Q (n + 1)) : Eventually Q := by
  obtain ⟨N, hN⟩ := hP
  refine ⟨N + 1, ?_⟩
  intro n hn
  cases n with
  | zero => omega
  | succ n => exact h n (hN n (by omega))

end Eventually

/-! ## Tokens that go on with a phrase -/

/-- How tightly a token binds the phrase before it: an opening bracket or a dot more than any
operator, an `equals` less than any. -/
def tightness (t : Token) : Nat :=
  if isLink t then 7
  else if isPower t then 6
  else if isProduct t then 5
  else if isSum t then 4
  else if isEquality t then 3
  else if isLogical t then 2
  else if t.kind = .equals then 1
  else 0

/-- How tightly the operators of a level bind. -/
def Level.tightness : Level → Nat
  | product => 5
  | sum => 4
  | equality => 3
  | logical => 2

/-- A link binds tighter than any operator. -/
theorem tightness_link {t : Token} (h : isLink t = true) : tightness t = 7 := by
  simp [tightness, h]

/-- Only dots and opening brackets start links. -/
theorem isLink_kind {t : Token} {k : Kind} (hk : t.kind = k)
    (h : k ≠ .dot ∧ k ≠ .lsqb ∧ k ≠ .lpar) : isLink t = false := by
  simp [isLink, hk, h]

/-- Powers bind tighter than the operators of any level. -/
theorem tightness_power {t : Token} (h : isPower t = true) : tightness t = 6 := by
  simp [tightness, isLink_kind (kind_of_isOneOf h) (by decide), h]

/-- An operator binds as tightly as its level does. -/
theorem tightness_operator {ℓ : Level} {t : Token} (h : ℓ.isOperator t = true) :
    Syntax.tightness t = ℓ.tightness := by
  obtain ⟨k, text, line, column⟩ := t
  -- the operators of two levels differ in kind or in text
  cases ℓ with
  | logical | equality | sum =>
    obtain ⟨rfl, ht⟩ := of_isOneOf h
    simp only [List.mem_cons, List.not_mem_nil, or_false] at ht
    rcases ht with rfl | rfl <;> rfl
  | product =>
    obtain ⟨rfl, ht⟩ := of_isOneOf h
    simp only [List.mem_cons, List.not_mem_nil, or_false] at ht
    rcases ht with rfl | rfl | rfl <;> rfl

/-- What binds less tightly than a link is none. -/
theorem not_link_of_tightness {t : Token} (h : tightness t < 7) : isLink t = false := by
  cases hl : isLink t with
  | false => rfl
  | true =>
    rw [tightness_link hl] at h
    omega

/-- What binds less tightly than a power is no sign of one. -/
theorem not_power_of_tightness {t : Token} (h : tightness t < 6) : isPower t = false := by
  cases hp : isPower t with
  | false => rfl
  | true =>
    rw [tightness_power hp] at h
    omega

/-- What binds less tightly than a level is no operator of it. -/
theorem not_operator_of_tightness {ℓ : Level} {t : Token}
    (h : Syntax.tightness t < ℓ.tightness) : ℓ.isOperator t = false := by
  cases hop : ℓ.isOperator t with
  | false => rfl
  | true =>
    rw [tightness_operator hop] at h
    omega

/-- The kinds of token that go on with no expression. -/
def endsExpression (k : Kind) : Prop :=
  k ≠ .dot ∧ k ≠ .lsqb ∧ k ≠ .lpar ∧ k ≠ .binop ∧ k ≠ .condop ∧ k ≠ .equals

/-- What ends an expression does not bind it at all. -/
theorem tightness_ends {t : Token} (h : endsExpression t.kind) : tightness t = 0 := by
  obtain ⟨hd, hs, hl, hb, hc, he⟩ := h
  simp [tightness, isLink, isPower, isProduct, isSum, isEquality, isLogical, isOneOf, hd, hs,
    hl, hb, hc, he]

/-- An equals sign binds less tightly than any operator. -/
theorem tightness_equals {t : Token} (h : t.kind = .equals) : tightness t = 1 := by
  simp [tightness, isLink, isPower, isProduct, isSum, isEquality, isLogical, isOneOf, h]

/-! ## Loops -/

/-- The parser of a level of operators. -/
def levelOf : Level → Nat → Parser Tree
  | .logical => logical
  | .equality => equality
  | .sum => sum
  | .product => product

/-- The parser of the operands of a level. -/
def operandOf : Level → Nat → Parser Tree
  | .logical => equality
  | .equality => sum
  | .sum => product
  | .product => power

/-- Each level groups its operands to the left. -/
theorem levelOf_succ (ℓ : Level) (n : Nat) :
    levelOf ℓ (n + 1) = leftGrouped ℓ.isOperator ℓ.label (operandOf ℓ n) := by
  cases ℓ with
  | logical => exact Parser.logical.eq_2 n
  | equality => exact Parser.equality.eq_2 n
  | sum => exact Parser.sum.eq_2 n
  | product => exact Parser.product.eq_2 n

/-- The rounds of a level get from a left operand to another, with a round left for every
token. -/
def Joins (ℓ : Level) (operand : Parser Tree) (left : Tree) (mid : List Token) (t : Tree)
    (rest : List Token) : Prop :=
  ∀ rounds, mid.length ≤ rounds → ∃ rounds', rest.length ≤ rounds' ∧
    joinLeft ℓ.isOperator ℓ.label operand rounds left mid =
      joinLeft ℓ.isOperator ℓ.label operand rounds' t rest

/-- One more round of a level. -/
theorem Joins.round {ℓ : Level} {operand : Parser Tree} {left a b : Tree} {op : Token}
    {mid us rest : List Token} (h : Joins ℓ operand left mid a (op :: us))
    (hop : ℓ.isOperator op = true) (hb : operand us = .ok (b, rest))
    (hlen : rest.length ≤ us.length) :
    Joins ℓ operand left mid (.node ℓ.label (some op.line) [a, .leaf op.leaf, b]) rest := by
  intro rounds hrounds
  obtain ⟨rounds', hrounds', heq⟩ := h rounds hrounds
  -- a token is left, so a round is
  cases rounds' with
  | zero => simp at hrounds'
  | succ r =>
    have hkind : op.kind ≠ .eof := by
      rcases isOperator_kind hop with hk | hk <;> simp [hk]
    refine ⟨r, ?_, ?_⟩
    · simp only [List.length_cons] at hrounds'
      omega
    · rw [heq, joinLeft, bind_run (current_run _), next_cons, if_pos hop,
        bind_run (advance_cons hkind us), bind_run hb]

/-- Joining stops at what is no operator of the level. -/
theorem joinLeft_stop {isOperator : Token → Bool} {label : Label} {operand : Parser Tree}
    {ts : List Token} (h : isOperator (next ts) = false) (rounds : Nat) (t : Tree) :
    joinLeft isOperator label operand rounds t ts = .ok (t, ts) := by
  cases rounds with
  | zero => rfl
  | succ r =>
    rw [joinLeft, bind_run (current_run _), if_neg (by simp [h])]
    rfl

/-- All rounds of a level: they end before a token that is no operator of it. -/
theorem Joins.run {ℓ : Level} {operand : Parser Tree} {left t : Tree} {ts mid rest : List Token}
    (hl : operand ts = .ok (left, mid)) (h : Joins ℓ operand left mid t rest)
    (hstop : ℓ.isOperator (next rest) = false) :
    leftGrouped ℓ.isOperator ℓ.label operand ts = .ok (t, rest) := by
  obtain ⟨rounds, -, heq⟩ := h mid.length (Nat.le_refl _)
  rw [joinLeft_stop hstop] at heq
  rw [leftGrouped, bind_run hl, bind_run (current_run _)]
  by_cases hop : ℓ.isOperator (next mid) = true
  · rw [if_pos hop, bind_run (get_run _)]
    exact heq
  · rw [if_neg hop]
    rw [joinLeft_stop (by simpa using hop)] at heq
    exact heq

/-- The rounds of links get from a chain to a longer one, with a round left for every token. -/
def Extends (n : Nat) (target : Tree) (mid : List Token) (t : Tree) (rest : List Token) : Prop :=
  ∀ rounds, mid.length ≤ rounds → ∃ rounds', rest.length ≤ rounds' ∧
    links (expression n) (arguments n) rounds target mid =
      links (expression n) (arguments n) rounds' t rest

/-- One more link. -/
theorem Extends.round {n : Nat} {target e e' : Tree} {mid us rest : List Token} {t : Token}
    (h : Extends n target mid e (t :: us)) (hlen : rest.length ≤ us.length)
    (hround : ∀ r, links (expression n) (arguments n) (r + 1) e (t :: us) =
      links (expression n) (arguments n) r e' rest) : Extends n target mid e' rest := by
  intro rounds hrounds
  obtain ⟨rounds', hrounds', heq⟩ := h rounds hrounds
  cases rounds' with
  | zero => simp at hrounds'
  | succ r =>
    refine ⟨r, ?_, by rw [heq, hround]⟩
    simp only [List.length_cons] at hrounds'
    omega

/-- A dot and a name are one round of links. -/
theorem links_field {expr : Parser Tree} {args : Parser (List Tree)} {dot name : Token}
    (hd : dot.kind = .dot) (hn : name.kind = .ident) (r : Nat) (e : Tree) (rest : List Token) :
    links expr args (r + 1) e (dot :: name :: rest) =
      links expr args r (.node .field (some name.line) [e, .leaf name.leaf]) rest := by
  rw [links, bind_run (current_run _)]
  simp only [next_cons, hd]
  rw [bind_run (advance_cons (by simp [hd]) _), bind_run (expect_cons hn (by decide) _ _)]

/-- Linking stops at what is no link. -/
theorem links_stop {expr : Parser Tree} {args : Parser (List Tree)} {ts : List Token}
    (h : isLink (next ts) = false) (rounds : Nat) (t : Tree) :
    links expr args rounds t ts = .ok (t, ts) := by
  cases rounds with
  | zero => rfl
  | succ r =>
    rw [links, bind_run (current_run _)]
    cases hk : (next ts).kind with
    | dot | lsqb | lpar => simp [isLink, hk] at h
    | _ => rfl

/-- All links of a chain: they end before a token that is no link. -/
theorem Extends.run {n : Nat} {target t : Tree} {ts mid rest : List Token}
    (hp : primary n ts = .ok (target, mid)) (h : Extends n target mid t rest)
    (hstop : isLink (next rest) = false) : chain (n + 1) ts = .ok (t, rest) := by
  obtain ⟨rounds, -, heq⟩ := h mid.length (Nat.le_refl _)
  rw [links_stop hstop] at heq
  rw [Parser.chain, bind_run hp, bind_run (current_run _)]
  by_cases hl : isLink (next mid) = true
  · rw [if_pos hl, bind_run (get_run _)]
    exact heq
  · rw [if_neg hl]
    rw [links_stop (by simpa using hl)] at heq
    exact heq

/-! ## What derivations say about runs -/

/-- With a large budget a parser gives the only tree of a list. -/
def Gives (p : Nat → Parser Tree) (ts : List Token) (out : List Tree) (rest : List Token) :
    Prop :=
  ∀ t, out = [t] → Eventually fun n => p n ts = .ok (t, rest)

/-- A parser gives a single tree if it does so within every large budget. -/
theorem gives_iff {p : Nat → Parser Tree} {ts rest : List Token} {t : Tree} :
    Gives p ts [t] rest ↔ Eventually fun n => p n ts = .ok (t, rest) := by
  constructor
  · intro h
    exact h t rfl
  · intro h u hu
    cases hu
    exact h

/-- What the parser does with tokens whose front is a phrase, once the budget is large enough. -/
def Runs : Phrase → List Token → List Tree → List Token → Prop
  | .items, ts, ss, rest =>
    ∀ isEnd : Kind → Bool, (∀ k, isEnd k = true → k = .rbrace ∨ k = .eof) →
      isEnd (next rest).kind = true →
      Eventually fun n => ∀ rounds, ts.length ≤ rounds →
        statementsUpTo isEnd (statement n) rounds ts = .ok (ss, rest)
  | .statement, ts, out, rest => (next rest).kind ≠ .elseWord → Gives statement ts out rest
  | .conditional, ts, out, rest => (next rest).kind ≠ .elseWord → Gives conditional ts out rest
  | .block, ts, out, rest => Gives block ts out rest
  | .params, ts, out, rest => Gives (fun _ => parameters) ts out rest
  | .moreParams, ts, ps, rest =>
    (next rest).kind ≠ .comma → (ps.map Tree.word).Nodup →
      ∀ seen : List String, (∀ w ∈ ps.map Tree.word, w ∉ seen) →
      ∀ rounds, ts.length ≤ rounds → parametersAfter seen rounds ts = .ok (ps, rest)
  | .expression, ts, out, rest => tightness (next rest) = 0 → Gives assignment ts out rest
  | .level ℓ, ts, out, rest =>
    Syntax.tightness (next rest) ≤ ℓ.tightness → ∀ t, out = [t] →
      Eventually fun n => ∃ left mid, operandOf ℓ n ts = .ok (left, mid) ∧
        Joins ℓ (operandOf ℓ n) left mid t rest
  | .power, ts, out, rest => tightness (next rest) < 6 → Gives power ts out rest
  | .chain, ts, out, rest =>
    ∀ t, out = [t] → Eventually fun n => ∃ target mid, primary n ts = .ok (target, mid) ∧
      Extends n target mid t rest
  | .primary, ts, out, rest => Gives primary ts out rest
  | .arguments, ts, es, rest =>
    ∀ close, close = .rpar ∨ close = .rsqb → (next rest).kind = close →
      Eventually fun n => listUpTo close (expression n) ts = .ok (es, rest)
  | .moreArguments, ts, es, rest =>
    (next rest).kind = .rpar ∨ (next rest).kind = .rsqb →
      Eventually fun n => ∀ rounds, ts.length ≤ rounds →
        afterCommas (expression n) rounds ts = .ok (es, rest)
  | .properties, ts, ps, rest =>
    (next rest).kind = .rbrace → Eventually fun n => ∀ rounds, ts.length ≤ rounds →
      Parser.properties (expression n) rounds ts = .ok (ps, rest)
  | .property, ts, out, rest =>
    (next rest).kind = .comma ∨ (next rest).kind = .rbrace →
      Gives (fun n => Parser.property (expression n)) ts out rest

variable {ts us mid rest : List Token} {a b c e t target : Tree} {es ps ss : List Tree}

/-- An expression, once a token follows that does not go on with it. -/
theorem Runs.expression (h : Runs .expression ts [e] rest)
    (hrest : endsExpression (next rest).kind) :
    Eventually fun n => expression n ts = .ok (e, rest) :=
  (gives_iff.mp (h (tightness_ends hrest))).under fun _ h => h

/-- A whole level, once a token follows that binds less tightly. -/
theorem Runs.level {ℓ : Level} (h : Runs (.level ℓ) ts [e] rest)
    (hrest : Syntax.tightness (next rest) < ℓ.tightness) :
    Eventually fun n => levelOf ℓ n ts = .ok (e, rest) := by
  refine (h (Nat.le_of_lt hrest) e rfl).under ?_
  rintro n ⟨left, mid, hleft, hjoins⟩
  rw [levelOf_succ]
  exact hjoins.run hleft (not_operator_of_tightness hrest)

/-- An operand of a level, once a token follows that binds as tightly as the level or less. -/
theorem Runs.operand {ℓ : Level} (h : Runs ℓ.operand ts [e] rest)
    (hrest : Syntax.tightness (next rest) ≤ ℓ.tightness) :
    Eventually fun n => operandOf ℓ n ts = .ok (e, rest) := by
  cases ℓ with
  | logical | equality | sum => exact Runs.level h (Nat.lt_succ_of_le hrest)
  | product => exact gives_iff.mp (h (Nat.lt_succ_of_le hrest))

/-- A whole chain, once a token follows that is no link. -/
theorem Runs.chain (h : Runs .chain ts [e] rest) (hrest : tightness (next rest) < 7) :
    Eventually fun n => chain n ts = .ok (e, rest) := by
  refine (h e rfl).under ?_
  rintro n ⟨target, mid, htarget, hextends⟩
  exact hextends.run htarget (not_link_of_tightness hrest)

/-! ## Operators and chains -/

/-- An operand of a level is read as a phrase of the level, if no operator goes on with it. -/
theorem runs_operand {ℓ : Level} (h : Runs ℓ.operand ts [e] rest) :
    Runs (.level ℓ) ts [e] rest := by
  intro hrest t ht
  cases ht
  refine (h.operand hrest).mono ?_
  intro n hn
  exact ⟨e, rest, hn, fun rounds hrounds => ⟨rounds, hrounds, rfl⟩⟩

/-- An operator and its right operand are one more round of the level. -/
theorem runs_join {ℓ : Level} {op : Token} (ha : Runs (.level ℓ) ts [a] (op :: us))
    (hop : ℓ.isOperator op = true) (hb : Runs ℓ.operand us [b] rest)
    (hlen : rest.length ≤ us.length) :
    Runs (.level ℓ) ts [.node ℓ.label (some op.line) [a, .leaf op.leaf, b]] rest := by
  intro hrest t ht
  cases ht
  have hmid := ha (Nat.le_of_eq (tightness_operator hop)) a rfl
  refine hmid.both (hb.operand hrest) ?_
  rintro n ⟨left, mid, hleft, hjoins⟩ hright
  exact ⟨left, mid, hleft, hjoins.round hop hright hlen⟩

/-- A logical expression is read as an expression, if no equals sign follows. -/
theorem runs_value (h : Runs (.level .logical) ts [e] rest) : Runs .expression ts [e] rest := by
  intro hrest
  rw [gives_iff]
  refine (h.level (by rw [hrest]; decide)).under ?_
  intro n hn
  have hne : (next rest).kind ≠ .equals := by
    intro hk
    rw [tightness_equals hk] at hrest
    omega
  rw [Parser.assignment, bind_run (show Parser.logical n ts = _ from hn),
    bind_run (current_run _), if_neg hne]
  rfl

/-- A name, an equals sign and an expression are read as an assignment. -/
theorem runs_assignment {eq : Token} (ht : Runs (.level .logical) ts [target] (eq :: us))
    (heq : eq.kind = .equals) (hn : isName target = true) (he : Runs .expression us [e] rest) :
    Runs .expression ts [.node .assign (some eq.line) [target, e]] rest := by
  intro hrest
  rw [gives_iff]
  have htarget := ht.level (by rw [next_cons, tightness_equals heq]; decide)
  refine (htarget.and (gives_iff.mp (he hrest))).under ?_
  rintro n ⟨hlogical, hvalue⟩
  rw [Parser.assignment, bind_run (show Parser.logical n ts = _ from hlogical),
    bind_run (current_run _), next_cons, if_pos heq, bind_run (advance_cons (by simp [heq]) us),
    if_pos hn, bind_run hvalue]
  rfl

/-- A chain is read as a power, if no sign of a power follows. -/
theorem runs_base (h : Runs .chain ts [e] rest) : Runs .power ts [e] rest := by
  intro hrest
  rw [gives_iff]
  refine (h.chain (Nat.lt_succ_of_lt hrest)).under ?_
  intro n hn
  rw [Parser.power, bind_run hn, bind_run (current_run _),
    if_neg (by simp [not_power_of_tightness hrest])]
  rfl

/-- A chain, the sign of a power and a power are read as a power, grouped to the right. -/
theorem runs_raise {op : Token} (ha : Runs .chain ts [a] (op :: us)) (hop : isPower op = true)
    (hb : Runs .power us [b] rest) :
    Runs .power ts [.node .binary (some op.line) [a, .leaf op.leaf, b]] rest := by
  intro hrest
  rw [gives_iff]
  have hbase := ha.chain (by rw [next_cons, tightness_power hop]; decide)
  refine (hbase.and (gives_iff.mp (hb hrest))).under ?_
  rintro n ⟨hbase, hexp⟩
  rw [Parser.power, bind_run hbase, bind_run (current_run _), next_cons, if_pos hop,
    bind_run (advance_cons (by simp [kind_of_isOneOf hop]) us), bind_run hexp]
  rfl

/-- A primary expression is read as a chain, if no link follows. -/
theorem runs_primary (h : Runs .primary ts [e] rest) : Runs .chain ts [e] rest := by
  intro t ht
  cases ht
  refine (gives_iff.mp h).mono ?_
  intro n hn
  exact ⟨e, rest, hn, fun rounds hrounds => ⟨rounds, hrounds, rfl⟩⟩

/-- A dot and a name after a chain are read as a field of it. -/
theorem runs_field {dot name : Token} (he : Runs .chain ts [e] (dot :: name :: rest))
    (hd : dot.kind = .dot) (hn : name.kind = .ident) :
    Runs .chain ts [.node .field (some name.line) [e, .leaf name.leaf]] rest := by
  intro t ht
  cases ht
  refine (he e rfl).mono ?_
  rintro n ⟨target, mid, htarget, hextends⟩
  exact ⟨target, mid, htarget, hextends.round (by simp) fun r => links_field hd hn r e rest⟩

/-- An expression in brackets after a chain is read as an index of it. -/
theorem runs_index {l r : Token} {k : Tree} (he : Runs .chain ts [e] (l :: us))
    (hl : l.kind = .lsqb) (hk : Runs .expression us [k] (r :: rest)) (hr : r.kind = .rsqb)
    (hlen : rest.length ≤ us.length) :
    Runs .chain ts [.node .index (some l.line) [e, k]] rest := by
  intro t ht
  cases ht
  have hkey := hk.expression (by rw [next_cons, hr]; simp [endsExpression])
  refine (he e rfl).both hkey ?_
  rintro n ⟨target, mid, htarget, hextends⟩ hkey
  refine ⟨target, mid, htarget, hextends.round hlen ?_⟩
  intro r
  rw [links, bind_run (current_run _)]
  simp only [next_cons, hl]
  rw [bind_run (advance_cons (by simp [hl]) _), bind_run hkey,
    bind_run (expectKind_cons hr (by decide) _)]

/-- Arguments in parentheses after a chain are read as a call of it. -/
theorem runs_call {l r : Token} (he : Runs .chain ts [e] (l :: us)) (hl : l.kind = .lpar)
    (hes : Runs .arguments us es (r :: rest)) (hr : r.kind = .rpar)
    (hlen : rest.length ≤ us.length) :
    Runs .chain ts [.node .call (some l.line) [e, .node .args none es]] rest := by
  intro t ht
  cases ht
  have hargs : Eventually fun n => arguments n us = .ok (es, r :: rest) :=
    (hes .rpar (.inl rfl) hr).under fun _ h => h
  refine (he e rfl).both hargs ?_
  rintro n ⟨target, mid, htarget, hextends⟩ hargs
  refine ⟨target, mid, htarget, hextends.round hlen ?_⟩
  intro r
  rw [links, bind_run (current_run _)]
  simp only [next_cons, hl]
  rw [bind_run (advance_cons (by simp [hl]) _), bind_run hargs,
    bind_run (expectKind_cons hr (by decide) _)]

/-! ## Lists -/

/-- The token after an argument: a comma, or the one after all arguments. -/
theorem moreArguments_next (h : Derives .moreArguments ts es rest)
    (hrest : (next rest).kind = .rpar ∨ (next rest).kind = .rsqb) :
    endsExpression (next ts).kind := by
  cases h with
  | noMoreArguments => rcases hrest with hk | hk <;> simp [hk, endsExpression]
  | moreArguments hc => simp [hc, endsExpression]

/-- Without a comma the arguments end. -/
theorem runs_noMoreArguments : Runs .moreArguments ts [] ts := by
  intro hrest
  refine .always ?_
  intro n rounds _
  have hne : (next ts).kind ≠ .comma := by rcases hrest with hk | hk <;> simp [hk]
  cases rounds with
  | zero => rfl
  | succ r =>
    rw [afterCommas, bind_run (accept_other hne)]
    rfl

/-- A comma and an expression are one more argument. -/
theorem runs_moreArguments {c : Token} (hc : c.kind = .comma) (he : Runs .expression ts [e] mid)
    (hd : Derives .moreArguments mid es rest) (h : Runs .moreArguments mid es rest)
    (hlen : mid.length ≤ ts.length) : Runs .moreArguments (c :: ts) (e :: es) rest := by
  intro hrest
  refine (he.expression (moreArguments_next hd hrest)).both (h hrest) ?_
  intro n hexpr hmore rounds hrounds
  cases rounds with
  | zero => simp at hrounds
  | succ r =>
    simp only [List.length_cons] at hrounds
    rw [afterCommas, bind_run (accept_cons hc (by decide) ts), if_pos rfl, bind_run hexpr,
      bind_run (hmore r (by omega))]
    rfl

/-- At a closing bracket there are no arguments. -/
theorem runs_noArguments : Runs .arguments ts [] ts := by
  intro close _ hclose
  refine .always ?_
  intro n
  rw [listUpTo, bind_run (current_run _), if_pos hclose]
  rfl

/-- A list of expressions starts with its first one, and goes on after commas. -/
theorem separated_run {expr : Parser Tree} (he : expr ts = .ok (e, mid))
    (h : afterCommas expr mid.length mid = .ok (es, rest)) :
    separated expr ts = .ok (e :: es, rest) := by
  rw [separated, bind_run he, bind_run (current_run _)]
  by_cases hk : (next mid).kind = .comma
  · rw [if_pos hk, bind_run (get_run _), bind_run h]
    rfl
  · have hstop : afterCommas expr mid.length mid = .ok ([], mid) := by
      cases mid.length with
      | zero => rfl
      | succ r =>
        rw [afterCommas, bind_run (accept_other hk)]
        rfl
    rw [hstop] at h
    cases h
    rw [if_neg hk]
    rfl

/-- An expression and what follows commas are the arguments. -/
theorem runs_arguments (hde : Derives .expression ts [e] mid) (he : Runs .expression ts [e] mid)
    (hd : Derives .moreArguments mid es rest) (h : Runs .moreArguments mid es rest) :
    Runs .arguments ts (e :: es) rest := by
  intro close hclose hrest
  have hends : (next rest).kind = .rpar ∨ (next rest).kind = .rsqb := by
    rw [hrest]
    exact hclose
  have hne : (next ts).kind ≠ close := by
    obtain ⟨t, us, rfl, ht⟩ := derives_starts hde id
    rintro rfl
    simp only [next_cons, Phrase.starts, startsExpression] at ht hclose
    rcases hclose with hk | hk <;> simp [hk] at ht
  refine (he.expression (moreArguments_next hd hends)).both (h hends) ?_
  intro n hexpr hmore
  rw [listUpTo, bind_run (current_run _), if_neg hne]
  exact separated_run hexpr (hmore _ (Nat.le_refl _))

/-- At a closing brace there are no properties. -/
theorem runs_noProperties : Runs .properties ts [] ts := by
  intro hrest
  refine .always ?_
  intro n rounds _
  cases rounds with
  | zero => rfl
  | succ r =>
    rw [Parser.properties, bind_run (current_run _), if_pos (.inl hrest)]
    rfl

/-- A property is not the end of the properties. -/
theorem property_next (h : Derives .property ts [e] rest) :
    ¬ ((next ts).kind = .rbrace ∨ (next ts).kind = .eof) := by
  obtain ⟨t, us, rfl, ht⟩ := derives_starts h id
  simp [show t.kind = .ident from ht]

/-- A property without a comma is the last one. -/
theorem runs_lastProperty (hd : Derives .property ts [e] rest)
    (h : Runs .property ts [e] rest) : Runs .properties ts [e] rest := by
  intro hrest
  refine (gives_iff.mp (h (.inr hrest))).mono ?_
  intro n hprop rounds hrounds
  cases rounds with
  | zero =>
    have := derives_shorter hd id
    omega
  | succ r =>
    rw [Parser.properties, bind_run (current_run _), if_neg (property_next hd), bind_run hprop,
      bind_run (accept_other (by simp [hrest]))]
    rfl

/-- A property and a comma go on with the properties. -/
theorem runs_properties {c : Token} (hd : Derives .property ts [e] (c :: us))
    (hp : Runs .property ts [e] (c :: us)) (hc : c.kind = .comma)
    (h : Runs .properties us ps rest) : Runs .properties ts (e :: ps) rest := by
  intro hrest
  refine (gives_iff.mp (hp (.inl hc))).both (h hrest) ?_
  intro n hprop hmore rounds hrounds
  have hlen := derives_shorter hd id
  cases rounds with
  | zero => omega
  | succ r =>
    simp only [List.length_cons] at hlen
    rw [Parser.properties, bind_run (current_run _), if_neg (property_next hd), bind_run hprop,
      bind_run (accept_cons hc (by decide) us), if_pos rfl, bind_run (hmore r (by omega))]
    rfl

/-- A name alone is a property without a value of its own. -/
theorem runs_shorthand {key : Token} (hk : key.kind = .ident) :
    Runs .property (key :: rest) [.node .prop (some key.line) [.leaf key.leaf, .absent]]
      rest := by
  intro hrest
  rw [gives_iff]
  refine .always ?_
  intro n
  have hne : (next rest).kind ≠ .colon := by rcases hrest with h | h <;> simp [h]
  rw [Parser.property, bind_run (expect_cons hk (by decide) _ _), bind_run (accept_other hne)]
  rfl

/-- A name, a colon and an expression are a property. -/
theorem runs_property {key colon : Token} (hk : key.kind = .ident) (hc : colon.kind = .colon)
    (he : Runs .expression ts [e] rest) :
    Runs .property (key :: colon :: ts) [.node .prop (some key.line) [.leaf key.leaf, e]]
      rest := by
  intro hrest
  rw [gives_iff]
  have hends : endsExpression (next rest).kind := by
    rcases hrest with h | h <;> simp [h, endsExpression]
  refine (he.expression hends).mono ?_
  intro n hexpr
  rw [Parser.property, bind_run (expect_cons hk (by decide) _ _),
    bind_run (accept_cons hc (by decide) _), if_pos rfl, bind_run hexpr]
  rfl

/-! ## Parameters and primary expressions -/

/-- A name that is new is read as a parameter. -/
theorem parameter_run {seen : List String} {p : Token} (hp : p.kind = .ident)
    (hseen : p.text ∉ seen) : parameter seen (p :: ts) = .ok (p.leaf, ts) := by
  rw [parameter, bind_run (expect_cons hp (by decide) _ ts), if_neg (by simpa using hseen)]
  rfl

/-- Without a comma the parameters end, whatever names were seen. -/
theorem runs_noMoreParams : Runs .moreParams ts [] ts := by
  intro hrest _ seen _ rounds _
  cases rounds with
  | zero => rfl
  | succ r =>
    rw [parametersAfter, bind_run (accept_other hrest)]
    rfl

/-- A comma and a name are one more parameter, if its name is new. -/
theorem runs_moreParams {c p : Token} (hc : c.kind = .comma) (hp : p.kind = .ident)
    (h : Runs .moreParams ts ps rest) :
    Runs .moreParams (c :: p :: ts) (.leaf p.leaf :: ps) rest := by
  intro hrest hnodup seen hnew rounds hrounds
  rw [List.map_cons, List.nodup_cons] at hnodup
  have hp' : p.text ∉ seen := hnew p.text (List.mem_cons_self ..)
  cases rounds with
  | zero => simp at hrounds
  | succ r =>
    simp only [List.length_cons] at hrounds
    have hmore := h hrest hnodup.2 (p.leaf.text :: seen) ?_ r (by omega)
    · rw [parametersAfter, bind_run (accept_cons hc (by decide) _), if_pos rfl,
        bind_run (parameter_run hp hp'), bind_run hmore]
      rfl
    · intro w hw hmem
      rcases List.mem_cons.mp hmem with rfl | hmem
      · exact hnodup.1 hw
      · exact hnew w (List.mem_cons_of_mem _ hw) hmem

/-- Two parentheses are an empty list of parameters. -/
theorem runs_noParams {l r : Token} (hl : l.kind = .lpar) (hr : r.kind = .rpar) :
    Runs .params (l :: r :: rest) [.node .params none []] rest := by
  rw [Runs, gives_iff]
  refine .always ?_
  intro n
  have hnames : parameterNames (r :: rest) = .ok ([], r :: rest) := by
    rw [parameterNames, bind_run (current_run _), next_cons, if_pos hr]
    rfl
  rw [parameters, bind_run (expectKind_cons hl (by decide) _), bind_run hnames,
    bind_run (expectKind_cons hr (by decide) _)]
  rfl

/-- Names between parentheses are the parameters, if no name is repeated. -/
theorem runs_params {l p r : Token} (hl : l.kind = .lpar) (hp : p.kind = .ident)
    (h : Runs .moreParams ts ps (r :: rest)) (hr : r.kind = .rpar)
    (hd : ((Tree.leaf p.leaf :: ps).map Tree.word).Nodup) :
    Runs .params (l :: p :: ts) [.node .params none (.leaf p.leaf :: ps)] rest := by
  rw [Runs, gives_iff]
  refine .always ?_
  intro n
  rw [List.map_cons, List.nodup_cons] at hd
  have hmore := h (by simp [hr]) hd.2 [p.leaf.text] ?_ ts.length (Nat.le_refl _)
  · have hnames : parameterNames (p :: ts) = .ok (.leaf p.leaf :: ps, r :: rest) := by
      rw [parameterNames, bind_run (current_run _), next_cons, if_neg (by simp [hp]),
        bind_run (parameter_run hp (by simp)), bind_run (get_run _), bind_run hmore]
      rfl
    rw [parameters, bind_run (expectKind_cons hl (by decide) _), bind_run hnames,
      bind_run (expectKind_cons hr (by decide) _)]
    rfl
  · intro w hw hmem
    rw [List.mem_singleton] at hmem
    subst hmem
    exact hd.1 hw

/-- A literal or a name is a primary expression by itself. -/
theorem runs_atom {t : Token} (ht : isAtom t) : Runs .primary (t :: rest) [.leaf t.leaf] rest := by
  rw [Runs, gives_iff]
  refine .under (.always fun _ => trivial) ?_
  intro n _
  rw [Parser.primary, bind_run (current_run _), next_cons]
  rcases ht with ht | ht | ht <;>
  · simp only [ht]
    rw [bind_run (advance_cons (by simp [ht]) _)]
    rfl

/-- An expression in parentheses is read as the expression. -/
theorem runs_parenthesized {l r : Token} (hl : l.kind = .lpar)
    (he : Runs .expression ts [e] (r :: rest)) (hr : r.kind = .rpar) :
    Runs .primary (l :: ts) [e] rest := by
  rw [Runs, gives_iff]
  refine (he.expression (by simp [hr, endsExpression])).under ?_
  intro n hexpr
  rw [Parser.primary, bind_run (current_run _)]
  simp only [next_cons, hl]
  rw [bind_run (advance_cons (by simp [hl]) _), bind_run hexpr,
    bind_run (expectKind_cons hr (by decide) _)]
  rfl

/-- Properties in braces are read as an object. -/
theorem runs_object {l r : Token} (hl : l.kind = .lbrace)
    (h : Runs .properties ts ps (r :: rest)) (hr : r.kind = .rbrace) :
    Runs .primary (l :: ts) [.node .object (some l.line) ps] rest := by
  rw [Runs, gives_iff]
  have hobject : Eventually fun n =>
      object n (l :: ts) = .ok (.node .object (some l.line) ps, rest) := by
    refine (h hr).under ?_
    intro n hprops
    rw [Parser.object, objectOf, bind_run (expectKind_cons hl (by decide) _),
      bind_run (get_run _), bind_run (hprops _ (Nat.le_refl _)),
      bind_run (expect_cons hr (by decide) _ _)]
    rfl
  refine hobject.under ?_
  intro n hn
  rw [Parser.primary, bind_run (current_run _)]
  simp only [next_cons, hl]
  exact hn

/-- Expressions in brackets are read as an array. -/
theorem runs_array {l r : Token} (hl : l.kind = .lsqb)
    (h : Runs .arguments ts es (r :: rest)) (hr : r.kind = .rsqb) :
    Runs .primary (l :: ts) [.node .array (some l.line) es] rest := by
  rw [Runs, gives_iff]
  have harray : Eventually fun n =>
      array n (l :: ts) = .ok (.node .array (some l.line) es, rest) := by
    refine (h .rsqb (.inr rfl) hr).under ?_
    intro n hitems
    rw [Parser.array, arrayOf, bind_run (expectKind_cons hl (by decide) _), bind_run hitems,
      bind_run (expect_cons hr (by decide) _ _)]
    rfl
  refine harray.under ?_
  intro n hn
  rw [Parser.primary, bind_run (current_run _)]
  simp only [next_cons, hl]
  exact hn

/-- The word for functions, parameters and a block are read as a literal. -/
theorem runs_functionLiteral {word : Token} {params body : Tree} (hw : word.kind = .funcWord)
    (hps : Runs .params ts [params] mid) (hb : Runs .block mid [body] rest) :
    Runs .primary (word :: ts) [.node .fnliteral (some word.line) [params, body]] rest := by
  rw [Runs, gives_iff]
  refine ((gives_iff.mp hps).and (gives_iff.mp hb)).under ?_
  rintro n ⟨hparams, hblock⟩
  rw [Parser.primary, bind_run (current_run _)]
  simp only [next_cons, hw]
  rw [bind_run (advance_cons (by simp [hw]) _), bind_run hparams, bind_run hblock]
  rfl

/-! ## Statements -/

theorem statements_run (isEnd : Kind → Bool) (p : Parser Tree) (ts : List Token) :
    statements isEnd p ts = statementsUpTo isEnd p ts.length ts :=
  bind_run (get_run ts) _

/-- Statements in braces are read as a block. -/
theorem runs_block {l r : Token} (hl : l.kind = .lbrace) (h : Runs .items ts ss (r :: rest))
    (hr : r.kind = .rbrace) : Runs .block (l :: ts) [.node .body none ss] rest := by
  rw [Runs, gives_iff]
  have hbody := h (fun k => k = .rbrace || k = .eof) (by simp) (by simp [hr])
  refine hbody.under ?_
  intro n hstatements
  rw [Parser.block, blockOf, bind_run (expect_cons hl (by decide) _ _),
    bind_run ((statements_run _ _ ts).trans (hstatements _ (Nat.le_refl _))),
    bind_run (expect_cons hr (by decide) _ _)]
  rfl

/-- A block goes on with no expression. -/
theorem block_next (h : Derives .block ts [b] rest) : endsExpression (next ts).kind := by
  obtain ⟨t, us, rfl, ht⟩ := derives_starts h id
  simp [show t.kind = .lbrace from ht, endsExpression]

/-- A conditional, given what is read for its second branch. -/
theorem runs_if {word : Token} (hw : word.kind = .ifWord) (he : Runs .expression ts [e] mid)
    (hdb : Derives .block mid [b] us) (hb : Runs .block mid [b] us)
    (hc : (next rest).kind ≠ .elseWord →
      Eventually fun n => alternative (conditional n) (block n) us = .ok (c, rest)) :
    Runs .conditional (word :: ts) [.node .ifstmt (some word.line) [e, b, c]] rest := by
  intro hrest
  rw [gives_iff]
  refine (((he.expression (block_next hdb)).and (gives_iff.mp hb)).and (hc hrest)).under ?_
  rintro n ⟨⟨hexpr, hblock⟩, halt⟩
  rw [Parser.conditional, bind_run (expectKind_cons hw (by decide) _), bind_run hexpr,
    bind_run hblock, bind_run halt]
  rfl

/-- A conditional without an alternative is read as one, if no such word follows. -/
theorem runs_ifOnly {word : Token} (hw : word.kind = .ifWord)
    (he : Runs .expression ts [e] mid) (hdb : Derives .block mid [b] rest)
    (hb : Runs .block mid [b] rest) :
    Runs .conditional (word :: ts) [.node .ifstmt (some word.line) [e, b, .absent]] rest := by
  refine runs_if hw he hdb hb fun hrest => .always fun n => ?_
  rw [alternative, bind_run (accept_other hrest)]
  rfl

/-- A conditional with a block for its alternative is read as one. -/
theorem runs_ifElse {word other : Token} (hw : word.kind = .ifWord)
    (he : Runs .expression ts [e] mid) (hdb : Derives .block mid [b] (other :: us))
    (hb : Runs .block mid [b] (other :: us)) (ho : other.kind = .elseWord)
    (hdc : Derives .block us [c] rest) (hc : Runs .block us [c] rest) :
    Runs .conditional (word :: ts) [.node .ifstmt (some word.line) [e, b, c]] rest := by
  refine runs_if hw he hdb hb fun _ => (gives_iff.mp hc).mono fun n hblock => ?_
  have hne : (next us).kind ≠ .ifWord := by
    obtain ⟨t, vs, rfl, ht⟩ := derives_starts hdc id
    simp [show t.kind = .lbrace from ht]
  rw [alternative, bind_run (accept_cons ho (by decide) _), if_pos rfl, bind_run (current_run _),
    if_neg hne]
  exact hblock

/-- A conditional for an alternative is read as a block of its own. -/
theorem runs_ifElseIf {word other : Token} (hw : word.kind = .ifWord)
    (he : Runs .expression ts [e] mid) (hdb : Derives .block mid [b] (other :: us))
    (hb : Runs .block mid [b] (other :: us)) (ho : other.kind = .elseWord)
    (hdc : Derives .conditional us [t] rest) (hc : Runs .conditional us [t] rest) :
    Runs .conditional (word :: ts)
      [.node .ifstmt (some word.line) [e, b, .node .body none [t]]] rest := by
  refine runs_if hw he hdb hb fun hrest => (gives_iff.mp (hc hrest)).mono fun n hcond => ?_
  have hif : (next us).kind = .ifWord := by
    obtain ⟨t, vs, rfl, ht⟩ := derives_starts hdc id
    exact ht
  rw [alternative, bind_run (accept_cons ho (by decide) _), if_pos rfl, bind_run (current_run _),
    if_pos hif, bind_run hcond]
  rfl

/-! Which kind of statement there is shows at the first two tokens. -/

/-- A keyword of declarations decides for a variable declaration. -/
theorem statement_declares {n : Nat} {t : Tree}
    (hk : (next ts).kind = .letWord ∨ (next ts).kind = .constWord)
    (h : variableDeclaration n ts = .ok (t, rest)) :
    Parser.statement (n + 1) ts = .ok (t, rest) := by
  rw [Parser.statement, bind_run (current_run _), if_pos hk]
  exact h

/-- A function is declared where a name follows the word for functions. -/
theorem startsFunctionDeclaration_run (ts : List Token) :
    ∃ b, startsFunctionDeclaration ts = .ok (b, ts) ∧
      (b = true ↔ ∃ t u us, ts = t :: u :: us ∧ t.kind = .funcWord ∧ u.kind = .ident) := by
  match ts with
  | [] => exact ⟨false, rfl, by simp⟩
  | [t] => exact ⟨false, rfl, by simp⟩
  | t :: u :: us =>
    refine ⟨_, rfl, ?_⟩
    simp only [Bool.and_eq_true, decide_eq_true_eq]
    constructor
    · intro h
      exact ⟨t, u, us, rfl, h⟩
    · rintro ⟨t', u', us', hts, h⟩
      cases hts
      exact h

/-- A declaration without a value is read as one. -/
theorem runs_bareDeclaration {word name semi : Token} (hw : word.kind = .letWord)
    (hn : name.kind = .ident) (hs : semi.kind = .semi) :
    Runs .statement (word :: name :: semi :: rest)
      [.node .vardecl (some word.line) [.leaf word.leaf, .leaf name.leaf, .absent]] rest := by
  intro _
  rw [gives_iff]
  refine .under (.under (.always fun _ => trivial) ?_) fun n => statement_declares (.inl hw)
  intro n _
  rw [variableDeclaration, Parser.declaration, bind_run (advance_cons (by simp [hw]) _),
    bind_run (expect_cons hn (by decide) _ _), bind_run (current_run _), next_cons, if_pos hs,
    if_neg (by simp [hw]), bind_run (advance_cons (by simp [hs]) _)]
  rfl

/-- A declaration with a value is read as one. -/
theorem runs_declaration {word name eq semi : Token}
    (hw : word.kind = .letWord ∨ word.kind = .constWord) (hn : name.kind = .ident)
    (heq : eq.kind = .equals) (he : Runs .expression ts [e] (semi :: rest))
    (hs : semi.kind = .semi) :
    Runs .statement (word :: name :: eq :: ts)
      [.node .vardecl (some word.line) [.leaf word.leaf, .leaf name.leaf, e]] rest := by
  intro _
  rw [gives_iff]
  have hexpr := he.expression (by simp [hs, endsExpression])
  refine .under (hexpr.under ?_) fun n => statement_declares hw
  intro n hexpr
  have hword : word.kind ≠ .eof := by rcases hw with hw | hw <;> simp [hw]
  rw [variableDeclaration, Parser.declaration, bind_run (advance_cons hword _),
    bind_run (expect_cons hn (by decide) _ _), bind_run (current_run _), next_cons,
    if_neg (by simp [heq]), bind_run (expect_cons heq (by decide) _ _), bind_run hexpr,
    bind_run (expect_cons hs (by decide) _ _)]
  rfl

/-- The word for functions, a name, parameters and a block are a function declaration. -/
theorem runs_function {word name : Token} {params body : Tree} (hw : word.kind = .funcWord)
    (hn : name.kind = .ident) (hps : Runs .params ts [params] mid)
    (hb : Runs .block mid [body] rest) :
    Runs .statement (word :: name :: ts)
      [.node .fndecl (some name.line) [.leaf name.leaf, params, body]] rest := by
  intro _
  rw [gives_iff]
  have hdecl : Eventually fun n => functionDeclaration n (word :: name :: ts) =
      .ok (.node .fndecl (some name.line) [.leaf name.leaf, params, body], rest) := by
    refine ((gives_iff.mp hps).and (gives_iff.mp hb)).under ?_
    rintro n ⟨hparams, hblock⟩
    rw [functionDeclaration, bind_run (expectKind_cons hw (by decide) _),
      bind_run (expectKind_cons hn (by decide) _), bind_run hparams, bind_run hblock]
    rfl
  refine hdecl.under ?_
  intro n hdecl
  obtain ⟨starts, hrun, hiff⟩ := startsFunctionDeclaration_run (word :: name :: ts)
  rw [Parser.statement, bind_run (current_run _), if_neg (by simp [hw]), bind_run hrun,
    if_pos (hiff.mpr ⟨word, name, ts, rfl, hw, hn⟩)]
  exact hdecl

/-- A conditional is a statement. -/
theorem runs_conditional (hd : Derives .conditional ts [t] rest)
    (h : Runs .conditional ts [t] rest) : Runs .statement ts [t] rest := by
  intro hrest
  rw [gives_iff]
  refine (gives_iff.mp (h hrest)).under ?_
  intro n hcond
  obtain ⟨word, us, rfl, hw⟩ := derives_starts hd id
  have hw : word.kind = .ifWord := hw
  obtain ⟨starts, hrun, hiff⟩ := startsFunctionDeclaration_run (word :: us)
  have hstarts : ¬ starts = true := by
    rw [hiff]
    rintro ⟨t, u, vs, hts, hk, -⟩
    cases hts
    simp [hw] at hk
  rw [Parser.statement, bind_run (current_run _), next_cons, if_neg (by simp [hw]),
    bind_run hrun, if_neg hstarts, if_pos hw]
  exact hcond

/-- An expression is read as a statement: it starts like no other one. -/
theorem statement_expression (hd : Derives .expression ts [e] rest) {n : Nat}
    (h : expression n ts = .ok (e, rest)) : Parser.statement (n + 1) ts = .ok (e, rest) := by
  obtain ⟨starts, hrun, hiff⟩ := startsFunctionDeclaration_run ts
  have hstarts : ¬ starts = true := by
    rw [hiff]
    rintro ⟨t, u, us, rfl, ht, hu⟩
    -- after `func`, an expression goes on with parameters
    obtain ⟨out, mid, hp⟩ := derives_primary_first hd trivial
    cases hp with
    | atom h => rcases h with h | h | h <;> simp [ht] at h
    | parenthesized h | object h | array h => simp [ht] at h
    | functionLiteral _ hps =>
      obtain ⟨l, vs, hl, hk⟩ := derives_starts hps id
      cases hl
      simp [show u.kind = .lpar from hk] at hu
  obtain ⟨t, us, rfl, ht⟩ := derives_starts hd id
  have hdecl : ¬ (t.kind = .letWord ∨ t.kind = .constWord) := by
    rintro (hk | hk) <;> simp [Phrase.starts, startsExpression, hk] at ht
  have hif : ¬ t.kind = .ifWord := by
    intro hk
    simp [Phrase.starts, startsExpression, hk] at ht
  rw [Parser.statement, bind_run (current_run _), next_cons, if_neg hdecl, bind_run hrun,
    if_neg hstarts, if_neg hif]
  exact h

/-- The token after a statement starts another one, is a semicolon or the end of them all. -/
theorem items_next (h : Derives .items ts ss rest)
    (hrest : (next rest).kind = .rbrace ∨ (next rest).kind = .eof) :
    (next ts).kind ≠ .elseWord ∧ (startsApart ts → endsExpression (next ts).kind) := by
  cases h with
  | noItems => rcases hrest with hk | hk <;> simp [hk, endsExpression]
  | semicolon ht => simp [ht, endsExpression]
  | item hs =>
    obtain ⟨t, us, rfl, ht⟩ := derives_starts hs id
    rcases ht with hk | hk | hk | hk <;> simp [hk, endsExpression]
  | expressionItem he =>
    obtain ⟨t, us, rfl, ht⟩ := derives_starts he id
    rcases ht with hk | hk | hk | hk | hk | hk | hk <;>
      simp [hk, endsExpression, startsApart]

/-- Statements stop at an end. -/
theorem statementsUpTo_stop {isEnd : Kind → Bool} (h : isEnd (next ts).kind = true)
    (p : Parser Tree) (rounds : Nat) : statementsUpTo isEnd p rounds ts = .ok ([], ts) := by
  cases rounds with
  | zero => rfl
  | succ r =>
    rw [statementsUpTo, bind_run (current_run _), if_pos h]
    rfl

/-- At an end there are no statements. -/
theorem runs_noItems : Runs .items ts [] ts := by
  intro isEnd _ hrest
  refine .always ?_
  intro n rounds _
  exact statementsUpTo_stop hrest _ rounds

/-- A token that is neither a closing brace nor `eof` ends no statements. -/
theorem not_isEnd {isEnd : Kind → Bool} (hEnd : ∀ k, isEnd k = true → k = .rbrace ∨ k = .eof)
    {k : Kind} (hr : k ≠ .rbrace) (he : k ≠ .eof) : ¬ isEnd k = true := by
  intro h
  rcases hEnd k h with h | h
  · exact hr h
  · exact he h

/-- A semicolon between statements contributes none. -/
theorem runs_semicolon {s : Token} (hs : s.kind = .semi) (h : Runs .items ts ss rest) :
    Runs .items (s :: ts) ss rest := by
  intro isEnd hEnd hrest
  refine (h isEnd hEnd hrest).mono ?_
  intro n hmore rounds hrounds
  cases rounds with
  | zero => simp at hrounds
  | succ r =>
    simp only [List.length_cons] at hrounds
    rw [statementsUpTo, bind_run (current_run _), next_cons,
      if_neg (not_isEnd hEnd (by simp [hs]) (by simp [hs])), if_pos hs,
      bind_run (advance_cons (by simp [hs]) _)]
    exact hmore r (by omega)

/-- A statement before others, whichever kind it is. -/
theorem statementsUpTo_cons {φ : Phrase} {n : Nat} {isEnd : Kind → Bool}
    (hEnd : ∀ k, isEnd k = true → k = .rbrace ∨ k = .eof) (hd : Derives φ ts [t] mid)
    (hφ : φ = .statement ∨ φ = .expression) (hs : Parser.statement n ts = .ok (t, mid))
    (hmore : ∀ rounds, mid.length ≤ rounds →
      statementsUpTo isEnd (Parser.statement n) rounds mid = .ok (ss, rest)) :
    ∀ rounds, ts.length ≤ rounds →
      statementsUpTo isEnd (Parser.statement n) rounds ts = .ok (t :: ss, rest) := by
  intro rounds hrounds
  have hφ' : ¬ φ.mayBeEmpty := by rcases hφ with rfl | rfl <;> exact id
  -- the statement takes a token, so the rounds are enough for the others too
  have hlen := derives_shorter hd hφ'
  obtain ⟨w, us, rfl, hw⟩ := derives_starts hd hφ'
  have hkind : w.kind ≠ .rbrace ∧ w.kind ≠ .eof ∧ w.kind ≠ .semi := by
    rcases hφ with rfl | rfl
    · rcases hw with hk | hk | hk | hk <;> simp [hk]
    · rcases hw with hk | hk | hk | hk | hk | hk | hk <;> simp [hk]
  cases rounds with
  | zero => simp at hrounds
  | succ r =>
    rw [statementsUpTo, bind_run (current_run _), next_cons,
      if_neg (not_isEnd hEnd hkind.1 hkind.2.1), if_neg hkind.2.2, bind_run hs,
      bind_run (hmore r (by omega))]
    rfl

/-- A statement goes on with the statements after it. -/
theorem runs_statement {φ : Phrase} (hd : Derives φ ts [t] mid)
    (hφ : φ = .statement ∨ φ = .expression)
    (hs : (next mid).kind ≠ .elseWord ∧ (startsApart mid → endsExpression (next mid).kind) →
      Eventually fun n => Parser.statement n ts = .ok (t, mid))
    (hds : Derives .items mid ss rest) (h : Runs .items mid ss rest) :
    Runs .items ts (t :: ss) rest := by
  intro isEnd hEnd hrest
  refine (hs (items_next hds (hEnd _ hrest))).both (h isEnd hEnd hrest) ?_
  intro n hstatement hmore
  exact statementsUpTo_cons hEnd hd hφ hstatement hmore

/-! ## All derivations -/

/-- What is derived is read, if what follows does not go on with it. -/
theorem runs {φ : Phrase} {out : List Tree} (h : Derives φ ts out rest) :
    Runs φ ts out rest := by
  -- each rule of the grammar has its lemma above; what they need to know of the next token is here
  induction h with
  | noItems => exact runs_noItems
  | semicolon ht _ ih => exact runs_semicolon ht ih
  | item hs hss ihs ih =>
    exact runs_statement hs (.inl rfl) (fun hnext => gives_iff.mp (ihs hnext.1)) hss ih
  | expressionItem he hmid hss ihe ih =>
    refine runs_statement he (.inr rfl) (fun hnext => ?_) hss ih
    exact (ihe.expression (hnext.2 hmid)).under fun n => statement_expression he
  | bareDeclaration hw hn hs => exact runs_bareDeclaration hw hn hs
  | declaration hw hn heq _ hs ih => exact runs_declaration hw hn heq ih hs
  | function hw hn _ _ ihps ihb => exact runs_function hw hn ihps ihb
  | conditional hd ih => exact runs_conditional hd ih
  | ifOnly hw _ hdb ihe ihb => exact runs_ifOnly hw ihe hdb ihb
  | ifElse hw _ hdb ho hdc ihe ihb ihc => exact runs_ifElse hw ihe hdb ihb ho hdc ihc
  | ifElseIf hw _ hdb ho hdc ihe ihb ihc => exact runs_ifElseIf hw ihe hdb ihb ho hdc ihc
  | block hl _ hr ih => exact runs_block hl ih hr
  | noParams hl hr => exact runs_noParams hl hr
  | params hl hp _ hr hd ih => exact runs_params hl hp ih hr hd
  | noMoreParams => exact runs_noMoreParams
  | moreParams hc hp _ ih => exact runs_moreParams hc hp ih
  | value _ ih => exact runs_value ih
  | assignment _ heq hn _ iht ihe => exact runs_assignment iht heq hn ihe
  | operand _ ih => exact runs_operand ih
  | join _ hop hb iha ihb => exact runs_join iha hop ihb (derives_leads hb).length_le
  | base _ ih => exact runs_base ih
  | raise _ hop _ iha ihb => exact runs_raise iha hop ihb
  | primary _ ih => exact runs_primary ih
  | field _ hd hn ih => exact runs_field ih hd hn
  | index _ hl hk hr ihe ihk =>
    exact runs_index ihe hl ihk hr (((derives_leads hk).past hr).length_le)
  | call _ hl hes hr ihe ihes =>
    exact runs_call ihe hl ihes hr (((derives_leads hes).past hr).length_le)
  | noArguments => exact runs_noArguments
  | arguments hde hd ihe ih => exact runs_arguments hde ihe hd ih
  | noMoreArguments => exact runs_noMoreArguments
  | moreArguments hc hde hd ihe ih =>
    exact runs_moreArguments hc ihe hd ih (derives_leads hde).length_le
  | atom ht => exact runs_atom ht
  | parenthesized hl _ hr ih => exact runs_parenthesized hl ih hr
  | object hl _ hr ih => exact runs_object hl ih hr
  | array hl _ hr ih => exact runs_array hl ih hr
  | functionLiteral hw _ _ ihps ihb => exact runs_functionLiteral hw ihps ihb
  | noProperties => exact runs_noProperties
  | lastProperty hd ih => exact runs_lastProperty hd ih
  | properties hd hc _ ihp ih => exact runs_properties hd ihp hc ih
  | shorthand hk => exact runs_shorthand hk
  | property hk hc _ ih => exact runs_property hk hc ih

end Avii.Syntax
