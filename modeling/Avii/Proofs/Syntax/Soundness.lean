import Avii.Proofs.Syntax.Derivation
import Avii.Proofs.Syntax.Steps

/-!
# What the parser reads is derived

Every tree that a parser gives has a derivation, whatever the budget: `sound` bundles this for
all parsers, by induction on the budget. The loops (`joinLeft`, `links`, `afterCommas`,
`properties`, `statementsUpTo`, `parametersAfter`) extend a derivation of what has been read so
far by one round; only `links` has to know that it has rounds enough, since it is its exit that
shows that no parenthesis or bracket follows an expression.
-/

namespace Avii.Syntax

open Avii.Parser

/-- A parser gives only derived trees. -/
def Reads (p : Parser Tree) (φ : Phrase) : Prop :=
  ∀ {ts rest : List Token} {t : Tree}, p ts = .ok (t, rest) → Derives φ ts [t] rest

/-- A parser gives only derived trees, and stops before what cannot go on with a chain. -/
def ReadsAll (p : Parser Tree) (φ : Phrase) : Prop :=
  ∀ {ts rest : List Token} {t : Tree}, p ts = .ok (t, rest) →
    Derives φ ts [t] rest ∧ startsApart rest

/-- Only opening parentheses and brackets go on with an expression as links. -/
theorem startsApart_of_next {ts : List Token} (hp : (next ts).kind ≠ .lpar)
    (hb : (next ts).kind ≠ .lsqb) : startsApart ts := by
  intro t ht
  cases ts with
  | nil => simp at ht
  | cons u us =>
    simp only [List.head?_cons, Option.mem_def, Option.some.injEq] at ht
    subst ht
    exact ⟨hp, hb⟩

/-! ## Loops -/

/-- The rounds of a level of operators extend what its left operand derives. -/
theorem joinLeft_reads {ℓ : Level} {operand : Parser Tree} (hp : ReadsAll operand ℓ.operand) :
    ∀ {rounds : Nat} {left t : Tree} {ts mid rest : List Token},
      Derives (.level ℓ) ts [left] mid → startsApart mid →
      joinLeft ℓ.isOperator ℓ.label operand rounds left mid = .ok (t, rest) →
      Derives (.level ℓ) ts [t] rest ∧ startsApart rest
  | 0, left, t, ts, mid, rest, hd, hm, h => by
    obtain ⟨rfl, rfl⟩ := pure_ok.mp h
    exact ⟨hd, hm⟩
  | rounds + 1, left, t, ts, mid, rest, hd, hm, h => by
    rw [joinLeft, bind_run (current_run _)] at h
    split at h
    next hop =>
      rw [bind_ok] at h
      obtain ⟨op, us, hadv, h⟩ := h
      rw [bind_ok] at h
      obtain ⟨right, vs, hr, h⟩ := h
      have hkind : (next mid).kind ≠ .eof := by
        rcases isOperator_kind hop with hk | hk <;> simp [hk]
      have hmid := advance_ok hadv hkind
      subst hmid
      obtain ⟨hright, hvs⟩ := hp hr
      -- what has been read so far is the left operand of the next round
      exact joinLeft_reads hp (.join hd hop hright) hvs h
    next =>
      obtain ⟨rfl, rfl⟩ := pure_ok.mp h
      exact ⟨hd, hm⟩

/-- A level reads derived trees if its operands are read so. -/
theorem leftGrouped_reads {ℓ : Level} {operand : Parser Tree}
    (hp : ReadsAll operand ℓ.operand) :
    ReadsAll (leftGrouped ℓ.isOperator ℓ.label operand) (.level ℓ) := by
  intro ts rest t h
  unfold leftGrouped at h
  rw [bind_ok] at h
  obtain ⟨left, mid, hl, h⟩ := h
  obtain ⟨hleft, hmid⟩ := hp hl
  rw [bind_run (current_run _)] at h
  split at h
  next =>
    rw [bind_run (get_run _)] at h
    exact joinLeft_reads hp (.operand hleft) hmid h
  next =>
    obtain ⟨rfl, rfl⟩ := pure_ok.mp h
    exact ⟨.operand hleft, hmid⟩

/-- What is read after commas is derived as further arguments. -/
theorem afterCommas_reads {expr : Parser Tree} (hp : Reads expr .expression) :
    ∀ {rounds : Nat} {es : List Tree} {ts rest : List Token},
      afterCommas expr rounds ts = .ok (es, rest) → Derives .moreArguments ts es rest
  | 0, es, ts, rest, h => by
    obtain ⟨rfl, rfl⟩ := pure_ok.mp h
    exact .noMoreArguments
  | rounds + 1, es, ts, rest, h => by
    rw [afterCommas, bind_ok] at h
    obtain ⟨b, us, hacc, h⟩ := h
    rcases accept_ok hacc (by decide) with ⟨rfl, c, rfl, hc⟩ | ⟨rfl, rfl, -⟩
    · rw [if_pos rfl, bind_ok] at h
      obtain ⟨e, mid, he, h⟩ := h
      rw [bind_ok] at h
      obtain ⟨es', vs, hes, h⟩ := h
      obtain ⟨rfl, rfl⟩ := pure_ok.mp h
      exact .moreArguments hc (hp he) (afterCommas_reads hp hes)
    · obtain ⟨rfl, rfl⟩ := pure_ok.mp h
      exact .noMoreArguments

/-- A list with commas is derived as arguments. -/
theorem separated_reads {expr : Parser Tree} (hp : Reads expr .expression) {es : List Tree}
    {ts rest : List Token} (h : separated expr ts = .ok (es, rest)) :
    Derives .arguments ts es rest := by
  unfold separated at h
  rw [bind_ok] at h
  obtain ⟨e, mid, he, h⟩ := h
  rw [bind_run (current_run _)] at h
  split at h
  next =>
    rw [bind_run (get_run _)] at h
    rw [bind_ok] at h
    obtain ⟨es', vs, hes, h⟩ := h
    obtain ⟨rfl, rfl⟩ := pure_ok.mp h
    exact .arguments (hp he) (afterCommas_reads hp hes)
  next =>
    obtain ⟨rfl, rfl⟩ := pure_ok.mp h
    exact .arguments (hp he) .noMoreArguments

theorem listUpTo_reads {expr : Parser Tree} (hp : Reads expr .expression) {close : Kind}
    {es : List Tree} {ts rest : List Token} (h : listUpTo close expr ts = .ok (es, rest)) :
    Derives .arguments ts es rest := by
  unfold listUpTo at h
  rw [bind_run (current_run _)] at h
  split at h
  next =>
    obtain ⟨rfl, rfl⟩ := pure_ok.mp h
    exact .noArguments
  next => exact separated_reads hp h

/-- Rounds of links extend a chain. With a round for every token they stop only before a token
that is no link. -/
theorem links_reads {expr : Parser Tree} {args : Parser (List Tree)}
    (hp : Reads expr .expression)
    (ha : ∀ {ts rest : List Token} {es : List Tree}, args ts = .ok (es, rest) →
      Derives .arguments ts es rest) :
    ∀ {rounds : Nat} {target t : Tree} {ts mid rest : List Token},
      Derives .chain ts [target] mid → mid.length ≤ rounds →
      links expr args rounds target mid = .ok (t, rest) →
      Derives .chain ts [t] rest ∧ startsApart rest
  | 0, target, t, ts, mid, rest, hd, hlen, h => by
    obtain ⟨rfl, rfl⟩ := pure_ok.mp h
    -- the rounds run out only when the tokens do
    rw [List.length_eq_zero_iff.mp (Nat.le_zero.mp hlen)] at hd ⊢
    exact ⟨hd, by simp [startsApart]⟩
  | rounds + 1, target, t, ts, mid, rest, hd, hlen, h => by
    rw [links, bind_run (current_run _)] at h
    cases hk : (next mid).kind with
    | dot =>
      simp only [hk] at h
      rw [bind_ok] at h
      obtain ⟨dot, us, hadv, h⟩ := h
      have hmid := advance_ok hadv (by simp [hk])
      subst hmid
      rw [bind_ok] at h
      obtain ⟨name, vs, hname, h⟩ := h
      obtain ⟨rfl, hkind⟩ := expect_ok hname (by decide)
      refine links_reads hp ha (.field hd hk hkind) ?_ h
      simp only [List.length_cons] at hlen
      omega
    | lsqb =>
      simp only [hk] at h
      rw [bind_ok] at h
      obtain ⟨l, us, hadv, h⟩ := h
      have hmid := advance_ok hadv (by simp [hk])
      subst hmid
      rw [bind_ok] at h
      obtain ⟨k, vs, hkey, h⟩ := h
      rw [bind_ok] at h
      obtain ⟨r, ws, hr, h⟩ := h
      obtain ⟨rfl, hkind⟩ := expectKind_ok hr (by decide)
      have hus := (derives_leads (hp hkey)).length_le
      refine links_reads hp ha (.index hd hk (hp hkey) hkind) ?_ h
      simp only [List.length_cons] at hlen hus
      omega
    | lpar =>
      simp only [hk] at h
      rw [bind_ok] at h
      obtain ⟨l, us, hadv, h⟩ := h
      have hmid := advance_ok hadv (by simp [hk])
      subst hmid
      rw [bind_ok] at h
      obtain ⟨es, vs, hes, h⟩ := h
      rw [bind_ok] at h
      obtain ⟨r, ws, hr, h⟩ := h
      obtain ⟨rfl, hkind⟩ := expectKind_ok hr (by decide)
      have hus := (derives_leads (ha hes)).length_le
      refine links_reads hp ha (.call hd hk (ha hes) hkind) ?_ h
      simp only [List.length_cons] at hlen hus
      omega
    | _ =>
      simp only [hk] at h
      obtain ⟨rfl, rfl⟩ := pure_ok.mp h
      -- no link: what comes next cannot go on with the chain
      exact ⟨hd, startsApart_of_next (by simp [hk]) (by simp [hk])⟩

/-- A property that is read is derived. -/
theorem property_reads {expr : Parser Tree} (hp : Reads expr .expression) :
    Reads (Parser.property expr) .property := by
  intro ts rest t h
  unfold Parser.property at h
  rw [bind_ok] at h
  obtain ⟨key, us, hkey, h⟩ := h
  obtain ⟨rfl, hk⟩ := expect_ok hkey (by decide)
  rw [bind_ok] at h
  obtain ⟨b, vs, hcolon, h⟩ := h
  rcases accept_ok hcolon (by decide) with ⟨rfl, c, rfl, hc⟩ | ⟨rfl, rfl, -⟩
  · rw [if_pos rfl, bind_ok] at h
    obtain ⟨value, ws, hvalue, h⟩ := h
    obtain ⟨rfl, rfl⟩ := pure_ok.mp h
    exact .property hk hc (hp hvalue)
  · obtain ⟨rfl, rfl⟩ := pure_ok.mp h
    exact .shorthand hk

theorem properties_reads {expr : Parser Tree} (hp : Reads expr .expression) :
    ∀ {rounds : Nat} {ps : List Tree} {ts rest : List Token},
      Parser.properties expr rounds ts = .ok (ps, rest) → Derives .properties ts ps rest
  | 0, ps, ts, rest, h => by
    obtain ⟨rfl, rfl⟩ := pure_ok.mp h
    exact .noProperties
  | rounds + 1, ps, ts, rest, h => by
    rw [Parser.properties, bind_run (current_run _)] at h
    split at h
    next =>
      obtain ⟨rfl, rfl⟩ := pure_ok.mp h
      exact .noProperties
    next =>
      rw [bind_ok] at h
      obtain ⟨prop, mid, hprop, h⟩ := h
      have hderived := property_reads hp hprop
      rw [bind_ok] at h
      obtain ⟨b, us, hcomma, h⟩ := h
      rcases accept_ok hcomma (by decide) with ⟨rfl, c, rfl, hc⟩ | ⟨rfl, rfl, -⟩
      · rw [if_pos rfl, bind_ok] at h
        obtain ⟨ps', vs, hps, h⟩ := h
        obtain ⟨rfl, rfl⟩ := pure_ok.mp h
        exact .properties hderived hc (properties_reads hp hps)
      · obtain ⟨rfl, rfl⟩ := pure_ok.mp h
        exact .lastProperty hderived

/-- What a parser of statements gives is a statement, or an expression that what follows does
not go on with. -/
def ReadsStatement (p : Parser Tree) : Prop :=
  ∀ {ts rest : List Token} {t : Tree}, p ts = .ok (t, rest) →
    Derives .statement ts [t] rest ∨ (Derives .expression ts [t] rest ∧ startsApart rest)

/-- Statements up to an end are derived as items. -/
theorem statementsUpTo_reads {isEnd : Kind → Bool} {statement : Parser Tree}
    (hp : ReadsStatement statement) :
    ∀ {rounds : Nat} {ss : List Tree} {ts rest : List Token},
      statementsUpTo isEnd statement rounds ts = .ok (ss, rest) → Derives .items ts ss rest
  | 0, ss, ts, rest, h => by
    obtain ⟨rfl, rfl⟩ := pure_ok.mp h
    exact .noItems
  | rounds + 1, ss, ts, rest, h => by
    rw [statementsUpTo, bind_run (current_run _)] at h
    split at h
    next =>
      obtain ⟨rfl, rfl⟩ := pure_ok.mp h
      exact .noItems
    next =>
      split at h
      next hsemi =>
        rw [bind_ok] at h
        obtain ⟨t, us, hadv, h⟩ := h
        have hts := advance_ok hadv (by simp [hsemi])
        subst hts
        exact .semicolon hsemi (statementsUpTo_reads hp h)
      next =>
        rw [bind_ok] at h
        obtain ⟨s, mid, hs, h⟩ := h
        rw [bind_ok] at h
        obtain ⟨ss', us, hss, h⟩ := h
        obtain ⟨rfl, rfl⟩ := pure_ok.mp h
        have hrest := statementsUpTo_reads hp hss
        rcases hp hs with hs | ⟨he, hmid⟩
        · exact .item hs hrest
        · exact .expressionItem he hmid hrest

/-- With a round for every token, statements are read up to their end. -/
theorem statementsUpTo_ends {isEnd : Kind → Bool} {statement : Parser Tree}
    (hend : isEnd .eof = true) (hp : ReadsStatement statement) :
    ∀ {rounds : Nat} {ss : List Tree} {ts rest : List Token}, ts.length ≤ rounds →
      statementsUpTo isEnd statement rounds ts = .ok (ss, rest) →
      isEnd (next rest).kind = true
  | 0, ss, ts, rest, hlen, h => by
    obtain ⟨rfl, rfl⟩ := pure_ok.mp h
    -- a list that has run out counts as one that ends
    rw [List.length_eq_zero_iff.mp (Nat.le_zero.mp hlen)]
    exact hend
  | rounds + 1, ss, ts, rest, hlen, h => by
    rw [statementsUpTo, bind_run (current_run _)] at h
    split at h
    next hnext =>
      obtain ⟨rfl, rfl⟩ := pure_ok.mp h
      exact hnext
    next =>
      split at h
      next hsemi =>
        rw [bind_ok] at h
        obtain ⟨t, us, hadv, h⟩ := h
        have hts := advance_ok hadv (by simp [hsemi])
        subst hts
        exact statementsUpTo_ends hend hp (Nat.le_of_succ_le_succ hlen) h
      next =>
        rw [bind_ok] at h
        obtain ⟨s, mid, hs, h⟩ := h
        rw [bind_ok] at h
        obtain ⟨ss', us, hss, h⟩ := h
        obtain ⟨rfl, rfl⟩ := pure_ok.mp h
        refine statementsUpTo_ends hend hp ?_ hss
        -- a statement takes a token at least
        have hlt : mid.length < ts.length := by
          rcases hp hs with hs | ⟨hs, -⟩
          · exact derives_shorter hs id
          · exact derives_shorter hs id
        omega

/-! ## Constructs

Each construct is given the parsers of its parts. -/

/-- A parameter that is read is a name that was not seen. -/
theorem parameter_reads {seen : List String} {p : Leaf} {ts rest : List Token}
    (h : parameter seen ts = .ok (p, rest)) :
    ∃ t, ts = t :: rest ∧ t.kind = .ident ∧ p = t.leaf ∧ p.text ∉ seen := by
  unfold parameter at h
  rw [bind_ok] at h
  obtain ⟨t, us, ht, h⟩ := h
  obtain ⟨rfl, hk⟩ := expect_ok ht (by decide)
  split at h
  next => exact absurd h refuse_ne_ok
  next hseen =>
    obtain ⟨rfl, rfl⟩ := pure_ok.mp h
    refine ⟨t, rfl, hk, rfl, ?_⟩
    simpa [Token.leaf] using hseen

/-- The parameters after a comma differ from one another and from those seen before. -/
theorem parametersAfter_reads :
    ∀ {rounds : Nat} {seen : List String} {ps : List Tree} {ts rest : List Token},
      parametersAfter seen rounds ts = .ok (ps, rest) →
      Derives .moreParams ts ps rest ∧ (ps.map Tree.word).Nodup ∧
        ∀ w ∈ ps.map Tree.word, w ∉ seen
  | 0, seen, ps, ts, rest, h => by
    obtain ⟨rfl, rfl⟩ := pure_ok.mp h
    exact ⟨.noMoreParams, by simp, by simp⟩
  | rounds + 1, seen, ps, ts, rest, h => by
    rw [parametersAfter, bind_ok] at h
    obtain ⟨b, us, hacc, h⟩ := h
    rcases accept_ok hacc (by decide) with ⟨rfl, c, rfl, hc⟩ | ⟨rfl, rfl, -⟩
    · rw [if_pos rfl, bind_ok] at h
      obtain ⟨p, mid, hp, h⟩ := h
      obtain ⟨t, rfl, hk, rfl, hseen⟩ := parameter_reads hp
      rw [bind_ok] at h
      obtain ⟨ps', vs, hps, h⟩ := h
      obtain ⟨rfl, rfl⟩ := pure_ok.mp h
      obtain ⟨hd, hnodup, hnew⟩ := parametersAfter_reads hps
      -- the others are looked for among what was seen and this one
      refine ⟨.moreParams hc hk hd, ?_, ?_⟩
      · rw [List.map_cons, List.nodup_cons]
        exact ⟨fun hmem => hnew _ hmem (List.mem_cons_self ..), hnodup⟩
      · intro w hw
        rcases List.mem_cons.mp hw with rfl | hw
        · exact hseen
        · exact fun hmem => hnew w hw (List.mem_cons_of_mem _ hmem)
    · obtain ⟨rfl, rfl⟩ := pure_ok.mp h
      exact ⟨.noMoreParams, by simp, by simp⟩

/-- Parameters that are read are derived, none of them repeated. -/
theorem parameters_reads : Reads parameters .params := by
  intro ts rest t h
  unfold parameters at h
  rw [bind_ok] at h
  obtain ⟨l, us, hl, h⟩ := h
  obtain ⟨rfl, hlk⟩ := expectKind_ok hl (by decide)
  rw [bind_ok] at h
  obtain ⟨ps, vs, hps, h⟩ := h
  rw [bind_ok] at h
  obtain ⟨r, ws, hr, h⟩ := h
  obtain ⟨rfl, hrk⟩ := expectKind_ok hr (by decide)
  obtain ⟨rfl, rfl⟩ := pure_ok.mp h
  unfold parameterNames at hps
  rw [bind_run (current_run _)] at hps
  split at hps
  next =>
    obtain ⟨rfl, rfl⟩ := pure_ok.mp hps
    exact .noParams hlk hrk
  next =>
    rw [bind_ok] at hps
    obtain ⟨p, mid, hp, hps⟩ := hps
    obtain ⟨t, rfl, hk, rfl, -⟩ := parameter_reads hp
    rw [bind_run (get_run _), bind_ok] at hps
    obtain ⟨ps', xs, hmore, hps⟩ := hps
    obtain ⟨rfl, rfl⟩ := pure_ok.mp hps
    obtain ⟨hd, hnodup, hnew⟩ := parametersAfter_reads hmore
    refine .params hlk hk hd hrk ?_
    rw [List.map_cons, List.nodup_cons]
    exact ⟨fun hmem => hnew _ hmem (List.mem_cons_self ..), hnodup⟩

/-- A block that is read is derived if its statements are. -/
theorem blockOf_reads {statement : Parser Tree} (hp : ReadsStatement statement) :
    Reads (blockOf statement) .block := by
  intro ts rest t h
  unfold blockOf at h
  rw [bind_ok] at h
  obtain ⟨l, us, hl, h⟩ := h
  obtain ⟨rfl, hlk⟩ := expect_ok hl (by decide)
  rw [bind_ok] at h
  obtain ⟨ss, vs, hss, h⟩ := h
  rw [bind_ok] at h
  obtain ⟨r, ws, hr, h⟩ := h
  obtain ⟨rfl, hrk⟩ := expect_ok hr (by decide)
  obtain ⟨rfl, rfl⟩ := pure_ok.mp h
  exact .block hlk (statementsUpTo_reads hp hss) hrk

/-- A declaration that is read is derived. -/
theorem declaration_reads {expr : Parser Tree} (hp : Reads expr .expression)
    {ts rest : List Token} {t : Tree} (h : declaration expr ts = .ok (t, rest))
    (hw : (next ts).kind = .letWord ∨ (next ts).kind = .constWord) :
    Derives .statement ts [t] rest := by
  unfold declaration at h
  rw [bind_ok] at h
  obtain ⟨word, us, hword, h⟩ := h
  have hts := advance_ok hword (by rcases hw with hw | hw <;> simp [hw])
  subst hts
  rw [bind_ok] at h
  obtain ⟨name, vs, hname, h⟩ := h
  obtain ⟨rfl, hn⟩ := expect_ok hname (by decide)
  rw [bind_run (current_run _)] at h
  split at h
  next hsemi =>
    split at h
    next => exact absurd h refuse_ne_ok
    -- a constant without a value is refused, so this is a variable
    next hnotConst =>
      rw [bind_ok] at h
      obtain ⟨semi, ws, hadv, h⟩ := h
      have hvs := advance_ok hadv (by simp [hsemi])
      subst hvs
      obtain ⟨rfl, rfl⟩ := pure_ok.mp h
      exact .bareDeclaration (hw.resolve_right hnotConst) hn hsemi
  next =>
    rw [bind_ok] at h
    obtain ⟨eq, ws, heq, h⟩ := h
    obtain ⟨rfl, heqk⟩ := expect_ok heq (by decide)
    rw [bind_ok] at h
    obtain ⟨e, xs, he, h⟩ := h
    rw [bind_ok] at h
    obtain ⟨semi, ys, hsemi, h⟩ := h
    obtain ⟨rfl, hsk⟩ := expect_ok hsemi (by decide)
    obtain ⟨rfl, rfl⟩ := pure_ok.mp h
    exact .declaration hw hn heqk (hp he) hsk

/-- An array that is read is derived. -/
theorem arrayOf_reads {expr : Parser Tree} (hp : Reads expr .expression) :
    Reads (arrayOf expr) .primary := by
  intro ts rest t h
  unfold arrayOf at h
  rw [bind_ok] at h
  obtain ⟨l, us, hl, h⟩ := h
  obtain ⟨rfl, hlk⟩ := expectKind_ok hl (by decide)
  rw [bind_ok] at h
  obtain ⟨es, vs, hes, h⟩ := h
  rw [bind_ok] at h
  obtain ⟨r, ws, hr, h⟩ := h
  obtain ⟨rfl, hrk⟩ := expect_ok hr (by decide)
  obtain ⟨rfl, rfl⟩ := pure_ok.mp h
  exact .array hlk (listUpTo_reads hp hes) hrk

/-- An object that is read is derived. -/
theorem objectOf_reads {expr : Parser Tree} (hp : Reads expr .expression) :
    Reads (objectOf expr) .primary := by
  intro ts rest t h
  unfold objectOf at h
  rw [bind_ok] at h
  obtain ⟨l, us, hl, h⟩ := h
  obtain ⟨rfl, hlk⟩ := expectKind_ok hl (by decide)
  rw [bind_run (get_run _), bind_ok] at h
  obtain ⟨ps, vs, hps, h⟩ := h
  rw [bind_ok] at h
  obtain ⟨r, ws, hr, h⟩ := h
  obtain ⟨rfl, hrk⟩ := expect_ok hr (by decide)
  obtain ⟨rfl, rfl⟩ := pure_ok.mp h
  exact .object hlk (properties_reads hp hps) hrk

/-! ## All parsers -/

/-- With a budget, every parser gives only derived trees. -/
structure Sound (n : Nat) : Prop where
  statement : ReadsStatement (statement n)
  conditional : Reads (conditional n) .conditional
  block : Reads (block n) .block
  expression : ReadsAll (expression n) .expression
  assignment : ReadsAll (assignment n) .expression
  logical : ReadsAll (logical n) (.level .logical)
  equality : ReadsAll (equality n) (.level .equality)
  sum : ReadsAll (sum n) (.level .sum)
  product : ReadsAll (product n) (.level .product)
  power : ReadsAll (power n) .power
  chain : ReadsAll (chain n) .chain
  arguments : ∀ {ts rest : List Token} {es : List Tree},
    arguments n ts = .ok (es, rest) → Derives .arguments ts es rest
  primary : Reads (primary n) .primary
  object : Reads (object n) .primary
  array : Reads (array n) .primary
  variableDeclaration : ∀ {ts rest : List Token} {t : Tree},
    variableDeclaration n ts = .ok (t, rest) →
    (next ts).kind = .letWord ∨ (next ts).kind = .constWord → Derives .statement ts [t] rest
  functionDeclaration : Reads (functionDeclaration n) .statement

theorem ReadsAll.reads {p : Parser Tree} {φ : Phrase} (h : ReadsAll p φ) : Reads p φ :=
  fun hp => (h hp).1

/-- Without budget nothing is given. -/
theorem sound_zero : Sound 0 := by
  constructor <;> intro ts _ _ h <;> exact absurd h (@giveUp_ne_ok _ ts _)

section Succ

variable {n : Nat} (ih : Sound n)
include ih

/-- One step of the induction on the budget: a statement, from parsers with less of it. -/
theorem statement_reads : ReadsStatement (Parser.statement (n + 1)) := by
  intro ts rest t h
  rw [Parser.statement, bind_run (current_run _)] at h
  split at h
  next hw => exact .inl (ih.variableDeclaration h hw)
  next =>
    rw [bind_ok] at h
    obtain ⟨b, us, hstarts, h⟩ := h
    -- looking ahead takes no token
    have hus : ts = us := by
      unfold startsFunctionDeclaration at hstarts
      split at hstarts <;> cases hstarts <;> rfl
    subst hus
    split at h
    next => exact .inl (ih.functionDeclaration h)
    next =>
      split at h
      next => exact .inl (.conditional (ih.conditional h))
      next => exact .inr (ih.expression h)

theorem functionDeclaration_reads :
    Reads (Parser.functionDeclaration (n + 1)) .statement := by
  intro ts rest t h
  rw [Parser.functionDeclaration, bind_ok] at h
  obtain ⟨word, us, hword, h⟩ := h
  obtain ⟨rfl, hw⟩ := expectKind_ok hword (by decide)
  rw [bind_ok] at h
  obtain ⟨name, vs, hname, h⟩ := h
  obtain ⟨rfl, hn⟩ := expectKind_ok hname (by decide)
  rw [bind_ok] at h
  obtain ⟨ps, ws, hps, h⟩ := h
  rw [bind_ok] at h
  obtain ⟨b, xs, hb, h⟩ := h
  obtain ⟨rfl, rfl⟩ := pure_ok.mp h
  exact .function hw hn (parameters_reads hps) (ih.block hb)

/-- A conditional, from parsers with less budget. -/
theorem conditional_reads : Reads (Parser.conditional (n + 1)) .conditional := by
  intro ts rest t h
  rw [Parser.conditional, bind_ok] at h
  obtain ⟨word, us, hword, h⟩ := h
  obtain ⟨rfl, hw⟩ := expectKind_ok hword (by decide)
  rw [bind_ok] at h
  obtain ⟨e, vs, he, h⟩ := h
  rw [bind_ok] at h
  obtain ⟨b, ws, hb, h⟩ := h
  rw [bind_ok] at h
  obtain ⟨c, xs, hc, h⟩ := h
  obtain ⟨rfl, rfl⟩ := pure_ok.mp h
  unfold alternative at hc
  rw [bind_ok] at hc
  obtain ⟨a, ys, hacc, hc⟩ := hc
  rcases accept_ok hacc (by decide) with ⟨rfl, other, rfl, ho⟩ | ⟨rfl, rfl, -⟩
  · rw [if_pos rfl, bind_run (current_run _)] at hc
    split at hc
    next =>
      rw [bind_ok] at hc
      obtain ⟨s, zs, hs, hc⟩ := hc
      obtain ⟨rfl, rfl⟩ := pure_ok.mp hc
      exact .ifElseIf hw (ih.expression he).1 (ih.block hb) ho (ih.conditional hs)
    next => exact .ifElse hw (ih.expression he).1 (ih.block hb) ho (ih.block hc)
  · obtain ⟨rfl, rfl⟩ := pure_ok.mp hc
    exact .ifOnly hw (ih.expression he).1 (ih.block hb)

/-- An assignment, from parsers with less budget: its target is a name. -/
theorem assignment_reads : ReadsAll (Parser.assignment (n + 1)) .expression := by
  intro ts rest t h
  rw [Parser.assignment, bind_ok] at h
  obtain ⟨target, us, htarget, h⟩ := h
  obtain ⟨hd, hus⟩ := ih.logical htarget
  rw [bind_run (current_run _)] at h
  split at h
  next heq =>
    rw [bind_ok] at h
    obtain ⟨eq, vs, hadv, h⟩ := h
    have hts := advance_ok hadv (by simp [heq])
    subst hts
    split at h
    next hname =>
      rw [bind_ok] at h
      obtain ⟨e, ws, he, h⟩ := h
      obtain ⟨rfl, rfl⟩ := pure_ok.mp h
      obtain ⟨hvalue, hrest⟩ := ih.assignment he
      exact ⟨.assignment hd heq hname hvalue, hrest⟩
    next => exact absurd h refuse_ne_ok
  next =>
    obtain ⟨rfl, rfl⟩ := pure_ok.mp h
    exact ⟨.value hd, hus⟩

/-- A power, from parsers with less budget. -/
theorem power_reads : ReadsAll (Parser.power (n + 1)) .power := by
  intro ts rest t h
  rw [Parser.power, bind_ok] at h
  obtain ⟨base, us, hbase, h⟩ := h
  obtain ⟨hd, hus⟩ := ih.chain hbase
  rw [bind_run (current_run _)] at h
  split at h
  next hop =>
    rw [bind_ok] at h
    obtain ⟨op, vs, hadv, h⟩ := h
    have hts := advance_ok hadv (by simp [kind_of_isOneOf hop])
    subst hts
    rw [bind_ok] at h
    obtain ⟨e, ws, he, h⟩ := h
    obtain ⟨rfl, rfl⟩ := pure_ok.mp h
    obtain ⟨hexp, hrest⟩ := ih.power he
    exact ⟨.raise hd hop hexp, hrest⟩
  next =>
    obtain ⟨rfl, rfl⟩ := pure_ok.mp h
    exact ⟨.base hd, hus⟩

theorem chain_reads : ReadsAll (Parser.chain (n + 1)) .chain := by
  intro ts rest t h
  rw [Parser.chain, bind_ok] at h
  obtain ⟨target, us, htarget, h⟩ := h
  have hd := ih.primary htarget
  rw [bind_run (current_run _)] at h
  split at h
  next =>
    rw [bind_run (get_run _)] at h
    exact links_reads (ReadsAll.reads ih.expression) ih.arguments (.primary hd) (Nat.le_refl _) h
  next hlink =>
    obtain ⟨rfl, rfl⟩ := pure_ok.mp h
    simp only [isLink, decide_eq_true_eq, not_or] at hlink
    exact ⟨.primary hd, startsApart_of_next hlink.2.2 hlink.2.1⟩

/-- A primary expression, from parsers with less budget. -/
theorem primary_reads : Reads (Parser.primary (n + 1)) .primary := by
  intro ts rest t h
  rw [Parser.primary, bind_run (current_run _)] at h
  cases hk : (next ts).kind with
  | number | string | ident =>
    simp only [hk] at h
    rw [bind_ok] at h
    obtain ⟨a, us, hadv, h⟩ := h
    have hts := advance_ok hadv (by simp [hk])
    subst hts
    obtain ⟨rfl, rfl⟩ := pure_ok.mp h
    exact .atom (by simp_all [isAtom])
  | lpar =>
    simp only [hk] at h
    rw [bind_ok] at h
    obtain ⟨l, us, hadv, h⟩ := h
    have hts := advance_ok hadv (by simp [hk])
    subst hts
    rw [bind_ok] at h
    obtain ⟨e, vs, he, h⟩ := h
    rw [bind_ok] at h
    obtain ⟨r, ws, hr, h⟩ := h
    obtain ⟨rfl, hrk⟩ := expectKind_ok hr (by decide)
    obtain ⟨rfl, rfl⟩ := pure_ok.mp h
    exact .parenthesized hk (ih.expression he).1 hrk
  | lbrace =>
    simp only [hk] at h
    exact ih.object h
  | lsqb =>
    simp only [hk] at h
    exact ih.array h
  | funcWord =>
    simp only [hk] at h
    rw [bind_ok] at h
    obtain ⟨word, us, hadv, h⟩ := h
    have hts := advance_ok hadv (by simp [hk])
    subst hts
    rw [bind_ok] at h
    obtain ⟨ps, vs, hps, h⟩ := h
    rw [bind_ok] at h
    obtain ⟨b, ws, hb, h⟩ := h
    obtain ⟨rfl, rfl⟩ := pure_ok.mp h
    exact .functionLiteral hk (parameters_reads hps) (ih.block hb)
  | _ =>
    simp only [hk] at h
    exact absurd h refuse_ne_ok

end Succ

/-- Whatever the budget, every parser gives only derived trees. -/
theorem sound : ∀ n : Nat, Sound n
  | 0 => sound_zero
  | n + 1 =>
    have ih := sound n
    have hexpr : Reads (Parser.expression n) .expression := ReadsAll.reads ih.expression
    { statement := statement_reads ih
      conditional := conditional_reads ih
      block := blockOf_reads ih.statement
      expression := ih.assignment
      assignment := assignment_reads ih
      logical := leftGrouped_reads (ℓ := .logical) ih.equality
      equality := leftGrouped_reads (ℓ := .equality) ih.sum
      sum := leftGrouped_reads (ℓ := .sum) ih.product
      product := leftGrouped_reads (ℓ := .product) ih.power
      power := power_reads ih
      chain := chain_reads ih
      arguments := listUpTo_reads hexpr
      primary := primary_reads ih
      object := objectOf_reads hexpr
      array := arrayOf_reads hexpr
      variableDeclaration := declaration_reads hexpr
      functionDeclaration := functionDeclaration_reads ih }

end Avii.Syntax
