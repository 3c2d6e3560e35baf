import Avii.Proofs.Syntax.Lookahead

/-!
# Constructs decide as they go

`Sure` for the parsers that are given the parsers of their parts: lists, levels of operators, links,
properties, blocks and declarations. Those of the parts come in pairs, one of which has the larger
budget (`Companions`).
-/

namespace Avii.Parser

open Syntax (Level endsExpression sound derives_shorter derives_leads)

variable {ts us : List Token}

/-! ## Words -/

/-- A mark is spelled by its character. -/
theorem mark_word (c : Char) {kind : Kind} (h : Kind.ofMark? c = some kind) :
    Scan.Spells (String.ofList [c]).toList kind (String.ofList [c]) := by
  rw [String.toList_ofList]
  exact .mark h

/-- A name, one for every length. -/
def plainName (n : Nat) : String := String.ofList (List.replicate (n + 1) 'x')

/-- A plain name is spelled as an identifier. -/
theorem plainName_word (n : Nat) :
    Scan.Spells (plainName n).toList .ident (plainName n) := by
  have hkind : Kind.ofWord (plainName n) = .ident := by
    have hne : ∀ {w : String} {c : Char} {cs : List Char}, w.toList = c :: cs → c ≠ 'x' →
        plainName n ≠ w := by
      intro w c cs hw hc heq
      have : (plainName n).toList = 'x' :: List.replicate n 'x' := String.toList_ofList
      rw [heq, hw] at this
      exact hc (List.cons.inj this).1
    unfold Kind.ofWord
    rw [if_neg (hne rfl (by decide)), if_neg (hne rfl (by decide)), if_neg (hne rfl (by decide)),
      if_neg (hne rfl (by decide)), if_neg (hne rfl (by decide)), if_neg]
    exact not_or.mpr ⟨hne rfl (by decide), hne rfl (by decide)⟩
  rw [← hkind]
  unfold plainName
  rw [String.toList_ofList, List.replicate_succ]
  refine .word (by decide) fun d hd => ?_
  rw [List.eq_of_mem_replicate hd]
  decide

/-- There is always another name: all that are long enough. -/
theorem exists_plainName (seen : List String) : ∃ n, ∀ m, n ≤ m → plainName m ∉ seen := by
  induction seen with
  | nil => exact ⟨0, fun _ _ => List.not_mem_nil⟩
  | cons s seen ih =>
    obtain ⟨n, hn⟩ := ih
    refine ⟨max n s.length, fun m hm hmem => ?_⟩
    rcases List.mem_cons.mp hmem with heq | hmem
    · have hlength : (plainName m).length = m + 1 := by simp [plainName]
      rw [heq] at hlength
      omega
    · exact hn m (by omega) hmem

/-! ## Ends -/

/-- The kinds of token that go on with nothing: with no expression, no list and no conditional. -/
def Ends (k : Kind) : Prop :=
  endsExpression k ∧ k ≠ .elseWord ∧ k ≠ .comma ∧ k ≠ .colon

/-- What goes on with nothing is no operator. -/
theorem Ends.not_operator {ℓ : Level} {t : Token} (h : Ends t.kind) : ℓ.isOperator t = false := by
  refine Syntax.not_operator_of_tightness ?_
  rw [Syntax.tightness_ends h.1]
  cases ℓ <;> decide

/-- What goes on with nothing is not the sign of a power either. -/
theorem Ends.not_power {t : Token} (h : Ends t.kind) : isPower t = false :=
  Syntax.not_power_of_tightness (by rw [Syntax.tightness_ends h.1]; decide)

/-! ## Parameters -/

/-- A name that is new is taken as a parameter. -/
theorem parameter_cons {seen : List String} {t : Token} (ht : t.kind = .ident)
    (hseen : t.text ∉ seen) (us : List Token) : parameter seen (t :: us) = .ok (t.leaf, us) := by
  unfold parameter
  rw [bind_run (expect_cons ht (by decide) _ _), if_neg (by simpa using hseen)]
  rfl

/-- Whatever names were seen, some name is a new parameter. -/
theorem parameter_viable (seen : List String) : Viable Any (· = .ident) (parameter seen) [] := by
  obtain ⟨n, hn⟩ := exists_plainName seen
  have h : Fresh Any (· = .ident) fun _ : Unit => parameter seen := by
    refine fresh_cons (fun _ t => pure t.leaf) (plainName_word n) (fun _ t us ht htext => ?_) rfl
      (fresh_pure _)
    exact parameter_cons ht (htext ▸ hn n (Nat.le_refl n)) us
  exact h.viable ()

/-- A parameter is decided: a name that is new, or a refusal at the next token or the name. -/
theorem parameter_sure (seen : List String) (ts : List Token) :
    Sure Any (· = .ident) (parameter seen) (parameter seen) ts := by
  by_cases hk : (next ts).kind = .ident
  · by_cases hseen : (next ts).text ∈ seen
    · refine .refuses (.duplicateParameter (next ts).text) (fun us hus => ?_)
        (parameter_viable seen)
      obtain ⟨vs, hvs⟩ := next_inner (by rw [hus, hk]; decide : (next us).kind ≠ .eof)
      rw [hvs, hus, parameter, bind_run (expect_cons hk (by decide) _ _),
        if_pos (by simpa using hseen)]
      rfl
    · obtain ⟨us, hus⟩ := next_inner (by rw [hk]; decide : (next ts).kind ≠ .eof)
      rw [hus]
      refine .take (by rw [hk]; decide) (parameter_cons hk hseen) (parameter_cons hk hseen) ?_
      exact .pure _
  · refine .refuses (.parameterName (next ts).kind) (fun us hus => ?_) (parameter_viable seen)
    refine bind_error.mpr (.inl ?_)
    rw [expect, bind_run (current_run _), hus, if_neg hk]
    rfl

/-- A list without another comma ends. -/
theorem named_stop {seen : List String} (h : (next ts).kind ≠ .comma) :
    named seen ts = .ok ([], ts) := by
  rw [named_round, parameterRound, bind_run (accept_other h)]
  rfl

/-- After a comma comes a parameter, and its name counts as seen from there on. -/
theorem named_cons {seen : List String} {t : Token} (ht : t.kind = .comma) (us : List Token) :
    named seen (t :: us) = (parameter seen >>= fun p =>
      named (p.text :: seen) >>= fun ps => pure (.leaf p :: ps)) us := by
  rw [named_round, parameterRound, bind_run (accept_cons ht (by decide) us)]
  rfl

/-- The parameters after the first one are decided. -/
theorem named_sure (seen : List String) (ts : List Token) :
    Sure (· = .rpar) Any (named seen) (named seen) ts := by
  by_cases hk : (next ts).kind = .comma
  · obtain ⟨us, hus⟩ := next_inner (by rw [hk]; decide : (next ts).kind ≠ .eof)
    rw [hus]
    refine .take (by rw [hk]; decide) (named_cons hk) (named_cons hk) ?_
    refine (parameter_sure seen us).any.bind (fun {p rest} _ hlen => ?_) ?_ (.inl fun _ h => h)
      (.inl fun _ _ => trivial)
    · have : rest.length < ts.length := by
        rw [hus]
        exact Nat.lt_succ_of_le hlen
      exact (named_sure (p.text :: seen) rest).map _
    · exact .map (fresh_nil (fun _ _ => trivial) fun p rest hrest =>
        ⟨_, named_stop (by rw [hrest]; decide)⟩) _
  · have hstop : ∀ rest, next rest = next ts ∨ (next rest).kind = .rpar →
        named seen rest = .ok ([], rest) := by
      rintro rest (hrest | hrest)
      · exact named_stop (hrest ▸ hk)
      · exact named_stop (by rw [hrest]; decide)
    exact .stays hstop hstop
termination_by ts.length

/-- The parameters between the parentheses are decided. -/
theorem parameterNames_sure (ts : List Token) :
    Sure (· = .rpar) Any parameterNames parameterNames ts := by
  by_cases hk : (next ts).kind = .rpar
  · have hstop : ∀ rest, next rest = next ts ∨ (next rest).kind = .rpar →
        parameterNames rest = .ok ([], rest) := by
      intro rest hrest
      have hclose : (next rest).kind = .rpar := hrest.elim (fun h => h ▸ hk) id
      rw [parameterNames, bind_run (current_run _), if_pos hclose]
      rfl
    exact .stays hstop hstop
  · have hnames : ∀ us : List Token, (next us).kind ≠ .rpar → parameterNames us =
        (parameter [] >>= fun p => named [p.text] >>= fun ps => pure (.leaf p :: ps)) us := by
      intro us hus
      rw [parameterNames, bind_run (current_run _), if_neg hus]
      rfl
    have htail : ∀ (p : Leaf) (rest : List Token), Sure (· = .rpar) Any
        (named [p.text] >>= fun ps => pure (.leaf p :: ps))
        (named [p.text] >>= fun ps => pure (.leaf p :: ps)) rest :=
      fun p rest => (named_sure [p.text] rest).map _
    refine (Sure.of_first (B := (· = .ident)) (C := (· ≠ .rpar)) hk hnames hnames ?_
      (by rintro k rfl; decide) ?_).any
    · refine (parameter_sure [] ts).bind (fun _ _ => htail _ _) ?_ (.inr (parameter_lessens []))
        (.inl fun _ _ => trivial)
      exact .map (fresh_nil (fun _ _ => trivial) fun p rest hrest =>
        ⟨_, named_stop (by rw [hrest]; decide)⟩) _
    · exact Sure.bind_lessens (parameter_lessens []) fun _ => htail _ _

/-- The parameters of a function after their opening parenthesis. -/
def parametersTail : Parser Tree := do
  let names ← parameterNames
  let _ ← expectKind .rpar
  return .node .params none names

/-- The parameters and the closing parenthesis are decided. -/
theorem parametersTail_sure (ts : List Token) :
    Sure Any Any parametersTail parametersTail ts :=
  (parameterNames_sure ts).bind_expect (by decide) (mark_word ')' rfl) rfl
    (fun _ _ => .pure _) (fresh_pure _) (.inl fun _ _ => trivial)

/-- A closing parenthesis is enough after an opening one. -/
theorem parametersTail_fresh {ι : Type} : Fresh Any Any fun _ : ι => parametersTail := by
  refine Fresh.bind (S := (· = .rpar)) (fresh_nil (fun _ _ => trivial) fun _ rest hrest =>
    ⟨[], ?_⟩) ?_
  · rw [parameterNames, bind_run (current_run _), if_pos hrest]
    rfl
  · exact .expect (by decide) (mark_word ')' rfl) rfl (fresh_pure _)

/-- The parameters start with an opening parenthesis. -/
theorem parameters_tail : parameters = expectKind .lpar >>= fun _ => parametersTail := rfl

/-! ## Loops over expressions -/

/-- Two parsers of the parts of a construct, the second with the larger budget. -/
structure Companions (p r : Parser Tree) : Prop where
  sure : ∀ ts, Sure Ends (· = .ident) p r ts
  lessens : Lessens p
  lessens' : Lessens r

section Loops

variable {p r : Parser Tree}

/-- An operator of the level joins its right operand to what is on its left. -/
theorem joined_cons {ℓ : Level} (hp : Lessens p) {t : Token} (ht : ℓ.isOperator t = true)
    (left : Tree) (us : List Token) :
    joined ℓ p left (t :: us) = (p >>= fun right =>
      joined ℓ p (.node ℓ.label (some t.line) [left, .leaf t.leaf, right])) us := by
  rw [joined_round hp, joinRound, bind_run (current_run _), next_cons, if_pos ht,
    bind_run (advance_cons (operator_inner ht) us)]

/-- Without an operator of the level nothing is joined. -/
theorem joined_stop {ℓ : Level} (h : ℓ.isOperator (next ts) = false) (left : Tree) :
    joined ℓ p left ts = .ok (left, ts) :=
  Syntax.joinLeft_stop h ts.length left

/-- To join nothing is always possible. -/
theorem joined_fresh {ι : Type} (ℓ : Level) (left : ι → Tree) :
    Fresh Ends Ends fun i => joined ℓ r (left i) :=
  fresh_nil (fun _ h => h) fun i _ hrest => ⟨_, joined_stop hrest.not_operator (left i)⟩

/-- What operators of a level join is decided if the operands are. -/
theorem joined_sure {ℓ : Level} (h : Companions p r) (left : Tree) (ts : List Token) :
    Sure Ends Ends (joined ℓ p left) (joined ℓ r left) ts := by
  cases hop : ℓ.isOperator (next ts) with
  | true =>
    obtain ⟨us, hus⟩ := next_inner (operator_inner hop)
    rw [hus]
    refine .take (operator_inner hop) (joined_cons h.lessens hop left)
      (joined_cons h.lessens' hop left) ?_
    refine (h.sure us).any.bind (fun {right rest} _ hlen => ?_) (joined_fresh ℓ _)
      (.inl fun _ _ => trivial) (.inl fun _ h => h)
    have : rest.length < ts.length := by
      rw [hus]
      exact Nat.lt_succ_of_le hlen
    exact joined_sure h _ rest
  | false =>
    have hstop : ∀ rest, next rest = next ts ∨ Ends (next rest).kind →
        ℓ.isOperator (next rest) = false :=
      fun rest hrest => hrest.elim (fun h => h ▸ hop) Ends.not_operator
    exact .stays (fun rest hrest => joined_stop (hstop rest hrest) left)
      (fun rest hrest => joined_stop (hstop rest hrest) left)
termination_by ts.length

/-! ### Links -/

/-- Without a link the target stands as it is. -/
theorem linked_stop {args : Parser (List Tree)} (h : isLink (next ts) = false) (target : Tree) :
    linked p args target ts = .ok (target, ts) :=
  Syntax.links_stop h ts.length target

/-- What goes on with nothing is no link. -/
theorem Ends.not_link {t : Token} (h : Ends t.kind) : isLink t = false :=
  Syntax.isLink_kind rfl ⟨h.1.1, h.1.2.1, h.1.2.2.1⟩

section Links

variable {args args' : Parser (List Tree)} {t : Token}

/-- A dot and a name link a field. -/
theorem linked_dot (hp : Lessens p) (ha : Shrinks args) (ht : t.kind = .dot) (target : Tree)
    (us : List Token) : linked p args target (t :: us) =
      (expect .ident .propertyName >>= fun name =>
        linked p args (.node .field (some name.line) [target, .leaf name.leaf])) us := by
  rw [linked_round hp ha, linkRound, bind_run (current_run _)]
  simp only [next_cons, ht]
  rw [bind_run (advance_cons (by rw [ht]; decide) us)]

/-- An opening bracket links an index. -/
theorem linked_lsqb (hp : Lessens p) (ha : Shrinks args) (ht : t.kind = .lsqb) (target : Tree)
    (us : List Token) : linked p args target (t :: us) =
      (p >>= fun key => expectKind .rsqb >>= fun _ =>
        linked p args (.node .index (some t.line) [target, key])) us := by
  rw [linked_round hp ha, linkRound, bind_run (current_run _)]
  simp only [next_cons, ht]
  rw [bind_run (advance_cons (by rw [ht]; decide) us)]

/-- An opening parenthesis links a call. -/
theorem linked_lpar (hp : Lessens p) (ha : Shrinks args) (ht : t.kind = .lpar) (target : Tree)
    (us : List Token) : linked p args target (t :: us) =
      (args >>= fun as => expectKind .rpar >>= fun _ =>
        linked p args (.node .call (some t.line) [target, .node .args none as])) us := by
  rw [linked_round hp ha, linkRound, bind_run (current_run _)]
  simp only [next_cons, ht]
  rw [bind_run (advance_cons (by rw [ht]; decide) us)]

/-- To link nothing is always possible. -/
theorem linked_fresh {ι : Type} (target : ι → Tree) :
    Fresh Ends Any fun i => linked r args (target i) :=
  fresh_nil (fun _ _ => trivial) fun i _ hrest => ⟨_, linked_stop hrest.not_link (target i)⟩

/-- What links join to a target is decided if the parts of links are. -/
theorem linked_sure (h : Companions p r) (ha : Shrinks args) (ha' : Shrinks args')
    (hargs : ∀ ts, Sure (· = .rpar) Any args args' ts) (target : Tree) (ts : List Token) :
    Sure Ends Any (linked p args target) (linked r args' target) ts := by
  cases hlink : isLink (next ts) with
  | false =>
    have hstop : ∀ rest, next rest = next ts ∨ Ends (next rest).kind →
        isLink (next rest) = false :=
      fun rest hrest => hrest.elim (fun h => h ▸ hlink) Ends.not_link
    exact .stays (fun rest hrest => linked_stop (hstop rest hrest) target)
      (fun rest hrest => linked_stop (hstop rest hrest) target)
  | true =>
    simp only [isLink, decide_eq_true_eq] at hlink
    have hinner : (next ts).kind ≠ .eof := by
      rcases hlink with hk | hk | hk <;> rw [hk] <;> decide
    obtain ⟨us, hus⟩ := next_inner hinner
    rw [hus]
    rcases hlink with hk | hk | hk
    · refine .take hinner (linked_dot h.lessens ha hk target) (linked_dot h.lessens' ha' hk target)
        (.expect (by decide) (plainName_word 0) trivial (fun {name rest} hrest _ => ?_)
          (linked_fresh _))
      have : rest.length < ts.length := by
        rw [hus, hrest]
        simp only [List.length_cons]
        omega
      exact linked_sure h ha ha' hargs _ rest
    · refine .take hinner (linked_lsqb h.lessens ha hk target)
        (linked_lsqb h.lessens' ha' hk target) ?_
      refine (h.sure us).any.bind_expect (by decide) (mark_word ']' rfl)
        (by simp [Ends, endsExpression]) (fun {key close rest} _ hlen => ?_) (linked_fresh _)
        (.inl fun _ _ => trivial)
      have : rest.length < ts.length := by
        rw [hus]
        exact Nat.lt_succ_of_lt hlen
      exact linked_sure h ha ha' hargs _ rest
    · refine .take hinner (linked_lpar h.lessens ha hk target)
        (linked_lpar h.lessens' ha' hk target) ?_
      refine (hargs us).bind_expect (by decide) (mark_word ')' rfl) rfl
        (fun {as close rest} _ hlen => ?_) (linked_fresh _) (.inl fun _ _ => trivial)
      have : rest.length < ts.length := by
        rw [hus]
        exact Nat.lt_succ_of_lt hlen
      exact linked_sure h ha ha' hargs _ rest
termination_by ts.length

end Links

/-! ### Lists -/

/-- After a comma comes an item, and then the others. -/
theorem commaed_cons (hp : Lessens p) {t : Token} (ht : t.kind = .comma) (us : List Token) :
    commaed p (t :: us) = (p >>= fun e => commaed p >>= fun es => pure (e :: es)) us := by
  refine (congrFun (commaed_round hp) (t :: us)).trans ?_
  rw [commaRound, bind_run (accept_cons ht (by decide) us)]
  rfl

/-- Without a comma there are no more items. -/
theorem commaed_stop (hp : Lessens p) (h : (next ts).kind ≠ .comma) :
    commaed p ts = .ok ([], ts) := by
  rw [commaed_round hp, commaRound, bind_run (accept_other h)]
  rfl

/-- A list can end after any of its items. -/
theorem commaed_fresh {ι : Type} {close : Kind} (hp : Lessens r) (hclose : Ends close)
    (e : ι → Tree) :
    Fresh (· = close) Ends fun i => commaed r >>= fun es => pure (e i :: es) :=
  .map (fresh_nil (by rintro k rfl; exact hclose) fun _ rest hrest =>
    ⟨_, commaed_stop hp (by rw [hrest]; exact hclose.2.2.1)⟩) _

/-- The items after commas are decided if an item is. -/
theorem commaed_sure {close : Kind} (h : Companions p r) (hclose : Ends close)
    (ts : List Token) : Sure (· = close) Ends (commaed p) (commaed r) ts := by
  by_cases hk : (next ts).kind = .comma
  · have hinner : (next ts).kind ≠ .eof := by rw [hk]; decide
    obtain ⟨us, hus⟩ := next_inner hinner
    rw [hus]
    refine .take hinner (commaed_cons h.lessens hk) (commaed_cons h.lessens' hk) ?_
    refine (h.sure us).any.bind (fun {e rest} _ hlen => ?_) (commaed_fresh h.lessens' hclose id)
      (.inl fun _ _ => trivial) (.inl (by rintro k rfl; exact hclose))
    have : rest.length < ts.length := by
      rw [hus]
      exact Nat.lt_succ_of_le hlen
    exact (commaed_sure h hclose rest).map _
  · have hstop : ∀ rest, next rest = next ts ∨ (next rest).kind = close →
        (next rest).kind ≠ .comma :=
      fun rest hrest => hrest.elim (fun h => h ▸ hk) fun h => h ▸ hclose.2.2.1
    exact .stays (fun rest hrest => commaed_stop h.lessens (hstop rest hrest))
      (fun rest hrest => commaed_stop h.lessens' (hstop rest hrest))
termination_by ts.length

/-- A list up to a closing bracket is decided if its items are. -/
theorem listUpTo_sure {close : Kind} (h : Companions p r) (hclose : Ends close)
    (hident : close ≠ .ident) (ts : List Token) :
    Sure (· = close) Any (listUpTo close p) (listUpTo close r) ts := by
  by_cases hk : (next ts).kind = close
  · have hstop : ∀ {q : Parser Tree} (rest : List Token),
        next rest = next ts ∨ (next rest).kind = close →
          listUpTo close q rest = .ok ([], rest) := by
      intro q rest hrest
      have hend : (next rest).kind = close := hrest.elim (fun h => h ▸ hk) id
      rw [listUpTo, bind_run (current_run _), if_pos hend]
      rfl
    exact .stays hstop hstop
  · have hlist : ∀ {q : Parser Tree} (us : List Token), (next us).kind ≠ close →
        listUpTo close q us = (q >>= fun e => commaed q >>= fun es => pure (e :: es)) us := by
      intro q us hus
      rw [listUpTo, bind_run (current_run _), if_neg hus, separated_commaed]
    have htail : ∀ (e : Tree) (rest : List Token), Sure (· = close) Ends
        (commaed p >>= fun es => pure (e :: es)) (commaed r >>= fun es => pure (e :: es)) rest :=
      fun e rest => (commaed_sure h hclose rest).map _
    refine (Sure.of_first (B := (· = .ident)) (C := (· ≠ close)) hk hlist hlist ?_
      (by rintro k rfl; exact hident.symm) ?_).any
    · exact (h.sure ts).bind (fun _ _ => htail _ _) (commaed_fresh h.lessens' hclose id)
        (.inr h.lessens) (.inl (by rintro k rfl; exact hclose))
    · exact Sure.bind_lessens h.lessens fun _ => htail _ _

/-! ### Objects -/

/-- What follows the key of a property. -/
def propertyTail (expr : Parser Tree) (key : Token) : Parser Tree := do
  if ← accept .colon then
    let value ← expr
    return .node .prop (some key.line) [.leaf key.leaf, value]
  else
    return .node .prop (some key.line) [.leaf key.leaf, .absent]

/-- A colon gives a property a value. -/
theorem propertyTail_cons {key t : Token} (ht : t.kind = .colon) (us : List Token) :
    propertyTail p key (t :: us) =
      (p >>= fun value => pure (.node .prop (some key.line) [.leaf key.leaf, value])) us := by
  rw [propertyTail, bind_run (accept_cons ht (by decide) us)]
  rfl

/-- Without a colon the property has no value of its own. -/
theorem propertyTail_stop {key : Token} (h : (next ts).kind ≠ .colon) :
    propertyTail p key ts = .ok (.node .prop (some key.line) [.leaf key.leaf, .absent], ts) := by
  rw [propertyTail, bind_run (accept_other h)]
  rfl

/-- A property is decided if the value is. -/
theorem property_sure (h : Companions p r) (ts : List Token) :
    Sure Ends (· = .ident) (property p) (property r) ts := by
  refine Sure.expect (f := propertyTail p) (g := propertyTail r) (by decide) (plainName_word 0) rfl
    (fun {key us} _ _ => ?_) (fresh_nil (fun _ _ => trivial) fun key rest hrest =>
      ⟨_, propertyTail_stop hrest.2.2.2⟩)
  by_cases hk : (next us).kind = .colon
  · have hinner : (next us).kind ≠ .eof := by rw [hk]; decide
    obtain ⟨vs, hvs⟩ := next_inner hinner
    rw [hvs]
    exact .take hinner (propertyTail_cons hk) (propertyTail_cons hk) ((h.sure vs).any.map _)
  · have hstop : ∀ rest, next rest = next us ∨ Ends (next rest).kind →
        (next rest).kind ≠ .colon :=
      fun rest hrest => hrest.elim (fun h => h ▸ hk) fun h => h.2.2.2
    exact .stays (fun rest hrest => propertyTail_stop (hstop rest hrest))
      (fun rest hrest => propertyTail_stop (hstop rest hrest))

/-- A property takes at least its key. -/
theorem property_lessens (hp : Lessens p) : Lessens (property p) := by
  refine Lessens.bind (expect_lessens (by decide)) fun key => ?_
  intro ts rest t h
  obtain ⟨b, mid, hb, h⟩ := bind_ok.mp h
  have hmid := (accept_shrinks hb (by decide)).1
  split at h
  next =>
    obtain ⟨value, us, hvalue, h⟩ := bind_ok.mp h
    obtain ⟨-, rfl⟩ := pure_ok.mp h
    exact Nat.le_trans (Nat.le_of_lt (hp hvalue)) hmid
  next =>
    obtain ⟨-, rfl⟩ := pure_ok.mp h
    exact hmid

/-- What follows a property of an object. -/
def listedTail (expr : Parser Tree) (prop : Tree) : Parser (List Tree) := do
  if ← accept .comma then
    return prop :: (← listed expr)
  else
    return [prop]

/-- At a closing brace there are no more properties. -/
theorem listed_stop (hp : Lessens p) (h : (next ts).kind = .rbrace ∨ (next ts).kind = .eof) :
    listed p ts = .ok ([], ts) := by
  rw [listed_round (property_lessens hp), propertyRound, bind_run (current_run _), if_pos h]
  rfl

/-- Anywhere else there must be one. -/
theorem listed_property (hp : Lessens p)
    (h : ¬ ((next ts).kind = .rbrace ∨ (next ts).kind = .eof)) :
    listed p ts = (property p >>= listedTail p) ts := by
  rw [listed_round (property_lessens hp), propertyRound, bind_run (current_run _), if_neg h]
  rfl

/-- After a comma the properties go on. -/
theorem listedTail_cons {prop : Tree} {t : Token} (ht : t.kind = .comma) (us : List Token) :
    listedTail p prop (t :: us) = (listed p >>= fun ps => pure (prop :: ps)) us := by
  rw [listedTail, bind_run (accept_cons ht (by decide) us)]
  rfl

/-- Without a comma they end. -/
theorem listedTail_stop {prop : Tree} (h : (next ts).kind ≠ .comma) :
    listedTail p prop ts = .ok ([prop], ts) := by
  rw [listedTail, bind_run (accept_other h)]
  rfl

/-- The properties of an object are decided if the values are. -/
theorem listed_sure (h : Companions p r) (ts : List Token) :
    Sure (· = .rbrace) Any (listed p) (listed r) ts := by
  by_cases hk : (next ts).kind = .rbrace ∨ (next ts).kind = .eof
  · have hstop : ∀ rest, next rest = next ts ∨ (next rest).kind = .rbrace →
        (next rest).kind = .rbrace ∨ (next rest).kind = .eof :=
      fun rest hrest => hrest.elim (fun h => h ▸ hk) .inl
    exact .stays (fun rest hrest => listed_stop h.lessens (hstop rest hrest))
      (fun rest hrest => listed_stop h.lessens' (hstop rest hrest))
  · have htail : ∀ {prop : Tree} {rest : List Token}, property p ts = .ok (prop, rest) →
        Sure (· = .rbrace) Ends (listedTail p prop) (listedTail r prop) rest := by
      intro prop rest hprop
      by_cases hcomma : (next rest).kind = .comma
      · have hinner : (next rest).kind ≠ .eof := by rw [hcomma]; decide
        obtain ⟨us, hus⟩ := next_inner hinner
        have : us.length < ts.length := by
          have hrest := property_lessens h.lessens hprop
          rw [hus, List.length_cons] at hrest
          omega
        rw [hus]
        exact .take hinner (listedTail_cons hcomma) (listedTail_cons hcomma)
          ((listed_sure h us).map _)
      · have hstop : ∀ rest', next rest' = next rest ∨ (next rest').kind = .rbrace →
            (next rest').kind ≠ .comma :=
          fun rest' hrest' => hrest'.elim (fun h => h ▸ hcomma) fun h => by rw [h]; decide
        exact .stays (fun rest' hrest' => listedTail_stop (hstop rest' hrest'))
          (fun rest' hrest' => listedTail_stop (hstop rest' hrest'))
    refine (Sure.of_first (B := (· = .ident)) (C := fun k => ¬ (k = .rbrace ∨ k = .eof)) hk
      (fun _ => listed_property h.lessens) (fun _ => listed_property h.lessens') ?_
      (by rintro k rfl; decide) ?_).any
    · refine (property_sure h ts).bind (fun hprop _ => htail hprop) ?_
        (.inr (property_lessens h.lessens)) (.inl (by rintro k rfl; simp [Ends, endsExpression]))
      exact fresh_nil (by rintro k rfl; simp [Ends, endsExpression]) fun prop rest hrest =>
        ⟨_, listedTail_stop (by rw [hrest]; decide)⟩
    · exact Sure.bind_lessens (property_lessens h.lessens) htail
termination_by ts.length

/-! ### Statements -/

section Statements

variable {isEnd : Kind → Bool}

/-- At an end there are no more statements. -/
theorem statements_stop (h : isEnd (next ts).kind = true) :
    statements isEnd p ts = .ok ([], ts) :=
  Syntax.statementsUpTo_stop h p ts.length

/-- A semicolon between statements is passed over. -/
theorem statements_semi (heof : isEnd .eof = true) (hp : Lessens p) {t : Token}
    (ht : t.kind = .semi) (hsemi : isEnd .semi = false) (us : List Token) :
    statements isEnd p (t :: us) = statements isEnd p us := by
  refine (congrFun (statements_round heof hp) (t :: us)).trans ?_
  rw [statementRound, bind_run (current_run _), next_cons, if_neg (by simp [ht, hsemi]), if_pos ht,
    bind_run (advance_cons (by rw [ht]; decide) us)]

/-- Anywhere else there must be a statement. -/
theorem statements_item (heof : isEnd .eof = true) (hp : Lessens p)
    (h : ¬ (isEnd (next ts).kind = true ∨ (next ts).kind = .semi)) :
    statements isEnd p ts =
      (p >>= fun s => statements isEnd p >>= fun ss => pure (s :: ss)) ts := by
  obtain ⟨hend, hsemi⟩ := not_or.mp h
  refine (congrFun (statements_round heof hp) ts).trans ?_
  rw [statementRound, bind_run (current_run _), if_neg hend, if_neg hsemi]

/-- Statements up to a closing token. Where the next statement is refused, the closing token could
have stood there. -/
theorem statements_sure {close : Kind} (h : ∀ ts, Sure Ends (· = .ident) p r ts) (hp : Lessens p)
    (hr : Lessens r) (heof : isEnd .eof = true) (hend : isEnd close = true) (hclose : Ends close)
    (hident : isEnd .ident = false) (ts : List Token) :
    Sure (· = close) Ends (statements isEnd p) (statements isEnd r) ts := by
  by_cases hk : isEnd (next ts).kind = true
  · have hstop : ∀ {q : Parser Tree} (rest : List Token),
        next rest = next ts ∨ (next rest).kind = close →
          statements isEnd q rest = .ok ([], rest) := by
      rintro q rest (hrest | hrest)
      · exact statements_stop (hrest ▸ hk)
      · exact statements_stop (hrest ▸ hend)
    exact .stays hstop hstop
  · by_cases hsemi : (next ts).kind = .semi
    · have hinner : (next ts).kind ≠ .eof := by rw [hsemi]; decide
      obtain ⟨us, hus⟩ := next_inner hinner
      have : us.length < ts.length := by
        rw [hus]
        exact Nat.lt_succ_self us.length
      have hgoes : isEnd .semi = false := by simpa [hsemi] using hk
      rw [hus]
      exact .take hinner (statements_semi heof hp hsemi hgoes) (statements_semi heof hr hsemi hgoes)
        (statements_sure h hp hr heof hend hclose hident us).any
    · have htail : ∀ {s : Tree} {rest : List Token}, p ts = .ok (s, rest) → Sure (· = close) Ends
          (statements isEnd p >>= fun ss => pure (s :: ss))
          (statements isEnd r >>= fun ss => pure (s :: ss)) rest := by
        intro s rest hs
        have := hp hs
        exact (statements_sure h hp hr heof hend hclose hident rest).map _
      have hsure : Sure (· = close) (· = .ident) (statements isEnd p) (statements isEnd r) ts := by
        refine .of_first (C := fun k => ¬ (isEnd k = true ∨ k = .semi)) (not_or.mpr ⟨hk, hsemi⟩)
          (fun _ => statements_item heof hp) (fun _ => statements_item heof hr) ?_
          (by rintro k rfl; simp [hident]) (Sure.bind_lessens hp htail)
        refine (h ts).bind (fun hs _ => htail hs) ?_ (.inr hp)
          (.inl (by rintro k rfl; exact hclose))
        exact .map (fresh_nil (by rintro k rfl; exact hclose) fun s rest hrest =>
          ⟨_, statements_stop (by rw [hrest]; exact hend)⟩) _
      exact hsure.weaken (by rintro k rfl; simp [Ends, endsExpression])
termination_by ts.length

end Statements

/-- What follows the opening brace of a block. -/
def blockTail (statement : Parser Tree) : Parser Tree := do
  let body ← statements (fun k => k = .rbrace || k = .eof) statement
  let _ ← expect .rbrace .blockEnd
  return .node .body none body

/-- A closing brace is enough after an opening one. -/
theorem blockTail_fresh {ι : Type} (r : Parser Tree) : Fresh Any Any fun _ : ι => blockTail r := by
  refine Fresh.bind (S := (· = .rbrace)) (fresh_nil (fun _ _ => trivial) fun _ rest hrest =>
    ⟨_, statements_stop (by rw [hrest]; rfl)⟩) ?_
  exact .expect (by decide) (mark_word '\x7d' rfl) rfl (fresh_pure _)

theorem blockOf_viable (r : Parser Tree) : Viable Any (· = .lbrace) (blockOf r) [] := by
  have h : Fresh Any (· = .lbrace) fun _ : Unit => blockOf r :=
    .expect (by decide) (mark_word '\x7b' rfl) rfl (blockTail_fresh r)
  exact h.viable ()

/-- A block is decided if its statements are. -/
theorem blockOf_sure (h : ∀ ts, Sure Ends (· = .ident) p r ts) (hp : Lessens p) (hr : Lessens r)
    (ts : List Token) : Sure Any (· = .lbrace) (blockOf p) (blockOf r) ts := by
  have hend : Ends .rbrace := by simp [Ends, endsExpression]
  refine Sure.expect (f := fun _ => blockTail p) (g := fun _ => blockTail r) (by decide)
    (mark_word '\x7b' rfl) rfl (fun {t us} _ _ => ?_) (blockTail_fresh r)
  exact (statements_sure h hp hr rfl rfl hend rfl us).any.bind_expect (by decide)
    (mark_word '\x7d' rfl) rfl (fun _ _ => .pure _) (fresh_pure _) (.inl fun _ _ => trivial)

/-! ### Declarations -/

/-- What follows the name that is declared. -/
def declarationTail (expr : Parser Tree) (keyword name : Token) : Parser Tree := do
  let t ← current
  if t.kind = .semi then
    if keyword.kind = .constWord then refuse (.uninitialized name.text) t
    else
      let _ ← advance
      return .node .vardecl (some keyword.line) [.leaf keyword.leaf, .leaf name.leaf, .absent]
  else
    let _ ← expect .equals (.declarationTail name.text)
    let value ← expr
    let _ ← expect .semi (.declarationEnd name.text)
    return .node .vardecl (some keyword.line) [.leaf keyword.leaf, .leaf name.leaf, value]

/-- A declaration starts with its keyword, and the name comes next. -/
theorem declaration_cons {keyword : Token} (h : keyword.kind ≠ .eof) (us : List Token) :
    declaration p (keyword :: us) =
      (expect .ident (fun _ => .declarationName keyword.text) >>=
        declarationTail p keyword) us := by
  rw [declaration, bind_run (advance_cons h us)]
  rfl

/-- The value of a declaration, from its equals sign on. -/
def declarationValue (expr : Parser Tree) (keyword name : Token) : Parser Tree := do
  let _ ← expect .equals (.declarationTail name.text)
  let value ← expr
  let _ ← expect .semi (.declarationEnd name.text)
  return .node .vardecl (some keyword.line) [.leaf keyword.leaf, .leaf name.leaf, value]

/-- Without a semicolon, a value has to follow the name. -/
theorem declarationTail_value {keyword name : Token} (h : (next ts).kind ≠ .semi) :
    declarationTail p keyword name ts = declarationValue p keyword name ts := by
  rw [declarationTail, bind_run (current_run _), if_neg h]
  rfl

/-- Any expression will do for the value. -/
theorem declarationValue_fresh {ι : Type} (h : Viable Ends (· = .ident) r []) (keyword : Token)
    (name : ι → Token) : Fresh Any (· = .equals) fun i => declarationValue r keyword (name i) := by
  unfold declarationValue
  refine .expect (by decide) (mark_word '=' rfl) rfl ?_
  refine (h.fresh.weaken fun _ _ => trivial).bind ?_
  exact .expect (by decide) (mark_word ';' rfl) (by simp [Ends, endsExpression]) (fresh_pure _)

/-- The value of a declaration is decided if expressions are. -/
theorem declarationValue_sure (h : Companions p r) (hv : Viable Ends (· = .ident) r [])
    (keyword name : Token) (ts : List Token) : Sure Any (· = .equals)
      (declarationValue p keyword name) (declarationValue r keyword name) ts := by
  refine .expect (by decide) (mark_word '=' rfl) rfl (fun {t us} _ _ => ?_) ?_
  · exact (h.sure us).any.bind_expect (by decide) (mark_word ';' rfl)
      (by simp [Ends, endsExpression]) (fun _ _ => .pure _) (fresh_pure _) (.inl fun _ _ => trivial)
  · refine (hv.fresh.weaken fun _ _ => trivial).bind ?_
    exact .expect (by decide) (mark_word ';' rfl) (by simp [Ends, endsExpression]) (fresh_pure _)

/-- Any value completes a declaration, of a constant too. -/
theorem declarationTail_fresh {ι : Type} (h : Viable Ends (· = .ident) r []) (keyword : Token)
    (name : ι → Token) : Fresh Any Any fun i => declarationTail r keyword (name i) := by
  obtain ⟨words, hwords, hfresh⟩ := declarationValue_fresh h keyword name
  refine ⟨words, hwords, fun cont rest hcont hrest => ⟨trivial, fun i => ?_⟩⟩
  obtain ⟨hequals, hvalue⟩ := hfresh cont rest hcont hrest
  obtain ⟨a, ha⟩ := hvalue i
  exact ⟨a, (declarationTail_value (by rw [hequals]; decide)).trans ha⟩

/-- The rest of a declaration. A constant without a value is refused at its semicolon, where an
equals sign could have stood. -/
theorem declarationTail_sure (h : Companions p r) (hv : Viable Ends (· = .ident) r [])
    (keyword name : Token) (ts : List Token) :
    Sure Any Any (declarationTail p keyword name) (declarationTail r keyword name) ts := by
  by_cases hk : (next ts).kind = .semi
  · by_cases hconst : keyword.kind = .constWord
    · refine .refuses (.uninitialized name.text) (fun us hus => ?_) ?_
      · rw [declarationTail, bind_run (current_run _), hus, if_pos hk, if_pos hconst]
        rfl
      · exact (declarationTail_fresh hv keyword fun _ : Unit => name).viable ()
    · have hinner : (next ts).kind ≠ .eof := by rw [hk]; decide
      obtain ⟨us, hus⟩ := next_inner hinner
      let bare : Tree :=
        .node .vardecl (some keyword.line) [.leaf keyword.leaf, .leaf name.leaf, .absent]
      have htail : ∀ {q : Parser Tree} (us : List Token),
          declarationTail q keyword name (next ts :: us) = (pure bare : Parser Tree) us := by
        intro q us
        rw [declarationTail, bind_run (current_run _), next_cons, if_pos hk, if_neg hconst,
          bind_run (advance_cons hinner us)]
      rw [hus]
      exact .take hinner htail htail (.pure _)
  · refine (Sure.of_first (C := (· ≠ .semi)) hk (fun _ => declarationTail_value)
      (fun _ => declarationTail_value) (declarationValue_sure h hv keyword name ts)
      (by rintro k rfl; decide) ?_).any
    refine Lessens.bind (expect_lessens (by decide)) fun _ => ?_
    exact Shrinks.bind (Lessens.shrinks h.lessens) fun _ =>
      Shrinks.bind (Lessens.shrinks (expect_lessens (by decide))) fun _ => pure_shrinks _

/-- A declaration is decided from its name on. -/
theorem declaration_sure (h : Companions p r) (hv : Viable Ends (· = .ident) r []) (keyword : Token)
    (ts : List Token) : Sure Any (· = .ident)
      (expect .ident (fun _ => .declarationName keyword.text) >>= declarationTail p keyword)
      (expect .ident (fun _ => .declarationName keyword.text) >>= declarationTail r keyword) ts :=
  .expect (by decide) (plainName_word 0) rfl (fun _ _ => declarationTail_sure h hv keyword _ _)
    (declarationTail_fresh hv keyword id)

end Loops

end Avii.Parser
