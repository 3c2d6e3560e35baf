import Avii.Proofs.Syntax.Refusals

/-!
# Budgets that are large enough

`Finishes p ts` says that with every budget from some one on, the parser `p` does the same with the
tokens `ts`, and does not give up. Every parser finishes on every list, with an answer or with the
refusal of a token, and so does the parser of programs (`program_finishes`). This is by induction on
the number of tokens (`allFinish`): the parts that a construct tries on all of its tokens bind
tighter than it does, down to primary expressions, which take a token before they try anything else.
-/

namespace Avii.Parser

open Syntax (Eventually Level operandOf levelOf levelOf_succ derives_shorter kind_of_isOneOf
  parameters_reads startsFunctionDeclaration_run)

variable {α β : Type} {ts : List Token} {L : Nat}

/-- With every budget that is large enough, the parser ends in the same way, which is not for want
of budget. -/
def Finishes (p : Nat → Parser α) (ts : List Token) : Prop :=
  ∃ r, r ≠ .error .tooDeep ∧ Eventually fun n => p n ts = r

/-- It finishes on all lists of fewer tokens than `L`. -/
def FinishesBelow (L : Nat) (p : Nat → Parser α) : Prop :=
  ∀ ⦃ts : List Token⦄, ts.length < L → Finishes p ts

/-- No list has fewer than no tokens. -/
theorem finishesBelow_zero (p : Nat → Parser α) : FinishesBelow 0 p :=
  fun _ h => absurd h (Nat.not_lt_zero _)

namespace Finishes

variable {p q : Nat → Parser α} {f : Nat → α → Parser β}

/-- A parser without a budget that ends. -/
theorem always {p : Parser α} {r : Except Refusal (α × List Token)} (h : p ts = r)
    (hr : r ≠ .error .tooDeep) : Finishes (fun _ => p) ts :=
  ⟨r, hr, .always fun _ => h⟩

protected theorem pure (a : α) : Finishes (fun _ => (pure a : Parser α)) ts :=
  always rfl (by simp)

protected theorem refuse (fault : ParseFault) (t : Token) :
    Finishes (fun _ => (refuse fault t : Parser α)) ts :=
  always rfl (by simp [Parser.refuse])

/-- A construct passes on one less than its budget. -/
theorem under (h : Finishes (fun n => p (n + 1)) ts) : Finishes p ts := by
  obtain ⟨r, hr, h⟩ := h
  exact ⟨r, hr, h.under fun _ hn => hn⟩

/-- What finishes step by step finishes: the larger of two budgets is enough for both. -/
theorem bind (hp : Finishes p ts)
    (hf : ∀ a rest n, p n ts = .ok (a, rest) → Finishes (fun n => f n a) rest) :
    Finishes (fun n => p n >>= f n) ts := by
  obtain ⟨r, hr, N, hN⟩ := hp
  cases r with
  | error e =>
    refine ⟨.error e, ?_, N, fun n hn => bind_error.mpr (.inl (hN n hn))⟩
    rintro ⟨⟩
    exact hr rfl
  | ok x =>
    obtain ⟨r', hr', h'⟩ := hf x.1 x.2 N (hN N (Nat.le_refl N))
    exact ⟨r', hr', Eventually.both ⟨N, hN⟩ h' fun n hn hn' => (bind_run hn (f n)).trans hn'⟩

/-- After a part that leaves no more tokens than there were. -/
theorem call (hp : Finishes p ts) (hless : ∀ n, Shrinks (p n))
    (hf : ∀ a rest, rest.length ≤ ts.length → Finishes (fun n => f n a) rest) :
    Finishes (fun n => p n >>= f n) ts :=
  hp.bind fun a rest n h => hf a rest (hless n h)

/-- After a part that takes something. -/
theorem consume (hp : Finishes p ts) (hless : ∀ n, Lessens (p n))
    (hf : ∀ a rest, rest.length < ts.length → Finishes (fun n => f n a) rest) :
    Finishes (fun n => p n >>= f n) ts :=
  hp.bind fun a rest n h => hf a rest (hless n h)

/-- A choice finishes if what is chosen does. -/
protected theorem ite {c : Prop} [Decidable c] (hp : c → Finishes p ts)
    (hq : ¬ c → Finishes q ts) : Finishes (fun n => if c then p n else q n) ts := by
  split
  next h => exact hp h
  next h => exact hq h

/-! ### Steps -/

/-- To look at the next token takes no budget. -/
theorem current {f : Nat → Token → Parser β} (h : Finishes (fun n => f n (next ts)) ts) :
    Finishes (fun n => Parser.current >>= f n) ts := by
  refine bind (p := fun _ => Parser.current) (always (current_run ts) (by simp)) ?_
  intro t rest _ ht
  rw [current_run] at ht
  cases ht
  exact h

/-- To see all tokens takes no budget. -/
theorem tokens {f : Nat → List Token → Parser β} (h : Finishes (fun n => f n ts) ts) :
    Finishes (fun n => get >>= f n) ts := by
  refine bind (p := fun _ => get) (always (get_run ts) (by simp)) ?_
  rintro us rest _ ⟨⟩
  exact h

/-- To take a token is never too deep. -/
theorem advance_ne_tooDeep (ts : List Token) : Parser.advance ts ≠ .error .tooDeep := by
  unfold Parser.advance
  split
  · simp
  · split <;> simp

/-- After a token is taken there are fewer of them, for what goes on to finish on. -/
theorem advance {f : Nat → Token → Parser β} (hk : (next ts).kind ≠ .eof)
    (h : ∀ t rest, rest.length < ts.length → Finishes (fun n => f n t) rest) :
    Finishes (fun n => Parser.advance >>= f n) ts :=
  bind (p := fun _ => Parser.advance) (always rfl (advance_ne_tooDeep ts)) fun t rest _ ht =>
    h t rest (advance_lessens ht hk)

/-- To expect a token is never too deep. -/
theorem expect_ne_tooDeep (kind : Kind) (fault : Kind → ParseFault) (ts : List Token) :
    Parser.expect kind fault ts ≠ .error .tooDeep := by
  unfold Parser.expect
  rw [bind_run (current_run _)]
  split
  · exact advance_ne_tooDeep ts
  · simp [Parser.refuse]

/-- After an expected token there are fewer of them. -/
theorem expect {f : Nat → Token → Parser β} {kind : Kind} {fault : Kind → ParseFault}
    (hk : kind ≠ .eof)
    (h : ∀ t rest, rest.length < ts.length → Finishes (fun n => f n t) rest) :
    Finishes (fun n => Parser.expect kind fault >>= f n) ts :=
  consume (p := fun _ => Parser.expect kind fault) (always rfl (expect_ne_tooDeep kind fault ts))
    (fun _ => expect_lessens hk) h

/-- After an accepted token there are fewer of them; otherwise there are as many as before. -/
theorem accept {f : Nat → Bool → Parser β} {kind : Kind} (hk : kind ≠ .eof)
    (hyes : ∀ rest, rest.length < ts.length → Finishes (fun n => f n true) rest)
    (hno : Finishes (fun n => f n false) ts) :
    Finishes (fun n => Parser.accept kind >>= f n) ts := by
  by_cases hkind : (next ts).kind = kind
  · obtain ⟨us, hus⟩ := next_inner (hkind ▸ hk : (next ts).kind ≠ .eof)
    rw [hus]
    refine bind (p := fun _ => Parser.accept kind)
      (always (accept_cons (t := next ts) hkind hk us) (by simp)) ?_
    intro b rest _ hb
    rw [accept_cons hkind hk] at hb
    cases hb
    exact hyes us (by rw [hus]; exact Nat.lt_succ_self us.length)
  · refine bind (p := fun _ => Parser.accept kind)
      (always (accept_other hkind) (by simp)) ?_
    intro b rest _ hb
    rw [accept_other hkind] at hb
    cases hb
    exact hno

end Finishes

/-! ## Repetition -/

section Repetition

variable {item : Nat → Parser Tree} (hitem : FinishesBelow L item) (hless : ∀ n, Lessens (item n))

include hitem hless

/-- Joining operators finishes, by induction on the rounds. -/
theorem joinLeft_finishes (ℓ : Level) : ∀ (k : Nat) (left : Tree) {ts : List Token},
    ts.length ≤ L → Finishes (fun n => joinLeft ℓ.isOperator ℓ.label (item n) k left) ts
  | 0, left, _, _ => .pure left
  | k + 1, left, ts, hts => by
    refine .current (.ite (fun hop => ?_) fun _ => .pure left)
    refine .advance (operator_inner hop) fun _ us hus => ?_
    refine .consume (hitem (by omega)) hless fun right vs hvs => ?_
    exact joinLeft_finishes ℓ k _ (by omega)

/-- A level of operators finishes where its operands do. -/
theorem leftGrouped_finishes (ℓ : Level) (hts : ts.length ≤ L) (h : Finishes item ts) :
    Finishes (fun n => leftGrouped ℓ.isOperator ℓ.label (item n)) ts := by
  refine h.consume hless fun left us hus => ?_
  refine .current (.ite (fun _ => ?_) fun _ => .pure left)
  exact .tokens (joinLeft_finishes hitem hless ℓ us.length left (by omega))

/-- Items after commas finish, by induction on the rounds. -/
theorem afterCommas_finishes : ∀ (k : Nat) {ts : List Token}, ts.length ≤ L →
    Finishes (fun n => afterCommas (item n) k) ts
  | 0, _, _ => .pure []
  | k + 1, ts, hts => by
    refine .accept (by decide) (fun us hus => ?_) (.pure [])
    refine .consume (hitem (by omega)) hless fun t vs hvs => ?_
    refine (afterCommas_finishes k (by omega)).bind fun items rest _ _ => ?_
    exact .pure _

theorem separated_finishes (hts : ts.length ≤ L) (h : Finishes item ts) :
    Finishes (fun n => separated (item n)) ts := by
  refine h.consume hless fun t us hus => ?_
  refine .current (.ite (fun _ => ?_) fun _ => .pure [t])
  refine .tokens ((afterCommas_finishes hitem hless us.length (by omega)).bind ?_)
  exact fun items rest _ _ => .pure _

/-- Statements up to an end finish, by induction on the rounds. As a statement may start with the
first token, the list has to be below the bound itself. -/
theorem statementsUpTo_finishes (isEnd : Kind → Bool) :
    ∀ (k : Nat) {ts : List Token}, ts.length < L →
      Finishes (fun n => statementsUpTo isEnd (item n) k) ts
  | 0, _, _ => .pure []
  | k + 1, ts, hts => by
    refine .current (.ite (fun _ => .pure []) fun _ => .ite (fun hsemi => ?_) fun _ => ?_)
    · refine .advance (by rw [hsemi]; decide) fun _ us hus => ?_
      exact statementsUpTo_finishes isEnd k (by omega)
    · refine (hitem hts).consume hless fun s us hus => ?_
      refine (statementsUpTo_finishes isEnd k (by omega)).bind fun ss rest _ _ => ?_
      exact .pure _

theorem statements_finishes (isEnd : Kind → Bool) (hts : ts.length < L) :
    Finishes (fun n => statements isEnd (item n)) ts :=
  .tokens (statementsUpTo_finishes hitem hless isEnd ts.length hts)

end Repetition

/-! ## Parameters -/

/-- Parameters after commas need no budget. -/
theorem parametersAfter_finishes : ∀ (k : Nat) (seen : List String) {ts : List Token},
    Finishes (fun _ => parametersAfter seen k) ts
  | 0, _, _ => .pure []
  | k + 1, seen, ts => by
    refine .accept (by decide) (fun us hus => ?_) (.pure [])
    refine .bind (p := fun _ => parameter seen) (.expect (by decide) fun t vs hvs => ?_) ?_
    · exact .ite (fun _ => .refuse _ t) fun _ => .pure _
    · intro p vs _ _
      refine (parametersAfter_finishes k (p.text :: seen)).bind fun ps rest _ _ => ?_
      exact .pure _

/-- Neither do parameters in parentheses. -/
theorem parameters_finishes (ts : List Token) : Finishes (fun _ => parameters) ts := by
  refine .expect (by decide) fun _ us _ => ?_
  refine .bind (p := fun _ => parameterNames) ?_ fun names vs _ _ => ?_
  · refine .current (.ite (fun _ => .pure []) fun _ => ?_)
    refine .bind (p := fun _ => parameter []) (.expect (by decide) fun t vs hvs => ?_) ?_
    · exact .ite (fun _ => .refuse _ t) fun _ => .pure _
    · intro p vs _ _
      refine .tokens ((parametersAfter_finishes vs.length [p.text]).bind fun ps rest _ _ => ?_)
      exact .pure _
  · exact .expect (by decide) fun _ _ _ => .pure _

theorem parameters_lessens : Lessens parameters :=
  fun h => derives_shorter (parameters_reads h) id

/-! ## Pieces of constructs -/

section Pieces

variable {expr : Nat → Parser Tree} (he : FinishesBelow L expr) (hless : ∀ n, Lessens (expr n))

include he hless

/-- A list that may be empty finishes where its items do. -/
theorem listUpTo_finishes (close : Kind) (hts : ts.length ≤ L) (h : Finishes expr ts) :
    Finishes (fun n => listUpTo close (expr n)) ts :=
  .current (.ite (fun _ => .pure []) fun _ => separated_finishes he hless hts h)

/-- Links finish, by induction on the rounds. -/
theorem links_finishes {args : Nat → Parser (List Tree)} (ha : FinishesBelow L args)
    (hshrinks : ∀ n, Shrinks (args n)) : ∀ (k : Nat) (target : Tree) {ts : List Token},
    ts.length ≤ L → Finishes (fun n => links (expr n) (args n) k target) ts
  | 0, target, _, _ => .pure target
  | k + 1, target, ts, hts => by
    refine .current ?_
    cases hk : (next ts).kind with
    | dot =>
      refine .advance (by rw [hk]; decide) fun _ us hus => .expect (by decide) fun name vs hvs => ?_
      exact links_finishes ha hshrinks k _ (by omega)
    | lsqb =>
      refine .advance (by rw [hk]; decide) fun _ us hus => ?_
      refine .consume (he (by omega)) hless fun key vs hvs => .expect (by decide) fun _ ws hws => ?_
      exact links_finishes ha hshrinks k _ (by omega)
    | lpar =>
      refine .advance (by rw [hk]; decide) fun _ us hus => ?_
      refine .call (ha (by omega)) hshrinks fun as vs hvs => .expect (by decide) fun _ ws hws => ?_
      exact links_finishes ha hshrinks k _ (by omega)
    | _ => exact .pure target

/-- A property finishes: its value has fewer tokens. -/
theorem property_finishes (hts : ts.length ≤ L) : Finishes (fun n => property (expr n)) ts := by
  refine .expect (by decide) fun key us hus => ?_
  refine .accept (by decide) (fun vs hvs => ?_) (.pure _)
  exact .consume (he (by omega)) hless fun value ws hws => .pure _

/-- Properties finish, by induction on the rounds. -/
theorem properties_finishes : ∀ (k : Nat) {ts : List Token}, ts.length ≤ L →
    Finishes (fun n => properties (expr n) k) ts
  | 0, _, _ => .pure []
  | k + 1, ts, hts => by
    refine .current (.ite (fun _ => .pure []) fun _ => ?_)
    refine .consume (property_finishes he hless hts) (fun n => property_lessens (hless n)) ?_
    intro prop us hus
    refine .accept (by decide) (fun vs hvs => ?_) (.pure _)
    refine (properties_finishes k (by omega)).bind fun props rest _ _ => ?_
    exact .pure _

/-- An object finishes where its properties do. -/
theorem objectOf_finishes (hts : ts.length ≤ L) : Finishes (fun n => objectOf (expr n)) ts := by
  refine .expect (by decide) fun t us hus => .tokens ?_
  refine (properties_finishes he hless us.length (by omega)).bind fun props vs _ _ => ?_
  exact .expect (by decide) fun _ _ _ => .pure _

theorem arrayOf_finishes (hts : ts.length ≤ L) : Finishes (fun n => arrayOf (expr n)) ts := by
  refine .expect (by decide) fun t us hus => ?_
  have hlt : us.length < L := Nat.lt_of_lt_of_le hus hts
  refine (listUpTo_finishes he hless .rsqb (Nat.le_of_lt hlt) (he hlt)).bind ?_
  intro items vs _ _
  exact .expect (by decide) fun _ _ _ => .pure _

/-- A block finishes: its statements have fewer tokens than it. -/
theorem blockOf_finishes (hts : ts.length ≤ L) : Finishes (fun n => blockOf (expr n)) ts := by
  refine .expect (by decide) fun _ us hus => ?_
  refine (statements_finishes he hless _ (by omega)).bind fun body vs _ _ => ?_
  exact .expect (by decide) fun _ _ _ => .pure _

/-- A declaration finishes after its keyword. -/
theorem declaration_finishes (hk : (next ts).kind ≠ .eof) (hts : ts.length ≤ L) :
    Finishes (fun n => declaration (expr n)) ts := by
  refine .advance hk fun keyword us hus => .expect (by decide) fun name vs hvs => ?_
  refine .current (.ite (fun hsemi => .ite (fun _ => .refuse _ _) fun _ => ?_) fun _ => ?_)
  · exact .advance (by rw [hsemi]; decide) fun _ _ _ => .pure _
  · refine .expect (by decide) fun _ ws hws => ?_
    refine .consume (he (by omega)) hless fun value _ _ => ?_
    exact .expect (by decide) fun _ _ _ => .pure _

end Pieces

/-! ## Constructs -/

/-- The constructs that others have as parts after their first token finish below `L`. -/
structure AllFinish (L : Nat) : Prop where
  statement : FinishesBelow L statement
  conditional : FinishesBelow L conditional
  block : FinishesBelow L block
  expression : FinishesBelow L expression
  assignment : FinishesBelow L assignment
  operand : ∀ ℓ, FinishesBelow L (operandOf ℓ)
  arguments : FinishesBelow L arguments

namespace AllFinish

variable (ih : AllFinish L) (hts : ts.length ≤ L)

include ih hts

theorem block_finishes : Finishes Parser.block ts :=
  .under (blockOf_finishes ih.statement statement_lessens hts)

/-- A primary expression finishes on as many tokens as the bound, if all constructs do on fewer. -/
theorem primary_finishes : Finishes primary ts := by
  refine .under (.current ?_)
  cases hk : (next ts).kind with
  | number | string | ident => exact .advance (by rw [hk]; decide) fun _ _ _ => .pure _
  | lpar =>
    refine .advance (by rw [hk]; decide) fun _ us hus => ?_
    refine .consume (ih.expression (by omega)) expression_lessens fun e _ _ => ?_
    exact .expect (by decide) fun _ _ _ => .pure _
  | lbrace => exact .under (objectOf_finishes ih.expression expression_lessens hts)
  | lsqb => exact .under (arrayOf_finishes ih.expression expression_lessens hts)
  | funcWord =>
    refine .advance (by rw [hk]; decide) fun _ us hus => ?_
    refine .consume (p := fun _ => parameters) (parameters_finishes us)
      (fun _ => parameters_lessens) fun params vs hvs => ?_
    exact (ih.block (by omega)).bind fun body _ _ _ => .pure _
  | _ => exact .refuse _ _

/-- So does a chain: its links come after a primary expression. -/
theorem chain_finishes : Finishes chain ts := by
  refine .under ((ih.primary_finishes hts).consume primary_lessens fun target us hus => ?_)
  refine .current (.ite (fun _ => .tokens ?_) fun _ => .pure target)
  exact links_finishes ih.expression expression_lessens ih.arguments arguments_shrinks us.length
    target (by omega)

/-- So does a power: its exponent comes after its base. -/
theorem power_finishes : Finishes power ts := by
  refine .under ((ih.chain_finishes hts).consume chain_lessens fun base us hus => ?_)
  refine .current (.ite (fun hop => ?_) fun _ => .pure base)
  refine .advance (by rw [kind_of_isOneOf hop]; decide) fun _ vs hvs => ?_
  exact (ih.operand .product (by omega)).bind fun exponent _ _ _ => .pure _

/-- A level finishes where its operands do. -/
theorem level_finishes (ℓ : Level) (h : Finishes (operandOf ℓ) ts) : Finishes (levelOf ℓ) ts := by
  refine .under ?_
  simp only [levelOf_succ]
  exact leftGrouped_finishes (ih.operand ℓ) (operandOf_lessens ℓ) ℓ hts h

/-- The operands of every level finish, from the tightest level to the loosest. -/
theorem operand_finishes (ℓ : Level) : Finishes (operandOf ℓ) ts := by
  have hpower := ih.power_finishes hts
  have hproduct := ih.level_finishes hts .product hpower
  have hsum := ih.level_finishes hts .sum hproduct
  have hequality := ih.level_finishes hts .equality hsum
  cases ℓ with
  | logical => exact hequality
  | equality => exact hsum
  | sum => exact hproduct
  | product => exact hpower

/-- So does an assignment: its value comes after its target. -/
theorem assignment_finishes : Finishes Parser.assignment ts := by
  have hlogical : Finishes logical ts := ih.level_finishes hts .logical (ih.operand_finishes hts _)
  refine .under (hlogical.consume logical_lessens fun target us hus => ?_)
  refine .current (.ite (fun heq => ?_) fun _ => .pure target)
  refine .advance (by rw [heq]; decide) fun _ vs hvs => .ite (fun _ => ?_) fun _ => .refuse _ _
  exact (ih.assignment (by omega)).bind fun value _ _ _ => .pure _

theorem expression_finishes : Finishes Parser.expression ts :=
  .under (ih.assignment_finishes hts)

theorem functionDeclaration_finishes : Finishes functionDeclaration ts := by
  refine .under (.expect (by decide) fun _ us hus => .expect (by decide) fun name vs hvs => ?_)
  refine .consume (p := fun _ => parameters) (parameters_finishes vs)
    (fun _ => parameters_lessens) fun params ws hws => ?_
  exact (ih.block (by omega)).bind fun body _ _ _ => .pure _

theorem conditional_finishes : Finishes Parser.conditional ts := by
  refine .under (.expect (by decide) fun t us hus => ?_)
  refine .consume (ih.expression (by omega)) expression_lessens fun test vs hvs => ?_
  refine .consume (ih.block (by omega)) block_lessens fun consequent ws hws => ?_
  refine .bind ?_ fun alternate _ _ _ => .pure _
  refine .accept (by decide) (fun us hus => .current (.ite (fun _ => ?_) fun _ => ?_)) (.pure _)
  · exact (ih.conditional (by omega)).bind fun nested _ _ _ => .pure _
  · exact ih.block (by omega)

/-- So does a statement, whichever it is. -/
theorem statement_finishes : Finishes Parser.statement ts := by
  refine .under (.current (.ite (fun hword => ?_) fun _ => ?_))
  · have hinner : (next ts).kind ≠ .eof := by rcases hword with h | h <;> rw [h] <;> decide
    exact .under (declaration_finishes ih.expression expression_lessens hinner hts)
  obtain ⟨starts, hrun, -⟩ := startsFunctionDeclaration_run ts
  refine .bind (p := fun _ => startsFunctionDeclaration) (.always hrun (by simp)) ?_
  intro b rest _ hb
  rw [hrun] at hb
  cases hb
  refine .ite (fun _ => ih.functionDeclaration_finishes hts) fun _ => ?_
  exact .ite (fun _ => ih.conditional_finishes hts) fun _ => ih.expression_finishes hts

theorem arguments_finishes : Finishes Parser.arguments ts :=
  .under (listUpTo_finishes ih.expression expression_lessens .rpar hts
    (ih.expression_finishes hts))

end AllFinish

/-- All of them finish on lists of any length. -/
theorem allFinish : ∀ L, AllFinish L
  | 0 =>
    { statement := finishesBelow_zero _
      conditional := finishesBelow_zero _
      block := finishesBelow_zero _
      expression := finishesBelow_zero _
      assignment := finishesBelow_zero _
      operand := fun _ => finishesBelow_zero _
      arguments := finishesBelow_zero _ }
  | L + 1 =>
    have ih := allFinish L
    { statement := fun _ h => ih.statement_finishes (Nat.le_of_lt_succ h)
      conditional := fun _ h => ih.conditional_finishes (Nat.le_of_lt_succ h)
      block := fun _ h => ih.block_finishes (Nat.le_of_lt_succ h)
      expression := fun _ h => ih.expression_finishes (Nat.le_of_lt_succ h)
      assignment := fun _ h => ih.assignment_finishes (Nat.le_of_lt_succ h)
      operand := fun ℓ _ h => ih.operand_finishes (Nat.le_of_lt_succ h) ℓ
      arguments := fun _ h => ih.arguments_finishes (Nat.le_of_lt_succ h) }

/-- A program finishes on every list of tokens. -/
theorem program_finishes (ts : List Token) : Finishes program ts := by
  have hbelow := (allFinish (ts.length + 1)).statement
  refine (statements_finishes hbelow statement_lessens _ (Nat.lt_succ_self _)).bind ?_
  exact fun body _ _ _ => .pure _

end Avii.Parser
