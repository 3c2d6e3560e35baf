import Avii.Tree.Parse

/-!
# Single steps of the parser

What the primitive steps of the parser do to the tokens, in two forms: what a step has done if
it succeeded (`*_ok`, for reading a run backwards), and what it does on tokens that are known
(`*_cons`, for running it). The proofs about whole parsers take the monad apart with `bind_ok`
and `bind_run` and never look inside it.
-/

namespace Avii.Parser

variable {α β : Type}

/-- The next token of a list; a list that has run out counts as one that ends. -/
def next (ts : List Token) : Token :=
  ts.headD (.endAt .start)

@[simp] theorem next_cons (t : Token) (ts : List Token) : next (t :: ts) = t := rfl

/-! ## Sequencing -/

/-- A sequence succeeds exactly if both halves do. -/
theorem bind_ok {p : Parser α} {f : α → Parser β} {ts rest : List Token} {b : β} :
    (p >>= f) ts = .ok (b, rest) ↔
      ∃ a mid, p ts = .ok (a, mid) ∧ f a mid = .ok (b, rest) := by
  simp only [bind, StateT.bind, Except.bind]
  cases hp : p ts with
  | error e => simp
  | ok r =>
    constructor
    · intro h
      exact ⟨r.1, r.2, rfl, h⟩
    · rintro ⟨a, mid, h, hf⟩
      cases h
      exact hf

/-- A sequence goes on with what its first half gives. -/
theorem bind_run {p : Parser α} {ts mid : List Token} {a : α} (h : p ts = .ok (a, mid))
    (f : α → Parser β) : (p >>= f) ts = f a mid := by
  simp only [bind, StateT.bind, Except.bind, h]

/-- To give an answer takes nothing. -/
theorem pure_ok {a b : α} {ts rest : List Token} :
    (pure a : Parser α) ts = .ok (b, rest) ↔ a = b ∧ ts = rest := by
  show Except.ok (a, ts) = Except.ok (b, rest) ↔ _
  simp

@[simp] theorem pure_run (a : α) (ts : List Token) : (pure a : Parser α) ts = .ok (a, ts) := rfl

@[simp] theorem get_run (ts : List Token) : (get : Parser (List Token)) ts = .ok (ts, ts) := rfl

theorem refuse_ne_ok {fault : ParseFault} {t : Token} {ts : List Token} {r : α × List Token} :
    (refuse fault t : Parser α) ts ≠ .ok r := by
  simp [refuse]

theorem giveUp_ne_ok {ts : List Token} {r : α × List Token} :
    (giveUp : Parser α) ts ≠ .ok r := by
  simp [giveUp]

/-! ## Tokens -/

@[simp] theorem current_run (ts : List Token) : current ts = .ok (next ts, ts) := by
  cases ts <;> rfl

/-- Any token but the closing end is taken. -/
theorem advance_cons {t : Token} (h : t.kind ≠ .eof) (ts : List Token) :
    advance (t :: ts) = .ok (t, ts) := by
  simp [advance, h]

/-- A token that is taken and is not `eof` was the first one. -/
theorem advance_ok {ts rest : List Token} {t : Token} (h : advance ts = .ok (t, rest))
    (hk : (next ts).kind ≠ .eof) : ts = t :: rest := by
  cases ts with
  | nil => exact absurd rfl hk
  | cons u us =>
    rw [advance_cons (t := u) hk] at h
    cases h
    rfl

/-- A token of the expected kind is taken. -/
theorem expect_cons {kind : Kind} {t : Token} (ht : t.kind = kind) (hk : kind ≠ .eof)
    (fault : Kind → ParseFault) (ts : List Token) :
    expect kind fault (t :: ts) = .ok (t, ts) := by
  unfold expect
  rw [bind_run (current_run _)]
  rw [next_cons, if_pos ht]
  exact advance_cons (ht ▸ hk) ts

/-- What is expected was the first token, and is taken. -/
theorem expect_ok {kind : Kind} {fault : Kind → ParseFault} {ts rest : List Token} {t : Token}
    (h : expect kind fault ts = .ok (t, rest)) (hk : kind ≠ .eof) :
    ts = t :: rest ∧ t.kind = kind := by
  unfold expect at h
  rw [bind_run (current_run _)] at h
  split at h
  next hkind =>
    have hts := advance_ok h (by rw [hkind]; exact hk)
    subst hts
    exact ⟨rfl, hkind⟩
  next => exact absurd h refuse_ne_ok

theorem expectKind_cons {kind : Kind} {t : Token} (ht : t.kind = kind) (hk : kind ≠ .eof)
    (ts : List Token) : expectKind kind (t :: ts) = .ok (t, ts) :=
  expect_cons ht hk _ ts

theorem expectKind_ok {kind : Kind} {ts rest : List Token} {t : Token}
    (h : expectKind kind ts = .ok (t, rest)) (hk : kind ≠ .eof) :
    ts = t :: rest ∧ t.kind = kind :=
  expect_ok h hk

/-- A token of the accepted kind is taken. -/
theorem accept_cons {kind : Kind} {t : Token} (ht : t.kind = kind) (hk : kind ≠ .eof)
    (ts : List Token) : accept kind (t :: ts) = .ok (true, ts) := by
  unfold accept
  rw [bind_run (current_run _), next_cons, if_pos ht, bind_run (advance_cons (ht ▸ hk) ts)]
  rfl

/-- Any other stays. -/
theorem accept_other {kind : Kind} {ts : List Token} (h : (next ts).kind ≠ kind) :
    accept kind ts = .ok (false, ts) := by
  unfold accept
  rw [bind_run (current_run _), if_neg h]
  rfl

/-- Either the first token had the kind and is taken, or it had not and nothing is. -/
theorem accept_ok {kind : Kind} {ts rest : List Token} {b : Bool}
    (h : accept kind ts = .ok (b, rest)) (hk : kind ≠ .eof) :
    (b = true ∧ ∃ t, ts = t :: rest ∧ t.kind = kind) ∨
      (b = false ∧ ts = rest ∧ (next ts).kind ≠ kind) := by
  by_cases hkind : (next ts).kind = kind
  · left
    cases ts with
    | nil => exact absurd hkind.symm hk
    | cons t us =>
      rw [accept_cons (t := t) hkind hk] at h
      cases h
      exact ⟨rfl, t, rfl, hkind⟩
  · right
    rw [accept_other hkind] at h
    cases h
    exact ⟨rfl, rfl, hkind⟩

end Avii.Parser
