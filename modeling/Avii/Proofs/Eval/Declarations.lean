import Avii.Proofs.Eval.Afterwards
import Avii.Proofs.Simulation.Evaluation

/-!
# The scopes of declared functions

The closure of a declared function captures a scope of its own, made inside the one that the
declaration stands in. That scope cannot be told from the other. It never receives a binding, so
whatever is looked up from it, or from a scope inside it, is found in the scope around it.
Evaluation in which closures capture that one directly (`declareDirectly`) gives the same values,
faults and printed text, and leaves the same bindings in all other scopes
(`declaration_scopes_unobservable`).

The two evaluations number their scopes differently. A list of fates says what each scope of the
first is in the second (`Fate`); it only grows. Stores belong together if they have the same
bindings in the scopes that are kept, and none in the others (`Bypasses`). This is a lawful
simulation (`bypassing_lawful`), in which a declaration here may make a scope and there none
(`mirrors_declaration`).
-/

namespace Avii.Eval

open Store (Leads)

/-! ## Which stores belong together -/

/-- What becomes of a scope where declarations make none: it is a scope there too, or, having been
made by a declaration, it is none, and closures capture the scope of the declaration instead. -/
inductive Fate where
  | kept (id : ScopeId)
  | bypassed (id : ScopeId)

/-- The scope that closures capture there. -/
def Fate.target : Fate → ScopeId
  | kept id | bypassed id => id

variable {τ τ' : List Fate} {s t : Store} {a b : ScopeId}

/-- A scope here is the same as one there. -/
def KeptAs (τ : List Fate) (a b : ScopeId) : Prop :=
  τ[a]? = some (.kept b)

/-- Closures that capture a scope here capture another one there. -/
def CapturedAs (τ : List Fate) (a b : ScopeId) : Prop :=
  τ[a]?.map Fate.target = some b

/-- Two scopes with the same bindings, inside scopes that closures could capture for each other. -/
structure ScopesAlike (τ : List Fate) (a b : ScopeId) (x y : Scope) : Prop where
  parent : Option.Rel (fun p q => p < a ∧ q < b ∧ CapturedAs τ p q) x.parent y.parent
  bindings : List.Forall₂ (Binding.Alike .keep (CapturedAs τ)) x.bindings y.bindings

/-- Two stores are the same but for the numbers of scopes and for the scopes that declarations have
made. Every scope has its fate: those that are kept are the scopes of the second store, one by one;
the others are empty, and stand directly in the scope that is captured in their stead. -/
structure Bypasses (τ : List Fate) (s t : Store) : Prop where
  fates : τ.length = s.next
  kept : ∀ {a b}, KeptAs τ a b → ∃ x y, s.scopes[a]? = some x ∧ t.scopes[b]? = some y ∧
    ScopesAlike τ a b x y
  bypassed : ∀ {a b}, τ[a]? = some (.bypassed b) → ∃ p < a,
    s.scopes[a]? = some (.empty (some p)) ∧ KeptAs τ p b
  injective : ∀ {a a' b}, KeptAs τ a b → KeptAs τ a' b → a = a'
  onto : ∀ b < t.next, ∃ a, KeptAs τ a b

theorem captured_of_kept (h : KeptAs τ a b) : CapturedAs τ a b :=
  Option.map_eq_some_iff.mpr ⟨_, h, rfl⟩

theorem captured_of_bypassed (h : τ[a]? = some (.bypassed b)) : CapturedAs τ a b :=
  Option.map_eq_some_iff.mpr ⟨_, h, rfl⟩

/-- A captured scope is kept, or was bypassed by a declaration. -/
theorem captured_cases (h : CapturedAs τ a b) : KeptAs τ a b ∨ τ[a]? = some (.bypassed b) := by
  obtain ⟨f, hf, rfl⟩ := Option.map_eq_some_iff.mp h
  cases f with
  | kept => exact .inl hf
  | bypassed => exact .inr hf

theorem fate_later {f : Fate} (h : τ <+: τ') (hf : τ[a]? = some f) : τ'[a]? = some f := by
  obtain ⟨rest, rfl⟩ := h
  rw [List.getElem?_append_left (List.getElem?_eq_some_iff.mp hf).1, hf]

/-- A captured scope stays captured while more scopes are created. -/
theorem captured_later (h : τ <+: τ') (a b : ScopeId) (hab : CapturedAs τ a b) :
    CapturedAs τ' a b := by
  obtain ⟨f, hf, rfl⟩ := Option.map_eq_some_iff.mp hab
  exact Option.map_eq_some_iff.mpr ⟨f, fate_later h hf, rfl⟩

theorem ScopesAlike.later {x y : Scope} (hxy : ScopesAlike τ a b x y) (h : τ <+: τ') :
    ScopesAlike τ' a b x y := by
  obtain ⟨hparent, hbindings⟩ := hxy
  refine ⟨?_, hbindings.imp fun _ _ hb => hb.later (captured_later h)⟩
  generalize x.parent = p at hparent ⊢
  generalize y.parent = q at hparent ⊢
  cases hparent with
  | none => exact .none
  | some hpq => exact .some ⟨hpq.1, hpq.2.1, captured_later h _ _ hpq.2.2⟩

/-! ## Names -/

/-- Scopes that are alike bind the same names. -/
theorem ScopesAlike.binds {x y : Scope} (h : ScopesAlike τ a b x y) (name : String) :
    y.binds name = x.binds name := by
  have hfound := find?_alike h.bindings name
  unfold Scope.binds Scope.find?
  generalize x.bindings.find? _ = found at hfound ⊢
  generalize y.bindings.find? _ = found' at hfound ⊢
  cases hfound <;> rfl

/-- A search ends in the first scope that binds the name, going from inside out. -/
theorem resolve_scope {x : Scope} (hx : s.scopes[a]? = some x) (name : String) :
    s.resolve a name = if x.binds name then some a else
      x.parent.bind fun p => if p < a then s.resolve p name else none := by
  rw [Store.resolve]
  cases hp : x.parent <;> simp [hx, hp]

/-- A name is found in scopes that are the same. -/
theorem Bypasses.resolve (h : Bypasses τ s t) {a b : ScopeId} (hab : CapturedAs τ a b)
    (name : String) : Option.Rel (KeptAs τ) (s.resolve a name) (t.resolve b name) := by
  rcases captured_cases hab with hkept | hbypassed
  · obtain ⟨x, y, hx, hy, hxy⟩ := h.kept hkept
    rw [resolve_scope hx, resolve_scope hy, hxy.binds]
    split
    next => exact .some hkept
    next =>
      obtain ⟨hparent, -⟩ := hxy
      generalize x.parent = p at hparent ⊢
      generalize y.parent = q at hparent ⊢
      cases hparent with
      | none => exact .none
      | some hpq =>
        obtain ⟨hp, hq, hpq⟩ := hpq
        simp only [Option.bind_some, hp, hq, if_true]
        exact h.resolve hpq name
  · -- the scope is empty, so the search goes on in the one that is captured instead
    obtain ⟨p, hp, hx, hpb⟩ := h.bypassed hbypassed
    rw [resolve_scope hx]
    simp only [Scope.empty, Scope.binds, Scope.find?, List.find?_nil, Option.isSome_none,
      Bool.false_eq_true, if_false, Option.bind_some, hp, if_true]
    exact h.resolve (captured_of_kept hpb) name
termination_by a

/-- A name is found alike from a kept scope: the empty scopes that are bypassed bind nothing. -/
theorem Bypasses.binding? (h : Bypasses τ s t) (hab : KeptAs τ a b) (name : String) :
    Option.Rel (Binding.Alike .keep (CapturedAs τ)) (s.binding? a name) (t.binding? b name) := by
  unfold Store.binding?
  have hresolve := h.resolve (captured_of_kept hab) name
  generalize s.resolve a name = owner at hresolve ⊢
  generalize t.resolve b name = owner' at hresolve ⊢
  cases hresolve with
  | none => exact .none
  | some howner =>
    obtain ⟨x, y, hx, hy, hxy⟩ := h.kept howner
    simp only [hx, hy, Option.bind_some]
    exact find?_alike hxy.bindings name

/-! ## Changes -/

/-- A change of kept scopes that keeps them alike goes on bypassing the others. -/
theorem Bypasses.modify (h : Bypasses τ s t) (hab : KeptAs τ a b) {f g : Scope → Scope}
    (hfg : ∀ {x y}, ScopesAlike τ a b x y → ScopesAlike τ a b (f x) (g y)) :
    Bypasses τ (s.modify a f) (t.modify b g) where
  fates := by rw [h.fates, Store.next_modify]
  kept {a' b'} hkept := by
    obtain ⟨x, y, hx, hy, hxy⟩ := h.kept hkept
    rw [Store.scopes_modify, Store.scopes_modify, hx, hy]
    by_cases ha : a = a'
    · subst ha
      obtain rfl : b = b' := Fate.kept.inj (Option.some.inj (hab.symm.trans hkept))
      rw [if_pos rfl, if_pos rfl]
      exact ⟨f x, g y, rfl, rfl, hfg hxy⟩
    · have hb : b ≠ b' := by
        rintro rfl
        exact ha (h.injective hab hkept)
      rw [if_neg ha, if_neg hb]
      exact ⟨x, y, rfl, rfl, hxy⟩
  bypassed {a' b'} hbypassed := by
    have ha : a ≠ a' := by
      rintro rfl
      cases hab.symm.trans hbypassed
    rw [Store.scopes_modify, if_neg ha]
    exact h.bypassed hbypassed
  injective := h.injective
  onto b' hb' := h.onto b' (by rwa [Store.next_modify] at hb')

/-- With one scope more, a scope has its fate as before, or is the new one. -/
theorem fate_cases {f g : Fate} (h : (τ ++ [g])[a]? = some f) :
    τ[a]? = some f ∨ a = τ.length ∧ f = g := by
  by_cases ha : a < τ.length
  · rw [List.getElem?_append_left ha] at h
    exact .inl h
  · rw [List.getElem?_append_right (Nat.not_lt.mp ha)] at h
    obtain ⟨hlt, rfl⟩ := List.getElem?_eq_some_iff.mp h
    simp only [List.length_singleton, Nat.lt_one_iff] at hlt
    exact .inr ⟨Nat.le_antisymm (Nat.sub_eq_zero_iff_le.mp hlt) (Nat.not_lt.mp ha), by simp⟩

/-- The next scope gets the next fate. -/
theorem Bypasses.fate_next (h : Bypasses τ s t) (f : Fate) : (τ ++ [f])[s.next]? = some f := by
  rw [← h.fates]
  simp

/-- Kept scopes are there on both sides. -/
theorem Bypasses.kept_lt (h : Bypasses τ s t) (hab : KeptAs τ a b) : a < s.next ∧ b < t.next := by
  obtain ⟨x, y, hx, hy, -⟩ := h.kept hab
  exact ⟨(Array.getElem?_eq_some_iff.mp hx).1, (Array.getElem?_eq_some_iff.mp hy).1⟩

theorem Bypasses.captured_lt (h : Bypasses τ s t) (hab : CapturedAs τ a b) :
    a < s.next ∧ b < t.next := by
  rcases captured_cases hab with hkept | hbypassed
  · exact h.kept_lt hkept
  · obtain ⟨p, -, hx, hpb⟩ := h.bypassed hbypassed
    exact ⟨(Array.getElem?_eq_some_iff.mp hx).1, (h.kept_lt hpb).2⟩

/-- A scope that is created in both stores is the same in both. -/
theorem Bypasses.create (h : Bypasses τ s t) (hab : CapturedAs τ a b) :
    Bypasses (τ ++ [.kept t.next]) (s.create (.empty (some a))) (t.create (.empty (some b))) := by
  have hlater : τ <+: τ ++ [.kept t.next] := List.prefix_append _ _
  obtain ⟨ha, hb⟩ := h.captured_lt hab
  refine ⟨by simp [h.fates], ?_, ?_, ?_, ?_⟩
  · intro a' b' hkept
    rw [Store.scopes_create, Store.scopes_create]
    rcases fate_cases hkept with hold | ⟨rfl, hnew⟩
    · obtain ⟨x, y, hx, hy, hxy⟩ := h.kept hold
      rw [if_neg (Store.ne_next hx), if_neg (Store.ne_next hy)]
      exact ⟨x, y, hx, hy, hxy.later hlater⟩
    · cases hnew
      rw [h.fates, if_pos rfl, if_pos rfl]
      exact ⟨_, _, rfl, rfl, .some ⟨ha, hb, captured_later hlater a b hab⟩, .nil⟩
  · intro a' b' hbypassed
    rcases fate_cases hbypassed with hold | ⟨-, hnew⟩
    · obtain ⟨p, hp, hx, hpb⟩ := h.bypassed hold
      rw [Store.scopes_create, if_neg (Store.ne_next hx)]
      exact ⟨p, hp, hx, fate_later hlater hpb⟩
    · cases hnew
  · intro a₁ a₂ b' h₁ h₂
    rcases fate_cases h₁ with h₁ | ⟨rfl, hnew₁⟩ <;> rcases fate_cases h₂ with h₂ | ⟨rfl, hnew₂⟩
    · exact h.injective h₁ h₂
    · cases hnew₂
      exact absurd (h.kept_lt h₁).2 (Nat.lt_irrefl _)
    · cases hnew₁
      exact absurd (h.kept_lt h₂).2 (Nat.lt_irrefl _)
    · rfl
  · intro b' hb'
    rw [Store.next_create] at hb'
    rcases Nat.lt_succ_iff_lt_or_eq.mp hb' with hold | rfl
    · obtain ⟨a', ha'⟩ := h.onto b' hold
      exact ⟨a', fate_later hlater ha'⟩
    · exact ⟨s.next, h.fate_next _⟩

/-- A scope that is created in the first store only, inside one that is kept, is bypassed. -/
theorem Bypasses.bypass (h : Bypasses τ s t) (hab : KeptAs τ a b) :
    Bypasses (τ ++ [.bypassed b]) (s.create (.empty (some a))) t := by
  have hlater : τ <+: τ ++ [.bypassed b] := List.prefix_append _ _
  have hkept : ∀ {a' b'}, KeptAs (τ ++ [.bypassed b]) a' b' → KeptAs τ a' b' := fun hkept =>
    (fate_cases hkept).resolve_right fun ⟨_, hnew⟩ => by cases hnew
  refine ⟨by simp [h.fates], ?_, ?_, ?_, ?_⟩
  · intro a' b' h'
    obtain ⟨x, y, hx, hy, hxy⟩ := h.kept (hkept h')
    rw [Store.scopes_create, if_neg (Store.ne_next hx)]
    exact ⟨x, y, hx, hy, hxy.later hlater⟩
  · intro a' b' hbypassed
    rw [Store.scopes_create]
    rcases fate_cases hbypassed with hold | ⟨rfl, hnew⟩
    · obtain ⟨p, hp, hx, hpb⟩ := h.bypassed hold
      rw [if_neg (Store.ne_next hx)]
      exact ⟨p, hp, hx, fate_later hlater hpb⟩
    · cases hnew
      rw [h.fates, if_pos rfl]
      exact ⟨a, (h.kept_lt hab).1, rfl, fate_later hlater hab⟩
  · intro a₁ a₂ b' h₁ h₂
    exact h.injective (hkept h₁) (hkept h₂)
  · intro b' hb'
    obtain ⟨a', ha'⟩ := h.onto b' hb'
    exact ⟨a', fate_later hlater ha'⟩

/-! ## The simulation -/

/-- An evaluation beside one in which some scopes are bypassed. The notes before either do not
matter. -/
def bypassing (here there : List Event) : Simulation where
  places := .keep
  Time := List Fate
  later τ τ' := τ <+: τ'
  scope := KeptAs
  captured := CapturedAs
  store := Bypasses
  notedHere := here
  notedThere := there

variable {here there : List Event}

/-- To bypass scopes of declarations is a lawful simulation. -/
theorem bypassing_lawful : (bypassing here there).Lawful where
  refl _ := List.prefix_refl _
  trans h h' := h.trans h'
  scope_later h hab := fate_later h hab
  captured_later := captured_later
  captured_of_scope := captured_of_kept
  binding h hab := h.binding? hab
  bindsAt {τ s t a b} h hab name := by
    obtain ⟨x, y, hx, hy, hxy⟩ := h.kept hab
    unfold Store.bindsAt
    rw [hx, hy]
    exact hxy.binds name
  bind h hab hxy := h.modify hab fun hscopes =>
    ⟨hscopes.parent, List.rel_append hscopes.bindings (.cons hxy .nil)⟩
  rebind {τ s t a b name v w} h hab hvw := by
    have hresolve := h.resolve (captured_of_kept hab) name
    unfold Store.rebind
    generalize s.resolve a name = owner at hresolve ⊢
    generalize t.resolve b name = owner' at hresolve ⊢
    cases hresolve with
    | none => exact h
    | some howner =>
      exact h.modify howner fun hscopes =>
        ⟨hscopes.parent, update_alike hscopes.bindings name hvw⟩
  create h hab := ⟨_, List.prefix_append _ _, h.create hab, h.fate_next _⟩

/-! ## Declarations -/

/-- A declaration of a function whose closure captures the scope that the declaration stands in. -/
def declareDirectly (scope : ScopeId) : List Tree → Eval Value
  | [nameTree, paramsTree, bodyTree] => do
    let name ← ofExcept (identifier "Function name" nameTree)
    let params ← ofExcept (childrenOf .params paramsTree)
    let body ← ofExcept (childrenOf .body bodyTree)
    let value := .closure ⟨some name, params.map Tree.word, body, scope⟩
    define scope name value false
    return value
  | _ => fail (.domain .childCount)

section Declarations

variable {α β : Type} {good : List Fate → α → β → Prop}

/-- Here a scope is created in one that is kept, there none is. -/
theorem mirrors_bypass (hab : KeptAs τ a b) {k : ScopeId → Eval α} {x' : Eval β}
    (hk : ∀ {τ'} inner, τ <+: τ' → τ'[inner]? = some (.bypassed b) →
      (bypassing here there).Mirrors τ' good (k inner) x') :
    (bypassing here there).Mirrors τ good (child a >>= k) x' := by
  intro (τ₁ : List Fate) (h₁ : τ <+: τ₁) m m' hm
  have hstore : Bypasses τ₁ m.store m'.store := hm.store
  have hnew : τ₁ <+: τ₁ ++ [.bypassed b] := List.prefix_append _ _
  have hbypass := hstore.bypass (fate_later h₁ hab)
  have hends := hk m.store.next (h₁.trans hnew) (hstore.fate_next _) _ (List.prefix_refl _)
    { m with store := m.store.create (.empty (some a)) } m' ⟨hbypass, hm.output, hm.events⟩
  rw [bind_run (show child a m = .ok m.store.next _ from rfl)]
  exact hends.earlier bypassing_lawful hnew

/-- A declaration with a scope of its own goes on side by side with one without: the scope between
stays empty. -/
theorem mirrors_declaration (hab : KeptAs τ a b) : ∀ cs : List Tree,
    (bypassing here there).Mirrors τ (bypassing here there).value (functionDeclaration a cs)
      (declareDirectly b (cs.map (bypassing here there).tree))
  | [nameTree, paramsTree, bodyTree] => by
    have hS : (bypassing here there).Lawful := bypassing_lawful
    refine (Simulation.mirrors_identifier hS _ nameTree).bindSame hS fun name h₁ => ?_
    refine (Simulation.mirrors_childrenOf hS _ paramsTree).bindTrees hS fun params h₂ => ?_
    refine (Simulation.mirrors_childrenOf hS _ bodyTree).bindTrees hS fun body h₃ => ?_
    have hab₃ := hS.scope_later (hS.trans h₁ (hS.trans h₂ h₃)) hab
    refine mirrors_bypass hab₃ fun inner h₄ hinner => ?_
    have hc := Simulation.closure_alike (S := bypassing here there) (captured_of_bypassed hinner)
      (some name) params body
    have hab₄ := hS.scope_later h₄ hab₃
    refine (Simulation.mirrors_define hS hab₄ name (.closure hc) false).bind hS fun h₅ _ => ?_
    exact Simulation.mirrors_pure hS fun h₆ => hS.value_later (hS.trans h₅ h₆) (.closure hc)
  | [] | [_] | [_, _] | _ :: _ :: _ :: _ :: _ => Simulation.mirrors_fail bypassing_lawful rfl

end Declarations

/-! ## Runs -/

/-- The outcome of a computation, apart from the machine that it leaves. -/
def outcome {α : Type} : EStateM.Result Fault Machine α → Except Fault α
  | .ok a _ => .ok a
  | .error f _ => .error f

/-- Evaluates trees one after the other, each on the machine that the one before has left, whatever
its outcome. -/
def evaluateEach (eval : Tree → Eval Value) :
    List Tree → Machine → List (Except Fault Value) × Machine
  | [], m => ([], m)
  | t :: ts, m =>
    let rest := evaluateEach eval ts (final (eval t m))
    (outcome (eval t m) :: rest.1, rest.2)

/-- Two outcomes are the same fault, or values that differ only in which scopes their closures have
captured. -/
def OutcomesAlike (τ : List Fate) : Except Fault Value → Except Fault Value → Prop
  | .ok v, .ok w => v.Alike .keep (CapturedAs τ) w
  | .error f, .error g => g = f
  | _, _ => False

/-- Two machines have printed the same text, and their stores belong together. -/
structure Beside (τ : List Fate) (m m' : Machine) : Prop where
  store : Bypasses τ m.store m'.store
  output : m'.output = m.output

variable {m m' : Machine}

/-- Outcomes stay alike while more scopes are created. -/
theorem OutcomesAlike.later {r r' : Except Fault Value} (h : OutcomesAlike τ r r') (hτ : τ <+: τ') :
    OutcomesAlike τ' r r' := by
  cases r <;> cases r'
  · exact h
  · exact h.elim
  · exact h.elim
  · exact Value.Alike.later (captured_later hτ) h

/-- An evaluation ends as it does beside it where scopes are bypassed. -/
theorem evaluate_beside (budget : Nat) (t : Tree) (hab : KeptAs τ a b) (hm : Beside τ m m') :
    ∃ τ', τ <+: τ' ∧
      Beside τ' (final (evaluate budget a t m))
        (final (evaluateWith declareDirectly budget b t m')) ∧
      OutcomesAlike τ' (outcome (evaluate budget a t m))
        (outcome (evaluateWith declareDirectly budget b t m')) := by
  have hends := Simulation.mirrors_evaluateWith
    (S := bypassing m.events m'.events) bypassing_lawful mirrors_declaration budget hab t τ
    (List.prefix_refl _) m m' ⟨hm.store, hm.output, [], rfl, rfl⟩
  rw [evaluateWith_declarations, show (bypassing m.events m'.events).tree t = t from
    t.transplant_keep] at hends
  cases hx : evaluate budget a t m with
  | ok v m₁ =>
    rw [hx] at hends
    obtain ⟨w, m₁', hx', τ', hτ, hm₁, hvw⟩ := hends.of_ok
    rw [hx']
    exact ⟨τ', hτ, ⟨hm₁.store, hm₁.output⟩, hvw⟩
  | error f m₁ =>
    rw [hx] at hends
    obtain ⟨m₁', hx', τ', hτ, hm₁⟩ := hends.of_error
    rw [hx']
    exact ⟨τ', hτ, ⟨hm₁.store, hm₁.output⟩, f.transplant_keep⟩

/-- So does a run. -/
theorem evaluateEach_beside (budget : Nat) : ∀ {ts : List Tree}
    {τ : List Fate} {m m' : Machine}, KeptAs τ a b → Beside τ m m' →
      ∃ τ', τ <+: τ' ∧
        Beside τ' (evaluateEach (evaluate budget a) ts m).2
          (evaluateEach (evaluateWith declareDirectly budget b) ts m').2 ∧
        List.Forall₂ (OutcomesAlike τ') (evaluateEach (evaluate budget a) ts m).1
          (evaluateEach (evaluateWith declareDirectly budget b) ts m').1
  | [], τ, _, _, _, hm => ⟨τ, List.prefix_refl _, hm, .nil⟩
  | t :: ts, τ, m, m', hab, hm => by
    obtain ⟨τ₁, h₁, hm₁, houtcome⟩ := evaluate_beside budget t hab hm
    obtain ⟨τ₂, h₂, hm₂, houtcomes⟩ := evaluateEach_beside budget (fate_later h₁ hab) hm₁
    exact ⟨τ₂, h₁.trans h₂, hm₂, .cons (houtcome.later h₂) houtcomes⟩

/-- Where nothing has been run, the only scope is the same on both sides. -/
theorem beside_fresh : Beside [.kept Machine.globalId] .fresh .fresh := by
  have hzero : ∀ {a : ScopeId} {f : Fate}, [Fate.kept Machine.globalId][a]? = some f →
      a = 0 ∧ f = .kept 0 := by
    intro a f h
    cases a with
    | zero => exact ⟨rfl, (Option.some.inj h).symm⟩
    | succ a => cases h
  refine ⟨⟨rfl, ?_, ?_, ?_, ?_⟩, rfl⟩
  · intro a b h
    obtain ⟨rfl, hb⟩ := hzero h
    cases hb
    refine ⟨Store.globalScope, Store.globalScope, rfl, rfl, .none, ?_⟩
    exact .cons ⟨rfl, rfl, .bool _⟩ <| .cons ⟨rfl, rfl, .bool _⟩ <| .cons ⟨rfl, rfl, .null⟩ <|
      .cons ⟨rfl, rfl, .number _⟩ <| .cons ⟨rfl, rfl, .native _⟩ <| .cons ⟨rfl, rfl, .native _⟩ <|
      .cons ⟨rfl, rfl, .native _⟩ .nil
  · intro a b h
    cases (hzero h).2
  · intro a a' b h h'
    rw [(hzero h).1, (hzero h').1]
  · intro b hb
    exact ⟨0, by rw [Nat.lt_one_iff.mp hb]; rfl⟩

/-! ## What a declaration captures -/

/-- The moment with which the evaluation of a tree starts. -/
def Moment.start (budget : Nat) (scope : ScopeId) (t : Tree) (m : Machine) : Moment :=
  ⟨budget, .tree scope t, { m with events := .evaluating t.heading :: m.events }⟩

/-- A moment occurs when trees are evaluated one after the other in a scope. -/
def Occurs (budget : Nat) (scope : ScopeId) (ts : List Tree) (m : Machine) (q : Moment) : Prop :=
  ∃ before t after, ts = before ++ t :: after ∧
    Reaches (.start budget scope t (evaluateEach (evaluate budget scope) before m).2) q

/-- Programs that are evaluated one after the other can be split anywhere. -/
theorem evaluateEach_append (eval : Tree → Eval Value) (ts us : List Tree) (m : Machine) :
    (evaluateEach eval (ts ++ us) m).2 = (evaluateEach eval us (evaluateEach eval ts m).2).2 := by
  induction ts generalizing m with
  | nil => rfl
  | cons t ts ih => exact ih _

/-- A run adds to its own scope only, and to new ones. -/
theorem evaluateEach_follows (budget : Nat) (scope : ScopeId) (ts : List Tree) (m : Machine) :
    Follows (some scope) m (evaluateEach (evaluate budget scope) ts m).2 := by
  induction ts generalizing m with
  | nil => exact follows_refl _ m
  | cons t ts ih =>
    have hstays : Stays (some scope) (evaluate budget scope t) :=
      (stays_note _).bind fun _ => stays_tree budget t
    exact (hstays.follows m).trans (ih _)

/-- After a moment that occurs, the rest of the run leaves the outlines of the scopes that were
created by the moment. -/
theorem occurs_after {budget : Nat} {scope : ScopeId} {ts : List Tree} {q : Moment}
    (h : Occurs budget scope ts m q) (hscope : scope < m.store.next) :
    let last := (evaluateEach (evaluate budget scope) ts m).2
    q.Placed ∧ Leads q.after.store last.store ∧
      ∀ id, q.machine.store.next ≤ id → id < q.after.store.next →
        last.store.scopes[id]?.map (·.outline) = q.after.store.scopes[id]?.map (·.outline) := by
  obtain ⟨before, t, after, rfl, hreaches⟩ := h
  intro last
  have hbefore := evaluateEach_follows budget scope before m
  have hlast := evaluateEach_append (evaluate budget scope) before (t :: after) m
  -- the evaluation in question starts on the machine that the ones before have left
  generalize (evaluateEach (evaluate budget scope) before m).2 = m₁ at hreaches hbefore hlast
  have hstart : (Moment.start budget scope t m₁).Placed := by
    rintro id ⟨⟩
    exact Nat.lt_of_lt_of_le hscope (Store.leads_next hbefore.leads)
  obtain ⟨hq, hnext⟩ := reaches_placed hreaches hstart
  obtain ⟨hleads, houtline⟩ := reaches_after hreaches hstart
  have hafter : Follows (some scope) (Moment.start budget scope t m₁).after last := by
    rw [show last = _ from hlast]
    exact evaluateEach_follows budget scope after _
  refine ⟨hq, hleads.trans hafter.leads, fun id hnew hid => ?_⟩
  -- the scope of the run is older than the one in question
  have hother : ¬ some scope = some id := by
    rintro ⟨⟩
    exact Nat.not_le_of_lt (Nat.lt_of_lt_of_le (hstart _ rfl) hnext) hnew
  rw [hafter.outline.outline (Nat.lt_of_lt_of_le hid (Store.leads_next hleads)) hother,
    houtline id hnew hid]

theorem eq_empty_of_outline {x : Scope} {parent : Option ScopeId}
    (h : x.outline = (Scope.empty parent).outline) : x = .empty parent := by
  obtain ⟨p, bindings⟩ := x
  simp_all [Scope.outline, Scope.empty]

/-- The closure of a declared function has captured a new scope, which binds nothing. -/
theorem declared_scope {n : Nat} {scope : ScopeId} {cs : List Tree} {c : Closure} {m m' : Machine}
    (hscope : scope < m.store.next)
    (h : evalConstruct n scope .fndecl cs m = .ok (.closure c) m') :
    c.scope = m.store.next ∧ m'.store.scopes[c.scope]? = some (.empty (some scope)) := by
  cases n with
  | zero => cases h
  | succ n =>
    rw [evalConstruct, construct, functionDeclaration.eq_def] at h
    split at h
    next nameTree paramsTree bodyTree =>
      obtain ⟨name, m₁, hname, h⟩ := bind_eq_ok.mp h
      obtain ⟨-, rfl⟩ := ofExcept_eq_ok.mp hname
      obtain ⟨ps, m₂, hps, h⟩ := bind_eq_ok.mp h
      obtain ⟨-, rfl⟩ := ofExcept_eq_ok.mp hps
      obtain ⟨body, m₃, hbody, h⟩ := bind_eq_ok.mp h
      obtain ⟨-, rfl⟩ := ofExcept_eq_ok.mp hbody
      obtain ⟨inner, m₄, hchild, h⟩ := bind_eq_ok.mp h
      cases hchild
      obtain ⟨_, m₅, hdefine, h⟩ := bind_eq_ok.mp h
      cases h
      refine ⟨rfl, ?_⟩
      unfold define update at hdefine
      split at hdefine
      next => cases hdefine
      next =>
        cases hdefine
        show ((m.store.create _).modify scope _).scopes[m.store.next]? = _
        rw [Store.scopes_modify, if_neg (Nat.ne_of_lt hscope), Store.scopes_create, if_pos rfl]
    next => cases h

/-- That declared functions capture scopes of their own cannot be observed. Evaluation in which they
capture the scope of their declaration is evaluation but for declarations. From stores that belong
together, in scopes that are the same, with any budget, the two give alike values or the same fault,
with its cause and its line, of any tree, and leave machines that have printed the same text and
stores that belong together: the scopes that are kept have the same bindings, one by one, and the
others none. So do runs of any number of trees.

The captured scopes never receive a binding. However long the run, and wherever in it a function is
declared, the scope that its closure has captured is empty in the end, and no moment of the run,
before or after, writes to it. -/
theorem declaration_scopes_unobservable :
    evaluateWith functionDeclaration = evaluate ∧
    (∀ (budget : Nat) (t : Tree) (τ : List Fate) (a b : ScopeId) (m m' : Machine),
      Beside τ m m' → KeptAs τ a b →
      let result := evaluate budget a t m
      let result' := evaluateWith declareDirectly budget b t m'
      ∃ τ', τ <+: τ' ∧ Beside τ' (final result) (final result') ∧
        OutcomesAlike τ' (outcome result) (outcome result')) ∧
    (∀ (budget : Nat) (ts : List Tree) (τ : List Fate) (a b : ScopeId) (m m' : Machine),
      Beside τ m m' → KeptAs τ a b →
      let run := evaluateEach (evaluate budget a) ts m
      let run' := evaluateEach (evaluateWith declareDirectly budget b) ts m'
      ∃ τ', τ <+: τ' ∧ Beside τ' run.2 run'.2 ∧ List.Forall₂ (OutcomesAlike τ') run.1 run'.1) ∧
    ∀ (budget : Nat) (ts : List Tree) (root : ScopeId) (m : Machine), root < m.store.next →
      ∀ (n : Nat) (scope : ScopeId) (cs : List Tree) (c : Closure) (m₁ m₂ : Machine),
        Occurs budget root ts m ⟨n, .construct scope .fndecl cs, m₁⟩ →
        evalConstruct n scope .fndecl cs m₁ = .ok (.closure c) m₂ →
        (evaluateEach (evaluate budget root) ts m).2.store.scopes[c.scope]? =
            some (.empty (some scope)) ∧
          ∀ q owner name v m', Occurs budget root ts m q → Writes q owner name v m' →
            owner ≠ c.scope := by
  refine ⟨evaluateWith_declarations,
    fun budget t τ a b m m' hm hab => evaluate_beside budget t hab hm,
    fun budget ts τ a b m m' hm hab => evaluateEach_beside budget hab hm, ?_⟩
  intro budget ts root m hroot n scope cs c m₁ m₂ hdeclares hclosure
  obtain ⟨hplaced, -, houtline⟩ := occurs_after hdeclares hroot
  obtain ⟨hnew, hempty⟩ := declared_scope (hplaced scope rfl) hclosure
  have hafter : Moment.after ⟨n, .construct scope .fndecl cs, m₁⟩ = m₂ := by
    simp only [Moment.after, hclosure, final]
  rw [hafter] at houtline
  have hlast := houtline c.scope (Nat.le_of_eq hnew.symm) (Array.getElem?_eq_some_iff.mp hempty).1
  rw [hempty] at hlast
  obtain ⟨x, hx, hsame⟩ := Option.map_eq_some_iff.mp hlast
  obtain rfl : x = .empty (some scope) := eq_empty_of_outline hsame
  refine ⟨hx, fun q owner name v m' hq hwrites howner => ?_⟩
  -- what is written stays bound, and nothing is bound in the end
  obtain ⟨hqplaced, hqleads, -⟩ := occurs_after hq hroot
  obtain ⟨y, hy, hbinds⟩ := (writes_binds hqplaced hwrites).leads hqleads
  rw [howner, hx] at hy
  cases hy
  simp [Scope.binds, Scope.find?, Scope.empty] at hbinds

/-- For instance a function that is declared and called: the call opens a scope inside the one that
the declaration has made, so that there is one scope more than beside it. -/
theorem declaration_scopes_unobservable_call :
    let name (text : String) : Tree := .leaf ⟨.ident, text, some 1, none⟩
    let parts := [name "f", .node .params none [name "x"], .node .body none [name "x"]]
    let call : Tree := .node .call none [name "f", .node .args none [name "true"]]
    let t : Tree := .node .program none [.node .fndecl none parts, call]
    let result := evaluate 20 Machine.globalId t .fresh
    let result' := evaluateWith declareDirectly 20 Machine.globalId t .fresh
    let c : Closure := ⟨some "f", ["x"], [name "x"], 1⟩
    faultOf result = none ∧ (final result).store.next = 3 ∧ (final result').store.next = 2 ∧
      (∃ τ', [.kept Machine.globalId] <+: τ' ∧ Beside τ' (final result) (final result') ∧
        OutcomesAlike τ' (outcome result) (outcome result')) ∧
      (final result).store.scopes[c.scope]? = some (.empty (some Machine.globalId)) ∧
      Machine.globalId ≠ c.scope := by
  intro name parts call t result result' c
  obtain ⟨-, hone, -, hdeclared⟩ := declaration_scopes_unobservable
  let m₁ : Machine := { Machine.fresh with events := [.evaluating t.heading] }
  let inner : Machine := { m₁ with store := m₁.store.create (.empty (some Machine.globalId)) }
  let m₂ : Machine :=
    { inner with store := inner.store.bind Machine.globalId ⟨"f", .closure c, false⟩ }
  have hdefine : define Machine.globalId "f" (.closure c) false inner = .ok () m₂ := by rfl
  have hoccurs : Occurs 20 Machine.globalId [t] .fresh
      ⟨16, .construct Machine.globalId .fndecl parts, m₁⟩ := by
    refine ⟨[], t, [], rfl, ?_⟩
    refine .head .node (.head (.body (.inl rfl)) ?_)
    exact .head (@Part.statement 17 Machine.globalId [] [call] _ .null m₁ m₁ rfl) (.single .node)
  have hclosure : evalConstruct 16 Machine.globalId .fndecl parts m₁ = .ok (.closure c) m₂ := by
    rfl
  obtain ⟨hempty, hwrites⟩ := hdeclared 20 [t] Machine.globalId .fresh (by decide) 16
    Machine.globalId parts c m₁ m₂ hoccurs hclosure
  refine ⟨by decide +kernel, by decide +kernel, by decide +kernel,
    hone 20 t [.kept Machine.globalId] Machine.globalId Machine.globalId .fresh .fresh beside_fresh
      rfl, hempty, ?_⟩
  exact hwrites _ _ _ _ m₂ hoccurs (.functionDeclaration rfl rfl rfl rfl hdefine)

end Avii.Eval
