import Avii.Proofs.Eval.Discipline
import Avii.Proofs.Eval.Provenance
import Avii.Proofs.Syntax.Shape
import Avii.Proofs.Token.Texts
import Avii.Proofs.Value.Objects

/-!
# Well-formed runs

A tree is well formed if its nodes have the shape that their labels call for, its numbers can be
read and its names are not digits; the trees of program texts are (`tree_wellFormed`). A value is
sound if every closure in it, at any depth, has differing parameters and a well-formed body, and a
store is sound if it binds sound values only. This is a lawful discipline (`soundness_lawful`), so
evaluation keeps it.

Hence everything that the run of a well-formed tree in a sound store carries out is again of that
kind: `part_good` for one part, by what each construct has for children, and `reaches_good` for all
of them.
-/

namespace Avii.Eval

open Store (Leads)
open Syntax (Shaped Shape Evaluable Labelled leaves leavesOf)

/-! ## Trees -/

/-- A leaf that can be evaluated without surprise: a number that is read, a name that is not made
of digits. -/
structure GoodLeaf (l : Leaf) : Prop where
  number : l.kind = .number → (Numeral.read? l.text).isSome
  name : l.kind = .ident → l.text.toList.all Text.isAsciiDigit = false

/-- A tree of the shape that its labels call for, with good leaves. -/
structure WellFormed (t : Tree) : Prop where
  shaped : Shaped t
  leaves : ∀ l ∈ leaves t, GoodLeaf l

/-- The leaves of a tree are among those of the list it is in. -/
theorem mem_leavesOf {c : Tree} {cs : List Tree} (hc : c ∈ cs) {l : Leaf} (hl : l ∈ leaves c) :
    l ∈ leavesOf cs := by
  induction cs with
  | nil => simp at hc
  | cons d ds ih =>
    rw [leavesOf, List.mem_append]
    rcases List.mem_cons.mp hc with rfl | hc
    · exact .inl hl
    · exact .inr (ih hc)

/-- The children of a well-formed tree are well-formed. -/
theorem WellFormed.child {label : Label} {line : Option Int} {cs : List Tree}
    (h : WellFormed (.node label line cs)) {c : Tree} (hc : c ∈ cs) : WellFormed c := by
  obtain ⟨hs, hl⟩ := h
  cases hs with
  | node _ hcs => exact ⟨hcs c hc, fun l hmem => hl l (mem_leavesOf hc hmem)⟩

/-- A well-formed node has the shape of its label. -/
theorem WellFormed.shape {label : Label} {line : Option Int} {cs : List Tree}
    (h : WellFormed (.node label line cs)) : Shape label cs := by
  obtain ⟨hs, -⟩ := h
  cases hs with
  | node h _ => exact h

theorem WellFormed.leaf {l : Leaf} (h : WellFormed (.leaf l)) : GoodLeaf l :=
  h.leaves l (by simp [Syntax.leaves])

theorem not_digits {s : String} {c : Char} {cs : List Char} (h : s.toList = c :: cs)
    (hc : Scan.isWordStart c = true) : s.toList.all Text.isAsciiDigit = false := by
  rw [h, List.all_cons, Bool.and_eq_false_iff]
  left
  cases hd : Text.isAsciiDigit c with
  | false => rfl
  | true =>
    have hn := Numeral.isAsciiDigit_iff.mp hd
    unfold Scan.isWordStart at hc
    simp only [decide_eq_true_eq] at hc
    rcases hc with rfl | ⟨h1, h2⟩ | ⟨h1, h2⟩
    · exact absurd hn (by decide)
    · have : 97 ≤ c.toNat := h1
      omega
    · have : 65 ≤ c.toNat := h1
      omega

/-- The leaf of a token that a text can have is good. -/
theorem goodLeaf_token {t : Token} (h : Scan.Textual t.kind t.text) : GoodLeaf t.leaf := by
  constructor
  · intro hk
    refine Numeral.numeral_reads (h.number ?_)
    revert hk
    unfold Token.leaf
    cases hkind : t.kind <;> simp [LeafKind.ofKind]
  · intro hk
    have hident : t.kind = .ident := by
      revert hk
      unfold Token.leaf
      cases hkind : t.kind <;> simp [LeafKind.ofKind]
    obtain ⟨c, cs, htext, hc⟩ := h.name hident
    exact not_digits htext hc

/-- A numeral that is read is evaluated to its number. -/
theorem evalTree_number {n : Nat} {scope : ScopeId} {text : String} {line column : Option Int}
    {x : Binary64} {m : Machine} (h : Numeral.read? text = some x) :
    evalTree (n + 1) scope (.leaf ⟨.number, text, line, column⟩) m = .ok (.number x) m := by
  simp [evalTree, located, leaf, numeral, h]

/-- The tree of a program text is well formed, and can be evaluated. -/
theorem tree_wellFormed {source : String} {limit : Nat} {ts : List Token} {t : Tree}
    (hts : tokenize source = .ok ts) (ht : parseTokens limit ts = .ok t) :
    WellFormed t ∧ Evaluable t := by
  have hprogram := Syntax.program_reads ht (tokenize_endsOnce hts)
  obtain ⟨hshaped, heval⟩ := Syntax.program_shaped hprogram
  refine ⟨⟨hshaped, ?_⟩, heval⟩
  -- the leaves of the tree are tokens, and what tokens look like is known from the scan
  intro l hl
  rw [Syntax.program_leaves hprogram] at hl
  unfold Syntax.leavesIn at hl
  obtain ⟨tok, htok, rfl⟩ := List.mem_map.mp hl
  exact goodLeaf_token (tokenize_textual hts tok (List.mem_filter.mp htok).1)

/-! ## Values and stores -/

/-- Every closure in a value has differing parameters and a well-formed body. -/
inductive Sound : Value → Prop where
  | null : Sound .null
  | number (x : Binary64) : Sound (.number x)
  | string (s : String) : Sound (.string s)
  | bool (b : Bool) : Sound (.bool b)
  | native (f : Native) : Sound (.native f)
  | array {vs : List Value} (h : ∀ v ∈ vs, Sound v) : Sound (.array vs)
  | object {slots : List (String × Value)} (h : ∀ p ∈ slots, Sound p.2) : Sound (.object slots)
  | closure {c : Closure} (hp : c.params.Nodup) (hb : ∀ t ∈ c.body, WellFormed t ∧ Evaluable t) :
      Sound (.closure c)

/-- A store binds sound values only. -/
def SoundStore (s : Store) : Prop :=
  ∀ (id : ScopeId) (scope : Scope), s.scopes[id]? = some scope → ∀ b ∈ scope.bindings, Sound b.value

/-- To set a slot to a sound value keeps slots sound. -/
theorem sound_setSlot {slots : List (String × Value)} {key : String} {v : Value}
    (h : ∀ p ∈ slots, Sound p.2) (hv : Sound v) : ∀ p ∈ setSlot slots key v, Sound p.2 := by
  intro p hp
  rcases mem_setSlot hp with hp | hp
  · exact h p hp
  · exact hp ▸ hv

/-- Well-formed trees, sound values and sound stores. -/
def soundness : Discipline :=
  ⟨WellFormed, fun _ _ => True, fun _ _ => True, fun _ v => Sound v, SoundStore⟩

/-- Soundness is a lawful discipline: a sound closure has a well-formed body and distinct
parameters, and evaluation makes no others. -/
theorem soundness_lawful : soundness.Lawful where
  child h hc := h.child hc
  scope_mono _ _ := trivial
  captured_mono _ _ := trivial
  value_mono _ h := h
  captured_of_scope _ := trivial
  null _ := .null
  number _ x := .number x
  string _ x := .string x
  bool _ b := .bool b
  array h := .array h
  item h hv := by
    cases h with
    | array h => exact h _ hv
  noSlots _ := .object (by simp)
  setSlot _ _ h hv := by
    cases h with
    | object h => exact .object (sound_setSlot h hv)
  slot h hp := by
    cases h with
    | object h => exact h _ hp
  closure hps hbody _ name := by
    -- the shape of a list of parameters is where they are known to differ
    refine .closure hps.shape.2 ?_
    intro t ht
    exact ⟨hbody.child ht, hbody.shape t ht⟩
  made h := by
    cases h with
    | closure _ hb => exact ⟨trivial, fun t ht => (hb t ht).1⟩
  lookup hs _ hv := Store.AllBound.lookup hs hv
  create hs _ := ⟨Store.AllBound.create hs _, trivial⟩
  bind hs _ hv _ := Store.AllBound.bind hs _ hv
  rebind hs _ hv _ := Store.AllBound.rebind hs _ _ hv

/-! ## Moments -/

/-- A tree that is well formed and can be evaluated. -/
def Good (t : Tree) : Prop :=
  WellFormed t ∧ Evaluable t

/-- What is to be carried out is well formed, and the values that it is given are sound. -/
def GoodTask : Task → Prop
  | .tree _ t => Good t
  | .construct _ label cs => ∃ line, Good (.node label line cs)
  | .items _ ts | .statements _ ts => ∀ t ∈ ts, Good t
  | .arguments _ t => WellFormed t ∧ Labelled .args t
  | .call v vs => Sound v ∧ ∀ v ∈ vs, Sound v
  | .enter c vs => Sound (.closure c) ∧ ∀ v ∈ vs, Sound v

/-- A moment with a good task and a sound store. -/
structure GoodMoment (p : Moment) : Prop where
  store : SoundStore p.machine.store
  task : GoodTask p.task

section Outcomes

variable {n : Nat} {scope : ScopeId} {m m' : Machine}

/-- A well-formed tree has a sound value and leaves a sound store. -/
theorem evalTree_sound {t : Tree} {v : Value} (hs : SoundStore m.store) (ht : WellFormed t)
    (h : evalTree n scope t m = .ok v m') : SoundStore m'.store ∧ Sound v :=
  (((evaluates soundness_lawful n).tree trivial ht).reaches hs h).2

theorem evalArguments_sound {t : Tree} {vs : List Value} (hs : SoundStore m.store)
    (ht : WellFormed t) (h : evalArguments n scope t m = .ok vs m') :
    SoundStore m'.store ∧ ∀ v ∈ vs, Sound v :=
  (((evaluates soundness_lawful n).arguments trivial ht).reaches hs h).2

/-- So have well-formed trees one after the other. -/
theorem all_sound {ts : List Tree} {vs : List Value} (hs : SoundStore m.store)
    (hts : ∀ t ∈ ts, WellFormed t) (h : all (evalTree n scope) ts m = .ok vs m') :
    SoundStore m'.store ∧ ∀ v ∈ vs, Sound v :=
  ((keeps_all soundness_lawful (fun _ hc => (evaluates soundness_lawful n).tree trivial hc)
    hts).reaches hs h).2

theorem sequence_sound {ts : List Tree} {v : Value} (hs : SoundStore m.store)
    (hts : ∀ t ∈ ts, WellFormed t) (h : sequence (evalTree n scope) .null ts m = .ok v m') :
    SoundStore m'.store :=
  ((keeps_sequence soundness_lawful (fun _ hc => (evaluates soundness_lawful n).tree trivial hc)
    hts .null).reaches hs h).2.1

theorem properties_sound {ts : List Tree} {slots : List (String × Value)}
    (hs : SoundStore m.store) (hts : ∀ t ∈ ts, WellFormed t)
    (h : properties (evalTree n scope) scope [] ts m = .ok slots m') : SoundStore m'.store :=
  ((keeps_properties soundness_lawful trivial
    (fun _ hc => (evaluates soundness_lawful n).tree trivial hc) hts
    (soundness_lawful.noSlots _)).reaches hs h).2.1

/-- The scope of a sound closure is opened on a sound store. -/
theorem openScope_sound {c : Closure} {vs : List Value} (hs : SoundStore m.store)
    (hc : Sound (.closure c)) (hvs : ∀ v ∈ vs, Sound v) (h : openScope c vs m = .ok scope m') :
    SoundStore m'.store :=
  ((keeps_openScope soundness_lawful hc hvs).reaches hs h).2.1

end Outcomes

section Children

variable {scope : ScopeId} {label : Label} {a b c : Tree} {cs : List Tree}

theorem good_optional {t : Tree} (h : WellFormed t) (ho : Syntax.Optional t) (hn : t ≠ .absent) :
    Good t :=
  ⟨h, ho.resolve_left hn⟩

/-- The children of a node that is there for what is in it. -/
theorem good_items {line : Option Int} (h : WellFormed (.node label line cs))
    (hl : label = .program ∨ label = .body ∨ label = .array ∨ label = .args) :
    ∀ t ∈ cs, Good t := by
  intro t ht
  refine ⟨h.child ht, ?_⟩
  rcases hl with rfl | rfl | rfl | rfl
  all_goals exact h.shape t ht

/-- The value of a declaration, if it has one. -/
theorem good_initial (h : GoodTask (.construct scope .vardecl [a, b, c])) (hc : c ≠ .absent) :
    Good c := by
  obtain ⟨line, hwf, -⟩ := h
  obtain ⟨_, _, _, heq, -, ho⟩ := hwf.shape
  cases heq
  exact good_optional (hwf.child (by simp)) ho hc

theorem good_test (h : GoodTask (.construct scope .ifstmt [a, b, c])) : Good a := by
  obtain ⟨line, hwf, -⟩ := h
  obtain ⟨_, _, _, heq, ha, -⟩ := hwf.shape
  cases heq
  exact ⟨hwf.child (by simp), ha⟩

/-- Whichever branch it is, it is a child, and one with the label of a body. -/
theorem good_branch {x : Bool} {body : List Tree}
    (h : GoodTask (.construct scope .ifstmt [a, b, c]))
    (hb : childrenOf .body (if x then b else c) = .ok body) : ∀ t ∈ body, Good t := by
  obtain ⟨line, hwf, -⟩ := h
  have hbranch : WellFormed (if x then b else c) := by
    split
    next => exact hwf.child (by simp)
    next => exact hwf.child (by simp)
  obtain ⟨line', heq⟩ := childrenOf_ok hb
  rw [heq] at hbranch
  exact good_items hbranch (.inr (.inl rfl))

theorem good_operands (h : GoodTask (.construct scope label [a, b, c]))
    (hl : label = .binary ∨ label = .condition) : Good a ∧ Good c := by
  obtain ⟨line, hwf, -⟩ := h
  rcases hl with rfl | rfl
  all_goals
    obtain ⟨_, _, _, heq, ha, -, hc⟩ := hwf.shape
    cases heq
    exact ⟨⟨hwf.child (by simp), ha⟩, hwf.child (by simp), hc⟩

theorem good_assigned (h : GoodTask (.construct scope .assign [a, b])) : Good b := by
  obtain ⟨line, hwf, -⟩ := h
  obtain ⟨_, _, heq, -, hb⟩ := hwf.shape
  cases heq
  exact ⟨hwf.child (by simp), hb⟩

/-- The property is a child of the object, the value one of the property. -/
theorem good_value {t : Tree} (h : GoodTask (.construct scope .object cs)) (ht : t ∈ cs)
    (hp : childrenOf .prop t = .ok [a, b]) (hb : b ≠ .absent) : Good b := by
  obtain ⟨line, hwf, -⟩ := h
  have hprop : WellFormed t := hwf.child ht
  obtain ⟨line', rfl⟩ := childrenOf_ok hp
  obtain ⟨_, _, heq, -, ho⟩ := hprop.shape
  cases heq
  exact good_optional (hprop.child (by simp)) ho hb

theorem good_target (h : GoodTask (.construct scope label [a, b]))
    (hl : label = .field ∨ label = .index) : Good a := by
  obtain ⟨line, hwf, -⟩ := h
  rcases hl with rfl | rfl
  all_goals
    obtain ⟨_, _, heq, ha, -⟩ := hwf.shape
    cases heq
    exact ⟨hwf.child (by simp), ha⟩

theorem good_key (h : GoodTask (.construct scope .index [a, b])) : Good b := by
  obtain ⟨line, hwf, -⟩ := h
  obtain ⟨_, _, heq, -, hb⟩ := hwf.shape
  cases heq
  exact ⟨hwf.child (by simp), hb⟩

/-- The callee and the arguments of a call. -/
theorem good_call (h : GoodTask (.construct scope .call [a, b])) :
    Good a ∧ GoodTask (.arguments scope b) := by
  obtain ⟨line, hwf, -⟩ := h
  obtain ⟨_, _, heq, ha, hb⟩ := hwf.shape
  cases heq
  exact ⟨⟨hwf.child (by simp), ha⟩, hwf.child (by simp), hb⟩

end Children

/-- The parts of a good moment are good. -/
theorem part_good {p q : Moment} (h : Part p q) (hp : GoodMoment p) : GoodMoment q := by
  obtain ⟨hs, ht⟩ := hp
  -- one case for each way to be a part; the machine that a later part finds is the one that the
  -- parts before it leave, so these have to be sound evaluations themselves
  cases h with
  | node => exact ⟨hs, _, ht⟩
  | body h =>
    obtain ⟨line, hwf, -⟩ := ht
    exact ⟨hs, good_items hwf (h.imp_right .inl)⟩
  | initial _ hi => exact ⟨hs, good_initial ht hi⟩
  | test => exact ⟨hs, good_test ht⟩
  | branch htest hb => exact ⟨(evalTree_sound hs (good_test ht).1 htest).1, good_branch ht hb⟩
  | left h => exact ⟨hs, (good_operands ht h).1⟩
  | right h hl =>
    obtain ⟨ha, hb⟩ := good_operands ht h
    exact ⟨(evalTree_sound hs ha.1 hl).1, hb⟩
  | assigned => exact ⟨hs, good_assigned ht⟩
  | property hb hprop _ hv =>
    have hvalue := good_value ht (by simp) hprop hv
    obtain ⟨line, hwf, -⟩ := ht
    exact ⟨properties_sound hs (fun t hmem => hwf.child (by simp [hmem])) hb, hvalue⟩
  | array =>
    obtain ⟨line, hwf, -⟩ := ht
    exact ⟨hs, good_items hwf (.inr (.inr (.inl rfl)))⟩
  | target h => exact ⟨hs, good_target ht h⟩
  | key htarget =>
    exact ⟨(evalTree_sound hs (good_target ht (.inr rfl)).1 htarget).1, good_key ht⟩
  | callee => exact ⟨hs, (good_call ht).1⟩
  | arguments hc =>
    obtain ⟨hcallee, hargs⟩ := good_call ht
    exact ⟨(evalTree_sound hs hcallee.1 hc).1, hargs⟩
  | call hc ha =>
    obtain ⟨hcallee, hargs, -⟩ := good_call ht
    obtain ⟨hs', hv⟩ := evalTree_sound hs hcallee.1 hc
    obtain ⟨hs'', hvs⟩ := evalArguments_sound hs' hargs ha
    exact ⟨hs'', hv, hvs⟩
  | item hb =>
    have hs' := all_sound hs (fun t hmem => (ht t (by simp [hmem])).1) hb
    exact ⟨hs'.1, ht _ (by simp)⟩
  | argumentItems hargs =>
    obtain ⟨hwf, -⟩ := ht
    obtain ⟨line, rfl⟩ := childrenOf_ok hargs
    exact ⟨hs, good_items hwf (.inr (.inr (.inr rfl)))⟩
  | statement hb =>
    have hs' := sequence_sound hs (fun t hmem => (ht t (by simp [hmem])).1) hb
    exact ⟨hs', ht _ (by simp)⟩
  | closure => exact ⟨hs, ht⟩
  | enter ho =>
    obtain ⟨hc, hvs⟩ := ht
    have hs' := openScope_sound hs hc hvs ho
    -- here the body may be older than the run: it is well formed because the store was sound
    cases hc with
    | closure _ hb => exact ⟨hs', hb⟩

/-- All that a good moment carries out is good. -/
theorem reaches_good {p q : Moment} (h : Reaches p q) (hp : GoodMoment p) : GoodMoment q := by
  induction h with
  | refl => exact hp
  | tail _ hpart ih => exact part_good hpart ih

end Avii.Eval
