import Avii.Proofs.Syntax.Lines
import Mathlib.Data.List.Forall2

/-!
# Properties written out

A property of an object without a value has that of the variable that its key names. In the
longhand of a tree (`Tree.longhand`) every such property has a value that is written down: the key
again, at the same place. None is left then (`Tree.Abbreviates.ne_longhand`).

`Expands` says more generally that some such properties of a tree are written out in another. It
holds of a tree and itself, and of the tree of a program and its longhand (`program_expands`). It
also says what the lines of the properties and of their objects may be (`Tree.Abbreviates`), since
these are the lines that can tell the two trees apart.
-/

namespace Avii

open Syntax (Shape Shaped Placed Evaluable Labelled IsName IsProperty)

namespace Tree

/-- A property of an object, with the key for its value if it has none. -/
def writtenOut : Tree → Tree
  | node .prop line [leaf key, absent] => node .prop line [leaf key, leaf key]
  | t => t

mutual

/-- A tree with all properties of objects written out. -/
def longhand : Tree → Tree
  | absent => absent
  | leaf l => leaf l
  | node label line cs =>
    node label line
      (if label = .object then (longhandAll cs).map writtenOut else longhandAll cs)

/-- Some trees with all properties of objects written out. -/
def longhandAll : List Tree → List Tree
  | [] => []
  | t :: ts => t.longhand :: longhandAll ts

end

theorem longhandAll_eq_map (ts : List Tree) : longhandAll ts = ts.map longhand := by
  induction ts with
  | nil => rfl
  | cons t ts ih => rw [longhandAll, ih, List.map_cons]

/-- The properties of an object are written out after what is inside them. -/
theorem longhand_object (line : Option Int) (ps : List Tree) :
    (node .object line ps).longhand
      = node .object line (ps.map fun p => p.longhand.writtenOut) := by
  rw [longhand, if_pos rfl, longhandAll_eq_map, List.map_map]
  rfl

/-- Any other node only hands it on to its children. -/
theorem longhand_node {label : Label} (hlabel : label ≠ .object) (line : Option Int)
    (cs : List Tree) : (node label line cs).longhand = node label line (cs.map longhand) := by
  rw [longhand, if_neg hlabel, longhandAll_eq_map]

/-- In a tree there is an object that starts on one line and has a property without a value whose
key has a given name and stands on another. -/
inductive Abbreviates : Tree → String → Int → Int → Prop where
  | here {a b : Int} {line : Option Int} {ps : List Tree} {key : Leaf}
      (hmem : .node .prop line [.leaf key, .absent] ∈ ps) (hb : key.line = some b) :
      Abbreviates (.node .object (some a) ps) key.text a b
  | within {label : Label} {line : Option Int} {cs : List Tree} {c : Tree} {name : String}
      {a b : Int} (hc : c ∈ cs) (h : Abbreviates c name a b) :
      Abbreviates (.node label line cs) name a b

/-- A property is written out as its key twice, or stays as it is. -/
theorem writtenOut_cases (t : Tree) :
    t.writtenOut = t ∨ ∃ line key, t.writtenOut = node .prop line [leaf key, leaf key] := by
  unfold writtenOut
  split
  next line key => exact .inr ⟨line, key, rfl⟩
  next => exact .inl rfl

/-- Nothing that is written out is a shorthand. -/
theorem writtenOut_ne (t : Tree) (line : Option Int) (key : Leaf) :
    t.writtenOut ≠ node .prop line [leaf key, absent] := by
  unfold writtenOut
  split
  next => simp
  next h => exact h line key

/-- No object of a longhand has a property that is left to write out. -/
theorem Abbreviates.ne_longhand {u : Tree} {name : String} {a b : Int}
    (h : u.Abbreviates name a b) (t : Tree) : u ≠ t.longhand := by
  induction h generalizing t with
  | here hmem _ =>
    intro ht
    cases t with
    | absent | leaf => cases ht
    | node label line cs =>
      obtain rfl : label = .object := by
        rw [longhand] at ht
        injection ht with hlabel
        exact hlabel.symm
      rw [longhand_object] at ht
      cases ht
      obtain ⟨p, -, hp⟩ := List.mem_map.mp hmem
      exact writtenOut_ne _ _ _ hp
  | @within _ _ _ c _ _ _ hc _ ih =>
    intro ht
    cases t with
    | absent | leaf => cases ht
    | node label line cs =>
      by_cases hlabel : label = .object
      · subst hlabel
        rw [longhand_object] at ht
        cases ht
        obtain ⟨p, -, rfl⟩ := List.mem_map.mp hc
        rcases writtenOut_cases p.longhand with hp | ⟨line, key, hp⟩
        · exact ih p hp
        · -- a property that is written out is its own longhand
          exact ih (node .prop line [leaf key, leaf key]) hp
      · rw [longhand_node hlabel] at ht
        cases ht
        obtain ⟨p, -, rfl⟩ := List.mem_map.mp hc
        exact ih p rfl

end Tree

/-! ## Expansion -/

mutual

/-- Some properties of a tree are written out in another. Nodes below which this happens have the
shape that evaluation relies on, and `P` holds of the name of each property, the line of its object
and the line of its key. -/
inductive Expands (P : String → Int → Int → Prop) : Tree → Tree → Prop where
  | same (t : Tree) : Expands P t t
  | node {label : Label} {line : Option Int} {cs ds : List Tree} (hlabel : label ≠ .object)
      (hshape : Shape label cs) (h : List.Forall₂ (Expands P) cs ds) :
      Expands P (.node label line cs) (.node label line ds)
  | object {line : Option Int} {ps qs : List Tree} (h : PropertiesExpand P line ps qs) :
      Expands P (.node .object line ps) (.node .object line qs)

/-- Of the properties of an object that starts on a given line each is written out, or has some
written out in it. -/
inductive PropertiesExpand (P : String → Int → Int → Prop) :
    Option Int → List Tree → List Tree → Prop where
  | nil (line : Option Int) : PropertiesExpand P line [] []
  | kept {line : Option Int} {p q : Tree} {ps qs : List Tree} (hpart : p = q ∨ Labelled .prop p)
      (h : Expands P p q) (hs : PropertiesExpand P line ps qs) :
      PropertiesExpand P line (p :: ps) (q :: qs)
  | written {a b : Int} {line : Option Int} {key : Leaf} {ps qs : List Tree}
      (hkind : key.kind = .ident) (hb : key.line = some b) (hP : P key.text a b)
      (hs : PropertiesExpand P (some a) ps qs) :
      PropertiesExpand P (some a) (.node .prop line [.leaf key, .absent] :: ps)
        (.node .prop line [.leaf key, .leaf key] :: qs)

end

/-- What there is to the children of two nodes with one label and one line, if some properties of
the first are written out in the second. -/
inductive NodeExpands (P : String → Int → Int → Prop) :
    Label → Option Int → List Tree → List Tree → Prop where
  | plain {label : Label} {line : Option Int} {cs ds : List Tree} (hlabel : label ≠ .object)
      (hshape : cs = ds ∨ Shape label cs) (h : List.Forall₂ (Expands P) cs ds) :
      NodeExpands P label line cs ds
  | object {line : Option Int} {ps qs : List Tree}
      (h : PropertiesExpand P line ps qs) : NodeExpands P .object line ps qs

/-- A child that must have a given label: it has it, or is the same in both trees. -/
structure PartExpands (P : String → Int → Int → Prop) (label : Label) (t u : Tree) : Prop where
  part : t = u ∨ Labelled label t
  expands : Expands P t u

namespace Expands

variable {P : String → Int → Int → Prop} {t u : Tree} {label : Label} {line : Option Int}
  {cs ds : List Tree}

theorem all_same (cs : List Tree) : List.Forall₂ (Expands P) cs cs :=
  List.forall₂_same.mpr fun t _ => .same t

/-- Properties expand to themselves. -/
theorem properties_same (line : Option Int) : ∀ ps : List Tree, PropertiesExpand P line ps ps
  | [] => .nil line
  | p :: ps => .kept (.inl rfl) (.same p) (properties_same line ps)

theorem absent_left (h : Expands P .absent u) : u = .absent := by
  cases h
  rfl

theorem leaf_left {l : Leaf} (h : Expands P (.leaf l) u) : u = .leaf l := by
  cases h
  rfl

/-- A node expands to a node of its label and line. -/
theorem node_left (h : Expands P (.node label line cs) u) :
    ∃ ds, u = .node label line ds ∧ NodeExpands P label line cs ds := by
  cases h with
  | same =>
    refine ⟨cs, rfl, ?_⟩
    by_cases hlabel : label = .object
    · subst hlabel
      exact .object (properties_same line cs)
    · exact .plain hlabel (.inl rfl) (all_same cs)
  | node hlabel hshape h => exact ⟨_, rfl, .plain hlabel (.inr hshape) h⟩
  | object h => exact ⟨_, rfl, .object h⟩

/-- A name is the same in both trees. -/
theorem name_left (h : Expands P t u) (ht : t = u ∨ IsName t) : u = t := by
  rcases ht with rfl | ⟨l, rfl, -⟩
  · rfl
  · exact h.leaf_left

mutual

/-- Writing out properties does not change the line of a tree. -/
theorem sourceLine : ∀ {t u : Tree}, Expands P t u → u.sourceLine = t.sourceLine
  | _, _, .same _ => rfl
  | .node _ (some _) _, _, .node _ _ _ => rfl
  | .node _ none _, _, .node _ _ h => by
    rw [Tree.sourceLine, Tree.sourceLine, firstLine h]
  | .node _ (some _) _, _, .object _ => rfl
  | .node _ none _, _, .object h => by
    rw [Tree.sourceLine, Tree.sourceLine, firstLine_properties h]

theorem firstLine : ∀ {cs ds : List Tree}, List.Forall₂ (Expands P) cs ds →
    Tree.firstLine ds = Tree.firstLine cs
  | [], _, .nil => rfl
  | _ :: _, _, .cons h hs => by rw [Tree.firstLine, Tree.firstLine, h.sourceLine, firstLine hs]

theorem firstLine_properties : ∀ {line : Option Int} {ps qs : List Tree},
    PropertiesExpand P line ps qs → Tree.firstLine qs = Tree.firstLine ps
  | _, [], _, .nil _ => rfl
  | _, _ :: _, _, .kept _ h hs => by
    rw [Tree.firstLine, Tree.firstLine, h.sourceLine, firstLine_properties hs]
  | _, .node _ (some _) _ :: _, _, .written _ _ _ _ => rfl
  | _, .node _ none _ :: _, _, .written _ hb _ _ => by
    simp [Tree.firstLine, Tree.sourceLine, hb]

end

end Expands

/-! ## The longhand of a program -/

/-- Of the properties of an object those without a value are written out, the others kept. -/
theorem properties_expand {P : String → Int → Int → Prop} {lines : Int → Prop} {a : Int}
    {ps : List Tree} (hps : ∀ p ∈ ps, IsProperty p) (hlines : ∀ p ∈ ps, Placed lines p)
    (hinner : ∀ p ∈ ps, Expands P p p.longhand)
    (hP : ∀ line key b, Tree.node .prop line [.leaf key, .absent] ∈ ps → key.line = some b →
      P key.text a b) :
    PropertiesExpand P (some a) ps (ps.map fun p => p.longhand.writtenOut) := by
  induction ps with
  | nil => exact .nil _
  | cons p ps ih =>
    simp only [List.forall_mem_cons] at hps hlines hinner
    have hrest := ih hps.2 hlines.2 hinner.2 fun line key b hmem =>
      hP line key b (List.mem_cons_of_mem p hmem)
    obtain ⟨line, key, value, rfl, ⟨l, rfl, hkind⟩, hvalue⟩ := hps.1
    have hlong : (Tree.node .prop line [.leaf l, value]).longhand
        = .node .prop line [.leaf l, value.longhand] :=
      Tree.longhand_node (by decide) line _
    rw [List.map_cons, hlong]
    rcases hvalue with rfl | hvalue
    · -- the key has a line, which the longhand takes over
      obtain ⟨b, hb⟩ : ∃ b, l.line = some b := by
        cases hlines.1.child (List.mem_cons_self ..) with
        | leaf h => exact ⟨_, h⟩
      exact .written hkind hb (hP line l b (List.mem_cons_self ..) hb) hrest
    · have hkept : (Tree.node .prop line [.leaf l, value.longhand]).writtenOut
          = .node .prop line [.leaf l, value.longhand] := by
        cases value with
        | absent => exact hvalue.elim
        | leaf => rfl
        | node => rw [Tree.longhand]; rfl
      rw [hkept]
      exact .kept (.inr ⟨_, _, rfl⟩) (hlong ▸ hinner.1) hrest

/-- A tree with shape and lines has its properties written out in its longhand. -/
theorem expands_longhand {P : String → Int → Int → Prop} {lines : Int → Prop} {t : Tree}
    (hshape : Shaped t) (hlines : Placed lines t)
    (hP : ∀ name a b, t.Abbreviates name a b → P name a b) : Expands P t t.longhand := by
  induction hshape with
  | absent | leaf => exact .same _
  | @node label line cs hshape _ ih =>
    have hcs : ∀ c ∈ cs, Expands P c c.longhand := fun c hc =>
      ih c hc (hlines.child hc) fun name a b h => hP name a b (.within hc h)
    by_cases hlabel : label = .object
    · subst hlabel
      rw [Tree.longhand_object]
      cases hlines with
      | list hlist =>
        rcases hlist with h | h | h | h <;> cases h
      | node _ hlines =>
        exact .object (properties_expand hshape hlines hcs fun _ _ _ hmem hb =>
          hP _ _ _ (.here hmem hb))
    · rw [Tree.longhand_node hlabel]
      exact .node hlabel hshape (List.forall₂_map_right_iff.mpr (List.forall₂_same.mpr hcs))

/-- The tree of a program has its properties written out in its longhand. -/
theorem program_expands {ts : List Token} {t : Tree} (h : Syntax.IsProgram ts t) :
    Expands t.Abbreviates t t.longhand :=
  expands_longhand (Syntax.program_shaped h).1 (Syntax.program_placed h) fun _ _ _ h => h

end Avii
