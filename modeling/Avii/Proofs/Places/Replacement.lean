import Avii.Tree.Show
import Avii.Value.Fault

/-!
# Places

Lines and columns can be replaced or forgotten (`Replacement`), in trees, and so in the bodies of
closures, and in faults. What is read off a tree looks at neither; the simp lemmas here say so. The
line of a tree, and the line that a fault gets, are replaced like all others.
-/

namespace Avii

/-! ## Places -/

/-- A way to replace lines and columns. An unknown one stays unknown, and the known ones all stay
known or are all forgotten. -/
structure Replacement where
  apply : Option Int → Option Int
  unknown : apply none = none
  uniform : (∀ n, apply (some n) ≠ none) ∨ ∀ n, apply (some n) = none

namespace Replacement

instance : CoeFun Replacement fun _ => Option Int → Option Int := ⟨apply⟩

/-- All places stay. -/
def keep : Replacement := ⟨id, rfl, .inl fun _ => Option.some_ne_none _⟩

/-- All places are forgotten. -/
def forget : Replacement := ⟨fun _ => none, rfl, .inr fun _ => rfl⟩

variable (ρ : Replacement)

/-- An unknown place stays unknown. -/
@[simp] theorem apply_none : ρ none = none := ρ.unknown

/-- Where one known place is forgotten, all are. -/
theorem forgets {n : Int} (h : ρ (some n) = none) (p : Option Int) : ρ p = none := by
  cases p with
  | none => exact ρ.unknown
  | some k =>
    rcases ρ.uniform with hknown | hforgotten
    · exact absurd h (hknown n)
    · exact hforgotten k

end Replacement

variable {ρ : Replacement}

/-! ## Trees -/

/-- A leaf with its line and column replaced. -/
def Leaf.transplant (ρ : Replacement) (l : Leaf) : Leaf :=
  { l with line := ρ l.line, column := ρ l.column }

@[simp] theorem Leaf.transplant_kind (l : Leaf) : (l.transplant ρ).kind = l.kind := rfl

@[simp] theorem Leaf.transplant_text (l : Leaf) : (l.transplant ρ).text = l.text := rfl

namespace Tree

mutual

/-- A tree with all lines and columns replaced. -/
def transplant (ρ : Replacement) : Tree → Tree
  | absent => absent
  | leaf l => leaf (l.transplant ρ)
  | node label line cs => node label (ρ line) (transplantAll ρ cs)

/-- Some trees with all lines and columns replaced. -/
def transplantAll (ρ : Replacement) : List Tree → List Tree
  | [] => []
  | t :: ts => t.transplant ρ :: transplantAll ρ ts

end

/-- Trees are transplanted one by one. -/
theorem transplantAll_eq_map (ts : List Tree) : transplantAll ρ ts = ts.map (transplant ρ) := by
  induction ts with
  | nil => rfl
  | cons t ts ih => rw [transplantAll, ih, List.map_cons]

@[simp] theorem transplant_absent : (absent).transplant ρ = absent := rfl

@[simp] theorem transplant_leaf (l : Leaf) : (leaf l).transplant ρ = leaf (l.transplant ρ) := rfl

/-- A node is transplanted with its line and its children. -/
@[simp] theorem transplant_node (label : Label) (line : Option Int) (cs : List Tree) :
    (node label line cs).transplant ρ = node label (ρ line) (cs.map (transplant ρ)) := by
  rw [transplant, transplantAll_eq_map]

mutual

/-- To keep all places changes no tree. -/
theorem transplant_keep : ∀ t : Tree, t.transplant .keep = t
  | absent => rfl
  | leaf _ => rfl
  | node label line cs => by
    rw [transplant_node, transplants_keep cs]
    rfl

theorem transplants_keep : ∀ ts : List Tree, ts.map (transplant .keep) = ts
  | [] => rfl
  | t :: ts => by rw [List.map_cons, transplant_keep t, transplants_keep ts]

end

mutual

/-- How a tree is described does not show places. -/
@[simp] theorem transplant_describe : ∀ t : Tree, (t.transplant ρ).describe = t.describe
  | absent => rfl
  | leaf _ => rfl
  | node label line cs => by rw [transplant_node, describe, describe, transplant_describeAll cs]

theorem transplant_describeAll : ∀ ts : List Tree,
    describeAll (ts.map (transplant ρ)) = describeAll ts
  | [] => rfl
  | t :: ts => by
    rw [List.map_cons, describeAll, describeAll, transplant_describe t, transplant_describeAll ts]

end

mutual

/-- The line of a tree is replaced as all others are: it is known where it was, or forgotten
everywhere. -/
theorem transplant_sourceLine : ∀ t : Tree, (t.transplant ρ).sourceLine = ρ t.sourceLine
  | absent => ρ.unknown.symm
  | leaf _ => rfl
  | node label none cs => by
    rw [transplant_node, ρ.apply_none, sourceLine, sourceLine, transplant_firstLine cs]
  | node label (some n) cs => by
    rw [transplant_node]
    cases hn : ρ (some n) with
    | none => rw [sourceLine, sourceLine, transplant_firstLine cs, ρ.forgets hn, hn]
    | some k => rw [sourceLine, sourceLine, hn]

theorem transplant_firstLine : ∀ ts : List Tree,
    firstLine (ts.map (transplant ρ)) = ρ (firstLine ts)
  | [] => ρ.unknown.symm
  | t :: ts => by
    rw [List.map_cons, firstLine, firstLine, transplant_sourceLine t, transplant_firstLine ts]
    cases t.sourceLine with
    | none => rw [ρ.apply_none]
    | some n =>
      cases hn : ρ (some n) with
      | none => simp only [ρ.forgets hn]
      | some k => simp only

end

/-- The word of a leaf has no place in it. -/
@[simp] theorem transplant_word (t : Tree) : (t.transplant ρ).word = t.word := by
  cases t with
  | absent | leaf => rfl
  | node label line cs =>
    show (transplant ρ (node label line cs)).word = (node label line cs).describe
    rw [← transplant_describe (node label line cs) (ρ := ρ), transplant_node]
    rfl

@[simp] theorem transplant_words (ts : List Tree) :
    (ts.map (transplant ρ)).map word = ts.map word := by
  simp [Function.comp_def]

end Tree

/-! ## Faults -/

/-- A fault with its line replaced. -/
def Fault.transplant (ρ : Replacement) : Fault → Fault
  | .runtime cause line => .runtime cause (ρ line)
  | f => f

namespace Fault

@[simp] theorem transplant_of (cause : RuntimeCause) : (of cause).transplant ρ = of cause := by
  simp [of, transplant]

@[simp] theorem transplant_internal (cause : InternalCause) :
    (internal cause).transplant ρ = internal cause := rfl

@[simp] theorem transplant_domain (cause : DomainCause) :
    (domain cause).transplant ρ = domain cause := rfl

@[simp] theorem transplant_depth : depth.transplant ρ = depth := rfl

/-- To keep all places changes no fault. -/
theorem transplant_keep (f : Fault) : f.transplant .keep = f := by
  cases f <;> rfl

/-- The line that a fault gets is replaced like any other. -/
theorem transplant_located (f : Fault) (line : Option Int) :
    (f.located line).transplant ρ = (f.transplant ρ).located (ρ line) := by
  cases f with
  | runtime cause own =>
    cases own with
    | none => simp [located, transplant]
    | some n =>
      cases hn : ρ (some n) with
      | none => simp [located, transplant, hn, ρ.forgets hn]
      | some m => simp [located, transplant, hn]
  | internal | domain | depth => rfl

end Fault

end Avii
