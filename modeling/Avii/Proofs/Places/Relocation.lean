import Avii.Proofs.Transplant.Basic
import Avii.Tree.Parse

/-!
# Other places

Every line and every column of a token, a tree, a value, a store or a fault can be replaced by
another, through a function `φ`; all else stays. With the identity nothing changes, and with a
constant function all places that are known become the same one (`unplaced`): two things agree but
for places if they are equal then.

For what evaluation works on this is a transplant that puts nothing below, and the lemmas
`relocate_eq` say so. Tokens and refusals are not transplanted, so trees have a few lemmas of their
own for the parser.
-/

namespace Avii

variable {φ : Int → Int}

/-- All known places are replaced through a function. -/
def Replacement.move (φ : Int → Int) : Replacement :=
  ⟨Option.map φ, rfl, .inl fun _ => Option.some_ne_none _⟩

/-! ## Tokens and trees -/

/-- A token with its line and column replaced. -/
def Token.relocate (φ : Int → Int) (t : Token) : Token :=
  { t with line := φ t.line, column := φ t.column }

/-- A leaf with its line and column replaced. -/
def Leaf.relocate (φ : Int → Int) (l : Leaf) : Leaf :=
  { l with line := l.line.map φ, column := l.column.map φ }

@[simp] theorem Token.relocate_kind (t : Token) : (t.relocate φ).kind = t.kind := rfl

@[simp] theorem Token.relocate_text (t : Token) : (t.relocate φ).text = t.text := rfl

@[simp] theorem Token.relocate_line (t : Token) : (t.relocate φ).line = φ t.line := rfl

/-- To relocate a token is to relocate the leaf that it becomes. -/
@[simp] theorem Token.relocate_leaf (t : Token) : (t.relocate φ).leaf = t.leaf.relocate φ := rfl

@[simp] theorem Leaf.relocate_kind (l : Leaf) : (l.relocate φ).kind = l.kind := rfl

@[simp] theorem Leaf.relocate_text (l : Leaf) : (l.relocate φ).text = l.text := rfl

@[simp] theorem Leaf.relocate_line (l : Leaf) : (l.relocate φ).line = l.line.map φ := rfl

/-- A relocation that moves nothing leaves a leaf as it is. -/
theorem Leaf.relocate_id (l : Leaf) : l.relocate id = l := by
  simp [Leaf.relocate]

namespace Tree

mutual

/-- A tree with all lines and columns replaced. -/
def relocate (φ : Int → Int) : Tree → Tree
  | absent => absent
  | leaf l => leaf (l.relocate φ)
  | node label line cs => node label (line.map φ) (relocateAll φ cs)

/-- Some trees with all lines and columns replaced. -/
def relocateAll (φ : Int → Int) : List Tree → List Tree
  | [] => []
  | t :: ts => t.relocate φ :: relocateAll φ ts

end

/-- A list of trees is relocated tree by tree. -/
theorem relocateAll_eq_map (ts : List Tree) : relocateAll φ ts = ts.map (relocate φ) := by
  induction ts with
  | nil => rfl
  | cons t ts ih => rw [relocateAll, ih, List.map_cons]

@[simp] theorem relocate_absent : (absent).relocate φ = absent := rfl

@[simp] theorem relocate_leaf (l : Leaf) : (leaf l).relocate φ = leaf (l.relocate φ) := rfl

/-- A node is relocated with its line and its children. -/
@[simp] theorem relocate_node (label : Label) (line : Option Int) (cs : List Tree) :
    (node label line cs).relocate φ = node label (line.map φ) (cs.map (relocate φ)) := by
  rw [relocate, relocateAll_eq_map]

mutual

/-- To relocate a tree is to transplant it by a replacement of the lines alone. -/
theorem relocate_transplant : ∀ t : Tree, t.relocate φ = t.transplant (.move φ)
  | absent => rfl
  | leaf _ => rfl
  | node label line cs => congrArg (node label (line.map φ)) (relocateAll_transplant cs)

theorem relocateAll_transplant : ∀ ts : List Tree,
    relocateAll φ ts = transplantAll (.move φ) ts
  | [] => rfl
  | t :: ts => by
    rw [relocateAll, transplantAll, relocate_transplant t, relocateAll_transplant ts]

end

/-- As functions, relocating trees and transplanting them by moved lines agree. -/
theorem relocate_eq : relocate φ = transplant (.move φ) :=
  funext relocate_transplant

mutual

/-- A relocation that moves nothing leaves a tree as it is. -/
theorem relocate_id : ∀ t : Tree, t.relocate id = t
  | absent => rfl
  | leaf l => by rw [relocate_leaf, l.relocate_id]
  | node label line cs => by rw [relocate_node, relocate_ids cs, Option.map_id_apply]

theorem relocate_ids : ∀ ts : List Tree, ts.map (relocate id) = ts
  | [] => rfl
  | t :: ts => by rw [List.map_cons, relocate_id t, relocate_ids ts]

end

/-- The line that a tree is reported with moves along. -/
@[simp] theorem relocate_sourceLine (t : Tree) :
    (t.relocate φ).sourceLine = t.sourceLine.map φ := by
  rw [relocate_eq]
  exact transplant_sourceLine t

/-- A relocated tree is a name exactly if the tree is one. -/
@[simp] theorem relocate_isName (t : Tree) :
    Parser.isName (t.relocate φ) = Parser.isName t := by
  cases t <;> rfl

/-- A tree without places: wherever one is known, it is the same. -/
abbrev unplaced (t : Tree) : Tree := t.relocate fun _ => 1

end Tree

/-! ## Values -/

/-- A closure with all lines and columns of its body replaced. -/
def Closure.relocate (φ : Int → Int) (c : Closure) : Closure :=
  { c with body := c.body.map (Tree.relocate φ) }

/-- A relocation that moves nothing leaves a closure as it is. -/
theorem Closure.relocate_id (c : Closure) : c.relocate id = c := by
  rw [Closure.relocate, Tree.relocate_ids]

/-- To relocate a closure is to transplant its body and to keep its captured scope. -/
theorem Closure.relocate_transplant (c : Closure) :
    c.relocate φ = c.transplant (.move φ) 0 := by
  rw [Closure.relocate, Tree.relocate_eq]
  rfl

namespace Value

mutual

/-- A value with all lines and columns replaced that the bodies of closures have. -/
def relocate (φ : Int → Int) : Value → Value
  | array items => array (relocateItems φ items)
  | object slots => object (relocateSlots φ slots)
  | closure c => closure (c.relocate φ)
  | v => v

/-- Some values with all lines and columns replaced. -/
def relocateItems (φ : Int → Int) : List Value → List Value
  | [] => []
  | v :: vs => v.relocate φ :: relocateItems φ vs

/-- Some slots with all lines and columns of their values replaced. -/
def relocateSlots (φ : Int → Int) : List (String × Value) → List (String × Value)
  | [] => []
  | (k, v) :: rest => (k, v.relocate φ) :: relocateSlots φ rest

end

mutual

/-- To relocate a value is to transplant it without moving any scope. -/
theorem relocate_transplant : ∀ v : Value, v.relocate φ = v.transplant (.move φ) 0
  | array items => congrArg array (relocateItems_transplant items)
  | object slots => congrArg object (relocateSlots_transplant slots)
  | closure c => congrArg closure c.relocate_transplant
  | null | number _ | string _ | bool _ | native _ => rfl

theorem relocateItems_transplant : ∀ vs : List Value,
    relocateItems φ vs = transplantItems (.move φ) 0 vs
  | [] => rfl
  | v :: vs => by
    rw [relocateItems, transplantItems, relocate_transplant v, relocateItems_transplant vs]

theorem relocateSlots_transplant : ∀ slots : List (String × Value),
    relocateSlots φ slots = transplantSlots (.move φ) 0 slots
  | [] => rfl
  | (k, v) :: rest => by
    rw [relocateSlots, transplantSlots, relocate_transplant v, relocateSlots_transplant rest]

end

/-- As functions, relocating values and transplanting them by moved lines agree. -/
theorem relocate_eq : relocate φ = transplant (.move φ) 0 :=
  funext relocate_transplant

mutual

/-- A relocation that moves nothing leaves a value as it is. -/
theorem relocate_id : ∀ v : Value, v.relocate id = v
  | array items => congrArg array (relocate_itemIds items)
  | object slots => congrArg object (relocate_slotIds slots)
  | closure c => congrArg closure c.relocate_id
  | null | number _ | string _ | bool _ | native _ => rfl

theorem relocate_itemIds : ∀ vs : List Value, relocateItems id vs = vs
  | [] => rfl
  | v :: vs => by rw [relocateItems, relocate_id v, relocate_itemIds vs]

theorem relocate_slotIds : ∀ slots : List (String × Value), relocateSlots id slots = slots
  | [] => rfl
  | (k, v) :: rest => by rw [relocateSlots, relocate_slotIds rest, relocate_id v]

end

/-- Truth values have no places in them. -/
@[simp] theorem relocate_eq_bool {v : Value} {b : Bool} :
    v.relocate φ = bool b ↔ v = bool b := by
  cases v <;> simp [relocate]

/-- A value without places. -/
abbrev unplaced (v : Value) : Value := v.relocate fun _ => 1

end Value

/-! ## Faults -/

/-- A fault with its line replaced. -/
def Fault.relocate (φ : Int → Int) : Fault → Fault
  | .runtime cause line => .runtime cause (line.map φ)
  | f => f

/-- To relocate a fault is to transplant it. -/
theorem Fault.relocate_eq : Fault.relocate φ = Fault.transplant (.move φ) :=
  funext fun f => by cases f <;> rfl

/-- A relocation that moves nothing leaves a fault as it is. -/
theorem Fault.relocate_id (f : Fault) : f.relocate id = f := by
  cases f <;> simp [Fault.relocate]

/-- A fault without a place. -/
abbrev Fault.unplaced (f : Fault) : Fault := f.relocate fun _ => 1

/-! ## Stores -/

/-- A binding with all lines and columns of its value replaced. -/
def Binding.relocate (φ : Int → Int) (b : Binding) : Binding :=
  { b with value := b.value.relocate φ }

/-- A relocation that moves nothing leaves a binding as it is. -/
theorem Binding.relocate_id (b : Binding) : b.relocate id = b := by
  rw [relocate, Value.relocate_id]

/-- To relocate a binding is to transplant its value. -/
theorem Binding.relocate_eq : Binding.relocate φ = Binding.transplant (.move φ) 0 :=
  funext fun b => by rw [relocate, Value.relocate_eq, transplant]

namespace Scope

/-- A scope with all lines and columns of its values replaced. -/
def relocate (φ : Int → Int) (s : Scope) : Scope :=
  { s with bindings := s.bindings.map (Binding.relocate φ) }

/-- A relocation that moves nothing leaves a scope as it is. -/
theorem relocate_id (s : Scope) : s.relocate id = s := by
  have h : Binding.relocate id = id := funext Binding.relocate_id
  simp [relocate, h]

/-- To relocate a scope is to transplant it with its parent where it is. -/
theorem relocate_eq : relocate φ = transplant (.move φ) 0 :=
  funext fun s => by simp [relocate, transplant, Binding.relocate_eq]

end Scope

namespace Store

/-- A store with all lines and columns of its values replaced. -/
def relocate (φ : Int → Int) (s : Store) : Store := ⟨s.scopes.map (Scope.relocate φ)⟩

/-- A relocation that moves nothing leaves a store as it is. -/
theorem relocate_id (s : Store) : s.relocate id = s := by
  have h : Scope.relocate id = id := funext Scope.relocate_id
  simp [relocate, h]

/-- To relocate a store is to transplant it on top of no scopes. -/
theorem relocate_eq : relocate φ = transplant (.move φ) #[] :=
  funext fun s => by simp [relocate, transplant, Scope.relocate_eq]

/-- A store without places. -/
abbrev unplaced (s : Store) : Store := s.relocate fun _ => 1

end Store

end Avii
