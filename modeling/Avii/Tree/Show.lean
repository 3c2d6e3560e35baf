import Avii.Text.Case
import Avii.Tree.Basic

/-!
# Trees as text

Two ways to write a tree: an outline with a line for each node, and the description that messages
use. An outline takes a nested step for every level of the tree, so a tree that is too high for the
limit in force has none.
-/

namespace Avii

/-- How a message describes a leaf. -/
def Leaf.describe (l : Leaf) : String :=
  "Token(" ++ Text.quote l.kind.name ++ ", " ++ Text.quote l.text ++ ")"

namespace Tree

mutual

/-- How a message describes a tree. -/
def describe : Tree → String
  | absent => "None"
  | leaf l => l.describe
  | node label _ cs =>
    "Tree(" ++ Text.quote label.name ++ ", [" ++ ", ".intercalate (describeAll cs) ++ "])"

/-- How a message describes each of some trees. -/
def describeAll : List Tree → List String
  | [] => []
  | t :: ts => t.describe :: describeAll ts

end

/-- The text of a tree where a name or an operator is wanted: that of a leaf, and the description
of anything else. -/
def word : Tree → String
  | leaf l => l.text
  | t => t.describe

mutual

/-- The lines of an outline whose first line follows `margin`, each level one `indent` deeper.
A leaf shows its kind and its text, an absent child a dash. -/
def outlineLines (indent margin : String) : Tree → List String
  | absent => [margin ++ "-"]
  | leaf l => [margin ++ Text.lower l.kind.name ++ "\t" ++ l.text]
  | node label _ cs => (margin ++ label.name) :: outlinesLines indent (margin ++ indent) cs

/-- The lines of the outlines of some trees, one after the other. -/
def outlinesLines (indent margin : String) : List Tree → List String
  | [] => []
  | t :: ts => t.outlineLines indent margin ++ outlinesLines indent margin ts

end

/-- An outline of a tree, each level one `indent` deeper. -/
def outlineBy (indent : String) (t : Tree) : String :=
  "\n".intercalate (t.outlineLines indent "")

mutual

/-- How many levels a tree has. -/
def height : Tree → Nat
  | node _ _ cs => heights cs + 1
  | _ => 1

/-- How many levels the highest of some trees has. -/
def heights : List Tree → Nat
  | [] => 0
  | t :: ts => max t.height (heights ts)

end

/-- An outline of a tree, each level one `indent` deeper, unless the tree is too high for a limit of
nested steps. -/
def outlineBy? (limit : Nat) (indent : String) (t : Tree) : Option String :=
  if limit < t.height then none else some (t.outlineBy indent)

/-- An outline of a tree, two spaces for each level, unless the tree is too high for a limit of
nested steps. -/
def outline? (limit : Nat) (t : Tree) : Option String :=
  t.outlineBy? limit "  "

end Tree

end Avii
