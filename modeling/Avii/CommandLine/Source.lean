import Avii.Text.Split

/-!
# Where program texts come from

A command reads a program text from the standard input, from a file, or takes its operand for the
text. A path is followed name by name: from the working directory, or from the root if it starts
with a slash, and each name but the last must be that of a directory. The line ends of files are
made uniform.
-/

namespace Avii.CommandLine

/-- What has a name in a directory. -/
inductive Entry where
  | file (text : String)
  | directory

/-- What a command finds around it: the text on the standard input, whether that is a terminal, and
what stands at each path in its plain form. -/
structure Surroundings where
  input : String
  isTerminal : Bool
  entry? : String → Option Entry

/-! ## Paths -/

/-- The names of a path: empty ones and single dots do not count. -/
def pathNames (path : String) : List String :=
  (Text.split path "/").filter fun p => p ≠ "" && p ≠ "."

/-- Does a path start at the root? -/
def isRooted (path : String) : Bool :=
  path.toList.head? = some '/'

/-- The path with some names in its plain form. -/
def pathOf (rooted : Bool) (names : List String) : String :=
  let joined := "/".intercalate names
  if rooted then "/" ++ joined else joined

/-- The slashes that a path keeps in front: none, one, or two. More than two are one. -/
def leadingSlashes (path : String) : String :=
  match (path.toList.takeWhile (· = '/')).length with
  | 0 => ""
  | 2 => "//"
  | _ => "/"

/-- A path as it is handed over to be looked up: its names with single slashes between them, and the
slashes that it keeps in front. -/
def shortened (path : String) : String :=
  leadingSlashes path ++ "/".intercalate (pathNames path)

/-- The longest name that can be looked up, in bytes. -/
def longestName : Nat := 255

/-- The longest path that can be looked up, in bytes. -/
def longestPath : Nat := 4095

/-- Where a path leads. -/
inductive Destination where
  | file (text : String)
  | directory
  /-- No entry has the name. -/
  | nothing
  /-- The path goes on after a file. -/
  | pastFile
  /-- The path, or a name in it, is too long to be looked up. -/
  | tooLong
  /-- A text with a null character is no path. -/
  | noPath

/-- The names of the directory above: the parent of the working directory, but the root has none. -/
def above (rooted : Bool) (names : List String) : List String :=
  match names.getLast? with
  | none => if rooted then [] else [".."]
  | some ".." => names ++ [".."]
  | some _ => names.dropLast

/-- Follows names from the directory with the names `here`. -/
def follow (w : Surroundings) (rooted : Bool) (here : List String) : List String → Destination
  | [] => .directory
  | name :: rest =>
    if name = ".." then follow w rooted (above rooted here) rest
    else if longestName < name.utf8ByteSize then .tooLong
    else
      match w.entry? (pathOf rooted (here ++ [name])) with
      | none => .nothing
      | some (.file text) => if rest.isEmpty then .file text else .pastFile
      | some .directory => follow w rooted (here ++ [name]) rest

/-- The plain paths that are looked up on the way along names, if all but the last are those of
directories. -/
def lookupsFrom (rooted : Bool) (here : List String) : List String → List String
  | [] => []
  | name :: rest =>
    if name = ".." then lookupsFrom rooted (above rooted here) rest
    else pathOf rooted (here ++ [name]) :: lookupsFrom rooted (here ++ [name]) rest

/-- The plain paths that are looked up on the way along a path. -/
def lookups (path : String) : List String :=
  lookupsFrom (isRooted path) [] (pathNames path)

/-- Where a path leads. -/
def Surroundings.destination (w : Surroundings) (path : String) : Destination :=
  if path.toList.contains (Char.ofNat 0) then .noPath
  else if longestPath < (shortened path).utf8ByteSize then .tooLong
  else follow w (isRooted path) [] (pathNames path)

/-! ## Texts -/

/-- Why a text cannot be had. -/
inductive NoText where
  /-- There is nothing on the standard input. -/
  | noInput
  /-- A directory stands where a file is wanted. -/
  | directory
  /-- There is no such file. -/
  | missing
  /-- The path goes on after a file. -/
  | pastFile
  /-- The path is too long to be looked up. -/
  | pathTooLong
  /-- The text is no path. -/
  | noPath
deriving DecidableEq

/-- Why a text cannot be had, in words. -/
def NoText.message : NoText → String
  | noInput => "No input provided on stdin"
  | directory => "Is a directory"
  | missing => "No such file or directory"
  | pastFile => "Not a directory"
  | pathTooLong => "File name too long"
  | noPath => "embedded null byte"

/-- Carriage returns as line ends become line feeds. -/
def uniformLines : List Char → List Char
  | [] => []
  | '\r' :: '\n' :: rest => '\n' :: uniformLines rest
  | c :: rest => (if c = '\r' then '\n' else c) :: uniformLines rest

/-- The text in a file. -/
def fileText (text : String) : String :=
  String.ofList (uniformLines text.toList)

/-- The text at the end of a path. -/
def Surroundings.textAt (w : Surroundings) (path : String) : Except NoText String :=
  match w.destination path with
  | .file text => .ok (fileText text)
  | .directory => .error .directory
  | .nothing => .error .missing
  | .pastFile => .error .pastFile
  | .tooLong => .error .pathTooLong
  | .noPath => .error .noPath

end Avii.CommandLine
