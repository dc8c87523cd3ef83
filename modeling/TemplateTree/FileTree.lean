/-
Files, and what a path finds among them.

A path is followed one part at a time, from the working directory.  An empty part and
a single dot stay in place, two dots go up, and any other part has to be an entry of
the directory reached so far.  So nothing may follow the name of a file, not even a
slash, and a part that does not exist cannot be taken back by two dots.

The files are those below the working directory.  What lies around it are directories
without known entries.
-/

namespace TemplateTree

/-- Why a path gives no text. -/
inductive ReadFailure
  | notFound
  | notDirectory
  | isDirectory
  | nameTooLong
  | notUtf8
  | other (reason : String)
  deriving DecidableEq, Repr

/-- The wording of a failure to read. -/
def ReadFailure.message : ReadFailure → String
  | notFound => "No such file or directory (os error 2)"
  | notDirectory => "Not a directory (os error 20)"
  | isDirectory => "Is a directory (os error 21)"
  | nameTooLong => "File name too long (os error 36)"
  | notUtf8 => "stream did not contain valid UTF-8"
  | other reason => reason

/-- The text of a file's bytes. -/
def decodeText (bytes : ByteArray) : Except ReadFailure String :=
  match String.fromUTF8? bytes with
  | some text => .ok text
  | none => .error .notUtf8

/-- Files, each under the parts of its path from the working directory. -/
structure FileTree where
  files : List (List String × ByteArray)

namespace FileTree

/-- Where a path can lead. -/
inductive Place
  | file (content : ByteArray)
  /-- The directory reached by these parts from the working directory. -/
  | directory (parts : List String)
  /-- A directory around the working directory. -/
  | outside

/-- The pieces between the slashes of a path. -/
def splitAtSlashes : List Char → List (List Char)
  | [] => [[]]
  | c :: rest =>
    if c = '/' then [] :: splitAtSlashes rest
    else
      match splitAtSlashes rest with
      | [] => [[c]]
      | part :: more => (c :: part) :: more

/-- The parts of a path. -/
def partsOf (path : String) : List String :=
  (splitAtSlashes path.toList).map String.ofList

/-- Does this part stay in place? -/
def isStay (part : String) : Bool :=
  part = "" || part = "."

/-- The bytes that one part may have. -/
def maxPartSize : Nat :=
  255

/-- The bytes that a path may have. -/
def maxPathSize : Nat :=
  4095

/-- Files by their paths; of two at one path the later one counts. -/
def ofList (files : List (String × ByteArray)) : FileTree :=
  ⟨files.reverse.map fun (path, content) => ((partsOf path).filter (!isStay ·), content)⟩

/-- The entry at these parts: a file, or a directory with a file somewhere below it. -/
def entry? (tree : FileTree) (parts : List String) : Option Place :=
  match tree.files.lookup parts with
  | some content => some (.file content)
  | none => if tree.files.any fun file => parts.isPrefixOf file.1 then some (.directory parts) else none

/-- Follows one part of a path. -/
def step (tree : FileTree) (here : Place) (part : String) : Except ReadFailure Place :=
  match here with
  | .file _ => .error .notDirectory
  | .directory parts =>
    if isStay part then .ok here
    else if part = ".." then .ok (if parts.isEmpty then .outside else .directory parts.dropLast)
    else if maxPartSize < part.utf8ByteSize then .error .nameTooLong
    else (tree.entry? (parts ++ [part])).elim (.error .notFound) .ok
  | .outside =>
    if isStay part || part = ".." then .ok .outside
    else if maxPartSize < part.utf8ByteSize then .error .nameTooLong
    else .error .notFound

/-- Follows a path.  One that begins with a slash starts outside. -/
def follow (tree : FileTree) (path : String) : Except ReadFailure Place :=
  if path = "" then .error .notFound
  else if maxPathSize < path.utf8ByteSize then .error .nameTooLong
  else (partsOf path).foldlM tree.step (if path.toList.head? = some '/' then .outside else .directory [])

/-- The text of the file that a path leads to. -/
def read (tree : FileTree) (path : String) : Except ReadFailure String := do
  match ← tree.follow path with
  | .file content => decodeText content
  | .directory _ | .outside => throw .isDirectory

example : ((ofList [("a/t", "x".toUTF8)]).read "./a//../a/t").toOption = some "x" := by
  decide +kernel

example : (ofList [("a/t", "x".toUTF8)]).read "a/t/" = .error .notDirectory := by
  rfl

example : (ofList [("a/t", "x".toUTF8)]).read "b/../a/t" = .error .notFound := by
  rfl

example : (ofList [("a/t", "x".toUTF8)]).read "a" = .error .isDirectory := by
  rfl

end FileTree

end TemplateTree
