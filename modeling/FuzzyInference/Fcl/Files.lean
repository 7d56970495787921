import FuzzyInference.Fcl.Reader
import FuzzyInference.Fcl.Writer

/-!
# FCL files

A directory of files as a value, and controllers that are read from it and written to it. The
directory holds no further directories, and of what lies outside of it only the directories above it
are known.
-/

namespace FuzzyInference

/-- The files of a directory with their bytes. -/
structure Files where
  entries : List (String × List UInt8)

namespace Files

/-! ## Paths -/

/-- What the name that a path comes upon is used as. -/
inductive NameUse where
  | goal
  /-- The goal, with a slash behind it, which only a directory may have. -/
  | closedGoal
  /-- A directory on the way. -/
  | passage
  deriving Repr, DecidableEq

/-- What a path leads to. -/
inductive Location where
  /-- The directory or one above it. -/
  | directory
  /-- A name, in the directory or outside of it, which is the goal or bars the way. -/
  | named (inside : Bool) (name : String) (usedAs : NameUse)
  | nowhere
  | tooLong
  deriving Repr, DecidableEq

/-- The bytes that a name may have. -/
def nameLimit : Nat := 255

/-- The bytes that a path may have. -/
def pathLimit : Nat := 4095

/-- Where the parts of a path lead from the directory or from outside of it; `closed` says that a
slash ends the path. -/
def walk (inside closed : Bool) : List String → Location
  | [] => .directory
  | "." :: rest => walk inside closed rest
  -- the way back from above the directory is not known
  | ".." :: rest => walk false closed rest
  | [name] => .named inside name (if closed then .closedGoal else .goal)
  | name :: _ => .named inside name .passage

/-- Where a path leads from the directory. Empty parts do not count. -/
def locate (path : String) : Location :=
  if path = "" then .nowhere
  else if pathLimit < path.utf8ByteSize then .tooLong
  else walk (!path.startsWith "/") (path.endsWith "/") ((path.splitOn "/").filter (· ≠ ""))

/-- Refuses a path with a null character. -/
def checkPath (path : String) : Except Fault Unit :=
  if path.toList.contains '\x00' then .error .badPath else .ok ()

/-! ## Contents -/

def content? (files : Files) (name : String) : Option (List UInt8) := files.entries.lookup name

/-- What a name stands for. Nothing is known outside of the directory. -/
def lookUp (files : Files) (inside : Bool) (name : String) : Except FileFault (List UInt8) :=
  if nameLimit < name.utf8ByteSize then .error .tooLong
  else
    match if inside then files.content? name else none with
    | some bytes => .ok bytes
    | none => .error .absent

def read (files : Files) (path : String) : Except FileFault (List UInt8) :=
  match locate path with
  | .nowhere => .error .absent
  | .tooLong => .error .tooLong
  | .directory => .error .directory
  | .named inside name .goal => files.lookUp inside name
  | .named inside name _ => files.lookUp inside name >>= fun _ => .error .notDirectory

/-- Whether a path leads to something that is there. -/
def contains (files : Files) (path : String) : Bool :=
  match files.read path with
  | .ok _ | .error .directory => true
  | .error _ => false

/-- The text of the file at a path. -/
def readText (files : Files) (path : String) : Except FileFault (List Char) :=
  (files.read path).bind fun bytes => (Text.Utf8.decode bytes).mapError .undecodable

/-- The directory after bytes have been written to a path. -/
def write (files : Files) (path : String) (bytes : List UInt8) : Except FileFault Files :=
  match locate path with
  | .nowhere => .error .absent
  | .tooLong => .error .tooLong
  | .directory => .error .directory
  | .named _ _ .closedGoal => .error .directory
  | .named inside name .passage => files.lookUp inside name >>= fun _ => .error .notDirectory
  | .named inside name .goal =>
    if nameLimit < name.utf8ByteSize then .error .tooLong
    else if inside then .ok ⟨(name, bytes) :: files.entries.filter (·.1 != name)⟩
    else .error .absent

/-- A fault of the file at a path, as what stops an operation. -/
def blame {β : Type} (path : String) (result : Except FileFault β) : Except Fault β :=
  result.mapError fun cause => .inaccessible path (some cause)

end Files

namespace Controller

variable {α : Type} [Scalar α]

/-- Adds the variables, rules and settings of an FCL file. -/
def loadFcl (files : Files) (path : String) : Action (Controller α) Unit := do
  Action.note (.readingFile path)
  Action.ask fun _ => Files.checkPath path
  let text ← Action.ask fun _ => Files.blame path (files.readText path)
  readFcl text

/-- Writes the FCL text of a controller to a file. -/
def saveFcl (c : Controller α) (path : String) : Action Files Unit := do
  let text ← Action.ask fun _ => c.toFcl
  Action.note (.writingFile path)
  Action.ask fun _ => Files.checkPath path
  Action.change fun files => Files.blame path (files.write path (Text.Utf8.encode text))

end Controller

end FuzzyInference
