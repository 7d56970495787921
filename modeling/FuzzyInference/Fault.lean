import FuzzyInference.Fcl.Problem
import FuzzyInference.Setting
import FuzzyInference.Text.Blank
import FuzzyInference.Text.Utf8

/-!
# Faults

Everything that can stop an operation. The faults that are reported in words carry their cause; the
others say only what kind of mistake was made.
-/

namespace FuzzyInference

open Text (quoted)

/-- Why a file cannot be read or written. -/
inductive FileFault where
  | absent
  | directory
  | notDirectory
  | tooLong
  | undecodable (fault : Text.Utf8.Fault)
  deriving Repr, DecidableEq

def FileFault.message (path : String) : FileFault → String
  | .absent => "[Errno 2] No such file or directory: " ++ quoted path
  | .directory => "[Errno 21] Is a directory: " ++ quoted path
  | .notDirectory => "[Errno 20] Not a directory: " ++ quoted path
  | .tooLong => "[Errno 36] File name too long: " ++ quoted path
  | .undecodable fault => fault.message

/-- What stopped an operation. -/
inductive Fault where
  | misconfigured (cause : Misconfiguration)
  /-- A line of FCL text that cannot be read, with its number, which counts from one. -/
  | unreadable (number : Int) (line : String) (problem : Fcl.Problem)
  | inaccessible (path : String) (cause : Option FileFault)
  /-- A term that is looked up by a name which its variable, described by `owner`, does not have. -/
  | unknownTerm (name owner : String)
  /-- A variable that is looked up by a name which no variable has. -/
  | unknownVariable (name : String)
  | setting (cause : SettingFault)
  /-- A value without an integer part where an index is computed. -/
  | noIndex (cause : NonFinite)
  | outOfBounds
  /-- Corners of a shape that are not in order. -/
  | disordered
  | zeroDivisor
  /-- A negative count, or nothing to draw. -/
  | badCount
  /-- Series whose lengths do not fit together. -/
  | shapes
  /-- A negation of a condition that is not a single comparison. -/
  | notNegatable
  | badPath
  deriving Repr, DecidableEq

namespace Fault

/-- The report of an unreadable line: its number, the reason, and the line without its margins. -/
def lineReport (number : Int) (line reason : String) : String :=
  "[fcl:" ++ toString number ++ "] " ++ reason ++ "\n  >> " ++
    String.ofList (Text.trim line.toList)

/-- The words that report a fault, if it is reported in words. -/
def message? : Fault → Option String
  | .misconfigured cause => some cause.message
  | .unreadable number line problem => some (lineReport number line problem.message)
  | .inaccessible path cause =>
    some <| "FCL file " ++ quoted path ++ " could not be accessed" ++
      (match cause with
        | none => ""
        | some cause => ": " ++ cause.message path)
  | .unknownTerm name owner => some ("Membership function " ++ name ++ " not found in " ++ owner)
  | .unknownVariable name => some name
  | _ => none

end Fault

end FuzzyInference
