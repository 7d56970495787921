import FuzzyInference.Scalar
import FuzzyInference.Text.Quoted

/-!
# Settings

An option arrives as a value of any kind, from a configuration file for instance, and is only
checked where it is used. This module holds such values, the way they are shown in messages, and
their reading as counts and as numbers.
-/

namespace FuzzyInference

/-- A value of an option before it is checked. -/
inductive Setting (α : Type) where
  | null
  | flag (value : Bool)
  | integer (value : Int)
  | real (value : α)
  | text (value : String)
  | list (items : List (Setting α))
  | record (fields : List (String × Setting α))

/-- Why a setting is no number of the wanted kind. -/
inductive SettingFault where
  | unreadable
  /-- A value of this kind is never a number. -/
  | wrongKind
  | nonFinite (cause : NonFinite)
  deriving Repr, DecidableEq

namespace Setting

variable {α : Type} [Scalar α]

mutual

/-- The value as a part of a message, a text being quoted. -/
def shown : Setting α → String
  | .null => "None"
  | .flag true => "True"
  | .flag false => "False"
  | .integer i => toString i
  | .real x => Scalar.text x
  | .text s => Text.quoted s
  | .list items => "[" ++ ", ".intercalate (shownItems items) ++ "]"
  | .record fields => "\x7b" ++ ", ".intercalate (shownFields fields) ++ "\x7d"

def shownItems : List (Setting α) → List String
  | [] => []
  | item :: rest => item.shown :: shownItems rest

def shownFields : List (String × Setting α) → List String
  | [] => []
  | (name, value) :: rest => (Text.quoted name ++ ": " ++ value.shown) :: shownFields rest

end

/-- The value alone: a text stands for itself. -/
def plain : Setting α → String
  | .text s => s
  | value => value.shown

/-- The value as a count: a number is cut off towards zero, a text has to write a whole number. -/
def toInt? : Setting α → Except SettingFault Int
  | .flag b => .ok (if b then 1 else 0)
  | .integer i => .ok i
  | .real x => (Scalar.truncate? x).mapError .nonFinite
  | .text s =>
    match Numeral.parseInt? s.toList with
    | some i => .ok i
    | none => .error .unreadable
  | .null | .list _ | .record _ => .error .wrongKind

/-- The value as a number. An integer has to lie in the range of the scalars. -/
def toScalar? : Setting α → Except SettingFault α
  | .flag b => .ok (if b then 1 else 0)
  | .integer i =>
    let x : α := Scalar.ofInt i
    match Scalar.floor? x with
    | .ok _ => .ok x
    | .error cause => .error (.nonFinite cause)
  | .real x => .ok x
  | .text s =>
    match Numeral.parse? s.toList with
    | some n => .ok (Scalar.ofNumeral n)
    | none => .error .unreadable
  | .null | .list _ | .record _ => .error .wrongKind

end Setting

end FuzzyInference
