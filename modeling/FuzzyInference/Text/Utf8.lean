/-!
# UTF-8

Decoding of bytes into characters, with the position and the kind of the first fault.
-/

namespace FuzzyInference.Text.Utf8

/-- What is wrong with the bytes at a position. -/
inductive FaultKind where
  | startByte
  | continuationByte
  | endOfData
  deriving Repr, DecidableEq

/-- The words that report a kind of fault. -/
def FaultKind.text : FaultKind → String
  | .startByte => "invalid start byte"
  | .continuationByte => "invalid continuation byte"
  | .endOfData => "unexpected end of data"

/-- The bytes from `position` on, `count` of them, that begin no character; `byte` is the first. -/
structure Fault where
  kind : FaultKind
  position : Nat
  count : Nat
  byte : UInt8
  deriving Repr, DecidableEq

/-- How a character begins: the bits its first byte gives, the bytes that follow, and the range of
the first of these. The range shuts out long forms, surrogates and what lies beyond Unicode. -/
structure Lead where
  bits : Nat
  following : Nat
  low : Nat
  high : Nat

/-- The way a character that starts with this byte goes on. -/
def lead? (byte : UInt8) : Option Lead :=
  let b := byte.toNat
  if b < 0x80 then some ⟨b, 0, 0x80, 0xBF⟩
  -- bytes that only go on with a character, and long forms of one byte
  else if b < 0xC2 then none
  else if b < 0xE0 then some ⟨b - 0xC0, 1, 0x80, 0xBF⟩
  else if b < 0xF0 then
    some ⟨b - 0xE0, 2, if b = 0xE0 then 0xA0 else 0x80, if b = 0xED then 0x9F else 0xBF⟩
  else if b < 0xF5 then
    some ⟨b - 0xF0, 3, if b = 0xF0 then 0x90 else 0x80, if b = 0xF4 then 0x8F else 0xBF⟩
  else none

/-- Reads `count` bytes that go on with a character, the first in the range from `low` to `high`.
On a fault the answer is its kind and the number of bytes that were in order. -/
def continued (bits : Nat) : (count low high : Nat) → List UInt8 →
    Except (FaultKind × Nat) (Nat × List UInt8)
  | 0, _, _, rest => .ok (bits, rest)
  | _ + 1, _, _, [] => .error (.endOfData, 0)
  | count + 1, low, high, byte :: rest =>
    let b := byte.toNat
    if low ≤ b ∧ b ≤ high then
      match continued (64 * bits + (b - 0x80)) count 0x80 0xBF rest with
      | .ok found => .ok found
      | .error (kind, good) => .error (kind, good + 1)
    else .error (.continuationByte, 0)

theorem length_of_continued {bits count low high n : Nat} {bytes rest : List UInt8}
    (h : continued bits count low high bytes = .ok (n, rest)) : rest.length ≤ bytes.length := by
  induction count generalizing bits low high bytes with
  | zero =>
    simp only [continued, Except.ok.injEq, Prod.mk.injEq] at h
    simp [h.2]
  | succ count ih =>
    cases bytes with
    | nil => simp [continued] at h
    | cons byte bytes =>
      simp only [continued] at h
      split at h
      · cases hc : continued (64 * bits + (byte.toNat - 0x80)) count 0x80 0xBF bytes with
        | error e => simp [hc] at h
        | ok r =>
          simp only [hc, Except.ok.injEq] at h
          subst h
          exact Nat.le_succ_of_le (ih hc)
      · cases h

/-- Decodes the bytes that start at `position`. -/
def decodeFrom (position : Nat) (bytes : List UInt8) : Except Fault (List Char) :=
  match bytes with
  | [] => .ok []
  | byte :: rest =>
    match lead? byte with
    | none => .error ⟨.startByte, position, 1, byte⟩
    | some lead =>
      match h : continued lead.bits lead.following lead.low lead.high rest with
      | .error (kind, good) => .error ⟨kind, position, good + 1, byte⟩
      | .ok (n, rest') =>
        (decodeFrom (position + lead.following + 1) rest').map (Char.ofNat n :: ·)
termination_by bytes.length
decreasing_by exact Nat.lt_succ_of_le (length_of_continued h)

/-- The characters that the bytes write, or the first fault. -/
def decode (bytes : List UInt8) : Except Fault (List Char) := decodeFrom 0 bytes

def hexByte (byte : UInt8) : String :=
  String.ofList [Nat.digitChar (byte.toNat / 16), Nat.digitChar (byte.toNat % 16)]

def Fault.message (f : Fault) : String :=
  let place :=
    if f.count = 1 then "byte 0x" ++ hexByte f.byte ++ " in position " ++ toString f.position
    else "bytes in position " ++ toString f.position ++ "-" ++ toString (f.position + f.count - 1)
  "'utf-8' codec can't decode " ++ place ++ ": " ++ f.kind.text

/-- The bytes that write a text. -/
def encode (s : String) : List UInt8 := s.toUTF8.toList

end FuzzyInference.Text.Utf8
