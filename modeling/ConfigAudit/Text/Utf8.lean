/-!
# UTF-8

Reading bytes as text. `Utf8.next` reads one character from the front of a list of bytes or tells
how many bytes of an ill-formed sequence belong together; strict decoding refuses such a sequence
and lenient decoding writes one replacement character for it.
-/

namespace ConfigAudit.Utf8

/-- What stands at the front of a byte sequence: a well-formed character or an ill-formed sequence,
of the given number of bytes. -/
inductive Front
  | character (c : Char) (length : Nat)
  | malformed (length : Nat)

/-- Whether a byte continues a character. -/
def isContinuation (b : UInt8) : Bool := 0x80 ≤ b && b ≤ 0xBF

/-- The six payload bits of a continuation byte. -/
def payload (b : UInt8) : Nat := b.toNat % 64

/-- The range of second bytes that may follow a first byte of a long character. Overlong forms,
surrogates and values above the last code point are excluded. -/
def secondRange (first : UInt8) : UInt8 × UInt8 :=
  if first = 0xE0 then (0xA0, 0xBF)
  else if first = 0xED then (0x80, 0x9F)
  else if first = 0xF0 then (0x90, 0xBF)
  else if first = 0xF4 then (0x80, 0x8F)
  else (0x80, 0xBF)

/-- Whether a byte may follow a first byte. -/
def isSecond (first b : UInt8) : Bool :=
  let (low, high) := secondRange first
  low ≤ b && b ≤ high

/-- Read the front of a non-empty byte sequence, given as its first byte and the rest. -/
def next (b : UInt8) (rest : List UInt8) : Front :=
  if b < 0x80 then .character (Char.ofNat b.toNat) 1
  else if 0xC2 ≤ b && b ≤ 0xDF then
    match rest with
    | c :: _ =>
      if isContinuation c then .character (Char.ofNat (b.toNat % 32 * 64 + payload c)) 2
      else .malformed 1
    | [] => .malformed 1
  else if 0xE0 ≤ b && b ≤ 0xEF then
    match rest with
    | c :: d :: _ =>
      if !isSecond b c then .malformed 1
      else if !isContinuation d then .malformed 2
      else .character (Char.ofNat ((b.toNat % 16 * 64 + payload c) * 64 + payload d)) 3
    | [c] => if isSecond b c then .malformed 2 else .malformed 1
    | [] => .malformed 1
  else if 0xF0 ≤ b && b ≤ 0xF4 then
    match rest with
    | c :: d :: e :: _ =>
      if !isSecond b c then .malformed 1
      else if !isContinuation d then .malformed 2
      else if !isContinuation e then .malformed 3
      else
        .character
          (Char.ofNat (((b.toNat % 8 * 64 + payload c) * 64 + payload d) * 64 + payload e)) 4
    | [c, d] =>
      if !isSecond b c then .malformed 1 else if isContinuation d then .malformed 3
      else .malformed 2
    | [c] => if isSecond b c then .malformed 2 else .malformed 1
    | [] => .malformed 1
  else .malformed 1

/-- Decode bytes; `onMalformed` answers an ill-formed sequence. The accumulator is reversed. -/
def decodeWith (onMalformed : Option Char) (bytes : List UInt8) (acc : List Char) :
    Option (List Char) :=
  match bytes with
  | [] => some acc.reverse
  | b :: rest =>
    match next b rest with
    | .character c n => decodeWith onMalformed (rest.drop (n - 1)) (c :: acc)
    | .malformed n =>
      match onMalformed with
      | some c => decodeWith onMalformed (rest.drop (n - 1)) (c :: acc)
      | none => none
termination_by bytes.length

/-- The text of well-formed bytes. -/
def decode? (bytes : List UInt8) : Option String := (decodeWith none bytes []).map String.ofList

/-- The text of arbitrary bytes; each ill-formed sequence becomes one replacement character. -/
def decodeLenient (bytes : List UInt8) : String :=
  match decodeWith (some (Char.ofNat 0xFFFD)) bytes [] with
  | some cs => String.ofList cs
  | none => ""

/-- The bytes of a text. -/
def encode (s : String) : List UInt8 := s.toUTF8.toList

end ConfigAudit.Utf8
