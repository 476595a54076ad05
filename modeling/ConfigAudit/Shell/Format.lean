import ConfigAudit.Text.Reader
import ConfigAudit.Text.Utf8

/-!
# Escapes and formats

Backslash escapes as the programs that print text understand them, and formats whose directives are
filled by arguments. A format is used again as long as arguments are left.
-/

namespace ConfigAudit.Shell

open Reader

/-- Whether a character is an octal digit. -/
def isOctal (c : Char) : Bool := '0' ≤ c && c ≤ '7'

/-- Up to a number of octal digits as one byte. -/
def octalByte (limit : Nat) : Reader (List UInt8) := do
  let digits := ((← rest).take limit).takeWhile isOctal
  skip digits.length
  pure [UInt8.ofNat (digits.foldl (fun n d => n * 8 + (d.toNat - 48)) 0)]

/-- The byte of an escape of one letter. -/
def letterEscape? : Char → Option UInt8
  | 'a' => some 7
  | 'b' => some 8
  | 't' => some 9
  | 'n' => some 10
  | 'v' => some 11
  | 'f' => some 12
  | 'r' => some 13
  | '\\' => some 92
  | _ => none

/-- How bytes in octal are written: as a backslash and up to three digits, or with a zero between
them. -/
inductive OctalStyle
  | direct
  | afterZero
  deriving DecidableEq, Repr

/-- An escape after its backslash; nothing for the one that stops the output. -/
def escape (style : OctalStyle) : Reader (Option (List UInt8)) := do
  let c ← peek
  if c = 'c' then pure none
  else if let some b := letterEscape? c then
    char c
    pure (some [b])
  else if style = .direct && isOctal c then some <$> octalByte 3
  else if style = .afterZero && c = '0' then
    char c
    some <$> octalByte 3
  else pure (some [92])

/-- The bytes of a text with escapes, and whether it stops the output. -/
def unescaped (style : OctalStyle) (text : String) : List UInt8 × Bool :=
  let read : Reader (List UInt8 × Bool) := iterate (fun acc => do
    if ← atEnd then return .inr (acc.reverse, false)
    let c ← any
    if c != '\\' then return .inl ((Utf8.encode (String.ofList [c])).reverseAux acc)
    match ← escape style with
    | some bytes => pure (.inl (bytes.reverseAux acc))
    | none => pure (.inr (acc.reverse, true))) []
  match read (Unread.ofList text.toList) with
  | some (result, _) => result
  | none => ([], false)

/-- What one use of a format gives: its bytes, the last one first, the arguments that are left, and
whether the output stops. -/
structure Formatted where
  reversed : List UInt8 := []
  args : List String := []
  stopped : Bool := false

namespace Formatted

/-- Add bytes. -/
def add (f : Formatted) (bytes : List UInt8) : Formatted := { f with reversed := bytes.reverseAux f.reversed }

/-- Use the next argument; an absent one is empty. -/
def next (f : Formatted) : String × Formatted :=
  (f.args.headD "", { f with args := f.args.drop 1 })

/-- Fill a directive. -/
def directive? (f : Formatted) (c : Char) : Option Formatted :=
  let (arg, g) := f.next
  match c with
  | '%' => some (f.add [37])
  | 's' => some (g.add (Utf8.encode arg))
  | 'c' => some (g.add (Utf8.encode (String.ofList (arg.toList.take 1))))
  | 'd' | 'i' | 'u' => some (g.add (Utf8.encode (toString (arg.toInt?.getD 0))))
  | 'b' =>
    let (bytes, stopped) := unescaped .afterZero arg
    some { g.add bytes with stopped }
  | _ => none

end Formatted

/-- Use a format once. -/
def formatOnce (format : String) (args : List String) : Formatted :=
  let read : Reader Formatted := iterate (fun f => do
    if f.stopped || (← atEnd) then return .inr f
    let c ← any
    if c = '\\' then
      match ← escape .direct with
      | some [92] =>
        if (← peek) = '"' then
          char '"'
          pure (.inl (f.add [34]))
        else pure (.inl (f.add [92]))
      | some bytes => pure (.inl (f.add bytes))
      | none => pure (.inr { f with stopped := true })
    else if c = '%' then
      match f.directive? (← any) with
      | some g => pure (.inl g)
      | none => failure
    else pure (.inl (f.add (Utf8.encode (String.ofList [c]))))) { args }
  match read (Unread.ofList format.toList) with
  | some (f, _) => f
  | none => { stopped := true }

/-- The bytes of a format with arguments. -/
def formatted (format : String) (args : List String) : List UInt8 :=
  let f := formatOnce format args
  let bytes := f.reversed.reverse
  if f.stopped || f.args.isEmpty then bytes
  else if f.args.length < args.length then bytes ++ formatted format f.args
  else bytes
termination_by args.length

end ConfigAudit.Shell
