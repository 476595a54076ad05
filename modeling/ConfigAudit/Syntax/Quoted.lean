import ConfigAudit.Syntax.Template
import ConfigAudit.Json.Reader

/-!
# Quoted strings

Text between quotes may hold line breaks and the escapes `\n \r \t \\ \" \/ \b \f \uXXXX
\UXXXXXXXX`. A backslash before another character is refused where a piece of text begins; after
other text it is dropped together with that character and ends the piece. A string whose text is one
piece is a plain string, all others are templates.
-/

namespace ConfigAudit.Syntax

open ConfigAudit.Reader

/-- A number of hexadecimal digits. -/
def hexDigits : Nat → Nat → Reader Nat
  | 0, value => pure value
  | n + 1, value => do
    let d ← Json.hexDigitValue
    hexDigits n (value * 16 + d)

/-- The character with a code point written in hexadecimal; code points of no character are
refused. -/
def codePoint (digits : Nat) : Reader Char := do
  let n ← hexDigits digits 0
  if n < 0xD800 ∨ (0xDFFF < n ∧ n < 0x110000) then pure (Char.ofNat n) else failure

/-- The character that an escape stands for, after its backslash; nothing for an unknown one, which
is used up all the same. -/
def escape : Reader (Option Char) := do
  match ← any with
  | 'n' => pure (some '\n')
  | 'r' => pure (some '\r')
  | 't' => pure (some '\t')
  | '\\' => pure (some '\\')
  | '"' => pure (some '"')
  | '/' => pure (some '/')
  | 'b' => pure (some (Char.ofNat 8))
  | 'f' => pure (some (Char.ofNat 12))
  | 'u' => pure (some (← codePoint 4))
  | 'U' => pure (some (← codePoint 8))
  | _ => pure none

/-- One piece of text between quotes; nothing at the closing quote, at the end of the text, and
where an interpolation or directive begins. -/
def quotedText : TextReader := do
  let text ← iterate (fun (acc : List Char) => do
    let s ← rest
    match s with
    | [] => pure (.inr acc.reverse)
    | '"' :: _ => pure (.inr acc.reverse)
    | '\\' :: _ =>
      skip 1
      match ← escape with
      | some c => pure (.inl (c :: acc))
      | none => if acc.isEmpty then failure else pure (.inr acc.reverse)
    | c :: _ =>
      match escapedBrace? s with
      | some cs =>
        skip 3
        pure (.inl (cs.reverse ++ acc))
      | none =>
        if beginsPart s then pure (.inr acc.reverse)
        else
          skip 1
          pure (.inl (c :: acc))) []
  pure (if text.isEmpty then none else some text)

/-- A string or template in quotes. -/
def quoted (inner : Nonterminals) : Reader Expr := do
  char '"'
  let parts ← inner.parts quotedText
  char '"'
  match parts with
  | [] => pure (.string "")
  | [.text t] => pure (.string (String.ofList t))
  | ps => pure (.template (joinText ps))

/-- A label in quotes: at most one piece of text and no interpolation. -/
def quotedLabel : Reader String := do
  char '"'
  let text ← quotedText
  char '"'
  pure (String.ofList (text.getD []))

end ConfigAudit.Syntax
