import ConfigAudit.Json.Printer

/-!
# Quoted keys

How a string key stands in a reference path: in double quotes, with named escapes for the quote, the
backslash and the usual control characters, `\x` and two hexadecimal digits for the other control
characters of ASCII, and `\u` and four digits for those from 80 to 9f.
-/

namespace ConfigAudit.Quoted

/-- Whether a character is a control character of ASCII. -/
def isAsciiControl (c : Char) : Bool := c.toNat < 32 || c.toNat = 127

/-- Whether a character is a control character. -/
def isControl (c : Char) : Bool := isAsciiControl c || (128 ≤ c.toNat && c.toNat ≤ 159)

/-- Two hexadecimal digits. -/
def hex2 (n : Nat) : List Char := [Json.hexDigit (n / 16), Json.hexDigit (n % 16)]

/-- How a character stands inside the quotes. -/
def encodeChar (c : Char) : List Char :=
  if c = '"' then ['\\', '"']
  else if c = '\\' then ['\\', '\\']
  else if c.toNat = 7 then ['\\', 'a']
  else if c.toNat = 8 then ['\\', 'b']
  else if c.toNat = 12 then ['\\', 'f']
  else if c = '\n' then ['\\', 'n']
  else if c = '\r' then ['\\', 'r']
  else if c = '\t' then ['\\', 't']
  else if c.toNat = 11 then ['\\', 'v']
  else if isAsciiControl c then '\\' :: 'x' :: hex2 c.toNat
  else if isControl c then '\\' :: 'u' :: '0' :: '0' :: hex2 c.toNat
  else [c]

/-- The characters between the quotes. -/
def encodeChars : List Char → List Char
  | [] => []
  | c :: rest => encodeChar c ++ encodeChars rest

/-- A key in quotes. -/
def encode (key : List Char) : List Char := '"' :: (encodeChars key ++ ['"'])

end ConfigAudit.Quoted
