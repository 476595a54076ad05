import ConfigAudit.Yaml.Resolution

/-!
# Scalars

The style in which a string is written, and its text in that style.

* a string with a line end is a literal block, if nothing in it forbids one and it is no simple key;
* any other string is plain, unless its plain text would read as something else or would not be
  allowed;
* what cannot be plain is single quoted, and what cannot be single quoted is double quoted.
-/

namespace ConfigAudit.Yaml

/-- Characters that end a line. -/
def isBreak (c : Char) : Bool :=
  c = '\n' || c = '\r' || c.toNat = 0x85 || c.toNat = 0x2028 || c.toNat = 0x2029

/-- Characters that separate words, and the zero character, which also stands for the end. -/
def isBlank (c : Char) : Bool := c = ' ' || c = '\t' || c = '\x00' || isBreak c

/-- Characters that may be written as they are. -/
def isPrintable (c : Char) : Bool :=
  let n := c.toNat
  n = 0x0A || (0x20 ≤ n && n ≤ 0x7E) || (0xA0 ≤ n && n ≤ 0xFFFD && n != 0xFEFF) || 0x10000 ≤ n

/-- Whether some neighbours satisfy two tests. -/
def hasNeighbours (p q : Char → Bool) (s : List Char) : Bool :=
  (s.zip (s.drop 1)).any fun (a, b) => p a && q b

/-- Characters that a plain scalar cannot begin with. -/
def isIndicator (c : Char) : Bool :=
  c ∈ ['#', ',', '[', ']', '\x7b', '\x7d', '&', '*', '!', '|', '>', '\x27', '"', '%', '@', '\x60']

/-- Whether a text begins like something other than a plain scalar. -/
def hasIndicatorInFront (s : List Char) : Bool :=
  ['-', '-', '-'].isPrefixOf s || ['.', '.', '.'].isPrefixOf s ||
  match s with
  | [] => false
  | c :: rest => isIndicator c || (c ∈ ['?', ':', '-'] && isBlank (rest.headD '\x00'))

/-- Whether a text holds the mark of a key or of a comment after its first character. -/
def hasIndicatorInside (s : List Char) : Bool :=
  hasNeighbours (· = ':') isBlank (s.drop 1 ++ ['\x00']) || hasNeighbours isBlank (· = '#') s

/-- What is known of a text: whether it has characters that have to be escaped, line ends, spaces or
line ends at either end, spaces at the end, spaces after or before a line end, and marks that are
not read as text. -/
structure Features where
  special : Bool
  multiline : Bool
  outerSpace : Bool
  trailingSpace : Bool
  spaceAfterBreak : Bool
  spaceBeforeBreak : Bool
  indicator : Bool

/-- The features of a text. -/
def Features.of (s : List Char) : Features :=
  let isEdge (c : Char) : Bool := c = ' ' || isBreak c
  { special := s.any fun c => !isPrintable c
    multiline := s.any isBreak
    outerSpace := (s.head?.any isEdge) || (s.getLast?.any isEdge)
    trailingSpace := s.getLast?.any (· = ' ')
    spaceAfterBreak := hasNeighbours isBreak (· = ' ') s
    spaceBeforeBreak := hasNeighbours (· = ' ') isBreak s
    indicator := hasIndicatorInFront s || hasIndicatorInside s }

namespace Features

/-- Whether the text may be plain. -/
def plainAllowed (f : Features) : Bool :=
  !(f.special || f.multiline || f.outerSpace || f.indicator)

/-- Whether the text may be single quoted. -/
def singleQuotedAllowed (f : Features) : Bool :=
  !(f.special || f.spaceAfterBreak || f.spaceBeforeBreak)

/-- Whether the text may be a block. -/
def blockAllowed (f : Features) : Bool := !(f.special || f.trailingSpace || f.spaceBeforeBreak)

end Features

/-- How a scalar is written. -/
inductive Style
  | plain
  | singleQuoted
  | doubleQuoted
  | literal
  deriving DecidableEq, Repr

/-- The style of a string. Simple keys stay on one line. -/
def style (simpleKey : Bool) (s : String) : Style :=
  let f := Features.of s.toList
  if s.toList.contains '\n' then
    if f.blockAllowed && !simpleKey then .literal else .doubleQuoted
  else if simpleKey && f.multiline then .doubleQuoted
  else if !isAmbiguous s && f.plainAllowed then .plain
  else if f.singleQuotedAllowed then .singleQuoted
  else .doubleQuoted

/-- Blanks of an indentation. -/
def spaces (n : Nat) : List Char := List.replicate n ' '

/-- A text whose lines, except for empty ones, begin with an indentation; `atStart` tells whether
the text begins a line. -/
def indented (indent : Nat) : Bool → List Char → List Char
  | _, [] => []
  | atStart, c :: rest =>
    if isBreak c then c :: indented indent true rest
    else if atStart then spaces indent ++ c :: indented indent false rest
    else c :: indented indent false rest

/-- The marks behind the bar of a block: an indentation that cannot be seen is told, and whether
the line end after the last line is missing or more than one. -/
def blockMarks (indent : Nat) (s : List Char) : List Char :=
  let first := match s with
    | c :: _ => if c = ' ' || isBreak c then Nat.toDigits 10 indent else []
    | [] => []
  let last := match s.reverse with
    | [] => ['-']
    | [c] => if isBreak c then ['+'] else ['-']
    | c :: d :: _ => if !isBreak c then ['-'] else if isBreak d then ['+'] else []
  first ++ last

/-- The width of one level of indentation. -/
def step : Nat := 2

/-- A literal block without the line end that follows it. -/
def literal (indent : Nat) (s : List Char) : List Char :=
  '|' :: (blockMarks step s ++ '\n' :: indented indent true s)

/-- Single quotes, with those inside doubled. Lines after the first are indented. -/
def singleQuoted (indent : Nat) (s : List Char) : List Char :=
  let body := indented indent false (s.flatMap fun c => if c = '\x27' then [c, c] else [c])
  let closing := if s.getLast?.any isBreak then spaces indent else []
  '\x27' :: (body ++ closing ++ ['\x27'])

/-- A hexadecimal digit in upper case. -/
def hexDigit (n : Nat) : Char := if n < 10 then Char.ofNat (48 + n) else Char.ofNat (55 + n)

/-- The last hexadecimal digits of a number. -/
def hexDigits (width n : Nat) : List Char :=
  ((List.range width).map fun i => hexDigit (n / Nat.pow 16 i % 16)).reverse

/-- The letter that names a character after a backslash. -/
def escapeLetter? (c : Char) : Option Char :=
  match c.toNat with
  | 0x00 => some '0'
  | 0x07 => some 'a'
  | 0x08 => some 'b'
  | 0x09 => some 't'
  | 0x0A => some 'n'
  | 0x0B => some 'v'
  | 0x0C => some 'f'
  | 0x0D => some 'r'
  | 0x1B => some 'e'
  | 0x22 => some '"'
  | 0x5C => some '\\'
  | 0x85 => some 'N'
  | 0x2028 => some 'L'
  | 0x2029 => some 'P'
  | _ => none

/-- A character inside double quotes. -/
def escaped (c : Char) : List Char :=
  match escapeLetter? c with
  | some letter => ['\\', letter]
  | none =>
    if isPrintable c then [c]
    else if c.toNat ≤ 0xFF then '\\' :: 'x' :: hexDigits 2 c.toNat
    else if c.toNat ≤ 0xFFFF then '\\' :: 'u' :: hexDigits 4 c.toNat
    else '\\' :: 'U' :: hexDigits 8 c.toNat

/-- Double quotes. -/
def doubleQuoted (s : List Char) : List Char := '"' :: (s.flatMap escaped ++ ['"'])

/-- The text of a string; lines after the first one have the given indentation. -/
def scalar (simpleKey : Bool) (indent : Nat) (s : String) : List Char :=
  match style simpleKey s with
  | .plain => s.toList
  | .singleQuoted => singleQuoted indent s.toList
  | .doubleQuoted => doubleQuoted s.toList
  | .literal => literal indent s.toList

end ConfigAudit.Yaml
