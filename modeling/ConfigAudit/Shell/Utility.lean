import ConfigAudit.Shell.Format
import ConfigAudit.Shell.Machine

/-!
# Utilities

Programs that read the standard streams and files and answer with a status.
-/

namespace ConfigAudit.Shell

/-- A program that is given its arguments. -/
abbrev Utility := List String → Run UInt8

/-- Write to standard output. -/
def say (bytes : List UInt8) : Run Unit := do (← get).streams.output.write bytes

/-- Write a line to standard error. -/
def complain (line : String) : Run Unit := do
  (← get).streams.errors.write (Utf8.encode (line ++ "\n"))

/-- The channel of an operand; a hyphen is standard input. -/
def operand? (program path : String) : Run (Option Channel) := do
  if path = "-" then
    let c := (← get).streams.input
    if c = .closed then
      complain (program ++ ": -: Bad file descriptor")
      pure none
    else pure (some c)
  else
    match ← openInput path with
    | .ok c => pure (some c)
    | .error e =>
      complain (program ++ ": " ++ path ++ ": " ++ e.reason)
      pure none

/-- Do something with every operand, or with standard input if there is none. The status tells
whether all could be read. -/
def eachOperand (program : String) (paths : List String) (f : String → Channel → Run Unit) :
    Run UInt8 := do
  let mut status := 0
  for path in (if paths.isEmpty then ["-"] else paths) do
    match ← operand? program path with
    | some c => f path c
    | none => status := 1
  pure status

/-- Copy the operands to standard output. -/
def cat : Utility := fun args =>
  eachOperand "cat" (args.filter (· != "-u")) fun _ c => do say (← c.takeAll)

/-- Whether a word is a cluster of options of `echo`. -/
def isEchoOption (word : String) : Bool :=
  match word.toList with
  | '-' :: c :: cs => (c :: cs).all (· ∈ ['n', 'e', 'E'])
  | _ => false

/-- Write the arguments with blanks between them. Where escapes are understood by themselves, the
only option is one `-n`. -/
def echo : Utility := fun args => do
  let escapes := (← get).echoEscapes
  let options := if escapes then (args.take 1).filter (· = "-n") else args.takeWhile isEchoOption
  let given := options.flatMap String.toList
  let interpreted := escapes ||
    (given.reverse.find? (fun c => c = 'e' || c = 'E')) == some 'e'
  let text := String.intercalate " " (args.drop options.length)
  let (bytes, stopped) := if interpreted then unescaped .afterZero text else (Utf8.encode text, false)
  say bytes
  if !stopped && !given.contains 'n' then say [lineEnd]
  pure 0

/-- Fill a format. -/
def printf : Utility
  | [] => do
    complain "printf: missing operand"
    pure 2
  | "--" :: format :: args | format :: args => do
    say (formatted format args)
    pure 0

/-- How much of each operand is copied. -/
inductive Portion
  | bytes (n : Nat)
  | lines (n : Nat)

/-- Read the options of `head`. -/
def headOptions (portion : Portion) : List String → Portion × List String
  | [] => (portion, [])
  | "-c" :: n :: rest => headOptions (.bytes (n.toNat?.getD 0)) rest
  | "-n" :: n :: rest => headOptions (.lines (n.toNat?.getD 0)) rest
  | arg :: rest =>
    match arg.toList with
    | '-' :: 'c' :: cs => headOptions (.bytes ((String.ofList cs).toNat?.getD 0)) rest
    | '-' :: 'n' :: cs => headOptions (.lines ((String.ofList cs).toNat?.getD 0)) rest
    | '-' :: c :: cs => headOptions (.lines ((String.ofList (c :: cs)).toNat?.getD 0)) rest
    | _ => (portion, arg :: rest)

/-- Copy the beginning of the operands to standard output. -/
def head : Utility := fun args =>
  let (portion, paths) := headOptions (.lines 10) args
  eachOperand "head" paths fun _ c => do
    match portion with
    | .bytes n => say (← c.takeBytes n)
    | .lines n => say (← c.takeLines n)

/-- The number of words of a text. -/
def wordCount (bytes : List UInt8) : Nat :=
  (bytes.foldl (fun ((n, inWord) : Nat × Bool) b =>
    let blank := b = 32 || (9 ≤ b && b ≤ 13)
    (if blank || inWord then n else n + 1, !blank)) (0, false)).1

/-- Count lines, words and bytes. A single count is written as it is, several in columns. -/
def wc : Utility := fun args =>
  let options := (args.filter (·.startsWith "-")).flatMap String.toList
  let wanted (c : Char) : Bool := options.all (· = '-') || options.contains c
  eachOperand "wc" (args.filter fun a => !a.startsWith "-") fun path c => do
    let bytes ← c.takeAll
    let counts := (if wanted 'l' then [bytes.count lineEnd] else [])
      ++ (if wanted 'w' then [wordCount bytes] else [])
      ++ (if options.contains 'm' then [(Utf8.decodeLenient bytes).length] else [])
      ++ (if wanted 'c' then [bytes.length] else [])
    let column (n : Nat) : String :=
      let digits := toString n
      if counts.length = 1 then digits
      else String.ofList (List.replicate (7 - digits.length) ' ') ++ digits
    let columns := counts.map column ++ (if path = "-" then [] else [path])
    say (Utf8.encode (String.intercalate " " columns ++ "\n"))

/-- The bytes from one to another. -/
def byteRange (low high : UInt8) : List UInt8 :=
  (List.range (high.toNat + 1 - low.toNat)).map fun i => low + UInt8.ofNat i

/-- The bytes of a set, with ranges written out. -/
def byteSet (text : String) : List UInt8 :=
  let rec expand : List UInt8 → List UInt8
    | low :: 45 :: high :: rest => byteRange low high ++ expand rest
    | b :: rest => b :: expand rest
    | [] => []
  expand (unescaped .afterZero text).1

/-- Replace the bytes of a set by those of another, of which the last one stands for all missing
ones, or delete them. -/
def tr : Utility := fun args => do
  let bytes ← (← get).streams.input.takeAll
  match args with
  | ["-d", set] =>
    let set := byteSet set
    say (bytes.filter fun b => !set.contains b)
    pure 0
  | [source, target] =>
    let source := byteSet source
    let target := byteSet target
    say (bytes.map fun b =>
      match source.idxOf? b with
      | some i => (target[i]?.orElse fun _ => target.getLast?).getD b
      | none => b)
    pure 0
  | _ =>
    complain "tr: missing operand"
    pure 1

/-- The utility of a name. -/
def utility? : String → Option Utility
  | "cat" => some cat
  | "echo" => some echo
  | "printf" => some printf
  | "head" => some head
  | "wc" => some wc
  | "tr" => some tr
  | "true" => some fun _ => pure 0
  | "false" => some fun _ => pure 1
  | "sleep" => some fun _ => pure 0
  | _ => none

end ConfigAudit.Shell
