/-!
# Shell scripts

The commands of a small shell language: simple commands with redirections, pipelines, conditional
and unconditional sequences, groups and subshells. Words are built of literal text, parameters and
the output of commands.
-/

namespace ConfigAudit.Shell

/-- What a redirection does to a stream: it reads from a file, writes to a file that is emptied
first or to its end, or does as another stream does, unless it is closed. -/
inductive RedirectionMode
  | input
  | output
  | append
  | duplicate
  deriving DecidableEq, Repr

mutual

/-- A part of a word: a text, the value of a parameter, or the output of commands. Outside quotes
the last two are split at blanks. -/
inductive Piece
  | text (s : List Char)
  | parameter (name : String) (quoted : Bool)
  | output (body : List Command) (quoted : Bool)

/-- A change of where a stream of a command leads. -/
inductive Redirection
  | mk (stream : Nat) (mode : RedirectionMode) (target : List Piece)

/-- A command: a program call with assignments and redirections, commands in braces or in
parentheses, which do not change the shell outside, a pipe from the first to the second, a negation,
and two commands of which the second is for success or for failure of the first. -/
inductive Command
  | simple (assignments : List (String × List Piece)) (words : List (List Piece))
      (redirections : List Redirection)
  | group (body : List Command) (redirections : List Redirection)
  | subshell (body : List Command) (redirections : List Redirection)
  | pipe (left right : Command)
  | negated (c : Command)
  | both (left right : Command)
  | either (left right : Command)

end

/-- A word. -/
abbrev Word := List Piece

end ConfigAudit.Shell
