import Statute.Text.Blank

/-!
# S-expressions

The written form of logic: atoms and parenthesised lists. Reading is forgiving: a closing
parenthesis too many is skipped and lists left open are closed at the end. Texts in quotes and names
in bars are atoms, quotes and bars included; a quote inside a text is written twice.
-/

namespace Statute.Logic

/-- An S-expression. -/
inductive Sexpr where
  | atom (text : String)
  | list (items : List Sexpr)
  deriving Inhabited

namespace Sexpr

mutual

/-- The text, with single spaces between the members of a list. -/
def text : Sexpr → String
  | .atom s => s
  | .list items => "(" ++ " ".intercalate (texts items) ++ ")"

/-- The texts of several S-expressions. -/
def texts : List Sexpr → List String
  | [] => []
  | e :: es => e.text :: texts es

end

/-- The list of an operator and its operands. -/
def app (head : String) (args : List Sexpr) : Sexpr := .list (.atom head :: args)

/-- The smallest parts of a written S-expression. -/
inductive Token where
  | opening
  | closing
  | atom (text : String)
  deriving DecidableEq, Repr

/-- What the reader of tokens is in the middle of, with the characters so far in reverse. -/
inductive Mode where
  | between
  | comment
  | word (soFar : List Char)
  | quoted (soFar : List Char)
  /-- After a quote that may end a text. -/
  | quoteSeen (soFar : List Char)
  | barred (soFar : List Char)

/-- The atom of the characters read, which are in reverse. -/
def finish (soFar : List Char) : Token := .atom (String.ofList soFar.reverse)

/-- Starts a token with a character that is in no other token: the tokens it makes complete, and
what the reader is in then. -/
def begin (c : Char) : List Token × Mode :=
  if c == '(' then ([.opening], .between)
  else if c == ')' then ([.closing], .between)
  else if c == ';' then ([], .comment)
  else if c == '"' then ([], .quoted ['"'])
  else if c == '|' then ([], .barred ['|'])
  else if Text.isBlank c then ([], .between)
  else ([], .word [c])

/-- Takes in one character. -/
def step (m : Mode) (c : Char) : List Token × Mode :=
  match m with
  | .between => begin c
  | .comment => ([], if c == '\n' then .between else .comment)
  | .word cs =>
    if Text.isBlank c || c == '(' || c == ')' then
      let (ts, m) := begin c
      (finish cs :: ts, m)
    else ([], .word (c :: cs))
  | .quoted cs => ([], if c == '"' then .quoteSeen (c :: cs) else .quoted (c :: cs))
  | .quoteSeen cs =>
    if c == '"' then ([], .quoted (c :: cs))
    else
      let (ts, m) := begin c
      (finish cs :: ts, m)
  | .barred cs => if c == '|' then ([finish (c :: cs)], .between) else ([], .barred (c :: cs))

/-- The token left over at the end. -/
def atEnd : Mode → List Token
  | .between => []
  | .comment => []
  | .word cs => [finish cs]
  | .quoted cs => [finish cs]
  | .quoteSeen cs => [finish cs]
  | .barred cs => [finish cs]

/-- The tokens of a text, read in a mode. -/
def tokensFrom (m : Mode) : List Char → List Token
  | [] => atEnd m
  | c :: cs =>
    let (ts, m') := step m c
    ts ++ tokensFrom m' cs

/-- The tokens of a text. Blanks and comments separate them. -/
def tokens (s : String) : List Token := tokensFrom .between s.toList

/-- The S-expressions read so far at each level, innermost first and each level in reverse. -/
structure Levels where
  inner : List Sexpr := []
  outer : List (List Sexpr) := []

namespace Levels

def add (l : Levels) (e : Sexpr) : Levels := { l with inner := e :: l.inner }

def enter (l : Levels) : Levels := ⟨[], l.inner :: l.outer⟩

/-- Ends the innermost list; at the top there is none to end. -/
def leave (l : Levels) : Levels :=
  match l.outer with
  | [] => l
  | o :: rest => ⟨.list l.inner.reverse :: o, rest⟩

def feed (l : Levels) : Token → Levels
  | .opening => l.enter
  | .closing => l.leave
  | .atom s => l.add (.atom s)

/-- Ends all lists that are still open. -/
def close : List Sexpr → List (List Sexpr) → List Sexpr
  | inner, [] => inner.reverse
  | inner, o :: rest => close (.list inner.reverse :: o) rest

end Levels

/-- The S-expressions that tokens spell. -/
def ofTokens (ts : List Token) : List Sexpr :=
  let l := ts.foldl Levels.feed {}
  Levels.close l.inner l.outer

/-- The S-expressions of a text. -/
def readAll (s : String) : List Sexpr := ofTokens (tokens s)

end Sexpr

end Statute.Logic
