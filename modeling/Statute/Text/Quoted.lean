import Statute.Text.Unprintable

/-!
# Text shown in quotes

A quoted text stands between double quotes. Quotes and backslashes inside it, line ends, tabs and
the null character are escaped by a backslash and a letter; every other character that has no
printed form of its own, or that would join the character before it, is written as its number in
lower-case hexadecimal between braces.
-/

namespace Statute.Text

/-- The escape `\u` with the character's number in lower-case hexadecimal, without padding. -/
def escapeByNumber (c : Char) : List Char :=
  '\\' :: 'u' :: '\x7b' :: (Nat.toDigits 16 c.toNat ++ ['\x7d'])

/-- How one character is written inside quotes. -/
def quotedChar (c : Char) : List Char :=
  if c == '"' then ['\\', '"']
  else if c == '\\' then ['\\', '\\']
  else if c == '\n' then ['\\', 'n']
  else if c == '\r' then ['\\', 'r']
  else if c == '\t' then ['\\', 't']
  else if c.toNat == 0 then ['\\', '0']
  else if isCombining c || isUnprintable c then escapeByNumber c
  else [c]

/-- The text between double quotes, escaped where needed. -/
def quote (s : String) : String :=
  String.ofList ('"' :: (s.toList.flatMap quotedChar ++ ['"']))

end Statute.Text
