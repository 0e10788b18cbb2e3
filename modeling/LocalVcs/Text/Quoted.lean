/-
# Quoted text

How names and paths stand in messages: between double quotes, with escapes for what would not show.

This is the form that paths have in a `Refusal`.
-/
import LocalVcs.Text.Combining
import LocalVcs.Text.Unprintable

namespace LocalVcs.Text

/-- A character by its number: `\u`, and its hexadecimal digits in braces. -/
def byNumber (c : Char) : List Char := ['\\', 'u', '\x7b'] ++ Nat.toDigits 16 c.toNat ++ ['\x7d']

/-- A character as it stands between the quotes. -/
def escape (c : Char) : List Char :=
  if c = '\x00' then ['\\', '0']
  else if c = '\t' then ['\\', 't']
  else if c = '\r' then ['\\', 'r']
  else if c = '\n' then ['\\', 'n']
  else if c = '\\' ∨ c = '"' then ['\\', c]
  else if isCombining c || !isPrintable c then byNumber c
  else [c]

/-- The text between double quotes. -/
def quote (text : String) : String :=
  String.ofList ('"' :: text.toList.flatMap escape ++ ['"'])

end LocalVcs.Text
