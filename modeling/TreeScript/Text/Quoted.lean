import TreeScript.Text.Printable

/-!
# Quoted text

Two ways to write a text between double quotes.  `Quoted.json` is how strings appear inside rendered
lists and maps: it escapes the quote, the backslash and the control characters.  `Quoted.shown` is
how a text appears in diagnostics: it escapes every character that would not be seen.
-/

namespace TreeScript.Quoted

/-- A hexadecimal digit in lower case. -/
def hexDigit (n : Nat) : Char := Nat.digitChar n

/-- A natural number in hexadecimal. -/
def hex (n : Nat) : List Char := Nat.toDigits 16 n

/-- How a character is written in quoted text: two characters for those with a short escape, six for
the other control characters, else itself. -/
def jsonChar (c : Char) : List Char :=
  if c = '\x22' then ['\\', '\x22']
  else if c = '\\' then ['\\', '\\']
  else if c = '\n' then ['\\', 'n']
  else if c = '\r' then ['\\', 'r']
  else if c = '\t' then ['\\', 't']
  else if c.toNat < 0x20 then
    ['\\', 'u', '0', '0', hexDigit (c.toNat / 16), hexDigit (c.toNat % 16)]
  else [c]

/-- The quoted form of a text. -/
def json (s : String) : String :=
  String.ofList ('\x22' :: s.toList.flatMap jsonChar ++ ['\x22'])

/-- How a character is written in a diagnostic. -/
def shownChar (c : Char) : List Char :=
  if c = '\x00' then ['\\', '0']
  else if c = '\t' then ['\\', 't']
  else if c = '\r' then ['\\', 'r']
  else if c = '\n' then ['\\', 'n']
  else if c = '\x22' then ['\\', '\x22']
  else if c = '\\' then ['\\', '\\']
  else if Printable.isPrintable c then [c]
  else ['\\', 'u', '\x7b'] ++ hex c.toNat ++ ['\x7d']

/-- The form of a text in a diagnostic. -/
def shown (s : String) : String :=
  String.ofList ('\x22' :: s.toList.flatMap shownChar ++ ['\x22'])

end TreeScript.Quoted
