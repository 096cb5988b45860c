import CallChain.Text.Unprintable

/-!
# Quoted text

`quoted s` shows a text between double quotes on one line. The double quote and the backslash are
escaped by a backslash, line feed, carriage return, tabulator and NUL by `\n`, `\r`, `\t` and `\0`,
and every other character without a picture of its own by `\u` and its code point in lower-case
hexadecimal digits between braces. All other characters stand for themselves.
-/

namespace CallChain.Text

/-- A code point in lower-case hexadecimal digits without leading zeros. -/
def hexDigits (n : Nat) : List Char := Nat.toDigits 16 n

/-- A character as it stands between double quotes. -/
def quotedChar (c : Char) : List Char :=
  if c = '"' then ['\\', '"']
  else if c = '\\' then ['\\', '\\']
  else if c = '\n' then ['\\', 'n']
  else if c = '\r' then ['\\', 'r']
  else if c = '\t' then ['\\', 't']
  else if c.toNat = 0 then ['\\', '0']
  else if isUnprintable c then ['\\', 'u', '\x7b'] ++ hexDigits c.toNat ++ ['\x7d']
  else [c]

def quoted (s : String) : String :=
  String.ofList ('"' :: s.toList.flatMap quotedChar ++ ['"'])

end CallChain.Text
