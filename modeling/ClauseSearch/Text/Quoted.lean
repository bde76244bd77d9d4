import ClauseSearch.Text.Printable

/-! Text between double quotes. A backslash stands before a double quote and before itself, four controls
have an escape of one letter or digit, and every other character without a shape of its own is written
by its number. -/

namespace ClauseSearch.Quoted

def hexDigits (n : Nat) : List Char :=
  if n < 16 then [Nat.digitChar n] else hexDigits (n / 16) ++ [Nat.digitChar (n % 16)]

/-- How a character is written between quotes. -/
def encodeChar (c : Char) : List Char :=
  if c = '\\' ∨ c = '"' then ['\\', c]
  else if c = '\x00' then ['\\', '0']
  else if c = '\t' then ['\\', 't']
  else if c = '\r' then ['\\', 'r']
  else if c = '\n' then ['\\', 'n']
  else if Printable.isPrintable c then [c]
  else "\\u\x7b".toList ++ hexDigits c.toNat ++ "\x7d".toList

/-- Text between double quotes; single quotes stand for themselves. -/
def encode (cs : List Char) : String :=
  String.ofList (['"'] ++ cs.flatMap encodeChar ++ ['"'])

end ClauseSearch.Quoted
