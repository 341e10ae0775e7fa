import EqSat.Text.Printable

/-!
# Quoted text

Messages show a text between quotes: single ones, or double ones if the text holds a
single quote and no double one.  The quote in use and the backslash are escaped, line
ends and tabs are written by name, and what does not print is written by its code.
-/

namespace EqSat.Text

/-- The quote that needs the fewer escapes; the single one if both do. -/
def quoteFor (s : List Char) : Char :=
  if s.contains '\'' && !s.contains '"' then '"' else '\''

/-- `n` in lower-case hexadecimal, padded with zeros to `width` digits. -/
def hexPadded (width n : Nat) : List Char :=
  let digits := Nat.toDigits 16 n
  List.replicate (width - digits.length) '0' ++ digits

/-- An escape by code: two digits, else four, else eight. -/
def escapeCode (n : Nat) : List Char :=
  if n < 0x100 then ['\\', 'x'] ++ hexPadded 2 n
  else if n < 0x10000 then ['\\', 'u'] ++ hexPadded 4 n
  else ['\\', 'U'] ++ hexPadded 8 n

/-- One character between quotes of the kind `quote`. -/
def escapeChar (quote c : Char) : List Char :=
  if c == quote || c == '\\' then ['\\', c]
  else if c == '\n' then ['\\', 'n']
  else if c == '\r' then ['\\', 'r']
  else if c == '\t' then ['\\', 't']
  else if isPrintable c then [c]
  else escapeCode c.toNat

def quotedChars (s : List Char) : List Char :=
  let quote := quoteFor s
  quote :: s.flatMap (escapeChar quote) ++ [quote]

/-- The text between quotes, on one line and with every character visible. -/
def quoted (s : String) : String := String.ofList (quotedChars s.toList)

end EqSat.Text
