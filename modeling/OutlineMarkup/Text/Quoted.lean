import OutlineMarkup.Text

/-!
# Quoted text

The written form of a text: single quotes, or double quotes where only single ones occur inside;
backslash, the quote, line feed, carriage return and tab escaped by letter, and every other
character outside printable ASCII by its two-digit code.
-/

namespace OutlineMarkup

namespace Text

def hexEscape (c : Char) : Text :=
  '\\' :: 'x' :: padLeft (Nat.toDigits 16 c.toNat) 2 '0'

def escapeChar (quote c : Char) : Text :=
  if c == quote || c == '\\' then ['\\', c]
  else if c == '\n' then ['\\', 'n']
  else if c == '\r' then ['\\', 'r']
  else if c == '\t' then ['\\', 't']
  else if c.toNat < 0x20 || 0x7f ≤ c.toNat then hexEscape c
  else [c]

/-- Double quotes are chosen only for a text with single quotes and no double ones. -/
def quoteFor (s : Text) : Char :=
  if s.hasChar '\'' && !s.hasChar '"' then '"' else '\''

def quoted (s : Text) : Text :=
  let q := quoteFor s
  q :: s.flatMap (escapeChar q) ++ [q]

end Text
end OutlineMarkup
