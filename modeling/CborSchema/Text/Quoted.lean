import CborSchema.Text.Hex
import CborSchema.Text.Printable

/-!
# Quoted text

How a text key or literal is shown in a message: in double quotes, with a backslash before a quote
or a backslash, short forms for the commonest controls, and the code point in hexadecimal for
every other character that would not show.
-/

namespace CborSchema.Text

/-- The form of one character between the quotes. -/
def quoteChar (c : Char) : List Char :=
  match c with
  | '"' => ['\\', '"']
  | '\\' => ['\\', '\\']
  | '\n' => ['\\', 'n']
  | '\r' => ['\\', 'r']
  | '\t' => ['\\', 't']
  | '\x00' => ['\\', '0']
  | c =>
    if isJoiningMark c || isIgnorable c || isUnprintable c then
      ['\\', 'u', '{'] ++ Hex.ofNat c.toNat ++ ['}']
    else [c]

/-- A text in double quotes. -/
def quoted (s : String) : String := String.ofList ('"' :: s.toList.flatMap quoteChar ++ ['"'])

end CborSchema.Text
