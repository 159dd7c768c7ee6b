/-
Texts between double quotes, as the dump of a term shows them.

Double quotes, backslashes and the common control characters have short
escapes; any other character that has no visible form of its own is
written as a backslash, the letter u and its number in hexadecimal between
braces.
-/
import LogicMachine.Text.Visibility

namespace LogicMachine.Text.Escape

/-- The number of a character in hexadecimal between braces. -/
def unicode (c : Char) : List Char :=
  ['\\', 'u', '\x7b'] ++ Nat.toDigits 16 c.toNat ++ ['\x7d']

/-- One character of the text. -/
def char (c : Char) : List Char :=
  match c with
  | '"' => ['\\', '"']
  | '\\' => ['\\', '\\']
  | '\t' => ['\\', 't']
  | '\r' => ['\\', 'r']
  | '\n' => ['\\', 'n']
  | '\x00' => ['\\', '0']
  | c => if Visibility.isVisible c then [c] else unicode c

/-- A text between double quotes. -/
def quote (text : String) : String :=
  String.ofList ('"' :: text.toList.flatMap char ++ ['"'])

end LogicMachine.Text.Escape
