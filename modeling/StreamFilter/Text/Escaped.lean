import StreamFilter.Text.Hidden
set_option autoImplicit false

/-!
# Text in messages

A text inside a message stands between double quotes, with escapes for quotes,
backslashes and for characters that cannot be seen by themselves.
-/

namespace StreamFilter.Text

/-- The characters that stand for one character in a message. -/
def escapeChar (c : Char) : List Char :=
  if c = '"' then ['\\', '"']
  else if c = '\\' then ['\\', '\\']
  else if c = '\n' then ['\\', 'n']
  else if c = '\r' then ['\\', 'r']
  else if c = '\t' then ['\\', 't']
  else if c.toNat = 0 then ['\\', '0']
  else if isHidden c then ['\\', 'u', '\x7b'] ++ Nat.toDigits 16 c.toNat ++ ['\x7d']
  else [c]

/-- A text as it stands in a message. -/
def escaped (text : String) : String :=
  String.ofList ('"' :: (text.toList.flatMap escapeChar ++ ['"']))

end StreamFilter.Text
