set_option autoImplicit false

/-!
# Text: spans of time

A span of whole milliseconds is written in its largest fitting unit: `0ns`,
`5ms`, `1s`, `1.5s`, `60.001s`.
-/

namespace StreamFilter.Text

/-- The three digits of a number below one thousand, without trailing zeros. -/
def thousandths (n : Nat) : String :=
  let digits := [n / 100, n / 10 % 10, n % 10]
  let shown := (digits.reverse.dropWhile (· == 0)).reverse
  String.join (shown.map Nat.repr)

/-- A span of milliseconds in words of one unit. -/
def milliseconds (n : Nat) : String :=
  if n == 0 then "0ns"
  else if n < 1000 then n.repr ++ "ms"
  else if n % 1000 == 0 then (n / 1000).repr ++ "s"
  else (n / 1000).repr ++ "." ++ thousandths (n % 1000) ++ "s"

end StreamFilter.Text
