set_option autoImplicit false

/-!
# Text: quoted arguments

An argument is written between double quotes.  A double quote inside it gets a
backslash in front; a backslash is written as it is.
-/

namespace StreamFilter.Text

/-- The characters of an argument with a backslash before each double quote. -/
def escapeQuotes : List Char → List Char
  | [] => []
  | c :: cs => if c = '"' then '\\' :: '"' :: escapeQuotes cs else c :: escapeQuotes cs

/-- An argument between double quotes. -/
def quoteChars (cs : List Char) : List Char := '"' :: (escapeQuotes cs ++ ['"'])

/-- A string argument between double quotes. -/
def quote (s : String) : String := String.ofList (quoteChars s.toList)

@[simp] theorem toList_quote (s : String) : (quote s).toList = quoteChars s.toList := by
  simp [quote]

end StreamFilter.Text
