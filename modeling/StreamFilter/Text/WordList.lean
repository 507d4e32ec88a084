set_option autoImplicit false

/-!
# Text: comma separated word lists

The argument of a list condition holds words between commas.  A comma with a
backslash directly before it belongs to its word, so `a\,b,c` holds the two
words `a,b` and `c`.  A word is *encoded* while its commas still carry their
backslashes.

Only the character before a comma decides: a backslash is not itself escaped,
so a word that ends in a backslash cannot stand before another word.
-/

namespace StreamFilter.Text.WordList

/-- Puts a character in front of the first word. -/
def consHead (c : Char) : List (List Char) → List (List Char)
  | [] => [[c]]
  | w :: ws => (c :: w) :: ws

/-- Cuts at each comma that no backslash precedes.  The flag tells whether the
character before the text is a backslash.  Words stay encoded, and there is
always at least one. -/
def cut : Bool → List Char → List (List Char)
  | _, [] => [[]]
  | afterBackslash, c :: cs =>
    if c = ',' ∧ afterBackslash = false then [] :: cut false cs
    else consHead c (cut (c == '\\') cs)

/-- Takes the backslash away from each escaped comma. -/
def decodeChars : List Char → List Char
  | [] => []
  | [c] => [c]
  | c :: d :: cs =>
    if c = '\\' ∧ d = ',' then ',' :: decodeChars cs else c :: decodeChars (d :: cs)

/-- Puts a backslash before each comma. -/
def encodeChars : List Char → List Char
  | [] => []
  | c :: cs => if c = ',' then '\\' :: ',' :: encodeChars cs else c :: encodeChars cs

/-- The encoded words of a list text. -/
def encodedWords (list : String) : List String :=
  (cut false list.toList).map String.ofList

/-- The word that an encoded word stands for. -/
def decode (word : String) : String := String.ofList (decodeChars word.toList)

/-- The encoded form of a word. -/
def encode (word : String) : String := String.ofList (encodeChars word.toList)

/-- The words of a list text. -/
def words (list : String) : List String := (encodedWords list).map decode

/-- The list text of encoded words. -/
def join (encoded : List String) : String := ",".intercalate encoded

/-- The list text of words. -/
def ofWords (ws : List String) : String := join (ws.map encode)

theorem consHead_ne_nil (c : Char) (ws : List (List Char)) : consHead c ws ≠ [] := by
  cases ws <;> simp [consHead]

theorem cut_ne_nil (afterBackslash : Bool) (cs : List Char) : cut afterBackslash cs ≠ [] := by
  cases cs with
  | nil => simp [cut]
  | cons c cs =>
    unfold cut
    split
    · simp
    · exact consHead_ne_nil _ _

end StreamFilter.Text.WordList
