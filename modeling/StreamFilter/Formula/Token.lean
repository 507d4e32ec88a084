import StreamFilter.Text.Blank
set_option autoImplicit false

/-!
# The tokens of formula text

Formula text consists of names, parentheses and commas, with spaces, tabs and
line ends between them.  Those four characters are all white space
(`isBlank_of_isSeparator`), but not all white space is one of them, and no token starts
with white space of any kind (`isBlank_of_startsToken`).
-/

namespace StreamFilter.Formula

/-- A token of formula text. -/
inductive Token where
  | name (text : String)
  | opening
  | closing
  | comma
  deriving DecidableEq, Repr, Inhabited

/-- A token, or nothing for the end of the text, in the words of messages. -/
def Token.describe : Option Token → String
  | some (name text) => "Ident(\"" ++ text ++ "\")"
  | some opening => "LParen"
  | some closing => "RParen"
  | some comma => "Comma"
  | none => "Eof"

/-- A token and the byte offset at which it stands. -/
structure Lexeme where
  token : Token
  offset : Nat
  deriving DecidableEq, Repr, Inhabited

/-- The tokens of a text, and the length of the text in bytes. -/
structure Scanned where
  lexemes : List Lexeme
  stop : Nat
  deriving DecidableEq, Repr, Inhabited

/-- A place at which no token starts, and the text from there on. -/
structure ScanFault where
  offset : Nat
  rest : List Char
  deriving DecidableEq, Repr, Inhabited

/-- Up to sixteen characters of the text that is no token. -/
def ScanFault.detail (e : ScanFault) : String :=
  "unexpected input '" ++ String.ofList (e.rest.take 16) ++ "'"

/-- The characters that may stand between tokens. -/
def isSeparator (c : Char) : Bool := c == ' ' || c == '\t' || c == '\r' || c == '\n'

/-- The characters with which a name starts. -/
def isNameStart (c : Char) : Bool :=
  ('a' ≤ c && c ≤ 'z') || ('A' ≤ c && c ≤ 'Z') || c == '_'

/-- The characters of which a name consists. -/
def isNameChar (c : Char) : Bool := isNameStart c || ('0' ≤ c && c ≤ '9')

/-- Whether a text consists of the characters of a name. -/
def isName (name : String) : Bool :=
  match name.toList with
  | [] => false
  | c :: cs => isNameStart c && cs.all isNameChar

/-- A rest that does not go on with a name. -/
def Ends (rest : List Char) : Prop := ∀ c ∈ rest.head?, isNameChar c = false

/-- The characters that spell a token. -/
def Token.chars : Token → List Char
  | name text => text.toList
  | opening => ['(']
  | closing => [')']
  | comma => [',']

/-- Whether a token ends in front of what follows: a name cannot be extended. -/
def Token.Whole (after : List Char) : Token → Prop
  | name text => isName text = true ∧ Ends after
  | _ => True

/-- The characters with which a token starts. -/
def startsToken (c : Char) : Bool := c == '(' || c == ')' || c == ',' || isNameStart c

/-! ## Characters -/

theorem utf8Size_of_isSeparator {c : Char} (h : isSeparator c = true) : c.utf8Size = 1 := by
  simp only [isSeparator, Bool.or_eq_true, beq_iff_eq] at h
  rcases h with ((rfl | rfl) | rfl) | rfl <;> rfl

/-- Every separator is white space. -/
theorem isBlank_of_isSeparator {c : Char} (h : isSeparator c = true) : Text.isBlank c = true := by
  simp only [isSeparator, Bool.or_eq_true, beq_iff_eq] at h
  rcases h with ((rfl | rfl) | rfl) | rfl <;> rfl

theorem toNat_of_isNameChar {c : Char} (h : isNameChar c = true) :
    0x30 ≤ c.toNat ∧ c.toNat ≤ 0x7a := by
  simp only [isNameChar, isNameStart, Bool.or_eq_true, Bool.and_eq_true, decide_eq_true_eq,
    beq_iff_eq, Char.le_def, UInt32.le_iff_toNat_le] at h
  rcases h with ((h | h) | h) | h
  · exact ⟨Nat.le_trans (by decide) h.1, h.2⟩
  · exact ⟨Nat.le_trans (by decide) h.1, Nat.le_trans h.2 (by decide)⟩
  · rw [h]
    decide
  · exact ⟨h.1, Nat.le_trans h.2 (by decide)⟩

theorem isNameChar_of_isNameStart {c : Char} (h : isNameStart c = true) : isNameChar c = true := by
  simp [isNameChar, h]

theorem isBlank_of_isNameChar {c : Char} (h : isNameChar c = true) : Text.isBlank c = false := by
  have hbound := toNat_of_isNameChar h
  simp only [Text.isBlank, Bool.or_eq_false_iff, Bool.and_eq_false_iff, decide_eq_false_iff_not,
    beq_eq_false_iff_ne]
  omega

/-- No token starts with white space. -/
theorem isBlank_of_startsToken {c : Char} (h : startsToken c = true) : Text.isBlank c = false := by
  simp only [startsToken, Bool.or_eq_true, beq_iff_eq] at h
  rcases h with ((rfl | rfl) | rfl) | h
  · decide
  · decide
  · decide
  · exact isBlank_of_isNameChar (isNameChar_of_isNameStart h)

theorem utf8Size_of_isNameChar {c : Char} (h : isNameChar c = true) : c.utf8Size = 1 := by
  have hbound := toNat_of_isNameChar h
  rw [Char.utf8Size, if_pos]
  exact UInt32.le_iff_toNat_le.2 (Nat.le_trans hbound.2 (by decide))

theorem byteLength_of_isNameChar {cs : List Char} (h : ∀ c ∈ cs, isNameChar c = true) :
    Text.byteLength cs = cs.length := by
  induction cs with
  | nil => rfl
  | cons c cs ih =>
    rw [Text.byteLength_cons, utf8Size_of_isNameChar (h c List.mem_cons_self),
      ih fun d hd => h d (List.mem_cons_of_mem c hd), List.length_cons, Nat.add_comm]

/-- A character that starts a name is no other token and no separator. -/
theorem isNameStart_cases {c : Char} (h : isNameStart c = true) :
    isSeparator c = false ∧ c ≠ '(' ∧ c ≠ ')' ∧ c ≠ ',' := by
  refine ⟨?_, ?_, ?_, ?_⟩
  · refine Bool.eq_false_iff.2 fun hsep => ?_
    simp only [isSeparator, Bool.or_eq_true, beq_iff_eq] at hsep
    rcases hsep with ((rfl | rfl) | rfl) | rfl <;> exact absurd h (by decide)
  · rintro rfl
    exact absurd h (by decide)
  · rintro rfl
    exact absurd h (by decide)
  · rintro rfl
    exact absurd h (by decide)

/-! ## Names -/

theorem isName_ofList {c : Char} {cs : List Char} (hc : isNameStart c = true)
    (hcs : ∀ d ∈ cs, isNameChar d = true) : isName (String.ofList (c :: cs)) = true := by
  simpa [isName, hc] using hcs

theorem exists_of_isName {name : String} (h : isName name = true) :
    ∃ c cs, name.toList = c :: cs ∧ isNameStart c = true ∧ ∀ d ∈ cs, isNameChar d = true := by
  rw [isName] at h
  cases hcs : name.toList with
  | nil => simp [hcs] at h
  | cons c cs =>
    rw [hcs, Bool.and_eq_true, List.all_eq_true] at h
    exact ⟨c, cs, rfl, h⟩

theorem isNameChar_of_isName {name : String} (h : isName name = true) :
    ∀ c ∈ name.toList, isNameChar c = true := by
  obtain ⟨c, cs, hcs, hc, hmore⟩ := exists_of_isName h
  rw [hcs]
  intro d hd
  rcases List.mem_cons.1 hd with rfl | hd
  · exact isNameChar_of_isNameStart hc
  · exact hmore d hd

theorem ends_dropWhile (cs : List Char) : Ends (cs.dropWhile isNameChar) := by
  intro c hc
  have hstop := List.head?_dropWhile_not isNameChar cs
  rw [Option.mem_def.1 hc] at hstop
  exact hstop

/-- A name at the front of a text ends in front of the first character that is not one of a
name. -/
theorem whole_takeWhile {c : Char} (hc : isNameStart c = true) (cs : List Char) :
    (Token.name (String.ofList (c :: cs.takeWhile isNameChar))).Whole (cs.dropWhile isNameChar) :=
  ⟨isName_ofList hc (List.all_eq_true.1 List.all_takeWhile), ends_dropWhile cs⟩

theorem Token.Whole.startsToken {t : Token} {after : List Char} (h : t.Whole after) :
    ∃ c cs, t.chars = c :: cs ∧ startsToken c = true := by
  cases t with
  | name text =>
    obtain ⟨c, cs, hcs, hc, -⟩ := exists_of_isName h.1
    exact ⟨c, cs, hcs, by simp [Formula.startsToken, hc]⟩
  | opening | closing | comma => exact ⟨_, [], rfl, by decide⟩

end StreamFilter.Formula
