import StreamFilter.Text.Quoted
set_option autoImplicit false

/-!
# Arguments can be told from the text around them

Only double quotes are escaped.  So the closing quote of an argument that ends in a
backslash looks like an escaped one, and an argument may hold any text of the filter
language.  Still a text is made up of arguments and of characters outside them in one way
only (`Text.spell_injective`), if a blank stands before each argument.

Suppose that two readings of a text part.  This happens at a quote that closes an argument
in one of them and is escaped in the other.  From there on one reading is outside of
arguments where the other is inside: the next opening quote has a blank in front, so in the
other reading it is not escaped and closes the argument, and the two have changed places
(`Text.spell_ne_inside`).  But at the end of the text both are outside.
-/

namespace StreamFilter.Text

/-- A part of a text: a character outside of arguments, or a whole argument. -/
inductive Piece where
  | char (c : Char)
  | argument (text : List Char)
  deriving DecidableEq, Repr, Inhabited

namespace Piece

/-- The characters of a piece. -/
def chars : Piece → List Char
  | char c => [c]
  | argument text => quoteChars text

end Piece

open Piece (char argument)

/-- The text that pieces make up. -/
def spell (ps : List Piece) : List Char := ps.flatMap Piece.chars

@[simp] theorem spell_nil : spell [] = [] := rfl

@[simp] theorem spell_char (c : Char) (ps : List Piece) : spell (char c :: ps) = c :: spell ps :=
  rfl

@[simp] theorem spell_argument (text : List Char) (ps : List Piece) :
    spell (argument text :: ps) = '"' :: (escapeQuotes text ++ '"' :: spell ps) := by
  simp [spell, Piece.chars, quoteChars]

theorem spell_append (ps qs : List Piece) : spell (ps ++ qs) = spell ps ++ spell qs :=
  List.flatMap_append

theorem spell_map_char (cs : List Char) : spell (cs.map char) = cs := by
  induction cs with
  | nil => rfl
  | cons c cs ih => rw [List.map_cons, spell_char, ih]

/-- Quotes stand around arguments only, and a blank before each argument.  The flag tells
whether the pieces follow a blank. -/
def Spaced : Bool → List Piece → Prop
  | _, [] => True
  | _, char c :: ps => c ≠ '"' ∧ Spaced (c == ' ') ps
  | afterBlank, argument _ :: ps => afterBlank = true ∧ Spaced false ps

/-- The text of an argument does not start with a quote: one inside is escaped. -/
theorem eq_nil_of_escapeQuotes {inside text rest : List Char}
    (h : escapeQuotes inside ++ text = '"' :: rest) : inside = [] := by
  cases inside with
  | nil => rfl
  | cons c inside =>
    rw [escapeQuotes] at h
    split at h
    · simp at h
    next hc =>
      rw [List.cons_append, List.cons.injEq] at h
      exact absurd h.1 hc

/-- No text can be read both from outside and from inside an argument. -/
theorem spell_ne_inside : ∀ {b b' : Bool} (ps : List Piece) {qs : List Piece} (inside : List Char),
    Spaced b ps → Spaced b' qs → spell ps ≠ escapeQuotes inside ++ '"' :: spell qs
  | _, _, [], _, inside, _, _ => by simp
  | _, _, char c :: ps, _, [], hps, _ => by
    intro h
    rw [spell_char, escapeQuotes, List.nil_append, List.cons.injEq] at h
    exact hps.1 h.1
  | _, _, char c :: ps, qs, d :: inside, hps, hqs => by
    intro h
    rw [spell_char, escapeQuotes] at h
    split at h
    next =>
      -- A backslash outside is no blank, so the quote after it opens no argument.
      simp only [List.cons_append, List.cons.injEq] at h
      obtain ⟨rfl, h⟩ := h
      match ps, hps.2, h with
      | [], _, h => simp at h
      | char _ :: _, hps, h =>
        rw [spell_char, List.cons.injEq] at h
        exact hps.1 h.1
      | argument _ :: _, hps, _ => exact absurd hps.1 (by decide)
    next =>
      rw [List.cons_append, List.cons.injEq] at h
      exact spell_ne_inside ps inside hps.2 hqs h.2
  | _, _, argument text :: ps, qs, inside, hps, hqs => by
    intro h
    rw [spell_argument] at h
    obtain rfl := eq_nil_of_escapeQuotes h.symm
    rw [escapeQuotes, List.nil_append, List.cons.injEq] at h
    -- The quote opens an argument on one side and closes one on the other.
    have hlen : (spell qs).length < (spell (argument text :: ps)).length := by
      rw [← h.2, spell_argument, List.length_cons]
      omega
    exact spell_ne_inside qs text hqs hps.2 h.2.symm
termination_by _ _ ps => (spell ps).length
decreasing_by
  · rw [spell_char, List.length_cons]
    omega
  · exact hlen

variable {b b' : Bool} {ps qs : List Piece}

/-- A quote that is escaped in one reading closes no argument in another. -/
theorem escaped_ne_closing (hps : Spaced b ps) (hqs : Spaced b' qs) (s t : List Char) :
    '"' :: (escapeQuotes s ++ '"' :: spell ps) ≠ escapeQuotes t ++ '"' :: spell qs := by
  intro h
  obtain rfl := eq_nil_of_escapeQuotes h.symm
  rw [escapeQuotes, List.nil_append, List.cons.injEq] at h
  exact spell_ne_inside qs s hqs hps h.2.symm

/-- An argument ends at the same place in two readings. -/
theorem argument_inj (hps : Spaced b ps) (hqs : Spaced b' qs) : ∀ {s t : List Char},
    escapeQuotes s ++ '"' :: spell ps = escapeQuotes t ++ '"' :: spell qs →
      s = t ∧ spell ps = spell qs
  | [], t, h => by
    obtain rfl := eq_nil_of_escapeQuotes h.symm
    exact ⟨rfl, by simpa using h⟩
  | c :: s, [], h => by
    cases eq_nil_of_escapeQuotes h
  | c :: s, d :: t, h => by
    rw [escapeQuotes, escapeQuotes] at h
    split at h
    next hc =>
      split at h
      next hd =>
        simp only [List.cons_append, List.cons.injEq, true_and] at h
        obtain ⟨rfl, htexts⟩ := argument_inj hps hqs h
        exact ⟨by rw [hc, hd], htexts⟩
      next =>
        rw [List.cons_append, List.cons_append, List.cons_append, List.cons.injEq] at h
        exact absurd h.2 (escaped_ne_closing hps hqs s t)
    next =>
      split at h
      next =>
        rw [List.cons_append, List.cons_append, List.cons_append, List.cons.injEq] at h
        exact absurd h.2.symm (escaped_ne_closing hqs hps t s)
      next =>
        rw [List.cons_append, List.cons_append, List.cons.injEq] at h
        obtain ⟨rfl, htexts⟩ := argument_inj hps hqs h.2
        exact ⟨by rw [h.1], htexts⟩

/-- A text is made up of pieces in one way only. -/
theorem spell_injective : ∀ {b b' : Bool} {ps qs : List Piece}, Spaced b ps → Spaced b' qs →
    spell ps = spell qs → ps = qs
  | _, _, [], [], _, _, _ => rfl
  | _, _, [], char _ :: _, _, _, h | _, _, [], argument _ :: _, _, _, h
  | _, _, char _ :: _, [], _, _, h | _, _, argument _ :: _, [], _, _, h => by simp at h
  | _, _, char c :: ps, char d :: qs, hps, hqs, h => by
    rw [spell_char, spell_char, List.cons.injEq] at h
    rw [h.1, spell_injective hps.2 hqs.2 h.2]
  | _, _, char c :: ps, argument _ :: _, hps, _, h => by
    rw [spell_char, spell_argument, List.cons.injEq] at h
    exact absurd h.1 hps.1
  | _, _, argument _ :: _, char d :: qs, _, hqs, h => by
    rw [spell_char, spell_argument, List.cons.injEq] at h
    exact absurd h.1.symm hqs.1
  | _, _, argument s :: ps, argument t :: qs, hps, hqs, h => by
    rw [spell_argument, spell_argument, List.cons.injEq] at h
    obtain ⟨rfl, htexts⟩ := argument_inj hps.2 hqs.2 h.2
    rw [spell_injective hps.2 hqs.2 htexts]

/-! ## An argument at the end of any text -/

/-- No quote of an escaped text follows a blank: a backslash stands before each of them. -/
theorem blank_quote_not_infix_escapeQuotes (s : List Char) : ¬ [' ', '"'] <:+: escapeQuotes s := by
  induction s with
  | nil => simp [escapeQuotes]
  | cons c s ih =>
    rw [escapeQuotes]
    split
    · simp [List.infix_cons_iff, ih]
    · rw [List.infix_cons_iff, List.cons_prefix_cons]
      rintro (⟨-, rest, hrest⟩ | h)
      · obtain rfl : s = [] := eq_nil_of_escapeQuotes (by rw [List.append_nil, ← hrest]; rfl)
        simp [escapeQuotes] at hrest
      · exact ih h

/-- After a blank and the quote that opens an argument no other argument is opened. -/
theorem eq_nil_of_opening {s t : List Char} : ∀ {cs : List Char},
    ' ' :: quoteChars s = cs ++ ' ' :: quoteChars t → cs = []
  | [], _ => rfl
  | [c], h => by simp [quoteChars] at h
  | c :: d :: cs, h => by
    simp only [quoteChars, List.cons_append, List.cons.injEq] at h
    have hinside : escapeQuotes s = cs ++ ' ' :: '"' :: escapeQuotes t := by
      rw [← List.append_left_inj ['"']]
      simpa using h.2.2
    exact absurd ⟨cs, escapeQuotes t, by simp [hinside]⟩ (blank_quote_not_infix_escapeQuotes s)

/-- An argument at the end of a text is told from what stands before it, even if that holds
quotes. -/
theorem append_quoteChars_inj {cs ds s t : List Char}
    (h : cs ++ ' ' :: quoteChars s = ds ++ ' ' :: quoteChars t) : cs = ds ∧ s = t := by
  have hinj : ' ' :: quoteChars s = ' ' :: quoteChars t → s = t := by
    intro heq
    simp only [quoteChars, List.cons.injEq, true_and] at heq
    exact (@argument_inj false false [] [] trivial trivial s t heq).1
  obtain ⟨more, hds, hs⟩ | ⟨more, hcs, ht⟩ := List.append_eq_append_iff.1 h
  · obtain rfl := eq_nil_of_opening hs
    exact ⟨by rw [hds, List.append_nil], hinj hs⟩
  · obtain rfl := eq_nil_of_opening ht
    exact ⟨by rw [hcs, List.append_nil], hinj ht.symm⟩

end StreamFilter.Text
