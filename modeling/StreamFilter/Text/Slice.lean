import StreamFilter.Text.Blank
set_option autoImplicit false

/-!
# Text: parts between byte offsets

Offsets into a text count bytes.  A part of the text between two offsets exists only if
neither of them lies inside a character (`Text.slice?`); where the text is cut between
characters it does (`Text.slice?_of_append`).  White space at the start of a part is
measured by dropping it (`Text.leadingBlanks`).
-/

namespace StreamFilter.Text

/-- The part of a text between two byte offsets.  There is none if one of the offsets lies
inside a character or behind the end, or if they are in the wrong order. -/
def slice? (text : String) (start stop : Nat) : Option String.Slice := do
  text.slice? (← text.pos? ⟨start⟩) (← text.pos? ⟨stop⟩)

/-- The number of bytes of white space with which a part of a text starts. -/
def leadingBlanks (s : String.Slice) : Nat :=
  s.utf8ByteSize - (s.dropWhile isBlank).utf8ByteSize

/-! ## Bytes and characters -/

theorem byteLength_ofList (cs : List Char) : byteLength cs = (String.ofList cs).utf8ByteSize := by
  induction cs with
  | nil => rfl
  | cons c cs ih =>
    rw [String.ofList_cons, String.utf8ByteSize_append, String.utf8ByteSize_singleton,
      byteLength_cons, ih]

theorem byteLength_toList (s : String) : byteLength s.toList = s.utf8ByteSize := by
  rw [byteLength_ofList, String.ofList_toList]

theorem utf8ByteSize_slice (s : String.Slice) : s.utf8ByteSize = byteLength s.copy.toList := by
  rw [byteLength_toList, String.Slice.utf8ByteSize_copy]

/-! ## Cutting -/

theorem eq_append_of_toList {text : String} {front rest : List Char}
    (h : text.toList = front ++ rest) : text = String.ofList front ++ String.ofList rest := by
  rw [← String.ofList_append, ← h, String.ofList_toList]

/-- A place in front of the rest of a text lies between characters. -/
theorem isValid_byteLength {text : String} {front rest : List Char}
    (h : text.toList = front ++ rest) : String.Pos.Raw.IsValid text ⟨byteLength front⟩ := by
  refine String.Pos.Raw.isValid_iff_exists_append.2 ⟨_, _, eq_append_of_toList h, ?_⟩
  rw [byteLength_ofList]
  rfl

/-- Between characters a text can be cut. -/
theorem pos?_of_append {text : String} {front rest : List Char} (h : text.toList = front ++ rest) :
    ∃ p : text.Pos, text.pos? ⟨byteLength front⟩ = some p ∧
      p.Splits (String.ofList front) (String.ofList rest) := by
  have hvalid := isValid_byteLength h
  have hslice : String.Pos.Raw.isValidForSlice text.toSlice ⟨byteLength front⟩ = true := by
    simpa using hvalid
  refine ⟨text.pos _ hvalid, ?_, eq_append_of_toList h, ?_⟩
  · rw [String.pos?, String.Slice.pos?, dif_pos hslice]
    rfl
  · exact congrArg String.Pos.Raw.mk (byteLength_ofList front)

/-- The part of a text between two places between characters. -/
theorem slice?_of_append {text : String} {front part rest : List Char}
    (h : text.toList = front ++ (part ++ rest)) :
    ∃ s, slice? text (byteLength front) (byteLength front + byteLength part) = some s ∧
      s.copy.toList = part := by
  obtain ⟨p, hp, hstart⟩ := pos?_of_append h
  obtain ⟨q, hq, hstop⟩ := pos?_of_append (h.trans (List.append_assoc ..).symm)
  rw [String.ofList_append] at hstart hstop
  obtain ⟨hle, hcopy⟩ := String.copy_slice_eq_iff_splits.2 ⟨_, _, hstart, hstop⟩
  refine ⟨text.slice p q hle, ?_, by rw [hcopy, String.toList_ofList]⟩
  rw [slice?, ← byteLength_append, hp, hq]
  exact dif_pos hle

theorem slice?_to_end {text : String} {front rest : List Char} (h : text.toList = front ++ rest) :
    ∃ s, slice? text (byteLength front) text.utf8ByteSize = some s ∧ s.copy.toList = rest := by
  have hsize : text.utf8ByteSize = byteLength front + byteLength rest := by
    rw [← byteLength_toList, h, byteLength_append]
  have hcut : text.toList = front ++ (rest ++ []) := by rw [List.append_nil, h]
  rw [hsize]
  exact slice?_of_append hcut

/-! ## Runs of characters -/

/-- Where a run of characters ends. -/
theorem takeWhile_append_of_head? {p : Char → Bool} {front rest : List Char}
    (hfront : front.all p = true) (hrest : rest.head?.any p = false) :
    (front ++ rest).takeWhile p = front ∧ (front ++ rest).dropWhile p = rest := by
  have hall : ∀ c ∈ front, p c = true := List.all_eq_true.1 hfront
  rw [List.takeWhile_append_of_pos hall, List.dropWhile_append_of_pos hall]
  cases rest with
  | nil => simp
  | cons c cs =>
    have hc : p c = false := hrest
    simp [hc]

theorem toList_takeWhile_dropWhile (p : Char → Bool) (s : String.Slice) :
    (s.takeWhile p).copy.toList = s.copy.toList.takeWhile p ∧
      (s.dropWhile p).copy.toList = s.copy.toList.dropWhile p := by
  have hfront : (s.takeWhile p).copy.toList.all p = true := by
    rw [← String.Slice.all_bool_eq, String.Slice.all_takeWhile]
  have hrest : (s.dropWhile p).copy.toList.head?.any p = false := by
    rw [← String.Slice.startsWith_bool_eq_head?, String.Slice.startsWith_dropWhile]
  have hcut := takeWhile_append_of_head? hfront hrest
  rw [← String.toList_append, String.Slice.takeWhile_append_dropWhile] at hcut
  exact ⟨hcut.1.symm, hcut.2.symm⟩

@[simp] theorem toList_takeWhile (p : Char → Bool) (s : String.Slice) :
    (s.takeWhile p).copy.toList = s.copy.toList.takeWhile p :=
  (toList_takeWhile_dropWhile p s).1

@[simp] theorem toList_dropWhile (p : Char → Bool) (s : String.Slice) :
    (s.dropWhile p).copy.toList = s.copy.toList.dropWhile p :=
  (toList_takeWhile_dropWhile p s).2

theorem leadingBlanks_eq (s : String.Slice) :
    leadingBlanks s = byteLength (s.copy.toList.takeWhile isBlank) := by
  have hcut := congrArg byteLength
    (List.takeWhile_append_dropWhile (p := isBlank) (l := s.copy.toList))
  rw [byteLength_append] at hcut
  rw [leadingBlanks, utf8ByteSize_slice, utf8ByteSize_slice, toList_dropWhile]
  omega

end StreamFilter.Text
