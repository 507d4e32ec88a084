import StreamFilter.Formula.Scan
set_option autoImplicit false

/-!
# Where the tokens of formula text stand

Scanning always has a result and loses nothing: the tokens stand in the text at their byte
offsets, one behind the other, and what lies between them is separators (`Formula.Laid`).
Where scanning stops, all that was read is laid out in this way, and the next character is
no separator and starts no token.  The fault is placed behind the white space that is found
there, which may be characters of several bytes, but never inside a character
(`Formula.tokenize_located`).
-/

namespace StreamFilter.Formula

open Text (byteLength byteLength_append byteLength_cons)

/-! ## The layout of a text -/

/-- How characters that start at a byte offset and stand in front of others are made up of
tokens and separators. -/
structure Laid (offset : Nat) (cs after : List Char) (ts : List Lexeme) : Prop where
  /-- Each token ends before the next one starts. -/
  apart : ts.Pairwise fun t u => t.offset + byteLength t.token.chars ≤ u.offset
  /-- The text of each token stands at its offset, and a name ends where it has to. -/
  stands : ∀ t ∈ ts, ∃ before rest, cs = before ++ (t.token.chars ++ rest) ∧
    t.offset = offset + byteLength before ∧ t.token.Whole (rest ++ after)
  /-- A character outside the tokens is a separator. -/
  between : ∀ before c rest, cs = before ++ c :: rest → isSeparator c = true ∨
    ∃ t ∈ ts, t.offset ≤ offset + byteLength before ∧
      offset + byteLength before < t.offset + byteLength t.token.chars

variable {offset : Nat} {cs after : List Char} {ts : List Lexeme}

theorem laid_nil (offset : Nat) (after : List Char) : Laid offset [] after [] := by
  refine ⟨.nil, by simp, ?_⟩
  intro before c rest h
  simp at h

theorem Laid.separator {c : Char} (hc : isSeparator c = true) (h : Laid (offset + 1) cs after ts) :
    Laid offset (c :: cs) after ts := by
  have hsize := utf8Size_of_isSeparator hc
  refine ⟨h.apart, ?_, ?_⟩
  · intro t ht
    obtain ⟨before, rest, rfl, hoffset, hwhole⟩ := h.stands t ht
    refine ⟨c :: before, rest, rfl, ?_, hwhole⟩
    rw [hoffset, byteLength_cons, hsize, Nat.add_assoc]
  · intro before d rest hcs
    cases before with
    | nil =>
      obtain ⟨rfl, rfl⟩ := List.cons.inj hcs
      exact .inl hc
    | cons b before =>
      obtain ⟨rfl, htail⟩ := List.cons.inj hcs
      have hplace : offset + byteLength (c :: before) = offset + 1 + byteLength before := by
        rw [byteLength_cons, hsize, Nat.add_assoc]
      rw [hplace]
      exact h.between before d rest htail

theorem Laid.token {t : Token} (ht : t.Whole (cs ++ after))
    (h : Laid (offset + byteLength t.chars) cs after ts) :
    Laid offset (t.chars ++ cs) after (⟨t, offset⟩ :: ts) := by
  refine ⟨List.pairwise_cons.2 ⟨?_, h.apart⟩, ?_, ?_⟩
  · intro u hu
    obtain ⟨before, rest, -, hoffset, -⟩ := h.stands u hu
    dsimp only
    omega
  · intro u hu
    rcases List.mem_cons.1 hu with rfl | hu
    · exact ⟨[], cs, rfl, rfl, ht⟩
    · obtain ⟨before, rest, rfl, hoffset, hwhole⟩ := h.stands u hu
      refine ⟨t.chars ++ before, rest, by rw [List.append_assoc], ?_, hwhole⟩
      rw [hoffset, byteLength_append, Nat.add_assoc]
  · intro before c rest hcs
    by_cases hinside : byteLength before < byteLength t.chars
    · refine .inr ⟨⟨t, offset⟩, List.mem_cons_self, Nat.le_add_right _ _, ?_⟩
      exact Nat.add_lt_add_left hinside offset
    · -- the character stands behind the token, so the rest of the layout tells of it
      obtain ⟨between, rfl, hrest⟩ : ∃ between, before = t.chars ++ between ∧
          cs = between ++ c :: rest := by
        rcases List.append_eq_append_iff.1 hcs with hbehind | ⟨more, hchars, hrest⟩
        · exact hbehind
        · cases more with
          | nil => exact ⟨[], by simpa using hchars.symm, by simpa using hrest.symm⟩
          | cons d more =>
            rw [hchars, byteLength_append, byteLength_cons] at hinside
            have hpositive := d.utf8Size_pos
            omega
      rw [byteLength_append, ← Nat.add_assoc]
      refine (h.between between c rest hrest).imp_right ?_
      rintro ⟨u, hu, hplace⟩
      exact ⟨u, List.mem_cons_of_mem _ hu, hplace⟩

/-- The offsets of the tokens ascend up to the end. -/
theorem Laid.ascending (h : Laid offset cs after ts) :
    (ts.map (·.offset) ++ [offset + byteLength cs]).Pairwise (· < ·) := by
  refine List.pairwise_append.2 ⟨?_, List.pairwise_singleton _ _, ?_⟩
  · refine List.pairwise_map.2 (h.apart.imp_of_mem fun {t u} ht _ hapart => ?_)
    obtain ⟨_, _, _, _, hwhole⟩ := h.stands t ht
    have hpositive := hwhole.byteLength_pos
    omega
  · intro place hplace stop hstop
    obtain ⟨t, ht, rfl⟩ := List.mem_map.1 hplace
    obtain ⟨before, rest, rfl, hoffset, hwhole⟩ := h.stands t ht
    have hpositive := hwhole.byteLength_pos
    rw [List.mem_singleton.1 hstop, byteLength_append, byteLength_append]
    omega

/-! ## Scanning -/

/-- What the result of scanning characters from a byte offset on says about them. -/
def Located (offset : Nat) (cs : List Char) : Except ScanFault Scanned → Prop
  | .ok s => s.stop = offset + byteLength cs ∧ Laid offset cs [] s.lexemes
  | .error e => ∃ ts read c rest, cs = read ++ c :: rest ∧ Laid offset read (c :: rest) ts ∧
      isSeparator c = false ∧ startsToken c = false ∧
      e.offset = offset + byteLength (read ++ (c :: rest).takeWhile Text.isBlank) ∧
      e.rest = (c :: rest).dropWhile Text.isBlank

theorem Located.separator {c : Char} (hc : isSeparator c = true)
    {result : Except ScanFault Scanned} (h : Located (offset + 1) cs result) :
    Located offset (c :: cs) result := by
  have hsize := utf8Size_of_isSeparator hc
  cases result with
  | ok s =>
    refine ⟨?_, h.2.separator hc⟩
    rw [h.1, byteLength_cons, hsize, Nat.add_assoc]
  | error e =>
    obtain ⟨ts, read, d, rest, rfl, hlaid, hsep, hstart, hoffset, hrest⟩ := h
    refine ⟨ts, c :: read, d, rest, rfl, hlaid.separator hc, hsep, hstart, ?_, hrest⟩
    rw [hoffset, List.cons_append, byteLength_cons, hsize, Nat.add_assoc]

theorem Located.token {t : Token} (ht : t.Whole cs) {result : Except ScanFault Scanned}
    (h : Located (offset + byteLength t.chars) cs result) :
    Located offset (t.chars ++ cs) (result.map (·.cons t offset)) := by
  cases result with
  | ok s =>
    refine ⟨?_, Laid.token (by rwa [List.append_nil]) h.2⟩
    rw [byteLength_append, ← Nat.add_assoc]
    exact h.1
  | error e =>
    obtain ⟨ts, read, d, rest, rfl, hlaid, hsep, hstart, hoffset, hrest⟩ := h
    refine ⟨⟨t, offset⟩ :: ts, t.chars ++ read, d, rest, by rw [List.append_assoc], hlaid.token ht,
      hsep, hstart, ?_, hrest⟩
    rw [hoffset, List.append_assoc, byteLength_append t.chars, Nat.add_assoc]

/-- A name takes as many bytes as it has characters. -/
theorem Located.name {c : Char} (hc : isNameStart c = true) {result : Except ScanFault Scanned}
    (h : Located (offset + (c :: cs.takeWhile isNameChar).length) (cs.dropWhile isNameChar)
      result) :
    Located offset (c :: cs)
      (result.map (·.cons (.name (String.ofList (c :: cs.takeWhile isNameChar))) offset)) := by
  have hwhole := whole_takeWhile hc cs
  have hchars : (Token.name (String.ofList (c :: cs.takeWhile isNameChar))).chars =
      c :: cs.takeWhile isNameChar := String.toList_ofList
  have hlength := byteLength_of_isNameChar (isNameChar_of_isName hwhole.1)
  rw [String.toList_ofList] at hlength
  rw [← hlength, ← hchars] at h
  have hlocated := h.token hwhole
  rwa [hchars, List.cons_append, List.takeWhile_append_dropWhile] at hlocated

/-- Scanning tells where each token stands, or where no token starts. -/
theorem located_scanFrom (offset : Nat) (cs : List Char) :
    Located offset cs (scanFrom offset cs) := by
  fun_induction scanFrom offset cs with
  | case1 offset => exact ⟨rfl, laid_nil offset []⟩
  | case2 offset c cs hsep ih => exact ih.separator hsep
  | case3 offset cs _ ih => exact Located.token (t := .opening) trivial ih
  | case4 offset cs _ _ ih => exact Located.token (t := .closing) trivial ih
  | case5 offset cs _ _ _ ih => exact Located.token (t := .comma) trivial ih
  | case6 offset c cs _ _ _ _ hstart name =>
    rename_i ih
    exact ih.name hstart
  | case7 offset c cs hsep hopen hclose hcomma hstart =>
    refine ⟨[], [], c, cs, rfl, laid_nil offset _, by simpa using hsep, ?_, rfl, rfl⟩
    simp [startsToken, hopen, hclose, hcomma, hstart]

/-- Scanning a text has a result, loses nothing, and places a fault where the text goes
wrong. -/
theorem tokenize_located (text : String) :
    ∃ result, tokenize text = some result ∧ scan text = result ∧
      match result with
      | .ok s => s.stop = text.utf8ByteSize ∧
          (s.lexemes.map (·.offset) ++ [s.stop]).Pairwise (· < ·) ∧
          Laid 0 text.toList [] s.lexemes
      | .error e => String.Pos.Raw.IsValid text ⟨e.offset⟩ ∧
          ∃ ts read c rest, text.toList = read ++ c :: rest ∧ Laid 0 read (c :: rest) ts ∧
            isSeparator c = false ∧ startsToken c = false ∧
            e.offset = byteLength read + byteLength ((c :: rest).takeWhile Text.isBlank) ∧
            e.rest = (c :: rest).dropWhile Text.isBlank := by
  refine ⟨scan text, tokenize_eq_scan text, rfl, ?_⟩
  have h := located_scanFrom 0 text.toList
  rw [← scan_eq] at h
  cases hscan : scan text with
  | ok s =>
    rw [hscan] at h
    obtain ⟨hstop, hlaid⟩ := h
    refine ⟨?_, ?_, hlaid⟩
    · rw [hstop, Nat.zero_add, Text.byteLength_toList]
    · rw [hstop]
      exact hlaid.ascending
  | error e =>
    rw [hscan] at h
    obtain ⟨ts, read, c, rest, hcs, hlaid, hsep, hstart, hoffset, hrest⟩ := h
    rw [Nat.zero_add] at hoffset
    refine ⟨?_, ts, read, c, rest, hcs, hlaid, hsep, hstart, ?_, hrest⟩
    · have hsplit : text.toList = (read ++ (c :: rest).takeWhile Text.isBlank) ++ e.rest := by
        rw [hcs, hrest, List.append_assoc, List.takeWhile_append_dropWhile]
      rw [hoffset]
      exact Text.isValid_byteLength hsplit
    · rw [hoffset, byteLength_append]

end StreamFilter.Formula
