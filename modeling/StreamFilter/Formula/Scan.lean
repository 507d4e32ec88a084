import StreamFilter.Formula.Token
import StreamFilter.Text.Slice
set_option autoImplicit false

/-!
# Scanning formula text

The text is cut into tokens from left to right.  `Formula.next` skips separators and takes
one token off the front of what remains; it knows nothing of offsets.  Where the token
stands is found afterwards, by measuring: the text and what remains of it before and behind
the token have lengths, and the white space at the start of the part that was read belongs
to no token.  A fault is placed in the same way, behind all white space found there.

The parts are cut out of the text by byte offsets, and white space is any of Unicode while
the separators are four ASCII characters.  So it takes an argument that an offset never lies
inside a character and that it is the one of the token: `Formula.tokenizeFrom_eq` says that
measuring gives what a walk over the characters counts (`Formula.scanFrom`), and
`Formula.scan` is then a total function.
-/

namespace StreamFilter.Formula

open Text (byteLength byteLength_append byteLength_cons)

/-! ## Taking one token -/

/-- What stands at the front of a text: nothing but separators, a token, or something that
is none. -/
inductive Next where
  | done
  | token (token : Token) (rest : String.Slice)
  | stuck

/-- The token that a single character is. -/
def punctuation? : Char → Option Token
  | '(' => some .opening
  | ')' => some .closing
  | ',' => some .comma
  | _ => none

/-- The token that starts with a character, in front of the rest of a text. -/
def lexFrom (c : Char) (rest : String.Slice) : Next :=
  match punctuation? c with
  | some t => .token t rest
  | none =>
    if isNameStart c then
      .token (.name (String.singleton c ++ (rest.takeWhile isNameChar).copy))
        (rest.dropWhile isNameChar)
    else .stuck

/-- Skips separators and takes one token. -/
def next (remaining : String.Slice) : Next :=
  let s := remaining.dropWhile isSeparator
  match s.front? with
  | none => .done
  | some c => lexFrom c (s.drop 1)

theorem punctuation?_eq_some {c : Char} {t : Token} (h : punctuation? c = some t) :
    t.chars = [c] ∧ ∀ after, t.Whole after := by
  unfold punctuation? at h
  split at h
  all_goals cases h
  all_goals exact ⟨rfl, fun _ => trivial⟩

theorem startsToken_of_punctuation? {c : Char} (h : punctuation? c = none)
    (hname : isNameStart c = false) : startsToken c = false := by
  unfold punctuation? at h
  split at h
  · cases h
  · cases h
  · cases h
  next hopen hclose hcomma =>
    simp only [startsToken, Bool.or_eq_false_iff, beq_eq_false_iff_ne]
    exact ⟨⟨⟨hopen, hclose⟩, hcomma⟩, hname⟩

theorem lexFrom_ne_done (c : Char) (rest : String.Slice) : lexFrom c rest ≠ .done := by
  unfold lexFrom
  split
  · exact Next.noConfusion
  · split <;> exact Next.noConfusion

theorem lexFrom_eq_token {c : Char} {rest after : String.Slice} {t : Token}
    (h : lexFrom c rest = .token t after) :
    c :: rest.copy.toList = t.chars ++ after.copy.toList ∧ t.Whole after.copy.toList := by
  unfold lexFrom at h
  split at h
  next u hsingle =>
    cases h
    obtain ⟨hchars, hwhole⟩ := punctuation?_eq_some hsingle
    exact ⟨by rw [hchars, List.singleton_append], hwhole _⟩
  next =>
    split at h
    next hc =>
      cases h
      have hname : String.singleton c ++ (rest.takeWhile isNameChar).copy =
          String.ofList (c :: rest.copy.toList.takeWhile isNameChar) := by
        rw [String.ofList_cons, ← Text.toList_takeWhile, String.ofList_toList]
      rw [hname, Text.toList_dropWhile]
      refine ⟨?_, whole_takeWhile hc _⟩
      rw [Token.chars, String.toList_ofList, List.cons_append, List.takeWhile_append_dropWhile]
    next => cases h

theorem lexFrom_eq_stuck {c : Char} {rest : String.Slice} (h : lexFrom c rest = .stuck) :
    startsToken c = false := by
  unfold lexFrom at h
  split at h
  next => cases h
  next hsingle =>
    split at h
    next => cases h
    next hname => exact startsToken_of_punctuation? hsingle (Bool.eq_false_iff.2 hname)

/-- What is in front of the first character that is no separator. -/
theorem next_cases (remaining : String.Slice) :
    ∃ seps : List Char, (∀ c ∈ seps, isSeparator c = true) ∧
      (next remaining = .done ∧ remaining.copy.toList = seps ∨
        ∃ c rest, next remaining = lexFrom c rest ∧ isSeparator c = false ∧
          remaining.copy.toList = seps ++ c :: rest.copy.toList) := by
  refine ⟨remaining.copy.toList.takeWhile isSeparator, List.all_eq_true.1 List.all_takeWhile, ?_⟩
  have hfront := String.Slice.front?_eq (s := remaining.dropWhile isSeparator)
  have hcut := List.takeWhile_append_dropWhile (p := isSeparator) (l := remaining.copy.toList)
  have hstop := List.head?_dropWhile_not isSeparator remaining.copy.toList
  have hrest := String.Slice.toList_copy_drop (s := remaining.dropWhile isSeparator) (n := 1)
  rw [Text.toList_dropWhile] at hfront hrest
  cases hcs : remaining.copy.toList.dropWhile isSeparator with
  | nil =>
    rw [hcs, List.head?_nil] at hfront
    rw [hcs, List.append_nil] at hcut
    exact .inl ⟨by rw [next]; simp only [hfront], hcut.symm⟩
  | cons c cs =>
    rw [hcs, List.head?_cons] at hfront hstop
    rw [hcs, List.drop_one, List.tail_cons] at hrest
    refine .inr ⟨c, (remaining.dropWhile isSeparator).drop 1, ?_, hstop, ?_⟩
    · rw [next]
      simp only [hfront]
    · rw [hrest, ← hcs, hcut]

/-- A token stands behind separators, and a name ends where it has to. -/
theorem next_eq_token {remaining rest : String.Slice} {t : Token}
    (h : next remaining = .token t rest) :
    ∃ seps : List Char, (∀ c ∈ seps, isSeparator c = true) ∧ t.Whole rest.copy.toList ∧
      remaining.copy.toList = seps ++ (t.chars ++ rest.copy.toList) := by
  obtain ⟨seps, hseps, ⟨hdone, -⟩ | ⟨c, after, hlex, -, hcs⟩⟩ := next_cases remaining
  · rw [h] at hdone
    cases hdone
  · obtain ⟨hchars, hwhole⟩ := lexFrom_eq_token (hlex.symm.trans h)
    exact ⟨seps, hseps, hwhole, by rw [hcs, hchars]⟩

theorem next_eq_done {remaining : String.Slice} (h : next remaining = .done) :
    ∀ c ∈ remaining.copy.toList, isSeparator c = true := by
  obtain ⟨seps, hseps, ⟨-, hcs⟩ | ⟨c, after, hlex, -, -⟩⟩ := next_cases remaining
  · rwa [hcs]
  · exact absurd (hlex.symm.trans h) (lexFrom_ne_done c after)

theorem next_eq_stuck {remaining : String.Slice} (h : next remaining = .stuck) :
    ∃ seps c cs, (∀ c ∈ seps, isSeparator c = true) ∧ isSeparator c = false ∧
      startsToken c = false ∧ remaining.copy.toList = seps ++ c :: cs := by
  obtain ⟨seps, hseps, ⟨hdone, -⟩ | ⟨c, after, hlex, hsep, hcs⟩⟩ := next_cases remaining
  · rw [h] at hdone
    cases hdone
  · exact ⟨seps, c, _, hseps, hsep, lexFrom_eq_stuck (hlex.symm.trans h), hcs⟩

/-! ## The loop -/

theorem Token.Whole.byteLength_pos {t : Token} {after : List Char} (h : t.Whole after) :
    0 < byteLength t.chars := by
  obtain ⟨c, cs, hchars, -⟩ := h.startsToken
  rw [hchars, byteLength_cons]
  exact Nat.add_pos_left c.utf8Size_pos _

/-- A token shortens what remains. -/
theorem utf8ByteSize_lt_of_next {remaining rest : String.Slice} {t : Token}
    (h : next remaining = .token t rest) : rest.utf8ByteSize < remaining.utf8ByteSize := by
  obtain ⟨seps, -, hwhole, hcs⟩ := next_eq_token h
  have hpositive := hwhole.byteLength_pos
  rw [Text.utf8ByteSize_slice, Text.utf8ByteSize_slice, hcs, byteLength_append, byteLength_append]
  omega

/-- Scans what remains of a text behind the tokens that were found.  There is no result if
a part of the text is asked for that does not exist. -/
def tokenizeFrom (text : String) (remaining : String.Slice) (found : Array Lexeme) :
    Option (Except ScanFault Scanned) :=
  let before := text.utf8ByteSize - remaining.utf8ByteSize
  match h : next remaining with
  | .done => some (.ok ⟨found.toList, text.utf8ByteSize⟩)
  | .token token rest =>
    let consumed := text.utf8ByteSize - rest.utf8ByteSize
    have := utf8ByteSize_lt_of_next h
    (Text.slice? text before consumed).bind fun read =>
      tokenizeFrom text rest (found.push ⟨token, before + Text.leadingBlanks read⟩)
  | .stuck =>
    (Text.slice? text before text.utf8ByteSize).bind fun unread =>
      let offset := before + Text.leadingBlanks unread
      (Text.slice? text offset text.utf8ByteSize).map fun rest =>
        .error ⟨offset, rest.copy.toList⟩
termination_by remaining.utf8ByteSize

/-- Scans a text. -/
def tokenize (text : String) : Option (Except ScanFault Scanned) :=
  tokenizeFrom text text.toSlice #[]

/-! ## Walking over the characters -/

/-- Puts a token in front. -/
def Scanned.cons (token : Token) (offset : Nat) (s : Scanned) : Scanned :=
  { s with lexemes := ⟨token, offset⟩ :: s.lexemes }

/-- The tokens of the characters that start at a byte offset, which is counted along. -/
def scanFrom (offset : Nat) : List Char → Except ScanFault Scanned
  | [] => .ok ⟨[], offset⟩
  | c :: cs =>
    if isSeparator c then scanFrom (offset + 1) cs
    else if c = '(' then (scanFrom (offset + 1) cs).map (·.cons .opening offset)
    else if c = ')' then (scanFrom (offset + 1) cs).map (·.cons .closing offset)
    else if c = ',' then (scanFrom (offset + 1) cs).map (·.cons .comma offset)
    else if isNameStart c then
      let name := c :: cs.takeWhile isNameChar
      (scanFrom (offset + name.length) (cs.dropWhile isNameChar)).map
        (·.cons (.name (String.ofList name)) offset)
    else
      .error ⟨offset + byteLength ((c :: cs).takeWhile Text.isBlank), Text.dropBlanks (c :: cs)⟩
termination_by cs => cs.length
decreasing_by
  all_goals simp only [List.length_cons]
  all_goals have := (List.dropWhile_sublist isNameChar (l := cs)).length_le
  all_goals omega

theorem scanFrom_separators (offset : Nat) {seps : List Char}
    (h : ∀ c ∈ seps, isSeparator c = true) (cs : List Char) :
    scanFrom offset (seps ++ cs) = scanFrom (offset + byteLength seps) cs := by
  induction seps generalizing offset with
  | nil => rfl
  | cons c seps ih =>
    have hc := h c List.mem_cons_self
    have hmore : ∀ d ∈ seps, isSeparator d = true := fun d hd => h d (List.mem_cons_of_mem c hd)
    rw [List.cons_append, scanFrom, if_pos hc, ih (offset + 1) hmore, byteLength_cons,
      utf8Size_of_isSeparator hc, Nat.add_assoc]

/-- A token is scanned up to its end. -/
theorem scanFrom_token (offset : Nat) {t : Token} {cs : List Char} (h : t.Whole cs) :
    scanFrom offset (t.chars ++ cs) =
      (scanFrom (offset + byteLength t.chars) cs).map (·.cons t offset) := by
  cases t with
  | opening =>
    rw [Token.chars, List.singleton_append, scanFrom, if_neg (by decide), if_pos rfl]
    rfl
  | closing =>
    rw [Token.chars, List.singleton_append, scanFrom, if_neg (by decide), if_neg (by decide),
      if_pos rfl]
    rfl
  | comma =>
    rw [Token.chars, List.singleton_append, scanFrom, if_neg (by decide), if_neg (by decide),
      if_neg (by decide), if_pos rfl]
    rfl
  | name text =>
    obtain ⟨c, more, hchars, hc, hmore⟩ := exists_of_isName h.1
    obtain ⟨hsep, hopen, hclose, hcomma⟩ := isNameStart_cases hc
    have hends : cs.head?.any isNameChar = false := by
      rw [Option.any_eq_false]
      exact fun d hd => by simp [h.2 d hd]
    have hcut := Text.takeWhile_append_of_head? (List.all_eq_true.2 hmore) hends
    have hlength : byteLength text.toList = text.toList.length :=
      byteLength_of_isNameChar (isNameChar_of_isName h.1)
    rw [Token.chars, hlength, hchars, List.cons_append, scanFrom, if_neg (by simp [hsep]),
      if_neg hopen, if_neg hclose, if_neg hcomma, if_pos hc]
    simp only [hcut]
    rw [← hchars, String.ofList_toList]

theorem scanFrom_stuck (offset : Nat) {c : Char} (hsep : isSeparator c = false)
    (hstart : startsToken c = false) (cs : List Char) :
    scanFrom offset (c :: cs) =
      .error ⟨offset + byteLength ((c :: cs).takeWhile Text.isBlank),
        (c :: cs).dropWhile Text.isBlank⟩ := by
  simp only [startsToken, Bool.or_eq_false_iff, beq_eq_false_iff_ne] at hstart
  obtain ⟨⟨⟨hopen, hclose⟩, hcomma⟩, hname⟩ := hstart
  rw [scanFrom, if_neg (by simp [hsep]), if_neg hopen, if_neg hclose, if_neg hcomma,
    if_neg (by simp [hname]), Text.dropBlanks]

/-! ## Measuring agrees with counting -/

section Measuring

variable {text : String} {front seps cs : List Char}

/-- The part that was read for a token exists, and the white space in front of the token is
the separators there. -/
theorem exists_read {t : Token} (hseps : ∀ c ∈ seps, isSeparator c = true) (ht : t.Whole cs)
    (h : text.toList = front ++ ((seps ++ t.chars) ++ cs)) :
    ∃ read, Text.slice? text (byteLength front) (byteLength front + byteLength (seps ++ t.chars)) =
      some read ∧ Text.leadingBlanks read = byteLength seps := by
  obtain ⟨read, hread, hcopy⟩ := Text.slice?_of_append h
  obtain ⟨c, more, hchars, hc⟩ := ht.startsToken
  -- separators are white space, and no token starts with any
  have hblanks : seps.all Text.isBlank = true :=
    List.all_eq_true.2 fun d hd => isBlank_of_isSeparator (hseps d hd)
  have hstop : t.chars.head?.any Text.isBlank = false := by
    rw [hchars]
    exact isBlank_of_startsToken hc
  refine ⟨read, hread, ?_⟩
  rw [Text.leadingBlanks_eq, hcopy, (Text.takeWhile_append_of_head? hblanks hstop).1]

/-- What was not read exists, and the white space in front of it is the separators and all
that follows them. -/
theorem exists_unread (hseps : ∀ c ∈ seps, isSeparator c = true)
    (h : text.toList = front ++ (seps ++ cs)) :
    ∃ unread, Text.slice? text (byteLength front) text.utf8ByteSize = some unread ∧
      Text.leadingBlanks unread = byteLength (seps ++ cs.takeWhile Text.isBlank) := by
  obtain ⟨unread, hunread, hcopy⟩ := Text.slice?_to_end h
  refine ⟨unread, hunread, ?_⟩
  rw [Text.leadingBlanks_eq, hcopy,
    List.takeWhile_append_of_pos fun d hd => isBlank_of_isSeparator (hseps d hd)]

end Measuring

/-- Puts tokens in front. -/
def Scanned.prepend (found : Array Lexeme) (s : Scanned) : Scanned :=
  { s with lexemes := found.toList ++ s.lexemes }

theorem map_prepend_cons (result : Except ScanFault Scanned) (t : Token) (offset : Nat)
    (found : Array Lexeme) :
    (result.map (·.cons t offset)).map (·.prepend found) =
      result.map (·.prepend (found.push ⟨t, offset⟩)) := by
  cases result with
  | error e => rfl
  | ok s => simp [Except.map, Scanned.prepend, Scanned.cons]

/-- What remains of a text always has a result, which is what counting gives. -/
theorem tokenizeFrom_eq {text : String} {front : List Char} {remaining : String.Slice}
    (found : Array Lexeme) (h : text.toList = front ++ remaining.copy.toList) :
    tokenizeFrom text remaining found =
      some ((scanFrom (byteLength front) remaining.copy.toList).map (·.prepend found)) := by
  have hsize : text.utf8ByteSize = byteLength front + remaining.utf8ByteSize := by
    rw [← Text.byteLength_toList, h, byteLength_append, Text.utf8ByteSize_slice]
  have hbefore : text.utf8ByteSize - remaining.utf8ByteSize = byteLength front := by omega
  rw [tokenizeFrom]
  simp only [hbefore]
  split
  next hnext =>
    have hscan := scanFrom_separators (byteLength front) (next_eq_done hnext) []
    rw [List.append_nil, scanFrom] at hscan
    rw [hscan, hsize, Text.utf8ByteSize_slice, Except.map, Scanned.prepend, List.append_nil]
  next t rest hnext =>
    obtain ⟨seps, hseps, hwhole, hcs⟩ := next_eq_token hnext
    have hfront : text.toList = (front ++ (seps ++ t.chars)) ++ rest.copy.toList := by
      rw [h, hcs, List.append_assoc, List.append_assoc]
    have hconsumed : text.utf8ByteSize - rest.utf8ByteSize =
        byteLength front + byteLength (seps ++ t.chars) := by
      have hlength := congrArg byteLength hfront
      rw [Text.byteLength_toList, byteLength_append, byteLength_append,
        ← Text.utf8ByteSize_slice] at hlength
      omega
    obtain ⟨read, hread, hblanks⟩ :=
      exists_read hseps hwhole (hfront.trans (List.append_assoc ..))
    have hdecreases := utf8ByteSize_lt_of_next hnext
    rw [hconsumed, hread, Option.bind_some, hblanks, tokenizeFrom_eq _ hfront, hcs,
      scanFrom_separators _ hseps, scanFrom_token _ hwhole, byteLength_append,
      byteLength_append, ← Nat.add_assoc, map_prepend_cons]
  next hnext =>
    obtain ⟨seps, c, cs, hseps, hsep, hstart, hcs⟩ := next_eq_stuck hnext
    rw [hcs] at h
    obtain ⟨unread, hunread, hblanks⟩ := exists_unread hseps h
    have hcut : text.toList = (front ++ (seps ++ (c :: cs).takeWhile Text.isBlank)) ++
        (c :: cs).dropWhile Text.isBlank := by
      rw [h, List.append_assoc, List.append_assoc, List.takeWhile_append_dropWhile]
    obtain ⟨rest, hrest, hcopy⟩ := Text.slice?_to_end hcut
    rw [byteLength_append] at hrest
    rw [hunread, Option.bind_some, hblanks, hrest, Option.map_some, hcopy, hcs,
      scanFrom_separators _ hseps, scanFrom_stuck _ hsep hstart, byteLength_append, Nat.add_assoc]
    rfl
termination_by remaining.utf8ByteSize

/-- A text always has a result. -/
theorem tokenize_eq (text : String) : tokenize text = some (scanFrom 0 text.toList) := by
  have hcopy : text.toSlice.copy = text := String.copy_toSlice
  have hstart : text.toList = [] ++ text.toSlice.copy.toList := by rw [hcopy, List.nil_append]
  rw [tokenize, tokenizeFrom_eq #[] hstart, hcopy, Text.byteLength_nil]
  cases scanFrom 0 text.toList with
  | error e => rfl
  | ok s => rfl

/-- The tokens of a text. -/
def scan (text : String) : Except ScanFault Scanned :=
  (tokenize text).get (by rw [tokenize_eq]; rfl)

theorem tokenize_eq_scan (text : String) : tokenize text = some (scan text) :=
  (Option.some_get _).symm

theorem scan_eq (text : String) : scan text = scanFrom 0 text.toList :=
  Option.some.inj ((tokenize_eq_scan text).symm.trans (tokenize_eq text))

end StreamFilter.Formula
