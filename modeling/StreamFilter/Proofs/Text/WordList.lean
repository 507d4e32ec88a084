import StreamFilter.Text.WordList
set_option autoImplicit false

/-!
# Word lists are read back as they were written

A word that is cut nowhere (`encodedWords w = [w]`) and does not end in a backslash can
stand before a comma.  The list text of words that are cut nowhere is cut into them again
exactly if all but the last can stand before a comma (`encodedWords_join_iff`).  Words that
were cut out of a list, and words that were encoded, are cut nowhere.  Decoded and encoded
again, they are the same (`encode_decode`), and joined they are the list again
(`join_encodedWords`).
-/

namespace StreamFilter.Text.WordList

/-! ## Encoding is undone by decoding -/

theorem decodeChars_cons {c : Char} {cs : List Char} (h : cs.head? ≠ some ',') :
    decodeChars (c :: cs) = c :: decodeChars cs := by
  match cs, h with
  | [], _ => rfl
  | d :: ds, h =>
    have hd : d ≠ ',' := fun hd => h (by rw [hd]; rfl)
    rw [decodeChars, if_neg fun hboth => hd hboth.2]

/-- An encoded text does not begin with a comma. -/
theorem head?_encodeChars (cs : List Char) : (encodeChars cs).head? ≠ some ',' := by
  match cs with
  | [] => simp [encodeChars]
  | c :: cs =>
    rw [encodeChars]
    split
    · simp
    next hc => simpa using hc

theorem decodeChars_encodeChars (cs : List Char) : decodeChars (encodeChars cs) = cs := by
  induction cs with
  | nil => rfl
  | cons c cs ih =>
    rw [encodeChars]
    split
    next hc => rw [decodeChars, if_pos ⟨rfl, rfl⟩, ih, hc]
    next hc => rw [decodeChars_cons (head?_encodeChars cs), ih]

@[simp] theorem decode_encode (word : String) : decode (encode word) = word := by
  simp [decode, encode, decodeChars_encodeChars]

/-! ## Words that are cut nowhere -/

theorem consHead_eq_singleton {c : Char} {cs : List Char} {ws : List (List Char)} (hws : ws ≠ []) :
    consHead c ws = [c :: cs] ↔ ws = [cs] := by
  obtain ⟨w, ws, rfl⟩ := List.exists_cons_of_ne_nil hws
  simp [consHead]

/-- No comma of an encoded text is a place to cut, whatever stands before the text. -/
theorem cut_encodeChars (afterBackslash : Bool) (cs : List Char) :
    cut afterBackslash (encodeChars cs) = [encodeChars cs] := by
  induction cs generalizing afterBackslash with
  | nil => rfl
  | cons c cs ih =>
    rw [encodeChars]
    split
    next hc => simp [cut, ih, consHead]
    next hc =>
      rw [cut, if_neg fun hboth => hc hboth.1, ih]
      rfl

/-- The pieces of a text have no place to cut.  Only the first piece stands after what
precedes the text; the others stand after a comma. -/
theorem cut_of_cut_eq_cons {afterBackslash : Bool} {cs w : List Char} {ws : List (List Char)}
    (h : cut afterBackslash cs = w :: ws) :
    cut afterBackslash w = [w] ∧ ∀ x ∈ ws, cut false x = [x] := by
  induction cs generalizing afterBackslash w ws with
  | nil =>
    cases h
    exact ⟨rfl, by simp⟩
  | cons c cs ih =>
    rw [cut] at h
    split at h
    · obtain ⟨rfl, rfl⟩ := List.cons.inj h
      refine ⟨rfl, fun x hx => ?_⟩
      obtain ⟨y, ys, hys⟩ := List.exists_cons_of_ne_nil (cut_ne_nil false cs)
      rw [hys] at hx
      obtain ⟨hy, hys⟩ := ih hys
      rcases List.mem_cons.1 hx with rfl | hx
      · exact hy
      · exact hys x hx
    next hcut =>
      obtain ⟨y, ys, hys⟩ := List.exists_cons_of_ne_nil (cut_ne_nil (c == '\\') cs)
      rw [hys, consHead] at h
      obtain ⟨rfl, rfl⟩ := List.cons.inj h
      obtain ⟨hy, hys⟩ := ih hys
      refine ⟨?_, hys⟩
      rw [cut, if_neg hcut, hy]
      rfl

theorem encodedWords_eq_singleton {word : String} :
    encodedWords word = [word] ↔ cut false word.toList = [word.toList] := by
  rw [encodedWords]
  constructor
  · intro h
    obtain ⟨w, hw, rfl⟩ := List.map_eq_singleton_iff.1 h
    simpa using hw
  · intro h
    rw [h]
    simp

@[simp] theorem encodedWords_encode (word : String) : encodedWords (encode word) = [encode word] := by
  rw [encodedWords_eq_singleton]
  simp [encode, cut_encodeChars]

theorem encodedWords_of_mem {list word : String} (h : word ∈ encodedWords list) :
    encodedWords word = [word] := by
  obtain ⟨w, hw, rfl⟩ := List.mem_map.1 h
  obtain ⟨x, xs, hxs⟩ := List.exists_cons_of_ne_nil (cut_ne_nil false list.toList)
  obtain ⟨hx, hrest⟩ := cut_of_cut_eq_cons hxs
  rw [encodedWords_eq_singleton, String.toList_ofList]
  rw [hxs] at hw
  rcases List.mem_cons.1 hw with rfl | hw
  · exact hx
  · exact hrest w hw

theorem encodedWords_ne_nil (list : String) : encodedWords list ≠ [] := by
  rw [encodedWords]
  exact fun h => cut_ne_nil _ _ (List.map_eq_nil_iff.1 h)

/-! ## Decoding is undone by encoding -/

/-- What precedes a text matters only to a comma at its head. -/
theorem cut_congr {afterBackslash : Bool} {cs : List Char} (h : cs.head? ≠ some ',') :
    cut afterBackslash cs = cut false cs := by
  cases cs with
  | nil => rfl
  | cons c cs =>
    have hc : c ≠ ',' := fun hc => h (by rw [hc]; rfl)
    rw [cut, cut, if_neg fun hboth => hc hboth.1, if_neg fun hboth => hc hboth.1]

/-- Decoding is undone by encoding, in a text that is cut nowhere. -/
theorem encodeChars_decodeChars {cs : List Char} (h : cut false cs = [cs]) :
    encodeChars (decodeChars cs) = cs := by
  fun_induction decodeChars cs with
  | case1 => rfl
  | case2 c =>
    have hc : c ≠ ',' := by
      rintro rfl
      simp [cut] at h
    rw [encodeChars, if_neg hc, encodeChars]
  | case3 c d cs hpair ih =>
    obtain ⟨rfl, rfl⟩ := hpair
    have hcs : cut false cs = [cs] := by
      rw [cut, if_neg (by simp), consHead_eq_singleton (cut_ne_nil _ _), cut, if_neg (by simp),
        consHead_eq_singleton (cut_ne_nil _ _)] at h
      exact h
    rw [encodeChars, if_pos rfl, ih hcs]
  | case4 c d cs hpair ih =>
    have hc : c ≠ ',' := by
      rintro rfl
      simp [cut] at h
    rw [cut, if_neg fun hboth => hc hboth.1, consHead_eq_singleton (cut_ne_nil _ _)] at h
    -- a comma that stands here would be cut off, or belong to an escape
    have hd : (d :: cs).head? ≠ some ',' := by
      intro hd
      obtain rfl : d = ',' := by simpa using hd
      have hflag : (c == '\\') = false := by simpa using fun hc => hpair ⟨hc, rfl⟩
      simp [cut, hflag] at h
    rw [cut_congr hd] at h
    rw [encodeChars, if_neg hc, ih h]

theorem encode_decode {word : String} (h : encodedWords word = [word]) :
    encode (decode word) = word := by
  rw [encode, decode, String.toList_ofList,
    encodeChars_decodeChars (encodedWords_eq_singleton.1 h), String.ofList_toList]

/-! ## Cutting joined words -/

theorem foldr_consHead (w v : List Char) (vs : List (List Char)) :
    w.foldr consHead (v :: vs) = (w ++ v) :: vs := by
  induction w with
  | nil => rfl
  | cons c w ih => rw [List.foldr_cons, ih, consHead, List.cons_append]

/-- Whether a backslash stands at the end of a text; of an empty text the flag tells it. -/
def endsEscaping (afterBackslash : Bool) (w : List Char) : Bool :=
  (w.getLast?.map (· == '\\')).getD afterBackslash

theorem endsEscaping_cons (afterBackslash : Bool) (c : Char) (cs : List Char) :
    endsEscaping afterBackslash (c :: cs) = endsEscaping (c == '\\') cs := by
  cases cs with
  | nil => rfl
  | cons d ds => simp [endsEscaping, List.getLast?_cons]

theorem endsEscaping_false {w : List Char} :
    endsEscaping false w = true ↔ w.getLast? = some '\\' := by
  cases h : w.getLast? <;> simp [endsEscaping, h]

/-- A text that is cut nowhere goes in front of the first piece of what follows it. -/
theorem cut_append {afterBackslash : Bool} {w : List Char} (cs : List Char)
    (hcut : cut afterBackslash w = [w]) :
    cut afterBackslash (w ++ cs) = w.foldr consHead (cut (endsEscaping afterBackslash w) cs) := by
  induction w generalizing afterBackslash with
  | nil => rfl
  | cons c w ih =>
    rw [cut] at hcut
    split at hcut
    · simp at hcut
    next hplace =>
      have hw := (consHead_eq_singleton (cut_ne_nil _ _)).1 hcut
      rw [List.cons_append, cut, if_neg hplace, ih hw, endsEscaping_cons, List.foldr_cons]

/-- A comma after a word that is cut nowhere ends it, unless a backslash stands there. -/
theorem cut_append_comma {w : List Char} (rest : List Char) (hcut : cut false w = [w])
    (hend : w.getLast? ≠ some '\\') : cut false (w ++ ',' :: rest) = w :: cut false rest := by
  have hflag : endsEscaping false w = false :=
    Bool.eq_false_iff.2 fun h => hend (endsEscaping_false.1 h)
  rw [cut_append _ hcut, hflag, cut, if_pos ⟨rfl, rfl⟩, foldr_consHead, List.append_nil]

/-- After a backslash the comma is part of the first piece. -/
theorem cut_append_comma_ne {w : List Char} (rest : List Char) (ws : List (List Char))
    (hcut : cut false w = [w]) (hend : w.getLast? = some '\\') :
    cut false (w ++ ',' :: rest) ≠ w :: ws := by
  obtain ⟨v, vs, hvs⟩ := List.exists_cons_of_ne_nil (cut_ne_nil false rest)
  have hcomma : cut true (',' :: rest) = (',' :: v) :: vs := by
    rw [cut, if_neg (by simp), show (',' == '\\') = false from rfl, hvs, consHead]
  rw [cut_append _ hcut, endsEscaping_false.2 hend, hcomma, foldr_consHead]
  intro heq
  have hlonger := (List.cons.inj heq).1
  simp at hlonger

/-- Words that are cut nowhere are cut out of their list again exactly if no backslash
stands before one of its commas. -/
theorem cut_intercalate_iff {ws : List (List Char)} (hne : ws ≠ [])
    (hcut : ∀ w ∈ ws, cut false w = [w]) :
    cut false ([','].intercalate ws) = ws ↔ ∀ w ∈ ws.dropLast, w.getLast? ≠ some '\\' := by
  induction ws with
  | nil => exact absurd rfl hne
  | cons w ws ih =>
    have hw := hcut w List.mem_cons_self
    cases ws with
    | nil => simp [hw]
    | cons x xs =>
      have hrest := ih (by simp) fun y hy => hcut y (List.mem_cons_of_mem _ hy)
      rw [List.intercalate_cons_cons, List.append_assoc, List.singleton_append,
        List.dropLast_cons_of_ne_nil (by simp), List.forall_mem_cons]
      by_cases hend : w.getLast? = some '\\'
      · exact iff_of_false (cut_append_comma_ne _ _ hw hend) fun h => h.1 hend
      · rw [cut_append_comma _ hw hend, List.cons.injEq, hrest]
        simp [hend]

theorem toList_join (ws : List String) :
    (join ws).toList = [','].intercalate (ws.map String.toList) := by
  rw [join, String.toList_intercalate]
  rfl

theorem encodedWords_join_iff {ws : List String} (hne : ws ≠ [])
    (hcut : ∀ w ∈ ws, encodedWords w = [w]) :
    encodedWords (join ws) = ws ↔ ∀ w ∈ ws.dropLast, w.toList.getLast? ≠ some '\\' := by
  have huncut : ∀ w ∈ ws.map String.toList, cut false w = [w] := by
    simpa [encodedWords_eq_singleton] using hcut
  have hchars := cut_intercalate_iff (by simpa using hne) huncut
  rw [← List.map_dropLast, List.forall_mem_map] at hchars
  rw [← hchars, ← toList_join]
  constructor
  · intro h
    have hpieces := congrArg (List.map String.toList) h
    simpa [encodedWords, Function.comp_def] using hpieces
  · intro h
    rw [encodedWords, h]
    simp [Function.comp_def]

/-- A list of words that may stand before a comma is read back as it was written. -/
theorem encodedWords_join {ws : List String} (hne : ws ≠ [])
    (hcut : ∀ w ∈ ws, encodedWords w = [w]) (hend : ∀ w ∈ ws, w.toList.getLast? ≠ some '\\') :
    encodedWords (join ws) = ws :=
  (encodedWords_join_iff hne hcut).2 fun w hw => hend w (List.dropLast_subset ws hw)

/-! ## Joining what was cut -/

theorem intercalate_consHead {c : Char} {ws : List (List Char)} (hws : ws ≠ []) :
    [','].intercalate (consHead c ws) = c :: [','].intercalate ws := by
  match ws, hws with
  | [w], _ => simp [consHead]
  | w :: v :: vs, _ => simp [consHead, List.intercalate_cons_cons]

theorem intercalate_cut (afterBackslash : Bool) (cs : List Char) :
    [','].intercalate (cut afterBackslash cs) = cs := by
  induction cs generalizing afterBackslash with
  | nil => rfl
  | cons c cs ih =>
    rw [cut]
    split
    next hplace =>
      obtain ⟨w, ws, hws⟩ := List.exists_cons_of_ne_nil (cut_ne_nil false cs)
      have hrest := ih false
      rw [hws] at hrest ⊢
      rw [List.intercalate_cons_cons, hrest, hplace.1]
      rfl
    next => rw [intercalate_consHead (cut_ne_nil _ _), ih]

theorem join_encodedWords (list : String) : join (encodedWords list) = list := by
  apply String.toList_inj.1
  rw [toList_join, encodedWords, List.map_map]
  simp [Function.comp_def, intercalate_cut]

/-! ## Lists of any words -/

theorem getLast?_encodeChars (cs : List Char) : (encodeChars cs).getLast? = cs.getLast? := by
  induction cs with
  | nil => rfl
  | cons c cs ih =>
    rw [encodeChars]
    split
    next hc => simp [List.getLast?_cons, ih, hc]
    next => simp [List.getLast?_cons, ih]

/-- Words are read back exactly if their encoded forms are: these can be had from them. -/
theorem words_ofWords {ws : List String} :
    words (ofWords ws) = ws ↔ encodedWords (ofWords ws) = ws.map encode := by
  constructor
  · intro h
    have hencoded : (encodedWords (ofWords ws)).map (encode ∘ decode) = encodedWords (ofWords ws) :=
      (List.map_congr_left fun w hw => encode_decode (encodedWords_of_mem hw)).trans (List.map_id _)
    rw [← hencoded, ← List.map_map, ← words, h]
  · intro h
    rw [words, h, List.map_map]
    simp [Function.comp_def]

/-- Writing a list of words and reading it undo each other wherever they can: words are read
back unless a backslash stands before the comma after one of them, and every list text is the
join of its encoded words, each of which is the encoded form of a word. -/
theorem codec_exact :
    (∀ ws : List String, ws ≠ [] →
      (words (ofWords ws) = ws ↔ ∀ w ∈ ws.dropLast, w.toList.getLast? ≠ some '\\')) ∧
    ∀ list : String, join (encodedWords list) = list ∧
      ∀ w ∈ encodedWords list, encode (decode w) = w := by
  refine ⟨fun ws hne => ?_, fun list => ⟨join_encodedWords list, fun w hw => ?_⟩⟩
  · have huncut : ∀ w ∈ ws.map encode, encodedWords w = [w] := by simp
    rw [words_ofWords, ofWords, encodedWords_join_iff (by simpa using hne) huncut,
      ← List.map_dropLast, List.forall_mem_map]
    simp [encode, getLast?_encodeChars]
  · exact encode_decode (encodedWords_of_mem hw)

/-- Commas, an empty word and a backslash at the very end come back; a backslash before a comma
does not. -/
theorem codec_exact_awkward :
    words (ofWords [",", "", "a,\\,", "b\\"]) = [",", "", "a,\\,", "b\\"] ∧
      words (ofWords ["b\\", ""]) ≠ ["b\\", ""] ∧
      "a\\\\,b" ∈ encodedWords "a\\\\,b," ∧ encode (decode "a\\\\,b") = "a\\\\,b" := by
  have hmem : "a\\\\,b" ∈ encodedWords "a\\\\,b," := by decide
  refine ⟨(codec_exact.1 _ (by simp)).2 (by simp), fun h => ?_, hmem, (codec_exact.2 _).2 _ hmem⟩
  exact (codec_exact.1 ["b\\", ""] (by simp)).1 h "b\\" (by simp) (by simp)

end StreamFilter.Text.WordList
