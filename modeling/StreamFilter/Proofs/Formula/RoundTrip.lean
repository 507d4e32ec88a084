import StreamFilter.Proofs.Formula.Grammar
set_option autoImplicit false

/-!
# Formula text reads back

A formula is printable when its variables are names and each connective has two parts
or more.  Its text then reads as the formula (`parse_text`), and conversely every
formula that is read from text is printable (`printable_of_parse`).

Both go through the grammar: the text of a printable formula spells a derivation of it,
and the value of a derivation is printable.
-/

namespace StreamFilter.Formula

/-! ## Printable formulas -/

mutual

/-- Whether a formula has text that reads back. -/
def Printable : Formula String → Prop
  | var name => isName name = true
  | not part => Printable part
  | and parts => 2 ≤ parts.length ∧ AllPrintable parts
  | or parts => 2 ≤ parts.length ∧ AllPrintable parts

/-- Whether all formulas of a list are printable. -/
def AllPrintable : List (Formula String) → Prop
  | [] => True
  | f :: fs => Printable f ∧ AllPrintable fs

end

theorem allPrintable_iff {fs : List (Formula String)} :
    AllPrintable fs ↔ ∀ f ∈ fs, Printable f := by
  induction fs with
  | nil => simp [AllPrintable]
  | cons f fs ih => simp [AllPrintable, ih]

mutual

theorem isName_of_mem_occurrences {x : String} : ∀ f : Formula String, Printable f →
    x ∈ f.occurrences → isName x = true
  | var name, hf, hx => by
    rw [occurrences, List.mem_singleton] at hx
    rw [hx]
    rwa [Printable] at hf
  | not f, hf, hx => by
    rw [Printable] at hf
    exact isName_of_mem_occurrences f hf (by rwa [occurrences] at hx)
  | and fs, hf, hx => by
    rw [Printable] at hf
    exact isName_of_mem_occurrencesAll fs hf.2 (by rwa [occurrences] at hx)
  | or fs, hf, hx => by
    rw [Printable] at hf
    exact isName_of_mem_occurrencesAll fs hf.2 (by rwa [occurrences] at hx)

theorem isName_of_mem_occurrencesAll {x : String} : ∀ fs : List (Formula String),
    AllPrintable fs → x ∈ occurrencesAll fs → isName x = true
  | [], _, hx => by simp [occurrencesAll] at hx
  | f :: fs, hf, hx => by
    rw [AllPrintable] at hf
    rw [occurrencesAll, List.mem_append] at hx
    exact hx.elim (isName_of_mem_occurrences f hf.1) (isName_of_mem_occurrencesAll fs hf.2)

end

theorem unlessSingle_of_two_le (make : List (Formula String) → Formula String)
    {fs : List (Formula String)} (h : 2 ≤ fs.length) : unlessSingle make fs = make fs := by
  match fs, h with
  | _ :: _ :: _, _ => rfl

theorem printable_unlessSingle {make : List (Formula String) → Formula String}
    (hmake : ∀ fs, Printable (make fs) ↔ 2 ≤ fs.length ∧ AllPrintable fs)
    {fs : List (Formula String)} (hne : fs ≠ []) (hfs : AllPrintable fs) :
    Printable (unlessSingle make fs) := by
  match fs, hne with
  | [f], _ =>
    rw [AllPrintable] at hfs
    exact hfs.1
  | _ :: _ :: _, _ => exact (hmake _).2 ⟨by simp, hfs⟩

/-! ## The text of a formula spells a derivation of it -/

/-- A derivation of a formula whose tokens are spelled by its text, in front of any rest
that does not go on with a name. -/
structure DerivedBy (f : Formula String) (d : Derivation) : Prop where
  value : d.value = f
  spells : ∀ {rest : List Char} {ts : List Token}, Ends rest → Spells rest ts →
    Spells ((text f).toList ++ rest) (d.tokens ++ ts)

/-- Derivations of formulas whose tokens are spelled by their texts after commas. -/
structure RestDerivedBy (fs : List (Formula String)) (ds : List Derivation) : Prop where
  values : Derivation.values ds = fs
  spells : ∀ {rest : List Char} {ts : List Token}, Ends rest → Spells rest ts →
    Spells ((textRest fs).toList ++ rest) (Derivation.tokensRest ds ++ ts)

theorem ends_cons {c : Char} (hc : isNameChar c = false) (rest : List Char) : Ends (c :: rest) := by
  intro d hd
  have hcd : c = d := by simpa using hd
  rwa [← hcd]

theorem ends_textRest (fs : List (Formula String)) {rest : List Char} (hrest : Ends rest) :
    Ends ((textRest fs).toList ++ rest) := by
  cases fs with
  | nil => simpa [textRest] using hrest
  | cons f fs =>
    have hhead : (textRest (f :: fs)).toList ++ rest =
        ',' :: (' ' :: ((text f).toList ++ (textRest fs).toList) ++ rest) := by
      simp [textRest, String.toList_append]
    rw [hhead]
    exact ends_cons (by decide) _

/-- A function name with its parentheses around what is spelled. -/
theorem spells_call (word : String) (hword : isName word = true) {inner rest : List Char}
    {ts us : List Token} (h : Spells (inner ++ ')' :: rest) (ts ++ .closing :: us)) :
    Spells (word.toList ++ '(' :: (inner ++ ')' :: rest))
      (.name word :: .opening :: (ts ++ .closing :: us)) :=
  .name hword (ends_cons (by decide) _) (.opening h)

theorem DerivedBy.not {f : Formula String} {d : Derivation} (h : DerivedBy f d) :
    ∃ d, DerivedBy (.not f) d := by
  refine ⟨.negation "Not" (by decide +kernel) d, ⟨by rw [Derivation.value, h.value], ?_⟩⟩
  intro rest ts _ hrest
  have hpart := h.spells (ends_cons (by decide : isNameChar ')' = false) rest) (.closing hrest)
  have hcall := spells_call "Not" (by decide) hpart
  simpa [text, String.toList_append, Derivation.tokens] using hcall

/-- Two formulas or more are derived with the connective in front. -/
theorem DerivedBy.join (c : Connective) {f g : Formula String} {fs : List (Formula String)}
    {d e : Derivation} {ds : List Derivation} (hf : DerivedBy f d)
    (hrest : RestDerivedBy (g :: fs) (e :: ds)) :
    ∃ d, DerivedBy (Filter.formulaOf c (f :: g :: fs)) d := by
  -- the text and the tokens of all arguments, in front of the closing parenthesis
  have harguments : ∀ {rest : List Char} {ts : List Token}, Spells rest ts →
      Spells (((text f).toList ++ (textRest (g :: fs)).toList) ++ ')' :: rest)
        ((d.tokens ++ Derivation.tokensRest (e :: ds)) ++ .closing :: ts) := by
    intro rest ts hts
    have hend : Ends (')' :: rest) := ends_cons (by decide) rest
    have hmore := hf.spells (ends_textRest (g :: fs) hend) (hrest.spells hend (.closing hts))
    simpa only [List.append_assoc] using hmore
  cases c with
  | and =>
    refine ⟨.junction .and "And" (by decide +kernel) d (e :: ds), ⟨?_, ?_⟩⟩
    · rw [Derivation.value, hf.value, hrest.values]
      rfl
    · intro rest ts _ hts
      have hcall := spells_call "And" (by decide) (harguments hts)
      simpa [Filter.formulaOf, text, textList, String.toList_append, Derivation.tokens] using hcall
  | or =>
    refine ⟨.junction .or "Or" (by decide +kernel) d (e :: ds), ⟨?_, ?_⟩⟩
    · rw [Derivation.value, hf.value, hrest.values]
      rfl
    · intro rest ts _ hts
      have hcall := spells_call "Or" (by decide) (harguments hts)
      simpa [Filter.formulaOf, text, textList, String.toList_append, Derivation.tokens] using hcall

mutual

theorem exists_derivedBy : ∀ f : Formula String, Printable f → ∃ d, DerivedBy f d
  | var name, hf => by
    rw [Printable] at hf
    refine ⟨.var name hf, ⟨by rw [Derivation.value], ?_⟩⟩
    intro rest ts hrest hts
    rw [text, Derivation.tokens]
    exact .name hf hrest hts
  | not f, hf => by
    rw [Printable] at hf
    obtain ⟨d, hd⟩ := exists_derivedBy f hf
    exact hd.not
  | and fs, hf => by
    rw [Printable] at hf
    exact exists_derivedBy_join .and fs hf.1 hf.2
  | or fs, hf => by
    rw [Printable] at hf
    exact exists_derivedBy_join .or fs hf.1 hf.2

theorem exists_derivedBy_join (c : Connective) : ∀ fs : List (Formula String), 2 ≤ fs.length →
    AllPrintable fs → ∃ d, DerivedBy (Filter.formulaOf c fs) d
  | [], h, _ | [_], h, _ => by simp at h
  | f :: g :: fs, _, hfs => by
    rw [AllPrintable] at hfs
    obtain ⟨d, hd⟩ := exists_derivedBy f hfs.1
    obtain ⟨ds, hds⟩ := exists_restDerivedBy (g :: fs) hfs.2
    cases ds with
    | nil => exact absurd hds.values (by simp [Derivation.values])
    | cons e es => exact hd.join c hds

theorem exists_restDerivedBy : ∀ fs : List (Formula String), AllPrintable fs →
    ∃ ds, RestDerivedBy fs ds
  | [], _ => by
    refine ⟨[], ⟨by rw [Derivation.values], ?_⟩⟩
    intro rest ts _ hts
    simpa [textRest, Derivation.tokensRest] using hts
  | f :: fs, hfs => by
    rw [AllPrintable] at hfs
    obtain ⟨d, hd⟩ := exists_derivedBy f hfs.1
    obtain ⟨ds, hds⟩ := exists_restDerivedBy fs hfs.2
    refine ⟨d :: ds, ⟨by rw [Derivation.values, hd.value, hds.values], ?_⟩⟩
    intro rest ts hrest hts
    have hspelled := hd.spells (ends_textRest fs hrest) (hds.spells hrest hts)
    have hcomma : Spells (',' :: ' ' :: ((text f).toList ++ ((textRest fs).toList ++ rest)))
        (.comma :: (d.tokens ++ (Derivation.tokensRest ds ++ ts))) :=
      .comma (.separator (by decide) hspelled)
    simpa [textRest, String.toList_append, Derivation.tokensRest] using hcomma

end

/-! ## Text reads back -/

/-- A text without blanks at its ends stays as it is. -/
theorem trim_eq_self {text : String} (hhead : ∀ c ∈ text.toList.head?, Text.isBlank c = false)
    (hlast : ∀ c ∈ text.toList.getLast?, Text.isBlank c = false) : Text.trim text = text := by
  have hdrop : ∀ cs : List Char, (∀ c ∈ cs.head?, Text.isBlank c = false) →
      Text.dropBlanks cs = cs := by
    intro cs hcs
    cases cs with
    | nil => rfl
    | cons c cs => simp [Text.dropBlanks, hcs c (by simp)]
  rw [Text.trim, Text.trimChars, hdrop _ hhead, hdrop _ (by simpa using hlast),
    List.reverse_reverse, String.ofList_toList]

/-- A function call starts with its name and ends with a parenthesis. -/
theorem trim_call {stem : String} {c : Char} {cs : List Char} (hstem : stem.toList = c :: cs)
    (hc : Text.isBlank c = false) (inner : String) :
    Text.trim (stem ++ inner ++ ")") = stem ++ inner ++ ")" := by
  refine trim_eq_self (fun d hd => ?_) (fun d hd => ?_)
  · have hcd : c = d := by simpa [String.toList_append, hstem] using hd
    rwa [← hcd]
  · rw [String.toList_append, show ")".toList = [')'] from rfl, List.getLast?_concat] at hd
    cases hd
    decide

theorem trim_text {f : Formula String} (hf : Printable f) : Text.trim (text f) = text f := by
  cases f with
  | var name =>
    rw [Printable] at hf
    rw [text]
    refine trim_eq_self (fun c hc => ?_) (fun c hc => ?_)
    · exact isBlank_of_isNameChar (isNameChar_of_isName hf c (List.mem_of_mem_head? hc))
    · exact isBlank_of_isNameChar (isNameChar_of_isName hf c (List.mem_of_mem_getLast? hc))
  | not f =>
    rw [text]
    exact trim_call (c := 'N') rfl (by decide) (text f)
  | and fs =>
    rw [text]
    exact trim_call (c := 'A') rfl (by decide) (textList fs)
  | or fs =>
    rw [text]
    exact trim_call (c := 'O') rfl (by decide) (textList fs)

/-- The text of a printable formula reads as the formula. -/
theorem parse_text {f : Formula String} (hf : Printable f) : parse (text f) = .ok f := by
  obtain ⟨d, hd⟩ := exists_derivedBy f hf
  have hspells : Spells ((text f).toList ++ []) (d.tokens ++ []) := hd.spells (by simp [Ends]) .nil
  rw [List.append_nil, List.append_nil] at hspells
  refine parse_eq_ok_iff.2 ⟨d, ?_, hd.value⟩
  rwa [trim_text hf]

/-! ## What is read is printable -/

mutual

theorem printable_value : ∀ d : Derivation, Printable d.value
  | .var _ hname => by
    rw [Derivation.value, Printable]
    exact hname
  | .negation _ _ part => by
    rw [Derivation.value, Printable]
    exact printable_value part
  | .junction c _ _ first more => by
    rw [Derivation.value]
    refine printable_unlessSingle (fun fs => ?_) (by simp) ?_
    · cases c <;> rw [Filter.formulaOf, Printable]
    · rw [AllPrintable]
      exact ⟨printable_value first, allPrintable_values more⟩

theorem allPrintable_values : ∀ ds : List Derivation, AllPrintable (Derivation.values ds)
  | [] => by
    rw [Derivation.values, AllPrintable]
    trivial
  | d :: ds => by
    rw [Derivation.values, AllPrintable]
    exact ⟨printable_value d, allPrintable_values ds⟩

end

/-- Every formula that is read from text is printable. -/
theorem printable_of_parse {text : String} {f : Formula String} (h : parse text = .ok f) :
    Printable f := by
  obtain ⟨d, -, rfl⟩ := parse_eq_ok_iff.1 h
  exact printable_value d

end StreamFilter.Formula
