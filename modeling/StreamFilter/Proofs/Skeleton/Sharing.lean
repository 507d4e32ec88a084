import StreamFilter.Proofs.Filter.Legible
import StreamFilter.Proofs.Skeleton.Atoms
set_option autoImplicit false

/-!
# Which conditions share a variable

Conditions share a variable if they have one text, which is target, operator and argument
with blanks between them.  Only the argument is quoted, and a target may hold blanks and
quotes where it is an extra target or a tag tree.  The argument can still be told from what
stands before it, and from there the operator can be read backwards, except for the word `cs`
at its beginning: this may be the last word of the target as well.  So two conditions share a
variable exactly if they are equal or differ in nothing but the side on which that word
stands, and vocabularies in which conditions never share are those without a target that is
another one followed by `cs` (`Variables.shares_iff`).
-/

namespace StreamFilter

/-! ## Headings -/

/-- An operator that ends in another one after a blank is the case sensitive form of it. -/
theorem Vocabulary.operators_sensitive : ∀ cs ∈ operators.map String.toList,
    ∀ ds ∈ operators.map String.toList, ' ' :: ds <:+ cs → cs = 'c' :: 's' :: ' ' :: ds := by
  decide +kernel

namespace Triple

/-- The text of a triple before its argument. -/
def heading (t : Triple) : List Char := t.target.toList ++ ' ' :: t.operator.toList

/-- A triple whose operator is that of another one with `cs` in front, which the other one has
at the end of its target. -/
def Shifted (s t : Triple) : Prop :=
  t.target = s.target ++ " cs" ∧ s.operator = "cs " ++ t.operator ∧ s.argument = t.argument

instance (s t : Triple) : Decidable (s.Shifted t) := inferInstanceAs (Decidable (_ ∧ _ ∧ _))

variable {v : Vocabulary} {s t : Triple}

theorem toList_text (t : Triple) : t.text.toList = t.heading ++
    (match t.argument with
      | some argument => ' ' :: Text.quoteChars argument.toList
      | none => []) := by
  obtain ⟨target, operator, _ | argument⟩ := t <;> simp [text, conditionText, heading]

theorem operator_mem_of_admitted (ht : t.admitted v = true) :
    t.operator.toList ∈ Vocabulary.operators.map String.toList := by
  rw [admitted, Bool.and_eq_true] at ht
  exact List.mem_map_of_mem (by simpa [Vocabulary.admitsOperator] using ht.2)

/-- What stands before an argument does not look as if it ended in one. -/
theorem heading_ne_append_quoteChars (ht : t.admitted v = true) (cs text : List Char) :
    t.heading ≠ cs ++ ' ' :: Text.quoteChars text := by
  intro h
  have hlast := congrArg List.getLast? h
  have hquote : (' ' :: t.operator.toList).getLast? = some '"' := by
    simpa [heading, Text.quoteChars, List.getLast?_cons] using hlast
  obtain hblank | hmem := List.mem_cons.1 (List.mem_of_getLast? hquote)
  · exact absurd hblank (by decide)
  · exact (Vocabulary.operators_plain _ (operator_mem_of_admitted ht)).1 hmem

/-- A text tells the argument from what stands before it. -/
theorem text_eq_iff_heading (hs : s.admitted v = true) (ht : t.admitted v = true) :
    s.text = t.text ↔ s.heading = t.heading ∧ s.argument = t.argument := by
  rw [← String.toList_inj, toList_text, toList_text]
  cases hsa : s.argument with
  | none =>
    cases hta : t.argument with
    | none => simp
    | some text => simpa using heading_ne_append_quoteChars hs _ _
  | some text =>
    cases hta : t.argument with
    | none => simpa using (heading_ne_append_quoteChars ht _ _).symm
    | some text' =>
      constructor
      · intro h
        obtain ⟨hheading, htext⟩ := Text.append_quoteChars_inj h
        exact ⟨hheading, by rw [String.toList_inj.1 htext]⟩
      · rintro ⟨hheading, htext⟩
        rw [hheading, Option.some.inj htext]

/-- A longer target that is followed by an operator as well goes on with `cs`. -/
theorem append_cs_of_heading (hs : s.admitted v = true) (ht : t.admitted v = true)
    {more : List Char} (htarget : t.target.toList = s.target.toList ++ more)
    (hoperator : ' ' :: s.operator.toList = more ++ ' ' :: t.operator.toList) :
    (s.target = t.target ∧ s.operator = t.operator) ∨
      (t.target = s.target ++ " cs" ∧ s.operator = "cs " ++ t.operator) := by
  cases more with
  | nil =>
    rw [List.append_nil, String.toList_inj] at htarget
    rw [List.nil_append, List.cons.injEq, String.toList_inj] at hoperator
    exact .inl ⟨htarget.symm, hoperator.2⟩
  | cons c more =>
    rw [List.cons_append, List.cons.injEq] at hoperator
    obtain ⟨rfl, hoperator⟩ := hoperator
    have hsensitive := Vocabulary.operators_sensitive _ (operator_mem_of_admitted hs) _
      (operator_mem_of_admitted ht) ⟨more, hoperator.symm⟩
    have hmore : more = ['c', 's'] := by
      rw [← List.append_left_inj (' ' :: t.operator.toList), ← hoperator, hsensitive]
      rfl
    subst hmore
    refine .inr ⟨String.toList_inj.1 ?_, String.toList_inj.1 ?_⟩
    · rw [htarget, String.toList_append]
      rfl
    · rw [hsensitive, String.toList_append]
      rfl

theorem heading_eq_of_shifted (htarget : t.target = s.target ++ " cs")
    (hoperator : s.operator = "cs " ++ t.operator) : s.heading = t.heading := by
  simp [heading, htarget, hoperator]

theorem heading_eq_iff (hs : s.admitted v = true) (ht : t.admitted v = true) :
    s.heading = t.heading ↔ (s.target = t.target ∧ s.operator = t.operator) ∨
      (t.target = s.target ++ " cs" ∧ s.operator = "cs " ++ t.operator) ∨
      (s.target = t.target ++ " cs" ∧ t.operator = "cs " ++ s.operator) := by
  constructor
  · intro h
    obtain ⟨more, htarget, hoperator⟩ | ⟨more, htarget, hoperator⟩ :=
      List.append_eq_append_iff.1 h
    · exact (append_cs_of_heading hs ht htarget hoperator).imp_right .inl
    · exact (append_cs_of_heading ht hs htarget hoperator).imp (fun h => ⟨h.1.symm, h.2.symm⟩) .inr
  · rintro (⟨htarget, hoperator⟩ | ⟨htarget, hoperator⟩ | ⟨htarget, hoperator⟩)
    · rw [heading, heading, htarget, hoperator]
    · exact heading_eq_of_shifted htarget hoperator
    · exact (heading_eq_of_shifted htarget hoperator).symm

/-- Triples with one text are equal, or one is the other with `cs` moved from its operator to
its target. -/
theorem text_eq_iff (hs : s.admitted v = true) (ht : t.admitted v = true) :
    s.text = t.text ↔ s = t ∨ s.Shifted t ∨ t.Shifted s := by
  rw [text_eq_iff_heading hs ht, heading_eq_iff hs ht]
  constructor
  · rintro ⟨⟨htarget, hoperator⟩ | ⟨htarget, hoperator⟩ | ⟨htarget, hoperator⟩, hargument⟩
    · obtain ⟨_, _, _⟩ := s
      exact .inl (by rw [mk.injEq]; exact ⟨htarget, hoperator, hargument⟩)
    · exact .inr (.inl ⟨htarget, hoperator, hargument⟩)
    · exact .inr (.inr ⟨htarget, hoperator, hargument.symm⟩)
  · rintro (rfl | ⟨htarget, hoperator, hargument⟩ | ⟨htarget, hoperator, hargument⟩)
    · exact ⟨.inl ⟨rfl, rfl⟩, rfl⟩
    · exact ⟨.inr (.inl ⟨htarget, hoperator⟩), hargument⟩
    · exact ⟨.inr (.inr ⟨htarget, hoperator⟩), hargument.symm⟩

end Triple

/-! ## Vocabularies whose conditions do not share -/

namespace Vocabulary

/-- Whether no target is another one followed by `cs`. -/
def Separates (v : Vocabulary) : Prop :=
  ∀ stem, v.admitsTarget stem = true → v.admitsTarget (stem ++ " cs") = false

/-- No target of the tables ends in `cs` after a blank. -/
theorem lookup?_append_cs (stem : String) : lookup? (stem ++ " cs") = none := by
  by_contra hfound
  have hplain := (plain_of_lookup? (Option.isSome_iff_ne_none.2 hfound)).2 ' ' (by simp)
  exact hplain.1 rfl

theorem admitsTarget_of_isTagTree {v : Vocabulary} {x : String} (hv : v.dialect = .query)
    (hx : isTagTree x = true) : v.admitsTarget x = true := by
  simp [admitsTarget, hv, hx]

/-- Tag trees may always be followed by `cs`, and of the other targets only extra ones end in
it. -/
theorem separates_iff (v : Vocabulary) : v.Separates ↔ v.dialect ≠ .query ∧
    ∀ stem, stem ++ " cs" ∈ v.extraTargets → v.admitsTarget stem = false := by
  constructor
  · intro h
    refine ⟨fun hquery => ?_, fun stem hstem => ?_⟩
    · have hshort := admitsTarget_of_isTagTree (x := "interaction.tag_tree.x") hquery (by decide)
      have hlong := admitsTarget_of_isTagTree (x := "interaction.tag_tree.x" ++ " cs") hquery
        (by decide)
      exact Bool.false_ne_true ((h _ hshort).symm.trans hlong)
    · cases hadmitted : v.admitsTarget stem with
      | false => rfl
      | true =>
        have hlong : v.admitsTarget (stem ++ " cs") = true := by simp [admitsTarget, hstem]
        exact absurd ((h stem hadmitted).symm.trans hlong) Bool.false_ne_true
  · rintro ⟨hdialect, hextra⟩ stem hstem
    by_contra hlong
    rw [Bool.not_eq_false, admitsTarget, lookup?_append_cs] at hlong
    have hmem : stem ++ " cs" ∈ v.extraTargets := by
      cases hkind : v.dialect with
      | generic | interaction => simpa [hkind] using hlong
      | query => exact absurd hkind hdialect
    exact Bool.false_ne_true ((hextra stem hmem).symm.trans hstem)

/-- Texts tell conditions apart exactly in the vocabularies that separate targets. -/
theorem separates_iff_text_inj (v : Vocabulary) : v.Separates ↔ ∀ s t : Triple,
    s.admitted v = true → t.admitted v = true → s.text = t.text → s = t := by
  constructor
  · intro h s t hs ht htext
    have hclash : ∀ {s t : Triple}, s.admitted v = true → t.admitted v = true → ¬ s.Shifted t := by
      rintro s t hs ht ⟨htarget, -, -⟩
      rw [Triple.admitted, Bool.and_eq_true] at hs ht
      rw [htarget, h _ hs.1] at ht
      exact Bool.false_ne_true ht.1
    obtain heq | hshift | hshift := (Triple.text_eq_iff hs ht).1 htext
    · exact heq
    · exact absurd hshift (hclash hs ht)
    · exact absurd hshift (hclash ht hs)
  · intro h stem hstem
    by_contra hlong
    rw [Bool.not_eq_false] at hlong
    have hs : (⟨stem, "cs contains", none⟩ : Triple).admitted v = true := by
      rw [Triple.admitted, hstem]
      rfl
    have ht : (⟨stem ++ " cs", "contains", none⟩ : Triple).admitted v = true := by
      rw [Triple.admitted, hlong]
      rfl
    have htext := (Triple.text_eq_iff hs ht).2 (.inr (.inl ⟨rfl, rfl, rfl⟩))
    have hoperator : "cs contains" = "contains" := congrArg Triple.operator (h _ _ hs ht htext)
    exact absurd hoperator (by decide)

end Vocabulary

/-! ## Sharing -/

namespace Variables

/-- Whether two triples that are registered one after the other get the same name. -/
def Shares (vs : Variables) (s t : Triple) : Prop :=
  ((vs.registerTriple s.text s).2.registerTriple t.text t).1 = (vs.registerTriple s.text s).1

instance (vs : Variables) (s t : Triple) : Decidable (vs.Shares s t) :=
  inferInstanceAs (Decidable (_ = _))

theorem Lists.registerTriple {texts : List String} {vs : Variables} (h : Lists texts vs)
    (t : Triple) : (vs.registerTriple t.text t).1 = renumber (texts ++ [t.text]) t.text ∧
      Lists (texts ++ [t.text]) (vs.registerTriple t.text t).2 :=
  h.register _ _ _

/-- Triples share a variable if they have one text, whatever was registered before. -/
theorem Lists.shares_iff_text {texts : List String} {vs : Variables} (h : Lists texts vs)
    (s t : Triple) : vs.Shares s t ↔ s.text = t.text := by
  obtain ⟨hs, hlists⟩ := h.registerTriple s
  obtain ⟨ht, -⟩ := hlists.registerTriple t
  have hmem : s.text ∈ texts ++ [s.text] := by simp
  rw [Shares, hs, ht, ← renumber_append hmem [t.text], renumber_inj (by simp), eq_comm]

/-- Two triples that a vocabulary admits share a variable exactly if they are equal or differ in
nothing but the side on which the word `cs` stands between target and operator.  So no two
triples share one exactly if tag trees are not targets and no extra target is another target
followed by `cs`. -/
theorem shares_iff (v : Vocabulary) {texts : List String} {vs : Variables}
    (hvs : vs.Lists texts) :
    (∀ s t : Triple, s.admitted v = true → t.admitted v = true →
      (vs.Shares s t ↔ s.text = t.text) ∧
      (s.text = t.text ↔ s = t ∨ s.Shifted t ∨ t.Shifted s)) ∧
    ((∀ s t : Triple, s.admitted v = true → t.admitted v = true → vs.Shares s t → s = t) ↔
      v.dialect ≠ .query ∧
        ∀ stem, stem ++ " cs" ∈ v.extraTargets → v.admitsTarget stem = false) := by
  refine ⟨fun s t hs ht => ⟨hvs.shares_iff_text s t, Triple.text_eq_iff hs ht⟩, ?_⟩
  simp only [hvs.shares_iff_text]
  rw [← Vocabulary.separates_iff_text_inj, Vocabulary.separates_iff]

/-- A case sensitive condition on a tag tree. -/
def sensitive : Triple := ⟨"interaction.tag_tree.x", "cs contains", some "a"⟩

/-- A condition on the tag tree whose name has one more word. -/
def longNamed : Triple := ⟨"interaction.tag_tree.x cs", "contains", some "a"⟩

/-- A table with a verbatim text in it. -/
def begun : Variables := (Variables.register {} "r" (.raw "r") (.not [.raw "r"])).2

theorem shares_iff_sensitive : begun.Lists ["r"] ∧ begun.Shares sensitive longNamed ∧
    ¬ ∀ s t : Triple, s.admitted ⟨.query, []⟩ = true → t.admitted ⟨.query, []⟩ = true →
      begun.Shares s t → s = t := by
  have hbegun : begun.Lists ["r"] := (lists_empty.register _ _ _).2
  obtain ⟨hshares, hseparates⟩ := shares_iff ⟨.query, []⟩ hbegun
  obtain ⟨hname, htext⟩ := hshares sensitive longNamed (by decide +kernel) (by decide +kernel)
  exact ⟨hbegun, hname.2 (htext.2 (.inr (.inl ⟨rfl, rfl, rfl⟩))),
    fun h => (hseparates.1 h).1 rfl⟩

/-- Not every two conditions with one text are equal. -/
theorem text_not_injective : ¬ ∀ (v : Vocabulary) (s t : Triple),
    s.admitted v = true → t.admitted v = true → s.text = t.text → s = t := by
  intro h
  have heq := h ⟨.query, []⟩ sensitive longNamed (by decide +kernel) (by decide +kernel) rfl
  exact absurd heq (by decide)

end Variables

end StreamFilter
