import StreamFilter.Proofs.Skeleton.Renumber
set_option autoImplicit false

/-!
# The variables of a skeleton are the atoms of the filter

Extraction hands out names while it walks a filter, and the formula is put together from
them.  Both follow the order in which the atoms of the filter stand there: at any time the
table holds the atoms met so far, each once, and the formula spells them with the names of
their places (`Variables.Named`).  So the table of a skeleton lists the atoms of the filter
in the order of first appearance, and the formula has their variables in the same order
(`Filter.skeleton_lists_atoms`).
-/

namespace StreamFilter

namespace Variables

/-! ## Tables that list texts -/

/-- A table holds given texts, each once and in the order of first appearance, and names its
variables by their places. -/
structure Lists (texts : List String) (vs : Variables) : Prop where
  texts : vs.entries.map (·.text) = texts.eraseDups
  names : vs.entries.map (·.name) = (List.range vs.size).map nameAt

variable {seen met more : List String} {vs ws us : Variables} {text : String}

theorem lists_empty : Lists [] {} := ⟨rfl, rfl⟩

theorem Lists.size_eq (h : Lists seen vs) : vs.size = seen.eraseDups.length := by
  rw [← h.texts, List.length_map, VariableIndex.size_eq]

/-- The variable at a place has the text that is listed there, and the name of the place. -/
theorem Lists.entry (h : Lists seen vs) {i : Nat} {x : Variable} (hx : vs.entries[i]? = some x) :
    seen.eraseDups[i]? = some x.text ∧ x.name = nameAt i := by
  refine ⟨?_, name_eq hx⟩
  rw [← h.texts, List.getElem?_map, hx]
  rfl

/-- A text that is listed finds the name of its place. -/
theorem Lists.nameOf?_of_mem (h : Lists seen vs) (hmem : text ∈ seen) :
    vs.nameOf? text = some (renumber seen text) := by
  have hplace := getElem?_idxOf_eraseDups hmem
  rw [← h.texts, List.getElem?_map, Option.map_eq_some_iff] at hplace
  obtain ⟨x, hx, rfl⟩ := hplace
  rw [nameOf?_text hx, renumber, h.texts]

theorem Lists.nameOf?_of_not_mem (h : Lists seen vs) (hmem : text ∉ seen) :
    vs.nameOf? text = none := by
  rw [nameOf?_eq_none_iff]
  intro x hx htext
  apply hmem
  rw [← List.mem_eraseDups, ← h.texts]
  exact List.mem_map.2 ⟨x, hx, htext⟩

/-- Registering a text gives the name of its place, and lists it if it was not. -/
theorem Lists.register (h : Lists seen vs) (text : String) (stated denied : Filter) :
    (vs.register text stated denied).1 = renumber (seen ++ [text]) text ∧
      Lists (seen ++ [text]) (vs.register text stated denied).2 := by
  by_cases hmem : text ∈ seen
  · rw [register_of_known (h.nameOf?_of_mem hmem), renumber_append hmem]
    refine ⟨rfl, ?_, h.names⟩
    rw [eraseDups_append_singleton_of_mem hmem]
    exact h.texts
  · obtain ⟨hname, hentries⟩ := register_of_new (h.nameOf?_of_not_mem hmem) stated denied
    have hnew := eraseDups_append_singleton hmem
    refine ⟨?_, ?_, ?_⟩
    · rw [hname, renumber, hnew, List.idxOf_append, if_neg (by rwa [List.mem_eraseDups]),
        h.size_eq]
      simp
    · rw [hentries, hnew, List.map_append, h.texts]
      rfl
    · rw [VariableIndex.size_eq, hentries, List.map_append, h.names, List.length_append,
        List.length_singleton, List.range_succ, List.map_append, VariableIndex.size_eq]
      rfl

/-! ## Names handed out on the way -/

/-- What a walk has come to that found some texts seen and met others: a table that lists them
all, and the names of the ones met. -/
structure Named (seen met : List String) (vs : Variables) (names : List String) : Prop where
  lists : Lists (seen ++ met) vs
  names : names = met.map (renumber (seen ++ met))

theorem named_nil (h : Lists seen vs) : Named seen [] vs [] :=
  ⟨by rwa [List.append_nil], rfl⟩

theorem Lists.named (h : Lists seen vs) (text : String) (stated denied : Filter) :
    Named seen [text] (vs.register text stated denied).2
      [(vs.register text stated denied).1] := by
  obtain ⟨hname, hlists⟩ := h.register text stated denied
  exact ⟨hlists, by rw [hname, List.map_singleton]⟩

/-- Names stay what they are while the walk goes on. -/
theorem Named.append {names others : List String} (h : Named seen met ws names)
    (h' : Named (seen ++ met) more us others) : Named seen (met ++ more) us (names ++ others) := by
  refine ⟨?_, ?_⟩
  · rw [← List.append_assoc]
    exact h'.lists
  · have hkept : met.map (renumber (seen ++ met)) = met.map (renumber (seen ++ (met ++ more))) := by
      refine List.map_congr_left fun text htext => ?_
      rw [← List.append_assoc, renumber_append (List.mem_append_right seen htext)]
    rw [h.names, h'.names, List.map_append, hkept, List.append_assoc]

theorem renumber_inj {s t : String} (hs : s ∈ seen) :
    renumber seen s = renumber seen t ↔ s = t := by
  refine ⟨fun h => ?_, fun h => by rw [h]⟩
  exact (List.idxOf_inj (List.mem_eraseDups.2 hs)).1 (nameAt_injective h)

/-- The names of texts in order, each once, are those of the places. -/
theorem eraseDups_map_renumber (texts : List String) :
    (texts.map (renumber texts)).eraseDups = (List.range texts.eraseDups.length).map nameAt := by
  rw [Formula.eraseDups_map texts fun s hs t _ => (renumber_inj hs).1]
  refine List.ext_getElem (by simp) fun i hi _ => ?_
  rw [List.length_map] at hi
  rw [List.getElem_map, List.getElem_map, List.getElem_range, renumber,
    (Formula.nodup_eraseDups texts).idxOf_getElem i hi]

end Variables

namespace Filter

open Variables (Lists Named)

variable {v : Vocabulary} {vs : Variables} {seen : List String}

/-! ## Walking a filter -/

mutual

/-- Whether groups, and negations that hold no triple, have exactly one child. -/
def hasSoleParts : Filter → Bool
  | and cs | or cs => allHaveSoleParts cs
  | group [f] => hasSoleParts f
  | group _ => false
  | not [f] => startsWithTarget [f] || hasSoleParts f
  | not cs => startsWithTarget cs
  | _ => true

/-- Whether this is so for every filter of a list. -/
def allHaveSoleParts : List Filter → Bool
  | [] => true
  | f :: fs => hasSoleParts f && allHaveSoleParts fs

end

theorem named_registerAll (hvs : Lists seen vs) (ts : List Triple) :
    Named seen (ts.map Triple.text) (registerAll vs ts).2
      ((registerAll vs ts).1.flatMap Formula.occurrences) := by
  induction ts generalizing seen vs with
  | nil => exact Variables.named_nil hvs
  | cons t ts ih =>
    have hfirst := hvs.named t.text (condition (ofTriple t)) (not (ofTriple t))
    exact hfirst.append (ih hfirst.lists)

/-- A triple gets a variable for each of its atoms. -/
theorem named_extractTriple {kind : Kind} {cs : List Filter} {r : Formula String × Variables}
    (h : extractTriple v kind cs vs = .ok r) (hvs : Lists seen vs) :
    Named seen (condition cs).occurrences r.2 r.1.occurrences := by
  obtain ⟨t, ht, -, -, ⟨c, parts, hexpansion, rfl⟩ | ⟨hexpansion, rfl⟩⟩ := extractTriple_eq_ok h
  · have hatoms : t.atoms = parts.map Triple.text := by rw [Triple.atoms, hexpansion]
    rw [occurrences_condition ht, hatoms,
      Formula.occurrences_unlessSingle (Formula.occurrences_formulaOf c)]
    exact named_registerAll hvs parts
  · have hatoms : t.atoms = [t.text] := by rw [Triple.atoms, hexpansion]
    rw [occurrences_condition ht, hatoms, Formula.occurrences]
    exact hvs.named _ _ _

theorem named_not_target {cs : List Filter} (hstart : startsWithTarget cs = true)
    {r : Formula String × Variables} (h : extractWith v (not cs) vs = .ok r)
    (hvs : Lists seen vs) : Named seen (not cs).occurrences r.2 r.1.occurrences := by
  rw [extractWith_not_target hstart] at h
  obtain ⟨⟨f, ws⟩, hf, h⟩ := exists_of_bind_eq_ok h
  obtain rfl := Except.ok.inj h
  rw [occurrences_not_target hstart, Formula.occurrences]
  exact named_extractTriple (r := (f, ws)) hf hvs

mutual

/-- Walking a filter gives its atoms their names in the order in which they stand there. -/
theorem named_extractWith : ∀ (f : Filter) {vs : Variables} {seen : List String}
    {r : Formula String × Variables}, hasSoleParts f = true → extractWith v f vs = .ok r →
      Lists seen vs → Named seen f.occurrences r.2 r.1.occurrences
  | and cs, vs, seen, r, hf, h, hvs => by
    rw [hasSoleParts] at hf
    rw [extractWith] at h
    obtain ⟨_, -, h⟩ := exists_of_bind_eq_ok h
    obtain ⟨⟨fs, ws⟩, hfs, h⟩ := exists_of_bind_eq_ok h
    obtain rfl := Except.ok.inj h
    rw [occurrences, Formula.occurrences]
    exact named_extractAll cs hf hfs hvs
  | or cs, vs, seen, r, hf, h, hvs => by
    rw [hasSoleParts] at hf
    rw [extractWith] at h
    obtain ⟨_, -, h⟩ := exists_of_bind_eq_ok h
    obtain ⟨⟨fs, ws⟩, hfs, h⟩ := exists_of_bind_eq_ok h
    obtain rfl := Except.ok.inj h
    rw [occurrences, Formula.occurrences]
    exact named_extractAll cs hf hfs hvs
  | not [c], vs, seen, r, hf, h, hvs => by
    cases hstart : startsWithTarget [c] with
    | true => exact named_not_target hstart h hvs
    | false =>
      rw [hasSoleParts, hstart, Bool.false_or] at hf
      rw [extractWith_not hstart] at h
      obtain ⟨_, -, h⟩ := exists_of_bind_eq_ok h
      obtain ⟨⟨f, ws⟩, hc, h⟩ := exists_of_bind_eq_ok h
      obtain rfl := Except.ok.inj h
      rw [occurrences_not_singleton, Formula.occurrences]
      exact named_extractWith c (r := (f, ws)) hf hc hvs
  | not (c :: d :: cs), vs, seen, r, hf, h, hvs => by
    have hstart : startsWithTarget (c :: d :: cs) = true := by simpa [hasSoleParts] using hf
    exact named_not_target hstart h hvs
  | group [c], vs, seen, r, hf, h, hvs => by
    rw [hasSoleParts] at hf
    rw [extractWith] at h
    obtain ⟨_, -, h⟩ := exists_of_bind_eq_ok h
    rw [occurrences, occurrencesAll, occurrencesAll, List.append_nil]
    exact named_extractWith c hf h hvs
  | condition cs, vs, seen, r, _, h, hvs => by
    rw [extractWith] at h
    exact named_extractTriple h hvs
  | raw text, vs, seen, r, _, h, hvs => by
    rw [extractWith] at h
    obtain rfl := Except.ok.inj h
    rw [occurrences, Formula.occurrences]
    exact hvs.named text (raw text) (not [raw text])
  | not [], _, _, _, _, h, _ | group [], _, _, _, _, h, _ | target _, _, _, _, _, h, _
  | operator _, _, _, _, _, h, _ | argument _, _, _, _, _, h, _ | string _, _, _, _, _, h, _ => by
    rw [extractWith] at h
    cases h
  | group (_ :: _ :: _), _, _, _, hf, _, _ => by simp [hasSoleParts] at hf

/-- Walking the parts of a connective names their atoms one part after the other. -/
theorem named_extractAll : ∀ (cs : List Filter) {parent : Kind} {vs : Variables}
    {seen : List String} {r : List (Formula String) × Variables}, allHaveSoleParts cs = true →
      extractAll v parent cs vs = .ok r → Lists seen vs →
        Named seen (occurrencesAll cs) r.2 (Formula.occurrencesAll r.1)
  | [], parent, vs, seen, r, _, h, hvs => by
    rw [extractAll] at h
    obtain rfl := Except.ok.inj h
    exact Variables.named_nil hvs
  | c :: cs, parent, vs, seen, r, hf, h, hvs => by
    rw [allHaveSoleParts, Bool.and_eq_true] at hf
    rw [extractAll] at h
    obtain ⟨_, -, h⟩ := exists_of_bind_eq_ok h
    obtain ⟨⟨f, ws⟩, hc, h⟩ := exists_of_bind_eq_ok h
    obtain ⟨⟨fs, us⟩, hcs, h⟩ := exists_of_bind_eq_ok h
    obtain rfl := Except.ok.inj h
    have hfirst := named_extractWith c hf.1 hc hvs
    rw [occurrencesAll, Formula.occurrencesAll]
    exact hfirst.append (named_extractAll cs hf.2 hcs hfirst.lists)

end

theorem named_of_skeleton {f : Filter} {s : Skeleton} (hf : f.hasSoleParts = true)
    (hs : f.skeleton v = .ok (some s)) :
    Named [] f.occurrences s.table s.formula.occurrences := by
  unfold skeleton at hs
  split at hs
  · cases hs
  · obtain ⟨⟨formula, table⟩, hwalk, hs⟩ := exists_of_bind_eq_ok hs
    obtain rfl := Option.some.inj (Except.ok.inj hs)
    exact named_extractWith f hf hwalk Variables.lists_empty

/-- Let groups, and negations that hold no triple, have exactly one child in a filter with a
skeleton.  The variables of the skeleton are named by their places and stand for the atoms of
the filter, each for another one, in the order of first appearance; the formula has exactly
these variables and in this order. -/
theorem skeleton_lists_atoms (v : Vocabulary) {f : Filter} {s : Skeleton}
    (hs : f.skeleton v = .ok (some s)) (hf : f.hasSoleParts = true) :
    s.table.entries.map (·.name) = (List.range s.table.size).map Variables.nameAt ∧
      s.table.entries.map (·.text) = f.occurrences.eraseDups ∧
      (s.table.entries.map (·.text)).Nodup ∧
      (∀ atom, atom ∈ s.table.entries.map (·.text) ↔ atom ∈ f.atoms) ∧
      s.formula.vars = s.table.entries.map (·.name) := by
  obtain ⟨hlists, hnames⟩ := named_of_skeleton hf hs
  rw [List.nil_append] at hlists hnames
  refine ⟨hlists.names, hlists.texts, ?_, ?_, ?_⟩
  · rw [hlists.texts]
    exact Formula.nodup_eraseDups _
  · intro atom
    rw [hlists.texts, List.mem_eraseDups, mem_atoms]
  · rw [Formula.vars, hnames, Variables.eraseDups_map_renumber, hlists.names, hlists.size_eq]

/-- Verbatim text that is the atom of a word in two lists, one stated and one denied. -/
def recurring : Filter :=
  and [not [group [raw "fb.content contains \"b\""]],
    condition [target "fb.content", operator "contains_any", argument (string "a,b")],
    not [target "fb.content", operator "contains_all", argument (string "b,c")]]

/-- The skeleton of that filter, in which the verbatim text comes first. -/
def recurringSkeleton : Skeleton :=
  ⟨.and [.not (.var "v1"), .or [.var "v2", .var "v1"], .not (.and [.var "v1", .var "v3"])],
    .registered [⟨"fb.content contains \"b\"", raw "fb.content contains \"b\"",
        not [raw "fb.content contains \"b\""]⟩,
      ⟨"fb.content contains \"a\"",
        condition (ofTriple (.containing "fb.content" "a")),
        not (ofTriple (.containing "fb.content" "a"))⟩,
      ⟨"fb.content contains \"c\"",
        condition (ofTriple (.containing "fb.content" "c")),
        not (ofTriple (.containing "fb.content" "c"))⟩]⟩

theorem skeleton_lists_atoms_recurring :
    recurring.skeleton {} = .ok (some recurringSkeleton) ∧ recurring.hasSoleParts = true ∧
      (∀ atom, atom ∈ recurringSkeleton.table.entries.map (·.text) ↔ atom ∈ recurring.atoms) ∧
      recurringSkeleton.formula.vars = ["v1", "v2", "v3"] := by
  have hs : recurring.skeleton {} = .ok (some recurringSkeleton) := rfl
  obtain ⟨-, -, -, hatoms, hvars⟩ := skeleton_lists_atoms {} hs rfl
  exact ⟨hs, rfl, hatoms, hvars⟩

end Filter

end StreamFilter
