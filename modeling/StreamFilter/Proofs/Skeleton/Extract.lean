import StreamFilter.Proofs.Skeleton.Variables
import StreamFilter.Skeleton.Extract
set_option autoImplicit false

/-!
# The skeleton of a filter means what the filter means

While a filter is walked, its table of variables only grows, and the formula found so far
keeps its value (`Formula.Describes.mono`).  So the formula of a whole filter, read through
the table, has the value of the filter (`Filter.describes_of_skeleton`); it is also
printable, so that its text reads back, and all its variables are in the table.
-/

namespace StreamFilter

/-- A table that has been added to and is still sound. -/
structure Variables.Grown (v : Vocabulary) (vs ws : Variables) : Prop where
  sound : ws.Sound v
  added : vs.entries <+: ws.entries

theorem Variables.Grown.trans {v : Vocabulary} {vs ws us : Variables} (h : Grown v vs ws)
    (h' : Grown v ws us) : Grown v vs us :=
  ⟨h'.sound, h.added.trans h'.added⟩

namespace Formula

/-- A printable formula over the variables of a table, with its value in terms of atoms. -/
structure Describes (vs : Variables) (f : Formula String) (value : (String → Bool) → Bool) :
    Prop where
  printable : Printable f
  known : ∀ name ∈ f.occurrences, ∃ x, vs.find? name = some x
  value : ∀ truths, f.holds (vs.truth truths) = value truths

/-- The same for a list of formulas. -/
structure DescribesAll (vs : Variables) (fs : List (Formula String))
    (values : (String → Bool) → List Bool) : Prop where
  printable : ∀ f ∈ fs, Printable f
  known : ∀ f ∈ fs, ∀ name ∈ f.occurrences, ∃ x, vs.find? name = some x
  values : ∀ truths, fs.map (holds (vs.truth truths)) = values truths

variable {vs ws : Variables} {f : Formula String} {fs : List (Formula String)}
  {value : (String → Bool) → Bool} {values : (String → Bool) → List Bool}

/-- A formula over known variables keeps its value while variables are added. -/
theorem holds_truth_of_added (hvs : vs.entries <+: ws.entries)
    (hf : ∀ name ∈ f.occurrences, ∃ x, vs.find? name = some x) (truths : String → Bool) :
    f.holds (ws.truth truths) = f.holds (vs.truth truths) := by
  refine holds_congr f fun name hname => ?_
  obtain ⟨x, hx⟩ := hf name hname
  rw [Variables.truth_of_find? hx, Variables.truth_of_find? (Variables.find?_of_added hvs hx)]

theorem Describes.mono (h : Describes vs f value) (hvs : vs.entries <+: ws.entries) :
    Describes ws f value where
  printable := h.printable
  known name hname := by
    obtain ⟨x, hx⟩ := h.known name hname
    exact ⟨x, Variables.find?_of_added hvs hx⟩
  value truths := by rw [holds_truth_of_added hvs h.known, h.value]

theorem Describes.congr {value' : (String → Bool) → Bool} (h : Describes vs f value)
    (hvalue : ∀ truths, value truths = value' truths) : Describes vs f value' :=
  ⟨h.printable, h.known, fun truths => by rw [h.value, hvalue]⟩

theorem describesAll_nil (vs : Variables) : DescribesAll vs [] fun _ => [] :=
  ⟨by simp, by simp, by simp⟩

theorem Describes.cons (h : Describes vs f value) (hs : DescribesAll vs fs values) :
    DescribesAll vs (f :: fs) fun truths => value truths :: values truths where
  printable := List.forall_mem_cons.2 ⟨h.printable, hs.printable⟩
  known := List.forall_mem_cons.2 ⟨h.known, hs.known⟩
  values truths := by rw [List.map_cons, h.value, hs.values]

theorem Describes.not (h : Describes vs f value) :
    Describes vs (.not f) fun truths => !value truths where
  printable := by rw [Printable]; exact h.printable
  known := by rw [occurrences]; exact h.known
  value truths := by rw [holds, h.value]

theorem describes_var {name : String} {x : Variable} (hx : vs.find? name = some x)
    (hname : isName name = true) : Describes vs (.var name) fun truths => truths x.text where
  printable := by rw [Printable]; exact hname
  known := by
    intro y hy
    rw [occurrences, List.mem_singleton] at hy
    rw [hy]
    exact ⟨x, hx⟩
  value truths := by rw [holds, Variables.truth_of_find? hx]

theorem holds_unlessSingle_formulaOf (c : Connective) (truth : String → Bool)
    (fs : List (Formula String)) :
    (unlessSingle (Filter.formulaOf c) fs).holds truth = c.value (holds truth) fs := by
  cases c with
  | and => exact holds_unlessSingle_and truth fs
  | or => exact holds_unlessSingle_or truth fs

theorem occurrences_formulaOf (c : Connective) (fs : List (Formula String)) :
    (Filter.formulaOf c fs).occurrences = occurrencesAll fs := by
  cases c <;> rw [Filter.formulaOf, occurrences]

/-- Formulas joined by a connective have the value of the connective. -/
theorem DescribesAll.unlessSingle (h : DescribesAll vs fs values) (hne : fs ≠ [])
    (c : Connective) : Describes vs (unlessSingle (Filter.formulaOf c) fs) fun truths =>
      c.value id (values truths) where
  printable := by
    refine printable_unlessSingle ?_ hne (allPrintable_iff.2 h.printable)
    intro gs
    cases c <;> rw [Filter.formulaOf, Printable]
  known := by
    intro name hname
    rw [occurrences_unlessSingle (occurrences_formulaOf c), List.mem_flatMap] at hname
    obtain ⟨g, hg, hname⟩ := hname
    exact h.known g hg name hname
  value truths := by
    rw [holds_unlessSingle_formulaOf, ← h.values, Connective.value_map]
    rfl

end Formula

namespace Filter

open Variables (Grown Sound)
open Formula (Describes DescribesAll)

variable {v : Vocabulary} {vs : Variables}

/-! ## Triples -/

/-- A name that has just been registered is a formula for its atom. -/
theorem describes_registered {ws : Variables} {name text : String}
    (h : ∃ x, ws.find? name = some x ∧ x.text = text) :
    Describes ws (.var name) fun truths => truths text := by
  obtain ⟨x, hx, rfl⟩ := h
  obtain ⟨hmem, rfl⟩ := Variables.mem_of_find? hx
  exact Formula.describes_var hx (Variables.isName_of_mem hmem)

theorem describes_registerAll {ts : List Triple}
    (hts : ∀ t ∈ ts, t.expansion? = none ∧ v.admitsTarget t.target = true ∧
      v.admitsOperator t.operator = true)
    (hvs : Sound v vs) :
    Grown v vs (registerAll vs ts).2 ∧
      DescribesAll (registerAll vs ts).2 (registerAll vs ts).1 fun truths =>
        ts.map fun t => truths t.text := by
  induction ts generalizing vs with
  | nil => exact ⟨⟨hvs, List.prefix_refl _⟩, Formula.describesAll_nil vs⟩
  | cons t ts ih =>
    obtain ⟨⟨ht, htarget, hoperator⟩, hts⟩ := List.forall_mem_cons.1 hts
    rw [registerAll]
    obtain ⟨hsound, hadded, hname⟩ := hvs.registerTriple ht htarget hoperator
    obtain ⟨hgrown, hrest⟩ := ih hts hsound
    refine ⟨⟨hgrown.sound, hadded.trans hgrown.added⟩, ?_⟩
    exact ((describes_registered hname).mono hgrown.added).cons hrest

theorem requireTriple_eq_ok {kind : Kind} {cs : List Filter} {t : Triple}
    (h : requireTriple kind cs = .ok t) : triple? cs = some t := by
  unfold requireTriple at h
  split at h
  next s hs =>
    rw [hs, Except.ok.inj h]
  next => cases h

theorem csdl_triple_eq_ok {t : Triple} {text : String} (h : t.csdl v = .ok text) :
    v.admitsTarget t.target = true ∧ v.admitsOperator t.operator = true ∧ text = t.text := by
  unfold Triple.csdl at h
  split at h
  next htarget =>
    split at h
    next hoperator => exact ⟨htarget, hoperator, (Except.ok.inj h).symm⟩
    next => cases h
  next => cases h

theorem admitsOperator_contains (v : Vocabulary) : v.admitsOperator "contains" = true := by
  simp [Vocabulary.admitsOperator, Vocabulary.operators]

/-- The parts of an admitted list condition are admitted, and there is one at least. -/
theorem admits_of_mem_expansion {t : Triple} {c : Connective} {parts : List Triple}
    (h : t.expansion? = some (c, parts)) (htarget : v.admitsTarget t.target = true) :
    ∀ p ∈ parts, p.expansion? = none ∧ v.admitsTarget p.target = true ∧
      v.admitsOperator p.operator = true := by
  obtain ⟨list, -, rfl, -⟩ := Triple.expansion?_eq_some h
  intro p hp
  obtain ⟨word, -, rfl⟩ := List.mem_map.1 hp
  exact ⟨Triple.expansion?_containing _ _, htarget, admitsOperator_contains v⟩

theorem expansion_ne_nil {t : Triple} {c : Connective} {parts : List Triple}
    (h : t.expansion? = some (c, parts)) : parts ≠ [] := by
  obtain ⟨list, -, rfl, -⟩ := Triple.expansion?_eq_some h
  simp [Text.WordList.words, Text.WordList.encodedWords_ne_nil]

theorem length_registerAll (vs : Variables) (ts : List Triple) :
    (registerAll vs ts).1.length = ts.length := by
  induction ts generalizing vs with
  | nil => rfl
  | cons t ts ih => rw [registerAll, List.length_cons, List.length_cons, ih]

/-- What extracting a triple amounts to, once its names are known. -/
theorem extractTriple_eq_ok {kind : Kind} {cs : List Filter} {r : Formula String × Variables}
    (h : extractTriple v kind cs vs = .ok r) :
    ∃ t, triple? cs = some t ∧ v.admitsTarget t.target = true ∧
      v.admitsOperator t.operator = true ∧
      ((∃ c parts, t.expansion? = some (c, parts) ∧
        r = (Formula.unlessSingle (formulaOf c) (registerAll vs parts).1, (registerAll vs parts).2)) ∨
      (t.expansion? = none ∧ r = (.var (vs.registerTriple t.text t).1,
        (vs.registerTriple t.text t).2))) := by
  unfold extractTriple at h
  obtain ⟨t, ht, h⟩ := exists_of_bind_eq_ok h
  obtain ⟨text, htext, h⟩ := exists_of_bind_eq_ok h
  obtain ⟨htarget, hoperator, rfl⟩ := csdl_triple_eq_ok htext
  refine ⟨t, requireTriple_eq_ok ht, htarget, hoperator, ?_⟩
  split at h
  next c parts hexpansion =>
    exact .inl ⟨c, parts, hexpansion, (Except.ok.inj h).symm⟩
  next hexpansion => exact .inr ⟨hexpansion, (Except.ok.inj h).symm⟩

theorem describes_extractTriple {kind : Kind} {cs : List Filter} {r : Formula String × Variables}
    (h : extractTriple v kind cs vs = .ok r) (hvs : Sound v vs) :
    Grown v vs r.2 ∧ Describes r.2 r.1 fun truths => (triple? cs).any (·.holds truths) := by
  obtain ⟨t, ht, htarget, hoperator, ⟨c, parts, hexpansion, rfl⟩ | ⟨hexpansion, rfl⟩⟩ :=
    extractTriple_eq_ok h
  · obtain ⟨hgrown, hparts⟩ :=
      describes_registerAll (admits_of_mem_expansion hexpansion htarget) hvs
    have hne : (registerAll vs parts).1 ≠ [] := by
      rw [← List.length_pos_iff, length_registerAll, List.length_pos_iff]
      exact expansion_ne_nil hexpansion
    refine ⟨hgrown, (hparts.unlessSingle hne c).congr fun truths => ?_⟩
    rw [ht, Connective.value_map]
    simp [Triple.holds, hexpansion]
  · obtain ⟨hsound, hadded, hname⟩ := hvs.registerTriple hexpansion htarget hoperator
    refine ⟨⟨hsound, hadded⟩, (describes_registered hname).congr fun truths => ?_⟩
    rw [ht]
    simp [Triple.holds, hexpansion]

/-! ## Filters -/

theorem requireTwo_eq_ok {parent : Kind} {cs : List Filter} {u : Unit}
    (h : requireTwo parent cs = .ok u) : 2 ≤ cs.length := by
  unfold requireTwo at h
  split at h
  · cases h
  next hlen => omega

/-- The formulas of the parts of a connective, joined. -/
theorem describes_join {ws : Variables} {cs : List Filter} {fs : List (Formula String)}
    (h : DescribesAll ws fs fun truths => cs.map (holds truths)) (hlen : 2 ≤ cs.length)
    (c : Connective) : Describes ws (formulaOf c fs) fun truths => (c.join cs).holds truths := by
  have hfs : 2 ≤ fs.length := by
    have hlengths := congrArg List.length (h.values fun _ => false)
    simp only [List.length_map] at hlengths
    omega
  rw [← Formula.unlessSingle_of_two_le (formulaOf c) hfs]
  refine (h.unlessSingle (List.ne_nil_of_length_pos (by omega)) c).congr fun truths => ?_
  rw [holds_join, Connective.value_map]
  rfl

theorem extractWith_not_target {cs : List Filter} (h : startsWithTarget cs = true) :
    extractWith v (not cs) vs = (do
      let (f, vs) ← extractTriple v .not cs vs
      return (.not f, vs)) := by
  match cs, h with
  | target _ :: _, _ => rw [extractWith]

theorem extractWith_not {c : Filter} {cs : List Filter} (h : startsWithTarget (c :: cs) = false) :
    extractWith v (not (c :: cs)) vs = (do
      requireBoolean .not c
      let (f, vs) ← extractWith v c vs
      return (.not f, vs)) := by
  rw [extractWith]
  rintro name rfl
  cases h

mutual

/-- Walking a filter gives a formula of its value. -/
theorem describes_extractWith : ∀ (f : Filter) {vs : Variables} {r : Formula String × Variables},
    extractWith v f vs = .ok r → Sound v vs →
      Grown v vs r.2 ∧ Describes r.2 r.1 fun truths => f.holds truths
  | and cs, vs, r, h, hvs => by
    rw [extractWith] at h
    obtain ⟨_, htwo, h⟩ := exists_of_bind_eq_ok h
    obtain ⟨⟨fs, ws⟩, hfs, h⟩ := exists_of_bind_eq_ok h
    obtain rfl := Except.ok.inj h
    obtain ⟨hgrown, hall⟩ := describesAll_extractAll cs hfs hvs
    exact ⟨hgrown, describes_join hall (requireTwo_eq_ok htwo) .and⟩
  | or cs, vs, r, h, hvs => by
    rw [extractWith] at h
    obtain ⟨_, htwo, h⟩ := exists_of_bind_eq_ok h
    obtain ⟨⟨fs, ws⟩, hfs, h⟩ := exists_of_bind_eq_ok h
    obtain rfl := Except.ok.inj h
    obtain ⟨hgrown, hall⟩ := describesAll_extractAll cs hfs hvs
    exact ⟨hgrown, describes_join hall (requireTwo_eq_ok htwo) .or⟩
  | not [], vs, r, h, hvs => by
    rw [extractWith] at h
    cases h
  | not (c :: cs), vs, r, h, hvs => by
    cases hstart : startsWithTarget (c :: cs) with
    | true =>
      rw [extractWith_not_target hstart] at h
      obtain ⟨⟨f, ws⟩, hf, h⟩ := exists_of_bind_eq_ok h
      obtain rfl := Except.ok.inj h
      obtain ⟨hgrown, hcs⟩ := describes_extractTriple hf hvs
      refine ⟨hgrown, hcs.not.congr fun truths => ?_⟩
      rw [holds_not_target truths hstart]
    | false =>
      rw [extractWith_not hstart] at h
      obtain ⟨_, -, h⟩ := exists_of_bind_eq_ok h
      obtain ⟨⟨f, ws⟩, hf, h⟩ := exists_of_bind_eq_ok h
      obtain rfl := Except.ok.inj h
      obtain ⟨hgrown, hc⟩ := describes_extractWith c hf hvs
      refine ⟨hgrown, hc.not.congr fun truths => ?_⟩
      rw [holds_not truths hstart, holds, firstHolds]
  | group [], vs, r, h, hvs => by
    rw [extractWith] at h
    cases h
  | group (c :: cs), vs, r, h, hvs => by
    rw [extractWith] at h
    obtain ⟨_, -, h⟩ := exists_of_bind_eq_ok h
    obtain ⟨hgrown, hc⟩ := describes_extractWith c h hvs
    refine ⟨hgrown, hc.congr fun truths => ?_⟩
    rw [holds, firstHolds]
  | condition cs, vs, r, h, hvs => by
    rw [extractWith] at h
    obtain ⟨hgrown, hcs⟩ := describes_extractTriple h hvs
    refine ⟨hgrown, hcs.congr fun truths => ?_⟩
    rw [holds]
  | raw text, vs, r, h, hvs => by
    rw [extractWith] at h
    obtain rfl := Except.ok.inj h
    obtain ⟨hsound, hadded, hname⟩ := hvs.register fun name =>
      (.inl ⟨rfl, rfl⟩ : Variable.IsAtom v ⟨name, text, raw text, not [raw text]⟩)
    refine ⟨⟨hsound, hadded⟩, (describes_registered hname).congr fun truths => ?_⟩
    rw [holds]
  | target _, _, _, h, _ | operator _, _, _, h, _ | argument _, _, _, h, _
  | string _, _, _, h, _ => by
    rw [extractWith] at h
    cases h

/-- Walking the parts of a connective gives formulas of their values. -/
theorem describesAll_extractAll : ∀ (cs : List Filter) {parent : Kind} {vs : Variables}
    {r : List (Formula String) × Variables}, extractAll v parent cs vs = .ok r → Sound v vs →
      Grown v vs r.2 ∧ DescribesAll r.2 r.1 fun truths => cs.map (holds truths)
  | [], parent, vs, r, h, hvs => by
    rw [extractAll] at h
    obtain rfl := Except.ok.inj h
    exact ⟨⟨hvs, List.prefix_refl _⟩, Formula.describesAll_nil vs⟩
  | c :: cs, parent, vs, r, h, hvs => by
    rw [extractAll] at h
    obtain ⟨_, -, h⟩ := exists_of_bind_eq_ok h
    obtain ⟨⟨f, ws⟩, hf, h⟩ := exists_of_bind_eq_ok h
    obtain ⟨⟨fs, us⟩, hfs, h⟩ := exists_of_bind_eq_ok h
    obtain rfl := Except.ok.inj h
    obtain ⟨hgrown, hfirst⟩ := describes_extractWith c hf hvs
    obtain ⟨hgrown', hrest⟩ := describesAll_extractAll cs hfs hgrown.sound
    exact ⟨hgrown.trans hgrown', (hfirst.mono hgrown'.added).cons hrest⟩

end

/-- The formula of a filter's skeleton, read through its table, has the filter's value. -/
theorem describes_of_skeleton {f : Filter} {s : Skeleton} (h : f.skeleton v = .ok (some s)) :
    s.table.Sound v ∧ Describes s.table s.formula fun truths => f.holds truths := by
  unfold skeleton at h
  split at h
  · cases h
  · obtain ⟨⟨formula, table⟩, hwalk, h⟩ := exists_of_bind_eq_ok h
    obtain rfl := Option.some.inj (Except.ok.inj h)
    obtain ⟨hgrown, hformula⟩ := describes_extractWith f hwalk (Variables.sound_empty v)
    exact ⟨hgrown.sound, hformula⟩

/-- Let each variable of a skeleton be true exactly if the text of its atom is among those
that hold.  There is such an assignment, and every such assignment gives the formula the
value of the filter.  The two filters that a variable stands for say that its text is among
them and that it is not. -/
theorem holds_skeleton (v : Vocabulary) {f : Filter} {s : Skeleton}
    (hs : f.skeleton v = .ok (some s)) (truths : String → Bool) :
    (∀ x ∈ s.table.entries, s.table.truth truths x.name = truths x.text) ∧
    (∀ truth : String → Bool, (∀ x ∈ s.table.entries, truth x.name = truths x.text) →
      s.formula.holds truth = f.holds truths) ∧
    ∀ x ∈ s.table.entries, x.stated.holds truths = truths x.text ∧
      x.denied.holds truths = !truths x.text := by
  obtain ⟨hsound, hformula⟩ := describes_of_skeleton hs
  refine ⟨?_, ?_, ?_⟩
  · intro x hx
    exact Variables.truth_of_find? (Variables.find?_name hx) truths
  · intro truth htruth
    rw [← hformula.value]
    apply Formula.holds_congr
    intro name hname
    obtain ⟨x, hx⟩ := hformula.known name hname
    obtain ⟨hmem, rfl⟩ := Variables.mem_of_find? hx
    rw [htruth x hmem, Variables.truth_of_find? hx]
  · intro x hx
    have hatom := hsound.atoms x hx
    exact ⟨hatom.holds_stated truths, hatom.holds_denied truths⟩

/-- A denied list of words, one of them with a comma, beside verbatim text that is the atom
of that word; the group has a second child, which does not count. -/
def coinciding : Filter :=
  or [not [target "fb.content", operator "contains_all", argument (string "x\\,y,z")],
    group [raw "fb.content contains \"x,y\"", raw "unseen"]]

/-- The skeleton of that filter has two variables. -/
def coincidingSkeleton : Skeleton :=
  ⟨.or [.not (.and [.var "v1", .var "v2"]), .var "v1"],
    .registered [⟨"fb.content contains \"x,y\"",
        condition (ofTriple (.containing "fb.content" "x,y")),
        not (ofTriple (.containing "fb.content" "x,y"))⟩,
      ⟨"fb.content contains \"z\"",
        condition (ofTriple (.containing "fb.content" "z")),
        not (ofTriple (.containing "fb.content" "z"))⟩]⟩

theorem holds_skeleton_coinciding :
    coinciding.skeleton {} = .ok (some coincidingSkeleton) ∧
      ∀ truths truth : String → Bool,
        (∀ x ∈ coincidingSkeleton.table.entries, truth x.name = truths x.text) →
          coincidingSkeleton.formula.holds truth = coinciding.holds truths :=
  ⟨rfl, fun truths => (holds_skeleton {} (s := coincidingSkeleton) rfl truths).2.1⟩

end Filter

namespace Formula

/-- The text of a formula reads as the formula exactly if the formula is printable: its
variables are names, be they function names or not, and its connectives have two parts or
more.  So is every formula that is read from text, and that of every skeleton. -/
theorem text_readsBack :
    (∀ f : Formula String, parse (text f) = .ok f ↔ Printable f) ∧
    (∀ (text : String) (f : Formula String), parse text = .ok f → Printable f) ∧
    ∀ (v : Vocabulary) (tree : Filter) (s : Skeleton), tree.skeleton v = .ok (some s) →
      Printable s.formula := by
  refine ⟨fun f => ⟨printable_of_parse, parse_text⟩, fun _ _ => printable_of_parse, ?_⟩
  intro v tree s hs
  obtain ⟨-, hformula⟩ := Filter.describes_of_skeleton hs
  exact hformula.printable

/-- A formula whose variables have the names of functions. -/
def keywords : Formula String := .or [.not (.var "Not"), .and [.var "And", .var "Or"]]

theorem text_readsBack_keywords :
    parse "Or(Not(Not), And(And, Or))" = .ok keywords ∧
      Printable Filter.coincidingSkeleton.formula := by
  have hprintable : Printable keywords := by
    simp only [keywords, Printable, AllPrintable, List.length_cons, List.length_nil]
    decide
  have htext : keywords.text = "Or(Not(Not), And(And, Or))" := rfl
  refine ⟨?_, text_readsBack.2.2 {} Filter.coinciding _ rfl⟩
  rw [← htext]
  exact (text_readsBack.1 keywords).2 hprintable

end Formula

end StreamFilter
