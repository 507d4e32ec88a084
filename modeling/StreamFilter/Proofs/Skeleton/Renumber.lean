import StreamFilter.Proofs.Skeleton.Restore
set_option autoImplicit false

/-!
# The skeleton of a restored filter

A formula over the table of a filter becomes a filter again (`Formula.restore`), and that
filter has a skeleton of its own.  Its formula is the one that was put in, with its variables
renumbered in the order in which they first appear, and its table keeps the entry of each of
them under its new name (`Filter.skeleton_restore`).
-/

namespace StreamFilter

namespace Formula

variable {α β : Type}

mutual

theorem map_congr {g h : α → β} : ∀ f : Formula α, (∀ x ∈ f.occurrences, g x = h x) →
    f.map g = f.map h
  | var x, hx => by rw [map, map, hx x (by simp [occurrences])]
  | not f, hx => by rw [map, map, map_congr f (by simpa only [occurrences] using hx)]
  | and fs, hx => by rw [map, map, mapAll_congr fs (by simpa only [occurrences] using hx)]
  | or fs, hx => by rw [map, map, mapAll_congr fs (by simpa only [occurrences] using hx)]

theorem mapAll_congr {g h : α → β} : ∀ fs : List (Formula α),
    (∀ x ∈ occurrencesAll fs, g x = h x) → mapAll g fs = mapAll h fs
  | [], _ => rfl
  | f :: fs, hx => by
    rw [occurrencesAll] at hx
    rw [mapAll, mapAll, map_congr f fun x hf => hx x (List.mem_append_left _ hf),
      mapAll_congr fs fun x hf => hx x (List.mem_append_right _ hf)]

end

end Formula

namespace Variables

/-! ## New names -/

/-- The new name of a variable, by its place in the order of first appearance. -/
def renumber (names : List String) (name : String) : String :=
  nameAt (names.eraseDups.idxOf name)

/-- The entries of a table for a list of names, each once and under its new name. -/
structure Renumbers (vs : Variables) (names : List String) (us : Variables) : Prop where
  size : us.size = names.eraseDups.length
  entry : ∀ i name, names.eraseDups[i]? = some name →
    ∃ x, vs.find? name = some x ∧ us.entries[i]? = some { x with name := nameAt i }

variable {v : Vocabulary} {vs us : Variables} {names : List String} {name : String} {x : Variable}

theorem renumbers_empty (vs : Variables) : Renumbers vs [] {} := ⟨rfl, by simp⟩

/-- Further names do not change the new names of those before. -/
theorem renumber_append (h : name ∈ names) (more : List String) :
    renumber (names ++ more) name = renumber names name := by
  rw [renumber, renumber, List.eraseDups_append, List.idxOf_append,
    if_pos (List.mem_eraseDups.2 h)]

theorem getElem?_idxOf_eraseDups (h : name ∈ names) :
    names.eraseDups[names.eraseDups.idxOf name]? = some name := by
  have hlt := List.idxOf_lt_length_of_mem (List.mem_eraseDups.2 h)
  rw [List.getElem?_eq_getElem hlt, List.getElem_idxOf]

/-- An atom that has been met keeps its variable. -/
theorem Renumbers.nameOf?_of_mem (h : Renumbers vs names us) (hx : vs.find? name = some x)
    (hmem : name ∈ names) : us.nameOf? x.text = some (renumber names name) := by
  obtain ⟨z, hz, hentry⟩ := h.entry _ name (getElem?_idxOf_eraseDups hmem)
  obtain rfl := Option.some.inj (hx.symm.trans hz)
  exact nameOf?_text (x := { x with name := nameAt _ }) hentry

/-- An atom that has not been met has no variable. -/
theorem Renumbers.nameOf?_of_not_mem (h : Renumbers vs names us) (hx : vs.find? name = some x)
    (hmem : name ∉ names) : us.nameOf? x.text = none := by
  rw [nameOf?_eq_none_iff]
  intro y hy htext
  obtain ⟨i, hi⟩ := List.mem_iff_getElem?.1 hy
  have hlt : i < names.eraseDups.length := by
    rw [← h.size, VariableIndex.size_eq]
    exact (List.getElem?_eq_some_iff.1 hi).1
  obtain ⟨z, hz, hentry⟩ := h.entry i _ (List.getElem?_eq_getElem hlt)
  obtain rfl := Option.some.inj (hi.symm.trans hentry)
  obtain ⟨hxmem, hxname⟩ := mem_of_find? hx
  obtain ⟨hzmem, hzname⟩ := mem_of_find? hz
  obtain rfl := eq_of_text hzmem hxmem htext
  refine hmem (List.mem_eraseDups.1 ?_)
  rw [← hxname, hzname]
  exact List.getElem_mem hlt

theorem eraseDups_append_singleton_of_mem (h : name ∈ names) :
    (names ++ [name]).eraseDups = names.eraseDups := by
  rw [List.eraseDups_append]
  simp [List.removeAll, h]

theorem eraseDups_append_singleton (h : name ∉ names) :
    (names ++ [name]).eraseDups = names.eraseDups ++ [name] := by
  rw [List.eraseDups_append]
  simp [List.removeAll, h, List.eraseDups_cons]

theorem Renumbers.append {ws : Variables} (h : Renumbers vs names us) (hx : vs.find? name = some x)
    (hmem : name ∉ names) (hws : ws.entries = us.entries ++ [{ x with name := nameAt us.size }]) :
    Renumbers vs (names ++ [name]) ws := by
  have hnames := eraseDups_append_singleton hmem
  have hsize : us.entries.length = names.eraseDups.length := by rw [← h.size, VariableIndex.size_eq]
  constructor
  · rw [VariableIndex.size_eq, hws, hnames, List.length_append, List.length_append, hsize]
    rfl
  · intro i other hi
    rw [hnames] at hi
    rw [hws]
    obtain hlt | hge := Nat.lt_or_ge i names.eraseDups.length
    · rw [List.getElem?_append_left hlt] at hi
      obtain ⟨y, hy, hentry⟩ := h.entry i other hi
      exact ⟨y, hy, by rw [List.getElem?_append_left (hsize ▸ hlt), hentry]⟩
    · rw [List.getElem?_append_right hge] at hi
      obtain ⟨hlast, hother⟩ := List.getElem?_eq_some_iff.1 hi
      rw [List.getElem_singleton] at hother
      rw [List.length_singleton] at hlast
      obtain rfl : i = us.entries.length := by omega
      rw [VariableIndex.size_eq]
      exact ⟨x, by rw [← hother, hx], List.getElem?_concat_length⟩

/-- Registering the atom of a variable gives its new name. -/
theorem Renumbers.register (h : Renumbers vs names us) (hx : vs.find? name = some x) :
    (us.register x.text x.stated x.denied).1 = renumber (names ++ [name]) name ∧
      Renumbers vs (names ++ [name]) (us.register x.text x.stated x.denied).2 := by
  by_cases hmem : name ∈ names
  · rw [register_of_known (h.nameOf?_of_mem hx hmem), renumber_append hmem]
    have hnames := eraseDups_append_singleton_of_mem hmem
    exact ⟨rfl, by rw [hnames]; exact h.size, by rw [hnames]; exact h.entry⟩
  · obtain ⟨hname, hentries⟩ :=
      register_of_new (h.nameOf?_of_not_mem hx hmem) x.stated x.denied
    refine ⟨?_, h.append hx hmem hentries⟩
    rw [hname, renumber, eraseDups_append_singleton hmem, List.idxOf_append,
      if_neg (by rwa [List.mem_eraseDups]), h.size]
    simp

end Variables

/-! ## Walking a restored filter -/

theorem Filter.extractTriple_ofTriple {v : Vocabulary} {us : Variables} {kind : Kind} {t : Triple}
    (ht : t.expansion? = none) (htarget : v.admitsTarget t.target = true)
    (hoperator : v.admitsOperator t.operator = true) :
    extractTriple v kind (ofTriple t) us =
      .ok (.var (us.registerTriple t.text t).1, (us.registerTriple t.text t).2) := by
  have hcsdl : t.csdl v = .ok t.text := by simp [Triple.csdl, htarget, hoperator]
  simp only [extractTriple, requireTriple, triple?_ofTriple, hcsdl, ht, bind, Except.bind]
  rfl

/-- Walking the two filters of a variable registers its atom. -/
theorem Variable.IsAtom.extractWith {v : Vocabulary} {x : Variable} (h : x.IsAtom v)
    (us : Variables) :
    let r := us.register x.text x.stated x.denied
    Filter.extractWith v x.stated us = .ok (.var r.1, r.2) ∧
      Filter.extractWith v x.denied us = .ok (.not (.var r.1), r.2) := by
  obtain ⟨hstated, hdenied⟩ | ⟨t, ht, htarget, hoperator, htext, hstated, hdenied⟩ := h
  · rw [hstated, hdenied]
    refine ⟨by rw [Filter.extractWith]; rfl, ?_⟩
    rw [Filter.extractWith_not rfl, Filter.extractWith]
    rfl
  · have hwalk : ∀ kind, Filter.extractTriple v kind (Filter.ofTriple t) us = _ := fun _ =>
      Filter.extractTriple_ofTriple ht htarget hoperator
    rw [hstated, hdenied, htext]
    refine ⟨by rw [Filter.extractWith, hwalk]; rfl, ?_⟩
    rw [Filter.extractWith_not_target (Filter.startsWithTarget_ofTriple t), hwalk]
    rfl

theorem Filter.extractWith_join (v : Vocabulary) (c : Connective) (cs : List Filter)
    (us : Variables) : extractWith v (c.join cs) us = (do
      requireTwo c.kind cs
      let (fs, us) ← extractAll v c.kind cs us
      return (formulaOf c fs, us)) := by
  cases c <;> rw [Connective.join, extractWith] <;> rfl

theorem Filter.parenthesized_eq (g : Filter) : g.parenthesized = g ∨
    g.parenthesized = group [g] ∧ g.kind.isTerminal = false := by
  cases g with
  | and cs | or cs => exact .inr ⟨rfl, rfl⟩
  | _ => exact .inl rfl

namespace Formula

open Variables (Renumbers renumber)

variable {v : Vocabulary} {vs us : Variables} {f : Formula String} {g : Filter}

/-- Walking a filter gives a formula back, whatever names have been met before. -/
structure Regained (v : Vocabulary) (vs : Variables) (f : Formula String) (g : Filter) : Prop where
  boolean : g.kind.isTerminal = false
  walk : ∀ {names : List String} {us : Variables}, Renumbers vs names us →
    ∃ ws, Filter.extractWith v g us = .ok (f.map (renumber (names ++ f.occurrences)), ws) ∧
      Renumbers vs (names ++ f.occurrences) ws

/-- Walking the parts of a connective gives the parts of a formula back. -/
structure RegainedAll (v : Vocabulary) (vs : Variables) (fs : List (Formula String))
    (gs : List Filter) : Prop where
  length : gs.length = fs.length
  walk : ∀ (parent : Kind) {names : List String} {us : Variables}, Renumbers vs names us →
    ∃ ws, Filter.extractAll v parent gs us =
        .ok (mapAll (renumber (names ++ occurrencesAll fs)) fs, ws) ∧
      Renumbers vs (names ++ occurrencesAll fs) ws

theorem Regained.parenthesized (h : Regained v vs f g) : Regained v vs f g.parenthesized := by
  obtain heq | ⟨heq, hkind⟩ := g.parenthesized_eq
  · rwa [heq]
  · rw [heq]
    refine ⟨rfl, fun hus => ?_⟩
    rw [Filter.extractWith, Filter.requireBoolean, hkind]
    exact h.walk hus

/-- A negation is regained with what it negates. -/
theorem Regained.not (h : Regained v vs f g) : Regained v vs (not f) (.not [g]) := by
  refine ⟨rfl, fun {names us} hus => ?_⟩
  have hstart : Filter.startsWithTarget [g] = false := by
    cases g <;> first | rfl | cases h.boolean
  obtain ⟨ws, hwalk, hws⟩ := h.walk hus
  refine ⟨ws, ?_, by rwa [occurrences]⟩
  rw [Filter.extractWith_not hstart, Filter.requireBoolean, h.boolean, hwalk, occurrences, map]
  rfl

theorem regainedAll_nil (v : Vocabulary) (vs : Variables) : RegainedAll v vs [] [] := by
  refine ⟨rfl, fun _ {names us} hus => ⟨us, rfl, ?_⟩⟩
  rwa [occurrencesAll, List.append_nil]

/-- The first part keeps its new names while the others are walked. -/
theorem Regained.cons {fs : List (Formula String)} {gs : List Filter} (h : Regained v vs f g)
    (hs : RegainedAll v vs fs gs) : RegainedAll v vs (f :: fs) (g :: gs) := by
  refine ⟨by rw [List.length_cons, List.length_cons, hs.length], fun parent {names us} hus => ?_⟩
  obtain ⟨ws, hfirst, hws⟩ := h.walk hus
  obtain ⟨xs, hrest, hxs⟩ := hs.walk parent hws
  rw [List.append_assoc] at hrest hxs
  have hmap : f.map (renumber (names ++ f.occurrences)) =
      f.map (renumber (names ++ (f.occurrences ++ occurrencesAll fs))) := by
    refine map_congr f fun x hx => ?_
    rw [← List.append_assoc, Variables.renumber_append (List.mem_append_right names hx)]
  refine ⟨xs, ?_, by rwa [occurrencesAll]⟩
  rw [Filter.extractAll, Filter.requireBoolean, h.boolean, hfirst, hmap, occurrencesAll, mapAll]
  simp only [bind, Except.bind]
  rw [hrest]
  rfl

/-- A connective is regained with its parts. -/
theorem RegainedAll.join {fs : List (Formula String)} {gs : List Filter}
    (h : RegainedAll v vs fs gs) (hlen : 2 ≤ fs.length) (c : Connective) :
    Regained v vs (Filter.formulaOf c fs) (c.join gs) := by
  have hmap : ∀ g : String → String,
      (Filter.formulaOf c fs).map g = Filter.formulaOf c (mapAll g fs) := by
    intro g
    cases c <;> rw [Filter.formulaOf, map]
  have htwo : Filter.requireTwo c.kind gs = .ok () := by
    rw [Filter.requireTwo, if_neg (by rw [h.length]; omega)]
  refine ⟨by cases c <;> rfl, fun hus => ?_⟩
  obtain ⟨ws, hwalk, hws⟩ := h.walk c.kind hus
  refine ⟨ws, ?_, by rwa [occurrences_formulaOf]⟩
  rw [Filter.extractWith_join, htwo, occurrences_formulaOf, hmap]
  simp only [bind, Except.bind]
  rw [hwalk]
  rfl

/-- The filters of a variable give the variable back. -/
theorem regained_var (hvs : vs.Sound v) {name : String} {x : Variable}
    (hx : lookup vs name = .ok x) :
    Regained v vs (var name) x.stated ∧ Regained v vs (.not (var name)) x.denied := by
  have hatom := isAtom_of_lookup hvs hx
  have hregister := fun {names us} (hus : Renumbers vs names us) =>
    hus.register (find?_of_lookup hx)
  have hboolean : x.stated.kind.isTerminal = false ∧ x.denied.kind.isTerminal = false := by
    obtain ⟨hstated, hdenied⟩ | ⟨t, -, -, -, -, hstated, hdenied⟩ := hatom <;>
      rw [hstated, hdenied] <;> exact ⟨rfl, rfl⟩
  refine ⟨⟨hboolean.1, fun {names us} hus => ?_⟩, ⟨hboolean.2, fun {names us} hus => ?_⟩⟩
  · obtain ⟨hname, hws⟩ := hregister hus
    exact ⟨_, by rw [(hatom.extractWith us).1, hname, occurrences, map], hws⟩
  · obtain ⟨hname, hws⟩ := hregister hus
    exact ⟨_, by rw [(hatom.extractWith us).2, hname, occurrences, occurrences, map, map], hws⟩

mutual

/-- The filter of a printable formula gives the formula back. -/
theorem regained_toFilter (hvs : vs.Sound v) : ∀ (f : Formula String) {g : Filter}, Printable f →
    toFilter vs f = .ok g → Regained v vs f g
  | var name, g, _, h => by
    rw [toFilter] at h
    obtain ⟨x, hx, h⟩ := exists_of_bind_eq_ok h
    rw [← Except.ok.inj h]
    exact (regained_var hvs hx).1
  | not (var name), g, _, h => by
    rw [toFilter] at h
    obtain ⟨x, hx, h⟩ := exists_of_bind_eq_ok h
    rw [← Except.ok.inj h]
    exact (regained_var hvs hx).2
  | not (not f), g, hf, h => by
    rw [Printable] at hf
    obtain ⟨part, hpart, rfl⟩ := toFilter_not_eq_ok (by simp) h
    exact (regained_toFilter hvs (not f) hf hpart).parenthesized.not
  | not (and fs), g, hf, h => by
    rw [Printable] at hf
    obtain ⟨part, hpart, rfl⟩ := toFilter_not_eq_ok (by simp) h
    exact (regained_toFilter hvs (and fs) hf hpart).parenthesized.not
  | not (or fs), g, hf, h => by
    rw [Printable] at hf
    obtain ⟨part, hpart, rfl⟩ := toFilter_not_eq_ok (by simp) h
    exact (regained_toFilter hvs (or fs) hf hpart).parenthesized.not
  | and fs, g, hf, h => by
    rw [Printable] at hf
    rw [toFilter] at h
    obtain ⟨gs, hgs, h⟩ := exists_of_bind_eq_ok h
    rw [← Except.ok.inj h]
    exact (regained_toFilters hvs fs hf.2 hgs).join hf.1 .and
  | or fs, g, hf, h => by
    rw [Printable] at hf
    rw [toFilter] at h
    obtain ⟨gs, hgs, h⟩ := exists_of_bind_eq_ok h
    rw [← Except.ok.inj h]
    exact (regained_toFilters hvs fs hf.2 hgs).join hf.1 .or

theorem regained_toFilters (hvs : vs.Sound v) : ∀ (fs : List (Formula String)) {gs : List Filter},
    AllPrintable fs → toFilters vs fs = .ok gs → RegainedAll v vs fs gs
  | [], gs, _, h => by
    rw [toFilters] at h
    rw [← Except.ok.inj h]
    exact regainedAll_nil v vs
  | f :: fs, gs, hf, h => by
    rw [AllPrintable] at hf
    rw [toFilters] at h
    obtain ⟨first, hfirst, h⟩ := exists_of_bind_eq_ok h
    obtain ⟨others, hothers, h⟩ := exists_of_bind_eq_ok h
    rw [← Except.ok.inj h]
    exact (regained_toFilter hvs f hf.1 hfirst).parenthesized.cons
      (regained_toFilters hvs fs hf.2 hothers)

end

end Formula

namespace Filter

/-- Let a text be a formula over the variables of a filter's skeleton.  The filter restored from
it has a skeleton, whose formula is that of the text with its variables renumbered in the order
of first appearance.  The new table has an entry for each of them and no other, which is the
old entry but for its name. -/
theorem skeleton_restore (v : Vocabulary) {f : Filter} {s : Skeleton}
    (hs : f.skeleton v = .ok (some s)) {text : String} {e : Formula String}
    (htext : Formula.parse text = .ok e)
    (hknown : ∀ name ∈ e.occurrences, ∃ x, s.table.find? name = some x) :
    ∃ g s', Formula.restore s.table text = .ok g ∧ g.skeleton v = .ok (some s') ∧
      s'.formula = e.map (fun name => Variables.nameAt (e.vars.idxOf name)) ∧
      s'.table.size = e.vars.length ∧
      ∀ i name, e.vars[i]? = some name → ∃ x, s.table.find? name = some x ∧
        s'.table.find? (Variables.nameAt i) = some { x with name := Variables.nameAt i } := by
  have hsound := (describes_of_skeleton hs).1
  obtain ⟨g, hg, -⟩ := Formula.restores hsound e hknown
  have hregained := Formula.regained_toFilter hsound e (Formula.printable_of_parse htext) hg
  obtain ⟨table, hwalk, htable⟩ := hregained.walk (Variables.renumbers_empty s.table)
  rw [List.nil_append] at hwalk htable
  have hs' : g.skeleton v = .ok (some ⟨e.map (Variables.renumber e.occurrences), table⟩) := by
    rw [skeleton, hregained.boolean, hwalk]
    rfl
  refine ⟨g, _, ?_, hs', rfl, htable.size, fun i name hi => ?_⟩
  · rw [Formula.restore, htext]
    exact hg
  · obtain ⟨x, hx, hentry⟩ := htable.entry i name hi
    exact ⟨x, hx, Variables.find?_name (List.mem_of_getElem? hentry)⟩

/-- Verbatim text that is the atom of one of two words. -/
def captured : Filter :=
  or [raw "fb.content contains \"b\"",
    condition [target "fb.content", operator "contains_any", argument (string "a,b")]]

/-- The skeleton of that filter, in which the verbatim text stands for the word. -/
def capturedSkeleton : Skeleton :=
  ⟨.or [.var "v1", .or [.var "v2", .var "v1"]],
    .registered [⟨"fb.content contains \"b\"", raw "fb.content contains \"b\"",
        not [raw "fb.content contains \"b\""]⟩,
      ⟨"fb.content contains \"a\"",
        condition (ofTriple (.containing "fb.content" "a")),
        not (ofTriple (.containing "fb.content" "a"))⟩]⟩

theorem skeleton_restore_captured :
    let e : Formula String := .not (.and [.var "v2", .not (.not (.var "v1")), .not (.var "v1")])
    captured.skeleton {} = .ok (some capturedSkeleton) ∧ Formula.parse e.text = .ok e ∧
      ∃ g s', Formula.restore capturedSkeleton.table e.text = .ok g ∧
        g.skeleton {} = .ok (some s') ∧
        s'.formula =
          .not (.and [.var "v1", .not (.not (.var "v2")), .not (.var "v2")]) ∧
        s'.table.text? "v2" = some "fb.content contains \"b\"" := by
  intro e
  have htext : Formula.parse e.text = .ok e := by
    apply Formula.parse_text
    simp only [e, Formula.Printable, Formula.AllPrintable, List.length_cons, List.length_nil]
    decide
  have hknown : ∀ name ∈ e.occurrences, ∃ x, capturedSkeleton.table.find? name = some x := by
    simp only [← Option.isSome_iff_exists]
    decide
  have hs : captured.skeleton {} = .ok (some capturedSkeleton) := rfl
  have hvars : e.vars = ["v2", "v1"] := by decide
  obtain ⟨g, s', hg, hs', hformula, -, htable⟩ := skeleton_restore {} hs htext hknown
  obtain ⟨x, hx, hfound⟩ := htable 1 "v1" rfl
  obtain rfl := Option.some.inj hx
  rw [hvars] at hformula
  exact ⟨hs, htext, g, s', hg, hs', hformula, Variables.text?_of_find? hfound⟩

end Filter

end StreamFilter
