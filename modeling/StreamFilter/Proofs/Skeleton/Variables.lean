import StreamFilter.Proofs.Filter.Atoms
import StreamFilter.Proofs.Formula.RoundTrip
import StreamFilter.Skeleton.Variables
import StreamFilter.Vocabulary.Basic
set_option autoImplicit false

/-!
# What the variables of a skeleton stand for

The indexes of a table lead to its variables, so these have names and texts of their own
(`Variables.find?_name`, `Variables.eq_of_text`).  A table is sound when each variable stands
for an atom that the vocabulary admits.  Registering an atom keeps a table sound and only adds
to it (`Variables.Sound.register`), so a variable never changes what it stands for.
-/

namespace StreamFilter

namespace Variable

/-- A variable stands for verbatim text, or for a triple that is no list condition and
whose names the vocabulary knows. -/
def IsAtom (v : Vocabulary) (x : Variable) : Prop :=
  (x.stated = .raw x.text ∧ x.denied = .not [.raw x.text]) ∨
    ∃ t : Triple, t.expansion? = none ∧ v.admitsTarget t.target = true ∧
      v.admitsOperator t.operator = true ∧ x.text = t.text ∧
      x.stated = .condition (Filter.ofTriple t) ∧ x.denied = .not (Filter.ofTriple t)

variable {v : Vocabulary} {x : Variable}

theorem IsAtom.holds_stated (h : x.IsAtom v) (truths : String → Bool) :
    x.stated.holds truths = truths x.text := by
  obtain ⟨hstated, -⟩ | ⟨t, ht, -, -, htext, hstated, -⟩ := h
  · rw [hstated, Filter.holds]
  · rw [hstated, Filter.holds, Filter.triple?_ofTriple, htext]
    simp [Triple.holds, ht]

theorem IsAtom.holds_denied (h : x.IsAtom v) (truths : String → Bool) :
    x.denied.holds truths = !truths x.text := by
  obtain ⟨-, hdenied⟩ | ⟨t, ht, -, -, htext, -, hdenied⟩ := h
  · rw [hdenied, Filter.holds_not truths rfl, Filter.holds, Filter.firstHolds, Filter.holds]
  · rw [hdenied, Filter.holds_not_target truths (Filter.startsWithTarget_ofTriple t),
      Filter.triple?_ofTriple, htext]
    simp [Triple.holds, ht]

/-- Both filters of a variable mention its atom and no other. -/
theorem IsAtom.occurrences (h : x.IsAtom v) :
    x.stated.occurrences = [x.text] ∧ x.denied.occurrences = [x.text] := by
  obtain ⟨hstated, hdenied⟩ | ⟨t, ht, -, -, htext, hstated, hdenied⟩ := h
  · rw [hstated, hdenied, Filter.occurrences_not_singleton, Filter.occurrences]
    exact ⟨rfl, rfl⟩
  · rw [hstated, hdenied, Filter.occurrences_not_target (Filter.startsWithTarget_ofTriple t),
      Filter.occurrences_condition (Filter.triple?_ofTriple t), htext, Triple.atoms, ht]
    exact ⟨rfl, rfl⟩

end Variable

namespace Filter

theorem allTargetsFirst_ofTriple (t : Triple) : allTargetsFirst (ofTriple t) = true := by
  obtain ⟨_, _, _ | _⟩ := t <;> rfl

end Filter

theorem Variable.IsAtom.targetsFirst {v : Vocabulary} {x : Variable} (h : x.IsAtom v) :
    x.stated.targetsFirst = true ∧ x.denied.targetsFirst = true := by
  obtain ⟨hstated, hdenied⟩ | ⟨t, -, -, -, -, hstated, hdenied⟩ := h
  · rw [hstated, hdenied]
    exact ⟨rfl, rfl⟩
  · have hchildren := Filter.allTargetsFirst_ofTriple t
    rw [hstated, hdenied]
    exact ⟨by simp [Filter.targetsFirst, hchildren], by simp [Filter.targetsFirst, hchildren]⟩

namespace Variables

/-! ## Names -/

theorem isNameChar_of_isDigit {c : Char} (h : c.isDigit = true) : Formula.isNameChar c = true := by
  simp only [Char.isDigit, Bool.and_eq_true, decide_eq_true_eq] at h
  simp only [Formula.isNameChar, Bool.or_eq_true, Bool.and_eq_true, decide_eq_true_eq]
  exact .inr h

theorem isName_nameAt (i : Nat) : Formula.isName (nameAt i) = true := by
  have hchars : (nameAt i).toList = 'v' :: Nat.toDigits 10 (i + 1) := by
    rw [nameAt, String.toList_append, Nat.toList_repr]
    rfl
  rw [Formula.isName, hchars]
  simp only [Bool.and_eq_true, List.all_eq_true]
  refine ⟨by decide, fun c hc => isNameChar_of_isDigit ?_⟩
  exact Nat.isDigit_of_mem_toDigits (by decide) (by decide) hc

/-! ## Looking up -/

variable {v : Vocabulary} {vs ws : Variables} {x y : Variable}

theorem name_eq {i : Nat} (hi : vs.entries[i]? = some x) : x.name = nameAt i := by
  rw [VariableIndex.entries, Array.getElem?_toList] at hi
  exact vs.agree.names i x hi

theorem isName_of_mem (hx : x ∈ vs.entries) : Formula.isName x.name = true := by
  obtain ⟨i, hi⟩ := List.mem_iff_getElem?.1 hx
  rw [name_eq hi]
  exact isName_nameAt i

theorem mem_of_find? {name : String} (h : vs.find? name = some x) :
    x ∈ vs.entries ∧ x.name = name := by
  rw [find?_eq] at h
  exact ⟨List.mem_of_find?_eq_some h, by simpa using List.find?_some h⟩

/-- A name finds its variable, since the index leads from each name to one place. -/
theorem find?_name (hx : x ∈ vs.entries) : vs.find? x.name = some x := by
  obtain ⟨i, hi⟩ := List.mem_iff_getElem?.1 hx
  rw [VariableIndex.entries, Array.getElem?_toList] at hi
  rw [VariableIndex.find?, (vs.agree.byName x.name i).2 ⟨x, hi, rfl⟩]
  exact hi

/-- Variables have different texts, since the index leads from each text to one place. -/
theorem eq_of_text (hx : x ∈ vs.entries) (hy : y ∈ vs.entries) (h : x.text = y.text) : x = y := by
  obtain ⟨i, hi⟩ := List.mem_iff_getElem?.1 hx
  obtain ⟨j, hj⟩ := List.mem_iff_getElem?.1 hy
  rw [VariableIndex.entries, Array.getElem?_toList] at hi hj
  have hplace := (vs.agree.byText y.text i).2 ⟨x, hi, h⟩
  rw [(vs.agree.byText y.text j).2 ⟨y, hj, rfl⟩] at hplace
  obtain rfl := Option.some.inj hplace
  exact Option.some.inj (hi.symm.trans hj)

/-- A text finds the name of its variable. -/
theorem nameOf?_text {i : Nat} (hi : vs.entries[i]? = some x) :
    vs.nameOf? x.text = some (nameAt i) := by
  have hname := name_eq hi
  rw [VariableIndex.entries, Array.getElem?_toList] at hi
  rw [VariableIndex.nameOf?, (vs.agree.byText x.text i).2 ⟨x, hi, rfl⟩, Option.bind_some, hi,
    Option.map_some, hname]

theorem nameOf?_eq_none_iff {text : String} :
    vs.nameOf? text = none ↔ ∀ x ∈ vs.entries, x.text ≠ text := by
  simp [nameOf?_eq]

/-- What is found stays when variables are added. -/
theorem find?_of_added (h : vs.entries <+: ws.entries) {name : String}
    (hx : vs.find? name = some x) : ws.find? name = some x := by
  obtain ⟨added, hadded⟩ := h
  rw [find?_eq] at hx
  rw [find?_eq, ← hadded, List.find?_append, hx]
  rfl

/-- The text of the atom that a name stands for. -/
def text? (vs : Variables) (name : String) : Option String := (vs.find? name).map (·.text)

theorem text?_of_find? {name : String} {x : Variable} (h : vs.find? name = some x) :
    vs.text? name = some x.text := by
  rw [text?, h]
  rfl

/-- The truth of variables when it is given which atoms hold. -/
def truth (vs : Variables) (truths : String → Bool) (name : String) : Bool :=
  (vs.find? name).any fun x => truths x.text

theorem truth_of_find? {name : String} {x : Variable} (h : vs.find? name = some x)
    (truths : String → Bool) : vs.truth truths name = truths x.text := by
  rw [truth, h]
  rfl

/-! ## Sound tables -/

/-- Each variable stands for an atom. -/
structure Sound (v : Vocabulary) (vs : Variables) : Prop where
  atoms : ∀ x ∈ vs.entries, x.IsAtom v

theorem sound_empty (v : Vocabulary) : Sound v {} := ⟨by simp⟩

/-- Registering an atom gives the name of a variable that stands for it. -/
theorem Sound.register (h : Sound v vs) {text : String} {stated denied : Filter}
    (hatom : ∀ name, Variable.IsAtom v ⟨name, text, stated, denied⟩) :
    Sound v (vs.register text stated denied).2 ∧
      vs.entries <+: (vs.register text stated denied).2.entries ∧
      ∃ x, (vs.register text stated denied).2.find? (vs.register text stated denied).1 = some x ∧
        x.text = text := by
  cases hname : vs.nameOf? text with
  | some name =>
    rw [register_of_known hname]
    rw [nameOf?_eq] at hname
    obtain ⟨x, hfind, rfl⟩ := Option.map_eq_some_iff.1 hname
    exact ⟨h, List.prefix_refl _, x, find?_name (List.mem_of_find?_eq_some hfind),
      by simpa using List.find?_some hfind⟩
  | none =>
    obtain ⟨hfirst, hentries⟩ := register_of_new hname stated denied
    rw [hfirst, hentries]
    refine ⟨⟨?_⟩, List.prefix_append _ _, ⟨nameAt vs.size, text, stated, denied⟩, ?_, rfl⟩
    · intro x hx
      rw [hentries] at hx
      rcases List.mem_append.1 hx with hx | hx
      · exact h.atoms x hx
      · rw [List.mem_singleton.1 hx]
        exact hatom _
    · refine find?_name (x := ⟨nameAt vs.size, text, stated, denied⟩) ?_
      rw [hentries]
      exact List.mem_append_right _ (List.mem_singleton.2 rfl)

/-- Registering a triple that is no list condition. -/
theorem Sound.registerTriple (h : Sound v vs) {t : Triple} (ht : t.expansion? = none)
    (htarget : v.admitsTarget t.target = true) (hoperator : v.admitsOperator t.operator = true) :
    Sound v (vs.registerTriple t.text t).2 ∧
      vs.entries <+: (vs.registerTriple t.text t).2.entries ∧
      ∃ x, (vs.registerTriple t.text t).2.find? (vs.registerTriple t.text t).1 = some x ∧
        x.text = t.text :=
  h.register fun _ => .inr ⟨t, ht, htarget, hoperator, rfl, rfl, rfl⟩

end Variables

/-! ## Runs -/

/-- What is given when an atom is registered. -/
structure Registration where
  text : String
  stated : Filter
  denied : Filter
  deriving DecidableEq, Repr, Inhabited

/-- The table after further registrations. -/
def Variables.registerEach (vs : Variables) (rs : List Registration) : Variables :=
  rs.foldl (fun vs r => (vs.register r.text r.stated r.denied).2) vs

/-- The table after registrations from the empty table on. -/
def Variables.registered (rs : List Registration) : Variables := registerEach {} rs

end StreamFilter
