import StreamFilter.Proofs.Skeleton.Atoms
set_option autoImplicit false

/-!
# A table of variables is an index in both directions

Atoms are registered one after the other, the same text any number of times and each time
with other filters.  What a table holds then is said by the registrations alone: their
distinct texts in the order of first appearance, and the filters that came with the first
registration of each (`Variables.Recorded`).  One registration keeps this
(`Variables.Recorded.register`), as it keeps the vector in agreement with its indexes, so every
run from the empty table does.  The index by name leads to the places of the names, the index
by text to those of the texts, and looking up by name and looking up by text are inverse to
each other (`VariableIndex.registered_isIndex`).
-/

namespace StreamFilter

namespace Registration

/-- The texts that are registered, in the order of first registration. -/
def texts (rs : List Registration) : List String := (rs.map (·.text)).eraseDups

/-- The first registration of a text. -/
def first? (rs : List Registration) (text : String) : Option Registration :=
  rs.find? (·.text == text)

variable {rs : List Registration} {text : String}

theorem mem_texts : text ∈ texts rs ↔ ∃ r ∈ rs, r.text = text := by
  rw [texts, List.mem_eraseDups, List.mem_map]

theorem first?_append_of_mem (h : text ∈ texts rs) (r : Registration) :
    first? (rs ++ [r]) text = first? rs text := by
  obtain ⟨s, hs, htext⟩ := mem_texts.1 h
  have hfound : (rs.find? (·.text == text)).isSome = true :=
    List.find?_isSome.2 ⟨s, hs, by simp [htext]⟩
  rw [first?, first?, List.find?_append, Option.or_of_isSome hfound]

theorem first?_append_of_not_mem {r : Registration} (h : r.text ∉ texts rs) :
    first? (rs ++ [r]) r.text = some r := by
  have hnone : rs.find? (·.text == r.text) = none :=
    List.find?_eq_none.2 fun s hs htext => h (mem_texts.2 ⟨s, hs, by simpa using htext⟩)
  rw [first?, List.find?_append, hnone]
  simp

end Registration

/-! ## What a run keeps -/

namespace Variables

variable {rs : List Registration} {vs : Variables} {text : String}

/-- A table holds the registered texts, and with each the filters of its first registration. -/
structure Recorded (rs : List Registration) (vs : Variables) : Prop where
  lists : Lists (rs.map (·.text)) vs
  first : ∀ x ∈ vs.entries, ∃ r, Registration.first? rs x.text = some r ∧
    x.stated = r.stated ∧ x.denied = r.denied

theorem recorded_empty : Recorded [] {} := ⟨lists_empty, by simp⟩

theorem Recorded.mem_texts (h : Recorded rs vs) {x : Variable} (hx : x ∈ vs.entries) :
    x.text ∈ Registration.texts rs := by
  rw [Registration.texts, ← h.lists.texts]
  exact List.mem_map_of_mem hx

theorem Recorded.nameOf?_of_mem (h : Recorded rs vs) (hmem : text ∈ Registration.texts rs) :
    vs.nameOf? text = some (renumber (rs.map (·.text)) text) :=
  h.lists.nameOf?_of_mem (List.mem_eraseDups.1 hmem)

theorem Recorded.nameOf?_of_not_mem (h : Recorded rs vs) (hmem : text ∉ Registration.texts rs) :
    vs.nameOf? text = none :=
  h.lists.nameOf?_of_not_mem fun hin => hmem (List.mem_eraseDups.2 hin)

theorem Recorded.register (h : Recorded rs vs) (r : Registration) :
    Recorded (rs ++ [r]) (vs.register r.text r.stated r.denied).2 := by
  have hold : ∀ x ∈ vs.entries, ∃ s, Registration.first? (rs ++ [r]) x.text = some s ∧
      x.stated = s.stated ∧ x.denied = s.denied := by
    intro x hx
    rw [Registration.first?_append_of_mem (h.mem_texts hx)]
    exact h.first x hx
  refine ⟨?_, ?_⟩
  · rw [List.map_append, List.map_singleton]
    exact (h.lists.register r.text r.stated r.denied).2
  · by_cases hmem : r.text ∈ Registration.texts rs
    · rw [register_of_known (h.nameOf?_of_mem hmem)]
      exact hold
    · rw [(register_of_new (h.nameOf?_of_not_mem hmem) r.stated r.denied).2]
      intro x hx
      rcases List.mem_append.1 hx with hx | hx
      · exact hold x hx
      · rw [List.mem_singleton.1 hx]
        exact ⟨r, Registration.first?_append_of_not_mem hmem, rfl, rfl⟩

theorem Recorded.registerEach (h : Recorded rs vs) (more : List Registration) :
    Recorded (rs ++ more) (vs.registerEach more) := by
  induction more generalizing rs vs with
  | nil => rwa [List.append_nil]
  | cons r more ih =>
    have hrest := ih (h.register r)
    rwa [List.append_assoc, List.singleton_append] at hrest

theorem recorded_registered (rs : List Registration) : Recorded rs (registered rs) :=
  recorded_empty.registerEach rs

theorem Recorded.getElem?_vector (h : Recorded rs vs) {i : Nat} {text : String}
    (htext : (Registration.texts rs)[i]? = some text) :
    ∃ r, Registration.first? rs text = some r ∧
      vs.vector[i]? = some ⟨nameAt i, text, r.stated, r.denied⟩ := by
  rw [Registration.texts, ← h.lists.texts, List.getElem?_map, Option.map_eq_some_iff] at htext
  obtain ⟨x, hx, rfl⟩ := htext
  obtain ⟨r, hr, hstated, hdenied⟩ := h.first x (List.mem_of_getElem? hx)
  refine ⟨r, hr, ?_⟩
  rw [← hstated, ← hdenied, ← name_eq hx, ← Array.getElem?_toList]
  exact hx

theorem Recorded.size_vector (h : Recorded rs vs) :
    vs.vector.size = (Registration.texts rs).length :=
  h.lists.size_eq

end Variables

/-! ## The index -/

namespace VariableIndex

open Variables (nameAt)

variable {m : VariableIndex}

/-- The vector and its indexes after further registrations. -/
def registerEach (m : VariableIndex) (rs : List Registration) : VariableIndex :=
  rs.foldl (fun m r => (m.register r.text r.stated r.denied).2) m

/-- The vector and its indexes after registrations from the empty ones on. -/
def registered (rs : List Registration) : VariableIndex := registerEach {} rs

/-- A run keeps the vector and its indexes in agreement. -/
theorem Agree.registerEach (h : m.Agree) (rs : List Registration) : (m.registerEach rs).Agree := by
  induction rs generalizing m with
  | nil => exact h
  | cons r rs ih => exact ih (h.register r.text r.stated r.denied)

theorem toVariableIndex_registerEach (vs : Variables) (rs : List Registration) :
    (vs.registerEach rs).toVariableIndex = vs.toVariableIndex.registerEach rs := by
  induction rs generalizing vs with
  | nil => rfl
  | cons r rs ih => exact ih (vs.register r.text r.stated r.denied).2

/-- A vector of variables and its indexes are those of registrations. -/
structure IsIndex (rs : List Registration) (m : VariableIndex) : Prop where
  /-- The variables are numbered in order, one for each text. -/
  names : m.entries.map (·.name) = (List.range (Registration.texts rs).length).map nameAt
  /-- The variable at a place belongs to the text at that place, and has the filters of the
  first registration of that text. -/
  entry : ∀ (i : Nat) (text : String), (Registration.texts rs)[i]? = some text →
    ∃ r, Registration.first? rs text = some r ∧
      m.vector[i]? = some (Variable.mk (nameAt i) text r.stated r.denied)
  /-- The index by name leads from each name to its place, and from nothing else. -/
  byName_iff : ∀ (name : String) (i : Nat),
    m.byName[name]? = some i ↔ i < (Registration.texts rs).length ∧ name = nameAt i
  /-- The index by text leads from each text to its place, and from nothing else. -/
  byText_iff : ∀ (text : String) (i : Nat),
    m.byText[text]? = some i ↔ (Registration.texts rs)[i]? = some text
  /-- Names find these variables and no others. -/
  find?_iff : ∀ (name : String) (x : Variable),
    m.find? name = some x ↔ ∃ i, m.vector[i]? = some x ∧ name = nameAt i
  /-- Finding the name of a text is inverse to finding the variable with a name. -/
  nameOf?_iff : ∀ text name,
    m.nameOf? text = some name ↔ ∃ x, m.find? name = some x ∧ x.text = text
  /-- Looking up through the indexes finds what a search through the variables finds. -/
  search : (∀ name, m.find? name = m.entries.find? (·.name == name)) ∧
    ∀ text, m.nameOf? text = (m.entries.find? (·.text == text)).map (·.name)
  /-- A known text keeps its name, and nothing changes. -/
  known : ∀ text ∈ Registration.texts rs, ∀ stated denied,
    ∃ name, m.nameOf? text = some name ∧ m.register text stated denied = (name, m)
  /-- A new text gets the next name. -/
  fresh : ∀ text, text ∉ Registration.texts rs → ∀ stated denied,
    m.nameOf? text = none ∧
      (m.register text stated denied).1 = nameAt (Registration.texts rs).length

theorem Agree.byName_iff (h : m.Agree) (name : String) (i : Nat) :
    m.byName[name]? = some i ↔ i < m.vector.size ∧ name = nameAt i := by
  rw [h.byName]
  constructor
  · rintro ⟨x, hx, rfl⟩
    exact ⟨(Array.getElem?_eq_some_iff.1 hx).1, h.names i x hx⟩
  · rintro ⟨hi, rfl⟩
    exact ⟨_, Array.getElem?_eq_getElem hi, h.names i _ (Array.getElem?_eq_getElem hi)⟩

theorem Agree.find?_iff (h : m.Agree) (name : String) (x : Variable) :
    m.find? name = some x ↔ ∃ i, m.vector[i]? = some x ∧ name = nameAt i := by
  rw [find?, Option.bind_eq_some_iff]
  constructor
  · rintro ⟨i, hplace, hx⟩
    exact ⟨i, hx, ((h.byName_iff name i).1 hplace).2⟩
  · rintro ⟨i, hx, rfl⟩
    exact ⟨i, (h.byName_iff _ i).2 ⟨(Array.getElem?_eq_some_iff.1 hx).1, rfl⟩, hx⟩

theorem Agree.nameOf?_iff (h : m.Agree) (text name : String) :
    m.nameOf? text = some name ↔ ∃ x, m.find? name = some x ∧ x.text = text := by
  simp only [nameOf?, Option.bind_eq_some_iff, Option.map_eq_some_iff, h.find?_iff]
  constructor
  · rintro ⟨i, hplace, x, hx, rfl⟩
    obtain ⟨y, hy, htext⟩ := (h.byText text i).1 hplace
    obtain rfl := Option.some.inj (hx.symm.trans hy)
    exact ⟨x, ⟨i, hx, h.names i x hx⟩, htext⟩
  · rintro ⟨x, ⟨i, hx, rfl⟩, htext⟩
    exact ⟨i, (h.byText text i).2 ⟨x, hx, htext⟩, x, hx, h.names i x hx⟩

/-- Whatever is registered from the empty table on, the vector and its indexes are those of the
registrations. -/
theorem registered_isIndex (rs : List Registration) : IsIndex rs (registered rs) := by
  have hagree : (registered rs).Agree := agree_empty.registerEach rs
  have hrun : (Variables.registered rs).toVariableIndex = registered rs :=
    toVariableIndex_registerEach {} rs
  have h := Variables.recorded_registered rs
  rw [← hrun] at hagree ⊢
  refine ⟨?_, fun i text => h.getElem?_vector, ?_, ?_, hagree.find?_iff, hagree.nameOf?_iff,
    ⟨Variables.find?_eq _, Variables.nameOf?_eq _⟩, ?_, ?_⟩
  · rw [h.lists.names, h.lists.size_eq, Registration.texts]
  · intro name i
    rw [hagree.byName_iff, h.size_vector]
  · intro text i
    rw [hagree.byText]
    constructor
    · rintro ⟨x, hx, rfl⟩
      rw [← Array.getElem?_toList] at hx
      exact (h.lists.entry hx).1
    · intro htext
      obtain ⟨r, -, hx⟩ := h.getElem?_vector htext
      exact ⟨_, hx, rfl⟩
  · intro text hmem stated denied
    exact ⟨_, h.nameOf?_of_mem hmem, register_of_known (h.nameOf?_of_mem hmem) stated denied⟩
  · intro text hmem stated denied
    refine ⟨h.nameOf?_of_not_mem hmem, ?_⟩
    rw [register_of_new (h.nameOf?_of_not_mem hmem), size, h.size_vector]

end VariableIndex

end StreamFilter
