import StreamFilter.Filter.Json
import StreamFilter.Proofs.Fault
set_option autoImplicit false

/-!
# The JSON form of filters is exact

A value is read as a filter exactly if it is what that filter is written as
(`Filter.ofJson_eq_ok_iff`): nothing is lost in writing, and there is one way only to write a
filter.  Which values these are can be said without filters (`Json.IsNode`): objects with one
member, whose name is that of a kind and whose value has the shape that the kind demands, down
to the last node.
-/

namespace StreamFilter

namespace Kind

theorem ofName?_name (kind : Kind) : ofName? kind.name = some kind := by
  cases kind <;> rfl

theorem ofName?_eq_some_iff {name : String} {kind : Kind} :
    ofName? name = some kind ↔ name = kind.name := by
  constructor
  · intro h
    have hname := List.find?_some h
    exact (beq_iff_eq.1 hname).symm
  · rintro rfl
    exact ofName?_name kind

end Kind

/-- The values that have the shape of a node. -/
inductive Json.IsNode : Json → Prop where
  /-- A node with children holds a list of nodes. -/
  | nodes {name : String} {items : List Json} :
      name ∈ ["and", "or", "not", "condition", "logical_group"] →
      (∀ item ∈ items, IsNode item) → IsNode (.object [(name, .array items)])
  /-- An end of the tree holds a text. -/
  | text {name text : String} :
      name ∈ ["raw", "target", "operator", "string"] → IsNode (.object [(name, .string text)])
  /-- An argument holds one node. -/
  | node {value : Json} : IsNode value → IsNode (.object [("argument", value)])

namespace Filter

/-! ## Reading one node -/

/-- What reading a node asks of the value under the name of its kind. -/
def ReadFrom (payload : Json) : Filter → Prop
  | and cs | or cs | not cs | condition cs | group cs => ofJsonList payload = .ok cs
  | raw text | target text | operator text | string text => textOfJson payload = .ok text
  | argument content => ofJson payload = .ok content

theorem textOfJson_eq_ok_iff {value : Json} {text : String} :
    textOfJson value = .ok text ↔ value = .string text := by
  cases value <;> simp [textOfJson]

theorem ofJsonList_eq_ok_iff {value : Json} {fs : List Filter} :
    ofJsonList value = .ok fs ↔ ∃ items, value = .array items ∧ ofJsons items = .ok fs := by
  cases value <;> simp [ofJsonList]

theorem ofJsons_cons_eq_ok_iff {item : Json} {items : List Json} {fs : List Filter} :
    ofJsons (item :: items) = .ok fs ↔
      ∃ g gs, ofJson item = .ok g ∧ ofJsons items = .ok gs ∧ fs = g :: gs := by
  rw [ofJsons]
  constructor
  · intro h
    obtain ⟨g, hg, hrest⟩ := exists_of_bind_eq_ok h
    obtain ⟨gs, hgs, hlist⟩ := exists_of_bind_eq_ok hrest
    exact ⟨g, gs, hg, hgs, (Except.ok.inj hlist).symm⟩
  · rintro ⟨g, gs, hg, hgs, rfl⟩
    rw [hg, hgs]
    rfl

/-- A node is read from an object whose only member has the name of its kind. -/
theorem ofJson_eq_ok_iff_readFrom {value : Json} {f : Filter} :
    ofJson value = .ok f ↔
      ∃ payload, value = .object [(f.kind.name, payload)] ∧ f.ReadFrom payload := by
  constructor
  · intro h
    unfold ofJson at h
    split at h
    next name payload =>
      cases hkind : Kind.ofName? name with
      | none =>
        rw [hkind] at h
        cases h
      | some kind =>
        rw [hkind] at h
        rw [Kind.ofName?_eq_some_iff.1 hkind]
        -- every kind wraps what it has read from the payload
        refine ⟨payload, ?_⟩
        cases kind
        all_goals
          obtain ⟨content, hcontent, rfl⟩ := exists_of_map_eq_ok h
          exact ⟨rfl, hcontent⟩
    next => cases h
    next => split at h <;> cases h
    next => cases h
  · rintro ⟨payload, rfl, hread⟩
    rw [ofJson, Kind.ofName?_name]
    cases f
    all_goals
      rw [ReadFrom] at hread
      simp only [kind, hread, Except.map]

/-! ## Reading undoes writing -/

mutual

/-- A value is read as a filter exactly if the filter is written as this value. -/
theorem ofJson_eq_ok_iff : ∀ (f : Filter) (value : Json), ofJson value = .ok f ↔ value = toJson f
  | and cs, value | or cs, value | not cs, value | condition cs, value | group cs, value => by
    simp [ofJson_eq_ok_iff_readFrom, kind, ReadFrom, toJson, ofJsonList_eq_ok_iff,
      ofJsons_eq_ok_iff cs]
  | raw text, value | target text, value | operator text, value | string text, value => by
    simp [ofJson_eq_ok_iff_readFrom, kind, ReadFrom, toJson, textOfJson_eq_ok_iff]
  | argument content, value => by
    simp [ofJson_eq_ok_iff_readFrom (f := argument content), kind, ReadFrom, toJson,
      ofJson_eq_ok_iff content]

theorem ofJsons_eq_ok_iff : ∀ (fs : List Filter) (items : List Json),
    ofJsons items = .ok fs ↔ items = toJsons fs
  | [], items => by
    cases items with
    | nil => simp [ofJsons, toJsons]
    | cons item items => simp [ofJsons_cons_eq_ok_iff, toJsons]
  | f :: fs, items => by
    cases items with
    | nil => simp [ofJsons, toJsons]
    | cons item items =>
      simp [ofJsons_cons_eq_ok_iff, toJsons, ← ofJson_eq_ok_iff f item,
        ← ofJsons_eq_ok_iff fs items]

end

/-! ## The shape of nodes -/

theorem exists_toJsons {items : List Json} (h : ∀ item ∈ items, ∃ f, toJson f = item) :
    ∃ fs, toJsons fs = items := by
  induction items with
  | nil => exact ⟨[], rfl⟩
  | cons item items ih =>
    obtain ⟨f, hf⟩ := h item List.mem_cons_self
    obtain ⟨fs, hfs⟩ := ih fun other hother => h other (List.mem_cons_of_mem _ hother)
    exact ⟨f :: fs, by rw [toJsons, hf, hfs]⟩

/-- A value of the right shape is what some filter is written as. -/
theorem exists_toJson_of_isNode {value : Json} (h : value.IsNode) : ∃ f, toJson f = value := by
  induction h with
  | nodes hname _ ih =>
    obtain ⟨cs, rfl⟩ := exists_toJsons ih
    simp only [List.mem_cons, List.not_mem_nil, or_false] at hname
    rcases hname with rfl | rfl | rfl | rfl | rfl
    · exact ⟨and cs, rfl⟩
    · exact ⟨or cs, rfl⟩
    · exact ⟨not cs, rfl⟩
    · exact ⟨condition cs, rfl⟩
    · exact ⟨group cs, rfl⟩
  | @text name text hname =>
    simp only [List.mem_cons, List.not_mem_nil, or_false] at hname
    rcases hname with rfl | rfl | rfl | rfl
    · exact ⟨raw text, rfl⟩
    · exact ⟨target text, rfl⟩
    · exact ⟨operator text, rfl⟩
    · exact ⟨string text, rfl⟩
  | node _ ih =>
    obtain ⟨content, rfl⟩ := ih
    exact ⟨argument content, rfl⟩

mutual

theorem isNode_toJson : ∀ f : Filter, (toJson f).IsNode
  | and cs | or cs | not cs | condition cs | group cs =>
    .nodes (by simp [Kind.name]) (isNode_of_mem_toJsons cs)
  | raw _ | target _ | operator _ | string _ => .text (by simp [Kind.name])
  | argument content => .node (isNode_toJson content)

theorem isNode_of_mem_toJsons : ∀ (fs : List Filter), ∀ item ∈ toJsons fs, item.IsNode
  | [], _, h => absurd h List.not_mem_nil
  | f :: fs, item, h => by
    rcases List.mem_cons.1 h with rfl | h
    · exact isNode_toJson f
    · exact isNode_of_mem_toJsons fs item h

end

theorem exists_ofJson_iff {value : Json} : (∃ f, ofJson value = .ok f) ↔ value.IsNode := by
  simp only [ofJson_eq_ok_iff]
  constructor
  · rintro ⟨f, rfl⟩
    exact isNode_toJson f
  · intro h
    obtain ⟨f, rfl⟩ := exists_toJson_of_isNode h
    exact ⟨f, rfl⟩

theorem exists_toJson_eq_object (f : Filter) :
    ∃ payload, toJson f = .object [(f.kind.name, payload)] := by
  cases f <;> exact ⟨_, rfl⟩

/-- The JSON form of filters is exact.  What is written is read back; what is read is what the
filter is written as, an object with the name of its kind as the only name; and everything that
does not have the shape of a node at every level is refused. -/
theorem ofJson_exact :
    (∀ f : Filter, ofJson (toJson f) = .ok f) ∧
    (∀ (value : Json) (f : Filter), ofJson value = .ok f ↔ toJson f = value) ∧
    (∀ f : Filter, ∃ payload, toJson f = .object [(f.kind.name, payload)]) ∧
    ∀ value : Json, ((∃ f, ofJson value = .ok f) ↔ value.IsNode) ∧
      ((∃ misfit, ofJson value = .error misfit) ↔ ¬value.IsNode) := by
  refine ⟨fun f => (ofJson_eq_ok_iff f _).2 rfl, fun value f => ?_, exists_toJson_eq_object,
    fun value => ⟨exists_ofJson_iff, ?_⟩⟩
  · rw [ofJson_eq_ok_iff, eq_comm]
  · rw [← exists_ofJson_iff]
    cases ofJson value <;> simp

end Filter

end StreamFilter
