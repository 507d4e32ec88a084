import StreamFilter.Proofs.Filter.Merge
set_option autoImplicit false

/-!
# Readings of filters

What folding keeps is not the truth value alone.  A `Reading` assigns a boolean to every
filter and looks at a condition through its triple, if it has one; the laws are those that
merging, negating and regrouping rely on.  Truth under a given set of atoms is one reading,
acceptance by a vocabulary another, mention of an atom a third.

The lemmas here say how a reading sees the conditions of the `contains` family: as one
value for each encoded word (`Reading.wordValue`).  So conditions with the same key are
read as the one condition that holds all their words (`Reading.value_mergeKeys`).
-/

namespace StreamFilter

namespace Connective

variable {α β : Type}

/-- The value of a part that settles the value of the whole. -/
def settling : Connective → Bool
  | and => false
  | or => true

theorem value_eq_settling_iff (c : Connective) {p : α → Bool} {xs : List α} :
    c.value p xs = c.settling ↔ ∃ x ∈ xs, p x = c.settling := by
  cases c <;> simp [value, settling]

/-- Two connections are worth the same if parts that settle them are found in both or in
neither.  Order and repetition play no part. -/
theorem value_congr {c : Connective} {p : α → Bool} {q : β → Bool} {xs : List α} {ys : List β}
    (h : (∃ x ∈ xs, p x = c.settling) ↔ ∃ y ∈ ys, q y = c.settling) :
    c.value p xs = c.value q ys := by
  rw [← value_eq_settling_iff, ← value_eq_settling_iff] at h
  cases hp : c.value p xs <;> cases hq : c.value q ys <;> cases hs : c.settling <;> simp_all

@[simp] theorem value_singleton (c : Connective) (p : α → Bool) (x : α) :
    c.value p [x] = p x := by
  cases c <;> simp [value]

theorem value_map (c : Connective) (p : β → Bool) (g : α → β) (xs : List α) :
    c.value p (xs.map g) = c.value (fun x => p (g x)) xs := by
  cases c <;> simp [value, Function.comp_def]

theorem value_flatMap {c : Connective} {p : α → Bool} {q : β → Bool} {g : α → List β}
    {xs : List α} (h : ∀ x ∈ xs, c.value q (g x) = p x) :
    c.value q (xs.flatMap g) = c.value p xs := by
  refine value_congr ⟨?_, ?_⟩
  · rintro ⟨y, hy, hq⟩
    obtain ⟨x, hx, hy⟩ := List.mem_flatMap.1 hy
    exact ⟨x, hx, by rw [← h x hx, value_eq_settling_iff]; exact ⟨y, hy, hq⟩⟩
  · rintro ⟨x, hx, hp⟩
    rw [← h x hx, value_eq_settling_iff] at hp
    obtain ⟨y, hy, hq⟩ := hp
    exact ⟨y, List.mem_flatMap.2 ⟨x, hx, hy⟩, hq⟩

/-- The connective under which the words of a merged condition are read: a denied list is
one of denied words under the dual. -/
def ofPolarity (c : Connective) : Polarity → Connective
  | .plain => c
  | .negated => c.dual

theorem expansion?_mergeOperator (c : Connective) (p : Polarity) (target list : String) :
    (Triple.mk target (c.mergeOperator p) (some list)).expansion? =
      some (c.ofPolarity p, (Text.WordList.words list).map (Triple.containing target)) := by
  cases c <;> cases p <;> simp [Triple.expansion?, mergeOperator, ofPolarity, dual]

end Connective

/-- A way to read filters.  A condition is read through its triple, a list condition
through the conditions it stands for, a negation that starts with a target through the
condition with its children, and any other negation through the group of its children.  A
strict reading reads a connective by its parts only if there are two or more. -/
structure Reading where
  strict : Bool
  value : Filter → Bool
  triple : Triple → Bool
  /-- How connectives are read. -/
  connective : Connective → Connective
  /-- How negation is read. -/
  negation : Bool → Bool
  value_join : ∀ c cs, (strict = true → 2 ≤ cs.length) →
    value (c.join cs) = (connective c).value value cs
  value_group : ∀ f, value (.group [f]) = value f
  value_target : ∀ name, value (.condition [.target name]) = value (.target name)
  value_condition : ∀ cs t, Filter.triple? cs = some t → value (.condition cs) = triple t
  value_not_target : ∀ cs, Filter.startsWithTarget cs = true →
    value (.not cs) = negation (value (.condition cs))
  value_not : ∀ cs, Filter.startsWithTarget cs = false →
    value (.not cs) = negation (value (.group cs))
  triple_expansion : ∀ t c parts, t.expansion? = some (c, parts) →
    triple t = (connective c).value triple parts
  negation_negation : ∀ x, negation (negation x) = x
  value_dual : ∀ c xs, (connective c.dual).value negation xs = negation ((connective c).value id xs)

namespace Reading

variable (E : Reading)

theorem value_not_singleton (f : Filter) : E.value (.not [f]) = E.negation (E.value f) := by
  by_cases hstart : Filter.startsWithTarget [f] = true
  · match f, hstart with
    | .target name, _ => rw [E.value_not_target _ rfl, E.value_target]
  · rw [E.value_not _ (by simpa using hstart), E.value_group]

theorem negation_value {α : Type} (c : Connective) (p : α → Bool) (xs : List α) :
    (E.connective c.dual).value (fun x => E.negation (p x)) xs =
      E.negation ((E.connective c).value p xs) := by
  have h := E.value_dual c (xs.map p)
  rw [Connective.value_map, Connective.value_map] at h
  exact h

/-! ## Conditions of one polarity -/

/-- The value of a triple that is stated or denied. -/
def polarValue : Polarity → Triple → Bool
  | .plain, t => E.triple t
  | .negated, t => E.negation (E.triple t)

theorem value_node (p : Polarity) (t : Triple) :
    E.value (p.node (Filter.ofTriple t)) = E.polarValue p t := by
  cases p with
  | plain =>
    rw [Polarity.node, E.value_condition _ _ (Filter.triple?_ofTriple t)]
    rfl
  | negated =>
    rw [Polarity.node, E.value_not_target _ (Filter.startsWithTarget_ofTriple t),
      E.value_condition _ _ (Filter.triple?_ofTriple t)]
    rfl

theorem value_of_containment? {f : Filter} {k : Containment} (h : f.containment? = some k) :
    E.value f = E.polarValue k.polarity k.triple := by
  obtain ⟨-, ⟨hp, cs, rfl, ht⟩ | ⟨hp, cs, rfl, hstart, ht⟩⟩ := Filter.containment?_cases h
  · rw [E.value_condition _ _ ht, hp]
    rfl
  · rw [E.value_not_target _ hstart, E.value_condition _ _ ht, hp]
    rfl

/-- The value of one encoded word of a condition that is stated or denied. -/
def wordValue (p : Polarity) (target word : String) : Bool :=
  E.polarValue p (.containing target (Text.WordList.decode word))

/-- A merged condition is worth what its words are worth under the connective. -/
theorem polarValue_mergeOperator (c : Connective) (p : Polarity) (target list : String) :
    E.polarValue p ⟨target, c.mergeOperator p, some list⟩ =
      (E.connective c).value (E.wordValue p target) (Text.WordList.encodedWords list) := by
  have hlist := E.triple_expansion _ _ _ (c.expansion?_mergeOperator p target list)
  rw [Text.WordList.words, List.map_map, Connective.value_map] at hlist
  cases p with
  | plain => exact hlist
  | negated =>
    rw [polarValue, hlist, ← E.negation_value, Connective.ofPolarity, Connective.dual_dual]
    rfl

theorem polarValue_of_mergesUnder {c : Connective} {k : Containment}
    (h : k.mergesUnder c = true) :
    E.polarValue k.polarity k.triple =
      (E.connective c).value (E.wordValue k.polarity k.target) k.encodedWords := by
  obtain ⟨hcontains | hlist, -⟩ := Containment.mergesUnder_iff.1 h
  · have hwords : k.encodedWords = [Text.WordList.encode k.argument] := if_pos hcontains
    rw [hwords, Connective.value_singleton, wordValue, Text.WordList.decode_encode,
      Triple.containing, Containment.triple, hcontains]
  · rw [Containment.encodedWords_of_mergeOperator hlist, ← E.polarValue_mergeOperator,
      Containment.triple, hlist]

theorem value_containmentNode {c : Connective} {p : Polarity} {target : String} {ws : List String}
    (hws : Containment.Joinable ws) :
    E.value (Containment.node p target (c.mergeOperator p) ws) =
      (E.connective c).value (E.wordValue p target) ws := by
  unfold Containment.node
  split
  next word =>
    rw [E.value_node, Connective.value_singleton]
    rfl
  next =>
    rw [E.value_node, E.polarValue_mergeOperator,
      Text.WordList.encodedWords_join hws.ne_nil hws.uncut hws.unescaping]

/-! ## Merging -/

/-- The one condition for a key is worth what all those with the key are worth. -/
theorem value_mergeKey {c : Connective} {ks : List Containment} {key : String × Polarity}
    (hks : ∀ k ∈ ks, k.mergesUnder c = true) (hkey : key ∈ Containment.keys ks) :
    E.value (Containment.mergeKey c ks key) = (E.connective c).value
      (fun k => E.polarValue k.polarity k.triple) (ks.filter (·.key == key)) := by
  have hwords : (E.connective c).value (E.wordValue key.2 key.1)
      ((ks.filter (·.key == key)).flatMap Containment.encodedWords) =
        (E.connective c).value (fun k => E.polarValue k.polarity k.triple)
          (ks.filter (·.key == key)) := by
    refine Connective.value_flatMap fun k hk => ?_
    obtain ⟨hk, hkey⟩ := List.mem_filter.1 hk
    rw [E.polarValue_of_mergesUnder (hks k hk), ← beq_iff_eq.1 hkey]
    rfl
  rw [Containment.mergeKey_eq, E.value_containmentNode (Containment.joinable_wordsOf hks hkey),
    ← hwords]
  exact Connective.value_congr (by simp [Containment.wordsOf, ascendingTexts])

/-- Putting conditions with one key into one keeps the value of the connective. -/
theorem value_mergeKeys {c : Connective} {ks : List Containment}
    (hks : ∀ k ∈ ks, k.mergesUnder c = true) :
    (E.connective c).value E.value ((Containment.keys ks).map (Containment.mergeKey c ks)) =
      (E.connective c).value (fun k => E.polarValue k.polarity k.triple) ks := by
  rw [Connective.value_map]
  refine Connective.value_congr ⟨?_, ?_⟩
  · rintro ⟨key, hkey, hvalue⟩
    rw [E.value_mergeKey hks hkey, Connective.value_eq_settling_iff] at hvalue
    obtain ⟨k, hk, hvalue⟩ := hvalue
    exact ⟨k, (List.mem_filter.1 hk).1, hvalue⟩
  · rintro ⟨k, hk, hvalue⟩
    have hkey : k.key ∈ Containment.keys ks := Containment.mem_keys_iff.2 ⟨k, hk, rfl⟩
    refine ⟨k.key, hkey, ?_⟩
    rw [E.value_mergeKey hks hkey, Connective.value_eq_settling_iff]
    exact ⟨k, List.mem_filter.2 ⟨hk, by simp⟩, hvalue⟩

/-- A list condition of one word is worth its word. -/
theorem value_degrade (f : Filter) : E.value f.degrade = E.value f := by
  unfold Filter.degrade
  split
  next k hk =>
    split
    · rfl
    next hoperator =>
      split
      next word hword =>
        obtain ⟨c, hc⟩ :=
          Containment.exists_mergeOperator_eq (Filter.containment?_cases hk).1 hoperator
        rw [E.value_of_containment? hk, Containment.node, E.value_node, Containment.triple, hc,
          E.polarValue_mergeOperator, ← Containment.encodedWords_of_mergeOperator hc, hword,
          Connective.value_singleton]
        rfl
      · rfl
  next => rfl

end Reading

end StreamFilter
