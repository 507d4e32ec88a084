import StreamFilter.Filter.Height
import StreamFilter.Filter.Meaning
set_option autoImplicit false

/-!
# Merging the conditions of a connective

Under one connective, conditions of the `contains` family on the same target and
of the same polarity say together what one list condition says:

    a contains "x" AND a contains "y"          is  a contains_all "x,y"
    NOT a contains "x" AND NOT a contains "y"  is  NOT a contains_any "x,y"

`Filter.merge` inlines children of the same connective and then puts each set of
such conditions into one.  It looks at the children only, not below them.
-/

namespace StreamFilter

/-- Whether a condition is stated or denied. -/
inductive Polarity where
  | plain | negated
  deriving DecidableEq, Repr, Inhabited

/-- The node that states or denies the triple its children spell. -/
def Polarity.node : Polarity → List Filter → Filter
  | plain => .condition
  | negated => .not

/-- The list operator that joins words of one polarity under a connective. -/
def Connective.mergeOperator : Connective → Polarity → String
  | .and, .plain | .or, .negated => "contains_all"
  | .and, .negated | .or, .plain => "contains_any"

/-- A condition of the `contains` family: its polarity, target, operator and
argument. -/
structure Containment where
  polarity : Polarity
  target : String
  operator : String
  argument : String
  deriving DecidableEq, Repr, Inhabited

namespace Containment

/-- The operators of the family. -/
def operators : List String := ["contains", "contains_any", "contains_all"]

/-- Reads a triple as a condition of the family. -/
def ofTriple? (polarity : Polarity) (t : Triple) : Option Containment :=
  match t.argument with
  | some argument =>
    if operators.contains t.operator then some ⟨polarity, t.target, t.operator, argument⟩
    else none
  | none => none

/-- The words of the condition, encoded as in a list. -/
def encodedWords (k : Containment) : List String :=
  if k.operator = "contains" then [Text.WordList.encode k.argument]
  else Text.WordList.encodedWords k.argument

/-- A word that ends in a backslash would escape the comma after it. -/
def endsInBackslash (word : String) : Bool := word.toList.getLast? == some '\\'

/-- Whether the condition can be put into one list with others under a
connective. -/
def mergesUnder (c : Connective) (k : Containment) : Bool :=
  (k.operator == "contains" || k.operator == c.mergeOperator k.polarity) &&
    !k.encodedWords.any endsInBackslash

/-- Conditions with one key are put into one list. -/
def key (k : Containment) : String × Polarity := (k.target, k.polarity)

/-- The condition for a list of encoded words.  One word makes a plain
`contains`. -/
def node (polarity : Polarity) (target operator : String) (encoded : List String) : Filter :=
  match encoded with
  | [word] =>
    polarity.node (Filter.ofTriple ⟨target, "contains", some (Text.WordList.decode word)⟩)
  | ws => polarity.node (Filter.ofTriple ⟨target, operator, some (Text.WordList.join ws)⟩)

/-- The keys of some conditions.  Those with one target stand together, targets
and keys in the order in which they are first seen. -/
def keys (ks : List Containment) : List (String × Polarity) :=
  let seen := (ks.map key).eraseDups
  (seen.map (·.1)).eraseDups.flatMap fun target => seen.filter (·.1 == target)

/-- One condition for all those that share a key. -/
def mergeKey (c : Connective) (ks : List Containment) (k : String × Polarity) : Filter :=
  let words := ascendingTexts ((ks.filter (·.key == k)).flatMap encodedWords)
  node k.2 k.1 (c.mergeOperator k.2) words

end Containment

namespace Filter

/-- Reads a node as a condition of the `contains` family. -/
def containment? : Filter → Option Containment
  | condition cs => (triple? cs).bind (Containment.ofTriple? .plain)
  | not cs =>
    if startsWithTarget cs then (triple? cs).bind (Containment.ofTriple? .negated) else none
  | _ => none

/-- A node that can be put into one list with others under a connective. -/
def mergeable? (c : Connective) (f : Filter) : Option Containment :=
  f.containment?.filter (·.mergesUnder c)

/-- The children that a child contributes to a connective: those of the same
connective take its place. -/
def inlined (c : Connective) (f : Filter) : List Filter :=
  match f.exposed? with
  | some (d, cs) => if d = c then cs else [f]
  | none => [f]

/-- A connective of one filter is that filter. -/
def collapse (c : Connective) : List Filter → Filter
  | [f] => f
  | fs => c.join fs

/-- Joins filters by a connective, one condition in place of those that merge.
What does not merge comes first, in its order. -/
def merge (c : Connective) (fs : List Filter) : Filter :=
  let flat := fs.flatMap (inlined c)
  let merging := flat.filterMap (mergeable? c)
  let others := flat.filter fun f => (mergeable? c f).isNone
  collapse c (others ++ (Containment.keys merging).map (Containment.mergeKey c merging))

/-- A list condition of one word is a plain `contains`. -/
def degrade (f : Filter) : Filter :=
  match f.containment? with
  | some k =>
    if k.operator = "contains" then f
    else match k.encodedWords with
      | [word] => Containment.node k.polarity k.target k.operator [word]
      | _ => f
  | none => f

/-- The negation of a filter that is no connective. -/
def negate : Filter → Filter
  | condition cs => not cs
  | not cs =>
    if startsWithTarget cs then condition cs
    else match cs with
      | [f] => f
      | _ => not [not cs]
  | f => not [f]

/-! ## Merging and negating keep the height in bounds -/

theorem height_join (c : Connective) (fs : List Filter) :
    (c.join fs).height = 1 + tallest fs := by
  cases c <;> simp [Connective.join]

theorem height_collapse_le (c : Connective) (fs : List Filter) :
    (collapse c fs).height ≤ 1 + tallest fs := by
  unfold collapse
  split
  · simp
  · exact Nat.le_of_eq (height_join c _)

theorem height_lt_of_mem_exposed? {f : Filter} {c : Connective} {cs : List Filter}
    (h : f.exposed? = some (c, cs)) : tallest cs < f.height := by
  unfold exposed? at h
  split at h
  · have := eq_join_of_connective? h
    subst this
    simp [height_join]
    omega
  · have := eq_join_of_connective? h
    subst this
    simp [height_join]

theorem height_le_of_mem_inlined {c : Connective} {f g : Filter} (h : g ∈ inlined c f) :
    g.height ≤ f.height := by
  unfold inlined at h
  split at h
  next d cs hf =>
    split at h
    · have := height_lt_of_mem_exposed? hf
      have := height_le_tallest h
      omega
    · simp_all
  next => simp_all

theorem height_containment_node (p : Polarity) (target operator : String) (ws : List String) :
    (Containment.node p target operator ws).height = (p.node [argument (string "")]).height := by
  unfold Containment.node
  split <;> cases p <;> simp [Polarity.node, height]

theorem height_containment_le {f : Filter} {k : Containment} (h : f.containment? = some k) :
    (k.polarity.node [argument (string "")]).height ≤ f.height := by
  have key : ∀ (p : Polarity) (cs : List Filter),
      (triple? cs).bind (Containment.ofTriple? p) = some k →
        k.polarity = p ∧ 2 ≤ tallest cs := by
    intro p cs hk
    obtain ⟨t, ht, hk⟩ := Option.bind_eq_some_iff.1 hk
    unfold Containment.ofTriple? at hk
    split at hk
    next text ha =>
      split at hk
      · cases hk
        refine ⟨rfl, ?_⟩
        unfold triple? at ht
        split at ht
        · cases ht; exact two_le_tallest ha
        · cases ht
      · cases hk
    next => cases hk
  unfold containment? at h
  split at h
  · obtain ⟨hp, ht⟩ := key _ _ h
    rw [hp]; simp [Polarity.node, height]; omega
  · split at h
    · obtain ⟨hp, ht⟩ := key _ _ h
      rw [hp]; simp [Polarity.node, height]; omega
    · cases h
  · cases h

theorem mem_keys {ks : List Containment} {k : String × Polarity} (h : k ∈ Containment.keys ks) :
    ∃ x ∈ ks, x.key = k := by
  simp only [Containment.keys, List.mem_flatMap, List.mem_filter] at h
  obtain ⟨_, _, h, _⟩ := h
  rw [List.mem_eraseDups] at h
  simpa using h

theorem height_merge_le (c : Connective) (fs : List Filter) :
    (merge c fs).height ≤ 1 + tallest fs := by
  refine Nat.le_trans (height_collapse_le c _) (Nat.add_le_add_left ?_ 1)
  rw [tallest_le_iff]
  have flat : ∀ g ∈ fs.flatMap (inlined c), g.height ≤ tallest fs := by
    intro g hg
    obtain ⟨f, hf, hg⟩ := List.mem_flatMap.1 hg
    exact Nat.le_trans (height_le_of_mem_inlined hg) (height_le_tallest hf)
  intro g hg
  rcases List.mem_append.1 hg with hg | hg
  · exact flat g (List.mem_filter.1 hg).1
  · obtain ⟨k, hk, rfl⟩ := List.mem_map.1 hg
    obtain ⟨x, hx, rfl⟩ := mem_keys hk
    obtain ⟨f, hf, hx⟩ := List.mem_filterMap.1 hx
    have hc : f.containment? = some x := by
      unfold mergeable? at hx
      exact (Option.filter_eq_some_iff.1 hx).1
    refine Nat.le_trans ?_ (flat f hf)
    refine Nat.le_trans (Nat.le_of_eq ?_) (height_containment_le hc)
    simp [Containment.mergeKey, Containment.key, height_containment_node]

theorem height_degrade_le (f : Filter) : (degrade f).height ≤ f.height := by
  unfold degrade
  split
  next k hk =>
    split
    · exact Nat.le_refl _
    · split
      · rw [height_containment_node]; exact height_containment_le hk
      · exact Nat.le_refl _
  next => exact Nat.le_refl _

theorem height_negate_le (f : Filter) : (negate f).height ≤ (not [f]).height := by
  unfold negate
  split
  · simp only [height_not, height_condition, tallest_cons, tallest_nil]; omega
  · split
    · simp only [height_not, height_condition, tallest_cons, tallest_nil]; omega
    · split
      · simp only [height_not, tallest_cons, tallest_nil]; omega
      · exact Nat.le_refl _
  · exact Nat.le_refl _

theorem height_parenthesized_le (f : Filter) : (parenthesized f).height ≤ 1 + f.height := by
  unfold parenthesized
  split
  · simp
  · omega

end Filter

end StreamFilter
