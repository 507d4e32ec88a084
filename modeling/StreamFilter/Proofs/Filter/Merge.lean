import Mathlib.Data.List.Basic
import StreamFilter.Filter.Merge
import StreamFilter.Proofs.Ascending
import StreamFilter.Proofs.Formula.Variables
import StreamFilter.Proofs.Text.WordList
set_option autoImplicit false

/-!
# Merging once is enough

Merging writes one condition for each key, with the words of all the conditions that have
the key (`Containment.wordsOf`).  That condition is read back with the same key and the
same words (`Filter.mergeable?_mergeKey`), and the keys are found again in the order in which
they were written (`Containment.keys_of_map_key`).  So what has been merged, and holds no
part of the same connective, is left as it is by merging again (`Filter.merged_mergedParts`).
-/

namespace StreamFilter

theorem Connective.mergeOperator_ne_contains (c : Connective) (p : Polarity) :
    c.mergeOperator p ≠ "contains" := by
  cases c <;> cases p <;> simp [mergeOperator]

namespace Containment

/-- The triple that a condition of the family states or denies. -/
def triple (k : Containment) : Triple := ⟨k.target, k.operator, some k.argument⟩

theorem ofTriple?_eq_some {p : Polarity} {t : Triple} {k : Containment}
    (h : ofTriple? p t = some k) :
    k.polarity = p ∧ k.triple = t ∧ k.operator ∈ operators := by
  unfold ofTriple? at h
  split at h
  next argument hargument =>
    split at h
    next hoperator =>
      cases h
      refine ⟨rfl, ?_, by simpa using hoperator⟩
      cases t
      simp_all [triple]
    next => cases h
  next => cases h

/-- A condition of the family that is no plain `contains` is the list condition of some
connective. -/
theorem exists_mergeOperator_eq {k : Containment} (hk : k.operator ∈ operators)
    (hne : k.operator ≠ "contains") : ∃ c : Connective, k.operator = c.mergeOperator k.polarity := by
  have hlist : k.operator = "contains_any" ∨ k.operator = "contains_all" := by
    simpa [operators, hne] using hk
  rcases hlist with h | h
  · cases hp : k.polarity with
    | plain => exact ⟨.or, by rw [h]; rfl⟩
    | negated => exact ⟨.and, by rw [h]; rfl⟩
  · cases hp : k.polarity with
    | plain => exact ⟨.and, by rw [h]; rfl⟩
    | negated => exact ⟨.or, by rw [h]; rfl⟩

theorem encodedWords_of_mergeOperator {k : Containment} {c : Connective}
    (h : k.operator = c.mergeOperator k.polarity) :
    k.encodedWords = Text.WordList.encodedWords k.argument := by
  rw [encodedWords, if_neg]
  rw [h]
  exact c.mergeOperator_ne_contains _

theorem encodedWords_ne_nil (k : Containment) : k.encodedWords ≠ [] := by
  unfold encodedWords
  split
  · simp
  · exact Text.WordList.encodedWords_ne_nil _

/-- Words of a condition can be joined if none ends in a backslash. -/
theorem encodedWords_of_mem_encodedWords {k : Containment} {word : String}
    (h : word ∈ k.encodedWords) : Text.WordList.encodedWords word = [word] := by
  unfold encodedWords at h
  split at h
  · rw [List.mem_singleton] at h
    rw [h]
    exact Text.WordList.encodedWords_encode _
  · exact Text.WordList.encodedWords_of_mem h

theorem mergesUnder_iff {c : Connective} {k : Containment} :
    k.mergesUnder c = true ↔
      (k.operator = "contains" ∨ k.operator = c.mergeOperator k.polarity) ∧
        ∀ word ∈ k.encodedWords, word.toList.getLast? ≠ some '\\' := by
  simp [mergesUnder, endsInBackslash]

theorem mem_keys_iff {ks : List Containment} {key : String × Polarity} :
    key ∈ keys ks ↔ ∃ k ∈ ks, k.key = key := by
  refine ⟨Filter.mem_keys, ?_⟩
  rintro ⟨k, hk, rfl⟩
  have hseen : k.key ∈ (ks.map Containment.key).eraseDups :=
    List.mem_eraseDups.2 (List.mem_map.2 ⟨k, hk, rfl⟩)
  simp only [keys, List.mem_flatMap, List.mem_filter]
  exact ⟨k.key.1, List.mem_eraseDups.2 (List.mem_map.2 ⟨k.key, hseen, rfl⟩), hseen, by simp⟩

/-! ## Keys -/

theorem nodup_keys (ks : List Containment) : (keys ks).Nodup := by
  unfold keys
  refine List.pairwise_flatMap.2 ⟨fun target _ => ?_, ?_⟩
  · exact (Formula.nodup_eraseDups (ks.map key)).filter _
  · refine (Formula.nodup_eraseDups _).imp fun hne k hk k' hk' hsame => hne ?_
    have htarget := (List.mem_filter.1 hk).2
    have htarget' := (List.mem_filter.1 hk').2
    rw [beq_iff_eq] at htarget htarget'
    rw [← htarget, ← htarget', hsame]

theorem eraseDups_of_nodup {α : Type} [BEq α] [LawfulBEq α] {xs : List α} (h : xs.Nodup) :
    xs.eraseDups = xs := by
  induction xs with
  | nil => rfl
  | cons x xs ih =>
    obtain ⟨hx, hxs⟩ := List.nodup_cons.1 h
    have hkeep : xs.filter (fun y => !y == x) = xs := by
      rw [List.filter_eq_self]
      intro y hy
      have hne : y ≠ x := fun hyx => hx (hyx ▸ hy)
      simpa using hne
    rw [List.eraseDups_cons, hkeep, ih hxs]

section Blocks

/-! Elements that are listed in blocks, one block for each label. -/

variable {α β : Type} [BEq β] [LawfulBEq β] {label : α → β} {block : β → List α} {labels : List β}

/-- A block is found again by its label. -/
theorem filter_flatMap_block (hblock : ∀ b, ∀ x ∈ block b, label x = b) (hlabels : labels.Nodup)
    {b : β} (hb : b ∈ labels) : (labels.flatMap block).filter (label · == b) = block b := by
  induction labels with
  | nil => cases hb
  | cons a labels ih =>
    obtain ⟨ha, hlabels⟩ := List.nodup_cons.1 hlabels
    rw [List.flatMap_cons, List.filter_append]
    rcases Classical.em (b = a) with rfl | hba
    · have hown : (block b).filter (label · == b) = block b := by
        rw [List.filter_eq_self]
        intro x hx
        simpa using hblock b x hx
      have hothers : (labels.flatMap block).filter (label · == b) = [] := by
        rw [List.filter_eq_nil_iff]
        intro x hx hxb
        obtain ⟨c, hc, hx⟩ := List.mem_flatMap.1 hx
        rw [beq_iff_eq, hblock c x hx] at hxb
        exact ha (hxb ▸ hc)
      rw [hown, hothers, List.append_nil]
    · have hown : (block a).filter (label · == b) = [] := by
        rw [List.filter_eq_nil_iff]
        intro x hx hxb
        rw [beq_iff_eq, hblock a x hx] at hxb
        exact hba hxb.symm
      rw [hown, List.nil_append, ih hlabels ((List.mem_cons.1 hb).resolve_left hba)]

/-- The labels are found again in their order. -/
theorem eraseDups_map_flatMap_block (hblock : ∀ b, ∀ x ∈ block b, label x = b)
    (hne : ∀ b ∈ labels, block b ≠ []) (hlabels : labels.Nodup) :
    ((labels.flatMap block).map label).eraseDups = labels := by
  induction labels with
  | nil => rfl
  | cons b labels ih =>
    obtain ⟨hb, hlabels⟩ := List.nodup_cons.1 hlabels
    have hrest := ih (fun c hc => hne c (List.mem_cons_of_mem _ hc)) hlabels
    obtain ⟨x, xs, hxs⟩ := List.exists_cons_of_ne_nil (hne b List.mem_cons_self)
    have hown : ∀ y ∈ x :: xs, label y = b := hxs ▸ hblock b
    have hsame : (xs.map label).filter (fun c => !c == b) = [] := by
      rw [List.filter_eq_nil_iff]
      intro c hc
      obtain ⟨y, hy, rfl⟩ := List.mem_map.1 hc
      simp [hown y (List.mem_cons_of_mem _ hy)]
    have hothers : ((labels.flatMap block).map label).filter (fun c => !c == b) =
        (labels.flatMap block).map label := by
      rw [List.filter_eq_self]
      intro c hc
      obtain ⟨y, hy, rfl⟩ := List.mem_map.1 hc
      obtain ⟨d, hd, hy⟩ := List.mem_flatMap.1 hy
      rw [hblock d y hy]
      have hdb : d ≠ b := fun hdb => hb (hdb ▸ hd)
      simpa using hdb
    rw [List.flatMap_cons, hxs, List.cons_append, List.map_cons, hown x List.mem_cons_self,
      List.eraseDups_cons, List.map_append, List.filter_append, hsame, hothers, List.nil_append,
      hrest]

end Blocks

/-- Conditions that have the keys of others, one condition for each key, have these keys in
the same order. -/
theorem keys_of_map_key {ks ls : List Containment} (h : ls.map key = keys ks) :
    keys ls = keys ks := by
  have hblock : ∀ target, ∀ k ∈ ((ks.map key).eraseDups.filter (·.1 == target)),
      k.1 = target := by
    intro target k hk
    simpa using (List.mem_filter.1 hk).2
  have hnodup : (((ks.map key).eraseDups.map (·.1)).eraseDups).Nodup := Formula.nodup_eraseDups _
  have hne : ∀ target ∈ ((ks.map key).eraseDups.map (·.1)).eraseDups,
      (ks.map key).eraseDups.filter (·.1 == target) ≠ [] := by
    intro target htarget
    obtain ⟨k, hk, rfl⟩ := List.mem_map.1 (List.mem_eraseDups.1 htarget)
    exact List.ne_nil_of_mem (List.mem_filter.2 ⟨hk, by simp⟩)
  have htargets : ((keys ks).map (·.1)).eraseDups = ((ks.map key).eraseDups.map (·.1)).eraseDups :=
    eraseDups_map_flatMap_block hblock hne hnodup
  rw [keys, h, eraseDups_of_nodup (nodup_keys ks), htargets]
  exact List.flatMap_congr fun target htarget => filter_flatMap_block hblock hnodup htarget

/-! ## Words -/

/-- Words that make up a list from which they are read back. -/
structure Joinable (ws : List String) : Prop where
  ne_nil : ws ≠ []
  uncut : ∀ w ∈ ws, Text.WordList.encodedWords w = [w]
  unescaping : ∀ w ∈ ws, w.toList.getLast? ≠ some '\\'

/-- The words of the conditions with a key, each once and in ascending order. -/
def wordsOf (ks : List Containment) (k : String × Polarity) : List String :=
  ascendingTexts ((ks.filter (·.key == k)).flatMap encodedWords)

theorem mergeKey_eq (c : Connective) (ks : List Containment) (k : String × Polarity) :
    mergeKey c ks k = node k.2 k.1 (c.mergeOperator k.2) (wordsOf ks k) := rfl

theorem mem_wordsOf {ks : List Containment} {k : String × Polarity} {word : String} :
    word ∈ wordsOf ks k ↔ ∃ l ∈ ks, l.key = k ∧ word ∈ l.encodedWords := by
  simp [wordsOf, ascendingTexts, and_assoc]

theorem joinable_wordsOf {c : Connective} {ks : List Containment}
    (hks : ∀ k ∈ ks, k.mergesUnder c = true) {k : String × Polarity} (hk : k ∈ keys ks) :
    Joinable (wordsOf ks k) where
  ne_nil := by
    obtain ⟨l, hl, hkey⟩ := mem_keys_iff.1 hk
    obtain ⟨word, words, hwords⟩ := List.exists_cons_of_ne_nil l.encodedWords_ne_nil
    exact List.ne_nil_of_mem (mem_wordsOf.2 ⟨l, hl, hkey, by rw [hwords]; exact List.mem_cons_self⟩)
  uncut word hword := by
    obtain ⟨l, -, -, hword⟩ := mem_wordsOf.1 hword
    exact encodedWords_of_mem_encodedWords hword
  unescaping word hword := by
    obtain ⟨l, hl, -, hword⟩ := mem_wordsOf.1 hword
    exact (mergesUnder_iff.1 (hks l hl)).2 word hword

/-- The condition that holds a list of words under a connective. -/
def ofWords (c : Connective) (k : String × Polarity) (ws : List String) : Containment :=
  match ws with
  | [word] => ⟨k.2, k.1, "contains", Text.WordList.decode word⟩
  | ws => ⟨k.2, k.1, c.mergeOperator k.2, Text.WordList.join ws⟩

theorem key_ofWords (c : Connective) (k : String × Polarity) (ws : List String) :
    (ofWords c k ws).key = k := by
  unfold ofWords
  split <;> rfl

theorem node_eq (c : Connective) (k : String × Polarity) (ws : List String) :
    node k.2 k.1 (c.mergeOperator k.2) ws =
      k.2.node (Filter.ofTriple (ofWords c k ws).triple) := by
  match ws with
  | [] | [_] | _ :: _ :: _ => rfl

theorem operator_ofWords (c : Connective) (k : String × Polarity) (ws : List String) :
    (ofWords c k ws).operator = "contains" ∨ (ofWords c k ws).operator = c.mergeOperator k.2 := by
  unfold ofWords
  split
  · exact .inl rfl
  · exact .inr rfl

theorem polarity_ofWords (c : Connective) (k : String × Polarity) (ws : List String) :
    (ofWords c k ws).polarity = k.2 := by
  unfold ofWords
  split <;> rfl

theorem mem_operators_ofWords (c : Connective) (k : String × Polarity) (ws : List String) :
    (ofWords c k ws).operator ∈ operators := by
  rcases operator_ofWords c k ws with h | h
  · rw [h]
    decide
  · rw [h]
    generalize k.2 = p
    cases c <;> cases p <;> decide

theorem encodedWords_ofWords (c : Connective) (k : String × Polarity) {ws : List String}
    (hws : Joinable ws) : (ofWords c k ws).encodedWords = ws := by
  match ws, hws with
  | [word], hws =>
    have hword := Text.WordList.encode_decode (hws.uncut word List.mem_cons_self)
    rw [ofWords, encodedWords, if_pos rfl, hword]
  | [], hws => exact absurd rfl hws.ne_nil
  | v :: w :: ws, hws =>
    rw [ofWords, encodedWords_of_mergeOperator rfl]
    · exact Text.WordList.encodedWords_join hws.ne_nil hws.uncut hws.unescaping
    · simp

theorem mergesUnder_ofWords (c : Connective) (k : String × Polarity) {ws : List String}
    (hws : Joinable ws) : (ofWords c k ws).mergesUnder c = true := by
  rw [mergesUnder_iff, encodedWords_ofWords c k hws, polarity_ofWords]
  exact ⟨operator_ofWords c k ws, hws.unescaping⟩

/-- In conditions that hold the words of each key, each key has the same words again. -/
theorem wordsOf_map_ofWords {c : Connective} {ks : List Containment}
    (hks : ∀ k ∈ ks, k.mergesUnder c = true) {k : String × Polarity} (hk : k ∈ keys ks) :
    wordsOf ((keys ks).map fun k => ofWords c k (wordsOf ks k)) k = wordsOf ks k := by
  have hsingle : (keys ks).filter (· == k) = [k] := by
    have hblock : ((keys ks).flatMap fun l => [l]).filter (id · == k) = [k] :=
      filter_flatMap_block (by simp) (nodup_keys ks) hk
    rwa [List.flatMap_singleton'] at hblock
  have hfilter : (((keys ks).map fun k => ofWords c k (wordsOf ks k)).filter (·.key == k)) =
      [ofWords c k (wordsOf ks k)] := by
    rw [List.filter_map]
    simp only [Function.comp_def, key_ofWords, hsingle, List.map_cons, List.map_nil]
  rw [wordsOf, hfilter, List.flatMap_singleton,
    encodedWords_ofWords c k (joinable_wordsOf hks hk)]
  exact ascendingTexts_of_pairwise (pairwise_ascendingTexts _)

end Containment

namespace Filter

theorem triple?_singleton (f : Filter) : triple? [f] = none := by
  cases f <;> rfl

theorem length_ne_one_of_triple? {cs : List Filter} {t : Triple} (h : triple? cs = some t) :
    cs.length ≠ 1 := by
  intro hlen
  obtain ⟨c, rfl⟩ := List.length_eq_one_iff.1 hlen
  rw [triple?_singleton] at h
  cases h

theorem containment?_cases {f : Filter} {k : Containment} (h : f.containment? = some k) :
    k.operator ∈ Containment.operators ∧
      ((k.polarity = .plain ∧ ∃ cs, f = condition cs ∧ triple? cs = some k.triple) ∨
        (k.polarity = .negated ∧
          ∃ cs, f = not cs ∧ startsWithTarget cs = true ∧ triple? cs = some k.triple)) := by
  unfold containment? at h
  split at h
  next cs =>
    obtain ⟨t, ht, hk⟩ := Option.bind_eq_some_iff.1 h
    obtain ⟨hp, rfl, hoperator⟩ := Containment.ofTriple?_eq_some hk
    exact ⟨hoperator, .inl ⟨hp, cs, rfl, ht⟩⟩
  next cs =>
    split at h
    next hstart =>
      obtain ⟨t, ht, hk⟩ := Option.bind_eq_some_iff.1 h
      obtain ⟨hp, rfl, hoperator⟩ := Containment.ofTriple?_eq_some hk
      exact ⟨hoperator, .inr ⟨hp, cs, rfl, hstart, ht⟩⟩
    next => cases h
  next => cases h

theorem mergeable?_eq_some {c : Connective} {f : Filter} {k : Containment} :
    mergeable? c f = some k ↔ f.containment? = some k ∧ k.mergesUnder c = true := by
  unfold mergeable?
  rw [Option.filter_eq_some_iff]

/-! ## Conditions written anew -/

theorem containment?_node (p : Polarity) (t : Triple) :
    (p.node (ofTriple t)).containment? = Containment.ofTriple? p t := by
  cases p with
  | plain => simp [Polarity.node, containment?]
  | negated => simp [Polarity.node, containment?]

/-- What `degrade` makes of a filter: a list of one word is written anew as a plain
`contains`, all else is left as it is. -/
theorem degrade_cases (f : Filter) :
    (∃ p t, t.operator = "contains" ∧ f.degrade = Polarity.node p (ofTriple t)) ∨
      f.degrade = f := by
  unfold degrade
  split
  · split
    · exact .inr rfl
    · split
      · exact .inl ⟨_, _, rfl, rfl⟩
      · exact .inr rfl
  · exact .inr rfl

theorem containment?_ofWords (c : Connective) (k : String × Polarity) (ws : List String) :
    (Containment.node k.2 k.1 (c.mergeOperator k.2) ws).containment? =
      some (Containment.ofWords c k ws) := by
  have hoperator : Containment.operators.contains (Containment.ofWords c k ws).operator = true := by
    simpa using Containment.mem_operators_ofWords c k ws
  rw [Containment.node_eq, containment?_node, Containment.ofTriple?, Containment.triple]
  dsimp only
  rw [if_pos hoperator, ← Containment.polarity_ofWords c k ws]

/-- A condition of which merging wrote the words is a plain `contains` already if it has
one word. -/
theorem degrade_node (c : Connective) (k : String × Polarity) {ws : List String}
    (hws : Containment.Joinable ws) :
    (Containment.node k.2 k.1 (c.mergeOperator k.2) ws).degrade =
      Containment.node k.2 k.1 (c.mergeOperator k.2) ws := by
  unfold degrade
  rw [containment?_ofWords]
  dsimp only
  rw [Containment.encodedWords_ofWords c k hws]
  split
  · rfl
  next hlist =>
    split
    next word => exact absurd rfl hlist
    next => rfl

/-- What merging writes for a key is read with this key and the words of all. -/
theorem mergeable?_mergeKey {c : Connective} {ks : List Containment}
    (hks : ∀ k ∈ ks, k.mergesUnder c = true) {k : String × Polarity}
    (hk : k ∈ Containment.keys ks) :
    mergeable? c (Containment.mergeKey c ks k) =
      some (Containment.ofWords c k (Containment.wordsOf ks k)) := by
  rw [mergeable?_eq_some, Containment.mergeKey_eq, containment?_ofWords]
  exact ⟨rfl, Containment.mergesUnder_ofWords c k (Containment.joinable_wordsOf hks hk)⟩

/-! ## Merging -/

/-- The filters that a connective joins after merging. -/
def mergedParts (c : Connective) (fs : List Filter) : List Filter :=
  let flat := fs.flatMap (inlined c)
  let merging := flat.filterMap (mergeable? c)
  (flat.filter fun f => (mergeable? c f).isNone) ++
    (Containment.keys merging).map (Containment.mergeKey c merging)

theorem merge_eq (c : Connective) (fs : List Filter) :
    merge c fs = collapse c (mergedParts c fs) := rfl

theorem exists_mergeKey_eq (c : Connective) (ks : List Containment) (key : String × Polarity) :
    ∃ t, Containment.mergeKey c ks key = key.2.node (ofTriple t) := by
  unfold Containment.mergeKey Containment.node
  dsimp only
  split
  · exact ⟨_, rfl⟩
  · exact ⟨_, rfl⟩

/-- After merging there are filters that do not merge, and conditions written anew. -/
theorem mem_mergedParts {c : Connective} {fs : List Filter} {f : Filter}
    (h : f ∈ mergedParts c fs) :
    (f ∈ fs.flatMap (inlined c) ∧ mergeable? c f = none) ∨
      ∃ p t, f = Polarity.node p (ofTriple t) := by
  rcases List.mem_append.1 h with h | h
  · obtain ⟨hf, hnone⟩ := List.mem_filter.1 h
    exact .inl ⟨hf, by simpa using hnone⟩
  · obtain ⟨key, -, rfl⟩ := List.mem_map.1 h
    obtain ⟨t, ht⟩ := exists_mergeKey_eq c ((fs.flatMap (inlined c)).filterMap (mergeable? c)) key
    exact .inr ⟨key.2, t, ht⟩

theorem mergesUnder_of_mem_filterMap {c : Connective} {fs : List Filter} :
    ∀ k ∈ fs.filterMap (mergeable? c), k.mergesUnder c = true := by
  intro k hk
  obtain ⟨f, -, hk⟩ := List.mem_filterMap.1 hk
  exact (mergeable?_eq_some.1 hk).2

/-- A filter that is no part of the same connective, bare or in a group. -/
def Unlike (c : Connective) (f : Filter) : Prop := ∀ gs, f.exposed? ≠ some (c, gs)

/-- What a child contributes is found in a connective node of the same kind, or it is the
child itself. -/
theorem mem_inlined {c : Connective} {f g : Filter} (h : g ∈ inlined c f) :
    (∃ gs, f.exposed? = some (c, gs) ∧ g ∈ gs) ∨ g = f ∧ Unlike c f := by
  unfold inlined at h
  split at h
  next d gs hexposed =>
    split at h
    next hd => exact .inl ⟨gs, hd ▸ hexposed, h⟩
    next hd =>
      refine .inr ⟨List.mem_singleton.1 h, fun hs hsame => hd ?_⟩
      rw [hexposed] at hsame
      exact congrArg Prod.fst (Option.some.inj hsame)
  next hexposed =>
    refine .inr ⟨List.mem_singleton.1 h, fun hs hsame => ?_⟩
    rw [hexposed] at hsame
    cases hsame

theorem Unlike.inlined {c : Connective} {f : Filter} (h : Unlike c f) : inlined c f = [f] := by
  unfold Filter.inlined
  split
  next d gs hexposed =>
    split
    next hd => exact absurd (hd ▸ hexposed) (h gs)
    next => rfl
  next => rfl

theorem unlike_node (c : Connective) (p : Polarity) (cs : List Filter) : Unlike c (p.node cs) := by
  intro gs
  cases p <;> simp [Polarity.node, exposed?, connective?]

theorem flatMap_inlined {c : Connective} {fs : List Filter} (h : ∀ f ∈ fs, Unlike c f) :
    fs.flatMap (inlined c) = fs := by
  rw [List.flatMap_congr fun f hf => (h f hf).inlined, List.flatMap_singleton']

/-- Filters that merging leaves as they are. -/
structure Merged (c : Connective) (fs : List Filter) : Prop where
  unlike : ∀ f ∈ fs, Unlike c f
  parts : mergedParts c fs = fs

section Again

variable {c : Connective} {ks : List Containment} {others : List Filter}
  (hks : ∀ k ∈ ks, k.mergesUnder c = true) (hothers : ∀ f ∈ others, mergeable? c f = none)

include hks hothers

/-- Of merged filters the same do not merge as before. -/
theorem filter_others :
    (others ++ (Containment.keys ks).map (Containment.mergeKey c ks)).filter
      (fun f => (mergeable? c f).isNone) = others := by
  have hkept : others.filter (fun f => (mergeable? c f).isNone) = others := by
    rw [List.filter_eq_self]
    intro f hf
    rw [hothers f hf]
    rfl
  have hnone : ((Containment.keys ks).map (Containment.mergeKey c ks)).filter
      (fun f => (mergeable? c f).isNone) = [] := by
    rw [List.filter_eq_nil_iff]
    intro f hf
    obtain ⟨k, hk, rfl⟩ := List.mem_map.1 hf
    rw [mergeable?_mergeKey hks hk]
    exact Bool.false_ne_true
  rw [List.filter_append, hkept, hnone, List.append_nil]

/-- Of merged filters those merge that were written. -/
theorem filterMap_merged :
    (others ++ (Containment.keys ks).map (Containment.mergeKey c ks)).filterMap (mergeable? c) =
      (Containment.keys ks).map fun k => Containment.ofWords c k (Containment.wordsOf ks k) := by
  have hnone : others.filterMap (mergeable? c) = [] := by
    rw [List.filterMap_eq_nil_iff]
    exact hothers
  rw [List.filterMap_append, hnone, List.nil_append, List.filterMap_map,
    List.filterMap_eq_map_iff_forall_eq_some]
  exact fun k hk => mergeable?_mergeKey hks hk

end Again

/-- The conditions that were written are written again. -/
theorem map_mergeKey_again {c : Connective} {ks : List Containment}
    (hks : ∀ k ∈ ks, k.mergesUnder c = true) {ls : List Containment}
    (hls : ls = (Containment.keys ks).map fun k =>
      Containment.ofWords c k (Containment.wordsOf ks k)) :
    (Containment.keys ls).map (Containment.mergeKey c ls) =
      (Containment.keys ks).map (Containment.mergeKey c ks) := by
  have hkeys : Containment.keys ls = Containment.keys ks := by
    refine Containment.keys_of_map_key ?_
    rw [hls, List.map_map]
    simp [Function.comp_def, Containment.key_ofWords]
  rw [hkeys]
  refine List.map_congr_left fun k hk => ?_
  rw [Containment.mergeKey_eq, Containment.mergeKey_eq, hls,
    Containment.wordsOf_map_ofWords hks hk]

/-- What has been merged is merged, if what was inlined held no part of the same
connective. -/
theorem merged_mergedParts {c : Connective} {fs : List Filter}
    (h : ∀ f ∈ fs.flatMap (inlined c), Unlike c f) : Merged c (mergedParts c fs) := by
  have hunlike : ∀ f ∈ mergedParts c fs, Unlike c f := by
    intro f hf
    obtain ⟨hf, -⟩ | ⟨p, t, rfl⟩ := mem_mergedParts hf
    · exact h f hf
    · exact unlike_node c p _
  have hothers : ∀ f ∈ (fs.flatMap (inlined c)).filter fun f => (mergeable? c f).isNone,
      mergeable? c f = none := by
    intro f hf
    simpa using (List.mem_filter.1 hf).2
  refine ⟨hunlike, ?_⟩
  have hflat := flatMap_inlined hunlike
  have hks : ∀ k ∈ (fs.flatMap (inlined c)).filterMap (mergeable? c), k.mergesUnder c = true :=
    mergesUnder_of_mem_filterMap
  rw [mergedParts, hflat, mergedParts, filter_others hks hothers,
    map_mergeKey_again hks (filterMap_merged hks hothers)]

end Filter

end StreamFilter
