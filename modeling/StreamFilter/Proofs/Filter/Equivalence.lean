import Mathlib.Data.List.Sublists
import StreamFilter.Proofs.Filter.Atoms
set_option autoImplicit false

/-!
# Filters are equivalent if no set of their atoms tells them apart

Evaluating a filter and collecting its atoms are two walks, and they look for triples and
children in different places.  But no filter, however malformed, has a value that depends on
an atom which is not collected (`Filter.holds_congr`).  So only the sets of atoms that two
filters mention can tell them apart, of which there are finitely many
(`Filter.equivalent_iff`), and equivalence of filters is decidable.
-/

namespace StreamFilter.Filter

/-- Two filters have one value, whichever atoms hold. -/
def Equivalent (f g : Filter) : Prop :=
  ∀ truths : String → Bool, f.holds truths = g.holds truths

/-- The atoms that one of two filters mentions, in code point order. -/
def jointAtoms (f g : Filter) : List String := ascendingTexts (f.atoms ++ g.atoms)

/-- The truth of atoms if those of a list hold and no others. -/
def holding (held : List String) (atom : String) : Bool := held.contains atom

theorem mem_jointAtoms {f g : Filter} {atom : String} :
    atom ∈ jointAtoms f g ↔ atom ∈ f.atoms ∨ atom ∈ g.atoms := by
  rw [jointAtoms, ascendingTexts, mem_ascending, List.mem_append]

/-- Sets that agree on the atoms of a filter give it one value. -/
theorem holds_eq_of_agree {p q : String → Bool} (f : Filter)
    (h : ∀ atom ∈ f.atoms, p atom = q atom) : f.holds p = f.holds q :=
  holds_congr f fun atom hatom => h atom (mem_atoms.2 hatom)

/-- What holds besides the listed atoms does not matter to a filter whose atoms are listed. -/
theorem holds_holding_filter {f : Filter} {listed : List String}
    (h : ∀ atom ∈ f.atoms, atom ∈ listed) (truths : String → Bool) :
    f.holds (holding (listed.filter truths)) = f.holds truths := by
  refine holds_eq_of_agree f fun atom hatom => ?_
  rw [holding, Bool.eq_iff_iff, List.contains_iff_mem, List.mem_filter]
  exact and_iff_right (h atom hatom)

/-- Comparing two filters on the sets of their atoms settles their equivalence. -/
theorem equivalent_iff {f g : Filter} : Equivalent f g ↔
    ∀ held ∈ (jointAtoms f g).sublists, f.holds (holding held) = g.holds (holding held) := by
  constructor
  · exact fun h held _ => h (holding held)
  · intro h truths
    have hheld := h ((jointAtoms f g).filter truths) (List.mem_sublists.2 List.filter_sublist)
    rwa [holds_holding_filter fun atom hatom => mem_jointAtoms.2 (.inl hatom),
      holds_holding_filter fun atom hatom => mem_jointAtoms.2 (.inr hatom)] at hheld

instance (f g : Filter) : Decidable (Equivalent f g) := decidable_of_iff' _ equivalent_iff

/-- A negation of a target without an operator, and a group of two. -/
def malformed : Filter :=
  and [not [target "fb.content", raw "a"], group [raw "b", raw "c"]]

theorem mem_atoms_malformed {atom : String} : atom ∈ malformed.atoms ↔ atom ∈ ["a", "b", "c"] :=
  mem_atoms

theorem jointAtoms_malformed : jointAtoms malformed (raw "b") = ["a", "b", "c"] := by
  have hlisted : ∀ atom, atom ∈ malformed.atoms ++ (raw "b").atoms ↔ atom ∈ ["a", "b", "c"] := by
    intro atom
    rw [List.mem_append, mem_atoms_malformed, mem_atoms, occurrences, List.mem_singleton]
    refine ⟨?_, .inl⟩
    rintro (hatom | rfl)
    · exact hatom
    · decide
  rw [jointAtoms, ascendingTexts_congr hlisted]
  exact ascendingTexts_of_pairwise (by decide)

/-- The value of a filter depends on its atoms only: sets that agree on them give it one value.
So two filters that have the same value on each set of their joint atoms have the same value
on every set. -/
theorem holds_depends_on_atoms (f g : Filter) :
    (∀ p q : String → Bool, (∀ atom ∈ f.atoms, p atom = q atom) → f.holds p = f.holds q) ∧
      ((∀ held ∈ (jointAtoms f g).sublists, f.holds (holding held) = g.holds (holding held)) ↔
        ∀ truths : String → Bool, f.holds truths = g.holds truths) :=
  ⟨fun _ _ => holds_eq_of_agree f, equivalent_iff.symm⟩

theorem holds_depends_on_atoms_malformed :
    (∀ atom ∈ malformed.atoms, holding ["b"] atom = holding ["b", "d"] atom) ∧
      malformed.holds (holding ["b"]) = malformed.holds (holding ["b", "d"]) ∧
      ∀ truths : String → Bool, malformed.holds truths = (raw "b").holds truths := by
  have hlisted : ∀ atom ∈ ["a", "b", "c"], holding ["b"] atom = holding ["b", "d"] atom := by
    decide
  have hagree : ∀ atom ∈ malformed.atoms, holding ["b"] atom = holding ["b", "d"] atom :=
    fun atom hatom => hlisted atom (mem_atoms_malformed.1 hatom)
  obtain ⟨hvalue, hsubsets⟩ := holds_depends_on_atoms malformed (raw "b")
  refine ⟨hagree, hvalue _ _ hagree, hsubsets.1 ?_⟩
  rw [jointAtoms_malformed]
  decide

end StreamFilter.Filter
