import StreamFilter.Filter.Basic
set_option autoImplicit false

/-!
# Connectives of filters

`and` and `or` as data, so that what holds for both is said once.
-/

namespace StreamFilter

/-- One of the two connectives. -/
inductive Connective where
  | and | or
  deriving DecidableEq, Repr, Inhabited

namespace Connective

/-- The other connective. -/
def dual : Connective → Connective
  | and => or
  | or => and

@[simp] theorem dual_dual (c : Connective) : c.dual.dual = c := by cases c <;> rfl

/-- The filter that joins others by a connective. -/
def join : Connective → List Filter → Filter
  | and => Filter.and
  | or => Filter.or

/-- The kind of node that a connective makes. -/
def kind : Connective → Kind
  | and => .and
  | or => .or

/-- The value of a connective on the values of its parts. -/
def value {α : Type} (c : Connective) (holds : α → Bool) (parts : List α) : Bool :=
  match c with
  | and => parts.all holds
  | or => parts.any holds

end Connective

namespace Filter

/-- A connective node as its connective and its children. -/
def connective? : Filter → Option (Connective × List Filter)
  | and cs => some (.and, cs)
  | or cs => some (.or, cs)
  | _ => none

/-- A connective node, or one that stands alone in a group. -/
def exposed? : Filter → Option (Connective × List Filter)
  | group [f] => f.connective?
  | f => f.connective?

/-- A connective goes into a group; anything else stays as it is. -/
def parenthesized (f : Filter) : Filter :=
  match f.connective? with
  | some _ => group [f]
  | none => f

@[simp] theorem connective?_join (c : Connective) (cs : List Filter) :
    (c.join cs).connective? = some (c, cs) := by cases c <;> rfl

theorem eq_join_of_connective? {f : Filter} {c : Connective} {cs : List Filter}
    (h : f.connective? = some (c, cs)) : f = c.join cs := by
  unfold connective? at h
  split at h <;> simp_all [Connective.join]
  · obtain ⟨rfl, rfl⟩ := h; rfl
  · obtain ⟨rfl, rfl⟩ := h; rfl

end Filter

end StreamFilter
