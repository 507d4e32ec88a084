set_option autoImplicit false

/-!
# Propositional formulas

Formulas over variables of any type, with connectives of any number of parts.  Where
formulas are put together, a connective of one part is left out (`Formula.unlessSingle`).
Formulas over names have a text, `And(v1, Or(v2, Not(v3)))`.
-/

namespace StreamFilter

/-- A propositional formula. -/
inductive Formula (α : Type) where
  | var (name : α)
  | not (part : Formula α)
  | and (parts : List (Formula α))
  | or (parts : List (Formula α))
  deriving Repr, Inhabited

namespace Formula

variable {α β : Type}

/-- Formulas joined by a connective, unless there is just one. -/
def unlessSingle (make : List (Formula α) → Formula α) : List (Formula α) → Formula α
  | [f] => f
  | fs => make fs

/-! ## Truth -/

mutual

/-- The truth value of a formula, given the truth of each variable. -/
def holds (truth : α → Bool) : Formula α → Bool
  | var name => truth name
  | not part => !holds truth part
  | and parts => allHold truth parts
  | or parts => anyHolds truth parts

/-- Whether every formula of a list holds. -/
def allHold (truth : α → Bool) : List (Formula α) → Bool
  | [] => true
  | f :: fs => holds truth f && allHold truth fs

/-- Whether some formula of a list holds. -/
def anyHolds (truth : α → Bool) : List (Formula α) → Bool
  | [] => false
  | f :: fs => holds truth f || anyHolds truth fs

end

theorem allHold_eq (truth : α → Bool) (fs : List (Formula α)) :
    allHold truth fs = fs.all (holds truth) := by
  induction fs with
  | nil => rfl
  | cons f fs ih => simp [allHold, ih]

theorem anyHolds_eq (truth : α → Bool) (fs : List (Formula α)) :
    anyHolds truth fs = fs.any (holds truth) := by
  induction fs with
  | nil => rfl
  | cons f fs ih => simp [anyHolds, ih]

/-! ## Variables -/

mutual

/-- The variables of a formula in order, with repetition. -/
def occurrences : Formula α → List α
  | var name => [name]
  | not part => occurrences part
  | and parts | or parts => occurrencesAll parts

/-- The variables of a list of formulas. -/
def occurrencesAll : List (Formula α) → List α
  | [] => []
  | f :: fs => occurrences f ++ occurrencesAll fs

end

theorem occurrencesAll_eq (fs : List (Formula α)) :
    occurrencesAll fs = fs.flatMap occurrences := by
  induction fs with
  | nil => rfl
  | cons f fs ih => simp [occurrencesAll, ih]

/-- The variables of a formula in order of first appearance. -/
def vars [BEq α] (f : Formula α) : List α := f.occurrences.eraseDups

mutual

/-- Renames the variables of a formula. -/
def map (g : α → β) : Formula α → Formula β
  | var name => var (g name)
  | not part => not (map g part)
  | and parts => and (mapAll g parts)
  | or parts => or (mapAll g parts)

/-- Renames the variables of a list of formulas. -/
def mapAll (g : α → β) : List (Formula α) → List (Formula β)
  | [] => []
  | f :: fs => map g f :: mapAll g fs

end

theorem mapAll_eq (g : α → β) (fs : List (Formula α)) : mapAll g fs = fs.map (map g) := by
  induction fs with
  | nil => rfl
  | cons f fs ih => simp [mapAll, ih]

mutual

/-- A renamed formula holds when the formula holds for the names behind. -/
theorem holds_map (g : α → β) (truth : β → Bool) :
    ∀ f : Formula α, (f.map g).holds truth = f.holds (truth ∘ g)
  | var _ => by simp [map, holds]
  | not f => by simp [map, holds, holds_map g truth f]
  | and fs => by simp [map, holds, allHold_mapAll g truth fs]
  | or fs => by simp [map, holds, anyHolds_mapAll g truth fs]

theorem allHold_mapAll (g : α → β) (truth : β → Bool) :
    ∀ fs : List (Formula α), allHold truth (mapAll g fs) = allHold (truth ∘ g) fs
  | [] => by simp [mapAll, allHold]
  | f :: fs => by simp [mapAll, allHold, holds_map g truth f, allHold_mapAll g truth fs]

theorem anyHolds_mapAll (g : α → β) (truth : β → Bool) :
    ∀ fs : List (Formula α), anyHolds truth (mapAll g fs) = anyHolds (truth ∘ g) fs
  | [] => by simp [mapAll, anyHolds]
  | f :: fs => by simp [mapAll, anyHolds, holds_map g truth f, anyHolds_mapAll g truth fs]

end

/-! ## Text -/

mutual

/-- The text of a formula over names. -/
def text : Formula String → String
  | var name => name
  | not part => "Not(" ++ text part ++ ")"
  | and parts => "And(" ++ textList parts ++ ")"
  | or parts => "Or(" ++ textList parts ++ ")"

/-- Texts of formulas between commas. -/
def textList : List (Formula String) → String
  | [] => ""
  | f :: fs => text f ++ textRest fs

/-- Texts of formulas, each after a comma. -/
def textRest : List (Formula String) → String
  | [] => ""
  | f :: fs => ", " ++ text f ++ textRest fs

end

end Formula

end StreamFilter
