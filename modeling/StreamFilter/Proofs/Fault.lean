import StreamFilter.Fault
set_option autoImplicit false

/-!
# Computations that may fail

What a computation with a result has been through: the parts it is made of had results
too.  And what a computation can fail with: the faults of its parts (`FailsOnly`), of which
it is the first that counts (`fault?_bind`).
-/

namespace StreamFilter

variable {ε α β γ : Type}

theorem exists_of_map_eq_ok {x : Except ε α} {g : α → β} {b : β} (h : x.map g = .ok b) :
    ∃ a, x = .ok a ∧ g a = b := by
  cases x with
  | error e => cases h
  | ok a => exact ⟨a, rfl, Except.ok.inj h⟩

theorem exists_of_bind_eq_ok {x : Except ε α} {g : α → Except ε β} {b : β}
    (h : (x >>= g) = .ok b) : ∃ a, x = .ok a ∧ g a = .ok b := by
  cases x with
  | error e => cases h
  | ok a => exact ⟨a, rfl, h⟩

/-- A computation in two steps has a result exactly if both steps have one, when whether the
second has one does not depend on the first. -/
theorem exists_bind_eq_ok_iff {x : Except ε α} {g : α → Except ε β} {p : Prop}
    (hg : ∀ a, (∃ b, g a = .ok b) ↔ p) :
    (∃ b, (x >>= g) = .ok b) ↔ (∃ a, x = .ok a) ∧ p := by
  constructor
  · rintro ⟨b, h⟩
    obtain ⟨a, ha, hb⟩ := exists_of_bind_eq_ok h
    exact ⟨⟨a, ha⟩, (hg a).1 ⟨b, hb⟩⟩
  · rintro ⟨⟨a, rfl⟩, hp⟩
    exact (hg a).2 hp

/-! ## Which faults there can be -/

/-- Every fault with which a computation may end is of some sort. -/
def FailsOnly (sort : Fault → Bool) (x : Except Fault α) : Prop :=
  ∀ e, x = .error e → sort e = true

namespace FailsOnly

variable {sort : Fault → Bool}

theorem ok (a : α) : FailsOnly sort (.ok a) := fun _ h => by cases h

theorem error {e : Fault} (h : sort e = true) : FailsOnly sort (.error e : Except Fault α) :=
  fun _ he => Except.error.inj he ▸ h

theorem bind {x : Except Fault α} {g : α → Except Fault β} (hx : FailsOnly sort x)
    (hg : ∀ a, FailsOnly sort (g a)) : FailsOnly sort (x >>= g) := by
  cases x with
  | error e => exact error (hx e rfl)
  | ok a => exact hg a

end FailsOnly

/-! ## The first fault -/

/-- The fault with which a computation ends, if it has no result. -/
def fault? : Except ε α → Option ε
  | .ok _ => none
  | .error e => some e

@[simp] theorem fault?_ok (a : α) : fault? (.ok a : Except ε α) = none := rfl

@[simp] theorem fault?_pure (a : α) : fault? (pure a : Except ε α) = none := rfl

@[simp] theorem fault?_error (e : ε) : fault? (.error e : Except ε α) = some e := rfl

theorem fault?_eq_some_iff {x : Except ε α} {e : ε} : fault? x = some e ↔ x = .error e := by
  cases x <;> simp

theorem fault?_eq_none_iff {x : Except ε α} : fault? x = none ↔ ∃ a, x = .ok a := by
  cases x <;> simp

/-- The fault of the first step comes before that of the second, when this does not depend on
the first. -/
theorem fault?_bind {x : Except ε α} {g : α → Except ε β} {e? : Option ε}
    (hg : ∀ a, fault? (g a) = e?) : fault? (x >>= g) = (fault? x).or e? := by
  cases x with
  | error e => rfl
  | ok a => exact hg a

theorem fault?_bind_congr {x : Except ε α} {g : α → Except ε β} {h : α → Except ε γ}
    (hgh : ∀ a, fault? (g a) = fault? (h a)) : fault? (x >>= g) = fault? (x >>= h) := by
  cases x with
  | error e => rfl
  | ok a => exact hgh a

/-- A last step without faults does not matter. -/
theorem fault?_bind_of_none {x : Except ε α} {g : α → Except ε β}
    (hg : ∀ a, fault? (g a) = none) : fault? (x >>= g) = fault? x := by
  rw [fault?_bind hg, Option.or_none]

end StreamFilter
