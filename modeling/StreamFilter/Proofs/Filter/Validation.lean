import StreamFilter.Proofs.Filter.Writing
set_option autoImplicit false

/-!
# Extracting and writing find the same faults

The skeleton of a filter and its text come from two walks, each with checks of its own.  They
differ on parts of conditions that stand where a filter has to, which are written but not
extracted, and on groups, of which only the first child is extracted while all are written.
Apart from that, both make the same checks in the same order, so that they succeed for the
same filters and stop at the same fault otherwise (`Filter.skeleton_validates_like_csdl`).
-/

namespace StreamFilter

namespace Filter

variable {v : Vocabulary} {vs : Variables}

mutual

/-- Whether groups have at most one child and parts of conditions stand nowhere but in
conditions and negated triples.  Of other negations the first child alone counts. -/
def isOrderly : Filter → Bool
  | and cs | or cs => allOrderly cs
  | not [] | not (target _ :: _) => true
  | not (f :: _) => isOrderly f
  | group [] => true
  | group [f] => isOrderly f
  | group _ => false
  | condition _ | raw _ => true
  | target _ | operator _ | argument _ | string _ => false

/-- Whether this is so for every filter of a list. -/
def allOrderly : List Filter → Bool
  | [] => true
  | f :: fs => isOrderly f && allOrderly fs

end

theorem isOrderly_not {c : Filter} {cs : List Filter} (h : startsWithTarget (c :: cs) = false) :
    isOrderly (not (c :: cs)) = isOrderly c := by
  rw [isOrderly]
  rintro name rfl
  cases h

theorem isTerminal_of_isOrderly {f : Filter} (h : isOrderly f = true) :
    f.kind.isTerminal = false := by
  match f, h with
  | and _, _ | or _, _ | not _, _ | group _, _ | condition _, _ | raw _, _ => rfl

theorem requireBoolean_of_isOrderly {parent : Kind} {f : Filter} (h : isOrderly f = true) :
    requireBoolean parent f = pure () := by
  rw [requireBoolean, isTerminal_of_isOrderly h, if_neg Bool.false_ne_true]
  rfl

/-! ## The faults of the two walks -/

/-- Extracting a triple fails as writing it does: what is registered has no faults. -/
theorem fault?_extractTriple (kind : Kind) (cs : List Filter) :
    fault? (extractTriple v kind cs vs) =
      fault? (do (← requireTriple kind cs).csdl v : Except Fault String) := by
  refine fault?_bind_congr fun t => fault?_bind_of_none fun text => ?_
  split
  · rfl
  · rfl

mutual

/-- The walk for the skeleton and the one for the text come to the same fault. -/
theorem fault?_extractWith : ∀ (f : Filter) (vs : Variables), isOrderly f = true →
    fault? (extractWith v f vs) = fault? (csdl v f)
  | and cs, vs, h => by
    rw [isOrderly] at h
    rw [extractWith, csdl, fault?_bind fun _ => fault?_bind_of_none fun _ => rfl,
      fault?_bind fun _ => fault?_bind_of_none fun _ => rfl, fault?_extractAll .and cs vs h]
  | or cs, vs, h => by
    rw [isOrderly] at h
    rw [extractWith, csdl, fault?_bind fun _ => fault?_bind_of_none fun _ => rfl,
      fault?_bind fun _ => fault?_bind_of_none fun _ => rfl, fault?_extractAll .or cs vs h]
  | not [], vs, _ => by
    rw [extractWith, csdl]
    rfl
  | not (c :: cs), vs, h => by
    cases hstart : startsWithTarget (c :: cs) with
    | true =>
      rw [extractWith_not_target hstart, csdl_not_target hstart,
        fault?_bind_of_none fun _ => rfl, fault?_extractTriple]
      exact fault?_bind_congr fun t => (fault?_bind_of_none fun _ => rfl).symm
    | false =>
      rw [isOrderly_not hstart] at h
      rw [extractWith_not hstart, csdl_not hstart, requireBoolean_of_isOrderly h, pure_bind,
        fault?_bind_of_none fun _ => rfl, fault?_bind_of_none fun _ => rfl,
        fault?_extractWith c vs h]
  | group [], vs, _ => by
    rw [extractWith, csdl]
    rfl
  | group [c], vs, h => by
    rw [isOrderly] at h
    rw [extractWith, csdl, csdlAll, requireBoolean_of_isOrderly h, pure_bind,
      fault?_extractWith c vs h, fault?_bind_of_none fun _ => rfl]
  | condition cs, vs, _ => by
    rw [extractWith, csdl, fault?_extractTriple]
  | raw text, vs, _ => by
    rw [extractWith, csdl]
    rfl

/-- The same for the children of a connective, one after the other. -/
theorem fault?_extractAll : ∀ (parent : Kind) (cs : List Filter) (vs : Variables),
    allOrderly cs = true → fault? (extractAll v parent cs vs) = fault? (csdlAll v cs)
  | parent, [], vs, _ => by
    rw [extractAll, csdlAll]
    rfl
  | parent, c :: cs, vs, h => by
    rw [allOrderly, Bool.and_eq_true] at h
    rw [extractAll, csdlAll, requireBoolean_of_isOrderly h.1, pure_bind]
    -- The faults of the other children do not depend on the variables found before.
    have hothers : ∀ r : Formula String × Variables,
        fault? (extractAll v parent cs r.2 >>= fun s => pure (r.1 :: s.1, s.2)) =
          fault? (csdlAll v cs) := fun r =>
      (fault?_bind_of_none fun _ => rfl).trans (fault?_extractAll parent cs r.2 h.2)
    refine (fault?_bind hothers).trans ?_
    rw [fault?_extractWith c vs h.1, fault?_bind fun _ => fault?_bind_of_none fun _ => rfl]

end

theorem skeleton_of_isOrderly {f : Filter} (hf : isOrderly f = true) :
    f.skeleton v = (do
      let r ← extractWith v f {}
      return some ⟨r.1, r.2⟩) := by
  rw [skeleton, isTerminal_of_isOrderly hf, if_neg Bool.false_ne_true]

theorem fault?_skeleton {f : Filter} (hf : isOrderly f = true) :
    fault? (f.skeleton v) = fault? (f.csdl v) := by
  rw [skeleton_of_isOrderly hf, fault?_bind_of_none fun _ => rfl, fault?_extractWith f {} hf]

/-- For a filter that is no part of a condition, whose groups have at most one child and in
which parts of conditions stand nowhere but in conditions and negated triples, there is a
skeleton exactly if there is a text, and otherwise both fail with the same fault. -/
theorem skeleton_validates_like_csdl (v : Vocabulary) {f : Filter} (hf : f.isOrderly = true) :
    ((∃ s, f.skeleton v = .ok (some s)) ↔ ∃ text, f.csdl v = .ok text) ∧
      ∀ e, f.skeleton v = .error e ↔ f.csdl v = .error e := by
  have hfault := fault?_skeleton (v := v) hf
  refine ⟨?_, fun e => by rw [← fault?_eq_some_iff, hfault, fault?_eq_some_iff]⟩
  rw [← fault?_eq_none_iff, ← hfault, fault?_eq_none_iff]
  constructor
  · rintro ⟨s, hs⟩
    exact ⟨some s, hs⟩
  · rintro ⟨s?, hs⟩
    rw [skeleton_of_isOrderly hf] at hs ⊢
    obtain ⟨r, hr, -⟩ := exists_of_bind_eq_ok hs
    exact ⟨⟨r.1, r.2⟩, by rw [hr]; rfl⟩

/-- A filter with two faults deep inside, of which the one in the negated triple comes first. -/
def faulty : Filter :=
  and [raw "a",
    group [or [not [not [target "fb.content", operator "near"], raw "b"],
      condition [target "nowhere", operator "exists"]]]]

theorem skeleton_validates_like_csdl_faulty : faulty.isOrderly = true ∧
    faulty.skeleton {} = .error (.unknownOperator "near") ∧
    faulty.csdl {} = .error (.unknownOperator "near") := by
  have hcsdl : faulty.csdl {} = .error (.unknownOperator "near") := rfl
  exact ⟨rfl, ((skeleton_validates_like_csdl {} rfl).2 _).2 hcsdl, hcsdl⟩

end Filter

end StreamFilter
