import StreamFilter.Proofs.Filter.Admission
import StreamFilter.Proofs.Filter.Remains
set_option autoImplicit false

/-!
# Which folded filters can be written

Extraction looks at the first child of a group only, while all its children are written.
So a filter with a skeleton need not have a text.  What is missing is exactly that the parts
which folding leaves as they are have one (`Filter.writable_fold_iff`).

In between stands a reading that is laxer than admission: a filter is framed if it would be
admitted with those parts taken for granted.
-/

namespace StreamFilter

namespace Filter

/-- Whether a filter has a text. -/
def Writable (v : Vocabulary) (f : Filter) : Prop := ∃ text, f.csdl v = .ok text

variable {v : Vocabulary}

/-! ## Writing node by node -/

theorem exists_csdl_triple_iff {t : Triple} :
    (∃ text, t.csdl v = .ok text) ↔ t.admitted v = true := by
  rw [Triple.admitted, Bool.and_eq_true]
  constructor
  · rintro ⟨text, h⟩
    obtain ⟨htarget, hoperator, -⟩ := csdl_triple_eq_ok h
    exact ⟨htarget, hoperator⟩
  · rintro ⟨htarget, hoperator⟩
    exact ⟨t.text, by rw [Triple.csdl, if_pos htarget, if_pos hoperator]⟩

theorem exists_csdlAll_iff {fs : List Filter} :
    (∃ texts, csdlAll v fs = .ok texts) ↔ ∀ f ∈ fs, Writable v f := by
  induction fs with
  | nil => simp [csdlAll]
  | cons f fs ih =>
    rw [csdlAll, exists_bind_eq_ok_iff fun _ => exists_bind_eq_ok_iff fun _ =>
      iff_true_intro (exists_ok_pure _), ih, and_true, List.forall_mem_cons]
    rfl

theorem writable_join {c : Connective} {fs : List Filter} (h : 2 ≤ fs.length) :
    Writable v (c.join fs) ↔ ∀ f ∈ fs, Writable v f := by
  cases c <;>
    rw [Writable, Connective.join, csdl, exists_bind_eq_ok_iff fun _ =>
      exists_bind_eq_ok_iff fun _ => iff_true_intro (exists_ok_pure _), exists_requireTwo_iff,
      exists_csdlAll_iff, and_true, and_iff_right h]

theorem writable_group_singleton {f : Filter} : Writable v (group [f]) ↔ Writable v f := by
  rw [Writable, csdl, exists_bind_eq_ok_iff fun _ => exists_bind_eq_ok_iff fun _ =>
    iff_true_intro (exists_ok_pure _), exists_csdlAll_iff, and_true,
    and_iff_left (fun _ h => by cases h)]
  rfl

theorem writable_condition {cs : List Filter} :
    Writable v (condition cs) ↔ (triple? cs).any (·.admitted v) = true := by
  rw [Writable, csdl, requireTriple]
  cases triple? cs with
  | none => simp [bind, Except.bind]
  | some t => exact exists_csdl_triple_iff

theorem csdl_not_target {cs : List Filter} (h : startsWithTarget cs = true) :
    csdl v (not cs) = (do return "NOT " ++ (← (← requireTriple .not cs).csdl v)) := by
  match cs, h with
  | target _ :: _, _ => rw [csdl]

theorem csdl_not {c : Filter} {cs : List Filter} (h : startsWithTarget (c :: cs) = false) :
    csdl v (not (c :: cs)) = (do return "NOT " ++ (← csdl v c)) := by
  rw [csdl]
  rintro name rfl
  cases h

theorem writable_not_target {cs : List Filter} (h : startsWithTarget cs = true) :
    Writable v (not cs) ↔ (triple? cs).any (·.admitted v) = true := by
  rw [Writable, csdl_not_target h, requireTriple]
  cases triple? cs with
  | none => simp [bind, Except.bind]
  | some t =>
    show (∃ text, (t.csdl v >>= fun text => pure ("NOT " ++ text)) = .ok text) ↔ _
    rw [exists_bind_eq_ok_iff fun _ => iff_true_intro (exists_ok_pure _), and_true]
    exact exists_csdl_triple_iff

theorem writable_not {c : Filter} {cs : List Filter} (h : startsWithTarget (c :: cs) = false) :
    Writable v (not (c :: cs)) ↔ Writable v c := by
  rw [Writable, csdl_not h, exists_bind_eq_ok_iff fun _ => iff_true_intro (exists_ok_pure _),
    and_true]
  rfl

theorem writable_raw (text : String) : Writable v (raw text) := ⟨text, by rw [csdl]⟩

/-! ## Framed filters -/

mutual

/-- Whether a filter is admitted when groups and negations that do not have one child are
taken for granted. -/
def framed (v : Vocabulary) : Filter → Bool
  | and cs | or cs => decide (2 ≤ cs.length) && allFramed v cs
  | not [f] => if startsWithTarget [f] then false else framed v f
  | not cs => !startsWithTarget cs || (triple? cs).any (·.admitted v)
  | group [f] => framed v f
  | group _ => true
  | condition cs => (triple? cs).any (·.admitted v)
  | raw _ => true
  | target _ | operator _ | argument _ | string _ => false

/-- Whether this is so for every filter of a list. -/
def allFramed (v : Vocabulary) : List Filter → Bool
  | [] => true
  | f :: fs => framed v f && allFramed v fs

end

theorem allFramed_eq (v : Vocabulary) (fs : List Filter) :
    allFramed v fs = fs.all (framed v) := by
  induction fs with
  | nil => rfl
  | cons f fs ih => rw [allFramed, ih, List.all_cons]

theorem framed_join (c : Connective) {cs : List Filter} (h : 2 ≤ cs.length) :
    framed v (c.join cs) = Connective.and.value (framed v) cs := by
  cases c <;> simp [Connective.join, framed, h, allFramed_eq, Connective.value]

theorem framed_group_of_length {cs : List Filter} (h : cs.length ≠ 1) :
    framed v (group cs) = true := by
  match cs, h with
  | [], _ | _ :: _ :: _, _ => simp [framed]

theorem framed_not_target {cs : List Filter} (h : startsWithTarget cs = true) :
    framed v (not cs) = (triple? cs).any (·.admitted v) := by
  match cs, h with
  | [target name], _ => simp [framed, startsWithTarget, triple?_singleton]
  | target _ :: _ :: _, _ => simp [framed, startsWithTarget]

theorem framed_not {cs : List Filter} (h : startsWithTarget cs = false) :
    framed v (not cs) = framed v (group cs) := by
  match cs, h with
  | [], _ => simp [framed, startsWithTarget]
  | [_], h => simp [framed, h]
  | _ :: _ :: _, h => simp [framed, h]

end Filter

/-- Being framed is a reading, which differs from admission in what it takes for granted. -/
def Reading.framing (v : Vocabulary) : Reading :=
  { admission v with
    value := Filter.framed v
    value_join := fun c _ h => Filter.framed_join c (h rfl)
    value_group := fun f => by rw [Filter.framed]
    value_target := fun name => by rw [Filter.framed, Filter.framed]; rfl
    value_condition := fun cs t h => by rw [Filter.framed, h]; rfl
    value_not_target := fun cs h => by rw [Filter.framed_not_target h, Filter.framed]; rfl
    value_not := fun cs h => Filter.framed_not h }

namespace Filter

variable {v : Vocabulary}

mutual

/-- An admitted filter is framed as folding takes it. -/
theorem framed_asFolded : ∀ (f : Filter) {negated : Bool} {parent : Option Connective},
    admitted v f = true → framed v (f.asFolded negated parent) = true
  | and fs, _, _, h => by
    simp only [admitted, Bool.and_eq_true, decide_eq_true_eq] at h
    rw [asFolded, framed, allFramed_asFoldedAll fs h.2, asFoldedAll_eq, List.length_map,
      decide_eq_true h.1]
    rfl
  | or fs, _, _, h => by
    simp only [admitted, Bool.and_eq_true, decide_eq_true_eq] at h
    rw [asFolded, framed, allFramed_asFoldedAll fs h.2, asFoldedAll_eq, List.length_map,
      decide_eq_true h.1]
    rfl
  | group [f], _, _, h => by
    rw [admitted, firstAdmitted] at h
    rw [asFolded, framed, framed_asFolded f h]
  | not [f], _, _, h => by
    have hnot : admitted v (not [f]) = admitted v f := (Reading.admission v).value_not_singleton f
    rw [hnot] at h
    rw [asFolded]
    exact ((Reading.framing v).value_not_singleton _).trans (framed_asFolded f h)
  | condition cs, _, _, h => by
    rw [admitted] at h
    rw [asFolded]
    split
    · obtain ⟨t, ht, -⟩ := (Option.any_eq_true _ _).1 h
      exact framed_group_of_length (length_ne_one_of_triple? ht)
    · rw [framed, h]
  | group [], _, _, _ | group (_ :: _ :: _), _, _, _ => by
    unfold asFolded
    exact framed_group_of_length (by simp)
  | not [], _, _, _ => by
    unfold asFolded
    rfl
  | not (c :: d :: cs), _, _, h => by
    rw [asFolded_not_of_length (by simp)]
    cases hstart : startsWithTarget (c :: d :: cs) with
    | true =>
      rw [admitted, if_pos hstart] at h
      rw [framed_not_target hstart, h]
    | false => rw [framed_not hstart, framed_group_of_length (by simp)]
  | raw _, _, _, _ => by
    unfold asFolded
    rw [framed]

theorem allFramed_asFoldedAll : ∀ (fs : List Filter) {negated : Bool}
    {parent : Option Connective}, allAdmitted v fs = true →
      allFramed v (asFoldedAll negated parent fs) = true
  | [], _, _, _ => rfl
  | f :: fs, _, _, h => by
    rw [allAdmitted, Bool.and_eq_true] at h
    rw [asFoldedAll, allFramed, framed_asFolded f h.1, allFramed_asFoldedAll fs h.2]
    rfl

end

/-! ## Writing what is framed -/

/-- Below a negation, what folding keeps is all that has to be written. -/
theorem writable_of_isKept {f : Filter} (hkept : isKept f = true) (hf : framed v f = true) :
    Writable v f ↔ ∀ g ∈ f.remains true none, Writable v g := by
  match f, hkept with
  | raw text, _ => simp [writable_raw]
  | group [], _ | group (_ :: _ :: _), _ => simp
  | not cs, hkept =>
    simp only [isKept, Bool.and_eq_true, Bool.not_eq_true', bne_iff_ne] at hkept
    rw [remains_not_of_length hkept.2 hkept.1, List.forall_mem_singleton]

mutual

/-- A framed filter as folding makes them has a text exactly if the parts have one that
folding left as they were. -/
theorem writable_iff : ∀ {f : Filter}, Settled f → framed v f = true →
    ∀ parent, Writable v f ↔ ∀ g ∈ f.remains false parent, Writable v g
  | and fs, h, hf, _ => by
    rw [Settled] at h
    simp only [framed, Bool.and_eq_true, decide_eq_true_eq] at hf
    rw [remains, ← writable_all_iff h hf.2]
    exact writable_join (c := .and) hf.1
  | or fs, h, hf, _ => by
    rw [Settled] at h
    simp only [framed, Bool.and_eq_true, decide_eq_true_eq] at hf
    rw [remains, ← writable_all_iff h hf.2]
    exact writable_join (c := .or) hf.1
  | group [f], h, hf, _ => by
    rw [Settled] at h
    rw [framed] at hf
    rw [remains, writable_group_singleton, writable_iff h.2 hf]
  | not [f], h, hf, _ => by
    rw [Settled] at h
    rw [framed] at hf
    split at hf
    · cases hf
    next hstart =>
      rw [remains, writable_not (by simpa using hstart), writable_of_isKept h hf]
  | not [], _, _, _ => by simp [startsWithTarget]
  | not (c :: d :: cs), _, hf, _ => by
    cases hstart : startsWithTarget (c :: d :: cs) with
    | true =>
      rw [framed_not_target hstart] at hf
      simp [hstart, writable_not_target hstart, hf]
    | false => simp [hstart]
  | group [], _, _, _ | group (_ :: _ :: _), _, _, _ => by simp
  | condition cs, _, hf, _ => by
    rw [framed] at hf
    simp [writable_condition, hf]
  | raw text, _, _, _ => by simp [writable_raw]

theorem writable_all_iff : ∀ {fs : List Filter} {c : Connective}, AllSettled c fs →
    allFramed v fs = true → ∀ {parent : Option Connective},
      (∀ f ∈ fs, Writable v f) ↔ ∀ g ∈ remainsAll false parent fs, Writable v g
  | [], _, _, _, _ => by simp
  | f :: fs, _, h, hfs, parent => by
    rw [AllSettled] at h
    rw [allFramed, Bool.and_eq_true] at hfs
    rw [remainsAll, List.forall_mem_append, List.forall_mem_cons, writable_iff h.1.1 hfs.1 parent,
      writable_all_iff h.2 hfs.2]

end

/-- A filter with a skeleton has a text after folding exactly if the parts have one that
folding leaves as they are. -/
theorem writable_fold_iff {f : Filter} (hf : admitted v f = true) :
    Writable v f.fold ↔ ∀ g ∈ f.remains false none, Writable v g := by
  have hreg : Regular true f := regular_of_admitted f hf
  have hfolds := folds_of_regular f hreg
  have hframed : framed v f.fold = true :=
    (hfolds.value_fold (.framing v) rfl).trans (framed_asFolded f hf)
  rw [writable_iff hfolds.settled hframed none]
  exact forall_congr' fun g => imp_congr_left (keepsRemains_of_regular f hreg false none g)

end Filter

end StreamFilter
