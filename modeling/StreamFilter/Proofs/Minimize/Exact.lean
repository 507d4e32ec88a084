import StreamFilter.Proofs.Cube.Order
import StreamFilter.Proofs.Minimize.Primes
set_option autoImplicit false

/-!
# Exact minimization keeps the value of a formula

The selection takes primes only (`mem_of_mem_selectCover`) and leaves no point out
(`exists_mem_selectCover`): the greedy loop ends only when every point is covered, and
a cube is dropped at last only when others contain its points.  With the implicants
this makes `Exact.minimize` represent the formula.

The order in which the primes are listed does not matter: what is better is a linear order,
so the best prime is determined by the set of primes (`best?_eq_some_iff`), and with it the
whole selection (`selectCover_eq_of_perm`).
-/

namespace StreamFilter.Exact

variable {primes chosen : List Cube} {points : List UInt64}

/-! ## Essential primes -/

theorem mem_of_onlyContaining? {point : UInt64} {p : Cube}
    (h : onlyContaining? point primes = some p) : p ∈ primes := by
  fun_induction onlyContaining? point primes with
  | case1 => cases h
  | case2 p ps _ _ => cases h
  | case3 p ps _ _ =>
    cases h
    exact List.mem_cons_self
  | case4 q ps _ ih => exact List.mem_cons_of_mem q (ih h)

theorem mem_of_mem_essential {p : Cube} (h : p ∈ essential primes points) : p ∈ primes := by
  rw [essential, List.mem_eraseDups, List.mem_filterMap] at h
  obtain ⟨point, -, hpoint⟩ := h
  exact mem_of_onlyContaining? hpoint

/-! ## The greedy loop -/

/-- A comparison finds nothing only if there was nothing and the prime cannot be chosen. -/
theorem better_eq_none {best : Option (Nat × Cube)} {p : Cube}
    (h : better chosen points best p = none) : best = none ∧ ¬Candidate chosen points p := by
  by_cases hp : Candidate chosen points p
  · cases best with
    | none =>
      rw [better_none hp] at h
      cases h
    | some y =>
      rw [better_some hp] at h
      split at h <;> cases h
  · rw [better_of_not_candidate hp] at h
    exact ⟨h, hp⟩

theorem foldl_better_eq_none {best : Option (Nat × Cube)}
    (h : primes.foldl (better chosen points) best = none) :
    best = none ∧ ∀ p ∈ primes, ¬Candidate chosen points p := by
  induction primes generalizing best with
  | nil => exact ⟨h, by simp⟩
  | cons p primes ih =>
    obtain ⟨hstep, hprimes⟩ := ih h
    obtain ⟨hbest, hp⟩ := better_eq_none hstep
    exact ⟨hbest, List.forall_mem_cons.2 ⟨hp, hprimes⟩⟩

/-- There is a best prime as long as one can be chosen. -/
theorem not_candidate_of_best? (h : best? primes chosen points = none) :
    ∀ p ∈ primes, ¬Candidate chosen points p :=
  (foldl_better_eq_none (Option.map_eq_none_iff.1 h)).2

theorem mem_outside {c : Cube} {point : UInt64} :
    point ∈ outside c points ↔ point ∈ points ∧ c.contains point = false := by
  simp [outside]

theorem subset_complete {p : Cube} (h : p ∈ chosen) : p ∈ complete primes chosen points := by
  fun_induction complete primes chosen points with
  | case1 chosen points q _ _ ih => exact ih (List.mem_append_left [q] h)
  | case2 => exact h

theorem mem_of_mem_complete {p : Cube} (h : p ∈ complete primes chosen points) :
    p ∈ chosen ∨ p ∈ primes := by
  fun_induction complete primes chosen points with
  | case1 chosen points q hbest _ ih =>
    rcases ih h with hmem | hmem
    · rcases List.mem_append.1 hmem with hmem | hmem
      · exact .inl hmem
      · rw [List.mem_singleton.1 hmem]
        exact .inr (candidate_of_best? hbest).1
    · exact .inr hmem
  | case2 => exact .inl h

/-- The greedy loop covers every point that some prime contains, if it starts with the
points that the chosen primes do not contain. -/
theorem exists_mem_complete (hprimes : ∀ point ∈ points, ∃ p ∈ primes, p.contains point = true)
    (houtside : ∀ point ∈ points, ∀ p ∈ chosen, p.contains point = false) {point : UInt64}
    (hpoint : point ∈ points) :
    ∃ p ∈ complete primes chosen points, p.contains point = true := by
  fun_induction complete primes chosen points with
  | case1 chosen points q hbest _ ih =>
    by_cases hq : q.contains point = true
    · exact ⟨q, subset_complete (List.mem_append_right chosen List.mem_cons_self), hq⟩
    · refine ih (fun r hr => hprimes r (mem_outside.1 hr).1) ?_
        (mem_outside.2 ⟨hpoint, Bool.eq_false_iff.2 hq⟩)
      intro r hr p hp
      rcases List.mem_append.1 hp with hp | hp
      · exact houtside r (mem_outside.1 hr).1 p hp
      · rw [List.mem_singleton.1 hp]
        exact (mem_outside.1 hr).2
  | case2 chosen points hbest =>
    obtain ⟨p, hp, hcontains⟩ := hprimes point hpoint
    have hchosen : p ∉ chosen := by
      intro hmem
      rw [houtside point hpoint p hmem] at hcontains
      cases hcontains
    exact absurd ⟨⟨point, hpoint, hcontains⟩, hchosen⟩ (not_candidate_of_best? hbest p hp)

/-! ## Dropping redundant cubes -/

theorem mem_of_mem_dropRedundant {before kept : List Cube} {c : Cube}
    (h : c ∈ dropRedundant points before kept) : c ∈ before ∨ c ∈ kept := by
  fun_induction dropRedundant points before kept with
  | case1 kept => exact .inr h
  | case2 d before kept _ _ ih => exact (ih h).imp_left (List.mem_cons_of_mem d)
  | case3 d before kept _ _ ih =>
    rcases ih h with hmem | hmem
    · exact .inl (List.mem_cons_of_mem d hmem)
    · rcases List.mem_cons.1 hmem with rfl | hmem
      · exact .inl List.mem_cons_self
      · exact .inr hmem

/-- Dropping redundant cubes leaves no point out. -/
theorem exists_mem_dropRedundant {before kept : List Cube} {point : UInt64}
    (hpoint : point ∈ points) (h : ∃ c ∈ before ++ kept, c.contains point = true) :
    ∃ c ∈ dropRedundant points before kept, c.contains point = true := by
  fun_induction dropRedundant points before kept with
  | case1 kept => simpa using h
  | case2 d before kept others hredundant ih =>
    refine ih ?_
    obtain ⟨c, hc, hcontains⟩ := h
    rcases List.mem_cons.1 hc with rfl | hc
    · have hother := List.all_eq_true.1 hredundant point hpoint
      rw [hcontains] at hother
      exact List.any_eq_true.1 hother
    · exact ⟨c, hc, hcontains⟩
  | case3 d before kept others _ ih =>
    refine ih ?_
    obtain ⟨c, hc, hcontains⟩ := h
    refine ⟨c, ?_, hcontains⟩
    simpa [or_left_comm] using hc

/-! ## The selection -/

theorem mem_of_mem_selectCover {c : Cube} (h : c ∈ selectCover primes points) : c ∈ primes := by
  rcases mem_of_mem_dropRedundant h with hmem | hnil
  · rcases mem_of_mem_complete (List.mem_reverse.1 hmem) with hmem | hmem
    · exact mem_of_mem_essential hmem
    · exact hmem
  · exact absurd hnil List.not_mem_nil

theorem exists_mem_selectCover
    (hprimes : ∀ point ∈ points, ∃ p ∈ primes, p.contains point = true) {point : UInt64}
    (hpoint : point ∈ points) : ∃ c ∈ selectCover primes points, c.contains point = true := by
  refine exists_mem_dropRedundant hpoint ?_
  simp only [List.append_nil, List.mem_reverse]
  by_cases hessential : (essential primes points).any (·.contains point) = true
  · obtain ⟨p, hp, hcontains⟩ := List.any_eq_true.1 hessential
    exact ⟨p, subset_complete hp, hcontains⟩
  · refine exists_mem_complete (fun r hr => hprimes r (List.mem_filter.1 hr).1) ?_
      (List.mem_filter.2 ⟨hpoint, by simpa using hessential⟩)
    intro r hr p hp
    have hnone := (List.mem_filter.1 hr).2
    simp only [Bool.not_eq_true', List.any_eq_false] at hnone
    exact Bool.eq_false_iff.2 (hnone p hp)

/-! ## The order of the primes -/

theorem isBetter_iff {g h : Nat} {c d : Cube} : isBetter g c h d = true ↔
    h < g ∨ h = g ∧ (c.size < d.size ∨ c.size = d.size ∧ c.le d = true) := by
  simp [isBetter]

theorem isBetter_refl (g : Nat) (c : Cube) : isBetter g c g c = true := by
  rw [isBetter_iff, Cube.le_iff]
  omega

theorem isBetter_trans {f g h : Nat} {c d e : Cube} (hcd : isBetter f c g d = true)
    (hde : isBetter g d h e = true) : isBetter f c h e = true := by
  rw [isBetter_iff, Cube.le_iff] at hcd hde ⊢
  omega

theorem isBetter_total {g h : Nat} {c d : Cube} (hcd : isBetter g c h d = false) :
    isBetter h d g c = true := by
  rw [Bool.eq_false_iff, ne_eq, isBetter_iff, Cube.le_iff] at hcd
  rw [isBetter_iff, Cube.le_iff]
  omega

theorem isBetter_antisymm {g h : Nat} {c d : Cube} (hcd : isBetter g c h d = true)
    (hdc : isBetter h d g c = true) : c = d := by
  rw [isBetter_iff] at hcd hdc
  obtain ⟨-, hsize | ⟨-, hle⟩⟩ := hcd.resolve_left (by omega)
  · omega
  · obtain ⟨-, hsize | ⟨-, hge⟩⟩ := hdc.resolve_left (by omega)
    · omega
    · exact Cube.le_antisymm c d hle hge

/-- A comparison finds what is better than both. -/
theorem isBetter_of_better {best : Option (Nat × Cube)} {p : Cube} {x : Nat × Cube}
    (h : better chosen points best p = some x) :
    (∀ y, best = some y → isBetter x.1 x.2 y.1 y.2 = true) ∧
      (Candidate chosen points p → isBetter x.1 x.2 (points.countP p.contains) p = true) := by
  by_cases hp : Candidate chosen points p
  · cases best with
    | none =>
      rw [better_none hp] at h
      cases h
      exact ⟨by simp, fun _ => isBetter_refl _ _⟩
    | some y =>
      rw [better_some hp] at h
      simp only [Option.some.injEq, forall_eq']
      split at h
      next hbetter =>
        cases h
        exact ⟨hbetter, fun _ => isBetter_refl _ _⟩
      next hworse =>
        cases h
        exact ⟨isBetter_refl _ _, fun _ => isBetter_total (Bool.eq_false_iff.2 hworse)⟩
  · rw [better_of_not_candidate hp] at h
    refine ⟨?_, fun hcandidate => absurd hcandidate hp⟩
    rintro y rfl
    cases h
    exact isBetter_refl _ _

theorem isBetter_of_foldl_better {best : Option (Nat × Cube)} {x : Nat × Cube}
    (h : primes.foldl (better chosen points) best = some x) :
    (∀ y, best = some y → isBetter x.1 x.2 y.1 y.2 = true) ∧
      ∀ p ∈ primes, Candidate chosen points p →
        isBetter x.1 x.2 (points.countP p.contains) p = true := by
  induction primes generalizing best with
  | nil =>
    refine ⟨?_, by simp⟩
    rintro y rfl
    cases h
    exact isBetter_refl _ _
  | cons p primes ih =>
    obtain ⟨hstep, hprimes⟩ := ih h
    cases hnext : better chosen points best p with
    | none =>
      obtain ⟨rfl, hp⟩ := better_eq_none hnext
      exact ⟨by simp, List.forall_mem_cons.2 ⟨fun hcandidate => absurd hcandidate hp, hprimes⟩⟩
    | some z =>
      obtain ⟨hbest, hp⟩ := isBetter_of_better hnext
      have hz := hstep z hnext
      exact ⟨fun y hy => isBetter_trans hz (hbest y hy),
        List.forall_mem_cons.2 ⟨fun hcandidate => isBetter_trans hz (hp hcandidate), hprimes⟩⟩

/-- The best prime is the one among those that can be chosen which is better than all. -/
theorem best?_eq_some_iff {p : Cube} :
    best? primes chosen points = some p ↔ p ∈ primes ∧ Candidate chosen points p ∧
      ∀ q ∈ primes, Candidate chosen points q →
        isBetter (points.countP p.contains) p (points.countP q.contains) q = true := by
  have hbest : ∀ p, best? primes chosen points = some p →
      p ∈ primes ∧ Candidate chosen points p ∧ ∀ q ∈ primes, Candidate chosen points q →
        isBetter (points.countP p.contains) p (points.countP q.contains) q = true := by
    intro p h
    obtain ⟨x, hx, rfl⟩ := Option.map_eq_some_iff.1 h
    obtain ⟨p, hp, hcandidate, rfl⟩ := (foldl_better_eq_some hx).resolve_left (by simp)
    exact ⟨hp, hcandidate, (isBetter_of_foldl_better hx).2⟩
  refine ⟨hbest p, fun ⟨hp, hcandidate, hall⟩ => ?_⟩
  cases hfound : best? primes chosen points with
  | none => exact absurd hcandidate (not_candidate_of_best? hfound p hp)
  | some q =>
    obtain ⟨hq, hcandidate', hall'⟩ := hbest q hfound
    rw [isBetter_antisymm (hall q hq hcandidate') (hall' p hp hcandidate)]

variable {primes' : List Cube}

theorem best?_eq_of_perm (h : primes.Perm primes') (chosen : List Cube) (points : List UInt64) :
    best? primes chosen points = best? primes' chosen points := by
  refine Option.ext fun p => ?_
  simp only [best?_eq_some_iff, h.mem_iff]

theorem complete_eq_of_perm (h : primes.Perm primes') (chosen : List Cube)
    (points : List UInt64) : complete primes chosen points = complete primes' chosen points := by
  fun_induction complete primes chosen points with
  | case1 chosen points p hbest _ ih =>
    rw [best?_eq_of_perm h] at hbest
    rw [ih]
    symm
    rw [complete]
    split
    next q hfound => rw [Option.some.inj (hbest.symm.trans hfound)]
    next hfound => cases hbest.symm.trans hfound
  | case2 chosen points hbest =>
    rw [best?_eq_of_perm h] at hbest
    symm
    rw [complete]
    split
    next q hfound => cases hbest.symm.trans hfound
    next => rfl

theorem onlyContaining?_eq_some_iff {point : UInt64} {p : Cube} :
    onlyContaining? point primes = some p ↔ primes.filter (·.contains point) = [p] := by
  fun_induction onlyContaining? point primes with
  | case1 => simp
  | case2 q ps hq hany =>
    obtain ⟨r, hr, hcontains⟩ := List.any_eq_true.1 hany
    have hne : ps.filter (·.contains point) ≠ [] :=
      List.ne_nil_of_mem (List.mem_filter.2 ⟨hr, hcontains⟩)
    simp [hq, hne]
  | case3 q ps hq hany =>
    have hnone : ps.filter (·.contains point) = [] := by
      simpa using hany
    simp [hq, hnone]
  | case4 q ps hq ih => rw [ih, List.filter_cons, if_neg hq]

theorem essential_eq_of_perm (h : primes.Perm primes') (points : List UInt64) :
    essential primes points = essential primes' points := by
  have honly : ∀ point, onlyContaining? point primes = onlyContaining? point primes' := by
    intro point
    refine Option.ext fun p => ?_
    rw [onlyContaining?_eq_some_iff, onlyContaining?_eq_some_iff, ← List.perm_singleton,
      ← List.perm_singleton]
    exact (h.filter _).congr_left [p]
  simp only [essential, honly]

/-- A cover does not depend on the order in which the primes are listed. -/
theorem selectCover_eq_of_perm (h : primes.Perm primes') (points : List UInt64) :
    selectCover primes points = selectCover primes' points := by
  simp only [selectCover, essential_eq_of_perm h, complete_eq_of_perm h]

/-! ## The points of a formula -/

section Onset

variable {n : Nat} {f : Formula Nat}

theorem onset_eq (n : Nat) (f : Formula Nat) :
    onset n f = (Bits.points n).filter fun point => f.holds (Bits.has point) := rfl

theorem mem_onset {point : UInt64} :
    point ∈ onset n f ↔ Bits.Below n point ∧ f.holds (Bits.has point) = true := by
  rw [onset_eq, List.mem_filter, Bits.mem_points]

theorem nodup_onset (hn : n ≤ 64) : (onset n f).Nodup :=
  (Bits.nodup_points hn).sublist List.filter_sublist

/-- A formula over the first variables has the value it has at the restricted point. -/
theorem holds_restrict (hn : n ≤ 64) (hf : ∀ i ∈ f.occurrences, i < n) (point : UInt64) :
    f.holds (Bits.has (Bits.restrict n point)) = f.holds (Bits.has point) := by
  refine Formula.holds_congr f fun i hi => ?_
  have hin := hf i hi
  rw [Bits.has_restrict n point (Nat.lt_of_lt_of_le hin hn)]
  simp [hin]

theorem nodup_ascending_points (ps : List UInt64) : (ascending (· ≤ ·) ps).Nodup := by
  refine nodup_ascending ?_ ?_ ?_ ps
  · intro a b hab hba
    exact UInt64.le_antisymm (by simpa using hab) (by simpa using hba)
  · intro a b c hab hbc
    simp only [decide_eq_true_eq] at hab hbc ⊢
    exact UInt64.le_trans hab hbc
  · intro a b
    simpa using UInt64.le_total a b

theorem isImplicant_of_mem_primeImplicants (hn : n ≤ 64) {ps : List UInt64}
    (hbelow : ∀ p ∈ ps, Bits.Below n p) {c : Cube} (hc : c ∈ primeImplicants n ps) :
    IsImplicant n ps c := by
  have h := isImplicant_of_mem_primesOf hn (nodup_ascending_points ps)
    (fun p hp => hbelow p (mem_ascending.1 hp)) hc
  exact ⟨h.canonical, h.within, fun p hp hagrees => mem_ascending.1 (h.inside p hp hagrees)⟩

theorem exists_mem_primeImplicants (hn : n ≤ 64) {ps : List UInt64}
    (hbelow : ∀ p ∈ ps, Bits.Below n p) {p : UInt64} (hp : p ∈ ps) :
    ∃ c ∈ primeImplicants n ps, c.agrees p = true :=
  exists_mem_primesOf hn (nodup_ascending_points ps)
    (fun q hq => hbelow q (mem_ascending.1 hq)) (mem_ascending.2 hp)

/-- The selected cubes hold where the formula does. -/
theorem holdsAt_selectCover (hn : n ≤ 64) (hf : ∀ i ∈ f.occurrences, i < n) (point : UInt64) :
    Cover.holdsAt (selectCover (primeImplicants n (onset n f)) (onset n f)) point =
      f.holds (Bits.has point) := by
  have hbelow : ∀ p ∈ onset n f, Bits.Below n p := fun p hp => (mem_onset.1 hp).1
  have himplicant : ∀ c ∈ selectCover (primeImplicants n (onset n f)) (onset n f),
      IsImplicant n (onset n f) c := fun c hc =>
    isImplicant_of_mem_primeImplicants hn hbelow (mem_of_mem_selectCover hc)
  rw [Bool.eq_iff_iff, Cover.holdsAt_iff]
  constructor
  · rintro ⟨c, hc, hagrees⟩
    have hmem := (himplicant c hc).inside (Bits.restrict n point) (Bits.below_restrict n point)
      (by rw [(himplicant c hc).within.agrees_restrict]; exact hagrees)
    rw [← holds_restrict hn hf]
    exact (mem_onset.1 hmem).2
  · intro hholds
    have hmem : Bits.restrict n point ∈ onset n f :=
      mem_onset.2 ⟨Bits.below_restrict n point, by rw [holds_restrict hn hf]; exact hholds⟩
    have hprimes : ∀ p ∈ onset n f,
        ∃ c ∈ primeImplicants n (onset n f), c.contains p = true := by
      intro p hp
      obtain ⟨c, hc, hagrees⟩ := exists_mem_primeImplicants hn hbelow hp
      refine ⟨c, hc, ?_⟩
      rw [(isImplicant_of_mem_primeImplicants hn hbelow hc).canonical.contains_eq_agrees]
      exact hagrees
    obtain ⟨c, hc, hcontains⟩ := exists_mem_selectCover hprimes hmem
    refine ⟨c, hc, ?_⟩
    rw [(himplicant c hc).canonical.contains_eq_agrees, (himplicant c hc).within.agrees_restrict]
      at hcontains
    exact hcontains

theorem represents_minimize (hn : n ≤ 64) (hf : ∀ i ∈ f.occurrences, i < n) :
    (minimize n f).Represents n f := by
  have hbelow : ∀ p ∈ onset n f, Bits.Below n p := fun p hp => (mem_onset.1 hp).1
  unfold minimize
  dsimp only
  split
  next hempty =>
    intro point
    refine Bool.eq_false_iff.2 fun hholds => ?_
    have hmem : Bits.restrict n point ∈ onset n f :=
      mem_onset.2 ⟨Bits.below_restrict n point, by rw [holds_restrict hn hf]; exact hholds⟩
    rw [List.isEmpty_iff.1 hempty] at hmem
    exact List.not_mem_nil hmem
  next hne =>
    split
    next hfull =>
      intro point
      have hmem := Bits.mem_of_length_eq (nodup_onset hn) hbelow (beq_iff_eq.1 hfull)
        (Bits.below_restrict n point)
      rw [← holds_restrict hn hf]
      exact (mem_onset.1 hmem).2
    next hfull =>
      obtain ⟨missing, hmissing, hfails⟩ :
          ∃ p, Bits.Below n p ∧ f.holds (Bits.has p) = false := by
        refine Classical.byContradiction fun hno => hfull (beq_iff_eq.2 ?_)
        rw [onset_eq, List.filter_eq_self.2, Bits.length_points]
        intro p hp
        exact Bool.of_not_eq_false fun hfalse => hno ⟨p, Bits.mem_points.1 hp, hfalse⟩
      refine ⟨?_, ?_, ?_, holdsAt_selectCover hn hf, ⟨missing, hfails⟩⟩
      · intro hnil
        obtain ⟨p, ps, honset⟩ := List.exists_cons_of_ne_nil (mt List.isEmpty_iff.2 hne)
        have hp : p ∈ onset n f := by
          rw [honset]
          exact List.mem_cons_self
        have hvalue := holdsAt_selectCover hn hf p
        rw [hnil, (mem_onset.1 hp).2] at hvalue
        cases hvalue
      · intro c hc hcare
        have hvalue := holdsAt_selectCover hn hf missing
        rw [hfails] at hvalue
        have hholds := Cover.holdsAt_iff.2 ⟨c, hc, Cube.agrees_of_care_eq_zero hcare missing⟩
        rw [hvalue] at hholds
        cases hholds
      · intro c hc
        exact (isImplicant_of_mem_primeImplicants hn hbelow (mem_of_mem_selectCover hc)).within

end Onset

end StreamFilter.Exact
