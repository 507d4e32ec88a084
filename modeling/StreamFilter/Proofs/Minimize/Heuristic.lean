import StreamFilter.Minimize.Heuristic
import StreamFilter.Proofs.Fault
import StreamFilter.Proofs.Minimize.Sum
set_option autoImplicit false

/-!
# Heuristic minimization keeps the value of a formula

Each stage is a statement about `CoverOf`: multiplying a formula out gives a cover of
its value (`coverOf_cubes`), and enlarging cubes and dropping covered ones changes
that value nowhere.  Together they make `Heuristic.minimize` represent the formula.

A formula over names is multiplied out as the one over their positions (`cubes_map`).
The limit on the lists of cubes says whether there is a cover, and not which
(`fromLimit_cubes`).
-/

namespace StreamFilter.Heuristic

/-- Canonical cubes over the variables below `n` that hold together where a function
of points is true. -/
structure CoverOf (n : Nat) (value : UInt64 → Bool) (cubes : List Cube) : Prop where
  canonical : ∀ c ∈ cubes, c.Canonical
  within : ∀ c ∈ cubes, c.Within n
  value : ∀ point, Cover.holdsAt cubes point = value point

variable {n limit : Nat} {g h : UInt64 → Bool} {cs ds : List Cube}

theorem CoverOf.congr (hc : CoverOf n g cs) (hgh : ∀ point, g point = h point) :
    CoverOf n h cs :=
  ⟨hc.canonical, hc.within, fun point => (hc.value point).trans (hgh point)⟩

/-! ## Sums and products -/

theorem coverOf_nil (n : Nat) : CoverOf n (fun _ => false) [] :=
  ⟨by simp, by simp, fun _ => rfl⟩

theorem coverOf_everything (n : Nat) : CoverOf n (fun _ => true) [Cube.everything] := by
  refine ⟨?_, ?_, ?_⟩
  · intro c hc
    rw [List.mem_singleton.1 hc]
    exact Cube.canonical_everything
  · intro c hc
    rw [List.mem_singleton.1 hc]
    exact Cube.within_everything n
  · intro point
    simp

theorem coverOf_literal {i : Nat} (hi : i < n) (hn : n ≤ 64) (positive : Bool) :
    CoverOf n (fun point => Bits.has point i == positive) [Cube.literal i positive] := by
  have hlt : i < 64 := Nat.lt_of_lt_of_le hi hn
  refine ⟨?_, ?_, ?_⟩
  · intro c hc
    rw [List.mem_singleton.1 hc]
    exact Cube.canonical_literal i positive
  · intro c hc
    rw [List.mem_singleton.1 hc]
    exact Cube.within_literal hlt hi positive
  · intro point
    simp [Cube.agrees_literal hlt]

theorem CoverOf.append (hc : CoverOf n g cs) (hd : CoverOf n h ds) :
    CoverOf n (fun point => g point || h point) (cs ++ ds) := by
  refine ⟨?_, ?_, ?_⟩
  · intro c hmem
    exact (List.mem_append.1 hmem).elim (hc.canonical c) (hd.canonical c)
  · intro c hmem
    exact (List.mem_append.1 hmem).elim (hc.within c) (hd.within c)
  · intro point
    rw [Cover.holdsAt_append, hc.value, hd.value]

theorem mem_products {e : Cube} :
    e ∈ products cs ds ↔ ∃ c ∈ cs, ∃ d ∈ ds, c.inter? d = some e := by
  simp [products]

theorem CoverOf.products (hc : CoverOf n g cs) (hd : CoverOf n h ds) :
    CoverOf n (fun point => g point && h point) (products cs ds) := by
  refine ⟨?_, ?_, ?_⟩
  · intro e he
    obtain ⟨c, hcmem, d, hdmem, hinter⟩ := mem_products.1 he
    exact (Cube.agrees_of_inter? (hc.canonical c hcmem) (hd.canonical d hdmem) hinter).1
  · intro e he
    obtain ⟨c, hcmem, d, hdmem, hinter⟩ := mem_products.1 he
    exact (hc.within c hcmem).inter? (hd.within d hdmem) hinter
  · intro point
    rw [← hc.value, ← hd.value, Bool.eq_iff_iff, Bool.and_eq_true, Cover.holdsAt_iff,
      Cover.holdsAt_iff, Cover.holdsAt_iff]
    constructor
    · rintro ⟨e, he, hagrees⟩
      obtain ⟨c, hcmem, d, hdmem, hinter⟩ := mem_products.1 he
      obtain ⟨-, hboth⟩ :=
        Cube.agrees_of_inter? (hc.canonical c hcmem) (hd.canonical d hdmem) hinter
      rw [hboth, Bool.and_eq_true] at hagrees
      exact ⟨⟨c, hcmem, hagrees.1⟩, ⟨d, hdmem, hagrees.2⟩⟩
    · rintro ⟨⟨c, hcmem, hcagrees⟩, ⟨d, hdmem, hdagrees⟩⟩
      obtain ⟨e, hinter⟩ := Option.isSome_iff_exists.1 (Cube.isSome_inter? hcagrees hdagrees)
      obtain ⟨-, hboth⟩ :=
        Cube.agrees_of_inter? (hc.canonical c hcmem) (hd.canonical d hdmem) hinter
      refine ⟨e, mem_products.2 ⟨c, hcmem, d, hdmem, hinter⟩, ?_⟩
      rw [hboth, hcagrees, hdagrees]
      rfl

theorem CoverOf.absorb (hc : CoverOf n g cs) : CoverOf n g (Cover.absorb cs) :=
  ⟨fun c hmem => hc.canonical c (Cover.mem_of_mem_absorb hmem),
    fun c hmem => hc.within c (Cover.mem_of_mem_absorb hmem),
    fun point => (Cover.holdsAt_absorb cs point).trans (hc.value point)⟩

theorem within_eq_ok (hw : Heuristic.within limit cs = .ok ds) : cs = ds := by
  unfold Heuristic.within at hw
  split at hw
  · exact Except.ok.inj hw
  · cases hw

/-! ## Multiplying out -/

mutual

/-- The cubes of a formula hold where it has the value `positive`. -/
theorem coverOf_cubes (hn : n ≤ 64) (limit : Nat) : ∀ (positive : Bool) (f : Formula Nat)
    (cs : List Cube), (∀ i ∈ f.occurrences, i < n) → cubes .ok limit positive f = .ok cs →
      CoverOf n (fun point => f.holds (Bits.has point) == positive) cs
  | positive, .var i, cs, hf, hcs => by
    rw [cubes] at hcs
    obtain ⟨_, hplace, hcs⟩ := exists_of_bind_eq_ok hcs
    cases hplace
    rw [← within_eq_ok hcs]
    exact coverOf_literal (hf i (by simp [Formula.occurrences])) hn positive
  | positive, .not f, cs, hf, hcs => by
    rw [cubes] at hcs
    refine (coverOf_cubes hn limit (!positive) f cs
      (fun i hi => hf i (by simpa [Formula.occurrences] using hi)) hcs).congr fun point => ?_
    rw [Formula.holds]
    cases f.holds (Bits.has point) <;> cases positive <;> rfl
  | positive, .and fs, cs, hf, hcs => by
    rw [cubes] at hcs
    have hfs : ∀ i ∈ Formula.occurrencesAll fs, i < n :=
      fun i hi => hf i (by simpa [Formula.occurrences] using hi)
    cases positive with
    | true =>
      rw [if_pos rfl] at hcs
      obtain ⟨ds, hds, hwithin⟩ := exists_of_bind_eq_ok hcs
      rw [← within_eq_ok hwithin]
      refine (coverOf_multiplied hn limit true fs _ ds _ (coverOf_everything n) hfs hds).congr
        fun point => ?_
      rw [Formula.holds, Formula.allHold_eq]
      simp
    | false =>
      rw [if_neg Bool.false_ne_true] at hcs
      obtain ⟨ds, hds, hwithin⟩ := exists_of_bind_eq_ok hcs
      rw [← within_eq_ok hwithin]
      refine (coverOf_added hn limit false fs _ ds _ (coverOf_nil n) hfs hds).congr
        fun point => ?_
      rw [Formula.holds, Formula.allHold_eq, Bool.false_or]
      simp [List.all_eq_not_any_not]
  | positive, .or fs, cs, hf, hcs => by
    rw [cubes] at hcs
    have hfs : ∀ i ∈ Formula.occurrencesAll fs, i < n :=
      fun i hi => hf i (by simpa [Formula.occurrences] using hi)
    cases positive with
    | true =>
      rw [if_pos rfl] at hcs
      obtain ⟨ds, hds, hwithin⟩ := exists_of_bind_eq_ok hcs
      rw [← within_eq_ok hwithin]
      refine (coverOf_added hn limit true fs _ ds _ (coverOf_nil n) hfs hds).congr
        fun point => ?_
      rw [Formula.holds, Formula.anyHolds_eq]
      simp
    | false =>
      rw [if_neg Bool.false_ne_true] at hcs
      obtain ⟨ds, hds, hwithin⟩ := exists_of_bind_eq_ok hcs
      rw [← within_eq_ok hwithin]
      refine (coverOf_multiplied hn limit false fs _ ds _ (coverOf_everything n) hfs hds).congr
        fun point => ?_
      rw [Formula.holds, Formula.anyHolds_eq, Bool.true_and]
      simp [List.any_eq_not_all_not]

/-- Multiplying on conjoins the values of the factors. -/
theorem coverOf_multiplied (hn : n ≤ 64) (limit : Nat) (positive : Bool) :
    ∀ (fs : List (Formula Nat)) (acc cs : List Cube) (g : UInt64 → Bool), CoverOf n g acc →
      (∀ i ∈ Formula.occurrencesAll fs, i < n) → multiplied .ok limit positive fs acc = .ok cs →
      CoverOf n (fun point => g point && fs.all fun f => f.holds (Bits.has point) == positive) cs
  | [], acc, cs, g, hacc, _, hcs => by
    rw [multiplied] at hcs
    cases hcs
    exact hacc.congr fun point => by simp
  | f :: fs, acc, cs, g, hacc, hf, hcs => by
    rw [multiplied] at hcs
    obtain ⟨factor, hfactor, hcs⟩ := exists_of_bind_eq_ok hcs
    obtain ⟨product, hproduct, hcs⟩ := exists_of_bind_eq_ok hcs
    have hcover := coverOf_cubes hn limit positive f factor
      (fun i hi => hf i (by simp [Formula.occurrencesAll, hi])) hfactor
    have hstep := (hacc.products hcover).absorb
    rw [within_eq_ok hproduct] at hstep
    refine (coverOf_multiplied hn limit positive fs product cs _ hstep
      (fun i hi => hf i (by simp [Formula.occurrencesAll, hi])) hcs).congr fun point => ?_
    rw [List.all_cons, Bool.and_assoc]

/-- Adding on disjoins the values of the summands. -/
theorem coverOf_added (hn : n ≤ 64) (limit : Nat) (positive : Bool) :
    ∀ (fs : List (Formula Nat)) (acc cs : List Cube) (g : UInt64 → Bool), CoverOf n g acc →
      (∀ i ∈ Formula.occurrencesAll fs, i < n) → added .ok limit positive fs acc = .ok cs →
      CoverOf n (fun point => g point || fs.any fun f => f.holds (Bits.has point) == positive) cs
  | [], acc, cs, g, hacc, _, hcs => by
    rw [added] at hcs
    cases hcs
    exact hacc.absorb.congr fun point => by simp
  | f :: fs, acc, cs, g, hacc, hf, hcs => by
    rw [added] at hcs
    obtain ⟨more, hmore, hcs⟩ := exists_of_bind_eq_ok hcs
    have hcover := coverOf_cubes hn limit positive f more
      (fun i hi => hf i (by simp [Formula.occurrencesAll, hi])) hmore
    refine (coverOf_added hn limit positive fs (acc ++ more) cs _ (hacc.append hcover)
      (fun i hi => hf i (by simp [Formula.occurrencesAll, hi])) hcs).congr fun point => ?_
    rw [List.any_cons, Bool.or_assoc]

end

/-! ## Positions of variables

What is multiplied out depends on the positions of the variables only.  So a formula over
names, all of which have positions, is multiplied out as the formula over positions. -/

section Positions

variable {α : Type} {index : α → Except Stop Nat} {place : α → Nat}

mutual

theorem cubes_map (limit : Nat) : ∀ (positive : Bool) (f : Formula α),
    (∀ x ∈ f.occurrences, index x = .ok (place x)) →
      cubes index limit positive f = cubes .ok limit positive (f.map place)
  | positive, .var x, h => by
    rw [cubes, Formula.map, cubes, h x (by simp [Formula.occurrences])]
  | positive, .not f, h => by
    rw [cubes, Formula.map, cubes, cubes_map limit (!positive) f h]
  | positive, .and fs, h => by
    rw [cubes, Formula.map, cubes, multiplied_map limit true fs _ h, added_map limit false fs _ h]
  | positive, .or fs, h => by
    rw [cubes, Formula.map, cubes, multiplied_map limit false fs _ h, added_map limit true fs _ h]

theorem multiplied_map (limit : Nat) (positive : Bool) :
    ∀ (fs : List (Formula α)) (acc : List Cube),
      (∀ x ∈ Formula.occurrencesAll fs, index x = .ok (place x)) →
      multiplied index limit positive fs acc =
        multiplied .ok limit positive (Formula.mapAll place fs) acc
  | [], acc, _ => by rw [multiplied, Formula.mapAll, multiplied]
  | f :: fs, acc, h => by
    have hf : ∀ x ∈ f.occurrences, index x = .ok (place x) :=
      fun x hx => h x (by simp [Formula.occurrencesAll, hx])
    rw [multiplied, Formula.mapAll, multiplied, cubes_map limit positive f hf]
    refine bind_congr fun factor => bind_congr fun product => ?_
    exact multiplied_map limit positive fs product
      fun x hx => h x (by simp [Formula.occurrencesAll, hx])

theorem added_map (limit : Nat) (positive : Bool) :
    ∀ (fs : List (Formula α)) (acc : List Cube),
      (∀ x ∈ Formula.occurrencesAll fs, index x = .ok (place x)) →
      added index limit positive fs acc = added .ok limit positive (Formula.mapAll place fs) acc
  | [], acc, _ => by rw [added, Formula.mapAll, added]
  | f :: fs, acc, h => by
    have hf : ∀ x ∈ f.occurrences, index x = .ok (place x) :=
      fun x hx => h x (by simp [Formula.occurrencesAll, hx])
    rw [added, Formula.mapAll, added, cubes_map limit positive f hf]
    refine bind_congr fun more => ?_
    exact added_map limit positive fs (acc ++ more)
      fun x hx => h x (by simp [Formula.occurrencesAll, hx])

end

theorem minimize_map (limit : Nat) {f : Formula α}
    (h : ∀ x ∈ f.occurrences, index x = .ok (place x)) :
    minimize index limit f = minimize .ok limit (f.map place) := by
  rw [minimize, minimize, cubes_map limit true f h]

end Positions

/-! ## Limits that suffice -/

/-- Whether there is a list, and from some limit on always the same one. -/
def Eventually (list : Nat → Except Stop (List Cube)) : Prop :=
  ∃ cs least, ∀ limit, least ≤ limit → list limit = .ok cs

/-- Whether there is one result from some limit on, and below that limit too many cubes. -/
def FromLimit {α : Type} (result : Nat → Except Stop α) : Prop :=
  ∃ x least, ∀ limit, result limit = if least ≤ limit then .ok x else .error .tooMany

theorem FromLimit.eventually {list : Nat → Except Stop (List Cube)} (h : FromLimit list) :
    Eventually list := by
  obtain ⟨cs, least, hcs⟩ := h
  exact ⟨cs, least, fun limit hlimit => (hcs limit).trans (if_pos hlimit)⟩

theorem FromLimit.ne_unindexed {α : Type} {result : Nat → Except Stop α} (h : FromLimit result)
    (limit : Nat) (name : String) : result limit ≠ .error (.unindexed name) := by
  obtain ⟨x, least, hx⟩ := h
  rw [hx]
  split <;> simp

theorem fromLimit_ok {α : Type} (x : α) : FromLimit fun _ => .ok x :=
  ⟨x, 0, fun limit => (if_pos (Nat.zero_le limit)).symm⟩

theorem fromLimit_within (cs : List Cube) : FromLimit fun limit => Heuristic.within limit cs :=
  ⟨cs, cs.length, fun _ => rfl⟩

/-- Two stages have a result from the larger of their limits on. -/
theorem FromLimit.bind {α β : Type} {result : Nat → Except Stop α}
    {next : Nat → α → Except Stop β} (h : FromLimit result)
    (hnext : ∀ x, FromLimit fun limit => next limit x) :
    FromLimit fun limit => result limit >>= next limit := by
  obtain ⟨x, least, hx⟩ := h
  obtain ⟨y, other, hy⟩ := hnext x
  refine ⟨y, max least other, fun limit => ?_⟩
  dsimp only at hy ⊢
  rw [hx]
  by_cases hleast : least ≤ limit
  · rw [if_pos hleast]
    refine (hy limit).trans ?_
    simp only [Nat.max_le, hleast, true_and]
  · have hbelow : ¬max least other ≤ limit := by omega
    rw [if_neg hleast, if_neg hbelow]
    rfl

theorem FromLimit.map {α β : Type} {result : Nat → Except Stop α} (h : FromLimit result)
    (g : α → β) : FromLimit fun limit => (result limit).map g := by
  obtain ⟨x, least, hx⟩ := h
  refine ⟨g x, least, fun limit => ?_⟩
  dsimp only
  rw [hx]
  split <;> rfl

mutual

/-- A formula is multiplied out to one list from some limit on, and not at all below. -/
theorem fromLimit_cubes : ∀ (positive : Bool) (f : Formula Nat),
    FromLimit fun limit => cubes .ok limit positive f
  | positive, .var i => by
    simp only [cubes]
    exact (fromLimit_ok i).bind fun j => fromLimit_within [Cube.literal j positive]
  | positive, .not f => by
    simp only [cubes]
    exact fromLimit_cubes (!positive) f
  | true, .and fs => by
    simp only [cubes, if_true]
    exact (fromLimit_multiplied true fs _).bind fromLimit_within
  | false, .and fs => by
    simp only [cubes, Bool.false_eq_true, if_false]
    exact (fromLimit_added false fs _).bind fromLimit_within
  | true, .or fs => by
    simp only [cubes, if_true]
    exact (fromLimit_added true fs _).bind fromLimit_within
  | false, .or fs => by
    simp only [cubes, Bool.false_eq_true, if_false]
    exact (fromLimit_multiplied false fs _).bind fromLimit_within

theorem fromLimit_multiplied (positive : Bool) : ∀ (fs : List (Formula Nat)) (acc : List Cube),
    FromLimit fun limit => multiplied .ok limit positive fs acc
  | [], acc => by
    simp only [multiplied]
    exact fromLimit_ok acc
  | f :: fs, acc => by
    simp only [multiplied]
    refine (fromLimit_cubes positive f).bind fun factor => ?_
    exact (fromLimit_within _).bind fun product => fromLimit_multiplied positive fs product

theorem fromLimit_added (positive : Bool) : ∀ (fs : List (Formula Nat)) (acc : List Cube),
    FromLimit fun limit => added .ok limit positive fs acc
  | [], acc => by
    simp only [added]
    exact fromLimit_ok _
  | f :: fs, acc => by
    simp only [added]
    exact (fromLimit_cubes positive f).bind fun more =>
      fromLimit_added positive fs (acc ++ more)

end

theorem eventually_cubes (positive : Bool) (f : Formula Nat) :
    Eventually fun limit => cubes .ok limit positive f :=
  (fromLimit_cubes positive f).eventually

/-! ## Enlarging cubes -/

/-- What enlarging keeps of a cube: it grows, but stays inside the cover. -/
structure Enlarged (n : Nat) (cover : List Cube) (c e : Cube) : Prop where
  within : e.Within n
  grows : ∀ point, c.agrees point = true → e.agrees point = true
  stays : ∀ point, e.agrees point = true → Cover.holdsAt cover point = true

/-- A step drops one literal or leaves the cube alone. -/
theorem Enlarged.dropLiteral {cover : List Cube} {c e : Cube} (h : Enlarged n cover c e) (i : Nat) :
    Enlarged n cover c (dropLiteral cover e i) := by
  unfold Heuristic.dropLiteral
  dsimp only
  split
  next himplies =>
    exact ⟨h.within.without _,
      fun point hpoint => Cube.agrees_without_of_agrees _ (h.grows point hpoint),
      Cover.implies_iff.1 himplies⟩
  next => exact h

theorem enlarged_enlarge {cover : List Cube} {c : Cube} (hc : c ∈ cover) (hwithin : c.Within n) :
    Enlarged n cover c (enlarge cover c) := by
  refine List.foldlRecOn (motive := Enlarged n cover c) _ _ ?_ fun e he i _ => he.dropLiteral i
  exact ⟨hwithin, fun _ hpoint => hpoint, fun _ hpoint => Cover.holdsAt_iff.2 ⟨c, hc, hpoint⟩⟩

theorem holdsAt_map_enlarge {cover : List Cube} (hwithin : ∀ c ∈ cover, c.Within n)
    (point : UInt64) :
    Cover.holdsAt (cover.map (enlarge cover)) point = Cover.holdsAt cover point := by
  rw [Bool.eq_iff_iff]
  constructor
  · intro hholds
    obtain ⟨e, he, hagrees⟩ := Cover.holdsAt_iff.1 hholds
    obtain ⟨c, hc, rfl⟩ := List.mem_map.1 he
    exact (enlarged_enlarge hc (hwithin c hc)).stays point hagrees
  · intro hholds
    obtain ⟨c, hc, hagrees⟩ := Cover.holdsAt_iff.1 hholds
    exact Cover.holdsAt_iff.2 ⟨enlarge cover c, List.mem_map_of_mem hc,
      (enlarged_enlarge hc (hwithin c hc)).grows point hagrees⟩

/-! ## Dropping covered cubes -/

theorem mem_of_mem_dropCovered {kept rest : List Cube} {c : Cube}
    (hc : c ∈ dropCovered kept rest) : c ∈ kept ∨ c ∈ rest := by
  fun_induction dropCovered kept rest with
  | case1 kept => exact .inl (List.mem_reverse.1 hc)
  | case2 kept d rest _ ih => exact (ih hc).imp_right (List.mem_cons_of_mem d)
  | case3 kept d rest _ ih =>
    rcases ih hc with hk | hr
    · rcases List.mem_cons.1 hk with rfl | hk
      · exact .inr List.mem_cons_self
      · exact .inl hk
    · exact .inr (List.mem_cons_of_mem d hr)

theorem holdsAt_dropCovered (kept rest : List Cube) (point : UInt64) :
    Cover.holdsAt (dropCovered kept rest) point = Cover.holdsAt (kept ++ rest) point := by
  fun_induction dropCovered kept rest with
  | case1 kept => exact Cover.holdsAt_congr (fun c => by simp) point
  | case2 kept d rest himplies ih =>
    have hdrop : d.agrees point = true → Cover.holdsAt (kept ++ rest) point = true := by
      intro hd
      rw [← Cover.implies_iff.1 himplies point hd]
      exact Cover.holdsAt_congr (fun c => by simp) point
    rw [ih]
    simp only [Cover.holdsAt_append, Cover.holdsAt_cons] at hdrop ⊢
    cases hd : d.agrees point with
    | false => rfl
    | true =>
      rw [hdrop hd]
      simp
  | case3 kept d rest _ ih =>
    rw [ih]
    exact Cover.holdsAt_congr (fun c => by simp [or_left_comm]) point

theorem mem_map_sized_mergeSort {c : Cube} :
    c ∈ ((cs.map Cube.sized).mergeSort Cube.sizedGe).map Prod.snd ↔ c ∈ cs := by
  simp [Cube.sized, List.mem_mergeSort]

theorem mem_of_mem_irredundant {c : Cube} (hc : c ∈ irredundant cs) : c ∈ cs := by
  rcases mem_of_mem_dropCovered hc with hnil | hmem
  · exact absurd hnil List.not_mem_nil
  · exact mem_map_sized_mergeSort.1 hmem

theorem holdsAt_irredundant (cs : List Cube) (point : UInt64) :
    Cover.holdsAt (irredundant cs) point = Cover.holdsAt cs point := by
  rw [irredundant, holdsAt_dropCovered, List.nil_append]
  exact Cover.holdsAt_congr (fun c => mem_map_sized_mergeSort) point

/-! ## The whole -/

/-- The value of the sum that heuristic minimization arrives at. -/
theorem holdsAt_irredundant_enlarged {onset : List Cube} (hwithin : ∀ c ∈ onset, c.Within n)
    (point : UInt64) :
    Cover.holdsAt (irredundant (Cover.absorb (onset.map (enlarge onset)))) point =
      Cover.holdsAt onset point := by
  rw [holdsAt_irredundant, Cover.holdsAt_absorb, holdsAt_map_enlarge hwithin]

theorem represents_minimize (hn : n ≤ 64) {f : Formula Nat} (hf : ∀ i ∈ f.occurrences, i < n)
    {form : TwoLevel} (hform : minimize .ok limit f = .ok form) : form.Represents n f := by
  obtain ⟨onset, honset, rfl⟩ := exists_of_map_eq_ok hform
  have hcover := coverOf_cubes hn limit true f onset hf honset
  have hvalue : ∀ point, Cover.holdsAt onset point = f.holds (Bits.has point) :=
    fun point => (hcover.value point).trans (by simp)
  split
  next hempty =>
    intro point
    rw [← hvalue, List.isEmpty_iff.1 hempty]
    rfl
  next hne =>
    split
    next htaut =>
      intro point
      rw [← hvalue]
      exact Cover.isTautology_iff.1 htaut point
    next htaut =>
      -- the cover fails at some point, so no enlarged cube can be the empty product
      obtain ⟨point, hfails⟩ : ∃ point, Cover.holdsAt onset point = false := by
        refine Classical.byContradiction fun hno => htaut (Cover.isTautology_iff.2 fun point => ?_)
        exact Bool.of_not_eq_false fun hfalse => hno ⟨point, hfalse⟩
      have hsource : ∀ c ∈ irredundant (Cover.absorb (onset.map (enlarge onset))),
          ∃ d ∈ onset, enlarge onset d = c := fun c hc =>
        List.mem_map.1 (Cover.mem_of_mem_absorb (mem_of_mem_irredundant hc))
      refine ⟨?_, ?_, ?_, ?_, ?_⟩
      · intro hnil
        obtain ⟨c, cs, rfl⟩ := List.exists_cons_of_ne_nil (mt List.isEmpty_iff.2 hne)
        have hplace := holdsAt_irredundant_enlarged hcover.within (c.place 0)
        rw [hnil, Cover.holdsAt_cons, c.agrees_place] at hplace
        cases hplace
      · intro c hc hcare
        obtain ⟨d, hd, rfl⟩ := hsource c hc
        have hstays := (enlarged_enlarge hd (hcover.within d hd)).stays point
          (Cube.agrees_of_care_eq_zero hcare point)
        rw [hfails] at hstays
        cases hstays
      · intro c hc
        obtain ⟨d, hd, rfl⟩ := hsource c hc
        exact (enlarged_enlarge hd (hcover.within d hd)).within
      · intro point
        rw [holdsAt_irredundant_enlarged hcover.within, hvalue]
      · exact ⟨point, by rw [← hvalue, hfails]⟩

end StreamFilter.Heuristic
