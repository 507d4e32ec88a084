import StreamFilter.Proofs.Formula.Polarity
import StreamFilter.Proofs.Minimize.PrimeCover
set_option autoImplicit false

/-!
# Unate formulas have one minimized form

In a prime of a unate formula each variable has the polarity it has in the formula.  At
the point of a prime where every other variable of the formula has the opposite value no
other prime holds, so every cover by primes contains every prime.  Hence the two ways of
minimizing arrive at the same cubes, and since the terms of a sum are put in order, at
the same text.
-/

namespace StreamFilter

namespace Cube

variable {c d : Cube}

/-! ## Cubes by their literals -/

/-- A canonical cube is determined by its literals. -/
theorem Canonical.eq_of_literals (hc : c.Canonical) (hd : d.Canonical)
    (h : ∀ l, l ∈ c.literals ↔ l ∈ d.literals) : c = d := by
  have hmem : ∀ i < 64, ∀ positive,
      (Bits.has c.care i = true ∧ Bits.has c.value i = positive) ↔
        (Bits.has d.care i = true ∧ Bits.has d.value i = positive) := by
    intro i hi positive
    simpa [mem_literals, hi] using h (i, positive)
  have hcare : ∀ i < 64, Bits.has c.care i = Bits.has d.care i := by
    intro i hi
    rw [Bool.eq_iff_iff]
    exact ⟨fun hci => ((hmem i hi _).1 ⟨hci, rfl⟩).1, fun hdi => ((hmem i hi _).2 ⟨hdi, rfl⟩).1⟩
  refine eq_of_has hcare fun i hi => ?_
  rw [Bool.eq_iff_iff]
  constructor
  · intro hvalue
    exact ((hmem i hi true).1 ⟨canonical_iff.1 hc i hi hvalue, hvalue⟩).2
  · intro hvalue
    exact ((hmem i hi true).2 ⟨canonical_iff.1 hd i hi hvalue, hvalue⟩).2

/-- A prime that is inside another prime is that prime. -/
theorem IsPrimeOf.eq_of_literals_subset {value : UInt64 → Bool} (hc : c.IsPrimeOf value)
    (hd : d.IsPrimeOf value) (h : ∀ l ∈ d.literals, l ∈ c.literals) : d = c := by
  refine hd.canonical.eq_of_literals hc.canonical fun l => ⟨h l, fun hl => ?_⟩
  obtain ⟨i, positive⟩ := l
  refine Classical.byContradiction fun hnot => ?_
  obtain ⟨hi, hcare, rfl⟩ := mem_literals.1 hl
  obtain ⟨point, hagrees, hfails⟩ := hc.tight i hi hcare
  have hpoint : d.agrees point = true := by
    refine agrees_iff_literals.2 fun m hm => ?_
    obtain ⟨hj, hcarej, hvalue⟩ := mem_literals.1 (h m hm)
    rw [← hvalue]
    refine agrees_without.1 hagrees m.1 hj hcarej ?_
    rw [Bits.has_single hj hi]
    refine decide_eq_false fun heq => hnot ?_
    rw [← heq, hvalue]
    exact hm
  rw [hd.inside point hpoint] at hfails
  cases hfails

end Cube

/-! ## Primes of a unate formula -/

section Unate

variable {f : Formula Nat} {c : Cube} {cubes : List Cube}

/-- The literals of a prime are literals of the formula: one that is not could be turned
over without the formula failing. -/
theorem Cube.IsPrimeOf.mem_signed (hf : ∀ i ∈ f.occurrences, i < 64)
    (hc : c.IsPrimeOf fun point => f.holds (Bits.has point)) {l : Nat × Bool}
    (hl : l ∈ c.literals) : l ∈ f.signed true := by
  obtain ⟨i, positive⟩ := l
  obtain ⟨hi, hcare, rfl⟩ := Cube.mem_literals.1 hl
  obtain ⟨point, hagrees, hfails⟩ := hc.tight i hi hcare
  refine Classical.byContradiction fun hnot => Bool.eq_false_iff.1 hfails ?_
  refine Formula.holds_mono true f (fun m hm hplace => ?_) (hc.inside _ (c.agrees_place point))
  have hm64 : m.1 < 64 := hf m.1 (Formula.mem_occurrences_of_mem_signed hm)
  rw [Cube.has_place] at hplace
  split at hplace
  next hcarem =>
    have hne : m.1 ≠ i := by
      intro heq
      refine hnot ?_
      rw [← heq, hplace]
      exact hm
    rw [Cube.agrees_without.1 hagrees m.1 hm64 hcarem]
    · exact hplace
    · rw [Bits.has_single hm64 hi]
      exact decide_eq_false hne
  next => exact hplace

/-- The point at which no literal of a unate formula is true. -/
def Formula.opposite (f : Formula Nat) : UInt64 :=
  Bits.ofTruth fun i => decide ((i, false) ∈ f.signed true)

theorem Formula.Unate.has_opposite (hunate : f.Unate) {l : Nat × Bool} (hl : l ∈ f.signed true)
    (hlt : l.1 < 64) : Bits.has f.opposite l.1 = !l.2 := by
  obtain ⟨i, positive⟩ := l
  rw [opposite, Bits.has_ofTruth _ hlt]
  cases positive with
  | false => exact decide_eq_true hl
  | true => exact decide_eq_false (hunate (i, true) hl)

/-- A cover of a unate formula by primes contains every prime. -/
theorem Cube.IsPrimeOf.mem_of_unate (hf : ∀ i ∈ f.occurrences, i < 64) (hunate : f.Unate)
    (hcover : ∀ point, Cover.holdsAt cubes point = f.holds (Bits.has point))
    (hprime : ∀ d ∈ cubes, d.IsPrimeOf fun point => f.holds (Bits.has point))
    (hc : c.IsPrimeOf fun point => f.holds (Bits.has point)) : c ∈ cubes := by
  have hholds : Cover.holdsAt cubes (c.place f.opposite) = true := by
    rw [hcover]
    exact hc.inside _ (c.agrees_place f.opposite)
  obtain ⟨d, hd, hagrees⟩ := Cover.holdsAt_iff.1 hholds
  suffices d = c by rwa [← this]
  refine hc.eq_of_literals_subset (hprime d hd) fun l hl => ?_
  have hsigned := (hprime d hd).mem_signed hf hl
  have hlt := hf l.1 (Formula.mem_occurrences_of_mem_signed hsigned)
  have hbit := Cube.agrees_iff_literals.1 hagrees l hl
  rw [Cube.has_place] at hbit
  -- a variable outside the prime has the opposite value there
  split at hbit
  next hcare => exact Cube.mem_literals.2 ⟨hlt, hcare, hbit⟩
  next =>
    rw [hunate.has_opposite hsigned hlt] at hbit
    simp at hbit

/-- A unate formula has one irredundant sum of primes, up to the order of the cubes. -/
theorem IsPrimeSumOf.perm_of_unate {n : Nat} {ds : List Cube} (hf : ∀ i ∈ f.occurrences, i < 64)
    (hunate : f.Unate) (hcs : IsPrimeSumOf n f cubes) (hds : IsPrimeSumOf n f ds) :
    cubes.Perm ds := by
  refine (List.perm_ext_iff_of_nodup hcs.irredundant.nodup hds.irredundant.nodup).2 fun c => ?_
  constructor
  · intro hc
    exact (hcs.prime c hc).mem_of_unate hf hunate hds.value hds.prime
  · intro hc
    exact (hds.prime c hc).mem_of_unate hf hunate hcs.value hcs.prime

end Unate

/-! ## The order of terms -/

namespace Cube

theorem literalKey_injective {l m : Nat × Bool} (h : literalKey l = literalKey m) : l = m := by
  obtain ⟨i, p⟩ := l
  obtain ⟨j, q⟩ := m
  cases p <;> cases q <;> simp [literalKey] at h ⊢ <;> omega

/-- Canonical cubes have different places among the terms of a sum. -/
theorem Canonical.eq_of_termKey {c d : Cube} (hc : c.Canonical) (hd : d.Canonical)
    (h : c.termKey = d.termKey) : c = d := by
  have hliterals : c.literals = d.literals :=
    (List.map_inj_right fun _ _ => literalKey_injective).1 (Prod.mk.inj h).2
  exact hc.eq_of_literals hd fun l => by rw [hliterals]

theorem termLe_iff {a b : (Nat × List Nat) × Cube} :
    termLe a b = true ↔ a.1.1 < b.1.1 ∨ (a.1.1 = b.1.1 ∧ ¬b.1.2 < a.1.2) := by
  simp only [termLe, Bool.or_eq_true, decide_eq_true_eq, Bool.and_eq_true, beq_iff_eq,
    Bool.not_eq_true', decide_eq_false_iff_not]

theorem termLe_trans (a b e : (Nat × List Nat) × Cube) (hab : termLe a b = true)
    (hbe : termLe b e = true) : termLe a e = true := by
  rw [termLe_iff] at hab hbe ⊢
  rcases hab with hab | ⟨hab, hlists⟩
  · exact .inl (by omega)
  · rcases hbe with hbe | ⟨hbe, hmore⟩
    · exact .inl (by omega)
    · refine .inr ⟨hab.trans hbe, List.not_lt.2 ?_⟩
      exact List.le_trans (List.not_lt.1 hlists) (List.not_lt.1 hmore)

theorem termLe_total (a b : (Nat × List Nat) × Cube) : (termLe a b || termLe b a) = true := by
  rw [Bool.or_eq_true, termLe_iff, termLe_iff]
  rcases Nat.lt_trichotomy a.1.1 b.1.1 with hlt | heq | hgt
  · exact .inl (.inl hlt)
  · exact (List.le_total a.1.2 b.1.2).imp (fun h => .inr ⟨heq, List.not_lt.2 h⟩)
      fun h => .inr ⟨heq.symm, List.not_lt.2 h⟩
  · exact .inr (.inl hgt)

theorem termLe_antisymm {a b : (Nat × List Nat) × Cube} (hab : termLe a b = true)
    (hba : termLe b a = true) : a.1 = b.1 := by
  rw [termLe_iff] at hab hba
  have hsize : a.1.1 = b.1.1 := by omega
  have hle : ¬b.1.2 < a.1.2 := (hab.resolve_left (by omega)).2
  have hge : ¬a.1.2 < b.1.2 := (hba.resolve_left (by omega)).2
  exact Prod.ext hsize (List.le_antisymm (List.not_lt.1 hle) (List.not_lt.1 hge))

theorem pairwise_mergeSort (terms : List ((Nat × List Nat) × Cube)) :
    (terms.mergeSort termLe).Pairwise fun a b => termLe a b = true :=
  List.pairwise_mergeSort termLe_trans termLe_total terms

end Cube

/-- The formula of a sum does not depend on the order of its cubes. -/
theorem sumFormula_eq_of_perm {cs ds : List Cube} (hcanonical : ∀ c ∈ cs, c.Canonical)
    (h : cs.Perm ds) : sumFormula cs = sumFormula ds := by
  have hsorted : (cs.map fun c => (c.termKey, c)).mergeSort Cube.termLe =
      (ds.map fun c => (c.termKey, c)).mergeSort Cube.termLe := by
    have hperm := ((List.mergeSort_perm (cs.map fun c => (c.termKey, c)) Cube.termLe).trans
      (h.map _)).trans (List.mergeSort_perm (ds.map fun c => (c.termKey, c)) Cube.termLe).symm
    refine hperm.eq_of_pairwise ?_ (Cube.pairwise_mergeSort _) (Cube.pairwise_mergeSort _)
    intro a b ha hb hab hba
    obtain ⟨c, hc, rfl⟩ := List.mem_map.1 (List.mem_mergeSort.1 ha)
    obtain ⟨d, hd, rfl⟩ := List.mem_map.1 (List.mem_mergeSort.1 hb)
    rw [(hcanonical c hc).eq_of_termKey (hcanonical d (h.mem_iff.2 hd))
      (Cube.termLe_antisymm hab hba)]
  rw [sumFormula, sumFormula, sumTerms, sumTerms, hsorted]

/-! ## The answer -/

namespace Formula

variable {f : Formula String}

theorem Unate.indexed (h : f.Unate) : (f.indexed f.vars).Unate := by
  refine h.map fun x hx y hy hxy => ?_
  rw [← getD_idxOf_vars hx, hxy, getD_idxOf_vars hy]

/-- Whatever the limits, a unate formula that is not skipped has the same answer. -/
theorem minimized_eq_of_unate {limits limits' : Limits} (hf : Printable f) (hunate : f.Unate)
    (h : f.minimized limits ≠ .skipped) (h' : f.minimized limits' ≠ .skipped) :
    f.minimized limits = f.minimized limits' := by
  have hsettles := settles_minimized hf h
  have hsettles' := settles_minimized hf h'
  by_cases halways : ∀ truth, f.holds truth = true
  · rw [hsettles.always_iff.2 halways, hsettles'.always_iff.2 halways]
  by_cases hnever : ∀ truth, f.holds truth = false
  · rw [hsettles.never_iff.2 hnever, hsettles'.never_iff.2 hnever]
  obtain ⟨out, -, hout, -⟩ := hsettles.formula (mt hsettles.always_iff.1 halways)
    (mt hsettles.never_iff.1 hnever)
  obtain ⟨out', -, hout', -⟩ := hsettles'.formula (mt hsettles'.always_iff.1 halways)
    (mt hsettles'.never_iff.1 hnever)
  obtain ⟨cs, hcs, rfl⟩ := exists_sum_of_minimized hout
  obtain ⟨ds, hds, rfl⟩ := exists_sum_of_minimized hout'
  obtain ⟨hvars, hsum⟩ := isPrimeSumOf_twoLevel hcs
  obtain ⟨-, hsum'⟩ := isPrimeSumOf_twoLevel hds
  have hbelow : ∀ i ∈ (f.indexed f.vars).occurrences, i < 64 := fun i hi =>
    Nat.lt_of_lt_of_le (lt_of_mem_occurrences_indexed hi) hvars
  rw [hout, hout', sumFormula_eq_of_perm (fun c hc => (hsum.prime c hc).canonical)
    (hsum.perm_of_unate hbelow hunate.indexed hsum')]

/-- The answer for a unate formula reads as any irredundant sum of its primes. -/
theorem parse_minimized_of_unate {limits : Limits} (hf : Printable f) (hunate : f.Unate)
    {ds : List Cube} (hds : IsPrimeSumOf f.vars.length (f.indexed f.vars) ds) {out : String}
    (h : f.minimized limits = .formula out) : parse out = .ok ((sumFormula ds).named f.vars) := by
  obtain ⟨cs, hcs, rfl⟩ := exists_sum_of_minimized h
  obtain ⟨hvars, hsum⟩ := isPrimeSumOf_twoLevel hcs
  have hbelow : ∀ i ∈ (f.indexed f.vars).occurrences, i < 64 := fun i hi =>
    Nat.lt_of_lt_of_le (lt_of_mem_occurrences_indexed hi) hvars
  have hnames : ∀ x ∈ f.vars, isName x = true := fun x hx =>
    isName_of_mem_occurrences f hf (mem_vars.1 hx)
  rw [sumFormula_eq_of_perm (fun c hc => (hsum.prime c hc).canonical)
    (hsum.perm_of_unate hbelow hunate.indexed hds)]
  exact parse_text (printable_named_sumFormula hnames hds.toIsSumOf)

/-- With room for enough cubes a formula over at most 64 variables is not skipped. -/
theorem exists_minimized_ne_skipped (hvars : f.vars.length ≤ Limits.mostVariables) :
    ∃ least, ∀ limits : Limits, least ≤ limits.cubes → f.minimized limits ≠ .skipped := by
  obtain ⟨onset, least, honset⟩ := Heuristic.eventually_cubes true (f.indexed f.vars)
  refine ⟨least, fun limits h => ?_⟩
  have hcubes : Heuristic.cubes .ok limits.cubes true (f.indexed f.vars) = .ok onset := honset _ h
  obtain ⟨form, hform⟩ : ∃ form, f.twoLevel limits = .ok form := by
    rw [twoLevel_eq, if_neg (Nat.not_lt.2 hvars)]
    split
    · exact ⟨_, rfl⟩
    · rw [Heuristic.minimize, hcubes]
      exact ⟨_, rfl⟩
  exact minimized_ne_skipped_of_twoLevel hform

/-- A unate formula in which one term absorbs another and a negation stands outside a sum. -/
def absorbing : Formula String :=
  .or [.and [.var "a", .not (.var "b")], .and [.not (.var "b"), .var "c", .var "a"],
    .not (.or [.var "b", .var "d"])]

theorem parse_absorbing :
    parse "Or(And(a, Not(b)), And(Not(b), c, a), Not(Or(b, d)))" = .ok absorbing := by
  have hprintable : Printable absorbing := by
    simp only [absorbing, Printable, AllPrintable, List.length_cons, List.length_nil]
    decide
  have htext : absorbing.text = "Or(And(a, Not(b)), And(Not(b), c, a), Not(Or(b, d)))" := rfl
  rw [← htext]
  exact parse_text hprintable

end Formula

namespace Minimizer

/-- On a unate formula of at most 20 variables heuristic minimization answers what exact
minimization does, unless the formula is skipped for having too many cubes, and with room
for enough cubes it is not skipped. -/
theorem native_minimize_of_unate {text : String} {f : Formula String}
    (hparse : Formula.parse text = .ok f) (hvars : f.vars.length ≤ 20) (hunate : f.Unate) :
    (∀ cubes others, (native ⟨0, cubes⟩).minimize text ≠ .ok .skipped →
      ∃ answer, (native ⟨0, cubes⟩).minimize text = .ok answer ∧
        (native ⟨20, others⟩).minimize text = .ok answer) ∧
    ∃ least, ∀ cubes, least ≤ cubes → (native ⟨0, cubes⟩).minimize text ≠ .ok .skipped := by
  simp only [native_of_parse _ hparse]
  constructor
  · intro cubes others hanswer
    refine ⟨_, rfl, congrArg Except.ok ?_⟩
    refine Formula.minimized_eq_of_unate (Formula.printable_of_parse hparse) hunate ?_
      fun hskipped => hanswer (congrArg Except.ok hskipped)
    exact Formula.minimized_ne_skipped hvars (Nat.le_trans hvars (by decide))
  · obtain ⟨least, hleast⟩ :=
      Formula.exists_minimized_ne_skipped (Nat.le_trans hvars (by decide))
    refine ⟨least, fun cubes hcubes hskipped => ?_⟩
    refine hleast (Limits.clamped ⟨0, cubes⟩) ?_ (Except.ok.inj hskipped)
    exact Nat.le_trans hcubes (Nat.le_max_left cubes 1)

theorem native_minimize_of_unate_absorbing :
    Formula.absorbing.vars.length ≤ 20 ∧ Formula.absorbing.Unate ∧ ∃ cubes answer,
      answer ≠ .skipped ∧
      (native ⟨0, cubes⟩).minimize "Or(And(a, Not(b)), And(Not(b), c, a), Not(Or(b, d)))" =
        .ok answer ∧
      (native ⟨20, 1⟩).minimize "Or(And(a, Not(b)), And(Not(b), c, a), Not(Or(b, d)))" =
        .ok answer := by
  have hvars : Formula.absorbing.vars.length ≤ 20 := by decide
  have hunate : Formula.absorbing.Unate := by decide
  obtain ⟨hsame, least, hleast⟩ :=
    native_minimize_of_unate Formula.parse_absorbing hvars hunate
  obtain ⟨answer, hheuristic, hexact⟩ := hsame least 1 (hleast least (Nat.le_refl least))
  refine ⟨hvars, hunate, least, answer, ?_, hheuristic, hexact⟩
  rintro rfl
  exact hleast least (Nat.le_refl least) hheuristic

end Minimizer

end StreamFilter
