import StreamFilter.Proofs.Cube.Order
import StreamFilter.Proofs.Minimize.Native
import StreamFilter.Proofs.Minimize.PrimeSum
set_option autoImplicit false

/-!
# Minimized formulas are irredundant prime covers

`Formula.IsPrimeCover f terms` is the two-level normal form of a formula over names:
products of literals that imply the formula and have it as their sum, where neither a
literal nor a product can be dropped.  What is known of the cubes of a minimized sum
(`IsPrimeSumOf`) is carried over to the names of their variables, so the text of every
minimized formula reads as such a sum (`exists_isPrimeCover`).
-/

namespace StreamFilter

/-- The cubes of a sum in the order of its terms. -/
def sumCubes (cubes : List Cube) : List Cube :=
  ((cubes.map fun c => (c.termKey, c)).mergeSort Cube.termLe).map Prod.snd

theorem perm_sumCubes (cubes : List Cube) : (sumCubes cubes).Perm cubes := by
  have hsort := (List.mergeSort_perm (cubes.map fun c => (c.termKey, c)) Cube.termLe).map Prod.snd
  simpa [Function.comp_def, sumCubes] using hsort

namespace Formula

variable {α : Type}

/-! ## Sums of products over any variables -/

/-- A variable or its negation. -/
def literal : α × Bool → Formula α
  | (x, true) => .var x
  | (x, false) => .not (.var x)

/-- The product of some literals; one literal stands alone. -/
def product (literals : List (α × Bool)) : Formula α := unlessSingle .and (literals.map literal)

/-- The sum of some products; one product stands alone. -/
def sumOfProducts (terms : List (List (α × Bool))) : Formula α :=
  unlessSingle .or (terms.map product)

theorem holds_literal (truth : α → Bool) (l : α × Bool) :
    (literal l).holds truth = (truth l.1 == l.2) := by
  obtain ⟨x, positive⟩ := l
  cases positive <;> simp [literal, holds]

theorem holds_product {truth : α → Bool} {ls : List (α × Bool)} :
    (product ls).holds truth = true ↔ ∀ l ∈ ls, truth l.1 = l.2 := by
  rw [product, holds_unlessSingle_and, List.all_map, List.all_eq_true]
  simp only [Function.comp_def, holds_literal, beq_iff_eq]

theorem holds_sumOfProducts {truth : α → Bool} {terms : List (List (α × Bool))} :
    (sumOfProducts terms).holds truth = true ↔ ∃ t ∈ terms, (product t).holds truth = true := by
  rw [sumOfProducts, holds_unlessSingle_or, List.any_map, List.any_eq_true]
  rfl

theorem occurrences_product (ls : List (α × Bool)) :
    (product ls).occurrences = ls.map Prod.fst := by
  have hliteral : ∀ l : α × Bool, (literal l).occurrences = [l.1] := by
    rintro ⟨x, positive⟩
    cases positive <;> rfl
  rw [product, occurrences_unlessSingle fun fs => by rw [occurrences]]
  simp [List.flatMap_map, hliteral, ← List.map_eq_flatMap]

theorem occurrences_sumOfProducts (terms : List (List (α × Bool))) :
    (sumOfProducts terms).occurrences = terms.flatMap (·.map Prod.fst) := by
  rw [sumOfProducts, occurrences_unlessSingle fun fs => by rw [occurrences], List.flatMap_map]
  simp only [occurrences_product]

/-- In a product over distinct variables no other literal has the variable of one. -/
theorem fst_ne_of_nodup {before after : List (α × Bool)} {l : α × Bool}
    (h : ((before ++ l :: after).map Prod.fst).Nodup) : ∀ m ∈ before ++ after, m.1 ≠ l.1 := by
  have hperm : (before ++ l :: after).Perm (l :: (before ++ after)) := List.perm_middle
  have hnodup := (hperm.map Prod.fst).nodup h
  rw [List.map_cons, List.nodup_cons] at hnodup
  intro m hm heq
  exact hnodup.1 (List.mem_map.2 ⟨m, hm, heq⟩)

/-- Products of literals over distinct variables whose sum is a form of a formula, with
no literal and no product to spare. -/
structure IsPrimeCover (f : Formula α) (terms : List (List (α × Bool))) : Prop where
  /-- There is a term. -/
  nonempty : terms ≠ []
  /-- Each term has a literal. -/
  proper : ∀ t ∈ terms, t ≠ []
  /-- The variables of a term are distinct. -/
  distinct : ∀ t ∈ terms, (t.map Prod.fst).Nodup
  /-- Each term implies the formula. -/
  implies : ∀ t ∈ terms, ∀ truth, (product t).holds truth = true → f.holds truth = true
  /-- The sum of the terms is the formula. -/
  covers : ∀ truth, (sumOfProducts terms).holds truth = f.holds truth
  /-- A term without one of its literals no longer implies the formula. -/
  prime : ∀ t ∈ terms, ∀ before l after, t = before ++ l :: after →
    ∃ truth, (product (before ++ after)).holds truth = true ∧ f.holds truth = false
  /-- The sum without one of its terms is no longer the formula. -/
  irredundant : ∀ before t after, terms = before ++ t :: after →
    ∃ truth, (sumOfProducts (before ++ after)).holds truth ≠ f.holds truth

/-! ## Points and names -/

variable {names : List String} {i : Nat}

theorem idxOf_getD (hnames : names.Nodup) (hi : i < names.length) :
    names.idxOf (names.getD i "") = i := by
  rw [List.getD_eq_getElem?_getD, List.getElem?_eq_getElem hi, Option.getD_some,
    hnames.idxOf_getElem]

/-- A literal of a position as a literal of the name at it. -/
def namedLiteral (names : List String) (l : Nat × Bool) : String × Bool := (names.getD l.1 "", l.2)

/-- The literals of a cube over names. -/
def namedTerm (names : List String) (c : Cube) : List (String × Bool) :=
  c.literals.map (namedLiteral names)

theorem holds_namedTerm {c : Cube} {truth : String → Bool} :
    (product (namedTerm names c)).holds truth = c.agrees (pointOf names truth) := by
  rw [Bool.eq_iff_iff, holds_product, Cube.agrees_iff_literals, namedTerm, List.forall_mem_map]
  refine forall_congr' fun l => forall_congr' fun hl => ?_
  rw [has_pointOf (Cube.mem_literals.1 hl).1]
  rfl

theorem named_toFormula_eq (names : List String) (c : Cube) :
    c.toFormula.named names = product (namedTerm names c) := by
  have hliteral : ∀ l, (Cube.literalFormula l).named names = literal (namedLiteral names l) := by
    rintro ⟨i, positive⟩
    cases positive <;> rfl
  rw [named_toFormula, product, namedTerm, List.map_map, List.map_map]
  congr 1
  exact List.map_congr_left fun l _ => hliteral l

theorem named_sumFormula_eq (names : List String) (cubes : List Cube) :
    (sumFormula cubes).named names = sumOfProducts ((sumCubes cubes).map (namedTerm names)) := by
  rw [named_sumFormula, sumOfProducts, sumTerms, sumCubes, List.map_map, List.map_map, List.map_map]
  congr 1
  exact List.map_congr_left fun t _ => named_toFormula_eq names t.2

theorem nodup_map_fst_namedTerm (hnames : names.Nodup) {c : Cube} (hc : c.Within names.length) :
    ((namedTerm names c).map Prod.fst).Nodup := by
  have hfst : (namedTerm names c).map Prod.fst =
      (Bits.positions c.care).map fun i => names.getD i "" := by
    rw [← Cube.map_fst_literals, namedTerm, List.map_map, List.map_map]
    rfl
  have hbelow : ∀ i ∈ Bits.positions c.care, i < names.length := fun i hi =>
    hc i (Bits.mem_positions.1 hi).1 (Bits.mem_positions.1 hi).2
  rw [hfst]
  apply List.pairwise_map.2
  refine (Bits.nodup_positions c.care).imp_of_mem fun {i j} hi hj hne heq => hne ?_
  rw [← idxOf_getD hnames (hbelow i hi), heq, idxOf_getD hnames (hbelow j hj)]

/-- Of a point, literals over the names see the bits at their positions. -/
theorem holds_map_namedLiteral (hnames : names.Nodup) {ls : List (Nat × Bool)}
    (hbelow : ∀ l ∈ ls, l.1 < names.length) (point : UInt64) :
    (product (ls.map (namedLiteral names))).holds (fun x => Bits.has point (names.idxOf x)) = true ↔
      ∀ l ∈ ls, Bits.has point l.1 = l.2 := by
  rw [holds_product, List.forall_mem_map]
  refine forall_congr' fun l => forall_congr' fun hl => ?_
  rw [namedLiteral, idxOf_getD hnames (hbelow l hl)]

/-! ## Carrying over -/

variable {f : Formula String} {cubes : List Cube}

/-- The point outside the formula that a prime reaches when a literal is dropped is an
assignment of the names where the rest of the named term holds. -/
theorem exists_prime_namedTerm {c : Cube} (hc : c.Within f.vars.length)
    (hprime : c.IsPrimeOf fun point => (f.indexed f.vars).holds (Bits.has point))
    {before after : List (String × Bool)} {l : String × Bool}
    (h : namedTerm f.vars c = before ++ l :: after) :
    ∃ truth, (product (before ++ after)).holds truth = true ∧ f.holds truth = false := by
  obtain ⟨ls, rest, hliterals, rfl, hrest⟩ := List.map_eq_append_iff.1 h
  obtain ⟨⟨i, positive⟩, ms, rfl, rfl, rfl⟩ := List.map_eq_cons_iff.1 hrest
  have hmem : ∀ m ∈ ls ++ ms, m ∈ c.literals := fun m hm => by
    rw [hliterals]
    rcases List.mem_append.1 hm with hm | hm
    · exact List.mem_append_left _ hm
    · exact List.mem_append_right _ (List.mem_cons_of_mem _ hm)
  have hself : (i, positive) ∈ c.literals := by
    rw [hliterals]
    exact List.mem_append_right _ List.mem_cons_self
  -- the literal that is dropped was the only one of its variable
  have hother : ∀ m ∈ ls ++ ms, m.1 ≠ i := by
    refine fst_ne_of_nodup (l := (i, positive)) ?_
    rw [← hliterals, Cube.map_fst_literals]
    exact Bits.nodup_positions c.care
  obtain ⟨hi, hcare, -⟩ := Cube.mem_literals.1 hself
  obtain ⟨point, hagrees, hfails⟩ := hprime.tight i hi hcare
  refine ⟨fun x => Bits.has point (f.vars.idxOf x), ?_, by rw [← holds_indexed_point]; exact hfails⟩
  rw [← List.map_append, holds_map_namedLiteral (nodup_vars f)]
  · rintro ⟨j, q⟩ hm
    obtain ⟨hj, hcarej, rfl⟩ := Cube.mem_literals.1 (hmem _ hm)
    refine Cube.agrees_without.1 hagrees j hj hcarej ?_
    rw [Bits.has_single hj hi]
    exact decide_eq_false (hother _ hm)
  · rintro ⟨j, q⟩ hm
    obtain ⟨hj, hcarej, -⟩ := Cube.mem_literals.1 (hmem _ hm)
    exact hc j hj hcarej

/-- The point that a cube has for itself is one where the sum without it fails. -/
theorem exists_irredundant_namedTerms
    (h : IsPrimeSumOf f.vars.length (f.indexed f.vars) cubes)
    {before after : List (List (String × Bool))} {t : List (String × Bool)}
    (hterms : (sumCubes cubes).map (namedTerm f.vars) = before ++ t :: after) :
    ∃ truth, (sumOfProducts (before ++ after)).holds truth ≠ f.holds truth := by
  obtain ⟨cs, rest, hsplit, rfl, hrest⟩ := List.map_eq_append_iff.1 hterms
  obtain ⟨c, ds, rfl, rfl, rfl⟩ := List.map_eq_cons_iff.1 hrest
  have hperm : (c :: (cs ++ ds)).Perm cubes := by
    refine List.perm_middle.symm.trans ?_
    rw [← hsplit]
    exact perm_sumCubes cubes
  have hnodup := (h.irredundant.perm hperm.symm).nodup
  have hc : c ∈ cubes := hperm.mem_iff.1 List.mem_cons_self
  obtain ⟨point, hagrees, hothers⟩ := h.irredundant.alone c hc
  have hrestrict : ∀ d ∈ cubes,
      d.agrees (pointOf f.vars fun x => Bits.has point (f.vars.idxOf x)) = d.agrees point := by
    intro d hd
    refine (h.within d hd).agrees_congr fun i hi hlt => ?_
    rw [has_pointOf hi, idxOf_getD (nodup_vars f) hlt]
  refine ⟨fun x => Bits.has point (f.vars.idxOf x), ?_⟩
  have hholds : f.holds (fun x => Bits.has point (f.vars.idxOf x)) = true := by
    rw [← holds_indexed_point]
    exact (h.prime c hc).inside point hagrees
  rw [hholds, ← List.map_append]
  intro hsum
  obtain ⟨t, ht, hproduct⟩ := holds_sumOfProducts.1 hsum
  obtain ⟨d, hd, rfl⟩ := List.mem_map.1 ht
  have hdmem : d ∈ cubes := hperm.mem_iff.1 (List.mem_cons_of_mem c hd)
  have hne : d ≠ c := fun heq => (List.nodup_cons.1 hnodup).1 (heq ▸ hd)
  rw [holds_namedTerm, hrestrict d hdmem, hothers d (by simpa using hdmem) hne] at hproduct
  cases hproduct

/-- The named terms of an irredundant sum of primes are an irredundant prime cover. -/
theorem isPrimeCover_namedTerms (hvars : f.vars.length ≤ 64)
    (h : IsPrimeSumOf f.vars.length (f.indexed f.vars) cubes) :
    f.IsPrimeCover ((sumCubes cubes).map (namedTerm f.vars)) := by
  have hmem : ∀ {t}, t ∈ (sumCubes cubes).map (namedTerm f.vars) →
      ∃ c ∈ cubes, namedTerm f.vars c = t := by
    intro t ht
    obtain ⟨c, hc, rfl⟩ := List.mem_map.1 ht
    exact ⟨c, (perm_sumCubes cubes).mem_iff.1 hc, rfl⟩
  constructor
  case nonempty =>
    rw [Ne, List.map_eq_nil_iff]
    intro hnil
    have hperm := perm_sumCubes cubes
    rw [hnil] at hperm
    exact h.nonempty hperm.nil_eq.symm
  case proper =>
    intro t ht hnil
    obtain ⟨c, hc, rfl⟩ := hmem ht
    exact Cube.literals_ne_nil (h.proper c hc) (List.map_eq_nil_iff.1 hnil)
  case distinct =>
    intro t ht
    obtain ⟨c, hc, rfl⟩ := hmem ht
    exact nodup_map_fst_namedTerm (nodup_vars f) (h.within c hc)
  case implies =>
    intro t ht truth hholds
    obtain ⟨c, hc, rfl⟩ := hmem ht
    rw [holds_namedTerm] at hholds
    rw [← holds_indexed hvars]
    exact (h.prime c hc).inside _ hholds
  case covers =>
    intro truth
    rw [← named_sumFormula_eq]
    exact holds_named_sumFormula hvars h.toIsSumOf truth
  case prime =>
    intro t ht before l after hsplit
    obtain ⟨c, hc, rfl⟩ := hmem ht
    exact exists_prime_namedTerm (h.within c hc) (h.prime c hc) hsplit
  case irredundant =>
    intro before t after hsplit
    exact exists_irredundant_namedTerms h hsplit

/-! ## The answer -/

variable {limits : Limits}

/-- On both ways the sum of cubes is an irredundant sum of primes. -/
theorem isPrimeSumOf_twoLevel (h : f.twoLevel limits = .ok (.sum cubes)) :
    f.vars.length ≤ 64 ∧ IsPrimeSumOf f.vars.length (f.indexed f.vars) cubes := by
  obtain ⟨hvars, hform | hform⟩ := twoLevel_cases h
  · exact ⟨hvars,
      Exact.isPrimeSumOf_minimize hvars (fun i hi => lt_of_mem_occurrences_indexed hi) hform⟩
  · exact ⟨hvars,
      Heuristic.isPrimeSumOf_minimize hvars (fun i hi => lt_of_mem_occurrences_indexed hi) hform⟩

/-- A formula as the answer is the text of a sum. -/
theorem exists_sum_of_minimized {out : String} (h : f.minimized limits = .formula out) :
    ∃ cubes, f.twoLevel limits = .ok (.sum cubes) ∧
      ((sumFormula cubes).named f.vars).text = out := by
  unfold minimized at h
  cases hform : f.twoLevel limits with
  | error stop => simp [hform] at h
  | ok form =>
    cases form with
    | never | always => simp [hform] at h
    | sum cubes =>
      rw [hform] at h
      exact ⟨cubes, rfl, Minimized.formula.inj h⟩

theorem exists_isPrimeCover (hf : Printable f) {out : String}
    (h : f.minimized limits = .formula out) :
    ∃ terms, parse out = .ok (sumOfProducts terms) ∧ f.IsPrimeCover terms := by
  obtain ⟨cubes, hform, rfl⟩ := exists_sum_of_minimized h
  obtain ⟨hvars, hsum⟩ := isPrimeSumOf_twoLevel hform
  have hnames : ∀ x ∈ f.vars, isName x = true := fun x hx =>
    isName_of_mem_occurrences f hf (mem_vars.1 hx)
  refine ⟨(sumCubes cubes).map (namedTerm f.vars), ?_, isPrimeCover_namedTerms hvars hsum⟩
  rw [← named_sumFormula_eq]
  exact parse_text (printable_named_sumFormula hnames hsum.toIsSumOf)

/-- A formula that is no constant is answered with a formula. -/
theorem exists_minimized_eq_formula (hf : Printable f) (h : f.minimized limits ≠ .skipped)
    {t u : String → Bool} (ht : f.holds t = true) (hu : f.holds u = false) :
    ∃ out, f.minimized limits = .formula out := by
  have hsettles := settles_minimized hf h
  have halways : f.minimized limits ≠ .always := by
    intro hall
    rw [hsettles.always_iff.1 hall u] at hu
    cases hu
  have hnever : f.minimized limits ≠ .never := by
    intro hnone
    rw [hsettles.never_iff.1 hnone t] at ht
    cases ht
  obtain ⟨out, -, hout, -⟩ := hsettles.formula halways hnever
  exact ⟨out, hout⟩

/-- The formula that three variables are not all equal.  None of its primes is essential. -/
def unequal : Formula String :=
  .or [.and [.var "a", .not (.var "b")], .and [.var "b", .not (.var "c")],
    .and [.var "c", .not (.var "a")]]

theorem parse_unequal :
    parse "Or(And(a, Not(b)), And(b, Not(c)), And(c, Not(a)))" = .ok unequal := by
  have hprintable : Printable unequal := by
    simp only [unequal, Printable, AllPrintable, List.length_cons, List.length_nil]
    decide
  have htext : unequal.text = "Or(And(a, Not(b)), And(b, Not(c)), And(c, Not(a)))" := rfl
  rw [← htext]
  exact parse_text hprintable

theorem exists_minimized_unequal :
    ∃ out, unequal.minimized (Limits.clamped {}) = .formula out :=
  exists_minimized_eq_formula (printable_of_parse parse_unequal)
    (minimized_ne_skipped (by decide) (by decide)) (t := (· == "a")) (u := fun _ => true)
    (by decide) (by decide)

end Formula

namespace Minimizer

/-- A text with which the built-in minimizer answers reads as a sum of products that is an
irredundant prime cover of the formula it was asked for. -/
theorem native_formula_isPrimeCover (limits : Limits) {text out : String}
    (h : (native limits).minimize text = .ok (.formula out)) :
    ∃ f terms, Formula.parse text = .ok f ∧
      Formula.parse out = .ok (Formula.sumOfProducts terms) ∧ f.IsPrimeCover terms := by
  cases hparse : Formula.parse text with
  | error e => simp [native, hparse, bind, Except.bind] at h
  | ok f =>
    rw [native_of_parse limits hparse] at h
    obtain ⟨terms, hout, hcover⟩ :=
      Formula.exists_isPrimeCover (Formula.printable_of_parse hparse) (Except.ok.inj h)
    exact ⟨f, terms, rfl, hout, hcover⟩

theorem native_formula_isPrimeCover_unequal :
    ∃ out, (native {}).minimize "Or(And(a, Not(b)), And(b, Not(c)), And(c, Not(a)))" =
        .ok (.formula out) ∧
      ∃ f terms, Formula.parse "Or(And(a, Not(b)), And(b, Not(c)), And(c, Not(a)))" = .ok f ∧
        Formula.parse out = .ok (Formula.sumOfProducts terms) ∧ f.IsPrimeCover terms := by
  obtain ⟨out, hout⟩ := Formula.exists_minimized_unequal
  have hanswer : (native {}).minimize "Or(And(a, Not(b)), And(b, Not(c)), And(c, Not(a)))" =
      .ok (.formula out) := by
    rw [native_of_parse {} Formula.parse_unequal, hout]
  exact ⟨out, hanswer, native_formula_isPrimeCover {} hanswer⟩

end Minimizer

end StreamFilter
