import StreamFilter.Document.Render
import StreamFilter.Proofs.Ascending
import StreamFilter.Proofs.Fault
import StreamFilter.Proofs.Filter.Writing
import StreamFilter.Settings.Basic
set_option autoImplicit false

/-!
# The filters of a batch

The text of a batch is made of the texts that its filters have alone (`batchText_cons`).  So
filters that cannot be optimized only lack a line, but one whose result cannot be written
leaves the whole batch without text (`Settings.render_batch_iff`).
-/

namespace StreamFilter

namespace Document

variable {filters : List (String × Filter)} {name : String} {f : Filter}

theorem mem_byName : (name, f) ∈ byName filters ↔ last? name filters = some f := by
  constructor
  · intro h
    obtain ⟨other, -, h⟩ := List.mem_filterMap.1 h
    obtain ⟨g, hg, hpair⟩ := Option.map_eq_some_iff.1 h
    obtain ⟨rfl, rfl⟩ := Prod.mk.inj hpair
    exact hg
  · intro h
    refine List.mem_filterMap.2 ⟨name, ?_, by rw [h]; rfl⟩
    obtain ⟨e, he, -⟩ := Option.map_eq_some_iff.1 h
    have hname : e.1 = name := by simpa using List.find?_some he
    have hmem : e ∈ filters := List.mem_reverse.1 (List.mem_of_find?_eq_some he)
    exact mem_ascending.2 (List.mem_map.2 ⟨e, hmem, hname⟩)

/-- The filters of a batch stand in the order of their names. -/
theorem pairwise_byName (filters : List (String × Filter)) :
    (byName filters).Pairwise (·.1 < ·.1) := by
  refine (pairwise_ascendingTexts (filters.map (·.1))).filterMap _ fun s t hst b hb c hc => ?_
  obtain ⟨_, -, rfl⟩ := Option.map_eq_some_iff.1 hb
  obtain ⟨_, -, rfl⟩ := Option.map_eq_some_iff.1 hc
  exact hst

end Document

/-! ## The text of a batch -/

namespace Optimizer

/-- The lines of filter text for a batch. -/
def batchText (o : Optimizer) (filters : List (String × Filter)) : Except RenderFault String :=
  Document.render .csdl o.vocabulary (o.outcomes (.batch filters))

variable {o : Optimizer} {e : String × Filter} {es : List (String × Filter)}

theorem batchText_cons_of_fault {fault : Fault} (h : o.improve e.2 = .error fault) :
    o.batchText (e :: es) = o.batchText es := by
  have hnone : Outcome.success? ⟨some e.1, o.improve e.2⟩ = none := by rw [h]; rfl
  rw [batchText, Document.render, outcomes, Document.entries, List.map_cons, List.map_cons,
    List.filterMap_cons_none hnone]
  rfl

theorem batchText_cons_of_result {g : Filter} (h : o.improve e.2 = .ok g) :
    o.batchText (e :: es) = (do
      let line ← Document.csdlLine o.vocabulary (some e.1) g
      let lines ← o.batchText es
      return line ++ lines) := by
  have hsome : Outcome.success? ⟨some e.1, o.improve e.2⟩ = some (some e.1, g) := by rw [h]; rfl
  rw [batchText, Document.render, outcomes, Document.entries, List.map_cons, List.map_cons,
    List.filterMap_cons_some hsome]
  rfl

theorem batchText_of_fault {fault : Fault} (h : o.improve e.2 = .error fault) :
    o.batchText [e] = .ok "" :=
  batchText_cons_of_fault h

theorem batchText_of_result {g : Filter} (h : o.improve e.2 = .ok g) :
    o.batchText [e] = Document.csdlLine o.vocabulary (some e.1) g := by
  rw [batchText_cons_of_result h]
  cases Document.csdlLine o.vocabulary (some e.1) g with
  | error fault => rfl
  | ok line => exact congrArg Except.ok String.append_empty

/-- A batch is written filter by filter. -/
theorem batchText_cons (o : Optimizer) (e : String × Filter) (es : List (String × Filter)) :
    o.batchText (e :: es) = (do
      let line ← o.batchText [e]
      let lines ← o.batchText es
      return line ++ lines) := by
  cases h : o.improve e.2 with
  | error fault =>
    rw [batchText_of_fault h, batchText_cons_of_fault h]
    cases o.batchText es with
    | error fault => rfl
    | ok lines => exact congrArg Except.ok String.empty_append.symm
  | ok g => rw [batchText_of_result h, batchText_cons_of_result h]

/-- A filter has a text alone exactly if its result, if it has one, can be written. -/
theorem exists_batchText_singleton_iff : (∃ line, o.batchText [e] = .ok line) ↔
    ∀ g, o.improve e.2 = .ok g → g.Writable o.vocabulary := by
  cases h : o.improve e.2 with
  | error fault => exact iff_of_true ⟨"", batchText_of_fault h⟩ nofun
  | ok g =>
    rw [batchText_of_result h]
    have hline : (∃ line, Document.csdlLine o.vocabulary (some e.1) g = .ok line) ↔
        g.Writable o.vocabulary := by
      unfold Document.csdlLine Filter.Writable
      cases g.csdl o.vocabulary with
      | error fault => exact iff_of_false nofun nofun
      | ok text => exact iff_of_true ⟨_, rfl⟩ ⟨_, rfl⟩
    rw [hline]
    exact ⟨fun hwritable g' hg' => Except.ok.inj hg' ▸ hwritable, fun hall => hall g rfl⟩

theorem exists_batchText_iff : (∃ text, o.batchText es = .ok text) ↔
    ∀ e ∈ es, ∃ line, o.batchText [e] = .ok line := by
  induction es with
  | nil => exact iff_of_true ⟨"", rfl⟩ (by simp)
  | cons e es ih =>
    rw [batchText_cons, List.forall_mem_cons, ← ih]
    refine exists_bind_eq_ok_iff fun line => ?_
    have hrest := exists_bind_eq_ok_iff (x := o.batchText es)
      (g := fun lines => pure (line ++ lines)) fun _ => iff_true_intro ⟨_, rfl⟩
    rw [hrest, and_true]

/-- The line that a filter of a batch has, under its name. -/
def line? (o : Optimizer) (e : String × Filter) : Option (String × String) :=
  match o.batchText [e] with
  | .ok line => if line = "" then none else some (e.1, line)
  | .error _ => none

theorem line?_eq_some {name line : String} : o.line? e = some (name, line) ↔
    e.1 = name ∧ line ≠ "" ∧ o.batchText [e] = .ok line := by
  unfold line?
  cases o.batchText [e] with
  | error fault => simp
  | ok text => grind

theorem batchText_eq_join {text : String} (h : o.batchText es = .ok text) :
    text = String.join ((es.filterMap o.line?).map (·.2)) := by
  induction es generalizing text with
  | nil => exact (Except.ok.inj h).symm
  | cons e es ih =>
    rw [batchText_cons] at h
    obtain ⟨line, hline, h⟩ := exists_of_bind_eq_ok h
    obtain ⟨lines, hlines, h⟩ := exists_of_bind_eq_ok h
    rw [← Except.ok.inj h, ih hlines]
    by_cases hempty : line = ""
    · have hnone : o.line? e = none := by simp [line?, hline, hempty]
      rw [List.filterMap_cons_none hnone, hempty, String.empty_append]
    · have hsome := line?_eq_some.2 ⟨rfl, hempty, hline⟩
      rw [List.filterMap_cons_some hsome, List.map_cons, String.join_cons]

theorem exists_of_batchText_eq_error {fault : RenderFault} (h : o.batchText es = .error fault) :
    ∃ e ∈ es, o.batchText [e] = .error fault := by
  induction es with
  | nil => cases h
  | cons e es ih =>
    rw [batchText_cons] at h
    cases hline : o.batchText [e] with
    | error other =>
      rw [hline] at h
      exact ⟨e, List.mem_cons_self, by rw [hline, ← Except.error.inj h]⟩
    | ok line =>
      cases hlines : o.batchText es with
      | error other =>
        rw [hline, hlines] at h
        obtain ⟨x, hx, hfault⟩ := ih (by rw [hlines, ← Except.error.inj h])
        exact ⟨x, List.mem_cons_of_mem e hx, hfault⟩
      | ok lines =>
        rw [hline, hlines] at h
        cases h

end Optimizer

namespace Settings

open Document (byName)

/-- Settings with the built-in minimizer have an optimizer.  A batch has a text exactly if each
result that one of its filters has can be written.  The text then consists of the lines
that the filters have alone, in the order of their names, and of nothing else; a filter that
has no result has no line.  Otherwise the fault is that of one of the filters alone. -/
theorem render_batch_iff (run : Runner) (s : Settings) (hnative : s.minimizer.kind = .native) :
    ∃ o, s.build run = .ok o ∧ ∀ filters : List (String × Filter),
      ((∃ text, o.batchText (byName filters) = .ok text) ↔
        ∀ e ∈ byName filters, ∀ g, o.improve e.2 = .ok g → g.Writable s.vocabulary) ∧
      (∀ text, o.batchText (byName filters) = .ok text → ∃ lines : List (String × String),
        text = String.join (lines.map (·.2)) ∧ lines.Pairwise (·.1 < ·.1) ∧
        ∀ name line, (name, line) ∈ lines ↔ line ≠ "" ∧
          ∃ f, (name, f) ∈ byName filters ∧ o.batchText [(name, f)] = .ok line) ∧
      ∀ fault, o.batchText (byName filters) = .error fault →
        ∃ e ∈ byName filters, o.batchText [e] = .error fault := by
  refine ⟨⟨s.vocabulary, .native s.minimizer.limits, s.mode⟩, ?_, fun filters => ⟨?_, ?_, ?_⟩⟩
  · rw [build, MinimizerSettings.build, hnative]
    rfl
  · rw [Optimizer.exists_batchText_iff]
    exact forall_congr' fun e => imp_congr_right fun _ => Optimizer.exists_batchText_singleton_iff
  · intro text htext
    refine ⟨_, Optimizer.batchText_eq_join htext, ?_, fun name line => ?_⟩
    · refine (Document.pairwise_byName filters).filterMap _ fun e e' hlt l hl l' hl' => ?_
      rw [← (Optimizer.line?_eq_some.1 hl).1, ← (Optimizer.line?_eq_some.1 hl').1]
      exact hlt
    · rw [List.mem_filterMap]
      constructor
      · rintro ⟨⟨_, f⟩, hmem, hline⟩
        obtain ⟨rfl, hne, htext⟩ := Optimizer.line?_eq_some.1 hline
        exact ⟨hne, f, hmem, htext⟩
      · rintro ⟨hne, f, hmem, htext⟩
        exact ⟨(name, f), hmem, Optimizer.line?_eq_some.2 ⟨rfl, hne, htext⟩⟩
  · intro fault hfault
    exact Optimizer.exists_of_batchText_eq_error hfault

/-- A filter that has a line, and a part of a condition, which is no filter and cannot be
written either. -/
def stray : List (String × Filter) := [("good", .raw "a"), ("bad", .target "bogus.target")]

theorem render_batch_iff_stray : ∃ o, build (fun _ _ => default) { foldOnly := true } = .ok o ∧
    ("good", .raw "a") ∈ byName stray ∧ o.batchText [("good", .raw "a")] = .ok "good: a\n" ∧
      ¬∃ text, o.batchText (byName stray) = .ok text := by
  obtain ⟨o, ho, hbatch⟩ := render_batch_iff (fun _ _ => default) { foldOnly := true } rfl
  refine ⟨o, ho, Document.mem_byName.2 (by decide), ?_, fun htext => ?_⟩
  · have hresult : o.improve (.raw "a") = .ok (.raw "a") := by
      obtain rfl := Except.ok.inj ho
      exact congrArg Except.ok (Filter.fold_raw "a")
    rw [Optimizer.batchText_of_result hresult]
    rfl
  · have hmem : ("bad", .target "bogus.target") ∈ byName stray :=
      Document.mem_byName.2 (by decide)
    have hresult : o.improve (.target "bogus.target") = .ok (.target "bogus.target") := by
      obtain rfl := Except.ok.inj ho
      rfl
    obtain ⟨text, h⟩ := (hbatch stray).1.1 htext _ hmem _ hresult
    cases h

end Settings

end StreamFilter
