import StreamFilter.Proofs.Filter.Admission
import StreamFilter.Proofs.Text.Quoted
set_option autoImplicit false

/-!
# The text of a filter determines the filter

For filters in which nothing is left implicit (`Filter.isLegible`) the text can be read back
in one way only, whatever their arguments are (`Filter.csdl_injective`).  The text is taken
apart in two steps.  Which characters belong to arguments is settled for the text as a
whole (`Text.spell_injective`).  The pieces are then read from left to right, where what
may follow a part tells where it ends (`Filter.Sayable.reads`).
-/

namespace StreamFilter

open Text (Piece spell Spaced)
open Text.Piece (char)

/-! ## The names of the tables -/

namespace Vocabulary

/-- No target is empty, holds a blank or a quote, or looks like the start of a group or of a
negation. -/
theorem targets_plain : ∀ cs ∈ targets.map (·.name.toList),
    cs ≠ [] ∧ cs.all (fun c => c != ' ' && c != '"' && c != '(' && c != 'N') = true := by
  decide +kernel

theorem plain_of_lookup? {name : String} (h : (lookup? name).isSome = true) :
    name.toList ≠ [] ∧ ∀ c ∈ name.toList, c ≠ ' ' ∧ c ≠ '"' ∧ c ≠ '(' ∧ c ≠ 'N' := by
  obtain ⟨row, hrow⟩ := Option.isSome_iff_exists.1 h
  have hname : row.name = name := by simpa using List.find?_some hrow
  have hplain := targets_plain name.toList
    (List.mem_map.2 ⟨row, List.mem_of_find?_eq_some hrow, by rw [hname]⟩)
  simpa [and_assoc] using hplain

/-- An operator that begins like another does not go on with a blank or a parenthesis. -/
theorem operators_plain : ∀ cs ∈ operators.map String.toList, '"' ∉ cs ∧
    ∀ ds ∈ operators.map String.toList, cs <+: ds →
      (ds.drop cs.length).head? ≠ some ' ' ∧ (ds.drop cs.length).head? ≠ some ')' := by
  decide +kernel

end Vocabulary

namespace Triple

/-- The vocabulary without extra targets knows both names of a triple. -/
def Known (t : Triple) : Prop :=
  Vocabulary.admitsTarget {} t.target = true ∧ Vocabulary.admitsOperator {} t.operator = true

variable {t t' : Triple}

theorem Known.target (h : t.Known) :
    t.target.toList ≠ [] ∧ ∀ c ∈ t.target.toList, c ≠ ' ' ∧ c ≠ '"' ∧ c ≠ '(' ∧ c ≠ 'N' := by
  exact Vocabulary.plain_of_lookup? (by simpa [Vocabulary.admitsTarget] using h.1)

theorem Known.operator (h : t.Known) : '"' ∉ t.operator.toList := by
  have hmem : t.operator ∈ Vocabulary.operators := by simpa [Vocabulary.admitsOperator] using h.2
  exact (Vocabulary.operators_plain _ (List.mem_map_of_mem hmem)).1

/-- The pieces of a triple's argument, if it has one. -/
def argumentPieces (t : Triple) : List Piece :=
  match t.argument with
  | some text => [char ' ', .argument text.toList]
  | none => []

/-- The pieces of a triple's text. -/
def pieces (t : Triple) : List Piece :=
  t.target.toList.map char ++ char ' ' :: (t.operator.toList.map char ++ t.argumentPieces)

theorem spell_pieces (t : Triple) : spell t.pieces = t.text.toList := by
  obtain ⟨target, operator, _ | text⟩ := t <;>
    simp [pieces, argumentPieces, Triple.text, conditionText, Text.spell_append,
      Text.spell_map_char, Text.quoteChars]

theorem pieces_append (t : Triple) (r : List Piece) :
    t.pieces ++ r = t.target.toList.map char ++
      char ' ' :: (t.operator.toList.map char ++ (t.argumentPieces ++ r)) := by
  simp [pieces]

end Triple

/-! ## What may follow -/

namespace Text

/-- Whether a group or the whole text ends here. -/
def isClosed : List Piece → Bool
  | [] => true
  | char c :: _ => c == ')'
  | .argument _ :: _ => false

/-- Whether a part of a connective may end here: at a closing parenthesis, or before `AND`
or `OR`. -/
def isFollowed : List Piece → Bool
  | char ' ' :: char c :: _ => c == 'A' || c == 'O'
  | ps => isClosed ps

theorem isClosed_cases {ps : List Piece} (h : isClosed ps = true) :
    ps = [] ∨ ∃ rest, ps = char ')' :: rest := by
  match ps, h with
  | [], _ => exact .inl rfl
  | char c :: rest, h => exact .inr ⟨rest, by rw [beq_iff_eq.1 h]⟩

/-- What may follow a part begins with a blank or a parenthesis, but with no argument. -/
theorem isFollowed_cases {ps : List Piece} (h : isFollowed ps = true) :
    ps = [] ∨ (∃ rest, ps = char ')' :: rest) ∨ ∃ c rest, ps = char ' ' :: char c :: rest := by
  unfold isFollowed at h
  split at h
  next c rest => exact .inr (.inr ⟨c, rest, rfl⟩)
  next => exact (isClosed_cases h).imp_right .inl

theorem isFollowed_of_isClosed {ps : List Piece} (h : isClosed ps = true) :
    isFollowed ps = true := by
  unfold isFollowed
  split
  · simp [isClosed] at h
  · exact h

end Text

open Text (isClosed isFollowed)

namespace Triple

variable {t t' : Triple} {r r' : List Piece}

/-- Characters without a blank end at the first one. -/
theorem append_blank_inj : ∀ {cs ds : List Char}, (∀ c ∈ cs, c ≠ ' ') → (∀ d ∈ ds, d ≠ ' ') →
    cs.map char ++ char ' ' :: r = ds.map char ++ char ' ' :: r' → cs = ds ∧ r = r'
  | [], [], _, _, h => ⟨rfl, by simpa using h⟩
  | [], d :: ds, _, hds, h => by
    have hblank : ' ' = d := by
      rw [List.map_nil, List.nil_append, List.map_cons, List.cons_append, List.cons.injEq] at h
      exact Piece.char.inj h.1
    exact absurd hblank.symm (hds d List.mem_cons_self)
  | c :: cs, [], hcs, _, h => by
    have hblank : c = ' ' := by
      rw [List.map_nil, List.nil_append, List.map_cons, List.cons_append, List.cons.injEq] at h
      exact Piece.char.inj h.1
    exact absurd hblank (hcs c List.mem_cons_self)
  | c :: cs, d :: ds, hcs, hds, h => by
    rw [List.map_cons, List.map_cons, List.cons_append, List.cons_append, List.cons.injEq] at h
    obtain ⟨hcd, h⟩ := h
    obtain ⟨rfl, hrest⟩ := append_blank_inj (fun x hx => hcs x (List.mem_cons_of_mem _ hx))
      (fun x hx => hds x (List.mem_cons_of_mem _ hx)) h
    exact ⟨by rw [Piece.char.inj hcd], hrest⟩

/-- An operator that goes on where another one ends is that other one. -/
theorem eq_nil_of_operator (ht : t.Known) (ht' : t'.Known) {more : List Piece}
    (h : t'.operator.toList.map char = t.operator.toList.map char ++ more)
    (hmore : ∀ p ∈ more.head?, p = char ' ' ∨ p = char ')') : more = [] := by
  cases more with
  | nil => rfl
  | cons p more =>
    have hmem : ∀ {t : Triple}, t.Known →
        t.operator.toList ∈ Vocabulary.operators.map String.toList := fun ht =>
      List.mem_map_of_mem (by simpa [Vocabulary.admitsOperator] using ht.2)
    obtain ⟨cs, ds, hoperator, hcs, hds⟩ := List.map_eq_append_iff.1 h
    obtain rfl : cs = t.operator.toList :=
      (List.map_inj_right fun _ _ => Piece.char.inj).1 hcs
    obtain ⟨d, rest, rfl, rfl, -⟩ := List.map_eq_cons_iff.1 hds
    have hends := (Vocabulary.operators_plain _ (hmem ht)).2 _ (hmem ht')
      ⟨d :: rest, hoperator.symm⟩
    rw [hoperator, List.drop_left, List.head?_cons] at hends
    obtain hd | hd := hmore (char d) rfl
    · exact absurd (congrArg some (Piece.char.inj hd)) hends.1
    · exact absurd (congrArg some (Piece.char.inj hd)) hends.2

theorem operator_inj (ht : t.Known) (ht' : t'.Known)
    (hr : ∀ p ∈ r.head?, p = char ' ' ∨ p = char ')')
    (hr' : ∀ p ∈ r'.head?, p = char ' ' ∨ p = char ')')
    (h : t.operator.toList.map char ++ r = t'.operator.toList.map char ++ r') :
    t.operator = t'.operator ∧ r = r' := by
  have hinj : ∀ {cs ds : List Char}, cs.map char = ds.map char → cs = ds :=
    (List.map_inj_right fun _ _ => Piece.char.inj).1
  obtain ⟨more, hoperator, rfl⟩ | ⟨more, hoperator, rfl⟩ := List.append_eq_append_iff.1 h
  · obtain rfl := eq_nil_of_operator ht ht' hoperator fun p hp =>
      hr p (by rw [List.head?_append, hp]; rfl)
    rw [List.append_nil] at hoperator
    exact ⟨String.toList_inj.1 (hinj hoperator.symm), rfl⟩
  · obtain rfl := eq_nil_of_operator ht' ht hoperator fun p hp =>
      hr' p (by rw [List.head?_append, hp]; rfl)
    rw [List.append_nil] at hoperator
    exact ⟨String.toList_inj.1 (hinj hoperator), rfl⟩

theorem head_argumentPieces (t : Triple) (hr : isFollowed r = true) :
    ∀ p ∈ (t.argumentPieces ++ r).head?, p = char ' ' ∨ p = char ')' := by
  unfold argumentPieces
  split
  · simp
  · obtain rfl | ⟨rest, rfl⟩ | ⟨c, rest, rfl⟩ := Text.isFollowed_cases hr <;> simp

theorem argumentPieces_inj (hr : isFollowed r = true) (hr' : isFollowed r' = true)
    (h : t.argumentPieces ++ r = t'.argumentPieces ++ r') : t.argument = t'.argument ∧ r = r' := by
  have hno : ∀ {rest text}, isFollowed (char ' ' :: .argument text :: rest) = false := by
    intro rest text
    simp [isFollowed, isClosed]
  unfold argumentPieces at h
  cases hs : t.argument with
  | none =>
    cases ht : t'.argument with
    | none => simpa [hs, ht] using h
    | some text =>
      simp only [hs, ht, List.nil_append, List.cons_append] at h
      rw [h, hno] at hr
      cases hr
  | some text =>
    cases ht : t'.argument with
    | none =>
      simp only [hs, ht, List.nil_append, List.cons_append] at h
      rw [← h, hno] at hr'
      cases hr'
    | some text' => simpa [hs, ht, String.toList_inj] using h

/-- A triple ends at the same place in two readings. -/
theorem pieces_inj (ht : t.Known) (ht' : t'.Known) (hr : isFollowed r = true)
    (hr' : isFollowed r' = true) (h : t.pieces ++ r = t'.pieces ++ r') : t = t' ∧ r = r' := by
  rw [pieces_append, pieces_append] at h
  obtain ⟨htarget, h⟩ := append_blank_inj (fun c hc => (ht.target.2 c hc).1)
    (fun c hc => (ht'.target.2 c hc).1) h
  obtain ⟨hoperator, h⟩ := operator_inj ht ht' (head_argumentPieces t hr)
    (head_argumentPieces t' hr') h
  obtain ⟨hargument, hrest⟩ := argumentPieces_inj hr hr' h
  obtain ⟨_, _, _⟩ := t
  obtain ⟨_, _, _⟩ := t'
  obtain rfl := String.toList_inj.1 htarget
  exact ⟨by rw [Triple.mk.injEq]; exact ⟨rfl, hoperator, hargument⟩, hrest⟩

end Triple

namespace Filter

/-! ## Legible filters -/

/-- Whether children are a target, an operator and perhaps a string argument. -/
def isTriple : List Filter → Bool
  | [target _, operator _] | [target _, operator _, argument (string _)] => true
  | _ => false

mutual

/-- Whether nothing in a filter is left implicit: connectives have two parts or more, groups
one, a negation holds a triple, or a group or another negation; a connective stands in a
group or is the whole filter.  The flag tells whether the filter stands below a connective
or a negation. -/
def isLegible (nested : Bool) : Filter → Bool
  | and cs | or cs => !nested && decide (2 ≤ cs.length) && allLegible cs
  | group [f] => isLegible false f
  | not [f] => (f.kind == .not || f.kind == .group) && isLegible true f
  | not cs | condition cs => isTriple cs
  | _ => false

/-- Whether this is so for all parts of a connective. -/
def allLegible : List Filter → Bool
  | [] => true
  | f :: fs => isLegible true f && allLegible fs

end

/-- A legible filter whose names are known. -/
inductive Sayable : Bool → Filter → Prop
  | triple (nested : Bool) (p : Polarity) {t : Triple} (ht : t.Known) :
    Sayable nested (p.node (ofTriple t))
  | not (nested : Bool) {f : Filter} (hkind : f.kind = .not ∨ f.kind = .group)
    (hf : Sayable true f) : Sayable nested (not [f])
  | group (nested : Bool) {f : Filter} (hf : Sayable false f) : Sayable nested (group [f])
  | join (c : Connective) {f g : Filter} {fs : List Filter}
    (hfs : ∀ h ∈ f :: g :: fs, Sayable true h) : Sayable false (c.join (f :: g :: fs))

theorem isTriple_iff {cs : List Filter} : isTriple cs = true ↔ ∃ t, cs = ofTriple t := by
  constructor
  · intro h
    unfold isTriple at h
    split at h
    next name o => exact ⟨⟨name, o, none⟩, rfl⟩
    next name o text => exact ⟨⟨name, o, some text⟩, rfl⟩
    next => cases h
  · rintro ⟨⟨_, _, _ | _⟩, rfl⟩ <;> rfl

theorem sayable_join (c : Connective) {fs : List Filter} (hlen : 2 ≤ fs.length)
    (hfs : ∀ f ∈ fs, Sayable true f) : Sayable false (c.join fs) := by
  match fs, hlen with
  | _ :: _ :: _, _ => exact .join c hfs

theorem csdl_condition_ofTriple (v : Vocabulary) (t : Triple) :
    csdl v (condition (ofTriple t)) = t.csdl v := by
  rw [csdl, requireTriple, triple?_ofTriple]
  rfl

theorem csdl_not_ofTriple (v : Vocabulary) (t : Triple) :
    csdl v (not (ofTriple t)) = (t.csdl v).map ("NOT " ++ ·) := by
  have htriple := triple?_ofTriple t
  rw [ofTriple, List.cons_append] at htriple ⊢
  rw [csdl, requireTriple, htriple]
  rfl

mutual

/-- A legible filter with a text is sayable. -/
theorem sayable_of_csdl : ∀ (f : Filter) {nested : Bool} {text : String},
    isLegible nested f = true → csdl {} f = .ok text → Sayable nested f
  | and cs, nested, text, hf, h => by
    simp only [isLegible, Bool.and_eq_true, Bool.not_eq_true', decide_eq_true_eq] at hf
    rw [csdl] at h
    obtain ⟨_, -, h⟩ := exists_of_bind_eq_ok h
    obtain ⟨texts, htexts, -⟩ := exists_of_bind_eq_ok h
    rw [hf.1.1]
    exact sayable_join .and hf.1.2 (sayable_of_csdlAll cs hf.2 htexts)
  | or cs, nested, text, hf, h => by
    simp only [isLegible, Bool.and_eq_true, Bool.not_eq_true', decide_eq_true_eq] at hf
    rw [csdl] at h
    obtain ⟨_, -, h⟩ := exists_of_bind_eq_ok h
    obtain ⟨texts, htexts, -⟩ := exists_of_bind_eq_ok h
    rw [hf.1.1]
    exact sayable_join .or hf.1.2 (sayable_of_csdlAll cs hf.2 htexts)
  | group [f], nested, text, hf, h => by
    rw [isLegible] at hf
    rw [csdl] at h
    obtain ⟨first, hfirst, -⟩ := exists_of_bind_eq_ok h
    exact .group nested (sayable_of_csdl f hf hfirst)
  | not [f], nested, text, hf, h => by
    simp only [isLegible, Bool.and_eq_true, Bool.or_eq_true, beq_iff_eq] at hf
    rw [csdl] at h
    · obtain ⟨first, hfirst, -⟩ := exists_of_bind_eq_ok h
      exact .not nested hf.1 (sayable_of_csdl f hf.2 hfirst)
    · rintro name rfl
      simp [kind] at hf
  | not (c :: d :: cs), nested, text, hf, h => by
    rw [isLegible, isTriple_iff] at hf
    · obtain ⟨t, ht⟩ := hf
      rw [ht, csdl_not_ofTriple] at h
      obtain ⟨_, h, -⟩ := exists_of_map_eq_ok h
      obtain ⟨htarget, hoperator, -⟩ := csdl_triple_eq_ok h
      rw [ht]
      exact .triple nested .negated ⟨htarget, hoperator⟩
    · simp
  | condition cs, nested, text, hf, h => by
    rw [isLegible, isTriple_iff] at hf
    obtain ⟨t, rfl⟩ := hf
    rw [csdl_condition_ofTriple] at h
    obtain ⟨htarget, hoperator, -⟩ := csdl_triple_eq_ok h
    exact .triple nested .plain ⟨htarget, hoperator⟩
  | not [], _, _, hf, _ | group [], _, _, hf, _ | group (_ :: _ :: _), _, _, hf, _
  | raw _, _, _, hf, _ | target _, _, _, hf, _ | operator _, _, _, hf, _
  | argument _, _, _, hf, _ | string _, _, _, hf, _ => by
    simp [isLegible, isTriple] at hf

theorem sayable_of_csdlAll : ∀ (fs : List Filter) {texts : List String},
    allLegible fs = true → csdlAll {} fs = .ok texts → ∀ f ∈ fs, Sayable true f
  | [], _, _, _ => fun _ hmem => by cases hmem
  | f :: fs, texts, hfs, h => by
    rw [allLegible, Bool.and_eq_true] at hfs
    rw [csdlAll] at h
    obtain ⟨first, hfirst, h⟩ := exists_of_bind_eq_ok h
    obtain ⟨others, hothers, -⟩ := exists_of_bind_eq_ok h
    exact List.forall_mem_cons.2
      ⟨sayable_of_csdl f hfs.1 hfirst, sayable_of_csdlAll fs hfs.2 hothers⟩

end

/-! ## The pieces of a filter -/

end Filter

/-- The pieces between the parts of a connective. -/
def Connective.separator : Connective → List Piece
  | .and => [char ' ', char 'A', char 'N', char 'D', char ' ']
  | .or => [char ' ', char 'O', char 'R', char ' ']

namespace Filter

/-- The pieces that begin a negation. -/
def notPieces : List Piece := [char 'N', char 'O', char 'T', char ' ']

mutual

/-- The pieces of the text of a legible filter. -/
def pieces : Filter → List Piece
  | and (f :: fs) => pieces f ++ partsPieces .and fs
  | or (f :: fs) => pieces f ++ partsPieces .or fs
  | group [f] => char '(' :: (pieces f ++ [char ')'])
  | not [f] => notPieces ++ pieces f
  | not cs => notPieces ++ (triple? cs).elim [] Triple.pieces
  | condition cs => (triple? cs).elim [] Triple.pieces
  | _ => []

/-- The pieces of the further parts of a connective. -/
def partsPieces (c : Connective) : List Filter → List Piece
  | [] => []
  | f :: fs => c.separator ++ (pieces f ++ partsPieces c fs)

end

theorem pieces_join (c : Connective) (f : Filter) (fs : List Filter) :
    (c.join (f :: fs)).pieces = f.pieces ++ partsPieces c fs := by
  cases c <;> rw [Connective.join, pieces]

theorem pieces_condition_ofTriple (t : Triple) : (condition (ofTriple t)).pieces = t.pieces := by
  rw [pieces, triple?_ofTriple]
  rfl

theorem pieces_not_ofTriple (t : Triple) :
    (not (ofTriple t)).pieces = notPieces ++ t.pieces := by
  rw [pieces, triple?_ofTriple]
  · rfl
  · intro f hf
    exact length_ne_one_of_triple? (triple?_ofTriple t) (by rw [hf]; rfl)

theorem csdl_join (v : Vocabulary) (c : Connective) (cs : List Filter) :
    csdl v (c.join cs) = (do
      requireTwo c.kind cs
      return (String.ofList (spell c.separator)).intercalate (← csdlAll v cs)) := by
  cases c <;> rw [Connective.join, csdl] <;> rfl

theorem csdlAll_of_forall {v : Vocabulary} {text : Filter → String} {fs : List Filter}
    (h : ∀ f ∈ fs, csdl v f = .ok (text f)) : csdlAll v fs = .ok (fs.map text) := by
  induction fs with
  | nil => rw [csdlAll, List.map_nil]
  | cons f fs ih =>
    obtain ⟨hf, hfs⟩ := List.forall_mem_cons.1 h
    rw [csdlAll, hf, ih hfs]
    rfl

/-- The parts of a connective are written with its separator between them. -/
theorem intercalate_pieces (c : Connective) (f : Filter) (fs : List Filter) :
    (spell c.separator).intercalate ((f :: fs).map fun g => spell g.pieces) =
      spell (f.pieces ++ partsPieces c fs) := by
  induction fs generalizing f with
  | nil => simp [partsPieces]
  | cons g fs ih =>
    have hrest := ih g
    rw [List.map_cons] at hrest
    rw [List.map_cons, List.map_cons, List.intercalate_cons_cons, hrest, partsPieces,
      Text.spell_append f.pieces, Text.spell_append c.separator, List.append_assoc]

/-- A sayable filter has the text of its pieces. -/
theorem Sayable.csdl {nested : Bool} {f : Filter} (h : Sayable nested f) :
    f.csdl {} = .ok (String.ofList (spell f.pieces)) := by
  induction h with
  | @triple nested p t ht =>
    have htext : Triple.csdl {} t = .ok t.text := by rw [Triple.csdl, if_pos ht.1, if_pos ht.2]
    cases p with
    | plain =>
      rw [Polarity.node, csdl_condition_ofTriple, htext, pieces_condition_ofTriple,
        Triple.spell_pieces, String.ofList_toList]
    | negated =>
      rw [Polarity.node, csdl_not_ofTriple, htext, pieces_not_ofTriple, Text.spell_append,
        Triple.spell_pieces, String.ofList_append, String.ofList_toList]
      rfl
  | @not nested f hkind hf ih =>
    rw [Filter.csdl, ih, pieces, Text.spell_append, String.ofList_append]
    · rfl
    · rintro name rfl
      simp [kind] at hkind
  | @group nested f hf ih =>
    rw [Filter.csdl, ih, pieces, csdlAll]
    refine congrArg Except.ok (String.toList_inj.1 ?_)
    simp [Text.spell_append]
  | @join c f g fs hfs ih =>
    rw [csdl_join, csdlAll_of_forall ih, pieces_join, ← intercalate_pieces]
    refine congrArg Except.ok (String.toList_inj.1 ?_)
    rw [String.toList_intercalate, List.map_map, String.toList_ofList, String.toList_ofList]
    simp only [Function.comp_def, String.toList_ofList]

/-! ## Arguments stand behind blanks -/

variable {r : List Piece}

theorem spaced_map_char {cs : List Char} (hcs : '"' ∉ cs) (hr : ∀ b, Spaced b r) (b : Bool) :
    Spaced b (cs.map char ++ r) := by
  induction cs generalizing b with
  | nil => exact hr b
  | cons c cs ih =>
    rw [List.mem_cons, not_or] at hcs
    exact ⟨fun h => hcs.1 h.symm, ih hcs.2 _⟩

theorem spaced_triple {t : Triple} (ht : t.Known) (hr : ∀ b, Spaced b r) (b : Bool) :
    Spaced b (t.pieces ++ r) := by
  rw [Triple.pieces_append]
  refine spaced_map_char (fun h => (ht.target.2 _ h).2.1 rfl) (fun b => ?_) b
  refine ⟨by decide, spaced_map_char ht.operator (fun b => ?_) _⟩
  unfold Triple.argumentPieces
  split
  · exact ⟨by decide, rfl, hr false⟩
  · exact hr b

theorem spaced_partsPieces (c : Connective) {fs : List Filter}
    (hfs : ∀ f ∈ fs, ∀ {r}, (∀ b, Spaced b r) → ∀ b, Spaced b (f.pieces ++ r))
    (hr : ∀ b, Spaced b r) (b : Bool) : Spaced b (partsPieces c fs ++ r) := by
  induction fs generalizing b with
  | nil => exact hr b
  | cons f fs ih =>
    obtain ⟨hf, hfs⟩ := List.forall_mem_cons.1 hfs
    have hrest : ∀ b, Spaced b (f.pieces ++ (partsPieces c fs ++ r)) := hf (ih hfs)
    rw [partsPieces, List.append_assoc, List.append_assoc]
    cases c <;> simp [Connective.separator, Spaced, hrest]

theorem Sayable.spaced {nested : Bool} {f : Filter} (h : Sayable nested f) :
    ∀ {r : List Piece}, (∀ b, Spaced b r) → ∀ b, Spaced b (f.pieces ++ r) := by
  induction h with
  | @triple nested p t ht =>
    intro r hr b
    cases p with
    | plain =>
      rw [Polarity.node, pieces_condition_ofTriple]
      exact spaced_triple ht hr b
    | negated =>
      rw [Polarity.node, pieces_not_ofTriple]
      simp [notPieces, Spaced, spaced_triple ht hr]
  | @not nested f hkind hf ih =>
    intro r hr b
    rw [pieces]
    simp [notPieces, Spaced, ih hr]
  | @group nested f hf ih =>
    intro r hr b
    rw [pieces, List.cons_append, List.append_assoc]
    have hclosing : ∀ b, Spaced b ([char ')'] ++ r) := fun _ => ⟨by decide, hr _⟩
    exact ⟨by decide, ih hclosing _⟩
  | @join c f g fs hfs ih =>
    intro r hr b
    obtain ⟨hf, hrest⟩ := List.forall_mem_cons.1 ih
    rw [pieces_join, List.append_assoc]
    exact hf (spaced_partsPieces c hrest hr) b

/-! ## Reading the pieces back -/

theorem isFollowed_partsPieces (c : Connective) (fs : List Filter) (hr : isClosed r = true) :
    isFollowed (partsPieces c fs ++ r) = true := by
  cases fs with
  | nil => exact Text.isFollowed_of_isClosed hr
  | cons f fs => cases c <;> rfl

theorem isClosed_partsPieces_cons (c : Connective) (f : Filter) (fs : List Filter) :
    isClosed (partsPieces c (f :: fs) ++ r) = false := by
  cases c <;> rfl

theorem separator_inj {c d : Connective} {r r' : List Piece}
    (h : c.separator ++ r = d.separator ++ r') : c = d ∧ r = r' := by
  cases c <;> cases d <;> simp_all [Connective.separator]

/-- A part of a connective ends at the same place in two readings. -/
def Reads (f : Filter) : Prop :=
  ∀ ⦃g : Filter⦄ ⦃r r' : List Piece⦄, Sayable true g → isFollowed r = true → isFollowed r' = true →
    f.pieces ++ r = g.pieces ++ r' → f = g ∧ r = r'

/-- A whole filter, or what stands in a group, ends at the same place in two readings. -/
def ReadsWhole (f : Filter) : Prop :=
  ∀ ⦃g : Filter⦄ ⦃r r' : List Piece⦄, Sayable false g → isClosed r = true → isClosed r' = true →
    f.pieces ++ r = g.pieces ++ r' → f = g ∧ r = r'

/-- If each part ends at the same place, then so do all together. -/
theorem parts_inj {c d : Connective} {r r' : List Piece} (hr : isClosed r = true)
    (hr' : isClosed r' = true) {f g : Filter} {fs gs : List Filter}
    (hfs : ∀ x ∈ f :: fs, Reads x) (hgs : ∀ x ∈ g :: gs, Sayable true x)
    (h : f.pieces ++ (partsPieces c fs ++ r) = g.pieces ++ (partsPieces d gs ++ r')) :
    f :: fs = g :: gs ∧ (fs ≠ [] → c = d) ∧ r = r' := by
  induction fs generalizing f g gs with
  | nil =>
    obtain ⟨rfl, hrest⟩ := hfs f List.mem_cons_self (hgs g List.mem_cons_self)
      (isFollowed_partsPieces c [] hr) (isFollowed_partsPieces d gs hr') h
    cases gs with
    | nil => exact ⟨rfl, fun hne => absurd rfl hne, hrest⟩
    | cons x gs =>
      have hclosed : isClosed r = false := by
        rw [← isClosed_partsPieces_cons d x gs (r := r'), ← hrest]
        rfl
      rw [hr] at hclosed
      cases hclosed
  | cons x fs ih =>
    obtain ⟨rfl, hrest⟩ := hfs f List.mem_cons_self (hgs g List.mem_cons_self)
      (isFollowed_partsPieces c (x :: fs) hr) (isFollowed_partsPieces d gs hr') h
    cases gs with
    | nil =>
      have hclosed : isClosed r' = false := by
        rw [← isClosed_partsPieces_cons c x fs (r := r), hrest]
        rfl
      rw [hr'] at hclosed
      cases hclosed
    | cons y gs =>
      simp only [partsPieces, List.append_assoc] at hrest
      obtain ⟨rfl, hnext⟩ := separator_inj hrest
      obtain ⟨hlists, -, hend⟩ :=
        ih (List.forall_mem_cons.1 hfs).2 (List.forall_mem_cons.1 hgs).2 hnext
      exact ⟨by rw [hlists], fun _ => rfl, hend⟩

/-- A filter that is a connective of parts, or its only part. -/
def HasParts (f : Filter) (c : Connective) (g : Filter) (gs : List Filter) : Prop :=
  f.pieces = g.pieces ++ partsPieces c gs ∧
    (gs = [] ∧ f = g ∨ gs ≠ [] ∧ f = c.join (g :: gs))

theorem hasParts_self (f : Filter) : HasParts f .and f [] :=
  ⟨by rw [partsPieces, List.append_nil], .inl ⟨rfl, rfl⟩⟩

theorem hasParts_join (c : Connective) (f g : Filter) (fs : List Filter) :
    HasParts (c.join (f :: g :: fs)) c f (g :: fs) :=
  ⟨pieces_join c f (g :: fs), .inr ⟨by simp, rfl⟩⟩

theorem Sayable.hasParts {f : Filter} (h : Sayable false f) :
    ∃ c g gs, (∀ x ∈ g :: gs, Sayable true x) ∧ HasParts f c g gs := by
  cases h with
  | triple _ p ht => exact ⟨_, _, _, by simpa using .triple true p ht, hasParts_self _⟩
  | not _ hkind hf => exact ⟨_, _, _, by simpa using .not true hkind hf, hasParts_self _⟩
  | group _ hf => exact ⟨_, _, _, by simpa using .group true hf, hasParts_self _⟩
  | join c hfs => exact ⟨c, _, _, hfs, hasParts_join c _ _ _⟩

theorem readsWhole_of_parts {f x : Filter} {c : Connective} {xs : List Filter}
    (hparts : HasParts f c x xs) (hreads : ∀ y ∈ x :: xs, Reads y) : ReadsWhole f := by
  intro g r r' hg hr hr' h
  obtain ⟨d, y, ys, hys, hparts'⟩ := hg.hasParts
  rw [hparts.1, hparts'.1, List.append_assoc, List.append_assoc] at h
  obtain ⟨hlists, hconnectives, hrest⟩ := parts_inj hr hr' hreads hys h
  refine ⟨?_, hrest⟩
  obtain ⟨rfl, rfl⟩ := List.cons.inj hlists
  obtain ⟨hone, rfl⟩ | ⟨hmany, rfl⟩ := hparts.2 <;>
    obtain ⟨hone', rfl⟩ | ⟨hmany', rfl⟩ := hparts'.2
  · rfl
  · exact absurd hone hmany'
  · exact absurd hone' hmany
  · rw [hconnectives hmany]

theorem exists_pieces_of_known {t : Triple} (ht : t.Known) :
    ∃ c rest, t.pieces = char c :: rest ∧ c ≠ '(' ∧ c ≠ 'N' := by
  obtain ⟨c, cs, hcs⟩ := List.exists_cons_of_ne_nil ht.target.1
  have hc := ht.target.2 c (by rw [hcs]; exact List.mem_cons_self)
  exact ⟨c, _, by rw [Triple.pieces, hcs, List.map_cons, List.cons_append], hc.2.2⟩

theorem exists_pieces_of_kind {nested : Bool} {g : Filter} (hg : Sayable nested g)
    (hkind : g.kind = .not ∨ g.kind = .group) :
    ∃ c rest, g.pieces = char c :: rest ∧ (c = '(' ∨ c = 'N') := by
  cases hg with
  | triple _ p ht =>
    cases p with
    | plain => simp [Polarity.node, kind] at hkind
    | negated => exact ⟨'N', _, pieces_not_ofTriple _, .inr rfl⟩
  | not => exact ⟨'N', _, by rw [pieces, notPieces, List.cons_append], .inr rfl⟩
  | group => exact ⟨'(', _, by rw [pieces], .inl rfl⟩
  | join c => cases c <;> simp [Connective.join, kind] at hkind

/-- A triple does not begin like a negation or a group. -/
theorem pieces_ne_of_kind {t : Triple} (ht : t.Known) {nested : Bool} {g : Filter}
    (hg : Sayable nested g) (hkind : g.kind = .not ∨ g.kind = .group) (r r' : List Piece) :
    t.pieces ++ r ≠ g.pieces ++ r' := by
  obtain ⟨c, _, hc, hparen, hN⟩ := exists_pieces_of_known ht
  obtain ⟨d, _, hd, hcd⟩ := exists_pieces_of_kind hg hkind
  rw [hc, hd]
  intro h
  obtain rfl : c = d := Piece.char.inj (List.cons.inj h).1
  exact hcd.elim hparen hN

theorem reads_condition {t : Triple} (ht : t.Known) : Reads (condition (ofTriple t)) := by
  intro g r r' hg hr hr' h
  rw [pieces_condition_ofTriple] at h
  have hkind : ¬ (g.kind = .not ∨ g.kind = .group) := fun hkind =>
    pieces_ne_of_kind ht hg hkind r r' h
  cases hg with
  | triple _ p ht' =>
    cases p with
    | plain =>
      rw [Polarity.node, pieces_condition_ofTriple] at h
      obtain ⟨rfl, hrest⟩ := Triple.pieces_inj ht ht' hr hr' h
      exact ⟨rfl, hrest⟩
    | negated => exact absurd (.inl rfl) hkind
  | not => exact absurd (.inl rfl) hkind
  | group => exact absurd (.inr rfl) hkind

theorem reads_not_ofTriple {t : Triple} (ht : t.Known) : Reads (not (ofTriple t)) := by
  intro g r r' hg hr hr' h
  cases hg with
  | triple _ p ht' =>
    cases p with
    | plain =>
      rw [Polarity.node, pieces_condition_ofTriple] at h
      exact absurd h.symm (pieces_ne_of_kind ht' (.triple true .negated ht) (.inl rfl) r' r)
    | negated =>
      rw [Polarity.node, pieces_not_ofTriple, pieces_not_ofTriple, List.append_assoc,
        List.append_assoc, List.append_cancel_left_eq] at h
      obtain ⟨rfl, hrest⟩ := Triple.pieces_inj ht ht' hr hr' h
      exact ⟨rfl, hrest⟩
  | not _ hkind hg =>
    rw [pieces_not_ofTriple, pieces, List.append_assoc, List.append_assoc,
      List.append_cancel_left_eq] at h
    exact absurd h (pieces_ne_of_kind ht hg hkind r r')
  | group =>
    rw [pieces_not_ofTriple, pieces] at h
    simp [notPieces] at h

theorem reads_not {f : Filter} (hkind : f.kind = .not ∨ f.kind = .group) (hf : Sayable true f)
    (ih : Reads f) : Reads (not [f]) := by
  intro g r r' hg hr hr' h
  cases hg with
  | triple _ p ht =>
    cases p with
    | plain =>
      rw [Polarity.node, pieces_condition_ofTriple] at h
      exact absurd h.symm (pieces_ne_of_kind ht (.not true hkind hf) (.inl rfl) r' r)
    | negated =>
      rw [Polarity.node, pieces_not_ofTriple, pieces, List.append_assoc, List.append_assoc,
        List.append_cancel_left_eq] at h
      exact absurd h.symm (pieces_ne_of_kind ht hf hkind r' r)
  | not _ hkind' hg =>
    rw [pieces, pieces, List.append_assoc, List.append_assoc, List.append_cancel_left_eq] at h
    obtain ⟨rfl, hrest⟩ := ih hg hr hr' h
    exact ⟨rfl, hrest⟩
  | group =>
    rw [pieces, pieces] at h
    simp [notPieces] at h

theorem reads_group {f : Filter} (hf : Sayable false f) (ih : ReadsWhole f) :
    Reads (group [f]) := by
  intro g r r' hg hr hr' h
  cases hg with
  | triple _ p ht =>
    cases p with
    | plain =>
      rw [Polarity.node, pieces_condition_ofTriple] at h
      exact absurd h.symm (pieces_ne_of_kind ht (.group true hf) (.inr rfl) r' r)
    | negated =>
      rw [Polarity.node, pieces_not_ofTriple, pieces] at h
      simp [notPieces] at h
  | not =>
    rw [pieces, pieces] at h
    simp [notPieces] at h
  | group _ hg =>
    simp only [pieces, List.cons_append, List.append_assoc, List.nil_append,
      List.cons.injEq, true_and] at h
    obtain ⟨rfl, hrest⟩ := ih hg rfl rfl h
    exact ⟨rfl, (List.cons.inj hrest).2⟩

theorem Reads.whole {f : Filter} (h : Reads f) : ReadsWhole f :=
  readsWhole_of_parts (hasParts_self f) (by simpa using h)

/-- A sayable filter can be read in one way only, as a part of a connective if it can stand
there and as a whole in any case. -/
theorem Sayable.reads {nested : Bool} {f : Filter} (h : Sayable nested f) :
    (nested = true → Reads f) ∧ ReadsWhole f := by
  induction h with
  | @triple _ p t ht =>
    have hreads : Reads (p.node (ofTriple t)) := by
      cases p with
      | plain => exact reads_condition ht
      | negated => exact reads_not_ofTriple ht
    exact ⟨fun _ => hreads, hreads.whole⟩
  | not _ hkind hf ih =>
    have hreads := reads_not hkind hf (ih.1 rfl)
    exact ⟨fun _ => hreads, hreads.whole⟩
  | group _ hf ih =>
    have hreads := reads_group hf ih.2
    exact ⟨fun _ => hreads, hreads.whole⟩
  | join c hfs ih =>
    exact ⟨nofun, readsWhole_of_parts (hasParts_join c _ _ _) fun x hx => (ih x hx).1 rfl⟩

/-- Let two filters be legible and have texts under the vocabulary without extra targets.  If
the texts are the same, then so are the filters. -/
theorem csdl_injective {f g : Filter} (hf : f.isLegible false = true)
    (hg : g.isLegible false = true) {text : String} (h : f.csdl {} = .ok text)
    (h' : g.csdl {} = .ok text) : f = g := by
  have hsay := sayable_of_csdl f hf h
  have hsay' := sayable_of_csdl g hg h'
  have htexts : spell f.pieces = spell g.pieces := by
    rw [hsay.csdl, ← h', hsay'.csdl] at h
    exact String.ofList_injective (Except.ok.inj h)
  have hpieces : f.pieces = g.pieces := by
    have hspaced := hsay.spaced (r := []) (fun _ => trivial) false
    have hspaced' := hsay'.spaced (r := []) (fun _ => trivial) false
    rw [List.append_nil] at hspaced hspaced'
    exact Text.spell_injective hspaced hspaced' htexts
  exact (hsay.reads.2 hsay' rfl rfl (congrArg (· ++ []) hpieces)).1

/-- Two conditions, the first with an argument that ends in a backslash and the second with one
that holds the text of a condition. -/
def disguised : Filter :=
  and [condition [target "fb.content", operator "contains", argument (string "a\\")],
    not [target "fb.content", operator "contains", argument (string "\" AND fb.content exists")]]

/-- The text of `disguised`. -/
def disguisedText : String :=
  "fb.content contains \"a\\\" AND NOT fb.content contains \"\\\" AND fb.content exists\""

theorem csdl_disguised : disguised.csdl {} = .ok disguisedText :=
  congrArg Except.ok (by decide +kernel)

theorem csdl_injective_disguised :
    disguised.isLegible false = true ∧ disguised.csdl {} = .ok disguisedText ∧
      ∀ g : Filter, g.isLegible false = true → g.csdl {} = .ok disguisedText → g = disguised :=
  ⟨by decide, csdl_disguised, fun _ hg h => csdl_injective hg (by decide) h csdl_disguised⟩

end Filter

end StreamFilter
