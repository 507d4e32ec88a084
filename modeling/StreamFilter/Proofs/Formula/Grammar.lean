import StreamFilter.Formula.Parse
import StreamFilter.Proofs.Fault
import StreamFilter.Proofs.Formula.Variables
import StreamFilter.Skeleton.Extract
set_option autoImplicit false

/-!
# The grammar of formula text

    expr := name | function "(" expr ("," expr)* ")"

The grammar is stated without the readers.  `Spells cs ts` says that the characters `cs`
spell the tokens `ts`: separators may stand anywhere between tokens, and a name ends where
no character of a name follows.  A `Derivation` is a way to derive an expression; it has
tokens and a value.

The scanner finds exactly the tokens that are spelled (`spells_iff`), and the reader
accepts exactly the tokens of a derivation, with its value (`parse_eq_ok_iff`).  Tokens have
one derivation (`Derivation.tokens_injective`), although a function name that no
parenthesis follows is a variable.
-/

namespace StreamFilter

/-- The lower case form of the function name for a connective. -/
def Connective.functionName : Connective → String
  | and => "and"
  | or => "or"

namespace Formula

/-! ## How tokens are spelled -/

/-- Characters that spell tokens. -/
inductive Spells : List Char → List Token → Prop
  | nil : Spells [] []
  | separator {c : Char} {cs : List Char} {ts : List Token} (hc : isSeparator c = true)
      (h : Spells cs ts) : Spells (c :: cs) ts
  | opening {cs : List Char} {ts : List Token} (h : Spells cs ts) :
      Spells ('(' :: cs) (.opening :: ts)
  | closing {cs : List Char} {ts : List Token} (h : Spells cs ts) :
      Spells (')' :: cs) (.closing :: ts)
  | comma {cs : List Char} {ts : List Token} (h : Spells cs ts) :
      Spells (',' :: cs) (.comma :: ts)
  /-- The longest match: the name cannot be extended. -/
  | name {name : String} {cs : List Char} {ts : List Token} (hname : isName name = true)
      (hends : Ends cs) (h : Spells cs ts) : Spells (name.toList ++ cs) (.name name :: ts)

/-- A token is found in front of those that are found behind it. -/
theorem exists_scanFrom_token {offset : Nat} {t : Token} {cs : List Char} {ts : List Token}
    (ht : t.Whole cs) (h : ∃ s, scanFrom (offset + Text.byteLength t.chars) cs = .ok s ∧
      s.lexemes.map Lexeme.token = ts) :
    ∃ s, scanFrom offset (t.chars ++ cs) = .ok s ∧ s.lexemes.map Lexeme.token = t :: ts := by
  obtain ⟨s, hs, rfl⟩ := h
  exact ⟨s.cons t offset, by rw [scanFrom_token offset ht, hs]; rfl, rfl⟩

/-- The tokens that characters spell are found, wherever the characters stand. -/
theorem Spells.scanFrom {cs : List Char} {ts : List Token} (h : Spells cs ts) (offset : Nat) :
    ∃ s, scanFrom offset cs = .ok s ∧ s.lexemes.map Lexeme.token = ts := by
  induction h generalizing offset with
  | nil => exact ⟨⟨[], offset⟩, by rw [Formula.scanFrom], rfl⟩
  | separator hc _ ih =>
    obtain ⟨s, hs, hts⟩ := ih (offset + 1)
    exact ⟨s, by rw [Formula.scanFrom, if_pos hc, hs], hts⟩
  | opening _ ih => exact exists_scanFrom_token (t := .opening) trivial (ih _)
  | closing _ ih => exact exists_scanFrom_token (t := .closing) trivial (ih _)
  | comma _ ih => exact exists_scanFrom_token (t := .comma) trivial (ih _)
  | name hname hends _ ih => exact exists_scanFrom_token (t := .name _) ⟨hname, hends⟩ (ih _)

/-- The tokens that are found are spelled by the characters. -/
theorem spells_of_scanFrom {offset : Nat} {cs : List Char} {s : Scanned}
    (h : scanFrom offset cs = .ok s) : Spells cs (s.lexemes.map Lexeme.token) := by
  fun_induction scanFrom offset cs generalizing s with
  | case1 offset =>
    cases h
    exact .nil
  | case2 offset c cs hsep ih => exact .separator hsep (ih h)
  | case3 offset cs _ ih =>
    obtain ⟨r, hr, rfl⟩ := exists_of_map_eq_ok h
    exact .opening (ih hr)
  | case4 offset cs _ _ ih =>
    obtain ⟨r, hr, rfl⟩ := exists_of_map_eq_ok h
    exact .closing (ih hr)
  | case5 offset cs _ _ _ ih =>
    obtain ⟨r, hr, rfl⟩ := exists_of_map_eq_ok h
    exact .comma (ih hr)
  | case6 offset c cs _ _ _ _ hstart name =>
    rename_i ih
    obtain ⟨r, hr, rfl⟩ := exists_of_map_eq_ok h
    have hwhole := whole_takeWhile hstart cs
    have hspelled := Spells.name hwhole.1 hwhole.2 (ih hr)
    rwa [String.toList_ofList, List.cons_append, List.takeWhile_append_dropWhile] at hspelled
  | case7 => cases h

/-- Scanning finds the tokens that a text spells, and no others. -/
theorem spells_iff {cs : List Char} {ts : List Token} (offset : Nat) :
    Spells cs ts ↔ ∃ s, scanFrom offset cs = .ok s ∧ s.lexemes.map Lexeme.token = ts := by
  constructor
  · exact fun h => h.scanFrom offset
  · rintro ⟨s, hs, rfl⟩
    exact spells_of_scanFrom hs

theorem Spells.unique {cs : List Char} {ts us : List Token} (hts : Spells cs ts)
    (hus : Spells cs us) : ts = us := by
  obtain ⟨s, hs, rfl⟩ := (spells_iff 0).1 hts
  obtain ⟨r, hr, rfl⟩ := (spells_iff 0).1 hus
  rw [Except.ok.inj (hs.symm.trans hr)]

/-- Whether each name among tokens is one. -/
def Names (ts : List Token) : Prop := ∀ name, .name name ∈ ts → isName name = true

theorem Names.mono {ts us : List Token} (h : Names us) (hsub : ts ⊆ us) : Names ts :=
  fun name hname => h name (hsub hname)

theorem Spells.names {cs : List Char} {ts : List Token} (h : Spells cs ts) : Names ts := by
  induction h with
  | nil => simp [Names]
  | separator _ _ ih => exact ih
  | opening _ ih | closing _ ih | comma _ ih => simpa [Names] using ih
  | name hname _ _ ih =>
    intro other hother
    rcases List.mem_cons.1 hother with heq | hother
    · rwa [Token.name.inj heq]
    · exact ih other hother

/-! ## Derivations -/

/-- A derivation of an expression.  `Not` has one argument, `And` and `Or` have one or
more, and the three are written in any mix of upper and lower case. -/
inductive Derivation where
  | var (name : String) (isName : isName name = true)
  | negation (word : String) (isNot : word.toLower = "not") (part : Derivation)
  | junction (c : Connective) (word : String) (isFunction : word.toLower = c.functionName)
      (first : Derivation) (more : List Derivation)

namespace Derivation

mutual

/-- The tokens that are derived. -/
def tokens : Derivation → List Token
  | var name _ => [.name name]
  | negation word _ part => .name word :: .opening :: (part.tokens ++ [.closing])
  | junction _ word _ first more =>
    .name word :: .opening :: (first.tokens ++ (tokensRest more ++ [.closing]))

/-- The tokens of further arguments, each after a comma. -/
def tokensRest : List Derivation → List Token
  | [] => []
  | d :: ds => .comma :: (d.tokens ++ tokensRest ds)

end

mutual

/-- The formula that is derived.  `And` and `Or` of one argument are that argument. -/
def value : Derivation → Formula String
  | var name _ => .var name
  | negation _ _ part => .not part.value
  | junction c _ _ first more => unlessSingle (Filter.formulaOf c) (first.value :: values more)

/-- The formulas of further arguments. -/
def values : List Derivation → List (Formula String)
  | [] => []
  | d :: ds => d.value :: values ds

end

/-! ## Tokens have one derivation -/

/-- Tokens in front of which a name is a variable. -/
def NoOpening (ts : List Token) : Prop := ts.head? ≠ some .opening

theorem noOpening_closing (ts : List Token) : NoOpening (.closing :: ts) := by simp [NoOpening]

theorem noOpening_tokensRest (ds : List Derivation) (ts : List Token) :
    NoOpening (tokensRest ds ++ .closing :: ts) := by
  cases ds <;> simp [tokensRest, NoOpening]

theorem functionName_ne_not (c : Connective) : c.functionName ≠ "not" := by
  cases c <;> simp [Connective.functionName]

theorem functionName_injective {c d : Connective} (h : c.functionName = d.functionName) :
    c = d := by
  cases c <;> cases d <;> simp [Connective.functionName] at h ⊢

mutual

/-- What follows a derivation does not belong to it, if it does not start with an opening
parenthesis.  So tokens in front of such a rest are derived in one way. -/
theorem tokens_append_inj : ∀ (d e : Derivation) {ts us : List Token}, NoOpening ts →
    NoOpening us → d.tokens ++ ts = e.tokens ++ us → d = e ∧ ts = us
  | var name _, e, ts, us, hts, _, h => by
    cases e with
    | var =>
      simp only [tokens, List.cons_append, List.nil_append, List.cons.injEq, Token.name.injEq] at h
      obtain ⟨rfl, rfl⟩ := h
      exact ⟨rfl, rfl⟩
    | negation | junction =>
      simp only [tokens, List.cons_append, List.nil_append, List.cons.injEq] at h
      exact absurd (by rw [h.2]; rfl) hts
  | negation word hword part, e, ts, us, _, hus, h => by
    cases e with
    | var =>
      simp only [tokens, List.cons_append, List.nil_append, List.cons.injEq] at h
      exact absurd (by rw [← h.2]; rfl) hus
    | negation _ _ part' =>
      simp only [tokens, List.cons_append, List.append_assoc, List.nil_append, List.cons.injEq,
        Token.name.injEq, true_and] at h
      obtain ⟨rfl, h⟩ := h
      obtain ⟨rfl, hrest⟩ := tokens_append_inj part part' (noOpening_closing ts)
        (noOpening_closing us) h
      exact ⟨rfl, (List.cons.inj hrest).2⟩
    | junction c _ hword' _ _ =>
      simp only [tokens, List.cons_append, List.cons.injEq, Token.name.injEq] at h
      rw [h.1, hword'] at hword
      exact absurd hword (functionName_ne_not c)
  | junction c word hword first more, e, ts, us, _, hus, h => by
    cases e with
    | var =>
      simp only [tokens, List.cons_append, List.nil_append, List.cons.injEq] at h
      exact absurd (by rw [← h.2]; rfl) hus
    | negation _ hword' _ =>
      simp only [tokens, List.cons_append, List.cons.injEq, Token.name.injEq] at h
      rw [h.1, hword'] at hword
      exact absurd hword.symm (functionName_ne_not c)
    | junction c' _ hword' first' more' =>
      simp only [tokens, List.cons_append, List.append_assoc, List.nil_append, List.cons.injEq,
        Token.name.injEq, true_and] at h
      obtain ⟨rfl, h⟩ := h
      obtain rfl := functionName_injective (hword.symm.trans hword')
      obtain ⟨rfl, hrest⟩ := tokens_append_inj first first' (noOpening_tokensRest more ts)
        (noOpening_tokensRest more' us) h
      obtain ⟨rfl, rfl⟩ := tokensRest_append_inj more more' hrest
      exact ⟨rfl, rfl⟩

/-- A closing parenthesis ends the arguments. -/
theorem tokensRest_append_inj : ∀ (ds es : List Derivation) {ts us : List Token},
    tokensRest ds ++ .closing :: ts = tokensRest es ++ .closing :: us → ds = es ∧ ts = us
  | [], [], ts, us, h => ⟨rfl, by simpa [tokensRest] using h⟩
  | [], _ :: _, ts, us, h => by simp [tokensRest] at h
  | _ :: _, [], ts, us, h => by simp [tokensRest] at h
  | d :: ds, e :: es, ts, us, h => by
    simp only [tokensRest, List.cons_append, List.append_assoc, List.cons.injEq, true_and] at h
    obtain ⟨rfl, hrest⟩ := tokens_append_inj d e (noOpening_tokensRest ds ts)
      (noOpening_tokensRest es us) h
    obtain ⟨rfl, rfl⟩ := tokensRest_append_inj ds es hrest
    exact ⟨rfl, rfl⟩

end

theorem tokens_injective {d e : Derivation} (h : d.tokens = e.tokens) : d = e := by
  have hend : NoOpening [] := by simp [NoOpening]
  exact (tokens_append_inj d e hend hend (by rw [h])).1

end Derivation

/-! ## What is derived is read -/

open StreamFilter.Formula.Derivation (tokensRest values NoOpening)

theorem applyName_function {word : String} {c : Connective} (h : word.toLower = c.functionName)
    (offset : Nat) (fs : List (Formula String)) :
    applyName word offset fs = .ok (unlessSingle (Filter.formulaOf c) fs) := by
  cases c <;> simp [applyName, h, Connective.functionName, Filter.formulaOf]

theorem applyName_not {word : String} (h : word.toLower = "not") (offset : Nat)
    (f : Formula String) : applyName word offset [f] = .ok (.not f) := by
  simp [applyName, h]

/-- What a function name makes of its arguments. -/
theorem applyName_cases {word : String} {offset : Nat} {fs : List (Formula String)}
    {f : Formula String} (h : applyName word offset fs = .ok f) :
    (∃ c : Connective, word.toLower = c.functionName ∧
      f = unlessSingle (Filter.formulaOf c) fs) ∨
    word.toLower = "not" ∧ ∃ g, fs = [g] ∧ f = .not g := by
  unfold applyName at h
  dsimp only at h
  split at h
  next hand =>
    cases h
    exact .inl ⟨.and, hand, rfl⟩
  · split at h
    next hor =>
      cases h
      exact .inl ⟨.or, hor, rfl⟩
    · split at h
      next hnot =>
        split at h
        next g =>
          cases h
          exact .inr ⟨hnot, g, rfl, rfl⟩
        · cases h
      · cases h

theorem readExpr_var (stop : Nat) {l : Lexeme} {name : String} (hl : l.token = .name name)
    {rest : List Lexeme} (hrest : NoOpening (rest.map Lexeme.token)) :
    ∃ h, readExpr stop (l :: rest) = .ok (.var name, ⟨rest, h⟩) := by
  obtain ⟨token, offset⟩ := l
  cases hl
  refine ⟨by simp, ?_⟩
  rw [readExpr]
  rintro offset' rest' rfl
  exact hrest rfl

/-- A function is read with its arguments. -/
theorem readExpr_function (stop : Nat) {name opening : Lexeme} {text : String}
    (hname : name.token = .name text) (hopening : opening.token = .opening)
    {ts rest : List Lexeme} {arguments : List (Formula String)} {f : Formula String}
    {h : rest.length < ts.length}
    (hargs : readArguments stop ts = .ok (arguments, ⟨rest, h⟩))
    (happly : ∀ offset, applyName text offset arguments = .ok f) :
    ∃ h, readExpr stop (name :: opening :: ts) = .ok (f, ⟨rest, h⟩) := by
  obtain ⟨token, offset⟩ := name
  obtain ⟨token', offset'⟩ := opening
  cases hname
  cases hopening
  refine ⟨by simp only [List.length_cons]; omega, ?_⟩
  rw [readExpr, hargs]
  simp only [happly]

theorem readArguments_last (stop : Nat) {ts rest : List Lexeme} {f : Formula String}
    {closing : Lexeme} (hclosing : closing.token = .closing)
    {h : (closing :: rest).length < ts.length}
    (hread : readExpr stop ts = .ok (f, ⟨closing :: rest, h⟩)) :
    ∃ h, readArguments stop ts = .ok ([f], ⟨rest, h⟩) := by
  obtain ⟨token, offset⟩ := closing
  cases hclosing
  refine ⟨by simp only [List.length_cons] at h; omega, ?_⟩
  rw [readArguments, hread]

theorem readArguments_comma (stop : Nat) {ts more rest : List Lexeme} {f : Formula String}
    {fs : List (Formula String)} {comma : Lexeme} (hcomma : comma.token = .comma)
    {h : (comma :: more).length < ts.length} {h' : rest.length < more.length}
    (hread : readExpr stop ts = .ok (f, ⟨comma :: more, h⟩))
    (hmore : readArguments stop more = .ok (fs, ⟨rest, h'⟩)) :
    ∃ h, readArguments stop ts = .ok (f :: fs, ⟨rest, h⟩) := by
  obtain ⟨token, offset⟩ := comma
  cases hcomma
  refine ⟨by simp only [List.length_cons] at h; omega, ?_⟩
  rw [readArguments, hread]
  simp only [hmore]

mutual

/-- The tokens of a derivation are read as its value, whatever follows. -/
theorem readExpr_tokens (stop : Nat) : ∀ (d : Derivation) {ls rest : List Lexeme},
    ls.map Lexeme.token = d.tokens → NoOpening (rest.map Lexeme.token) →
      ∃ h, readExpr stop (ls ++ rest) = .ok (d.value, ⟨rest, h⟩)
  | .var name _, ls, rest, hls, hrest => by
    rw [Derivation.tokens] at hls
    obtain ⟨l, _, rfl, hl, hnil⟩ := List.map_eq_cons_iff.1 hls
    rw [List.map_eq_nil_iff.1 hnil, List.singleton_append]
    exact readExpr_var stop hl hrest
  | .negation word hword part, ls, rest, hls, _ => by
    rw [Derivation.tokens] at hls
    obtain ⟨name, _, rfl, hname, hls⟩ := List.map_eq_cons_iff.1 hls
    obtain ⟨opening, _, rfl, hopening, hls⟩ := List.map_eq_cons_iff.1 hls
    obtain ⟨ms, ns, rfl, hms, hns⟩ := List.map_eq_append_iff.1 hls
    obtain ⟨closing, _, rfl, hclosing, hnil⟩ := List.map_eq_cons_iff.1 hns
    rw [List.map_eq_nil_iff.1 hnil, List.cons_append, List.cons_append, List.append_assoc,
      List.singleton_append]
    have hend : NoOpening ((closing :: rest).map Lexeme.token) := by
      simp [NoOpening, hclosing]
    obtain ⟨_, hpart⟩ := readExpr_tokens stop part hms hend
    obtain ⟨_, hargs⟩ := readArguments_last stop hclosing hpart
    exact readExpr_function stop hname hopening hargs fun offset => applyName_not hword offset _
  | .junction c word hword first more, ls, rest, hls, _ => by
    rw [Derivation.tokens] at hls
    obtain ⟨name, _, rfl, hname, hls⟩ := List.map_eq_cons_iff.1 hls
    obtain ⟨opening, _, rfl, hopening, hls⟩ := List.map_eq_cons_iff.1 hls
    obtain ⟨ms, _, rfl, hms, hls⟩ := List.map_eq_append_iff.1 hls
    obtain ⟨ns, _, rfl, hns, hls⟩ := List.map_eq_append_iff.1 hls
    obtain ⟨closing, _, rfl, hclosing, hnil⟩ := List.map_eq_cons_iff.1 hls
    rw [List.map_eq_nil_iff.1 hnil, List.cons_append, List.cons_append, List.append_assoc,
      List.append_assoc, List.singleton_append]
    have hend : NoOpening ((ns ++ closing :: rest).map Lexeme.token) := by
      rw [List.map_append, List.map_cons, hns, hclosing]
      exact Derivation.noOpening_tokensRest more _
    obtain ⟨_, hfirst⟩ := readExpr_tokens stop first hms hend
    obtain ⟨_, hargs⟩ := readArguments_tokensRest stop more hns hclosing hfirst
    exact readExpr_function stop hname hopening hargs fun offset => applyName_function hword offset _

/-- Once an expression is read, further arguments up to a closing parenthesis are read as
their values. -/
theorem readArguments_tokensRest (stop : Nat) : ∀ (ds : List Derivation)
    {ts ls rest : List Lexeme} {closing : Lexeme} {f : Formula String}
    {h : (ls ++ closing :: rest).length < ts.length},
    ls.map Lexeme.token = tokensRest ds → closing.token = .closing →
      readExpr stop ts = .ok (f, ⟨ls ++ closing :: rest, h⟩) →
        ∃ h, readArguments stop ts = .ok (f :: values ds, ⟨rest, h⟩)
  | [], ts, ls, rest, closing, f, h, hls, hclosing, hread => by
    rw [tokensRest] at hls
    obtain rfl := List.map_eq_nil_iff.1 hls
    exact readArguments_last stop hclosing hread
  | d :: ds, ts, ls, rest, closing, f, h, hls, hclosing, hread => by
    rw [tokensRest] at hls
    obtain ⟨comma, _, rfl, hcomma, hls⟩ := List.map_eq_cons_iff.1 hls
    obtain ⟨ms, ns, rfl, hms, hns⟩ := List.map_eq_append_iff.1 hls
    have hend : NoOpening ((ns ++ closing :: rest).map Lexeme.token) := by
      rw [List.map_append, List.map_cons, hns, hclosing]
      exact Derivation.noOpening_tokensRest ds _
    obtain ⟨_, hnext⟩ := readExpr_tokens stop d hms hend
    obtain ⟨_, hmore⟩ := readArguments_tokensRest stop ds hns hclosing hnext
    simp only [List.cons_append, List.append_assoc] at hread
    exact readArguments_comma stop hcomma hread hmore

end

/-! ## What is read is derived -/

/-- An expression is a call or a variable. -/
theorem readExpr_cases {stop : Nat} {ts : List Lexeme} {f : Formula String} {left : Shorter ts}
    (h : readExpr stop ts = .ok (f, left)) :
    (∃ name offset offset' rest arguments remains,
      ts = ⟨.name name, offset⟩ :: ⟨.opening, offset'⟩ :: rest ∧
        readArguments stop rest = .ok (arguments, remains) ∧
        applyName name offset arguments = .ok f ∧ left.1 = remains.1) ∨
    ∃ name offset rest, ts = ⟨.name name, offset⟩ :: rest ∧ f = .var name ∧ left.1 = rest := by
  rw [readExpr.eq_def] at h
  split at h
  next name offset offset' rest =>
    split at h
    · cases h
    next arguments remains hargs =>
      split at h
      · cases h
      next g happly =>
        cases h
        exact .inl ⟨name, offset, offset', rest, arguments, remains, rfl, hargs, happly, rfl⟩
  next name offset rest _ =>
    cases h
    exact .inr ⟨name, offset, rest, rfl, rfl, rfl⟩
  next => cases h

/-- Arguments are an expression with a closing parenthesis or with a comma and more. -/
theorem readArguments_cases {stop : Nat} {ts : List Lexeme} {fs : List (Formula String)}
    {left : Shorter ts} (h : readArguments stop ts = .ok (fs, left)) :
    ∃ f remains offset, readExpr stop ts = .ok (f, remains) ∧
      ((remains.1 = ⟨.closing, offset⟩ :: left.1 ∧ fs = [f]) ∨
        ∃ rest gs more, remains.1 = ⟨.comma, offset⟩ :: rest ∧
          readArguments stop rest = .ok (gs, more) ∧ fs = f :: gs ∧ left.1 = more.1) := by
  rw [readArguments.eq_def] at h
  split at h
  · cases h
  next f offset rest hlt hread =>
    dsimp only at h
    split at h
    · cases h
    next gs more hmore =>
      cases h
      exact ⟨f, _, offset, hread, .inr ⟨rest, gs, more, rfl, hmore, rfl, rfl⟩⟩
  next f offset rest hlt hread =>
    cases h
    exact ⟨f, _, offset, hread, .inl ⟨rfl, rfl⟩⟩
  next => cases h

/-- A call of a function on derived arguments is derived. -/
theorem exists_derivation_of_applyName {word : String} {offset : Nat} {first : Derivation}
    {more : List Derivation} {f : Formula String}
    (h : applyName word offset (first.value :: values more) = .ok f) :
    ∃ d : Derivation, d.value = f ∧
      d.tokens = .name word :: .opening :: (first.tokens ++ (tokensRest more ++ [.closing])) := by
  obtain ⟨c, hword, rfl⟩ | ⟨hword, g, hsingle, rfl⟩ := applyName_cases h
  · exact ⟨.junction c word hword first more, by rw [Derivation.value], by rw [Derivation.tokens]⟩
  · obtain ⟨hfirst, hmore⟩ := List.cons.inj hsingle
    cases more with
    | nil =>
      refine ⟨.negation word hword first, by rw [Derivation.value, hfirst], ?_⟩
      rw [Derivation.tokens, tokensRest, List.nil_append]
    | cons _ _ => simp [values] at hmore

mutual

/-- The tokens that are read as an expression have a derivation with its value. -/
theorem exists_derivation_of_readExpr (stop : Nat) (ts : List Lexeme)
    (hts : Names (ts.map Lexeme.token)) {f : Formula String} {left : Shorter ts}
    (h : readExpr stop ts = .ok (f, left)) :
    ∃ d : Derivation, d.value = f ∧
      ts.map Lexeme.token = d.tokens ++ left.1.map Lexeme.token := by
  rcases readExpr_cases h with ⟨name, offset, offset', rest, arguments, remains, rfl, hargs, happly,
    hleft⟩ | ⟨name, offset, rest, rfl, rfl, hleft⟩
  · have hrest : Names (rest.map Lexeme.token) := hts.mono (by simp)
    obtain ⟨first, more, rfl, hrest⟩ := exists_derivation_of_readArguments stop rest hrest hargs
    obtain ⟨d, hvalue, htokens⟩ := exists_derivation_of_applyName happly
    refine ⟨d, hvalue, ?_⟩
    rw [htokens, hleft]
    simp [hrest]
  · have hname : isName name = true := hts name (by simp)
    refine ⟨.var name hname, by rw [Derivation.value], ?_⟩
    rw [hleft, Derivation.tokens]
    rfl
termination_by (ts.length, 0)

theorem exists_derivation_of_readArguments (stop : Nat) (ts : List Lexeme)
    (hts : Names (ts.map Lexeme.token)) {fs : List (Formula String)} {left : Shorter ts}
    (h : readArguments stop ts = .ok (fs, left)) :
    ∃ (first : Derivation) (more : List Derivation), first.value :: values more = fs ∧
      ts.map Lexeme.token =
        first.tokens ++ (tokensRest more ++ .closing :: left.1.map Lexeme.token) := by
  obtain ⟨f, remains, offset, hread, hend⟩ := readArguments_cases h
  obtain ⟨first, rfl, htokens⟩ := exists_derivation_of_readExpr stop ts hts hread
  rcases hend with ⟨hclosing, rfl⟩ | ⟨rest, gs, more, hcomma, hmore, rfl, hleft⟩
  · refine ⟨first, [], by rw [values], ?_⟩
    rw [htokens, hclosing, tokensRest]
    rfl
  · have hlt : rest.length < ts.length := by
      have hlength := remains.2
      rw [hcomma, List.length_cons] at hlength
      omega
    have hrest : Names (rest.map Lexeme.token) := by
      refine hts.mono ?_
      rw [htokens, hcomma]
      simp
    obtain ⟨second, others, rfl, hothers⟩ :=
      exists_derivation_of_readArguments stop rest hrest hmore
    refine ⟨first, second :: others, by rw [values], ?_⟩
    rw [htokens, hcomma, hleft, tokensRest]
    simp [hothers]
termination_by (ts.length, 1)

end

/-! ## Reading formula text -/

theorem ofScanned_eq_ok_iff {s : Scanned} {f : Formula String} :
    ofScanned s = .ok f ↔ ∃ h, readExpr s.stop s.lexemes = .ok (f, ⟨[], h⟩) := by
  obtain ⟨lexemes, stop⟩ := s
  cases lexemes with
  | nil => simp [ofScanned]
  | cons l ls =>
    unfold ofScanned
    dsimp only
    constructor
    · intro h
      split at h
      · cases h
      next g hlt hread =>
        cases h
        exact ⟨hlt, hread⟩
      · cases h
    · rintro ⟨_, hread⟩
      rw [hread]

theorem ofScanned_eq_ok_iff_derivation {s : Scanned} (hs : Names (s.lexemes.map Lexeme.token))
    {f : Formula String} :
    ofScanned s = .ok f ↔ ∃ d : Derivation, s.lexemes.map Lexeme.token = d.tokens ∧ d.value = f := by
  rw [ofScanned_eq_ok_iff]
  constructor
  · rintro ⟨_, hread⟩
    obtain ⟨d, hvalue, htokens⟩ := exists_derivation_of_readExpr _ _ hs hread
    exact ⟨d, by simpa using htokens, hvalue⟩
  · rintro ⟨d, htokens, rfl⟩
    have hend : NoOpening (([] : List Lexeme).map Lexeme.token) := by simp [NoOpening]
    have hread := readExpr_tokens s.stop d htokens hend
    rwa [List.append_nil] at hread

/-- A formula is read from a text exactly if the trimmed text spells a derivation of it. -/
theorem parse_eq_ok_iff {text : String} {f : Formula String} :
    parse text = .ok f ↔
      ∃ d : Derivation, Spells (Text.trim text).toList d.tokens ∧ d.value = f := by
  unfold parse
  cases hscan : scan (Text.trim text) with
  | error e =>
    refine iff_of_false (by simp) ?_
    rintro ⟨d, hspells, -⟩
    obtain ⟨s, hs, -⟩ := (spells_iff 0).1 hspells
    rw [scan_eq, hs] at hscan
    cases hscan
  | ok s =>
    have hspells : Spells (Text.trim text).toList (s.lexemes.map Lexeme.token) :=
      (spells_iff 0).2 ⟨s, (scan_eq _).symm.trans hscan, rfl⟩
    dsimp only
    rw [ofScanned_eq_ok_iff_derivation hspells.names]
    refine exists_congr fun d => and_congr_left fun _ => ?_
    constructor
    · exact fun htokens => htokens ▸ hspells
    · exact fun hd => hspells.unique hd

/-- The reader accepts exactly the grammar: it returns a formula if and only if the text,
without blanks around it, spells a derivation of that formula.  There is at most one
derivation that the text spells. -/
theorem parse_iff_derivation (text : String) :
    (∀ f, parse text = .ok f ↔
      ∃ d : Derivation, Spells (Text.trim text).toList d.tokens ∧ d.value = f) ∧
    ∀ d e : Derivation, Spells (Text.trim text).toList d.tokens →
      Spells (Text.trim text).toList e.tokens → d = e := by
  refine ⟨fun f => parse_eq_ok_iff, ?_⟩
  intro d e hd he
  exact Derivation.tokens_injective (hd.unique he)

/-- `Not` of a variable that is called like a function. -/
def notAnd : Derivation := .negation "nOT" (by decide +kernel) (.var "And" (by decide))

theorem spells_notAnd : Spells (Text.trim "\u00a0nOT (And\t)\n").toList notAnd.tokens := by
  have htrim : (Text.trim "\u00a0nOT (And\t)\n").toList =
      "nOT".toList ++ ' ' :: '(' :: ("And".toList ++ ['\t', ')']) := by decide +kernel
  have hend : Spells ['\t', ')'] [.closing] := .separator (by decide) (.closing .nil)
  have hname : Spells ("And".toList ++ ['\t', ')']) [.name "And", .closing] :=
    .name (by decide) (by simp [Ends]; decide) hend
  rw [htrim]
  exact .name (by decide) (by simp [Ends]; decide) (.separator (by decide) (.opening hname))

/-- A function name is one in any case and across blanks, and a variable where no
parenthesis follows. -/
theorem parse_iff_derivation_spaced :
    parse "\u00a0nOT (And\t)\n" = .ok (.not (.var "And")) ∧
      Spells (Text.trim "\u00a0nOT (And\t)\n").toList notAnd.tokens ∧
      ∀ d : Derivation, Spells (Text.trim "\u00a0nOT (And\t)\n").toList d.tokens → d = notAnd := by
  refine ⟨((parse_iff_derivation _).1 _).2 ⟨notAnd, spells_notAnd, rfl⟩, spells_notAnd, ?_⟩
  intro d hd
  exact (parse_iff_derivation _).2 d notAnd hd spells_notAnd

end Formula

end StreamFilter
