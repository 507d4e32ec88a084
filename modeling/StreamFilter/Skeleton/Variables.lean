import Std.Data.String.ToNat
import Std.Data.TreeMap
import StreamFilter.Filter.Basic
set_option autoImplicit false

/-!
# The variables of a skeleton

Each atom of a filter gets a variable, named `v1`, `v2`, ... in the order in
which atoms are first registered.  Atoms with one text share a variable.

The variables stand in a vector, and two indexes lead to their places, one from
names and one from texts (`VariableIndex`).  Registering an atom keeps the three in
agreement (`VariableIndex.Agree.register`), so `Variables` are held together with
that agreement, and looking up through an index is searching the vector
(`Variables.find?_eq`, `Variables.nameOf?_eq`).
-/

namespace StreamFilter

/-- A variable and what it stands for. -/
structure Variable where
  name : String
  /-- The text of the atom. -/
  text : String
  /-- The filter that states the atom. -/
  stated : Filter
  /-- The filter that denies it. -/
  denied : Filter
  deriving DecidableEq, Repr, Inhabited

/-- The name of the variable at a position. -/
def Variables.nameAt (position : Nat) : String := "v" ++ (position + 1).repr

theorem Variables.nameAt_injective {i j : Nat} (h : nameAt i = nameAt j) : i = j := by
  have hdigits : (i + 1).repr = (j + 1).repr := by
    have hchars := congrArg String.toList h
    rw [nameAt, nameAt, String.toList_append, String.toList_append, List.append_cancel_left_eq]
      at hchars
    exact String.toList_inj.1 hchars
  have hsucc := Nat.repr_injective hdigits
  omega

/-! ## The vector and its indexes -/

/-- Variables in the order of registration, and where each of them stands: by its name and
by its text. -/
structure VariableIndex where
  vector : Array Variable := #[]
  byName : Std.TreeMap String Nat := {}
  byText : Std.TreeMap String Nat := {}
  deriving Repr, Inhabited

namespace VariableIndex

/-- The variables registered so far, in order. -/
def entries (m : VariableIndex) : List Variable := m.vector.toList

/-- The number of variables. -/
def size (m : VariableIndex) : Nat := m.vector.size

theorem size_eq (m : VariableIndex) : m.size = m.entries.length := Array.length_toList.symm

/-- The variable with a name. -/
def find? (m : VariableIndex) (name : String) : Option Variable :=
  m.byName[name]?.bind fun place => m.vector[place]?

/-- The name of the variable for an atom text. -/
def nameOf? (m : VariableIndex) (text : String) : Option String :=
  m.byText[text]?.bind fun place => m.vector[place]?.map (·.name)

/-- Adds a variable at the end of the vector and to both indexes. -/
def push (m : VariableIndex) (x : Variable) : VariableIndex where
  vector := m.vector.push x
  byName := m.byName.insert x.name m.vector.size
  byText := m.byText.insert x.text m.vector.size

/-- The name for an atom, and the variables with it.  An atom whose text is known
keeps its variable. -/
def register (m : VariableIndex) (text : String) (stated denied : Filter) :
    String × VariableIndex :=
  match m.nameOf? text with
  | some name => (name, m)
  | none =>
    let name := Variables.nameAt m.size
    (name, m.push ⟨name, text, stated, denied⟩)

variable {m : VariableIndex} {name text : String}

/-- A known text keeps its variable, and nothing changes. -/
theorem register_of_known (h : m.nameOf? text = some name) (stated denied : Filter) :
    m.register text stated denied = (name, m) := by
  simp only [register, h]

/-- A new text gets the next name, and its variable is added. -/
theorem register_of_new (h : m.nameOf? text = none) (stated denied : Filter) :
    m.register text stated denied =
      (Variables.nameAt m.size, m.push ⟨Variables.nameAt m.size, text, stated, denied⟩) := by
  simp only [register, h]

/-- A vector of variables named by their places, and indexes that lead from every name and
every text to the place where it stands, and from nothing else. -/
structure Agree (m : VariableIndex) : Prop where
  names : ∀ (i : Nat) (x : Variable), m.vector[i]? = some x → x.name = Variables.nameAt i
  byName : ∀ (name : String) (i : Nat), m.byName[name]? = some i ↔
    ∃ x, m.vector[i]? = some x ∧ x.name = name
  byText : ∀ (text : String) (i : Nat), m.byText[text]? = some i ↔
    ∃ x, m.vector[i]? = some x ∧ x.text = text

theorem agree_empty : Agree {} := ⟨by simp, by simp, by simp⟩

/-- An index by a key that agrees with a vector does so with one variable more. -/
theorem index_push {index : Std.TreeMap String Nat} {vector : Array Variable}
    {key : Variable → String} {x : Variable}
    (h : ∀ (k : String) (i : Nat), index[k]? = some i ↔ ∃ y, vector[i]? = some y ∧ key y = k)
    (hnew : ∀ (i : Nat) (y : Variable), vector[i]? = some y → key y ≠ key x) (k : String)
    (i : Nat) : (index.insert (key x) vector.size)[k]? = some i ↔
      ∃ y, (vector.push x)[i]? = some y ∧ key y = k := by
  simp only [Std.TreeMap.getElem?_insert, Std.compare_eq_iff_eq, Array.getElem?_push]
  by_cases hk : key x = k
  · subst hk
    rw [if_pos rfl, Option.some_inj]
    constructor
    · rintro rfl
      exact ⟨x, if_pos rfl, rfl⟩
    · rintro ⟨y, hy, hkey⟩
      split at hy
      next hi => exact hi.symm
      next => exact absurd hkey (hnew i y hy)
  · rw [if_neg hk, h]
    constructor
    · rintro ⟨y, hy, hkey⟩
      have hi : i ≠ vector.size := Nat.ne_of_lt (Array.getElem?_eq_some_iff.1 hy).1
      exact ⟨y, by rwa [if_neg hi], hkey⟩
    · rintro ⟨y, hy, hkey⟩
      split at hy
      · exact absurd (by rw [Option.some.inj hy, hkey]) hk
      · exact ⟨y, hy, hkey⟩

/-- A variable that has the next name and a new text may be added. -/
theorem Agree.push (h : m.Agree) {x : Variable}
    (hname : x.name = Variables.nameAt m.size)
    (htext : ∀ (i : Nat) (y : Variable), m.vector[i]? = some y → y.text ≠ x.text) :
    (m.push x).Agree := by
  refine ⟨?_, index_push h.byName ?_, index_push h.byText htext⟩
  · intro i y hi
    rw [VariableIndex.push, Array.getElem?_push] at hi
    split at hi
    next hlast => rw [← Option.some.inj hi, hname, hlast, size]
    next => exact h.names i y hi
  · intro i y hi hsame
    rw [h.names i y hi, hname] at hsame
    have hlt : i < m.size := (Array.getElem?_eq_some_iff.1 hi).1
    exact Nat.ne_of_lt hlt (Variables.nameAt_injective hsame)

/-- Registering an atom keeps the vector and its indexes in agreement. -/
theorem Agree.register (h : m.Agree) (text : String) (stated denied : Filter) :
    (m.register text stated denied).2.Agree := by
  cases hname : m.nameOf? text with
  | some name => rwa [register_of_known hname]
  | none =>
    rw [register_of_new hname]
    refine h.push rfl fun i y hi htext => ?_
    have hplace : m.byText[text]? = some i := (h.byText text i).2 ⟨y, hi, htext⟩
    rw [nameOf?, hplace, Option.bind_some, hi] at hname
    cases hname

end VariableIndex

/-! ## Variables that can be looked up -/

/-- The variables registered so far, with indexes that agree with them. -/
structure Variables extends VariableIndex where
  agree : toVariableIndex.Agree
  deriving Repr

namespace Variables

instance : EmptyCollection Variables := ⟨⟨{}, VariableIndex.agree_empty⟩⟩

instance : Inhabited Variables := ⟨{}⟩

/-- The name for an atom, and the variables with it. -/
def register (vs : Variables) (text : String) (stated denied : Filter) : String × Variables :=
  let r := vs.toVariableIndex.register text stated denied
  (r.1, ⟨r.2, vs.agree.register text stated denied⟩)

/-- The name for the atom of a triple. -/
def registerTriple (vs : Variables) (text : String) (t : Triple) : String × Variables :=
  vs.register text (.condition (Filter.ofTriple t)) (.not (Filter.ofTriple t))

variable {vs : Variables} {name text : String}

@[simp] theorem entries_empty : ({} : Variables).entries = [] := rfl

@[simp] theorem size_empty : ({} : Variables).size = 0 := rfl

/-- What an index leads to is what a search finds. -/
theorem bind_place_eq {place : Option Nat} {vector : Array Variable} {p : Variable → Bool}
    (h : ∀ i, place = some i ↔ ∃ x, vector[i]? = some x ∧ p x = true) :
    (place.bind fun i => vector[i]?) = vector.toList.find? p := by
  cases hfind : vector.toList.find? p with
  | none =>
    cases place with
    | none => rfl
    | some i =>
      obtain ⟨x, hx, hp⟩ := (h i).1 rfl
      have hmem : x ∈ vector.toList := Array.mem_toList_iff.2 (Array.mem_of_getElem? hx)
      exact absurd hp (List.find?_eq_none.1 hfind x hmem)
  | some x =>
    obtain ⟨i, hi⟩ := List.mem_iff_getElem?.1 (List.mem_of_find?_eq_some hfind)
    rw [Array.getElem?_toList] at hi
    rw [(h i).2 ⟨x, hi, List.find?_some hfind⟩]
    exact hi

theorem find?_eq (vs : Variables) (name : String) :
    vs.find? name = vs.entries.find? (·.name == name) :=
  bind_place_eq fun i => by simpa using vs.agree.byName name i

theorem nameOf?_eq (vs : Variables) (text : String) :
    vs.nameOf? text = (vs.entries.find? (·.text == text)).map (·.name) := by
  rw [VariableIndex.entries, ← bind_place_eq fun i => by simpa using vs.agree.byText text i,
    Option.map_bind]
  rfl

theorem register_of_known (h : vs.nameOf? text = some name) (stated denied : Filter) :
    vs.register text stated denied = (name, vs) := by
  simp only [register, VariableIndex.register_of_known h]

/-- A new text gets the next name and is added at the end. -/
theorem register_of_new (h : vs.nameOf? text = none) (stated denied : Filter) :
    (vs.register text stated denied).1 = nameAt vs.size ∧
      (vs.register text stated denied).2.entries =
        vs.entries ++ [⟨nameAt vs.size, text, stated, denied⟩] := by
  simp only [register, VariableIndex.register_of_new h, VariableIndex.push, VariableIndex.entries,
    Array.toList_push, and_self]

end Variables

end StreamFilter
