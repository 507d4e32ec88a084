import StreamFilter.Number.Read
import StreamFilter.Yaml.Parse
import StreamFilter.Yaml.Version12.Token
set_option autoImplicit false

/-!
# Values of YAML 1.2

A plain scalar may be a number, a truth value or nothing, and a tag may say what it is.
Whole numbers are those of 64 bits with sign.  The keys of a table have to be different.
An alias stands for the value of the node with its anchor, which has to come before.
-/

namespace StreamFilter.Yaml

mutual

/-- Whether two values are the same. -/
def Value.same : Value → Value → Bool
  | .null, .null => true
  | .bool a, .bool b => a == b
  | .natural m, .natural n => m == n
  | .negative m, .negative n => m == n
  | .real a, .real b => a == b
  | .text a, .text b => a == b
  | .list as, .list bs => sameItems as bs
  | .table as, .table bs => sameEntries as bs
  | _, _ => false

/-- Whether two lists of values are the same. -/
def sameItems : List Value → List Value → Bool
  | [], [] => true
  | a :: as, b :: bs => a.same b && sameItems as bs
  | _, _ => false

/-- Whether two lists of entries are the same. -/
def sameEntries : List (Value × Value) → List (Value × Value) → Bool
  | [], [] => true
  | (k, v) :: as, (l, w) :: bs => k.same l && v.same w && sameEntries as bs
  | _, _ => false

end

namespace Version12

/-! ## Scalars -/

/-- A whole number as a value. -/
def ofInt : Int → Value
  | .ofNat n => .natural n
  | .negSucc n => .negative (n + 1)

/-- The whole number of 64 bits that digits of a base spell, perhaps after a sign. -/
def signedInBase? (base : Nat) (cs : List Char) : Option Int := do
  let (negative, digits) := Number.takeSign cs
  let value := Number.signed negative (← inBase? base digits)
  if Number.isSigned value then some value else none

/-- The whole number that characters spell: a sign may follow the letter of a base or a
plus sign. -/
def whole? (cs : List Char) : Option Int :=
  let other := match cs with
    | '0' :: 'x' :: digits => signedInBase? 16 digits
    | '0' :: 'o' :: digits => signedInBase? 8 digits
    | '+' :: digits => Number.ofSigned? digits
    | _ => none
  other.or (Number.ofSigned? cs)

/-- Whether characters spell a number that is not whole: a word for an infinity or for no
number, or a float with a digit. -/
def isReal (cs : List Char) : Bool :=
  [".inf", ".Inf", ".INF", "+.inf", "+.Inf", "+.INF", "-.inf", "-.Inf", "-.INF", ".nan", ".NaN",
    ".NAN"].contains (String.ofList cs) ||
    (cs.any Number.isDigit && (Number.ofFloat? cs).isSome)

/-- What a plain scalar is. -/
def resolve (text : String) : Value :=
  if ["", "~", "null"].contains text then .null
  else if ["true", "True", "TRUE"].contains text then .bool true
  else if ["false", "False", "FALSE"].contains text then .bool false
  else
    match whole? text.toList with
    | some n => ofInt n
    | none => if isReal text.toList then .real text else .text text

/-- What a scalar with a tag is, if it is that.  Only the tags of YAML itself count, and
only for plain scalars. -/
def scalarValue? (tag : Option Tag) (style : Style) (text : String) : Option Value :=
  match style, tag with
  | .plain, none => some (resolve text)
  | .plain, some ⟨space, name⟩ =>
    if space ≠ coreSpace then some (.text text)
    else if name = "bool" then
      if text = "true" then some (.bool true)
      else if text = "false" then some (.bool false)
      else none
    else if name = "int" then (Number.ofSigned? text.toList).map ofInt
    else if name = "float" then if isReal text.toList then some (.real text) else none
    else if name = "null" then if text = "~" ∨ text = "null" then some .null else none
    else some (.text text)
  | _, _ => some (.text text)

/-! ## Anchors -/

/-- The anchors that have been met, and the values of those whose nodes are complete.  A
value is missing if the scalar does not fit its tag. -/
structure Known where
  count : Nat := 0
  names : List (String × Nat) := []
  values : List (Nat × Option Value) := []
  deriving Repr, Inhabited

namespace Known

/-- Meets the name of an anchor. -/
def meet (name : Option String) (k : Known) : Known :=
  match name with
  | none => k
  | some name => { k with count := k.count + 1, names := (name, k.count) :: k.names }

/-- Keeps the value of an anchor that was met as the one with a number. -/
def keep (name : Option String) (number : Nat) (value : Option Value) (k : Known) : Known :=
  match name with
  | none => k
  | some _ => { k with values := (number, value) :: k.values }

end Known

/-! ## Values -/

/-- The entries of a table whose keys and values come in turn.  A missing value is taken
for no key, and the next one counts as the key in its place. -/
def entries? (entries : List (Value × Value)) (key : Option Value) :
    List (Option Value) → Option (List (Value × Value))
  | [] => some entries.reverse
  | value :: values =>
    match key with
    | none => entries? entries value values
    | some key =>
      if entries.any (·.1.same key) then none
      else entries? ((key, value.getD .null) :: entries) none values

mutual

/-- The value of a node, if it fits its tag. -/
def valueOf (k : Known) : Node String → Option (Option Value × Known)
  | .alias name => (k.names.lookup name).map fun number => ((k.values.lookup number).join, k)
  | .scalar p style text =>
    let value := scalarValue? p.tag style text
    some (value, (k.meet p.anchor).keep p.anchor k.count value)
  | .list p items =>
    match valuesOf (k.meet p.anchor) items with
    | none => none
    | some (values, inner) =>
      let value := some (Value.list (values.map (·.getD .null)))
      some (value, inner.keep p.anchor k.count value)
  | .table p entries =>
    match partsOf (k.meet p.anchor) entries with
    | none => none
    | some (parts, inner) =>
      match entries? [] none parts with
      | none => none
      | some entries =>
        let value := some (Value.table entries)
        some (value, inner.keep p.anchor k.count value)

/-- The values of nodes. -/
def valuesOf (k : Known) : List (Node String) → Option (List (Option Value) × Known)
  | [] => some ([], k)
  | item :: items =>
    match valueOf k item with
    | none => none
    | some (value, k) =>
      match valuesOf k items with
      | none => none
      | some (values, k) => some (value :: values, k)

/-- The values of the keys and values of entries in turn. -/
def partsOf (k : Known) : List (Node String × Node String) → Option (List (Option Value) × Known)
  | [] => some ([], k)
  | (key, node) :: entries =>
    match valueOf k key with
    | none => none
    | some (key, k) =>
      match valueOf k node with
      | none => none
      | some (value, k) =>
        match partsOf k entries with
        | none => none
        | some (parts, k) => some (key :: value :: parts, k)

end

/-! ## Documents -/

/-- The handle that the last directive declares, if it does.  The version may be given
once. -/
def handles? (ts : List Token) : Option (List (String × String)) :=
  let versions := ts.filter fun t => match t with
    | .version .. => true
    | _ => false
  if 1 < versions.length then none
  else
    match ts.getLast? with
    | some (.handle name space) => some [(name, space)]
    | _ => some []

/-- The grammar of version 1.2. -/
def grammar : Grammar where
  bareValues := true
  leadingEnds := true
  handles? := handles?

/-- The value of the only document in a text, if there is one. -/
def parse (text : String) : Option (Option Value) := do
  match ← document? grammar (← tokens? text) with
  | none => return none
  | some node =>
    let (value, _) ← valueOf {} node
    return some (value.getD .null)

end Version12

end StreamFilter.Yaml
