import StreamFilter.Shorter
import StreamFilter.Yaml.Token
set_option autoImplicit false

/-!
# Nodes of YAML tokens

The grammar of nodes.  Where a list or a table has a place for a node, it may be missing
and is then empty.  A reader returns what it leaves of the tokens, with the fact that it
took some where that is certain.
-/

namespace StreamFilter.Yaml

/-- What a version of YAML admits. -/
structure Grammar where
  /-- Whether a table may have a value without a key. -/
  bareValues : Bool
  /-- Whether marks for the end of a document may stand in front of it. -/
  leadingEnds : Bool
  /-- The handles of tags that directives declare, or nothing if these do not fit
  together. -/
  handles? : List Token → Option (List (String × String))

/-! ## Properties -/

/-- The tag with a handle and a name. -/
def resolveTag? (handles : List (String × String)) (handle name : String) : Option Tag :=
  match handles.lookup handle with
  | some space => some ⟨space, name⟩
  | none =>
    if handle = "!!" then some ⟨coreSpace, name⟩
    else if 1 < handle.length then none
    else some ⟨handle, name⟩

/-- Reads the properties in front of a node, if there are any: an anchor, a tag, or
both. -/
def readProperties (handles : List (String × String)) (ts : List Token) :
    Option (Option (Properties × Shorter ts)) :=
  match ts with
  | .anchor anchor :: .tag handle name :: rest => do
    let tag ← resolveTag? handles handle name
    return some (⟨anchor, tag⟩, Shorter.behind (.anchor anchor) [.tag handle name] rest)
  | .tag handle name :: .anchor anchor :: rest => do
    let tag ← resolveTag? handles handle name
    return some (⟨anchor, tag⟩, Shorter.behind (.tag handle name) [.anchor anchor] rest)
  | .anchor anchor :: rest => some (some (⟨anchor, none⟩, Shorter.behind (.anchor anchor) [] rest))
  | .tag handle name :: rest => do
    let tag ← resolveTag? handles handle name
    return some (⟨none, tag⟩, Shorter.behind (.tag handle name) [] rest)
  | _ => some none

/-! ## Places without a node -/

/-- Where a node stands. -/
inductive Place where
  /-- By itself. -/
  | root
  /-- Behind the dash of an item in a block. -/
  | item
  /-- Behind the dash of an item of a list that stands below its key. -/
  | itemBelow
  /-- A key or a value in a block. -/
  | part
  /-- In a collection on a line; some tokens there end the place. -/
  | flow (ends : List Token)
  deriving Repr, Inhabited

namespace Place

/-- Whether a place is empty because of the next token. -/
def isEmpty (place : Place) (next : Token) : Bool :=
  let ends : List Token := match place with
    | root => []
    | item => [.blockEntry, .blockEnd]
    | itemBelow => [.blockEntry, .key, .value, .blockEnd]
    | part => [.key, .value, .blockEnd]
    | flow ends => ends
  ends.contains next

/-- Whether a place has blocks. -/
def hasBlocks : Place → Bool
  | flow _ => false
  | _ => true

/-- Whether the dashes of a list may stand at the indentation of the place. -/
def hasListBelow : Place → Bool
  | part => true
  | _ => false

end Place

/-- What is left behind a node, without the token that made its place empty. -/
def skipEnd {ts : List Token} (place : Place) (left : NoLonger ts) : NoLonger ts :=
  if ts.head?.any place.isEmpty then NoLonger.drop 1 ts else left

/-! ## Nodes -/

mutual

/-- Reads the content of a node with properties, if one starts here. -/
def readContent (g : Grammar) (handles : List (String × String)) (place : Place)
    (p : Properties) (ts : List Token) : Option (Option (Node String × Shorter ts)) :=
  match ts with
  | .scalar style text :: rest =>
    some (some (.scalar p style text, Shorter.behind (.scalar style text) [] rest))
  | .flowListStart :: rest =>
    match readFlowItems g handles true rest with
    | some (items, left) => some (some (.list p items, Shorter.ofTail _ left))
    | none => none
  | .flowTableStart :: rest =>
    match readFlowEntries g handles true rest with
    | some (entries, left) => some (some (.table p entries, Shorter.ofTail _ left))
    | none => none
  | .blockListStart :: rest =>
    if place.hasBlocks then
      match readBlockItems g handles rest with
      | some (items, left) => some (some (.list p items, Shorter.ofTail _ left))
      | none => none
    else some none
  | .blockTableStart :: rest =>
    if place.hasBlocks then
      match readBlockEntries g handles rest with
      | some (entries, left) => some (some (.table p entries, Shorter.ofTail _ left))
      | none => none
    else some none
  | .blockEntry :: rest =>
    if place.hasListBelow then
      match readItemsBelow g handles rest with
      | some (items, left) => some (some (.list p items, Shorter.ofTail _ left))
      | none => none
    else some none
  | _ => some none
termination_by 4 * ts.length

/-- Reads a node. -/
def readNode (g : Grammar) (handles : List (String × String)) (place : Place)
    (ts : List Token) : Option (Node String × Shorter ts) :=
  match ts with
  | .alias name :: rest => some (.alias name, Shorter.behind (.alias name) [] rest)
  | ts =>
    match readProperties handles ts with
    | none => none
    | some none =>
      match readContent g handles place {} ts with
      | some (some (node, left)) => some (node, left)
      | _ => none
    | some (some (p, ⟨inner, h⟩)) =>
      match readContent g handles place p inner with
      | some (some (node, ⟨left, h'⟩)) => some (node, ⟨left, Nat.lt_trans h' h⟩)
      | some none => some (.empty p, ⟨inner, h⟩)
      | none => none
termination_by 4 * ts.length + 1

/-- Reads the node at a place that may be empty. -/
def readPlace (g : Grammar) (handles : List (String × String)) (place : Place)
    (ts : List Token) : Option (Node String × NoLonger ts) :=
  if ts.head?.any place.isEmpty then some (.empty {}, ⟨ts, Nat.le_refl _⟩)
  else
    match readNode g handles place ts with
    | some (node, ⟨left, h⟩) => some (node, ⟨left, Nat.le_of_lt h⟩)
    | none => none
termination_by 4 * ts.length + 2

/-- Reads the value behind a key, if there is one. -/
def readValue (g : Grammar) (handles : List (String × String)) (place : Place)
    (ts : List Token) : Option (Node String × NoLonger ts) :=
  match ts with
  | .value :: rest =>
    match readPlace g handles place rest with
    | some (node, ⟨left, h⟩) => some (node, ⟨left, Nat.le_succ_of_le h⟩)
    | none => none
  | ts => some (.empty {}, ⟨ts, Nat.le_refl _⟩)
termination_by 4 * ts.length

/-- Reads the items of a list in a block, from the first dash to the end of the
block. -/
def readBlockItems (g : Grammar) (handles : List (String × String)) (ts : List Token) :
    Option (List (Node String) × NoLonger ts) :=
  match ts with
  | .blockEnd :: rest => some ([], ⟨rest, Nat.le_succ _⟩)
  | .blockEntry :: rest =>
    match readPlace g handles .item rest with
    | none => none
    | some (item, ⟨left, h⟩) =>
      match readBlockItems g handles left with
      | none => none
      | some (items, ⟨after, h'⟩) =>
        some (item :: items, ⟨after, Nat.le_succ_of_le (Nat.le_trans h' h)⟩)
  | _ => none
termination_by 4 * ts.length + 3

/-- Reads the items of a list below its key, from behind the first dash. -/
def readItemsBelow (g : Grammar) (handles : List (String × String)) (ts : List Token) :
    Option (List (Node String) × NoLonger ts) :=
  match readPlace g handles .itemBelow ts with
  | none => none
  | some (item, ⟨.blockEntry :: rest, h⟩) =>
    match readItemsBelow g handles rest with
    | none => none
    | some (items, ⟨after, h'⟩) =>
      some (item :: items, ⟨after, Nat.le_trans (Nat.le_succ_of_le h') h⟩)
  | some (item, left) => some ([item], left)
termination_by 4 * ts.length + 3

/-- Reads the entries of a table in a block, from the first key to the end of the
block. -/
def readBlockEntries (g : Grammar) (handles : List (String × String)) (ts : List Token) :
    Option (List (Node String × Node String) × NoLonger ts) :=
  match ts with
  | .blockEnd :: rest => some ([], ⟨rest, Nat.le_succ _⟩)
  | .key :: rest =>
    match readPlace g handles .part rest with
    | none => none
    | some (key, ⟨middle, h⟩) =>
      match readValue g handles .part middle with
      | none => none
      | some (value, ⟨left, h'⟩) =>
        match readBlockEntries g handles left with
        | none => none
        | some (entries, ⟨after, h''⟩) =>
          some ((key, value) :: entries,
            ⟨after, Nat.le_succ_of_le (Nat.le_trans h'' (Nat.le_trans h' h))⟩)
  | .value :: rest =>
    if g.bareValues then
      match readPlace g handles .part rest with
      | none => none
      | some (value, ⟨left, h⟩) =>
        match readBlockEntries g handles left with
        | none => none
        | some (entries, ⟨after, h'⟩) =>
          some ((.empty {}, value) :: entries, ⟨after, Nat.le_succ_of_le (Nat.le_trans h' h)⟩)
    else none
  | _ => none
termination_by 4 * ts.length + 3

/-- Reads the items of a list on a line, and its closing bracket.  Every item but the
first has a comma in front.  A key makes an item a table of one entry. -/
def readFlowItems (g : Grammar) (handles : List (String × String)) (first : Bool)
    (ts : List Token) : Option (List (Node String) × NoLonger ts) :=
  match first, ts with
  | _, .flowListEnd :: rest => some ([], ⟨rest, Nat.le_succ _⟩)
  | false, .flowEntry :: rest =>
    match rest with
    | .flowListEnd :: after => some ([], ⟨after, Nat.le_succ_of_le (Nat.le_succ _)⟩)
    | rest =>
      match readFlowItem g handles rest with
      | none => none
      | some (item, ⟨left, h⟩) =>
        match readFlowItems g handles false left with
        | none => none
        | some (items, ⟨after, h'⟩) =>
          some (item :: items, ⟨after, Nat.le_succ_of_le (Nat.le_trans h' (Nat.le_of_lt h))⟩)
  | false, _ => none
  | true, ts =>
    match readFlowItem g handles ts with
    | none => none
    | some (item, ⟨left, h⟩) =>
      match readFlowItems g handles false left with
      | none => none
      | some (items, ⟨after, h'⟩) =>
        some (item :: items, ⟨after, Nat.le_trans h' (Nat.le_of_lt h)⟩)
termination_by 4 * ts.length + 3

/-- Reads an item of a list on a line.  The token that ends the place of a missing key
is taken with it. -/
def readFlowItem (g : Grammar) (handles : List (String × String)) (ts : List Token) :
    Option (Node String × Shorter ts) :=
  match ts with
  | .key :: rest =>
    match readPlace g handles (.flow [.value, .flowEntry, .flowListEnd]) rest with
    | none => none
    | some (key, left) =>
      match skipEnd (.flow [.value, .flowEntry, .flowListEnd]) left with
      | ⟨middle, h⟩ =>
        match readValue g handles (.flow [.flowEntry, .flowListEnd]) middle with
        | none => none
        | some (value, ⟨left, h'⟩) =>
          some (.table {} [(key, value)], ⟨left, Nat.lt_succ_of_le (Nat.le_trans h' h)⟩)
  | ts => readNode g handles (.flow []) ts
termination_by 4 * ts.length + 2

/-- Reads the entries of a table on a line, and its closing brace.  Every entry but the
first has a comma in front. -/
def readFlowEntries (g : Grammar) (handles : List (String × String)) (first : Bool)
    (ts : List Token) : Option (List (Node String × Node String) × NoLonger ts) :=
  match first, ts with
  | _, .flowTableEnd :: rest => some ([], ⟨rest, Nat.le_succ _⟩)
  | false, .flowEntry :: rest =>
    match rest with
    | .flowTableEnd :: after => some ([], ⟨after, Nat.le_succ_of_le (Nat.le_succ _)⟩)
    | rest =>
      match readFlowPair g handles rest with
      | none => none
      | some (entry, ⟨left, h⟩) =>
        match readFlowEntries g handles false left with
        | none => none
        | some (entries, ⟨after, h'⟩) =>
          some (entry :: entries, ⟨after, Nat.le_succ_of_le (Nat.le_trans h' (Nat.le_of_lt h))⟩)
  | false, _ => none
  | true, ts =>
    match readFlowPair g handles ts with
    | none => none
    | some (entry, ⟨left, h⟩) =>
      match readFlowEntries g handles false left with
      | none => none
      | some (entries, ⟨after, h'⟩) =>
        some (entry :: entries, ⟨after, Nat.le_trans h' (Nat.le_of_lt h)⟩)
termination_by 4 * ts.length + 3

/-- Reads an entry of a table on a line.  A node that is not marked as a key has no
value. -/
def readFlowPair (g : Grammar) (handles : List (String × String)) (ts : List Token) :
    Option ((Node String × Node String) × Shorter ts) :=
  match ts with
  | .key :: rest =>
    match readPlace g handles (.flow [.value, .flowEntry, .flowTableEnd]) rest with
    | none => none
    | some (key, ⟨middle, h⟩) =>
      match readValue g handles (.flow [.flowEntry, .flowTableEnd]) middle with
      | none => none
      | some (value, ⟨left, h'⟩) =>
        some ((key, value), ⟨left, Nat.lt_succ_of_le (Nat.le_trans h' h)⟩)
  | .value :: rest =>
    if g.bareValues then
      match readPlace g handles (.flow [.flowEntry, .flowTableEnd]) rest with
      | none => none
      | some (value, ⟨left, h⟩) => some ((.empty {}, value), ⟨left, Nat.lt_succ_of_le h⟩)
    else none
  | ts =>
    match readNode g handles (.flow []) ts with
    | none => none
    | some (key, left) => some ((key, .empty {}), left)
termination_by 4 * ts.length + 2

end

/-! ## Documents -/

/-- Whether a token is a directive. -/
def Token.isDirective : Token → Bool
  | .version .. | .handle .. => true
  | _ => false

/-- Whether a document without content ends with the next token. -/
def endsDocument : List Token → Bool
  | [] => true
  | t :: _ => t.isDirective || t == .documentStart || t == .documentEnd

/-- The node of the only document that tokens are, if there is one. -/
def document? (g : Grammar) (ts : List Token) : Option (Option (Node String)) :=
  let ts := if g.leadingEnds then ts.dropWhile (· == .documentEnd) else ts
  if ts.isEmpty then some none
  else do
    let handles ← g.handles? (ts.takeWhile Token.isDirective)
    let marked := ts.head?.any fun t => t.isDirective || t == .documentStart
    let start := ts.dropWhile Token.isDirective
    if marked && start.head? != some .documentStart then none
    else
      let content := if marked then start.drop 1 else start
      if marked && endsDocument content then
        if (content.dropWhile (· == .documentEnd)).isEmpty then return some (.empty {}) else none
      else
        let (node, left) ← readNode g handles .root content
        if (left.1.dropWhile (· == .documentEnd)).isEmpty then return some node else none

end StreamFilter.Yaml
