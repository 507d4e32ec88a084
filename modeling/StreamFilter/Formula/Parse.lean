import StreamFilter.Fault
import StreamFilter.Formula.Basic
import StreamFilter.Formula.Scan
import StreamFilter.Shorter
set_option autoImplicit false

/-!
# Reading formulas

    expr := name | function "(" expr ("," expr)* ")"

A function is `And`, `Or` or `Not` in any mix of ASCII upper and lower case, and
only a name with an opening parenthesis behind it is one.  `Not` takes one
argument; `And` and `Or` of one argument are that argument.

Each reader returns the tokens it leaves, which are fewer than it got.
-/

namespace StreamFilter.Formula

/-- Applies a function name, found at an offset, to arguments. -/
def applyName (name : String) (offset : Nat) (arguments : List (Formula String)) :
    Except Fault (Formula String) :=
  let function := name.toLower
  if function = "and" then .ok (unlessSingle .and arguments)
  else if function = "or" then .ok (unlessSingle .or arguments)
  else if function = "not" then
    match arguments with
    | [f] => .ok (.not f)
    | fs => .error (.unreadable offset ("Not takes one argument, got " ++ fs.length.repr))
  else .error (.unreadable offset ("unknown function " ++ name))

/-- The fault that something else was expected than the next token. -/
def unexpected (stop : Nat) (what : String) : List Lexeme → Fault
  | [] => .unreadable stop ("expected " ++ what ++ ", got " ++ Token.describe none)
  | t :: _ => .unreadable t.offset ("expected " ++ what ++ ", got " ++ Token.describe t.token)

mutual

/-- Reads one expression.  The first argument is the offset of the end. -/
def readExpr (stop : Nat) (ts : List Lexeme) :
    Except Fault (Formula String × Shorter ts) :=
  match ts with
  | ⟨.name name, offset⟩ :: ⟨.opening, _⟩ :: rest =>
    match readArguments stop rest with
    | .error e => .error e
    | .ok (arguments, left) =>
      match applyName name offset arguments with
      | .error e => .error e
      | .ok f => .ok (f, ⟨left.1, by have := left.2; simp only [List.length_cons]; omega⟩)
  | ⟨.name name, _⟩ :: rest => .ok (.var name, ⟨rest, by simp⟩)
  | ts => .error (unexpected stop "name or variable" ts)
termination_by (ts.length, 0)

/-- Reads expressions between commas up to a closing parenthesis. -/
def readArguments (stop : Nat) (ts : List Lexeme) :
    Except Fault (List (Formula String) × Shorter ts) :=
  match readExpr stop ts with
  | .error e => .error e
  | .ok (f, ⟨⟨.comma, _⟩ :: rest, h⟩) =>
    have shorter : rest.length < ts.length := by simp only [List.length_cons] at h; omega
    match readArguments stop rest with
    | .error e => .error e
    | .ok (fs, left) => .ok (f :: fs, ⟨left.1, Nat.lt_trans left.2 shorter⟩)
  | .ok (f, ⟨⟨.closing, _⟩ :: rest, h⟩) => .ok ([f], ⟨rest, by simp only [List.length_cons] at h; omega⟩)
  | .ok (_, left) => .error (unexpected stop (Token.describe (some .closing)) left.1)
termination_by (ts.length, 1)

end

/-- Reads scanned tokens as one formula. -/
def ofScanned (s : Scanned) : Except Fault (Formula String) :=
  match s.lexemes with
  | [] => .error (.unreadable 0 "empty expression")
  | ts =>
    match readExpr s.stop ts with
    | .error e => .error e
    | .ok (f, ⟨[], _⟩) => .ok f
    | .ok (_, ⟨t :: _, _⟩) =>
      .error (.unreadable t.offset
        ("unexpected token after expression: " ++ Token.describe t.token))

/-- Reads formula text, without regard to blanks around it. -/
def parse (text : String) : Except Fault (Formula String) :=
  match scan (Text.trim text) with
  | .error e => .error (.unreadable e.offset e.detail)
  | .ok s => ofScanned s

end StreamFilter.Formula
