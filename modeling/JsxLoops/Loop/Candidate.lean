import JsxLoops.Loop.Tokens
import JsxLoops.Tree.Markup
import JsxLoops.Tree.Rename

/-!
Mapping calls. A loop is written as a call of `map` whose callback returns markup; `candidate?`
takes such a call apart, or says what it lacks. Parentheses do not matter. Before it is lowered,
the callback gets the parameters `(item, indexN)`.
-/

namespace JsxLoops.Loop

open JsxLoops.Tree

/-- The parts of a mapping call that returns markup. -/
structure Candidate where
  call : Loc
  receiver : Loc
  callback : Loc
  itemParam : Option String
  indexParam : Option String
  /-- The statements in front of the last return. -/
  leading : List Loc
  /-- The returned markup. -/
  subtree : Loc
deriving DecidableEq, Repr

/-- Why an expression is not a loop. -/
inductive Mismatch where
  | notMapCall
  | arguments
  | notFunction
  | asyncOrGenerator
  | parameters
  | body
  | notMarkup
deriving DecidableEq, Repr

def Mismatch.reason : Mismatch → String
  | .notMapCall => "not a map call"
  | .arguments => "map takes exactly one plain argument"
  | .notFunction => "callback is not a function literal"
  | .asyncOrGenerator => "callback is async or a generator"
  | .parameters => "callback needs at most two identifier parameters"
  | .body => "callback body is not statements followed by one return"
  | .notMarkup => "callback does not return JSX"

def mapCall? (s : Store) (call : Loc) : Option (Loc × List Loc) :=
  match s.get call with
  | .call callee arguments =>
    match s.get (s.stripParens callee) with
    | .member receiver "map" _ => some (receiver, arguments)
    | _ => none
  | _ => none

def plainArgument? (s : Store) : List Loc → Option Loc
  | [argument] =>
    match s.get argument with
    | .spread _ => none
    | _ => some argument
  | _ => none

def paramNames? (params : List Binder) : Option (List String) :=
  if params.length ≤ 2 then params.mapM Binder.name? else none

/-- The statements in front of the last return, and what that returns. -/
def splitBody? (s : Store) : Body Loc → Option (List Loc × Loc)
  | .value value => some ([], value)
  | .block statements =>
    match statements.getLast? with
    | some last =>
      match s.get last with
      | .returning (some value) =>
        if s.returns statements.dropLast then none else some (statements.dropLast, value)
      | _ => none
    | none => none

/-- Takes a mapping call that returns markup apart. -/
def candidate? (s : Store) (l : Loc) : Except Mismatch Candidate := do
  let call := s.stripParens l
  let some (receiver, arguments) := mapCall? s call | throw .notMapCall
  let some argument := plainArgument? s arguments | throw .arguments
  let callback := s.stripParens argument
  let .lambda f := s.get callback | throw .notFunction
  if f.isAsync || f.generator then throw .asyncOrGenerator
  let some names := paramNames? f.params | throw .parameters
  let some (leading, result) := splitBody? s f.body | throw .body
  let subtree := s.stripParens result
  if (s.get subtree).isMarkup then
    return ⟨call, receiver, callback, names[0]?, names[1]?, leading, subtree⟩
  else throw .notMarkup

namespace Candidate

/-- The name of the item; it is `item` where the callback does not take it. -/
def itemName (c : Candidate) : String := c.itemParam.getD "item"

/-- Gives the callback the parameters of the lowered loop. -/
def normalize (c : Candidate) (tokens : Tokens) : Edit Unit := do
  match ← Edit.node c.callback with
  | .lambda f =>
    if let some index := c.indexParam then
      discard (Edit.rename f.body.children index tokens.indexName)
    Edit.put c.callback (.lambda { f with params := [.plain c.itemName, .plain tokens.indexName] })
  | _ => return ()

end Candidate

end JsxLoops.Loop
