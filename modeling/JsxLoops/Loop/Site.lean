import JsxLoops.Loop.Record

/-!
Loop sites: what is known of a loop that was lowered.
-/

namespace JsxLoops.Loop

open JsxLoops.Tree

/-- How the loop attribute of a wrapper reaches its list. -/
inductive Binding where
  /-- It holds the mapping call itself. -/
  | inline
  | itemMerge
  | itemPath (path : String)
  | local (name : String)
  | field (name : String)
deriving DecidableEq, Repr

structure Site where
  id : UInt32
  parent : Option UInt32
  itemName : String
  indexName : String
  keyToken : String
  /-- What the loop goes over. -/
  source : Loc
  mappingCall : Loc
  callback : Loc
  wrapper : Loc
  ownedSubtree : Loc
  bodyStatements : List Loc
  schema : Schema
  binding : Binding
deriving DecidableEq, Repr

end JsxLoops.Loop
