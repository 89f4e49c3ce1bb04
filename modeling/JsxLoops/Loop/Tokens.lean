/-!
Names for loops. Each loop gets a number, and the names of its index and its key are made from it.
Numbers are words of 32 bits.
-/

namespace JsxLoops.Loop

/-- The number of a loop and the names made from it. -/
structure Tokens where
  id : UInt32
  indexName : String
  keyToken : String
deriving DecidableEq, Repr

def Tokens.ofId (id : UInt32) : Tokens :=
  ⟨id, "index" ++ toString id.toNat, "_key" ++ toString id.toNat⟩

/-- Hands out the numbers of loops one after the other. -/
structure Allocator where
  next : UInt32
deriving DecidableEq, Repr

namespace Allocator

def allocate (a : Allocator) : Tokens × Allocator := (.ofId a.next, ⟨a.next + 1⟩)

/-- The first `count` tokens, each with the number that is next after it. -/
def issue : Nat → Allocator → List (Tokens × UInt32) × Allocator
  | 0, a => ([], a)
  | count + 1, a =>
    let (tokens, a) := a.allocate
    let (more, last) := issue count a
    ((tokens, a.next) :: more, last)

end Allocator

end JsxLoops.Loop
