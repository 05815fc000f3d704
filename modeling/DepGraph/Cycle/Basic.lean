import DepGraph.Entity

/-!
# Cycles

Dependency cycles. A cycle lists entities so that each depends on the next and the last on the
first. It can be entered anywhere, so it is kept rotated to start at its least entity.
-/

namespace DepGraph

structure Cycle (E : Type) where
  entities : List E
  deriving DecidableEq, Repr

structure Link (E : Type) where
  source : E
  target : E
  site : String
  deriving DecidableEq, Repr

namespace Cycle

variable {E : Type}

/-- The position of the first entity that no other precedes. -/
def startIndex [Entity E] (es : List E) : Nat := es.findIdx fun e => es.all (Entity.le e)

/-- The cycle through the given entities, rotated to its canonical start. -/
def ofList [Entity E] (es : List E) : Cycle E :=
  ⟨es.drop (startIndex es) ++ es.take (startIndex es)⟩

def canonicalize [Entity E] (c : Cycle E) : Cycle E := ofList c.entities

def isCanonical [Entity E] (c : Cycle E) : Bool :=
  match c.entities with
  | [] => true
  | first :: _ => c.entities.all (Entity.le first)

def length (c : Cycle E) : Nat := c.entities.length

/-- Consecutive pairs, the closing one included. A single entity is linked to itself. -/
def pairs (c : Cycle E) : List (E × E) :=
  c.entities.zip (c.entities.drop 1 ++ c.entities.take 1)

def links (c : Cycle E) (site : E → E → String) : List (Link E) :=
  c.pairs.map fun (a, b) => ⟨a, b, site a b⟩

def render [Label E] (c : Cycle E) : String :=
  " -> ".intercalate ((c.entities ++ c.entities.take 1).map Label.plain)

end Cycle

namespace Link

variable {E : Type} [Label E]

def renderAll (ls : List (Link E)) : String :=
  ls.zipIdx.foldl
    (fun text (l, i) =>
      let text := if 0 < i then text ++ "\n" else text
      text ++ l.site ++ ": " ++ Label.plain l.source ++ " imports " ++ Label.plain l.target) ""

end Link

end DepGraph
