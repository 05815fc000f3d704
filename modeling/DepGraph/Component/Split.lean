import DepGraph.Component.Basic
import DepGraph.Marks

/-!
# Splitting into components

Splitting a built table into connected components by breadth-first search. The search starts at
the lowest node not yet reached and goes outward wave by wave; within a component, vertices are
numbered in that order. Nodes without links are set aside and start no search. The splitter counts
the nodes it has visited, and once all are, no further start is tried.
-/

namespace DepGraph

namespace Table

variable {E : Type} [Entity E]

def modifyNode (t : Table E) (id : NodeId) (f : Node E → Node E) : Table E :=
  { t with nodes := t.nodes.modify id f }

/-- The vertex with the lists of its node, as far as they have been renumbered. -/
def relink (t : Table E) (remap : Array (Option VertId)) (vert : Vertex) : Vertex :=
  { vert with
    ancestors := (t.ancestors vert.node).filterMap fun a => (remap[a]?).join
    descendants := (t.descendants vert.node).filterMap fun d => (remap[d]?).join }

end Table

namespace Split

/-- What the searches of one split have in common. -/
structure Splitter where
  visited : Array Bool
  count : Nat := 0
  remap : Array (Option VertId)
  wave : List NodeId := []
  next : List NodeId := []
  deriving DecidableEq, Repr

namespace Splitter

def ofSize (size : Nat) : Splitter where
  visited := Array.replicate size false
  remap := Array.replicate size none

def visit (s : Splitter) (id : NodeId) : Splitter :=
  { s with visited := s.visited.setIfInBounds id true, count := s.count + 1 }

def enter (s : Splitter) (start : NodeId) : Splitter :=
  { s.visit start with wave := [start], next := [] }

def meet (s : Splitter) (id : NodeId) : Splitter :=
  if s.visited[id]? = some false then
    let s := s.visit id
    { s with next := s.next ++ [id] }
  else s

def load (s : Splitter) : Nat := s.next.length + Marks.unmarked s.visited

theorem meet_load (s : Splitter) (id : NodeId) : (s.meet id).load = s.load := by
  unfold meet
  split
  · rename_i hopen
    have hmark := Marks.unmarked_setIfInBounds hopen
    have hload : (s.next ++ [id]).length + Marks.unmarked (s.visited.setIfInBounds id true) =
        s.load := by
      rw [List.length_append, List.length_singleton, load]
      omega
    exact hload
  · rfl

theorem foldl_meet_load (ids : List NodeId) (s : Splitter) :
    (ids.foldl meet s).load = s.load := by
  induction ids generalizing s with
  | nil => rfl
  | cons id ids ih => rw [List.foldl_cons, ih, meet_load]

end Splitter

/-- The search of one component. The vertices get their lists when all have been numbered. -/
structure Search (E : Type) [Entity E] where
  splitter : Splitter
  table : Table E
  verts : Array Vertex := #[]
  roots : List VertId := []
  pinnacles : List VertId := []

namespace Search

variable {E : Type} [Entity E]

/-- Numbers a node of the wave, and puts those of its neighbours into the next wave that have not
been visited. -/
def number (k : CompId) (s : Search E) (id : NodeId) : Search E :=
  let v := s.verts.size
  let table := s.table.modifyNode id ({ · with component := some k })
  let splitter := { s.splitter with remap := s.splitter.remap.setIfInBounds id (some v) }
  { splitter := (table.adjacency id).foldl Splitter.meet splitter
    table
    verts := s.verts.push { node := id, ancestors := [], descendants := [] }
    roots := if (table.node? id).any (·.isRoot) then s.roots ++ [v] else s.roots
    pinnacles :=
      if (table.node? id).any (·.isPinnacle) then s.pinnacles ++ [v] else s.pinnacles }

def advance (k : CompId) (s : Search E) : Search E :=
  let s := s.splitter.wave.foldl (number k) s
  { s with splitter := { s.splitter with wave := s.splitter.next, next := [] } }

theorem foldl_number_load (k : CompId) (ids : List NodeId) (s : Search E) :
    (ids.foldl (number k) s).splitter.load = s.splitter.load := by
  induction ids generalizing s with
  | nil => rfl
  | cons id ids ih =>
    rw [List.foldl_cons, ih]
    exact Splitter.foldl_meet_load _ _

theorem advance_load (k : CompId) (s : Search E) :
    (s.advance k).splitter.wave.length + (s.advance k).splitter.load = s.splitter.load := by
  have hload := foldl_number_load k s.splitter.wave s
  simp only [Splitter.load, advance] at *
  simpa using hload

def run (k : CompId) (s : Search E) : Search E :=
  if s.splitter.wave.isEmpty then s else run k (s.advance k)
termination_by s.splitter.wave.length + s.splitter.load
decreasing_by
  rename_i hwave
  have hload := advance_load k s
  have hpos : 0 < s.splitter.wave.length := List.length_pos_iff.mpr (by simpa using hwave)
  omega

def component (k : CompId) (s : Search E) : Component where
  id := k
  verts := s.verts.map (s.table.relink s.splitter.remap)
  roots := s.roots
  pinnacles := s.pinnacles

end Search

structure Progress (E : Type) [Entity E] where
  splitter : Splitter
  table : Table E
  isolated : List NodeId := []
  components : List Component := []

namespace Progress

variable {E : Type} [Entity E]

def setAside (s : Progress E) (id : NodeId) : Progress E :=
  if (s.table.adjacency id).isEmpty then
    { s with
      splitter := s.splitter.visit id
      table := s.table.modifyNode id ({ · with isolated := true })
      isolated := s.isolated ++ [id] }
  else s

def search (s : Progress E) (start : NodeId) : Progress E :=
  let k := s.components.length
  let found : Search E := Search.run k { splitter := s.splitter.enter start, table := s.table }
  { s with
    splitter := found.splitter
    table := found.table
    components := s.components ++ [found.component k] }

/-- Searches from each start in turn that has not been visited, until every node has been. -/
def searchAll (s : Progress E) : List NodeId → Progress E
  | [] => s
  | start :: starts =>
    if s.table.size ≤ s.splitter.count then s
    else if s.splitter.visited[start]? = some false then (s.search start).searchAll starts
    else s.searchAll starts

end Progress

end Split

namespace Table

variable {E : Type} [Entity E]

/-- The components of a built table, in the order of their lowest nodes, and the table with their
numbers recorded. A table that has not been built has no links to follow and yields nothing. -/
def split (t : Table E) : Partition × Table E :=
  if t.frozen then
    let blank : Split.Progress E := { splitter := .ofSize t.size, table := t }
    let s := (t.ids.foldl Split.Progress.setAside blank).searchAll t.ids
    ({ components := s.components, isolated := s.isolated, remap := s.splitter.remap }, s.table)
  else ({}, t)

end Table

end DepGraph
