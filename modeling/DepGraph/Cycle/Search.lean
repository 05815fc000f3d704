import DepGraph.Table.Basic
import DepGraph.Walk

/-!
# Searching for a cycle

The search for one dependency cycle: a depth-first walk along dependents that stops at the first
vertex it finds on its own path. It starts at the roots and then at whatever they do not reach.
-/

namespace DepGraph

namespace Cycle

/-- The state of the search. The innermost frame stands first on the path. -/
structure Search where
  path : List Frame := []
  onPath : Array Bool
  visited : Array Bool
  deriving DecidableEq, Repr

inductive Outcome where
  | exhausted
  | found (segment : List Nat)
  | running (s : Search)

namespace Search

def start (size : Nat) : Search :=
  { onPath := Array.replicate size false, visited := Array.replicate size false }

def isOpen (s : Search) (v : Nat) : Bool := s.visited[v]? == some false

def enter (next : Nat → List Nat) (s : Search) (v : Nat) : Search where
  path := ⟨v, next v⟩ :: s.path
  onPath := s.onPath.setIfInBounds v true
  visited := s.visited.setIfInBounds v true

def cut (path : List Frame) (head : Nat) : List Nat :=
  (Walk.splitThrough head (path.map (·.vertex))).1

def step (next : Nat → List Nat) (s : Search) : Outcome :=
  match s.path with
  | [] => .exhausted
  | ⟨v, []⟩ :: below =>
    .running { s with path := below, onPath := s.onPath.setIfInBounds v false }
  | ⟨v, u :: rest⟩ :: below =>
    let s' := { s with path := ⟨v, rest⟩ :: below }
    if s.onPath.getD u false then .found (cut s'.path u)
    else if s.isOpen u then .running (s'.enter next u)
    else .running s'

def work (next : Nat → List Nat) (s : Search) : Nat :=
  Walk.freshWork next s.isOpen s.visited.size + Walk.pathWork s.path

theorem work_path (next : Nat → List Nat) (s : Search) (path : List Frame) (marks : Array Bool) :
    ({ s with path, onPath := marks } : Search).work next =
      Walk.freshWork next s.isOpen s.visited.size + Walk.pathWork path := rfl

theorem work_enter {next : Nat → List Nat} {s : Search} {v : Nat} (h : s.isOpen v = true) :
    (s.enter next v).work next = s.work next := by
  have hv : v < s.visited.size := by
    simp only [isOpen, beq_iff_eq] at h
    exact (Array.getElem?_eq_some_iff.mp h).1
  have hfresh := Walk.freshWork_enter next s.isOpen (s.enter next v).isOpen hv h
    (by simp [isOpen, enter, hv])
    (by intro u hu; simp [isOpen, enter, Array.getElem?_setIfInBounds_ne (Ne.symm hu)])
  have hsize : (s.enter next v).visited.size = s.visited.size := by simp [enter]
  have hpath : (s.enter next v).path = ⟨v, next v⟩ :: s.path := rfl
  rw [work, work, hsize, hpath, Walk.pathWork_cons]
  omega

theorem work_step {next : Nat → List Nat} {s s' : Search} (h : s.step next = .running s') :
    s'.work next + 1 = s.work next := by
  unfold step at h
  split at h
  · cases h
  · rename_i v below hp
    cases h
    rw [work_path, work, hp, Walk.pathWork_cons]
    simp
    omega
  · rename_i v u rest below hp
    have hmove : ({ s with path := ⟨v, rest⟩ :: below } : Search).work next + 1 = s.work next := by
      rw [work_path, work, hp, Walk.pathWork_cons, Walk.pathWork_cons, List.length_cons]
      omega
    dsimp only at h
    split at h
    · cases h
    · split at h
      · rename_i hopen
        cases h
        rw [← hmove]
        exact congrArg (· + 1) (work_enter hopen)
      · cases h
        exact hmove

def run (next : Nat → List Nat) (s : Search) : Option (List Nat) × Search :=
  match _h : s.step next with
  | .exhausted => (none, s)
  | .found segment => (some segment, s)
  | .running s' => run next s'
termination_by s.work next
decreasing_by
  have := work_step _h
  omega

/-- Tries the starts in turn, skipping those an earlier one has reached. -/
def from? (next : Nat → List Nat) : List Nat → Search → Option (List Nat)
  | [], _ => none
  | v :: vs, s =>
    if s.isOpen v then
      match run next (s.enter next v) with
      | (some segment, _) => some segment
      | (none, s) => from? next vs s
    else from? next vs s

end Search

end Cycle

namespace Table

variable {E : Type} [Entity E]

/-- The nodes of one cycle, each depending on the next and the last on the first. -/
def findCycleNodes (t : Table E) : Option (List NodeId) :=
  Cycle.Search.from? t.descendants (t.roots ++ t.ids) (Cycle.Search.start t.size)

def findCycle (t : Table E) : Option (Cycle E) :=
  t.findCycleNodes.map fun ids => Cycle.ofList (t.entities ids)

end Table

end DepGraph
