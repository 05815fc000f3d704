import DepGraph.Buffer
import DepGraph.Component.Basic
import DepGraph.Walk

/-!
# Searching for clusters

The search for clusters, by a depth-first walk that keeps for each vertex when it was discovered
and the earliest discovery it can get back to. A vertex that gets back to nothing earlier closes its
cluster: everything discovered since and still on the stack. The finder's arrays outlive a search
and are wiped before the next, so one finder serves components of any size.
-/

namespace DepGraph

namespace Cluster

/-- The state of a search. Discovery times start at one; zero means not yet discovered. -/
structure Finder where
  disc : Array Nat := #[]
  low : Array Nat := #[]
  onStack : Array Bool := #[]
  /-- Discovered vertices whose cluster is still open, the latest first. -/
  stack : List VertId := []
  path : List Frame := []
  clock : Nat := 0
  found : List (List VertId) := []
  deriving DecidableEq, Repr

namespace Finder

def reset (f : Finder) (size : Nat) : Finder where
  disc := Buffer.refill f.disc size 0
  low := Buffer.refill f.low size 0
  onStack := Buffer.clear f.onStack size

def withCapacity (size : Nat) : Finder := reset {} size

def isOpen (f : Finder) (v : VertId) : Bool := f.disc[v]? == some 0

def enter (next : VertId → List VertId) (f : Finder) (v : VertId) : Finder :=
  { f with
    clock := f.clock + 1
    disc := f.disc.setIfInBounds v (f.clock + 1)
    low := f.low.setIfInBounds v (f.clock + 1)
    stack := v :: f.stack
    onStack := f.onStack.setIfInBounds v true
    path := ⟨v, next v⟩ :: f.path }

/-- Closes the cluster that `head` was the first to enter. A vertex alone is no cluster. -/
def close (f : Finder) (head : VertId) : Finder :=
  let (members, rest) := Walk.splitThrough head f.stack
  { f with
    stack := rest
    onStack := members.foldl (fun marks v => marks.setIfInBounds v false) f.onStack
    found := if 1 < members.length then members :: f.found else f.found }

def lower (f : Finder) (time : Nat) : Finder :=
  match f.path with
  | [] => f
  | top :: _ => { f with low := f.low.modify top.vertex (min · time) }

/-- Looks at one successor of the innermost vertex, or leaves that vertex. -/
def step (next : VertId → List VertId) (f : Finder) : Option Finder :=
  match f.path with
  | [] => none
  | ⟨v, u :: rest⟩ :: below =>
    let f' := { f with path := ⟨v, rest⟩ :: below }
    some (if f.isOpen u then f'.enter next u
      else if f.onStack.getD u false then f'.lower (f.disc.getD u 0)
      else f')
  | ⟨v, []⟩ :: below =>
    let f' := { f with path := below }.lower (f.low.getD v 0)
    some (if f.low.getD v 0 = f.disc.getD v 0 then f'.close v else f')

def work (next : VertId → List VertId) (f : Finder) : Nat :=
  Walk.freshWork next f.isOpen f.disc.size + Walk.pathWork f.path

theorem work_path (next : VertId → List VertId) (f : Finder) (path : List Frame) :
    ({ f with path } : Finder).work next =
      Walk.freshWork next f.isOpen f.disc.size + Walk.pathWork path := rfl

theorem work_lower (next : VertId → List VertId) (f : Finder) (time : Nat) :
    (f.lower time).work next = f.work next := by
  unfold lower
  split <;> rfl

theorem work_close (next : VertId → List VertId) (f : Finder) (head : VertId) :
    (f.close head).work next = f.work next := rfl

theorem work_enter {next : VertId → List VertId} {f : Finder} {v : VertId}
    (h : f.isOpen v = true) : (f.enter next v).work next = f.work next := by
  have hv : v < f.disc.size := by
    simp only [isOpen, beq_iff_eq] at h
    exact (Array.getElem?_eq_some_iff.mp h).1
  have hfresh := Walk.freshWork_enter next f.isOpen (f.enter next v).isOpen hv h
    (by simp [isOpen, enter, hv])
    (by intro u hu; simp [isOpen, enter, Array.getElem?_setIfInBounds_ne (Ne.symm hu)])
  have hsize : (f.enter next v).disc.size = f.disc.size := by simp [enter]
  have hpath : (f.enter next v).path = ⟨v, next v⟩ :: f.path := rfl
  rw [work, work, hsize, hpath, Walk.pathWork_cons]
  omega

theorem work_step {next : VertId → List VertId} {f f' : Finder} (h : f.step next = some f') :
    f'.work next + 1 = f.work next := by
  unfold step at h
  split at h
  · cases h
  · rename_i v u rest below hp
    have hmove : ({ f with path := ⟨v, rest⟩ :: below } : Finder).work next + 1 = f.work next := by
      rw [work_path, work, hp, Walk.pathWork_cons, Walk.pathWork_cons, List.length_cons]
      omega
    cases h
    rw [← hmove]
    apply congrArg (· + 1)
    split
    · exact work_enter ‹_›
    · split
      · exact work_lower next _ _
      · rfl
  · rename_i v below hp
    have hmove : ({ f with path := below } : Finder).work next + 1 = f.work next := by
      rw [work_path, work, hp, Walk.pathWork_cons]
      simp
      omega
    cases h
    rw [← hmove]
    apply congrArg (· + 1)
    split
    · rw [work_close, work_lower]
    · rw [work_lower]

def run (next : VertId → List VertId) (f : Finder) : Finder :=
  match _h : f.step next with
  | none => f
  | some f' => run next f'
termination_by f.work next
decreasing_by
  have := work_step _h
  omega

def walk (next : VertId → List VertId) (f : Finder) (v : VertId) : Finder :=
  if f.isOpen v then run next (f.enter next v) else f

/-- Walks from the roots, then from any vertex they leave undiscovered. -/
def explore (f : Finder) (c : Component) : Finder :=
  let f := c.roots.foldl (walk c.descendants) (f.reset c.size)
  (List.range c.size).foldl
    (fun f v => if f.clock < c.size then walk c.descendants f v else f) f

end Finder

variable {E : Type} [Entity E]

def number (c : Component) (t : Table E) (found : List (List VertId)) : List Cluster :=
  let sorted := found.map (Entity.sortBy (c.entity? t))
  let ordered := Entity.sortBy (fun members => members.head?.bind (c.entity? t)) sorted
  ordered.zipIdx.map fun (members, id) => { id, component := c.id, members }

def Finder.search (f : Finder) (c : Component) (t : Table E) : List Cluster × Finder :=
  let f := f.explore c
  (number c t f.found, f)

/-- The clusters of a component. A two-level component has none and needs no search. -/
def Finder.find (f : Finder) (c : Component) (t : Table E) : List Cluster × Finder :=
  if c.isTwoLevel then ([], f) else f.search c t

end Cluster

end DepGraph
