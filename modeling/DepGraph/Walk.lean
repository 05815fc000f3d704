/-!
# Depth-first walks

Depth-first walks over a successor function, with the path kept as an explicit list of frames.
A walk takes one step for each successor it looks at and one to leave each vertex; counting those
steps beforehand, for the path and for the vertices not yet entered, bounds the walk.
-/

namespace DepGraph

/-- A vertex on the path of a walk, with the successors it has still to look at. -/
structure Frame where
  vertex : Nat
  rest : List Nat
  deriving DecidableEq, Repr

namespace Walk

/-- Splits a list after the first occurrence of `v`; without one, everything comes before. -/
def splitThrough (v : Nat) : List Nat → List Nat × List Nat
  | [] => ([], [])
  | u :: us =>
    if u = v then ([u], us)
    else
      let (upper, lower) := splitThrough v us
      (u :: upper, lower)

def pathWork : List Frame → Nat
  | [] => 0
  | f :: path => f.rest.length + 1 + pathWork path

theorem pathWork_cons (v : Nat) (rest : List Nat) (path : List Frame) :
    pathWork (⟨v, rest⟩ :: path) = rest.length + 1 + pathWork path := rfl

/-- Steps that the vertices below `size` will take if every fresh one is entered. -/
def freshWork (next : Nat → List Nat) (fresh : Nat → Bool) : Nat → Nat
  | 0 => 0
  | n + 1 => freshWork next fresh n + if fresh n then (next n).length + 1 else 0

theorem freshWork_congr {next : Nat → List Nat} {fresh fresh' : Nat → Bool} {size : Nat}
    (h : ∀ u, u < size → fresh' u = fresh u) :
    freshWork next fresh' size = freshWork next fresh size := by
  induction size with
  | zero => rfl
  | succ n ih =>
    rw [freshWork, freshWork, ih (fun u hu => h u (by omega)), h n (by omega)]

theorem freshWork_enter (next : Nat → List Nat) (fresh fresh' : Nat → Bool) {size v : Nat}
    (hv : v < size) (hfresh : fresh v = true) (hentered : fresh' v = false)
    (hother : ∀ u, u ≠ v → fresh' u = fresh u) :
    freshWork next fresh' size + ((next v).length + 1) = freshWork next fresh size := by
  induction size with
  | zero => omega
  | succ n ih =>
    rw [freshWork, freshWork]
    by_cases hn : v = n
    · subst hn
      rw [freshWork_congr (fun u hu => hother u (by omega)), hentered, hfresh]
      simp
    · rw [← ih (by omega), hother n (fun h => hn h.symm)]
      omega

end Walk

end DepGraph
