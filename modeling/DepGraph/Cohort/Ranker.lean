import DepGraph.Buffer
import DepGraph.Cohort.Collapsed

/-!
# Ranking in waves

Ranking a component in waves. Each group waits for the groups it depends on; the first wave holds
those that wait for none, and ranking a group releases its dependents. A group comes out one rank
above its highest dependency. Groups on a cycle, and whatever depends on them, are never released.
The ranker's arrays and waves outlive a ranking and are wiped before the next.
-/

namespace DepGraph

namespace Cohort

structure Ranker where
  /-- For each group how many of its dependencies are still unranked. -/
  left : Array Nat := #[]
  ranks : Array Nat := #[]
  wave : List Nat := []
  /-- The groups that the wave has released. -/
  next : List Nat := []
  deriving DecidableEq, Repr

/-- A ranking under way: its ranker, the groups by rank, and how many have had their turn. -/
structure Ranking where
  ranker : Ranker
  cohorts : List (List Nat)
  ranked : Nat := 0
  deriving DecidableEq, Repr

/-- Puts a group into the cohort of its rank, which is made if it is missing. -/
def place (cohorts : List (List Nat)) (rank g : Nat) : List (List Nat) :=
  (cohorts ++ List.replicate (rank + 1 - cohorts.length) []).modify rank (· ++ [g])

namespace Ranker

def reset (r : Ranker) (c : Collapsed) : Ranker where
  left := c.descendants.foldl (fun left ds => ds.foldl (fun left d => left.modify d (· + 1)) left)
    (Buffer.refill r.left c.size 0)
  ranks := Buffer.refill r.ranks c.size 0

def start (r : Ranker) (c : Collapsed) : Ranking :=
  let r := r.reset c
  let wave := (List.range c.size).filter fun g => r.left.getD g 0 == 0
  { ranker := { r with wave }, cohorts := [wave] }

/-- Takes one dependency off the count of `d`, and lifts its rank above that of `g`. -/
def settle (r : Ranker) (g d : Nat) : Ranker :=
  { r with
    left := r.left.modify d (· - 1)
    ranks := r.ranks.modify d (max · (r.ranks.getD g 0 + 1)) }

def pending (r : Ranker) : Nat := r.left.toList.foldr (· + ·) 0

theorem foldr_add_modify_pred (l : List Nat) (i : Nat) :
    (l.modify i (· - 1)).foldr (· + ·) 0 + min 1 (l.getD i 0) = l.foldr (· + ·) 0 := by
  induction l generalizing i with
  | nil => simp
  | cons a l ih =>
    cases i with
    | zero =>
      simp only [List.modify_zero_cons, List.foldr_cons, List.getD_cons_zero]
      omega
    | succ i =>
      have hrest := ih i
      simp only [List.modify_succ_cons, List.foldr_cons, List.getD_cons_succ]
      omega

theorem settle_pending (r : Ranker) (g d : Nat) :
    (r.settle g d).pending + min 1 (r.left.getD d 0) = r.pending := by
  simpa [pending, settle] using foldr_add_modify_pred r.left.toList d

end Ranker

namespace Ranking

/-- Tells `d` that `g` is ranked. The last that `d` waits for releases it. -/
def tell (g : Nat) (s : Ranking) (d : Nat) : Ranking :=
  let r := s.ranker.settle g d
  if s.ranker.left.getD d 0 = 1 then
    { s with
      ranker := { r with next := r.next ++ [d] }
      cohorts := place s.cohorts (r.ranks.getD d 0) d }
  else { s with ranker := r }

/-- Gives each group of the wave its turn, and goes on to the groups released by them. -/
def advance (next : Nat → List Nat) (s : Ranking) : Ranking :=
  let told := s.ranker.wave.foldl (fun s g => (next g).foldl (tell g) s) s
  { told with
    ranker := { told.ranker with wave := told.ranker.next, next := [] }
    ranked := s.ranked + s.ranker.wave.length }

def load (s : Ranking) : Nat := s.ranker.next.length + s.ranker.pending

theorem tell_load (g : Nat) (s : Ranking) (d : Nat) : (s.tell g d).load ≤ s.load := by
  have hsettle := s.ranker.settle_pending g d
  unfold tell
  split
  · rename_i hlast
    have hnext : (s.ranker.next ++ [d]).length = s.ranker.next.length + 1 := List.length_append
    have hload : (s.ranker.next ++ [d]).length + (s.ranker.settle g d).pending ≤ s.load := by
      rw [hnext, load]
      omega
    exact hload
  · have hload : s.ranker.next.length + (s.ranker.settle g d).pending ≤ s.load := by
      rw [load]
      omega
    exact hload

theorem foldl_load {α : Type} {f : Ranking → α → Ranking} (h : ∀ s x, (f s x).load ≤ s.load)
    (xs : List α) (s : Ranking) : (xs.foldl f s).load ≤ s.load := by
  induction xs generalizing s with
  | nil => exact Nat.le_refl _
  | cons x xs ih => exact Nat.le_trans (ih (f s x)) (h s x)

theorem advance_load (next : Nat → List Nat) (s : Ranking) :
    (s.advance next).ranker.wave.length + (s.advance next).load ≤ s.load := by
  have htold := foldl_load (fun s g => foldl_load (tell_load g) (next g) s) s.ranker.wave s
  simp only [load, advance] at *
  simpa [Ranker.pending] using htold

def run (next : Nat → List Nat) (s : Ranking) : Ranking :=
  if s.ranker.wave.isEmpty then s else run next (s.advance next)
termination_by s.ranker.wave.length + s.load
decreasing_by
  rename_i hwave
  have hless := advance_load next s
  have hpos : 0 < s.ranker.wave.length := List.length_pos_iff.mpr (by simpa using hwave)
  omega

end Ranking

namespace Ranker

variable {E : Type} [Entity E]

/-- Ranks a component in waves over its collapsed form. If some groups are never released the
component cannot be ranked, and is not written to. -/
def rankByWaves (r : Ranker) (c : Component) (t : Table E) :
    Except (GraphError E) Unit × Component × Ranker :=
  let collapsed := Collapsed.ofComponent c
  let s := (r.start collapsed).run collapsed.next
  if s.ranked < collapsed.size then
    (.error (.incompleteRanking c.id s.ranked collapsed.size), c, s.ranker)
  else
    let setRank (verts : Array Vertex) (group : Group × Nat) :=
      group.1.members.foldl
        (fun verts v => verts.modify v ({ · with rank := s.ranker.ranks.getD group.2 0 })) verts
    let rankees := s.cohorts.map fun cohort =>
      Entity.sortBy (c.representative? t)
        (cohort.filterMap fun g => (collapsed.groups[g]?).map (·.rankee))
    (.ok (), { c with
      verts := collapsed.groups.toList.zipIdx.foldl setRank c.verts
      cohorts := rankees }, s.ranker)

end Ranker

variable {E : Type} [Entity E]

/-- Ranks a two-level component: roots at the bottom, pinnacles above them. -/
def rankTwoLevels (c : Component) (t : Table E) : Component :=
  let sorted (vs : List VertId) := (Entity.sortBy (c.entity? t) vs).map Rankee.vertex
  { c with
    verts := c.pinnacles.foldl (fun verts v => verts.modify v ({ · with rank := 1 })) c.verts
    cohorts := [sorted c.roots, sorted c.pinnacles] }

def Ranker.rank (r : Ranker) (c : Component) (t : Table E) :
    Except (GraphError E) Unit × Component × Ranker :=
  if c.isTwoLevel then (.ok (), rankTwoLevels c t, r) else r.rankByWaves c t

end Cohort

end DepGraph
