import DepGraph.Proofs.Stalling

/-!
# Reusing a finder and a ranker

A finder and a ranker outlive the component they work on. Their counters and times are refilled for
the next, but marks are only cleared, never given back, so a finder that has seen a larger component
goes on with more marks than there are vertices. Two finders that differ in nothing else take the
same steps, since a vertex that gets marked has been discovered and so lies within either.
-/

namespace DepGraph

namespace Cluster.Finder

variable {next : Nat → List Nat} {f g : Finder} {v u : Nat} {rest : List Nat} {below : List Frame}

theorem step_look (hp : f.path = ⟨v, u :: rest⟩ :: below) : f.step next = some
    (if f.isOpen u then ({ f with path := ⟨v, rest⟩ :: below } : Finder).enter next u
      else if f.onStack.getD u false then
        ({ f with path := ⟨v, rest⟩ :: below } : Finder).lower (f.disc.getD u 0)
      else { f with path := ⟨v, rest⟩ :: below }) := by
  rw [step]
  split
  · rename_i hnil
    cases hp.symm.trans hnil
  · rename_i hcons
    cases hp.symm.trans hcons
    rfl
  · rename_i hend
    cases hp.symm.trans hend

theorem step_leave (hp : f.path = ⟨v, []⟩ :: below) : f.step next = some
    (if f.low.getD v 0 = f.disc.getD v 0 then
        (({ f with path := below } : Finder).lower (f.low.getD v 0)).close v
      else ({ f with path := below } : Finder).lower (f.low.getD v 0)) := by
  rw [step]
  split
  · rename_i hnil
    cases hp.symm.trans hnil
  · rename_i hcons
    cases hp.symm.trans hcons
  · rename_i hend
    cases hp.symm.trans hend
    rfl

/-- The finders differ in nothing but spare marks, and both have a mark for every vertex. -/
structure Matches (f g : Finder) : Prop where
  disc : f.disc = g.disc
  low : f.low = g.low
  stack : f.stack = g.stack
  path : f.path = g.path
  clock : f.clock = g.clock
  found : f.found = g.found
  marks : ∀ v, f.onStack.getD v false = g.onStack.getD v false
  room : f.disc.size ≤ f.onStack.size ∧ g.disc.size ≤ g.onStack.size

theorem reset_matches (f g : Finder) (n : Nat) : Matches (f.reset n) (g.reset n) := by
  constructor
  case disc => simp only [reset, Buffer.refill_eq]
  case low => simp only [reset, Buffer.refill_eq]
  case marks =>
    intro v
    simp only [reset, Buffer.clear_eq, Writes.getD_replicate]
  case room =>
    simp only [reset, Buffer.refill_eq, Buffer.clear_eq, Array.size_replicate]
    omega
  all_goals rfl

namespace Matches

theorem isOpen (h : Matches f g) (v : Nat) : f.isOpen v = g.isOpen v := by
  rw [Finder.isOpen, Finder.isOpen, h.disc]

theorem withPath (h : Matches f g) (path : List Frame) :
    Matches { f with path } { g with path } := { h with path := rfl }

theorem enter (h : Matches f g) (hv : f.isOpen v = true) :
    Matches (f.enter next v) (g.enter next v) := by
  have hlt := (isOpen_iff.mp hv).1
  have hlt' : v < g.disc.size := h.disc ▸ hlt
  constructor
  case disc => simp only [Finder.enter, h.disc, h.clock]
  case low => simp only [Finder.enter, h.low, h.clock]
  case stack => simp only [Finder.enter, h.stack]
  case path => simp only [Finder.enter, h.path]
  case clock => simp only [Finder.enter, h.clock]
  case found => exact h.found
  case marks =>
    intro u
    simp only [Finder.enter]
    rw [Writes.getD_setIfInBounds _ _ _ _ _ (Nat.lt_of_lt_of_le hlt h.room.1),
      Writes.getD_setIfInBounds _ _ _ _ _ (Nat.lt_of_lt_of_le hlt' h.room.2), h.marks]
  case room =>
    simp only [Finder.enter, Array.size_setIfInBounds]
    exact h.room

theorem lower (h : Matches f g) {s t : Nat} (hst : s = t) : Matches (f.lower s) (g.lower t) := by
  rw [Finder.lower, Finder.lower, h.path]
  split
  · exact h
  · exact { h with low := by rw [h.low, hst], path := rfl }

theorem close (h : Matches f g) (head : Nat) : Matches (f.close head) (g.close head) := by
  constructor
  case disc => exact h.disc
  case low => exact h.low
  case stack => simp only [Finder.close, h.stack]
  case path => exact h.path
  case clock => exact h.clock
  case found => simp only [Finder.close, h.stack, h.found]
  case marks =>
    intro u
    simp only [Finder.close, h.stack]
    rw [Bool.eq_iff_iff, Writes.cleared_iff, Writes.cleared_iff, h.marks]
  case room =>
    simp only [Finder.close, Writes.size_cleared]
    exact h.room

theorem step (h : Matches f g) (next : Nat → List Nat) :
    Option.Rel Matches (f.step next) (g.step next) := by
  cases hp : f.path with
  | nil =>
    rw [Finder.step, Finder.step, ← h.path, hp]
    exact .none
  | cons top below =>
    have hp' := h.path.symm.trans hp
    obtain ⟨v, rest⟩ := top
    cases rest with
    | nil =>
      rw [step_leave hp, step_leave hp']
      have hleft := (h.withPath below).lower (congrArg (·.getD v 0) h.low)
      have hback : f.low.getD v 0 = f.disc.getD v 0 ↔ g.low.getD v 0 = g.disc.getD v 0 := by
        rw [h.low, h.disc]
      by_cases hroot : f.low.getD v 0 = f.disc.getD v 0
      · rw [if_pos hroot, if_pos (hback.mp hroot)]
        exact .some (hleft.close v)
      · rw [if_neg hroot, if_neg (hback.not.mp hroot)]
        exact .some hleft
    | cons u rest =>
      rw [step_look hp, step_look hp', ← h.isOpen, ← h.marks]
      have hmoved := h.withPath (⟨v, rest⟩ :: below)
      apply Option.Rel.some
      split
      · exact hmoved.enter ‹_›
      · split
        · exact hmoved.lower (congrArg (·.getD u 0) h.disc)
        · exact hmoved

theorem run (h : Matches f g) : Matches (Finder.run next f) (Finder.run next g) := by
  fun_induction Finder.run next f generalizing g with
  | case1 f hs =>
    have hstep := h.step next
    rw [hs] at hstep
    rw [Finder.run.eq_def]
    split
    · exact h
    · rename_i hs'
      rw [hs'] at hstep
      cases hstep
  | case2 f f' hs ih =>
    have hstep := h.step next
    rw [hs] at hstep
    rw [Finder.run.eq_def next g]
    split
    · rename_i hs'
      rw [hs'] at hstep
      cases hstep
    · rename_i g' hs'
      rw [hs'] at hstep
      cases hstep with
      | some hmatch => exact ih hmatch

theorem walk (h : Matches f g) (v : Nat) :
    Matches (Finder.walk next f v) (Finder.walk next g v) := by
  rw [Finder.walk, Finder.walk, ← h.isOpen v]
  split
  · exact (h.enter ‹_›).run
  · exact h

end Matches

/-- One search matches another of the same component, whatever was searched before. -/
theorem explore_matches (f g : Finder) (c : Component) : Matches (f.explore c) (g.explore c) := by
  have hroots : Matches (c.roots.foldl (walk c.descendants) (f.reset c.size))
      (c.roots.foldl (walk c.descendants) (g.reset c.size)) :=
    List.foldl_rel (reset_matches f g c.size) fun v _ _ _ h => h.walk v
  refine List.foldl_rel hroots ?_
  intro v _ f g h
  rw [← h.clock]
  split
  · exact h.walk v
  · exact h

variable {E : Type} [Entity E]

theorem find_fresh (f : Finder) (c : Component) (t : Table E) :
    (f.find c t).1 = (({} : Finder).find c t).1 := by
  rw [find, find]
  split
  · rfl
  · rw [search, search, (explore_matches f {} c).found]

end Cluster.Finder

namespace Cohort.Ranker

variable {E : Type} [Entity E]

theorem reset_fresh (r : Ranker) (c : Collapsed) : r.reset c = ({} : Ranker).reset c := by
  simp only [reset, Buffer.refill_eq]

theorem run_fresh (r : Ranker) (c : Collapsed) : r.run c = ({} : Ranker).run c := by
  rw [run, run, start, start, reset_fresh]

/-- A ranker used before answers as a new one, and leaves the component as that would. -/
theorem rank_fresh (r : Ranker) (c : Component) (t : Table E) :
    (r.rank c t).1 = (({} : Ranker).rank c t).1 ∧
      (r.rank c t).2.1 = (({} : Ranker).rank c t).2.1 := by
  rw [rank, rank]
  split
  · exact ⟨rfl, rfl⟩
  · rw [rankByWaves_eq, rankByWaves_eq, run_fresh r]
    exact ⟨rfl, rfl⟩

end Cohort.Ranker

open Cluster (Finder)
open Cohort (Ranker)

variable {E : Type} [Entity E]

namespace Resolution

/-- The component with its clusters and ranks, from a finder and a ranker used for nothing else. -/
def settleAnew (t : Table E) (c : Component) : Except (GraphError E) Component :=
  let (answer, c, _) := ({} : Ranker).rank (c.setClusters (({} : Finder).find c t).1) t
  answer.map fun _ => c

theorem settle_eq_mapM (t : Table E) (f : Finder) (r : Ranker) (cs : List Component) :
    settle t f r cs = cs.mapM (settleAnew t) := by
  induction cs generalizing f r with
  | nil => rfl
  | cons c cs ih =>
    obtain ⟨hanswer, hafter⟩ := r.rank_fresh (c.setClusters (f.find c t).1) t
    have hfirst : settleAnew t c = (r.rank (c.setClusters (f.find c t).1) t).1.map
        fun _ => (r.rank (c.setClusters (f.find c t).1) t).2.1 := by
      rw [settleAnew, ← f.find_fresh, hanswer, hafter]
    rw [List.mapM_cons, hfirst]
    simp only [settle, ih]
    obtain ⟨answer, c', r'⟩ := r.rank (c.setClusters (f.find c t).1) t
    cases answer with
    | error e => rfl
    | ok _ => cases cs.mapM (settleAnew t) <;> rfl

end Resolution

/-- Whatever a finder and a ranker have been through, rankings that were refused included, they do
for a component what new ones would, and leave it as those would. So one of each may serve a whole
resolution, and no component shows which others came before it. -/
theorem reuse_invisible (f : Finder) (r : Ranker) (t : Table E) :
    (∀ c, (f.find c t).1 = (({} : Finder).find c t).1) ∧
    (∀ c, (r.rank c t).1 = (({} : Ranker).rank c t).1 ∧
      (r.rank c t).2.1 = (({} : Ranker).rank c t).2.1) ∧
    ∀ cs, Resolution.settle t f r cs = cs.mapM (Resolution.settleAnew t) :=
  ⟨fun c => f.find_fresh c t, fun c => r.rank_fresh c t, Resolution.settle_eq_mapM t f r⟩

/-- A ranking that is refused leaves its counters behind. -/
example : (({} : Ranker).rank
    { id := 0, verts := #[⟨0, [1], [1], 0, none⟩, ⟨1, [0], [0], 0, none⟩]
      roots := [], pinnacles := [] }
    ({} : Table Int)).2.2.left = #[1, 1] := by
  cbv

end DepGraph
