import DepGraph.Proofs.ClusterClasses
import DepGraph.Proofs.CycleSearch
import DepGraph.Proofs.Waves

/-!
# The states of the searches and of the ranking

The loops work on states that outlive one turn: the finder of clusters, the search for a cycle, and
the ranker with its wave. Each has its states listed here by how the loop gets to them, and in all
of them the invariant of the loop holds, not only in the last.
-/

namespace DepGraph

namespace Cluster.Finder

variable {next : Nat → List Nat} {n : Nat} {f : Finder}

/-- The states of a search of `n` vertices: wiped, at the start of a walk, and after each step. -/
inductive Passes (next : Nat → List Nat) (n : Nat) : Finder → Prop where
  | reset (old : Finder) : Passes next n (old.reset n)
  | enter {f : Finder} {v : Nat} : Passes next n f → f.path = [] → f.isOpen v = true →
      Passes next n (f.enter next v)
  | step {f f' : Finder} : Passes next n f → f.step next = some f' → Passes next n f'

theorem Passes.invariant (hnext : ∀ v, ∀ u ∈ next v, u < n) (h : Passes next n f) :
    Invariant next n f := by
  induction h with
  | reset old => exact reset_invariant next old n
  | enter _ hp hv ih => exact enter_invariant ih hv (by simp [onPath, hp])
  | step _ hs ih => exact step_invariant hnext ih hs

def Rests (next : Nat → List Nat) (n : Nat) (f : Finder) : Prop := Passes next n f ∧ f.path = []

theorem run_rests (h : Passes next n f) : Rests next n (run next f) := by
  fun_induction run next f with
  | case1 f hs => exact ⟨h, step_eq_none hs⟩
  | case2 f f' hs ih => exact ih (h.step hs)

theorem walk_rests (h : Rests next n f) (v : Nat) : Rests next n (walk next f v) := by
  unfold walk
  split
  · rename_i hv
    exact run_rests (h.1.enter h.2 hv)
  · exact h

theorem explore_rests (f : Finder) (c : Component) :
    Rests c.descendants c.size (f.explore c) := by
  apply List.foldlRecOn
  · apply List.foldlRecOn
    · exact ⟨.reset f, rfl⟩
    · exact fun g hg v _ => walk_rests hg v
  · intro g hg v _
    split
    · exact walk_rests hg v
    · exact hg

end Cluster.Finder

namespace Cycle.Search

variable {next : Nat → List Nat} {n : Nat} {s : Search}

/-- The states of a search of `n` vertices: blank, at a start, and after each step. -/
inductive Passes (next : Nat → List Nat) (n : Nat) : Search → Prop where
  | start : Passes next n (start n)
  | enter {s : Search} {v : Nat} : Passes next n s → s.path = [] → s.isOpen v = true →
      Passes next n (s.enter next v)
  | step {s s' : Search} : Passes next n s → s.step next = .running s' → Passes next n s'

theorem Passes.invariant (hnext : ∀ v, ∀ u ∈ next v, u < n) (h : Passes next n s) :
    Invariant next n s := by
  induction h with
  | start => exact start_invariant next n
  | enter _ hp hv ih => exact enter_start ih hp hv
  | step _ hs ih => exact (step_running hnext ih hs).1

theorem run_passes (h : Passes next n s) : Passes next n (run next s).2 ∧
    match (run next s).1 with
    | none => (run next s).2.path = []
    | some segment => (run next s).2.step next = .found segment := by
  fun_induction run next s with
  | case1 s hs => exact ⟨h, step_exhausted hs⟩
  | case2 s segment hs => exact ⟨h, hs⟩
  | case3 s s' hs ih => exact ih (h.step hs)

theorem from?_passes (h : Passes next n s) (hp : s.path = []) (vs : List Nat) :
    ∃ s', Passes next n s' ∧ match from? next vs s with
      | none => s'.path = []
      | some segment => s'.step next = .found segment := by
  fun_induction from? next vs s with
  | case1 s => exact ⟨s, h, hp⟩
  | case2 v vs s hv segment s' hrun =>
    have hend := run_passes (h.enter hp hv)
    rw [hrun] at hend
    exact ⟨s', hend⟩
  | case3 v vs s hv s' hrun ih =>
    have hend := run_passes (h.enter hp hv)
    rw [hrun] at hend
    exact ih hend.1 hend.2
  | case4 v vs s hv ih => exact ih h hp

end Cycle.Search

namespace Cohort.Ranking

variable {c : Collapsed} {s : Ranking}

/-- The states of a ranking: before the first wave, and after each. -/
inductive Passes (c : Collapsed) : Ranking → Prop where
  | start (old : Ranker) : Passes c (old.start c)
  | advance {s : Ranking} : Passes c s → s.ranker.wave ≠ [] → Passes c (s.advance c.next)

section Run

variable (hs : c.descendants.size = c.size) (hnext : ∀ g, ∀ d ∈ c.next g, d < c.size)
  (hnodup : ∀ g, (c.next g).Nodup)
include hs hnext hnodup

theorem Passes.between (h : Passes c s) : ∃ done, Between c.next c.size done s := by
  induction h with
  | start old => exact ⟨[], start_between old hs hnodup⟩
  | advance _ hwave ih =>
    obtain ⟨done, hdone⟩ := ih
    exact ⟨_, hdone.advance hnext hnodup hwave⟩

theorem run_passes (r : Ranker) :
    (∀ wave ∈ (r.run c).cohorts, ∃ s, Passes c s ∧ s.ranker.wave = wave) ∧
      Passes c (r.run c) ∧ (r.run c).ranker.wave = [] := by
  let P (done : List (List Nat)) (s : Ranking) : Prop :=
    Between c.next c.size done s ∧ Passes c s ∧
      ∀ wave ∈ done, ∃ s, Passes c s ∧ s.ranker.wave = wave
  have hstep (done : List (List Nat)) (s : Ranking) (h : P done s) (hwave : s.ranker.wave ≠ []) :
      P (done ++ [s.ranker.wave]) (s.advance c.next) := by
    obtain ⟨hbetween, hpasses, hall⟩ := h
    refine ⟨hbetween.advance hnext hnodup hwave, hpasses.advance hwave, fun wave hmem => ?_⟩
    rcases List.mem_append.mp hmem with hmem | hmem
    · exact hall wave hmem
    · exact ⟨s, hpasses, (List.mem_singleton.mp hmem).symm⟩
  obtain ⟨done, ⟨hbetween, hpasses, hall⟩, hend⟩ :=
    run_induction hstep (s := r.start c) ⟨start_between r hs hnodup, .start r, by simp⟩
  refine ⟨fun wave hmem => ?_, hpasses, hend⟩
  have hcohorts : (r.run c).cohorts = opened done [] := hend ▸ hbetween.cohorts
  rw [hcohorts] at hmem
  rcases mem_opened hmem with hmem | rfl
  · exact hall wave hmem
  · exact ⟨_, hpasses, hend⟩

end Run

end Cohort.Ranking

end DepGraph
