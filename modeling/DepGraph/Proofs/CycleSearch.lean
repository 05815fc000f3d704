import DepGraph.Cycle.Search
import DepGraph.Proofs.Rotation
import DepGraph.Proofs.Walks
import DepGraph.Proofs.Writes
import Mathlib.Data.List.Chain

/-!
# The cycle search is sound and complete

On its way the search keeps a path of links without repetition, and has marked exactly that path. A
vertex is left only when everything it leads to has been left before, so a vertex that was left lies
on no cycle. A search that ends without a hit has left every vertex.
-/

namespace DepGraph.Cycle.Search

variable {next : Nat → List Nat} {n : Nat} {s : Search}

def vertices (s : Search) : List Nat := s.path.map (·.vertex)

def Visited (s : Search) (v : Nat) : Prop := s.visited.getD v false = true

def Left (s : Search) (v : Nat) : Prop := s.Visited v ∧ v ∉ s.vertices

structure Invariant (next : Nat → List Nat) (n : Nat) (s : Search) : Prop where
  marks_size : s.onPath.size = n
  visited_size : s.visited.size = n
  path_marks : ∀ v, s.onPath.getD v false = true ↔ v ∈ s.vertices
  path_visited : ∀ v ∈ s.vertices, s.Visited v
  path_nodup : s.vertices.Nodup
  path_chain : s.vertices.IsChain fun a b => a ∈ next b
  path_rest : ∀ p ∈ s.path, ∀ x ∈ p.rest, x ∈ next p.vertex
  path_next : ∀ p ∈ s.path, ∀ x ∈ next p.vertex,
    x ∈ p.rest ∨ s.Left x ∨ [x, p.vertex].Sublist s.vertices
  left_next : ∀ v, s.Left v → ∀ x ∈ next v, s.Left x
  left_acyclic : ∀ v, s.Left v → ¬ Relation.TransGen (fun a b => b ∈ next a) v v

theorem isOpen_iff {v : Nat} : s.isOpen v = true ↔ v < s.visited.size ∧ ¬ s.Visited v := by
  simp only [isOpen, beq_iff_eq, Visited, Array.getElem?_eq_some_iff, Array.getD]
  constructor
  · rintro ⟨hv, h⟩
    exact ⟨hv, by simp [hv, h]⟩
  · rintro ⟨hv, h⟩
    exact ⟨hv, by simpa [hv] using h⟩

theorem left_leads (h : Invariant next n s) {a b : Nat} (ha : s.Left a)
    (hab : Leads next a b) : s.Left b := by
  induction hab with
  | refl => exact ha
  | tail _ hbc ih => exact h.left_next _ ih _ hbc

theorem lt_of_visited (h : Invariant next n s) {v : Nat} (hv : s.Visited v) : v < n := by
  rw [← h.visited_size]
  by_contra hge
  simp [Visited, hge] at hv

section Steps

variable {v u : Nat} {rest : List Nat} {below : List Frame}

theorem enter_visited (next : Nat → List Nat) (hu : s.isOpen u = true) (x : Nat) :
    (s.enter next u).Visited x ↔ x = u ∨ s.Visited x := by
  rw [Visited, enter, Writes.getD_setIfInBounds _ _ _ _ _ (isOpen_iff.mp hu).1]
  split
  · simp [*]
  · simp [*, Visited]

theorem enter_left (hu : s.isOpen u = true) (x : Nat) : (s.enter next u).Left x ↔ s.Left x := by
  have hverts : (s.enter next u).vertices = u :: s.vertices := rfl
  rw [Left, Left, enter_visited next hu, hverts, List.mem_cons, not_or]
  constructor
  · rintro ⟨hx, hxu, hxp⟩
    exact ⟨hx.resolve_left hxu, hxp⟩
  · rintro ⟨hx, hxp⟩
    refine ⟨Or.inr hx, ?_, hxp⟩
    rintro rfl
    exact (isOpen_iff.mp hu).2 hx

theorem enter_invariant (h : Invariant next n s) (hu : s.isOpen u = true)
    (hlink : ∀ top ∈ s.path.head?, u ∈ next top.vertex) : Invariant next n (s.enter next u) := by
  obtain ⟨hlt, hnew⟩ := isOpen_iff.mp hu
  have hverts : (s.enter next u).vertices = u :: s.vertices := rfl
  have hmarks : u < s.onPath.size := by
    have := h.marks_size
    have := h.visited_size
    omega
  constructor
  case marks_size => simp [enter, h.marks_size]
  case visited_size => simp [enter, h.visited_size]
  case path_marks =>
    intro x
    rw [hverts, List.mem_cons, enter, Writes.getD_setIfInBounds _ _ _ _ _ hmarks]
    split
    · simp [*]
    · rw [h.path_marks x]
      simp [*]
  case path_visited =>
    intro x hx
    rw [enter_visited next hu]
    rw [hverts] at hx
    exact (List.mem_cons.mp hx).imp_right (h.path_visited x)
  case path_nodup =>
    rw [hverts]
    exact List.nodup_cons.mpr ⟨fun hx => hnew (h.path_visited u hx), h.path_nodup⟩
  case path_chain =>
    rw [hverts, List.isChain_cons]
    refine ⟨?_, h.path_chain⟩
    intro w hw
    rw [vertices, List.head?_map] at hw
    obtain ⟨top, htop, rfl⟩ := Option.map_eq_some_iff.mp hw
    exact hlink top htop
  case path_rest =>
    intro p hp x hx
    rcases List.mem_cons.mp hp with rfl | hp
    · exact hx
    · exact h.path_rest p hp x hx
  case path_next =>
    intro p hp x hx
    rw [enter_left hu, hverts]
    rcases List.mem_cons.mp hp with rfl | hp
    · exact Or.inl hx
    · rcases h.path_next p hp x hx with hx | hx | hx
      · exact Or.inl hx
      · exact Or.inr (Or.inl hx)
      · exact Or.inr (Or.inr (hx.cons u))
  case left_next =>
    intro x hx y hy
    rw [enter_left hu] at hx ⊢
    exact h.left_next x hx y hy
  case left_acyclic =>
    intro x hx
    rw [enter_left hu] at hx
    exact h.left_acyclic x hx

theorem advance_invariant (upper : List Frame) (h : Invariant next n s)
    (hp : s.path = upper ++ ⟨v, u :: rest⟩ :: below)
    (hu : s.Left u ∨ [u, v].Sublist s.vertices) :
    Invariant next n { s with path := upper ++ ⟨v, rest⟩ :: below } := by
  have hverts : ({ s with path := upper ++ ⟨v, rest⟩ :: below } : Search).vertices =
      s.vertices := by simp [vertices, hp]
  have hleft (x : Nat) : ({ s with path := upper ++ ⟨v, rest⟩ :: below } : Search).Left x ↔
      s.Left x := by
    rw [Left, Left, hverts]
    rfl
  have hold {p : Frame} (hpm : p ∈ upper ++ ⟨v, rest⟩ :: below) :
      p ∈ s.path ∨ p = ⟨v, rest⟩ := by
    rw [hp]
    exact Walk.mem_advance hpm
  have htop : (⟨v, u :: rest⟩ : Frame) ∈ s.path := by simp [hp]
  constructor
  case marks_size => exact h.marks_size
  case visited_size => exact h.visited_size
  case path_marks =>
    rw [hverts]
    exact h.path_marks
  case path_visited =>
    rw [hverts]
    exact h.path_visited
  case path_nodup =>
    rw [hverts]
    exact h.path_nodup
  case path_chain =>
    rw [hverts]
    exact h.path_chain
  case path_rest =>
    intro p hpm x hx
    rcases hold hpm with hpm | rfl
    · exact h.path_rest p hpm x hx
    · exact h.path_rest _ htop x (List.mem_cons_of_mem _ hx)
  case path_next =>
    intro p hpm x hx
    rw [hleft, hverts]
    rcases hold hpm with hpm | rfl
    · exact h.path_next p hpm x hx
    · rcases h.path_next _ htop x hx with hxr | hxr
      · rcases List.mem_cons.mp hxr with rfl | hxr
        · exact Or.inr hu
        · exact Or.inl hxr
      · exact Or.inr hxr
  case left_next =>
    intro x hx y hy
    rw [hleft] at hx ⊢
    exact h.left_next x hx y hy
  case left_acyclic =>
    intro x hx
    rw [hleft] at hx
    exact h.left_acyclic x hx

/-- Once its successors are used up, the innermost vertex links to left vertices only. -/
theorem top_next (h : Invariant next n s) (hp : s.path = ⟨v, []⟩ :: below) {x : Nat}
    (hx : x ∈ next v) : s.Left x := by
  rcases h.path_next ⟨v, []⟩ (by simp [hp]) x hx with hx | hx | hx
  · cases hx
  · exact hx
  · have hnodup := h.path_nodup
    have hverts : s.vertices = v :: below.map (·.vertex) := by simp [vertices, hp]
    rw [hverts] at hx hnodup
    have hmem : v ∈ below.map (·.vertex) := by
      cases hx with
      | cons _ hx => exact hx.subset (by simp)
      | cons_cons _ hx => exact hx.subset (by simp)
    exact absurd hmem (List.nodup_cons.mp hnodup).1

theorem leave_left (h : Invariant next n s) (hp : s.path = ⟨v, []⟩ :: below) (x : Nat) :
    ({ s with path := below, onPath := s.onPath.setIfInBounds v false } : Search).Left x ↔
      x = v ∨ s.Left x := by
  have hverts : s.vertices = v :: below.map (·.vertex) := by simp [vertices, hp]
  have hnodup := h.path_nodup
  have hv := h.path_visited v (by simp [hverts])
  rw [hverts, List.nodup_cons] at hnodup
  have hbelow :
      ({ s with path := below, onPath := s.onPath.setIfInBounds v false } : Search).vertices =
        below.map (·.vertex) := rfl
  rw [Left, Left, hbelow, hverts, List.mem_cons, not_or]
  constructor
  · rintro ⟨hx, hxb⟩
    by_cases hxv : x = v
    · exact Or.inl hxv
    · exact Or.inr ⟨hx, hxv, hxb⟩
  · rintro (rfl | ⟨hx, _, hxb⟩)
    · exact ⟨hv, hnodup.1⟩
    · exact ⟨hx, hxb⟩

theorem leave_invariant (h : Invariant next n s) (hp : s.path = ⟨v, []⟩ :: below) :
    Invariant next n { s with path := below, onPath := s.onPath.setIfInBounds v false } := by
  have hverts : s.vertices = v :: below.map (·.vertex) := by simp [vertices, hp]
  have hnodup := h.path_nodup
  have hchain := h.path_chain
  rw [hverts] at hnodup hchain
  have hnew := List.nodup_cons.mp hnodup
  have hmarks : v < s.onPath.size := by
    have := lt_of_visited h (h.path_visited v (by simp [hverts]))
    have := h.marks_size
    omega
  constructor
  case marks_size => simp [h.marks_size]
  case visited_size => exact h.visited_size
  case path_marks =>
    intro x
    rw [Writes.getD_setIfInBounds _ _ _ _ _ hmarks]
    split
    · rename_i hxv
      subst hxv
      simpa [vertices] using hnew.1
    · rename_i hxv
      rw [h.path_marks x, hverts, List.mem_cons, or_iff_right hxv]
      rfl
  case path_visited =>
    intro x hx
    exact h.path_visited x (by rw [hverts]; exact List.mem_cons_of_mem _ hx)
  case path_nodup => exact hnew.2
  case path_chain => exact hchain.tail
  case path_rest =>
    intro p hpm x hx
    exact h.path_rest p (by rw [hp]; exact List.mem_cons_of_mem _ hpm) x hx
  case path_next =>
    intro p hpm x hx
    rw [leave_left h hp]
    rcases h.path_next p (by rw [hp]; exact List.mem_cons_of_mem _ hpm) x hx with hxr | hxl | hxs
    · exact Or.inl hxr
    · exact Or.inr (Or.inl (Or.inr hxl))
    · rw [hverts] at hxs
      cases hxs with
      | cons _ hxs => exact Or.inr (Or.inr hxs)
      | cons_cons _ _ => exact Or.inr (Or.inl (Or.inl rfl))
  case left_next =>
    intro x hx y hy
    rw [leave_left h hp] at hx ⊢
    rcases hx with rfl | hx
    · exact Or.inr (top_next h hp hy)
    · exact Or.inr (h.left_next x hx y hy)
  case left_acyclic =>
    intro x hx
    rw [leave_left h hp] at hx
    rcases hx with rfl | hx
    · -- a cycle through the vertex would lead from a left vertex back to it
      intro hcyc
      obtain ⟨y, hy, hback⟩ := Relation.TransGen.head'_iff.mp hcyc
      exact (left_leads h (top_next h hp hy) hback).2 (by simp [hverts])
    · exact h.left_acyclic x hx

end Steps

theorem left_of_closed (hnext : ∀ v, ∀ u ∈ next v, u < n) (h : Invariant next n s) {v u : Nat}
    (hu : u ∈ next v) (hpath : s.onPath.getD u false ≠ true) (hopen : s.isOpen u ≠ true) :
    s.Left u := by
  rw [Ne, h.path_marks] at hpath
  refine ⟨?_, hpath⟩
  by_contra hnew
  exact hopen (isOpen_iff.mpr ⟨by rw [h.visited_size]; exact hnext v u hu, hnew⟩)

theorem step_running (hnext : ∀ v, ∀ u ∈ next v, u < n) (h : Invariant next n s) {s' : Search}
    (hs : s.step next = .running s') :
    Invariant next n s' ∧ ∀ x, s.Visited x → s'.Visited x := by
  unfold step at hs
  split at hs
  · cases hs
  · rename_i v below hp
    cases hs
    exact ⟨leave_invariant h hp, fun _ hx => hx⟩
  · rename_i v u rest below hp
    have hu : u ∈ next v := h.path_rest ⟨v, u :: rest⟩ (by simp [hp]) u List.mem_cons_self
    dsimp only at hs
    split at hs
    · cases hs
    · rename_i hpath
      split at hs
      · rename_i hopen
        cases hs
        have hlink : ∀ top ∈ s.path.head?, u ∈ next top.vertex := by
          intro top htop
          obtain rfl : ⟨v, u :: rest⟩ = top := by simpa [hp] using htop
          exact hu
        have hmoved := advance_invariant [⟨u, next u⟩] (enter_invariant h hopen hlink)
          (by rw [enter, hp]; rfl) (Or.inr (by simp [vertices, enter, hp]))
        refine ⟨hmoved, fun x hx => ?_⟩
        exact (enter_visited next hopen x).mpr (Or.inr hx)
      · rename_i hopen
        cases hs
        have hleft := left_of_closed hnext h hu hpath hopen
        exact ⟨advance_invariant [] h hp (Or.inl hleft), fun _ hx => hx⟩

/-- What a hit cuts out of the path runs around a cycle. -/
theorem step_found (hirr : ∀ v, v ∉ next v) (h : Invariant next n s) {segment : List Nat}
    (hs : s.step next = .found segment) : Around (fun a b => a ∈ next b) segment := by
  unfold step at hs
  split at hs
  · cases hs
  · cases hs
  · rename_i v u rest below hp
    have hu : u ∈ next v := h.path_rest ⟨v, u :: rest⟩ (by simp [hp]) u List.mem_cons_self
    have hverts : s.vertices = v :: below.map (·.vertex) := by simp [vertices, hp]
    dsimp only at hs
    split at hs
    · rename_i hpath
      cases hs
      rw [h.path_marks, hverts] at hpath
      obtain ⟨upper, lower, hcut, _, hsplit⟩ := Walk.splitThrough_of_mem hpath
      have hseg : cut (⟨v, rest⟩ :: below) u = upper ++ [u] := by
        rw [cut, List.map_cons, hsplit]
      have hinfix : (upper ++ [u]).IsInfix s.vertices := by
        rw [hverts, hcut]
        exact ⟨[], lower, by simp⟩
      have hchain := h.path_chain.infix hinfix
      have hnodup := h.path_nodup.sublist hinfix.sublist
      rw [hseg]
      -- the path starts at `v`, so either `u` is `v` itself or the cut starts at `v`
      cases upper with
      | nil =>
        obtain ⟨rfl, _⟩ := List.cons.inj hcut
        exact absurd hu (hirr v)
      | cons w upper =>
        obtain ⟨rfl, _⟩ := List.cons.inj hcut
        refine ⟨by simp, hnodup, ?_⟩
        have hclosed : (v :: (upper ++ [u]) ++ [v]).IsChain fun a b => a ∈ next b := by
          refine List.isChain_append.mpr ⟨hchain, List.isChain_singleton v, ?_⟩
          intro a ha b hb
          rw [← List.cons_append, List.getLast?_concat] at ha
          obtain rfl := Option.some.inj ha
          obtain rfl : v = b := by simpa using hb
          exact hu
        simpa [pairs] using linked_of_chain hclosed
    · split at hs <;> cases hs

theorem step_exhausted (hs : s.step next = .exhausted) : s.path = [] := by
  unfold step at hs
  split at hs
  · assumption
  · cases hs
  · dsimp only at hs
    split at hs
    · cases hs
    · split at hs <;> cases hs

theorem run_some (hnext : ∀ v, ∀ u ∈ next v, u < n) (hirr : ∀ v, v ∉ next v)
    (h : Invariant next n s) {segment : List Nat} {s' : Search}
    (hr : run next s = (some segment, s')) : Around (fun a b => a ∈ next b) segment := by
  fun_induction run next s with
  | case1 s hs => cases hr
  | case2 s found hs =>
    cases hr
    exact step_found hirr h hs
  | case3 s s₁ hs ih => exact ih (step_running hnext h hs).1 hr

theorem run_none (hnext : ∀ v, ∀ u ∈ next v, u < n) (h : Invariant next n s) {s' : Search}
    (hr : run next s = (none, s')) :
    Invariant next n s' ∧ s'.path = [] ∧ ∀ x, s.Visited x → s'.Visited x := by
  fun_induction run next s with
  | case1 s hs =>
    cases hr
    exact ⟨h, step_exhausted hs, fun _ hx => hx⟩
  | case2 s found hs => cases hr
  | case3 s s₁ hs ih =>
    obtain ⟨h₁, hmono⟩ := step_running hnext h hs
    obtain ⟨hinv, hpath, hvisited⟩ := ih h₁ hr
    exact ⟨hinv, hpath, fun x hx => hvisited x (hmono x hx)⟩

theorem start_invariant (next : Nat → List Nat) (n : Nat) : Invariant next n (start n) := by
  have hvisited (v : Nat) : ¬ (start n).Visited v := by
    rw [Visited, start, Writes.getD_replicate]
    exact Bool.false_ne_true
  refine ⟨Array.size_replicate, Array.size_replicate, ?_, ?_, List.nodup_nil, List.isChain_nil,
    ?_, ?_, ?_, ?_⟩
  · intro v
    rw [start, Writes.getD_replicate]
    simp [vertices]
  · intro v hv
    cases hv
  · intro p hp
    cases hp
  · intro p hp
    cases hp
  · intro v hv
    exact absurd hv.1 (hvisited v)
  · intro v hv
    exact absurd hv.1 (hvisited v)

theorem enter_start (h : Invariant next n s) (hp : s.path = []) {v : Nat}
    (hv : s.isOpen v = true) : Invariant next n (s.enter next v) :=
  enter_invariant h hv (by simp [hp])

theorem from?_some (hnext : ∀ v, ∀ u ∈ next v, u < n) (hirr : ∀ v, v ∉ next v) {vs : List Nat}
    (h : Invariant next n s) (hp : s.path = []) {segment : List Nat}
    (hf : from? next vs s = some segment) : Around (fun a b => a ∈ next b) segment := by
  fun_induction from? next vs s with
  | case1 s => cases hf
  | case2 v vs s hv found s₁ hr =>
    cases hf
    exact run_some hnext hirr (enter_start h hp hv) hr
  | case3 v vs s hv s₁ hr ih =>
    obtain ⟨h₁, hp₁, _⟩ := run_none hnext (enter_start h hp hv) hr
    exact ih h₁ hp₁ hf
  | case4 v vs s hv ih => exact ih h hp hf

/-- A search without a hit has visited every start, on top of what was visited before. -/
theorem from?_none (hnext : ∀ v, ∀ u ∈ next v, u < n) {vs : List Nat} (h : Invariant next n s)
    (hp : s.path = []) (hf : from? next vs s = none) :
    ∃ s', Invariant next n s' ∧ s'.path = [] ∧ (∀ x, s.Visited x → s'.Visited x) ∧
      ∀ v ∈ vs, v < n → s'.Visited v := by
  fun_induction from? next vs s with
  | case1 s => exact ⟨s, h, hp, fun _ hx => hx, by simp⟩
  | case2 v vs s hv found s₁ hr => cases hf
  | case3 v vs s hv s₁ hr ih =>
    obtain ⟨h₁, hp₁, hmono₁⟩ := run_none hnext (enter_start h hp hv) hr
    obtain ⟨s', h', hp', hmono, hvs⟩ := ih h₁ hp₁ hf
    have hentered {x : Nat} (hx : x = v ∨ s.Visited x) : s'.Visited x :=
      hmono x (hmono₁ x ((enter_visited next hv x).mpr hx))
    refine ⟨s', h', hp', fun x hx => hentered (Or.inr hx), ?_⟩
    intro w hw hwn
    rcases List.mem_cons.mp hw with rfl | hw
    · exact hentered (Or.inl rfl)
    · exact hvs w hw hwn
  | case4 v vs s hv ih =>
    obtain ⟨s', h', hp', hmono, hvs⟩ := ih h hp hf
    refine ⟨s', h', hp', hmono, ?_⟩
    intro w hw hwn
    rcases List.mem_cons.mp hw with rfl | hw
    · apply hmono
      by_contra hnew
      exact hv (isOpen_iff.mpr ⟨by rw [h.visited_size]; exact hwn, hnew⟩)
    · exact hvs w hw hwn

theorem acyclic_of_from?_none (hnext : ∀ v, ∀ u ∈ next v, u < n) {vs : List Nat}
    (hall : ∀ v < n, v ∈ vs) (hf : from? next vs (start n) = none) {v : Nat} (hv : v < n) :
    ¬ Relation.TransGen (fun a b => b ∈ next a) v v := by
  obtain ⟨s', h', hp', _, hvs⟩ := from?_none hnext (start_invariant next n) rfl hf
  exact h'.left_acyclic v ⟨hvs v (hall v hv) hv, by simp [vertices, hp']⟩

end DepGraph.Cycle.Search
