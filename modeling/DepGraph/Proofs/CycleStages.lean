import DepGraph.Proofs.Connectivity
import DepGraph.Proofs.CycleDetection
import DepGraph.Proofs.Tallies

/-!
# The cycle search, state by state

A search is followed through all its starts, turn by turn, with a tally beside it. In every state
the marks are those of the path, the path is a chain of links without repetition, and a vertex that
was left leads to visited ones only. So a hit is always cut from a path that holds it, no vertex is
entered twice whatever the order of the starts, and the search comes to an end.
-/

namespace DepGraph.Cycle.Search

open Cohort.Ranker (linksFrom)

variable {next : Nat → List Nat} {n : Nat} {s s' : Search} {starts pending : List Nat}
  {c : Walk.Tally}

def setOut (next : Nat → List Nat) (s : Search) (v : Nat) : Search :=
  if s.isOpen v then s.enter next v else s

/-- The stages of a search: the starts still to be tried, the tally and the state. -/
inductive Stage (next : Nat → List Nat) (n : Nat) (starts : List Nat) :
    List Nat → Walk.Tally → Search → Prop where
  | blank : Stage next n starts starts {} (start n)
  | setOut {v : Nat} {pending : List Nat} {c : Walk.Tally} {s : Search} :
      Stage next n starts (v :: pending) c s → s.path = [] →
      Stage next n starts pending (c.start s.path (s.setOut next v).path) (s.setOut next v)
  | turn {pending : List Nat} {c : Walk.Tally} {s s' : Search} :
      Stage next n starts pending c s → s.step next = .running s' →
      Stage next n starts pending (c.turn s.path s'.path) s'

theorem setOut_start (hp : s.path = []) (v : Nat) :
    Walk.Start next s.Visited (s.setOut next v).Visited (s.setOut next v).path := by
  by_cases hv : s.isOpen v = true
  · have hpath : (s.enter next v).path = [⟨v, next v⟩] := by rw [enter, hp]
    rw [setOut, if_pos hv, hpath]
    exact .enter (isOpen_iff.mp hv).2 (enter_visited next hv)
  · rw [setOut, if_neg hv, hp]
    exact .skip fun _ => Iff.rfl

theorem step_turn (hs : s.step next = .running s') :
    Walk.Turn next s.Visited s'.Visited s.path s'.path := by
  unfold step at hs
  split at hs
  · cases hs
  · rename_i v below hp
    cases hs
    rw [hp]
    exact .leave fun _ => Iff.rfl
  · rename_i v u rest below hp
    rw [hp]
    dsimp only at hs
    split at hs
    · cases hs
    · split at hs
      · rename_i hopen
        cases hs
        exact .enter (isOpen_iff.mp hopen).2
          (enter_visited next (s := { s with path := ⟨v, rest⟩ :: below }) hopen)
      · cases hs
        exact .pass fun _ => Iff.rfl

theorem Stage.passes (h : Stage next n starts pending c s) : Passes next n s := by
  induction h with
  | blank => exact .start
  | @setOut v _ _ s _ hp ih =>
    by_cases hv : s.isOpen v = true
    · rw [Search.setOut, if_pos hv]
      exact ih.enter hp hv
    · rw [Search.setOut, if_neg hv]
      exact ih
  | turn _ hs ih => exact ih.step hs

/-- The run: the tally balances in every stage. -/
theorem Stage.balanced (h : Stage next n starts pending c s) :
    Walk.Balanced next s.Visited c s.path := by
  induction h with
  | blank =>
    apply Walk.Balanced.blank
    intro v
    rw [Visited, start, Writes.getD_replicate]
    exact Bool.false_ne_true
  | setOut _ hp ih =>
    rw [hp] at ih ⊢
    exact ih.start (setOut_start hp _)
  | turn _ hs ih => exact ih.turn (step_turn hs)

section Ends

def finish (next : Nat → List Nat) (pending : List Nat) (s : Search) : Option (List Nat) :=
  match run next s with
  | (some segment, _) => some segment
  | (none, s') => from? next pending s'

theorem run_unfold (next : Nat → List Nat) (s : Search) :
    run next s = match s.step next with
      | .exhausted => (none, s)
      | .found segment => (some segment, s)
      | .running s' => run next s' := by
  rw [run]
  split
  all_goals
    rename_i hs
    rw [hs]

theorem finish_of_path_nil (pending : List Nat) (hp : s.path = []) :
    finish next pending s = from? next pending s := by
  have hs : s.step next = .exhausted := by simp [step, hp]
  rw [finish, run_unfold, hs]

theorem finish_of_running (pending : List Nat) (hs : s.step next = .running s') :
    finish next pending s = finish next pending s' := by
  rw [finish, finish, run_unfold next s, hs]

theorem finish_of_found (pending : List Nat) {segment : List Nat}
    (hs : s.step next = .found segment) : finish next pending s = some segment := by
  rw [finish, run_unfold, hs]

theorem finish_setOut (v : Nat) (pending : List Nat) (hp : s.path = []) :
    finish next pending (s.setOut next v) = finish next (v :: pending) s := by
  rw [finish_of_path_nil (v :: pending) hp, from?]
  by_cases hv : s.isOpen v = true
  · rw [setOut, if_pos hv, if_pos hv]
    rfl
  · rw [setOut, if_neg hv, if_neg hv, finish_of_path_nil pending hp]

/-- Every stage of a search leads to the same answer. -/
theorem Stage.finish_eq (h : Stage next n starts pending c s) :
    finish next pending s = from? next starts (start n) := by
  induction h with
  | blank => exact finish_of_path_nil starts rfl
  | setOut _ hp ih => rw [finish_setOut _ _ hp, ih]
  | turn _ hs ih => rw [← ih, finish_of_running _ hs]

theorem Stage.run (h : Stage next n starts pending c s) :
    ∃ c' s', Stage next n starts pending c' s' ∧
      (s'.path = [] ∨ ∃ segment, s'.step next = .found segment) := by
  fun_induction Search.run next s generalizing c with
  | case1 s hs => exact ⟨c, s, h, Or.inl (step_exhausted hs)⟩
  | case2 s segment hs => exact ⟨c, s, h, Or.inr ⟨segment, hs⟩⟩
  | case3 s s' hs ih => exact ih (h.turn hs)

/-- Whether a search is over, and with which answer. -/
inductive Over (next : Nat → List Nat) (pending : List Nat) (s : Search) :
    Option (List Nat) → Prop where
  | spent : pending = [] → s.path = [] → Over next pending s none
  | hit {segment : List Nat} : s.step next = .found segment → Over next pending s (some segment)

theorem Stage.over_of_found (h : Stage next n starts pending c s) {segment : List Nat}
    (hs : s.step next = .found segment) : Over next pending s (from? next starts (start n)) := by
  rw [← h.finish_eq, finish_of_found pending hs]
  exact .hit hs

theorem Stage.over_of_spent (h : Stage next n starts [] c s) (hp : s.path = []) :
    Over next [] s (from? next starts (start n)) := by
  rw [← h.finish_eq, finish_of_path_nil [] hp]
  exact .spent rfl hp

theorem Stage.ends (h : Stage next n starts pending c s) :
    ∃ pending' c' s', Stage next n starts pending' c' s' ∧
      Over next pending' s' (from? next starts (start n)) := by
  induction pending generalizing c s with
  | nil =>
    obtain ⟨c', s', h', hp | ⟨segment, hs⟩⟩ := h.run
    · exact ⟨[], c', s', h', h'.over_of_spent hp⟩
    · exact ⟨[], c', s', h', h'.over_of_found hs⟩
  | cons v pending ih =>
    obtain ⟨c', s', h', hp | ⟨segment, hs⟩⟩ := h.run
    · exact ih (h'.setOut hp)
    · exact ⟨v :: pending, c', s', h', h'.over_of_found hs⟩

end Ends

section Keeps

structure Keeps (next : Nat → List Nat) (n : Nat) (c : Walk.Tally) (s : Search) : Prop where
  marks : ∀ v, s.onPath.getD v false = true ↔ v ∈ s.vertices
  nodup : s.vertices.Nodup
  chain : s.vertices.IsChain fun a b => a ∈ next b
  left : ∀ v, s.Visited v → v ∉ s.vertices → ∀ u ∈ next v, s.Visited u
  /-- The head of a hit stands on the path, and what is cut from there is no single vertex. -/
  hit : ∀ segment, s.step next = .found segment → ∃ v head rest below,
    s.path = ⟨v, head :: rest⟩ :: below ∧ segment = cut (⟨v, rest⟩ :: below) head ∧
      head ∈ s.vertices ∧ segment.getLast? = some head ∧ 2 ≤ segment.length
  once : c.entered.Nodup
  entered : ∀ v, v ∈ c.entered ↔ s.Visited v
  bounded : c.turns ≤ n + (linksFrom next (List.range n)).length

theorem cut_getLast? {path : List Frame} {head : Nat} (h : head ∈ path.map (·.vertex)) :
    (cut path head).getLast? = some head := by
  obtain ⟨upper, lower, _, _, hsplit⟩ := Walk.splitThrough_of_mem h
  rw [cut, hsplit]
  exact List.getLast?_concat

theorem found_cut (h : Invariant next n s) {segment : List Nat}
    (hs : s.step next = .found segment) : ∃ v head rest below,
      s.path = ⟨v, head :: rest⟩ :: below ∧ segment = cut (⟨v, rest⟩ :: below) head ∧
        head ∈ s.vertices := by
  unfold step at hs
  split at hs
  · cases hs
  · cases hs
  · rename_i v u rest below hp
    dsimp only at hs
    split at hs
    · rename_i hpath
      cases hs
      exact ⟨v, u, rest, below, hp, rfl, (h.path_marks u).mp hpath⟩
    · split at hs
      all_goals cases hs

theorem Stage.keeps (hnext : ∀ v, ∀ u ∈ next v, u < n) (hirr : ∀ v, v ∉ next v)
    (hnodup : ∀ v, (next v).Nodup) (h : Stage next n starts pending c s) : Keeps next n c s := by
  have hinv := h.passes.invariant hnext
  have hbal := h.balanced
  constructor
  case marks => exact hinv.path_marks
  case nodup => exact hinv.path_nodup
  case chain => exact hinv.path_chain
  case left =>
    intro v hv hoff u hu
    exact (hinv.left_next v ⟨hv, hoff⟩ u hu).1
  case hit =>
    intro segment hs
    obtain ⟨v, head, rest, below, hp, hcut, hhead⟩ := found_cut hinv hs
    refine ⟨v, head, rest, below, hp, hcut, hhead, ?_, (step_found hirr hinv hs).long⟩
    rw [hcut]
    apply cut_getLast?
    rwa [vertices, hp] at hhead
  case once => exact hbal.nodup
  case entered => exact hbal.entered
  case bounded => exact hbal.turns_le (fun _ => lt_of_visited hinv) hnodup

end Keeps

end DepGraph.Cycle.Search

namespace DepGraph.Table

open DepGraph.Cycle

variable {E : Type} [Entity E] {ds : List (E × List E)} {t : Table E}

/-- In whatever order the nodes of a built table are tried, every state that the search for a cycle
passes through is in order, and the search gets to the state that its answer is read from. -/
theorem cycleSearch_stages (h : Reached ds t) (hf : t.frozen = true) (starts : List NodeId) :
    (∀ pending c s, Search.Stage t.descendants t.size starts pending c s →
      Search.Keeps t.descendants t.size c s) ∧
    ∃ pending c s, Search.Stage t.descendants t.size starts pending c s ∧
      Search.Over t.descendants pending s
        (Search.from? t.descendants starts (Search.start t.size)) := by
  have hb := h.built hf
  constructor
  · intro pending c s hs
    exact hs.keeps hb.descendants_lt hb.drawn.irreflexive (h.descendants_nodup hf)
  · exact Search.Stage.blank.ends

/-- Two entities that need each other, below a third, searched in the order that reports tell. -/
theorem cycleSearch_stages_below : ∃ t : Table Int,
    Reached [(3, [1]), (1, [2]), (2, [1])] t ∧ t.frozen = true ∧ ∃ pending c s segment,
      Search.Stage t.descendants t.size (t.roots ++ t.ids) pending c s ∧
        s.step t.descendants = .found segment ∧ Search.Keeps t.descendants t.size c s ∧
        t.findCycleNodes = some segment := by
  obtain ⟨t, hr, hf⟩ := exists_reached
    (show (([(3, [1]), (1, [2]), (2, [1])] : List (Int × List Int)).map (·.1)).Nodup by decide)
    (by decide)
  have hcyc : Cyclic [((3 : Int), [1]), (1, [2]), (2, [1])] :=
    ⟨1, .head (b := 2) ⟨⟨[2], by simp, by simp⟩, by decide⟩
      (.single ⟨⟨[1], by simp, by simp⟩, by decide⟩)⟩
  obtain ⟨hkeeps, pending, c, s, hs, hover⟩ := cycleSearch_stages hr hf (t.roots ++ t.ids)
  refine ⟨t, hr, hf, pending, c, s, ?_⟩
  cases hfind : t.findCycleNodes with
  | none => exact absurd hcyc (findCycleNodes_none (hr.built hf) hfind)
  | some segment =>
    rw [← findCycleNodes, hfind] at hover
    cases hover with
    | hit hfound => exact ⟨segment, hs, hfound, hkeeps _ _ _ hs, rfl⟩

end DepGraph.Table
