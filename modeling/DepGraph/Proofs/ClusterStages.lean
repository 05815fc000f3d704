import DepGraph.Proofs.DetectorAgreement
import DepGraph.Proofs.Reuse
import DepGraph.Proofs.Tallies
import DepGraph.Proofs.TwoLevels

/-!
# The cluster search, state by state

A search of one component is followed through its walks, turn by turn, with a tally beside it that
also counts what leaves the stack. What came onto the path came onto the stack, and stays there
until its cluster is closed; so what was entered is always what is on the stack and what was taken
from it. Between two walks the stack is empty. At the end, which may come early by the clock, every
vertex has been entered and taken from the stack once, and every link has been looked at once.
-/

namespace DepGraph

namespace Cluster.Finder

open Cohort.Ranker (linksFrom mem_linksFrom linksFrom_nodup)

variable {next : Nat → List Nat} {n : Nat} {f f' : Finder}

def Discovered (f : Finder) (v : Nat) : Prop := 0 < f.time v

def setOut (next : Nat → List Nat) (f : Finder) (v : Nat) : Finder :=
  if f.isOpen v then f.enter next v else f

section Steps

theorem enter_discovered_iff (next : Nat → List Nat) {u : Nat} (hu : f.isOpen u = true) (v : Nat) :
    (f.enter next u).Discovered v ↔ v = u ∨ f.Discovered v := by
  rw [Discovered, enter_time hu]
  by_cases hv : v = u
  · simp [hv]
  · simp [hv, Discovered]

theorem not_discovered_of_isOpen {u : Nat} (hu : f.isOpen u = true) : ¬ f.Discovered u :=
  fun hd => ne_of_isOpen hu hd rfl

theorem lower_path (m : Nat) : (f.lower m).path = f.path := by
  unfold lower
  split
  all_goals rfl

theorem lower_stack (m : Nat) : (f.lower m).stack = f.stack := by
  unfold lower
  split
  all_goals rfl

theorem lower_discovered (m v : Nat) : (f.lower m).Discovered v ↔ f.Discovered v := by
  rw [Discovered, lower_time, Discovered]

theorem close_path (head : Nat) : (f.close head).path = f.path := rfl

theorem close_stack (head : Nat) :
    (f.close head).stack = (Walk.splitThrough head f.stack).2 := rfl

theorem setOut_start (hp : f.path = []) (v : Nat) :
    Walk.Start next f.Discovered (f.setOut next v).Discovered (f.setOut next v).path := by
  by_cases hv : f.isOpen v = true
  · have hpath : (f.enter next v).path = [⟨v, next v⟩] := by rw [enter, hp]
    rw [setOut, if_pos hv, hpath]
    exact .enter (not_discovered_of_isOpen hv) (enter_discovered_iff next hv)
  · rw [setOut, if_neg hv, hp]
    exact .skip fun _ => Iff.rfl

theorem step_turn (hs : f.step next = some f') :
    Walk.Turn next f.Discovered f'.Discovered f.path f'.path := by
  cases hp : f.path with
  | nil => simp [step, hp] at hs
  | cons top below =>
    obtain ⟨v, _ | ⟨u, rest⟩⟩ := top
    · rw [step_leave hp] at hs
      cases hs
      split
      · rw [close_path, lower_path]
        exact .leave (lower_discovered _)
      · rw [lower_path]
        exact .leave (lower_discovered _)
    · rw [step_look hp] at hs
      cases hs
      by_cases hu : f.isOpen u = true
      · rw [if_pos hu]
        exact .enter (not_discovered_of_isOpen hu)
          (enter_discovered_iff next (f := { f with path := ⟨v, rest⟩ :: below }) hu)
      · rw [if_neg hu]
        split
        · rw [lower_path]
          exact .pass (lower_discovered _)
        · exact .pass fun _ => Iff.rfl

/-- What came onto the path came onto the stack too, and below that the stack lost from its top. -/
def Accounts (f f' : Finder) : Prop :=
  Walk.gained (Walk.vertices f.path) (Walk.vertices f'.path) ++ f.stack =
    Walk.gained f'.stack f.stack ++ f'.stack

theorem accounts_push {u : Nat} (hpath : Walk.vertices f'.path = u :: Walk.vertices f.path)
    (hstack : f'.stack = u :: f.stack) : Accounts f f' := by
  have hgain : Walk.gained (Walk.vertices f.path) (u :: Walk.vertices f.path) = [u] :=
    Walk.gained_append [u] _
  have hlost : Walk.gained (u :: f.stack) f.stack = [] := Walk.gained_of_le (Nat.le_succ _)
  rw [Accounts, hpath, hstack, hgain, hlost]
  rfl

theorem accounts_shed (members : List Nat) (hpath : f'.path.length ≤ f.path.length)
    (hstack : f.stack = members ++ f'.stack) : Accounts f f' := by
  have hgain : Walk.gained (Walk.vertices f.path) (Walk.vertices f'.path) = [] := by
    apply Walk.gained_of_le
    rwa [Walk.vertices, Walk.vertices, List.length_map, List.length_map]
  rw [Accounts, hgain, hstack, Walk.gained_append, List.nil_append]

theorem setOut_accounts (f : Finder) (v : Nat) : Accounts f (f.setOut next v) := by
  by_cases hv : f.isOpen v = true
  · rw [setOut, if_pos hv]
    exact accounts_push rfl rfl
  · rw [setOut, if_neg hv]
    exact accounts_shed [] (Nat.le_refl _) rfl

theorem step_accounts (h : Ordered n f) (hs : f.step next = some f') : Accounts f f' := by
  cases hp : f.path with
  | nil => simp [step, hp] at hs
  | cons top below =>
    obtain ⟨v, _ | ⟨u, rest⟩⟩ := top
    · rw [step_leave hp] at hs
      cases hs
      split
      · obtain ⟨upper, lower, hcut, _, hsplit⟩ :=
          Walk.splitThrough_of_mem (h.path_stack v (top_onPath hp))
        apply accounts_shed (upper ++ [v])
        · rw [close_path, lower_path, hp]
          exact Nat.le_succ _
        · rw [close_stack, lower_stack, hsplit, hcut]
          simp
      · apply accounts_shed []
        · rw [lower_path, hp]
          exact Nat.le_succ _
        · rw [lower_stack]
          rfl
    · rw [step_look hp] at hs
      cases hs
      by_cases hu : f.isOpen u = true
      · rw [if_pos hu]
        apply accounts_push (u := u)
        · rw [hp]
          rfl
        · rfl
      · rw [if_neg hu]
        apply accounts_shed []
        · split
          · rw [lower_path, hp]
            exact Nat.le_refl _
          · rw [hp]
            exact Nat.le_refl _
        · split
          · rw [lower_stack]
            rfl
          · rfl

end Steps

/-- What a search has done so far, with what it has taken from the stack. -/
structure Tally extends Walk.Tally where
  popped : List VertId := []

namespace Tally

def start (l : Tally) (f f' : Finder) : Tally where
  toTally := l.toTally.start f.path f'.path
  popped := Walk.gained f'.stack f.stack ++ l.popped

def turn (l : Tally) (f f' : Finder) : Tally where
  toTally := l.toTally.turn f.path f'.path
  popped := Walk.gained f'.stack f.stack ++ l.popped

end Tally

/-- The stages of a search: the roots and then the other vertices still to be tried, the tally and
the state. Once the roots are used up, a new walk begins only while the clock allows it. -/
inductive Stage (c : Component) (old : Finder) :
    List VertId → List VertId → Tally → Finder → Prop where
  | reset : Stage c old c.roots (List.range c.size) {} (old.reset c.size)
  | root {v : VertId} {roots rest : List VertId} {l : Tally} {f : Finder} :
      Stage c old (v :: roots) rest l f → f.path = [] →
      Stage c old roots rest (l.start f (f.setOut c.descendants v)) (f.setOut c.descendants v)
  | rest {v : VertId} {rest : List VertId} {l : Tally} {f : Finder} :
      Stage c old [] (v :: rest) l f → f.path = [] → f.clock < c.size →
      Stage c old [] rest (l.start f (f.setOut c.descendants v)) (f.setOut c.descendants v)
  | turn {roots rest : List VertId} {l : Tally} {f f' : Finder} :
      Stage c old roots rest l f → f.step c.descendants = some f' →
      Stage c old roots rest (l.turn f f') f'

section Stages

variable {c : Component} {old : Finder} {roots rest : List VertId} {l : Tally}

theorem setOut_passes (h : Passes next n f) (hp : f.path = []) (v : Nat) :
    Passes next n (f.setOut next v) := by
  by_cases hv : f.isOpen v = true
  · rw [setOut, if_pos hv]
    exact h.enter hp hv
  · rw [setOut, if_neg hv]
    exact h

theorem Stage.passes (h : Stage c old roots rest l f) : Passes c.descendants c.size f := by
  induction h with
  | reset => exact .reset old
  | root _ hp ih => exact setOut_passes ih hp _
  | rest _ hp _ ih => exact setOut_passes ih hp _
  | turn _ hs ih => exact ih.step hs

theorem setOut_balanced (h : Walk.Balanced next f.Discovered l.toTally f.path) (hp : f.path = [])
    (v : Nat) : Walk.Balanced next (f.setOut next v).Discovered
      (l.start f (f.setOut next v)).toTally (f.setOut next v).path := by
  rw [hp] at h
  have hstart := h.start (setOut_start hp v)
  rwa [← hp] at hstart

/-- The run: the tally balances in every stage. -/
theorem Stage.balanced (h : Stage c old roots rest l f) :
    Walk.Balanced c.descendants f.Discovered l.toTally f.path := by
  induction h with
  | reset =>
    apply Walk.Balanced.blank
    intro v
    rw [Discovered, time, Finder.reset, Buffer.refill_eq, Writes.getD_replicate]
    exact Nat.lt_irrefl 0
  | root _ hp ih => exact setOut_balanced ih hp _
  | rest _ hp _ ih => exact setOut_balanced ih hp _
  | turn _ hs ih => exact ih.turn (step_turn hs)

open scoped List in
theorem ledger_perm {entered popped : List Nat} (ha : Accounts f f')
    (h : f.stack ++ popped ~ entered) :
    f'.stack ++ (Walk.gained f'.stack f.stack ++ popped) ~
      Walk.gained (Walk.vertices f.path) (Walk.vertices f'.path) ++ entered := by
  calc f'.stack ++ (Walk.gained f'.stack f.stack ++ popped)
    _ = f'.stack ++ Walk.gained f'.stack f.stack ++ popped := (List.append_assoc ..).symm
    _ ~ Walk.gained f'.stack f.stack ++ f'.stack ++ popped :=
      List.perm_append_comm.append_right popped
    _ = Walk.gained (Walk.vertices f.path) (Walk.vertices f'.path) ++ (f.stack ++ popped) := by
      rw [← ha, List.append_assoc]
    _ ~ Walk.gained (Walk.vertices f.path) (Walk.vertices f'.path) ++ entered := h.append_left _

theorem Stage.ledger (hnext : ∀ v, ∀ u ∈ c.descendants v, u < c.size)
    (h : Stage c old roots rest l f) : (f.stack ++ l.popped).Perm l.entered := by
  induction h with
  | reset => exact List.Perm.refl []
  | root _ _ ih => exact ledger_perm (setOut_accounts _ _) ih
  | rest _ _ _ ih => exact ledger_perm (setOut_accounts _ _) ih
  | turn h hs ih =>
    exact ledger_perm (step_accounts (h.passes.invariant hnext).toOrdered hs) ih

theorem setOut_discovered {v w : Nat} (hw : f.Discovered w) :
    (f.setOut next v).Discovered w := by
  by_cases hv : f.isOpen v = true
  · rw [setOut, if_pos hv]
    exact enter_discovered hw
  · rw [setOut, if_neg hv]
    exact hw

theorem setOut_discovers (h : Ordered n f) {v : Nat} (hlt : v < n) :
    (f.setOut next v).Discovered v := by
  by_cases hv : f.isOpen v = true
  · rw [setOut, if_pos hv, enter_discovered_iff next hv]
    exact Or.inl rfl
  · rw [setOut, if_neg hv, Discovered]
    rw [isOpen_iff, h.disc_size] at hv
    omega

theorem Stage.covers (hnext : ∀ v, ∀ u ∈ c.descendants v, u < c.size)
    (h : Stage c old roots rest l f) {v : VertId} (hv : v < c.size) :
    v ∈ rest ∨ f.Discovered v := by
  induction h with
  | reset => exact Or.inl (List.mem_range.mpr hv)
  | root _ _ ih => exact ih.imp_right setOut_discovered
  | rest h _ _ ih =>
    rcases ih with hmem | hd
    · rcases List.mem_cons.mp hmem with rfl | hmem
      · exact Or.inr (setOut_discovers (h.passes.invariant hnext).toOrdered hv)
      · exact Or.inl hmem
    · exact Or.inr (setOut_discovered hd)
  | turn _ hs ih => exact ih.imp_right (step_discovered hs)

end Stages

section Ends

variable {c : Component} {old : Finder} {roots rest : List VertId} {l : Tally}

/-- A search is over between two walks, with nothing to be tried or all discovered by the clock. -/
structure Over (c : Component) (roots rest : List VertId) (f : Finder) : Prop where
  roots : roots = []
  path : f.path = []
  rest : rest = [] ∨ c.size ≤ f.clock

def finish (c : Component) (roots rest : List VertId) (f : Finder) : Finder :=
  rest.foldl (fun f v => if f.clock < c.size then walk c.descendants f v else f)
    (roots.foldl (walk c.descendants) (run c.descendants f))

theorem run_unfold (next : Nat → List Nat) (f : Finder) :
    run next f = match f.step next with
      | none => f
      | some f' => run next f' := by
  rw [run]
  split
  all_goals
    rename_i hs
    rw [hs]

theorem run_of_path_nil (next : Nat → List Nat) (hp : f.path = []) : run next f = f := by
  have hs : f.step next = none := by simp [step, hp]
  rw [run_unfold, hs]

theorem run_of_step (hs : f.step next = some f') : run next f = run next f' := by
  rw [run_unfold next f, hs]

theorem run_setOut (hp : f.path = []) (v : Nat) : run next (f.setOut next v) = walk next f v := by
  rw [setOut, walk]
  split
  · rfl
  · exact run_of_path_nil next hp

/-- Every stage of a search leads to the same end. -/
theorem Stage.finish_eq (h : Stage c old roots rest l f) :
    finish c roots rest f = old.explore c := by
  induction h with
  | reset => rw [finish, run_of_path_nil _ rfl, explore]
  | root _ hp ih => rw [← ih, finish, finish, run_setOut hp, run_of_path_nil _ hp, List.foldl_cons]
  | rest _ hp hclock ih =>
    rw [← ih, finish, finish, run_setOut hp, run_of_path_nil _ hp, List.foldl_cons, List.foldl_nil,
      List.foldl_nil, if_pos hclock]
  | turn _ hs ih => rw [← ih, finish, finish, run_of_step hs]

theorem Over.finish_eq (h : Over c roots rest f) : finish c roots rest f = f := by
  obtain ⟨rfl, hp, hrest⟩ := h
  rw [finish, run_of_path_nil _ hp, List.foldl_nil]
  rcases hrest with rfl | hclock
  · rfl
  · apply List.foldlRecOn (motive := (· = f))
    · rfl
    · rintro g rfl v _
      exact if_neg (Nat.not_lt.mpr hclock)

theorem Stage.run (h : Stage c old roots rest l f) :
    ∃ l' f', Stage c old roots rest l' f' ∧ f'.path = [] := by
  fun_induction Finder.run c.descendants f generalizing l with
  | case1 f hs => exact ⟨l, f, h, step_eq_none hs⟩
  | case2 f f' hs ih => exact ih (h.turn hs)

theorem Stage.ends (h : Stage c old roots rest l f) :
    ∃ roots' rest' l' f', Stage c old roots' rest' l' f' ∧ Over c roots' rest' f' := by
  induction roots generalizing l f with
  | nil =>
    induction rest generalizing l f with
    | nil =>
      obtain ⟨l', f', h', hp⟩ := h.run
      exact ⟨[], [], l', f', h', rfl, hp, Or.inl rfl⟩
    | cons v rest ih =>
      obtain ⟨l', f', h', hp⟩ := h.run
      by_cases hclock : f'.clock < c.size
      · exact ih (h'.rest hp hclock)
      · exact ⟨[], v :: rest, l', f', h', rfl, hp, Or.inr (Nat.le_of_not_lt hclock)⟩
  | cons v roots ih =>
    obtain ⟨l', f', h', hp⟩ := h.run
    exact ih (h'.root hp)

end Ends

section Keeps

variable {c : Component} {old : Finder} {roots rest : List VertId} {l : Tally}

structure Keeps (c : Component) (l : Tally) (f : Finder) : Prop where
  marks : ∀ v, f.onStack.getD v false = true ↔ v ∈ f.stack
  once : l.entered.Nodup
  entered : ∀ v, v ∈ l.entered ↔ f.Discovered v
  ledger : (f.stack ++ l.popped).Perm l.entered
  /-- A vertex whose cluster may be closed next is there to stop at. -/
  head : ∀ v below, f.path = ⟨v, []⟩ :: below → v ∈ f.stack
  rests : f.path = [] → f.stack = []
  walks : f.path = [] → ∀ v,
    (walk c.descendants f v).path = [] ∧ (walk c.descendants f v).stack = []
  early : c.size ≤ f.clock → ∀ v < c.size, f.Discovered v

/-- What a whole search has done: all vertices and all links, each once. -/
structure Exhausts (c : Component) (l : Tally) : Prop where
  entered : l.entered.Perm (List.range c.size)
  popped : l.popped.Perm (List.range c.size)
  once : l.examined.Nodup
  examined : ∀ v u, (v, u) ∈ l.examined ↔ u ∈ c.descendants v
  turns : l.turns = c.size + (linksFrom c.descendants (List.range c.size)).length

theorem Stage.keeps (hnext : ∀ v, ∀ u ∈ c.descendants v, u < c.size)
    (h : Stage c old roots rest l f) : Keeps c l f := by
  have hinv := h.passes.invariant hnext
  have hbal := h.balanced
  constructor
  case marks => exact hinv.stack_marks
  case once => exact hbal.nodup
  case entered => exact hbal.entered
  case ledger => exact h.ledger hnext
  case head =>
    intro v below hp
    exact hinv.path_stack v (top_onPath hp)
  case rests => exact hinv.stack_nil
  case walks =>
    intro hp v
    obtain ⟨hpasses, hpath⟩ := walk_rests ⟨h.passes, hp⟩ v
    exact ⟨hpath, (hpasses.invariant hnext).stack_nil hpath⟩
  case early =>
    intro hclock v hv
    exact hinv.discovered_of_clock hclock hv

theorem Stage.discovered_iff (hnext : ∀ v, ∀ u ∈ c.descendants v, u < c.size)
    (h : Stage c old roots rest l f) (ho : Over c roots rest f) (v : VertId) :
    f.Discovered v ↔ v < c.size := by
  have hinv := h.passes.invariant hnext
  constructor
  · exact hinv.lt_of_time
  · intro hv
    rcases ho.rest with hrest | hclock
    · rcases h.covers hnext hv with hmem | hd
      · rw [hrest] at hmem
        cases hmem
      · exact hd
    · exact hinv.discovered_of_clock hclock hv

theorem Stage.exhausts (hnext : ∀ v, ∀ u ∈ c.descendants v, u < c.size)
    (hnodup : ∀ v, (c.descendants v).Nodup) (h : Stage c old roots rest l f)
    (ho : Over c roots rest f) : Exhausts c l := by
  have hbal := h.balanced
  rw [ho.path] at hbal
  obtain ⟨hentered, hexamined, hturns⟩ := hbal.ended (h.discovered_iff hnext ho)
  have hstack := (h.passes.invariant hnext).stack_nil ho.path
  constructor
  case entered => exact hentered
  case popped =>
    have hledger := h.ledger hnext
    rw [hstack, List.nil_append] at hledger
    exact hledger.trans hentered
  case once => exact hexamined.nodup_iff.mpr (linksFrom_nodup hnodup List.nodup_range)
  case examined =>
    intro v u
    rw [hexamined.mem_iff, mem_linksFrom, List.mem_range]
    exact and_iff_right_of_imp Component.lt_of_mem_descendants
  case turns => exact hturns

end Keeps

end Cluster.Finder

namespace Table

open Cluster

variable {E : Type} [Entity E] {ds : List (E × List E)} {t : Table E} {c : Component}

theorem component_descendants_nodup (h : Reached ds t) (hf : t.frozen = true)
    (hc : c ∈ t.split.1.components) (v : VertId) : (c.descendants v).Nodup := by
  have hb := h.built hf
  obtain ⟨k, members, hk, rfl⟩ := mem_split_components hb hc
  rw [Component.descendants, toComponent_vertex?]
  cases hv : members[v]? with
  | none => exact List.nodup_nil
  | some i =>
    have hlinks : ((t.descendants i).map some).Nodup :=
      (h.descendants_nodup hf i).map (Option.some_injective _)
    rw [← renumbered_back hb hk (List.mem_of_getElem? hv)
      fun j hj => (hb.adjacency i j).mpr (Or.inr hj)] at hlinks
    exact hlinks.of_map _

/-- In a component that is searched for clusters, by whatever finder, every state that the search
passes through is in order; and the search gets to the end, where everything was done once. -/
theorem clusterSearch_stages (h : Reached ds t) (hf : t.frozen = true)
    (hc : c ∈ t.split.1.components) (hdeep : c.isTwoLevel = false) (f : Finder) :
    (∀ roots rest l g, Finder.Stage c f roots rest l g →
      Finder.Keeps c l g ∧
        (Finder.Over c roots rest g → g = (f.find c t.split.2).2 ∧ Finder.Exhausts c l)) ∧
    ∃ roots rest l, Finder.Stage c f roots rest l (f.find c t.split.2).2 ∧
      Finder.Over c roots rest (f.find c t.split.2).2 := by
  obtain ⟨hcopy, _⟩ := split_ready (h.built hf) hc
  have hnext : ∀ v, ∀ u ∈ c.descendants v, u < c.size := fun _ _ hu => hcopy.lt_of_link hu
  have hfind : (f.find c t.split.2).2 = f.explore c := by
    rw [Finder.find, hdeep]
    rfl
  have hend {roots rest : List VertId} {l : Finder.Tally} {g : Finder}
      (hs : Finder.Stage c f roots rest l g) (ho : Finder.Over c roots rest g) :
      g = (f.find c t.split.2).2 := by
    rw [hfind, ← hs.finish_eq, ho.finish_eq]
  constructor
  · intro roots rest l g hs
    refine ⟨hs.keeps hnext, ?_⟩
    intro ho
    exact ⟨hend hs ho, hs.exhausts hnext (component_descendants_nodup h hf hc) ho⟩
  · have hreset : Finder.Stage c f c.roots (List.range c.size) {} (f.reset c.size) := .reset
    obtain ⟨roots, rest, l, g, hs, ho⟩ := hreset.ends
    obtain rfl := hend hs ho
    exact ⟨roots, rest, l, hs, ho⟩

/-- Two entities that need each other, between one that needs them and one that they need. -/
theorem clusterSearch_stages_between : ∃ t : Table Int,
    Reached [(3, [1]), (1, [2, 4]), (2, [1])] t ∧ t.frozen = true ∧
      ∃ c ∈ t.split.1.components, c.isTwoLevel = false ∧ ∃ roots rest l,
        Finder.Stage c {} roots rest l (({} : Finder).find c t.split.2).2 ∧
          Finder.Exhausts c l := by
  obtain ⟨t, hr, hf⟩ := exists_reached
    (show (([(3, [1]), (1, [2, 4]), (2, [1])] : List (Int × List Int)).map (·.1)).Nodup by decide)
    (by decide)
  have hneeds : DependsOn [((3 : Int), [1]), (1, [2, 4]), (2, [1])] 1 4 :=
    ⟨⟨[2, 4], by simp, by simp⟩, by decide⟩
  have hneeded : DependsOn [((3 : Int), [1]), (1, [2, 4]), (2, [1])] 3 1 :=
    ⟨⟨[1], by simp, by simp⟩, by decide⟩
  obtain ⟨c, hc, v, hv⟩ := split_holds (hr.built hf) hneeds
  obtain ⟨hcopy, _⟩ := split_ready (hr.built hf) hc
  have hdeep : c.isTwoLevel = false := by
    rw [Bool.eq_false_iff, Ne, hcopy.isTwoLevel_iff]
    intro hflat
    obtain ⟨w, hw⟩ := hcopy.closed v 1 4 hv (Or.inl hneeds)
    obtain ⟨u, hu⟩ := hcopy.closed v 1 3 hv (Or.inr hneeded)
    have hbelow : w ∈ c.ancestors v := (hcopy.ancestors v w).mpr ⟨1, 4, hv, hw, hneeds⟩
    have habove : u ∈ c.descendants v :=
      (hcopy.descendants v u).mpr ((hcopy.ancestors u v).mpr ⟨3, 1, hu, hv, hneeded⟩)
    rcases hflat v (Component.lt_of_entity? hv) with hnil | hnil
    · rw [hnil] at hbelow
      cases hbelow
    · rw [hnil] at habove
      cases habove
  obtain ⟨hstages, roots, rest, l, hs, ho⟩ := clusterSearch_stages hr hf hc hdeep {}
  exact ⟨t, hr, hf, c, hc, hdeep, roots, rest, l, hs, ((hstages _ _ _ _ hs).2 ho).2⟩

end Table

end DepGraph
