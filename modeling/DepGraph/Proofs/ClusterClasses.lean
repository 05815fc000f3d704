import DepGraph.Proofs.ClusterSearch
import Mathlib.Data.List.Lattice

/-!
# The cluster search finds the strongly connected components

Every walk keeps the invariant of its steps and ends with an empty stack, so after the last one
every vertex is done and the classes found are all there are.
-/

namespace DepGraph

namespace Cluster.Finder

variable {next : Nat → List Nat} {n : Nat} {f : Finder}

/-- The start of a leave: the parent takes over what the vertex left gets back to. -/
theorem handover_invariant (h : Invariant next n f) {v : Nat} {below : List Frame}
    (hp : f.path = ⟨v, []⟩ :: below) :
    ∃ g : Finder, Invariant next n g ∧ g.path = ⟨v, []⟩ :: below ∧
      ({ f with path := below } : Finder).lower (f.back v) = { g with path := below } ∧
      g.time v = f.time v ∧ g.back v = f.back v ∧
      ∀ top ∈ below.head?, g.back top.vertex ≤ g.back v := by
  cases below with
  | nil => exact ⟨f, h, hp, rfl, rfl, rfl, by simp⟩
  | cons top below =>
    have hv := top_onPath hp
    have htop : top.vertex ∈ f.onPath := by simp [onPath, hp]
    have hearlier := below_earlier h.toOrdered hp (q := top) List.mem_cons_self
    obtain ⟨w, hw, hwt, hl⟩ := h.back_leads v (h.path_stack v hv)
    have hlead : Leads next top.vertex w :=
      (h.path_leads top.vertex htop v (h.path_stack v hv) (Nat.le_of_lt hearlier)).trans hl
    have hback := lower_back h.toOrdered htop (f.time w)
    have hne : v ≠ top.vertex := by
      rintro rfl
      omega
    refine ⟨_, lower_invariant h htop hw hlead, hp, ?_, rfl, ?_, ?_⟩
    · rw [hwt]
      rfl
    · rw [hback, if_neg hne]
    · intro top' htop'
      obtain rfl := Option.some.inj htop'
      rw [hback, hback, if_pos rfl, if_neg hne, hwt]
      exact Nat.min_le_right _ _

theorem path_leads_successor (h : Invariant next n f) {v u : Nat} {rest : List Nat}
    {below : List Frame} (hp : f.path = ⟨v, u :: rest⟩ :: below) {p : Nat} (hpm : p ∈ f.onPath) :
    Leads next p u := by
  have htop : (⟨v, u :: rest⟩ : Frame) ∈ f.path := by simp [hp]
  have hv : v ∈ f.stack := h.path_stack v (List.mem_map_of_mem htop)
  have hpv : f.time p ≤ f.time v := by
    have horder := h.path_order
    rw [onPath, hp, List.map_cons] at horder hpm
    rcases List.mem_cons.mp hpm with rfl | hpm
    · exact Nat.le_refl _
    · exact Nat.le_of_lt (List.rel_of_pairwise_cons horder hpm)
  exact (h.path_leads p hpm v hv hpv).tail (h.path_rest _ htop u List.mem_cons_self)

theorem scan_invariant (hnext : ∀ v, ∀ u ∈ next v, u < n) (h : Invariant next n f) {v u : Nat}
    {rest : List Nat} {below : List Frame} (hp : f.path = ⟨v, u :: rest⟩ :: below) :
    let f' : Finder := { f with path := ⟨v, rest⟩ :: below }
    Invariant next n (if f.isOpen u then f'.enter next u
      else if f.onStack.getD u false then f'.lower (f.disc.getD u 0) else f') := by
  have htop : (⟨v, u :: rest⟩ : Frame) ∈ f.path := by simp [hp]
  have hv : v ∈ f.onPath := List.mem_map_of_mem htop
  have huv : u ∈ next v := h.path_rest _ htop u List.mem_cons_self
  dsimp only
  split
  · rename_i hopen
    have henter := enter_invariant h hopen fun p hpm => path_leads_successor h hp hpm
    have hpath : (f.enter next u).path = [⟨u, next u⟩] ++ ⟨v, u :: rest⟩ :: below := by
      simp [enter, hp]
    have hself : (f.enter next u).time u = f.clock + 1 := by rw [enter_time hopen, if_pos rfl]
    have hvt := h.stack_time v (h.path_stack v hv)
    refine advance_invariant _ henter hpath (by omega) fun _ => ?_
    rw [enter_back h.toOrdered hopen, if_neg (ne_of_isOpen hopen hvt), hself]
    have := h.back_le v (h.path_stack v hv)
    have := h.time_le v
    omega
  · rename_i hopen
    have hut : 0 < f.time u := by
      rw [isOpen_iff, h.disc_size] at hopen
      have := hnext v u huv
      omega
    split
    · rename_i hmark
      have hu : u ∈ f.stack := (h.stack_marks u).mp hmark
      have hlow := lower_invariant h hv hu (.single huv)
      refine advance_invariant [] hlow hp hut fun _ => ?_
      rw [lower_back h.toOrdered hv, if_pos rfl]
      exact Nat.min_le_right _ _
    · rename_i hmark
      refine advance_invariant [] h hp hut fun hu => ?_
      exact absurd ((h.stack_marks u).mpr hu) hmark

theorem leave_invariant (h : Invariant next n f) {v : Nat} {below : List Frame}
    (hp : f.path = ⟨v, []⟩ :: below) :
    let f' := ({ f with path := below } : Finder).lower (f.low.getD v 0)
    Invariant next n (if f.low.getD v 0 = f.disc.getD v 0 then f'.close v else f') := by
  obtain ⟨g, hg, hgp, hlower, hgt, hgb, hpar⟩ := handover_invariant h hp
  dsimp only
  change Invariant next n (if f.back v = f.time v then _ else _)
  have hlower' : ({ f with path := below } : Finder).lower (f.low.getD v 0) =
    { g with path := below } := hlower
  rw [hlower']
  split
  · rename_i heq
    exact close_invariant hg hgp (by rw [hgb, hgt, heq])
  · rename_i hne
    have hle := hg.back_le v (hg.path_stack v (top_onPath hgp))
    exact pop_invariant hg hgp (by omega) hpar

theorem step_invariant (hnext : ∀ v, ∀ u ∈ next v, u < n) (h : Invariant next n f) {f' : Finder}
    (hs : f.step next = some f') : Invariant next n f' := by
  unfold step at hs
  split at hs
  · cases hs
  · rename_i hp
    cases hs
    exact scan_invariant hnext h hp
  · rename_i hp
    cases hs
    exact leave_invariant h hp

theorem step_eq_none (hs : f.step next = none) : f.path = [] := by
  unfold step at hs
  split at hs
  · assumption
  · cases hs
  · cases hs

theorem run_invariant (hnext : ∀ v, ∀ u ∈ next v, u < n) (h : Invariant next n f) :
    Invariant next n (run next f) ∧ (run next f).path = [] := by
  fun_induction run next f with
  | case1 f hs => exact ⟨h, step_eq_none hs⟩
  | case2 f f' hs ih => exact ih (step_invariant hnext h hs)

/-- With an empty path nothing is left on the stack: it would have to lead back without end. -/
theorem Invariant.stack_nil (h : Invariant next n f) (hp : f.path = []) : f.stack = [] := by
  have hno : ∀ k v, v ∈ f.stack → f.time v = k → False := by
    intro k
    induction k using Nat.strongRecOn with
    | ind k ih =>
      intro v hv hk
      have hearlier := h.left_back v hv (by simp [onPath, hp])
      obtain ⟨w, hw, hwt, _⟩ := h.back_leads v hv
      exact ih (f.time w) (by omega) w hw rfl
  exact List.eq_nil_iff_forall_not_mem.mpr fun v hv => hno _ v hv rfl

theorem enter_discovered {u v : Nat} (hv : 0 < f.time v) : 0 < (f.enter next u).time v := by
  by_cases hu : u < f.disc.size
  · change 0 < (f.disc.setIfInBounds u (f.clock + 1)).getD v 0
    rw [Writes.getD_setIfInBounds _ _ _ _ _ hu]
    split
    · omega
    · exact hv
  · have hset : f.disc.setIfInBounds u (f.clock + 1) = f.disc :=
      Array.setIfInBounds_eq_of_size_le (Nat.le_of_not_lt hu)
    change 0 < (f.disc.setIfInBounds u (f.clock + 1)).getD v 0
    rwa [hset]

theorem lower_time (m v : Nat) : (f.lower m).time v = f.time v := by
  unfold lower
  split <;> rfl

theorem step_discovered {f' : Finder} {v : Nat} (hs : f.step next = some f') (hv : 0 < f.time v) :
    0 < f'.time v := by
  unfold step at hs
  split at hs
  · cases hs
  · cases hs
    split
    · exact enter_discovered hv
    · split
      · rw [lower_time]
        exact hv
      · exact hv
  · rename_i w below _
    cases hs
    have hlow : 0 < (({ f with path := below } : Finder).lower (f.low.getD w 0)).time v := by
      rw [lower_time]
      exact hv
    split
    · exact hlow
    · exact hlow

theorem run_discovered {v : Nat} (hv : 0 < f.time v) : 0 < (run next f).time v := by
  fun_induction run next f with
  | case1 f hs => exact hv
  | case2 f f' hs ih => exact ih (step_discovered hs hv)

theorem walk_discovered {v w : Nat} (hv : 0 < f.time v) : 0 < (walk next f w).time v := by
  unfold walk
  split
  · exact run_discovered (enter_discovered hv)
  · exact hv

theorem walk_invariant (hnext : ∀ v, ∀ u ∈ next v, u < n) (h : Invariant next n f)
    (hp : f.path = []) (v : Nat) :
    Invariant next n (walk next f v) ∧ (walk next f v).path = [] := by
  unfold walk
  split
  · rename_i hopen
    refine run_invariant hnext (enter_invariant h hopen ?_)
    simp [onPath, hp]
  · exact ⟨h, hp⟩

theorem walk_discovers (h : Invariant next n f) {v : Nat} (hv : v < n) :
    0 < (walk next f v).time v := by
  unfold walk
  split
  · rename_i hopen
    apply run_discovered
    rw [enter_time hopen, if_pos rfl]
    omega
  · rename_i hopen
    rw [isOpen_iff, h.disc_size] at hopen
    omega

theorem reset_invariant (next : Nat → List Nat) (f : Finder) (size : Nat) :
    Invariant next size (f.reset size) := by
  have htime (v : Nat) : (f.reset size).time v = 0 := by
    rw [time, reset, Buffer.refill_eq, Writes.getD_replicate]
  have hdone (v : Nat) : ¬ (f.reset size).Done v := by
    rw [Done, htime]
    exact fun h => Nat.lt_irrefl 0 h.1
  have hstack : (f.reset size).stack = [] := rfl
  have hpath : (f.reset size).path = [] := rfl
  have hfound : (f.reset size).found = [] := rfl
  constructor
  case toOrdered =>
    constructor
    case disc_size => simp [reset, Buffer.refill_eq]
    case low_size => simp [reset, Buffer.refill_eq]
    case marks_size =>
      simp only [reset, Buffer.clear_eq, Array.size_replicate]
      omega
    case clock_count => simp [reset, Buffer.refill_eq]
    case time_le =>
      intro v
      rw [htime]
      exact Nat.zero_le _
    case stack_marks =>
      intro v
      rw [hstack, reset, Buffer.clear_eq, Writes.getD_replicate]
      simp
    all_goals simp [hstack, hpath, onPath]
  case toConnected => constructor <;> simp [hstack, hpath, hdone, onPath]
  case toClassified => constructor <;> simp [hfound, hdone]

theorem foldl_walk_invariant (hnext : ∀ v, ∀ u ∈ next v, u < n) (vs : List Nat)
    (h : Invariant next n f) (hp : f.path = []) :
    Invariant next n (vs.foldl (walk next) f) ∧ (vs.foldl (walk next) f).path = [] := by
  induction vs generalizing f with
  | nil => exact ⟨h, hp⟩
  | cons v vs ih =>
    obtain ⟨hw, hwp⟩ := walk_invariant hnext h hp v
    exact ih hw hwp

theorem Invariant.discovered_of_clock (h : Invariant next n f) (hc : n ≤ f.clock) {v : Nat}
    (hv : v < n) : 0 < f.time v := by
  have hcount := h.clock_count
  have hnone : f.disc.count 0 = 0 := by omega
  rw [← h.disc_size] at hv
  have hget : f.time v = f.disc[v] := by simp [time, hv]
  rw [hget, Nat.pos_iff_ne_zero]
  intro hz
  exact Array.count_eq_zero.mp hnone (hz ▸ Array.getElem_mem hv)

/-- The second round: walks from every vertex in turn, until the clock says all are discovered. -/
theorem foldl_rest_invariant (hnext : ∀ v, ∀ u ∈ next v, u < n) (vs : List Nat)
    (hvs : ∀ v ∈ vs, v < n) (h : Invariant next n f) (hp : f.path = []) :
    let f' := vs.foldl (fun f v => if f.clock < n then walk next f v else f) f
    Invariant next n f' ∧ f'.path = [] ∧ (∀ v, 0 < f.time v → 0 < f'.time v) ∧
      ∀ v ∈ vs, 0 < f'.time v := by
  induction vs generalizing f with
  | nil => exact ⟨h, hp, fun _ hv => hv, by simp⟩
  | cons v vs ih =>
    have hrest := fun w hw => hvs w (List.mem_cons_of_mem v hw)
    have hv := hvs v List.mem_cons_self
    simp only [List.foldl_cons]
    split
    · obtain ⟨hw, hwp⟩ := walk_invariant hnext h hp v
      obtain ⟨hi, hip, hkeep, hall⟩ := ih hrest hw hwp
      refine ⟨hi, hip, fun w hwt => hkeep w (walk_discovered hwt), ?_⟩
      intro w hwm
      rcases List.mem_cons.mp hwm with rfl | hwm
      · exact hkeep w (walk_discovers h hv)
      · exact hall w hwm
    · rename_i hclock
      obtain ⟨hi, hip, hkeep, hall⟩ := ih hrest h hp
      refine ⟨hi, hip, hkeep, ?_⟩
      intro w hwm
      rcases List.mem_cons.mp hwm with rfl | hwm
      · exact hkeep w (h.discovered_of_clock (Nat.le_of_not_lt hclock) hv)
      · exact hall w hwm

end Cluster.Finder

/-- The lists are exactly the classes of two or more vertices that lead to each other. -/
structure MutualClasses (next : Nat → List Nat) (found : List (List Nat)) : Prop where
  large : ∀ ms ∈ found, 2 ≤ ms.length
  nodup : ∀ ms ∈ found, ms.Nodup
  together : ∀ ms ∈ found, ∀ a ∈ ms, ∀ b, b ∈ ms ↔ Leads next a b ∧ Leads next b a
  all : ∀ a b, a ≠ b → Leads next a b → Leads next b a → ∃ ms ∈ found, a ∈ ms
  apart : found.Pairwise List.Disjoint

namespace MutualClasses

variable {next : Nat → List Nat} {found found' : List (List Nat)}

theorem other (h : MutualClasses next found) {ms : List Nat} (hms : ms ∈ found) (v : Nat) :
    ∃ u ∈ ms, u ≠ v := by
  by_contra hall
  push Not at hall
  have hsub : ms ⊆ [v] := fun x hx => List.mem_singleton.mpr (hall x hx)
  have hle := (h.nodup ms hms).length_le_of_subset hsub
  have hlarge := h.large ms hms
  rw [List.length_singleton] at hle
  omega

theorem ne_nil (h : MutualClasses next found) {ms : List Nat} (hms : ms ∈ found) : ms ≠ [] := by
  obtain ⟨u, hu, _⟩ := h.other hms 0
  exact List.ne_nil_of_mem hu

theorem eq_nil (h : MutualClasses next found)
    (hanti : ∀ v w, Leads next v w → Leads next w v → v = w) : found = [] := by
  apply List.eq_nil_iff_forall_not_mem.mpr
  intro ms hms
  obtain ⟨v, hv, _⟩ := h.other hms 0
  obtain ⟨w, hw, hne⟩ := h.other hms v
  obtain ⟨hvw, hwv⟩ := (h.together ms hms v hv w).mp hw
  exact hne (hanti w v hwv hvw)

theorem lt {n : Nat} (h : MutualClasses next found) (hnext : ∀ v, ∀ u ∈ next v, u < n)
    {ms : List Nat} (hms : ms ∈ found) {v : Nat} (hv : v ∈ ms) : v < n := by
  obtain ⟨u, hu, hne⟩ := h.other hms v
  have hl := ((h.together ms hms u hu v).mp hv).1
  rcases Relation.ReflTransGen.cases_tail hl with rfl | ⟨w, _, hw⟩
  · exact absurd rfl hne
  · exact hnext w v hw

theorem flatten_nodup (h : MutualClasses next found) : found.flatten.Nodup :=
  List.nodup_flatten.mpr ⟨h.nodup, h.apart⟩

theorem reorder (h : MutualClasses next found) {sort : List Nat → List Nat}
    (hs : ∀ ms, (sort ms).Perm ms) : MutualClasses next (found.map sort) where
  large ms hms := by
    obtain ⟨ns, hns, rfl⟩ := List.mem_map.mp hms
    rw [(hs ns).length_eq]
    exact h.large ns hns
  nodup ms hms := by
    obtain ⟨ns, hns, rfl⟩ := List.mem_map.mp hms
    exact (hs ns).nodup_iff.mpr (h.nodup ns hns)
  together ms hms a ha b := by
    obtain ⟨ns, hns, rfl⟩ := List.mem_map.mp hms
    rw [(hs ns).mem_iff]
    exact h.together ns hns a ((hs ns).mem_iff.mp ha) b
  all a b hne hab hba := by
    obtain ⟨ns, hns, ha⟩ := h.all a b hne hab hba
    exact ⟨sort ns, List.mem_map_of_mem hns, (hs ns).mem_iff.mpr ha⟩
  apart := by
    rw [List.pairwise_map]
    refine h.apart.imp fun hdis => List.disjoint_left.mpr fun a ha hb => ?_
    exact List.disjoint_left.mp hdis ((hs _).mem_iff.mp ha) ((hs _).mem_iff.mp hb)

theorem perm (h : MutualClasses next found) (hp : found'.Perm found) :
    MutualClasses next found' where
  large ms hms := h.large ms (hp.mem_iff.mp hms)
  nodup ms hms := h.nodup ms (hp.mem_iff.mp hms)
  together ms hms := h.together ms (hp.mem_iff.mp hms)
  all a b hne hab hba := by
    obtain ⟨ms, hms, ha⟩ := h.all a b hne hab hba
    exact ⟨ms, hp.mem_iff.mpr hms, ha⟩
  apart := (hp.pairwise_iff fun hdis => hdis.symm).mpr h.apart

end MutualClasses

namespace Cluster.Finder

/-- Whatever the finder was used for before, a search finds exactly the classes of its component. -/
theorem explore_classes (f : Finder) (c : Component)
    (hnext : ∀ v, ∀ u ∈ c.descendants v, u < c.size) :
    MutualClasses c.descendants (f.explore c).found := by
  obtain ⟨hroots, hrootsPath⟩ := foldl_walk_invariant hnext c.roots
    (reset_invariant c.descendants f c.size) rfl
  obtain ⟨h, hp, _, hall⟩ := foldl_rest_invariant hnext (List.range c.size)
    (fun v hv => List.mem_range.mp hv) hroots hrootsPath
  refine ⟨fun ms hms => (h.large ms hms).1, fun ms hms => (h.large ms hms).2, h.together, ?_,
    h.apart⟩
  intro a b hne hab hba
  have ha : a < c.size := by
    rcases Relation.ReflTransGen.cases_tail hba with rfl | ⟨w, _, hwa⟩
    · exact absurd rfl hne
    · exact hnext w a hwa
  have hdone : (f.explore c).Done a := by
    refine ⟨hall a (List.mem_range.mpr ha), ?_⟩
    have hstack : (f.explore c).stack = [] := h.stack_nil hp
    rw [hstack]
    exact List.not_mem_nil
  exact h.all a b hdone hne hab hba

end Cluster.Finder

end DepGraph
