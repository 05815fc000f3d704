import DepGraph.Cluster.Search
import DepGraph.Proofs.Walks
import DepGraph.Proofs.Writes

/-!
# What one step of the cluster search keeps

The walk keeps a stack of discovered vertices whose cluster is open, and a path through it. What
carries the proof: a path vertex leads to everything discovered after it on the stack; a vertex the
walk has left leads back to something earlier on the stack; and the time a path vertex gets back to
accounts for every link of the vertices left above it. So when a vertex gets back to nothing earlier
than itself, no link leaves the stack above it except to closed clusters, and all of it leads back
to the vertex.
-/

namespace DepGraph

namespace Cluster.Finder

variable {next : Nat → List Nat} {n : Nat} {f : Finder}

def time (f : Finder) (v : Nat) : Nat := f.disc.getD v 0

def back (f : Finder) (v : Nat) : Nat := f.low.getD v 0

def onPath (f : Finder) : List Nat := f.path.map (·.vertex)

/-- The latest path vertex that was discovered no later than `v`. -/
def Owns (f : Finder) (p v : Nat) : Prop :=
  p ∈ f.onPath ∧ f.time p ≤ f.time v ∧ ∀ q ∈ f.onPath, f.time q ≤ f.time v → f.time q ≤ f.time p

def Done (f : Finder) (v : Nat) : Prop := 0 < f.time v ∧ v ∉ f.stack

/-- The arrays, the stack and the path agree, and the stack is in order of discovery. -/
structure Ordered (n : Nat) (f : Finder) : Prop where
  disc_size : f.disc.size = n
  low_size : f.low.size = n
  marks_size : n ≤ f.onStack.size
  clock_count : f.clock + f.disc.count 0 = n
  time_le : ∀ v, f.time v ≤ f.clock
  stack_time : ∀ v ∈ f.stack, 0 < f.time v
  stack_order : f.stack.Pairwise fun a b => f.time b < f.time a
  stack_marks : ∀ v, f.onStack.getD v false = true ↔ v ∈ f.stack
  path_order : f.onPath.Pairwise fun a b => f.time b < f.time a
  path_stack : ∀ p ∈ f.onPath, p ∈ f.stack

/-- What leads where, for the vertices on the stack, those left by the walk, and those done. -/
structure Connected (next : Nat → List Nat) (f : Finder) : Prop where
  path_leads : ∀ p ∈ f.onPath, ∀ v ∈ f.stack, f.time p ≤ f.time v → Leads next p v
  path_next : ∀ p ∈ f.path, ∀ x ∈ next p.vertex,
    x ∈ p.rest ∨ 0 < f.time x ∧ (x ∈ f.stack → f.back p.vertex ≤ f.time x)
  path_rest : ∀ p ∈ f.path, ∀ x ∈ p.rest, x ∈ next p.vertex
  back_le : ∀ v ∈ f.stack, f.back v ≤ f.time v
  back_leads : ∀ v ∈ f.stack, ∃ w ∈ f.stack, f.time w = f.back v ∧ Leads next v w
  left_back : ∀ v ∈ f.stack, v ∉ f.onPath → f.back v < f.time v
  left_next : ∀ v ∈ f.stack, v ∉ f.onPath → ∀ x ∈ next v,
    0 < f.time x ∧ (x ∈ f.stack → ∀ p, f.Owns p v → f.back p ≤ f.time x)
  done_next : ∀ v, f.Done v → ∀ x ∈ next v, f.Done x

/-- The clusters found so far are the classes of mutually leading vertices among those done. -/
structure Classified (next : Nat → List Nat) (f : Finder) : Prop where
  large : ∀ ms ∈ f.found, 2 ≤ ms.length ∧ ms.Nodup
  done : ∀ ms ∈ f.found, ∀ a ∈ ms, f.Done a
  together : ∀ ms ∈ f.found, ∀ a ∈ ms, ∀ b, b ∈ ms ↔ Leads next a b ∧ Leads next b a
  all : ∀ a b, f.Done a → a ≠ b → Leads next a b → Leads next b a → ∃ ms ∈ f.found, a ∈ ms
  apart : f.found.Pairwise List.Disjoint

structure Invariant (next : Nat → List Nat) (n : Nat) (f : Finder) : Prop
    extends Ordered n f, Connected next f, Classified next f

theorem isOpen_iff {v : Nat} : f.isOpen v = true ↔ v < f.disc.size ∧ f.time v = 0 := by
  simp only [isOpen, beq_iff_eq, Array.getElem?_eq_some_iff, time, Array.getD]
  constructor
  · rintro ⟨hv, h⟩
    exact ⟨hv, by simp [hv, h]⟩
  · rintro ⟨hv, h⟩
    exact ⟨hv, by simpa [hv] using h⟩

namespace Ordered

theorem lt_of_time (h : Ordered n f) {v : Nat} (hv : 0 < f.time v) : v < n := by
  rw [← h.disc_size]
  by_contra hge
  simp [time, hge] at hv

theorem stack_nodup (h : Ordered n f) : f.stack.Nodup := by
  refine h.stack_order.imp ?_
  rintro a b hab rfl
  omega

end Ordered

theorem Connected.done_leads (h : Connected next f) {a b : Nat} (ha : f.Done a)
    (hab : Leads next a b) : f.Done b := by
  induction hab with
  | refl => exact ha
  | tail _ hbc ih => exact h.done_next _ ih _ hbc

section Enter

variable {u : Nat}

theorem enter_time (hu : f.isOpen u = true) (v : Nat) :
    (f.enter next u).time v = if v = u then f.clock + 1 else f.time v :=
  Writes.getD_setIfInBounds _ _ _ _ _ (isOpen_iff.mp hu).1

theorem enter_back (h : Ordered n f) (hu : f.isOpen u = true) (v : Nat) :
    (f.enter next u).back v = if v = u then f.clock + 1 else f.back v :=
  Writes.getD_setIfInBounds _ _ _ _ _
    (by rw [h.low_size, ← h.disc_size]; exact (isOpen_iff.mp hu).1)

theorem enter_onPath : (f.enter next u).onPath = u :: f.onPath := rfl

theorem ne_of_isOpen (hu : f.isOpen u = true) {v : Nat} (hv : 0 < f.time v) : v ≠ u := by
  rintro rfl
  have := (isOpen_iff.mp hu).2
  omega

theorem enter_time_self (next : Nat → List Nat) (hu : f.isOpen u = true) :
    (f.enter next u).time u = f.clock + 1 := by
  rw [enter_time hu, if_pos rfl]

theorem enter_time_old (next : Nat → List Nat) (hu : f.isOpen u = true) {v : Nat}
    (hv : 0 < f.time v) : (f.enter next u).time v = f.time v := by
  rw [enter_time hu, if_neg (ne_of_isOpen hu hv)]

theorem enter_later (next : Nat → List Nat) (h : Ordered n f) (hu : f.isOpen u = true) {v : Nat}
    (hv : v ∈ f.stack) : (f.enter next u).time v < (f.enter next u).time u := by
  rw [enter_time_self next hu, enter_time_old next hu (h.stack_time v hv)]
  exact Nat.lt_succ_of_le (h.time_le v)

theorem enter_clock_count (h : Ordered n f) (hu : f.isOpen u = true) :
    (f.enter next u).clock + (f.enter next u).disc.count 0 = n := by
  obtain ⟨hlt, hzero⟩ := isOpen_iff.mp hu
  have hcount := h.clock_count
  have hget : f.disc[u] = 0 := by simpa [time, hlt] using hzero
  have hpos : 0 < f.disc.count 0 := Array.count_pos_iff.mpr (hget ▸ Array.getElem_mem hlt)
  simp only [enter, Array.setIfInBounds, hlt, dif_pos]
  rw [Array.count_set]
  simp [hget]
  omega

theorem enter_done (hu : f.isOpen u = true) (v : Nat) :
    (f.enter next u).Done v ↔ f.Done v := by
  have hstack : (f.enter next u).stack = u :: f.stack := rfl
  rw [Done, Done, hstack, List.mem_cons, not_or, enter_time hu]
  constructor
  · rintro ⟨ht, hvu, hv⟩
    rw [if_neg hvu] at ht
    exact ⟨ht, hv⟩
  · rintro ⟨ht, hv⟩
    rw [if_neg (ne_of_isOpen hu ht)]
    exact ⟨ht, ne_of_isOpen hu ht, hv⟩

theorem enter_ordered (h : Ordered n f) (hu : f.isOpen u = true) :
    Ordered n (f.enter next u) := by
  have hlater {v : Nat} (hv : v ∈ f.stack) := enter_later next h hu hv
  constructor
  case disc_size => simp [enter, h.disc_size]
  case low_size => simp [enter, h.low_size]
  case marks_size => simp [enter, h.marks_size]
  case clock_count => exact enter_clock_count h hu
  case time_le =>
    intro v
    rw [enter_time hu]
    have := h.time_le v
    simp only [enter]
    split <;> omega
  case stack_time =>
    intro v hv
    rcases List.mem_cons.mp hv with rfl | hv
    · rw [enter_time_self next hu]
      exact Nat.succ_pos _
    · rw [enter_time_old next hu (h.stack_time v hv)]
      exact h.stack_time v hv
  case stack_order =>
    refine List.pairwise_cons.mpr ⟨fun v hv => hlater hv, ?_⟩
    refine h.stack_order.imp_of_mem ?_
    intro a b ha hb hab
    rwa [enter_time_old next hu (h.stack_time a ha), enter_time_old next hu (h.stack_time b hb)]
  case stack_marks =>
    intro v
    have hmarks : u < f.onStack.size := by
      have := (isOpen_iff.mp hu).1
      have := h.marks_size
      have := h.disc_size
      omega
    simp only [enter, Writes.getD_setIfInBounds _ _ _ _ _ hmarks, List.mem_cons]
    split
    · rename_i hvu
      simp [hvu]
    · rename_i hvu
      rw [h.stack_marks v]
      simp [hvu]
  case path_order =>
    rw [enter_onPath]
    refine List.pairwise_cons.mpr ⟨fun p hp => hlater (h.path_stack p hp), ?_⟩
    refine h.path_order.imp_of_mem ?_
    intro a b ha hb hab
    rwa [enter_time_old next hu (h.stack_time a (h.path_stack a ha)),
      enter_time_old next hu (h.stack_time b (h.path_stack b hb))]
  case path_stack =>
    intro p hp
    rw [enter_onPath] at hp
    rcases List.mem_cons.mp hp with rfl | hp
    · exact List.mem_cons_self
    · exact List.mem_cons_of_mem _ (h.path_stack p hp)

theorem owns_of_enter (h : Ordered n f) (hu : f.isOpen u = true) {p v : Nat} (hv : v ∈ f.stack)
    (ho : (f.enter next u).Owns p v) : f.Owns p v := by
  obtain ⟨hp, hpv, hmax⟩ := ho
  rw [enter_onPath] at hp hmax
  have hold {q : Nat} (hq : q ∈ f.onPath) :=
    enter_time_old next hu (h.stack_time q (h.path_stack q hq))
  have hvt := enter_time_old next hu (h.stack_time v hv)
  rcases List.mem_cons.mp hp with rfl | hp
  · have := enter_later next h hu hv
    omega
  · rw [hold hp, hvt] at hpv
    refine ⟨hp, hpv, ?_⟩
    intro q hq hqv
    have hqp := hmax q (List.mem_cons_of_mem _ hq) (by rw [hold hq, hvt]; exact hqv)
    rwa [hold hq, hold hp] at hqp

theorem enter_connected (h : Ordered n f) (hc : Connected next f) (hu : f.isOpen u = true)
    (hpath : ∀ p ∈ f.onPath, Leads next p u) : Connected next (f.enter next u) := by
  have hself := enter_time_self next hu
  have hold {v : Nat} (hv : 0 < f.time v) := enter_time_old next hu hv
  have hback {v : Nat} (hv : 0 < f.time v) : (f.enter next u).back v = f.back v := by
    rw [enter_back h hu, if_neg (ne_of_isOpen hu hv)]
  have hstack {v : Nat} (hv : v ∈ (f.enter next u).stack) (hne : v ≠ u) : v ∈ f.stack :=
    (List.mem_cons.mp hv).resolve_left hne
  have hpos {p : Nat} (hp : p ∈ f.onPath) : 0 < f.time p := h.stack_time p (h.path_stack p hp)
  constructor
  case path_leads =>
    intro p hp v hv hpv
    rw [enter_onPath] at hp
    by_cases hvu : v = u
    · subst hvu
      rcases List.mem_cons.mp hp with rfl | hp
      · exact .refl
      · exact hpath p hp
    · have hvs := hstack hv hvu
      rcases List.mem_cons.mp hp with rfl | hp
      · have := enter_later next h hu hvs
        omega
      · rw [hold (hpos hp), hold (h.stack_time v hvs)] at hpv
        exact hc.path_leads p hp v hvs hpv
  case path_next =>
    intro p hp x hx
    rcases List.mem_cons.mp hp with rfl | hp
    · exact Or.inl hx
    · refine (hc.path_next p hp x hx).imp_right ?_
      rintro ⟨ht, hb⟩
      have hpt := hpos (List.mem_map_of_mem hp)
      rw [hold ht, hback hpt]
      exact ⟨ht, fun hxs => hb (hstack hxs (ne_of_isOpen hu ht))⟩
  case path_rest =>
    intro p hp x hx
    rcases List.mem_cons.mp hp with rfl | hp
    · exact hx
    · exact hc.path_rest p hp x hx
  case back_le =>
    intro v hv
    by_cases hvu : v = u
    · subst hvu
      exact Nat.le_of_eq (by rw [hself, enter_back h hu, if_pos rfl])
    · have hv := hstack hv hvu
      have hvt := h.stack_time v hv
      rw [hold hvt, hback hvt]
      exact hc.back_le v hv
  case back_leads =>
    intro v hv
    by_cases hvu : v = u
    · subst hvu
      exact ⟨v, hv, by rw [hself, enter_back h hu, if_pos rfl], .refl⟩
    · have hv := hstack hv hvu
      obtain ⟨w, hw, hwt, hl⟩ := hc.back_leads v hv
      refine ⟨w, List.mem_cons_of_mem _ hw, ?_, hl⟩
      rw [hold (h.stack_time w hw), hback (h.stack_time v hv), hwt]
  case left_back =>
    intro v hv hvp
    rw [enter_onPath, List.mem_cons, not_or] at hvp
    have hv := hstack hv hvp.1
    have hvt := h.stack_time v hv
    rw [hold hvt, hback hvt]
    exact hc.left_back v hv hvp.2
  case left_next =>
    intro v hv hvp x hx
    rw [enter_onPath, List.mem_cons, not_or] at hvp
    have hv := hstack hv hvp.1
    obtain ⟨hxt, hxb⟩ := hc.left_next v hv hvp.2 x hx
    rw [hold hxt]
    refine ⟨hxt, ?_⟩
    intro hxs p ho
    have hown := owns_of_enter h hu hv ho
    rw [hback (hpos hown.1)]
    exact hxb (hstack hxs (ne_of_isOpen hu hxt)) p hown
  case done_next =>
    intro v hv x hx
    rw [enter_done hu] at hv ⊢
    exact hc.done_next v hv x hx

theorem enter_classified (hk : Classified next f) (hu : f.isOpen u = true) :
    Classified next (f.enter next u) where
  large := hk.large
  done ms hms a ha := (enter_done hu a).mpr (hk.done ms hms a ha)
  together := hk.together
  all a b ha := hk.all a b ((enter_done hu a).mp ha)
  apart := hk.apart

theorem enter_invariant (h : Invariant next n f) (hu : f.isOpen u = true)
    (hpath : ∀ p ∈ f.onPath, Leads next p u) : Invariant next n (f.enter next u) :=
  ⟨enter_ordered h.toOrdered hu, enter_connected h.toOrdered h.toConnected hu hpath,
    enter_classified h.toClassified hu⟩

end Enter

section Scan

variable {v u : Nat} {rest : List Nat} {below : List Frame}

theorem advance_invariant (upper : List Frame) (h : Invariant next n f)
    (hp : f.path = upper ++ ⟨v, u :: rest⟩ :: below) (hu : 0 < f.time u)
    (hb : u ∈ f.stack → f.back v ≤ f.time u) :
    Invariant next n { f with path := upper ++ ⟨v, rest⟩ :: below } := by
  have hpath : ({ f with path := upper ++ ⟨v, rest⟩ :: below } : Finder).onPath = f.onPath := by
    simp [onPath, hp]
  have hold {p : Frame} (hpm : p ∈ upper ++ ⟨v, rest⟩ :: below) :
      p ∈ f.path ∨ p = ⟨v, rest⟩ := by
    rw [hp]
    exact Walk.mem_advance hpm
  have htop : (⟨v, u :: rest⟩ : Frame) ∈ f.path := by simp [hp]
  refine ⟨⟨h.disc_size, h.low_size, h.marks_size, h.clock_count, h.time_le, h.stack_time,
      h.stack_order, h.stack_marks, ?_, ?_⟩,
    ⟨?_, ?_, ?_, h.back_le, h.back_leads, ?_, ?_, h.done_next⟩,
    ⟨h.large, h.done, h.together, h.all, h.apart⟩⟩
  · rw [hpath]
    exact h.path_order
  · rw [hpath]
    exact h.path_stack
  · rw [hpath]
    exact h.path_leads
  · intro p hpm x hx
    rcases hold hpm with hpm | rfl
    · exact h.path_next p hpm x hx
    · rcases h.path_next _ htop x hx with hxr | hxr
      · rcases List.mem_cons.mp hxr with rfl | hxr
        · exact Or.inr ⟨hu, hb⟩
        · exact Or.inl hxr
      · exact Or.inr hxr
  · intro p hpm x hx
    rcases hold hpm with hpm | rfl
    · exact h.path_rest p hpm x hx
    · exact h.path_rest _ htop x (List.mem_cons_of_mem _ hx)
  · rw [hpath]
    exact h.left_back
  · unfold Owns
    rw [hpath]
    exact h.left_next

theorem lower_back (h : Ordered n f) (hv : v ∈ f.onPath) (m x : Nat) :
    ({ f with low := f.low.modify v (min · m) } : Finder).back x =
      if x = v then min (f.back x) m else f.back x :=
  Writes.getD_modify _ _ _ _ _
    (by rw [h.low_size]; exact h.lt_of_time (h.stack_time v (h.path_stack v hv)))

theorem lower_invariant (h : Invariant next n f) (hv : v ∈ f.onPath) {w : Nat} (hw : w ∈ f.stack)
    (hl : Leads next v w) :
    Invariant next n { f with low := f.low.modify v (min · (f.time w)) } := by
  have hback := lower_back h.toOrdered hv (f.time w)
  have hless (x : Nat) :
      ({ f with low := f.low.modify v (min · (f.time w)) } : Finder).back x ≤ f.back x := by
    rw [hback]
    split <;> omega
  refine { h with low_size := ?low_size, path_next := ?path_next, back_le := ?back_le,
                  back_leads := ?back_leads, left_back := ?left_back, left_next := ?left_next }
  case low_size => simp [h.low_size]
  case path_next =>
    intro p hp x hx
    refine (h.path_next p hp x hx).imp_right ?_
    rintro ⟨hxt, hxb⟩
    exact ⟨hxt, fun hxs => Nat.le_trans (hless _) (hxb hxs)⟩
  case back_le =>
    intro x hx
    exact Nat.le_trans (hless x) (h.back_le x hx)
  case back_leads =>
    intro x hx
    obtain ⟨y, hy, hyt, hly⟩ := h.back_leads x hx
    rw [hback]
    split
    · rename_i hxv
      subst hxv
      rcases Nat.le_total (f.back x) (f.time w) with hle | hle
      · exact ⟨y, hy, hyt.trans (Nat.min_eq_left hle).symm, hly⟩
      · exact ⟨w, hw, (Nat.min_eq_right hle).symm, hl⟩
    · exact ⟨y, hy, hyt, hly⟩
  case left_back =>
    intro x hx hxp
    exact Nat.lt_of_le_of_lt (hless x) (h.left_back x hx hxp)
  case left_next =>
    intro x hx hxp y hy
    obtain ⟨hyt, hyb⟩ := h.left_next x hx hxp y hy
    exact ⟨hyt, fun hys p hp => Nat.le_trans (hless p) (hyb hys p hp)⟩

end Scan

section Leave

variable {v : Nat} {below : List Frame}

theorem below_earlier (h : Ordered n f) (hp : f.path = ⟨v, []⟩ :: below) {q : Frame}
    (hq : q ∈ below) : f.time q.vertex < f.time v := by
  have horder := h.path_order
  rw [onPath, hp] at horder
  exact List.rel_of_pairwise_cons horder (List.mem_map_of_mem hq)

theorem top_onPath (hp : f.path = ⟨v, []⟩ :: below) : v ∈ f.onPath := by
  simp [onPath, hp]

theorem owns_below (hp : f.path = ⟨v, []⟩ :: below) {p w : Nat}
    (hown : ({ f with path := below } : Finder).Owns p w) (hw : f.time w < f.time v) :
    f.Owns p w := by
  obtain ⟨hpm, hpw, hmax⟩ := hown
  have hpath : f.onPath = v :: ({ f with path := below } : Finder).onPath := by simp [onPath, hp]
  refine ⟨hpath ▸ List.mem_cons_of_mem _ hpm, hpw, ?_⟩
  intro q hq hqw
  rcases List.mem_cons.mp (hpath ▸ hq) with rfl | hq
  · omega
  · exact hmax q hq hqw

theorem owns_parent (h : Ordered n f) (hp : f.path = ⟨v, []⟩ :: below) {p w : Nat}
    (hown : ({ f with path := below } : Finder).Owns p w) (hw : f.time v ≤ f.time w) :
    ∃ top ∈ below.head?, top.vertex = p := by
  obtain ⟨hpm, _, hmax⟩ := hown
  cases below with
  | nil => cases hpm
  | cons top below =>
    refine ⟨top, rfl, ?_⟩
    have hearlier := below_earlier h hp (q := top) List.mem_cons_self
    have htop : f.time top.vertex ≤ f.time p :=
      hmax top.vertex List.mem_cons_self (show f.time top.vertex ≤ f.time w by omega)
    rcases List.mem_cons.mp hpm with rfl | hpm
    · rfl
    · have horder := h.path_order
      rw [onPath, hp, List.map_cons, List.map_cons] at horder
      have := List.rel_of_pairwise_cons horder.of_cons hpm
      omega

theorem owns_top (h : Ordered n f) (hp : f.path = ⟨v, []⟩ :: below) {w : Nat}
    (hw : f.time v ≤ f.time w) : f.Owns v w := by
  refine ⟨top_onPath hp, hw, ?_⟩
  intro q hq _
  rw [onPath, hp, List.map_cons] at hq
  rcases List.mem_cons.mp hq with rfl | hq
  · exact Nat.le_refl _
  · obtain ⟨fr, hfr, rfl⟩ := List.mem_map.mp hq
    exact Nat.le_of_lt (below_earlier h hp hfr)

/-- Leaving a vertex that gets back to something earlier, with its account handed to its parent. -/
theorem pop_invariant (h : Invariant next n f) (hp : f.path = ⟨v, []⟩ :: below)
    (hlt : f.back v < f.time v) (hpar : ∀ top ∈ below.head?, f.back top.vertex ≤ f.back v) :
    Invariant next n { f with path := below } := by
  have hpath : f.onPath = v :: ({ f with path := below } : Finder).onPath := by simp [onPath, hp]
  have hsub {p : Nat} (hpm : p ∈ ({ f with path := below } : Finder).onPath) : p ∈ f.onPath :=
    hpath ▸ List.mem_cons_of_mem _ hpm
  have hframe {p : Frame} (hpm : p ∈ below) : p ∈ f.path := hp ▸ List.mem_cons_of_mem _ hpm
  have hout {w : Nat} (hw : w ∉ ({ f with path := below } : Finder).onPath) (hne : w ≠ v) :
      w ∉ f.onPath := by
    rw [hpath, List.mem_cons, not_or]
    exact ⟨hne, hw⟩
  refine ⟨⟨h.disc_size, h.low_size, h.marks_size, h.clock_count, h.time_le, h.stack_time,
      h.stack_order, h.stack_marks, ?_, fun p hpm => h.path_stack p (hsub hpm)⟩,
    ⟨fun p hpm => h.path_leads p (hsub hpm), fun p hpm => h.path_next p (hframe hpm),
      fun p hpm => h.path_rest p (hframe hpm), h.back_le, h.back_leads, ?_, ?_, h.done_next⟩,
    ⟨h.large, h.done, h.together, h.all, h.apart⟩⟩
  · have horder := h.path_order
    rw [hpath] at horder
    exact horder.of_cons
  · intro w hw hwp
    by_cases hwv : w = v
    · exact hwv ▸ hlt
    · exact h.left_back w hw (hout hwp hwv)
  · intro w hw hwp x hx
    have hparent {p : Nat} (hown : ({ f with path := below } : Finder).Owns p w)
        (hvw : f.time v ≤ f.time w) : f.back p ≤ f.back v := by
      obtain ⟨top, htop, rfl⟩ := owns_parent h.toOrdered hp hown hvw
      exact hpar top htop
    by_cases hwv : w = v
    · subst hwv
      have htop : (⟨w, []⟩ : Frame) ∈ f.path := by simp [hp]
      obtain ⟨hxt, hxb⟩ := (h.path_next _ htop x hx).resolve_left List.not_mem_nil
      exact ⟨hxt, fun hxs p hown => Nat.le_trans (hparent hown (Nat.le_refl _)) (hxb hxs)⟩
    · obtain ⟨hxt, hxb⟩ := h.left_next w hw (hout hwp hwv) x hx
      refine ⟨hxt, fun hxs p hown => ?_⟩
      rcases Nat.lt_or_ge (f.time w) (f.time v) with hlater | hlater
      · exact hxb hxs p (owns_below hp hown hlater)
      · exact Nat.le_trans (hparent hown hlater) (hxb hxs v (owns_top h.toOrdered hp hlater))

def Above (f : Finder) (v x : Nat) : Prop := x ∈ f.stack ∧ f.time v ≤ f.time x

theorem not_onPath_of_above (h : Ordered n f) (hp : f.path = ⟨v, []⟩ :: below) {x : Nat}
    (hx : f.Above v x) (hxv : x ≠ v) : x ∉ f.onPath := by
  rw [onPath, hp, List.map_cons, List.mem_cons, not_or]
  refine ⟨hxv, fun hxb => ?_⟩
  obtain ⟨q, hq, rfl⟩ := List.mem_map.mp hxb
  have hearlier := below_earlier h hp hq
  have hlater := hx.2
  omega

theorem above_next (h : Invariant next n f) (hp : f.path = ⟨v, []⟩ :: below)
    (heq : f.back v = f.time v) {x y : Nat} (hx : f.Above v x) (hy : y ∈ next x) :
    f.Above v y ∨ f.Done y := by
  have hget : 0 < f.time y ∧ (y ∈ f.stack → f.back v ≤ f.time y) := by
    by_cases hxv : x = v
    · subst hxv
      have htop : (⟨x, []⟩ : Frame) ∈ f.path := by simp [hp]
      exact (h.path_next _ htop y hy).resolve_left List.not_mem_nil
    · have hxp := not_onPath_of_above h.toOrdered hp hx hxv
      obtain ⟨hyt, hyb⟩ := h.left_next x hx.1 hxp y hy
      exact ⟨hyt, fun hys => hyb hys v (owns_top h.toOrdered hp hx.2)⟩
  by_cases hys : y ∈ f.stack
  · exact Or.inl ⟨hys, heq ▸ hget.2 hys⟩
  · exact Or.inr ⟨hget.1, hys⟩

theorem above_leads (h : Invariant next n f) (hp : f.path = ⟨v, []⟩ :: below)
    (heq : f.back v = f.time v) {x y : Nat} (hx : f.Above v x) (hl : Leads next x y) :
    f.Above v y ∨ f.Done y := by
  induction hl with
  | refl => exact Or.inl hx
  | tail _ hyz ih =>
    rcases ih with hy | hy
    · exact above_next h hp heq hy hyz
    · exact Or.inr (h.done_next _ hy _ hyz)

/-- Everything above a vertex that gets back to nothing earlier leads down to it. -/
theorem above_leads_back (h : Invariant next n f) (hp : f.path = ⟨v, []⟩ :: below)
    (heq : f.back v = f.time v) {x : Nat} (hx : f.Above v x) : Leads next x v := by
  -- by descent on the time of discovery
  induction hk : f.time x using Nat.strongRecOn generalizing x with
  | ind k ih =>
    by_cases hxv : x = v
    · exact hxv ▸ .refl
    · have hearlier := h.left_back x hx.1 (not_onPath_of_above h.toOrdered hp hx hxv)
      obtain ⟨w, hw, hwt, hl⟩ := h.back_leads x hx.1
      rcases above_leads h hp heq hx hl with hwa | hwd
      · exact hl.trans (ih (f.time w) (by omega) hwa rfl)
      · exact absurd hw hwd.2

theorem above_mutual (h : Invariant next n f) (hp : f.path = ⟨v, []⟩ :: below)
    (heq : f.back v = f.time v) {a b : Nat} (ha : f.Above v a) :
    f.Above v b ↔ Leads next a b ∧ Leads next b a := by
  have hfrom {x : Nat} (hx : f.Above v x) : Leads next v x :=
    h.path_leads v (top_onPath hp) x hx.1 hx.2
  constructor
  · intro hb
    exact ⟨(above_leads_back h hp heq ha).trans (hfrom hb),
      (above_leads_back h hp heq hb).trans (hfrom ha)⟩
  · rintro ⟨hab, hba⟩
    rcases above_leads h hp heq ha hab with hb | hb
    · exact hb
    · exact absurd ha.1 (h.done_leads hb hba).2

variable {seg st : List Nat}

/-- The state after the cluster of the innermost path vertex has been closed. -/
def shut (f : Finder) (below : List Frame) (members st : List Nat) : Finder :=
  { f with
    path := below
    stack := st
    onStack := members.foldl (fun marks v => marks.setIfInBounds v false) f.onStack
    found := if 1 < members.length then members :: f.found else f.found }

theorem mem_upper (h : Ordered n f) (hst : f.stack = seg ++ v :: st) {x : Nat} :
    x ∈ seg ++ [v] ↔ f.Above v x := by
  have horder := h.stack_order
  rw [hst, List.pairwise_append, List.pairwise_cons] at horder
  obtain ⟨_, ⟨hlow, _⟩, hup⟩ := horder
  rw [Above, hst, List.mem_append, List.mem_append, List.mem_singleton, List.mem_cons]
  constructor
  · rintro (hx | rfl)
    · exact ⟨Or.inl hx, Nat.le_of_lt (hup x hx v List.mem_cons_self)⟩
    · exact ⟨Or.inr (Or.inl rfl), Nat.le_refl _⟩
  · rintro ⟨hx | rfl | hx, ht⟩
    · exact Or.inl hx
    · exact Or.inr rfl
    · have := hlow x hx
      omega

theorem mem_lower (h : Ordered n f) (hst : f.stack = seg ++ v :: st) {x : Nat} :
    x ∈ st ↔ x ∈ f.stack ∧ f.time x < f.time v := by
  have horder := h.stack_order
  rw [hst, List.pairwise_append, List.pairwise_cons] at horder
  obtain ⟨_, ⟨hlow, _⟩, hup⟩ := horder
  rw [hst, List.mem_append, List.mem_cons]
  constructor
  · intro hx
    exact ⟨Or.inr (Or.inr hx), hlow x hx⟩
  · rintro ⟨hx | rfl | hx, ht⟩
    · have := hup x hx v List.mem_cons_self
      omega
    · omega
    · exact hx

theorem shut_done (below : List Frame) (h : Ordered n f) (hst : f.stack = seg ++ v :: st)
    {x : Nat} : (f.shut below (seg ++ [v]) st).Done x ↔ f.Done x ∨ f.Above v x := by
  change 0 < f.time x ∧ x ∉ st ↔ _
  rw [mem_lower h hst, Done, Above]
  constructor
  · rintro ⟨ht, hx⟩
    by_cases hxs : x ∈ f.stack
    · exact Or.inr ⟨hxs, Nat.le_of_not_lt fun hlt => hx ⟨hxs, hlt⟩⟩
    · exact Or.inl ⟨ht, hxs⟩
  · rintro (⟨ht, hx⟩ | ⟨hx, hle⟩)
    · exact ⟨ht, fun hxs => hx hxs.1⟩
    · exact ⟨h.stack_time x hx, fun hxs => Nat.not_lt.mpr hle hxs.2⟩

theorem shut_ordered (h : Ordered n f) (hp : f.path = ⟨v, []⟩ :: below)
    (hst : f.stack = seg ++ v :: st) : Ordered n (f.shut below (seg ++ [v]) st) := by
  have hsub : st.Sublist f.stack := by
    rw [hst]
    exact ((List.sublist_cons_self v st).trans (List.sublist_append_right seg _))
  have hpath : f.onPath = v :: (f.shut below (seg ++ [v]) st).onPath := by simp [onPath, hp, shut]
  refine ⟨h.disc_size, h.low_size, ?_, h.clock_count, h.time_le,
    fun x hx => h.stack_time x (hsub.subset hx), h.stack_order.sublist hsub, ?_, ?_, ?_⟩
  · rw [shut, Writes.size_cleared]
    exact h.marks_size
  · intro x
    refine (Writes.cleared_iff (seg ++ [v]) f.onStack x).trans ?_
    change _ ↔ x ∈ st
    rw [h.stack_marks x, mem_upper h hst, mem_lower h hst, Above]
    constructor
    · rintro ⟨hx, hnot⟩
      exact ⟨hx, Nat.lt_of_not_le fun hle => hnot ⟨hx, hle⟩⟩
    · rintro ⟨hx, hlt⟩
      exact ⟨hx, fun hab => Nat.not_lt.mpr hab.2 hlt⟩
  · have horder := h.path_order
    rw [hpath] at horder
    exact horder.of_cons
  · intro p hpm
    obtain ⟨q, hq, rfl⟩ := List.mem_map.mp hpm
    have hstack := h.path_stack q.vertex (hpath ▸ List.mem_cons_of_mem _ hpm)
    exact (mem_lower h hst).mpr ⟨hstack, below_earlier h hp hq⟩

theorem shut_connected (h : Invariant next n f) (hp : f.path = ⟨v, []⟩ :: below)
    (heq : f.back v = f.time v) (hst : f.stack = seg ++ v :: st) :
    Connected next (f.shut below (seg ++ [v]) st) := by
  have hlow {x : Nat} := mem_lower h.toOrdered hst (x := x)
  have hpath : f.onPath = v :: (f.shut below (seg ++ [v]) st).onPath := by simp [onPath, hp, shut]
  have hsub {p : Nat} (hpm : p ∈ (f.shut below (seg ++ [v]) st).onPath) : p ∈ f.onPath :=
    hpath ▸ List.mem_cons_of_mem _ hpm
  have hframe {p : Frame} (hpm : p ∈ below) : p ∈ f.path := hp ▸ List.mem_cons_of_mem _ hpm
  have hout {w : Nat} (hw : w ∈ st) (hwp : w ∉ (f.shut below (seg ++ [v]) st).onPath) :
      w ∉ f.onPath := by
    rw [hpath, List.mem_cons, not_or]
    refine ⟨?_, hwp⟩
    rintro rfl
    exact Nat.lt_irrefl _ (hlow.mp hw).2
  constructor
  case path_leads =>
    intro p hpm x hx
    exact h.path_leads p (hsub hpm) x (hlow.mp hx).1
  case path_next =>
    intro p hpm x hx
    refine (h.path_next p (hframe hpm) x hx).imp_right ?_
    rintro ⟨hxt, hxb⟩
    exact ⟨hxt, fun hxs => hxb (hlow.mp hxs).1⟩
  case path_rest => exact fun p hpm => h.path_rest p (hframe hpm)
  case back_le =>
    intro x hx
    exact h.back_le x (hlow.mp hx).1
  case back_leads =>
    intro x hx
    obtain ⟨hxs, hxt⟩ := hlow.mp hx
    obtain ⟨w, hw, hwt, hl⟩ := h.back_leads x hxs
    have hle := h.back_le x hxs
    exact ⟨w, hlow.mpr ⟨hw, by omega⟩, hwt, hl⟩
  case left_back =>
    intro x hx hxp
    exact h.left_back x (hlow.mp hx).1 (hout hx hxp)
  case left_next =>
    intro x hx hxp y hy
    obtain ⟨hxs, hxt⟩ := hlow.mp hx
    obtain ⟨hyt, hyb⟩ := h.left_next x hxs (hout hx hxp) y hy
    exact ⟨hyt, fun hys p hown => hyb (hlow.mp hys).1 p (owns_below hp hown hxt)⟩
  case done_next =>
    intro x hx y hy
    rw [shut_done below h.toOrdered hst] at hx ⊢
    rcases hx with hx | hx
    · exact Or.inl (h.done_next x hx y hy)
    · exact (above_next h hp heq hx hy).symm

theorem mem_shut_found {upper ms : List Nat} : ms ∈ (f.shut below upper st).found ↔
    ms ∈ f.found ∨ ms = upper ∧ 1 < upper.length := by
  simp only [shut]
  split
  · rename_i hlen
    rw [List.mem_cons, or_comm, and_iff_left hlen]
  · rename_i hlen
    simp [hlen]

theorem shut_classified (h : Invariant next n f) (hp : f.path = ⟨v, []⟩ :: below)
    (heq : f.back v = f.time v) (hst : f.stack = seg ++ v :: st) :
    Classified next (f.shut below (seg ++ [v]) st) := by
  have hup {x : Nat} := mem_upper h.toOrdered hst (x := x)
  have hdone {x : Nat} := shut_done below h.toOrdered hst (x := x)
  have hnodup : (seg ++ [v]).Nodup := by
    have := h.stack_nodup
    rw [hst, List.append_cons] at this
    exact this.of_append_left
  constructor
  case large =>
    intro ms hms
    rcases mem_shut_found.mp hms with hms | ⟨rfl, hlen⟩
    · exact h.large ms hms
    · exact ⟨hlen, hnodup⟩
  case done =>
    intro ms hms a ha
    rcases mem_shut_found.mp hms with hms | ⟨rfl, _⟩
    · exact hdone.mpr (Or.inl (h.done ms hms a ha))
    · exact hdone.mpr (Or.inr (hup.mp ha))
  case together =>
    intro ms hms a ha b
    rcases mem_shut_found.mp hms with hms | ⟨rfl, _⟩
    · exact h.together ms hms a ha b
    · rw [hup]
      exact above_mutual h hp heq (hup.mp ha)
  case all =>
    intro a b ha hne hab hba
    rcases hdone.mp ha with ha | ha
    · obtain ⟨ms, hms, ham⟩ := h.all a b ha hne hab hba
      exact ⟨ms, mem_shut_found.mpr (Or.inl hms), ham⟩
    · have hb := (above_mutual h hp heq ha).mpr ⟨hab, hba⟩
      have hlen : 1 < (seg ++ [v]).length := by
        by_contra hlen
        have hone : seg = [] := by simpa using hlen
        rw [hone] at hup
        have hav : a = v := List.mem_singleton.mp (hup.mpr ha)
        have hbv : b = v := List.mem_singleton.mp (hup.mpr hb)
        exact hne (hav.trans hbv.symm)
      exact ⟨seg ++ [v], mem_shut_found.mpr (Or.inr ⟨rfl, hlen⟩), hup.mpr ha⟩
  case apart =>
    simp only [shut]
    split
    · refine List.pairwise_cons.mpr ⟨?_, h.apart⟩
      intro ms hms a ha hams
      exact (h.done ms hms a hams).2 (hup.mp ha).1
    · exact h.apart

/-- Leaving a vertex that gets back to nothing earlier closes its cluster. -/
theorem close_invariant (h : Invariant next n f) (hp : f.path = ⟨v, []⟩ :: below)
    (heq : f.back v = f.time v) :
    Invariant next n (({ f with path := below } : Finder).close v) := by
  obtain ⟨seg, st, hst, _, hsplit⟩ :=
    Walk.splitThrough_of_mem (h.path_stack v (top_onPath hp))
  have hclose : ({ f with path := below } : Finder).close v = f.shut below (seg ++ [v]) st := by
    simp only [close, hsplit, shut]
  rw [hclose]
  exact ⟨shut_ordered h.toOrdered hp hst, shut_connected h hp heq hst,
    shut_classified h hp heq hst⟩

end Leave

end Cluster.Finder

end DepGraph
