import DepGraph.Proofs.Outcomes
import DepGraph.Proofs.Pruning
import DepGraph.Report.Pruning

/-!
# Pruning by reach

The walk from the roots marks what they lead to and nothing else, so what it leaves unmarked is
what no root reaches. A component holds everything its members reach, hence pruning by components
takes no more than pruning by reach; and neither takes away what something kept depends on.
-/

namespace DepGraph

namespace Marks

def Marked (marks : Array Bool) (i : Nat) : Prop := marks[i]? = some true

theorem gather_size (ids : List Nat) (marks : Array Bool) :
    (gather ids marks).2.size = marks.size := by
  fun_induction gather ids marks with
  | case1 => rfl
  | case2 marks i is hi fresh marks' hrest ih => simpa [hrest] using ih
  | case3 marks i is hi ih => exact ih

theorem not_open_iff {marks : Array Bool} {i : Nat} (h : i < marks.size) :
    ¬ Open marks i ↔ Marked marks i := by
  simp [Open, Marked, h]

theorem Marked.lt {marks : Array Bool} {i : Nat} (h : Marked marks i) : i < marks.size :=
  (Array.getElem?_eq_some_iff.mp h).1

theorem not_getD_iff {marks : Array Bool} {i : Nat} :
    (!marks.getD i false) = true ↔ ¬ Marked marks i := by
  rw [Array.getD_eq_getD_getElem?, Marked]
  cases marks[i]? with
  | none => simp
  | some b => cases b <;> simp

theorem marked_gather {ids : List Nat} {marks : Array Bool} {i : Nat} :
    Marked (gather ids marks).2 i ↔ Marked marks i ∨ i ∈ (gather ids marks).1 := by
  by_cases hi : i < marks.size
  · rw [← not_open_iff (by rwa [gather_size]), open_gather, ← not_open_iff hi, mem_gather]
    by_cases ho : Open marks i <;> simp [ho]
  · have hout : ¬ Open marks i := by simp [Open, hi]
    rw [mem_gather]
    simp [Marked, gather_size, hi, hout]

end Marks

namespace Table

open Marks (Open Marked)

variable {E : Type} [Entity E] {t : Table E} {i j : NodeId}

theorem Indexed.lt (h : Indexed t) {e : E} (hi : t.idOf? e = some i) : i < t.size :=
  exists_entity?.mp ⟨e, (h e i).mp hi⟩

/-- One turn of the walk: a node leaves the stack, and what it is the first to need enters. -/
inductive Turn (t : Table E) : List NodeId × Array Bool → List NodeId × Array Bool → Prop where
  | visit (id rest marks) : Turn t (id :: rest, marks)
      ((Marks.gather (t.ancestors id) marks).1.reverse ++ rest,
        (Marks.gather (t.ancestors id) marks).2)

theorem reach_turns (t : Table E) (stack : List NodeId) (marks : Array Bool) :
    Relation.ReflTransGen t.Turn (stack, marks) ([], t.reach stack marks) := by
  fun_induction reach t stack marks with
  | case1 marks => exact .refl
  | case2 marks id rest fresh marks' h ih =>
    have hturn := Turn.visit (t := t) id rest marks
    rw [h] at hturn
    exact .head hturn ih

/-- A walk from `starts` under way. -/
structure Spread (t : Table E) (starts : List NodeId) (s : List NodeId × Array Bool) : Prop where
  size : s.2.size = t.size
  stacked : ∀ i ∈ s.1, Marked s.2 i
  started : ∀ i ∈ starts, Marked s.2 i
  led : ∀ i, Marked s.2 i → ∃ k ∈ starts, Leads t.ancestors k i
  done : ∀ i, Marked s.2 i → i ∉ s.1 → ∀ j ∈ t.ancestors i, ¬ Open s.2 j

theorem turn_spread {starts : List NodeId} {s s' : List NodeId × Array Bool} (h : t.Turn s s')
    (hs : Spread t starts s) : Spread t starts s' := by
  cases h with
  | visit id rest marks =>
    have hid : Marked marks id := hs.stacked id List.mem_cons_self
    constructor
    case size => exact (Marks.gather_size _ _).trans hs.size
    case stacked =>
      intro i hi
      rw [Marks.marked_gather]
      rcases List.mem_append.mp hi with hi | hi
      · exact Or.inr (List.mem_reverse.mp hi)
      · exact Or.inl (hs.stacked i (List.mem_cons_of_mem _ hi))
    case started =>
      intro i hi
      exact Marks.marked_gather.mpr (Or.inl (hs.started i hi))
    case led =>
      intro i hi
      rcases Marks.marked_gather.mp hi with hi | hi
      · exact hs.led i hi
      · obtain ⟨k, hk, hkid⟩ := hs.led id hid
        exact ⟨k, hk, hkid.tail (Marks.mem_gather.mp hi).1⟩
    case done =>
      intro i hi hout j hj hopen
      obtain ⟨hopen, hnew⟩ := Marks.open_gather.mp hopen
      by_cases hiid : i = id
      · subst hiid
        exact hnew hj
      · simp only [List.mem_append, List.mem_reverse, not_or] at hout
        have hold := (Marks.marked_gather.mp hi).resolve_right hout.1
        refine hs.done i hold ?_ j hj hopen
        simp [hiid, hout.2]

theorem turns_spread {starts : List NodeId} {s s' : List NodeId × Array Bool}
    (h : Relation.ReflTransGen t.Turn s s') (hs : Spread t starts s) : Spread t starts s' := by
  induction h with
  | refl => exact hs
  | tail _ hturn ih => exact turn_spread hturn ih

/-- The state of a walk before its first turn: the starts, each once and marked. -/
def started (t : Table E) (starts : List NodeId) : List NodeId × Array Bool :=
  ((Marks.gather starts (Array.replicate t.size false)).1.reverse,
    (Marks.gather starts (Array.replicate t.size false)).2)

theorem started_spread {starts : List NodeId} (h : ∀ i ∈ starts, i < t.size) :
    Spread t starts (t.started starts) := by
  have hblank (i : NodeId) : ¬ Marked (Array.replicate t.size false) i := by
    simp [Marked, Array.getElem?_replicate]
  have hopen (i : NodeId) (hi : i ∈ starts) : Open (Array.replicate t.size false) i := by
    simp [Open, h i hi]
  have hmarked (i : NodeId) : Marked (t.started starts).2 i ↔
      i ∈ (Marks.gather starts (Array.replicate t.size false)).1 := by
    rw [started, Marks.marked_gather]
    exact or_iff_right (hblank i)
  constructor
  case size => simp [started, Marks.gather_size]
  case stacked => exact fun i hi => (hmarked i).mpr (List.mem_reverse.mp hi)
  case started => exact fun i hi => (hmarked i).mpr (Marks.mem_gather.mpr ⟨hi, hopen i hi⟩)
  case led => exact fun i hi => ⟨i, (Marks.mem_gather.mp ((hmarked i).mp hi)).1, .refl⟩
  case done => exact fun i hi hout => absurd (List.mem_reverse.mpr ((hmarked i).mp hi)) hout

/-- The state a pruning walks from. Unknown roots are left out. -/
def rooted (t : Table E) (roots : List E) : List NodeId × Array Bool :=
  t.started (roots.filterMap t.idOf?)

theorem rooted_spread (h : ∀ e i, t.idOf? e = some i → i < t.size) (roots : List E) :
    Spread t (roots.filterMap t.idOf?) (t.rooted roots) := by
  apply started_spread
  intro i hi
  obtain ⟨e, _, he⟩ := List.mem_filterMap.mp hi
  exact h e i he

/-- When the stack is empty, exactly what the starts lead to is marked. -/
theorem Spread.marked_iff {starts : List NodeId} {marks : Array Bool}
    (h : Spread t starts ([], marks)) (hlt : ∀ i, ∀ j ∈ t.ancestors i, j < t.size) :
    Marked marks i ↔ ∃ k ∈ starts, Leads t.ancestors k i := by
  constructor
  · exact h.led i
  · intro hk
    obtain ⟨k, hk, hki⟩ := hk
    induction hki with
    | refl => exact h.started k hk
    | tail _ hstep ih =>
      apply (Marks.not_open_iff (h.size ▸ hlt _ _ hstep)).mp
      exact h.done _ ih List.not_mem_nil _ hstep

theorem mem_unmarked {roots : List E} {e : E} : e ∈ (t.pruneUnreachable roots).entities ↔
    ∃ j, t.entity? j = some e ∧
      ¬ Marked (t.reach (t.rooted roots).1 (t.rooted roots).2) j := by
  simp only [pruneUnreachable, rooted, started, (Entity.sort_perm _).mem_iff, entities,
    List.mem_filterMap, List.mem_filter, ids, List.mem_range, Marks.not_getD_iff]
  constructor
  · intro he
    obtain ⟨j, ⟨_, hj⟩, he⟩ := he
    exact ⟨j, he, hj⟩
  · intro he
    obtain ⟨j, he, hj⟩ := he
    exact ⟨j, ⟨exists_entity?.mp ⟨e, he⟩, hj⟩, he⟩

/-- The lists of dependencies are those of a relation on the known entities. -/
structure Lists (needs : E → E → Prop) (t : Table E) : Prop where
  indexed : Indexed t
  link : ∀ i j, j ∈ t.ancestors i ↔
    ∃ e d, t.entity? i = some e ∧ t.entity? j = some d ∧ needs e d
  known : ∀ e d, needs e d → (∃ i, t.entity? i = some e) ∧ ∃ j, t.entity? j = some d

namespace Lists

variable {needs : E → E → Prop} {a b : E}

theorem ancestors_lt (h : Lists needs t) (i : NodeId) : ∀ j ∈ t.ancestors i, j < t.size := by
  intro j hj
  obtain ⟨_, d, _, hd, _⟩ := (h.link i j).mp hj
  exact exists_entity?.mp ⟨d, hd⟩

theorem exists_leads (h : Lists needs t) (ha : t.entity? i = some a)
    (hab : Relation.ReflTransGen needs a b) :
    ∃ j, t.entity? j = some b ∧ Leads t.ancestors i j := by
  induction hab with
  | refl => exact ⟨i, ha, .refl⟩
  | tail _ hneed ih =>
    obtain ⟨k, hk, hik⟩ := ih
    obtain ⟨j, hj⟩ := (h.known _ _ hneed).2
    exact ⟨j, hj, hik.tail ((h.link k j).mpr ⟨_, _, hk, hj, hneed⟩)⟩

theorem leads_iff (h : Lists needs t) (ha : t.entity? i = some a) (hb : t.entity? j = some b) :
    Leads t.ancestors i j ↔ Relation.ReflTransGen needs a b := by
  constructor
  · intro hij
    induction hij generalizing b with
    | refl =>
      obtain rfl := Option.some.inj (ha.symm.trans hb)
      exact .refl
    | tail _ hstep ih =>
      obtain ⟨c, d, hc, hd, hneed⟩ := (h.link _ _).mp hstep
      obtain rfl := Option.some.inj (hb.symm.trans hd)
      exact (ih hc).tail hneed
  · intro hab
    obtain ⟨k, hk, hik⟩ := h.exists_leads ha hab
    obtain rfl := h.indexed.injective hb hk
    exact hik

theorem known_of_reaches (h : Lists needs t) (hb : t.entity? j = some b)
    (hab : Relation.ReflTransGen needs a b) : ∃ i, t.entity? i = some a := by
  rcases Relation.ReflTransGen.cases_head hab with rfl | ⟨c, hneed, _⟩
  · exact ⟨j, hb⟩
  · exact (h.known a c hneed).1

theorem mem_pruneUnreachable (h : Lists needs t) {roots : List E} :
    b ∈ (t.pruneUnreachable roots).entities ↔
      (∃ j, t.entity? j = some b) ∧ ∀ a ∈ roots, ¬ Relation.ReflTransGen needs a b := by
  have hend := turns_spread (reach_turns t (t.rooted roots).1 (t.rooted roots).2)
    (rooted_spread (fun _ _ => h.indexed.lt) roots)
  rw [mem_unmarked, ← exists_and_right]
  refine exists_congr fun j => and_congr_right fun hj => ?_
  rw [hend.marked_iff h.ancestors_lt, ← not_exists_mem, not_iff_not]
  constructor
  · intro hreach
    obtain ⟨i, hi, hij⟩ := hreach
    obtain ⟨a, ha, hai⟩ := List.mem_filterMap.mp hi
    exact ⟨a, ha, (h.leads_iff ((h.indexed a i).mp hai) hj).mp hij⟩
  · intro hreach
    obtain ⟨a, ha, hab⟩ := hreach
    obtain ⟨i, hi⟩ := h.known_of_reaches hj hab
    refine ⟨i, List.mem_filterMap.mpr ⟨a, ha, (h.indexed a i).mpr hi⟩, ?_⟩
    exact (h.leads_iff hi hj).mpr hab

end Lists

theorem Built.lists {ds : List (E × List E)} (h : Built ds t) : Lists (DependsOn ds) t where
  indexed := h.indexed
  link := h.ancestors
  known _ _ hdep := ⟨h.known.mpr hdep.1.mentioned.1, h.known.mpr hdep.1.mentioned.2⟩

end Table

section Keeping

variable {E : Type} {ds : List (E × List E)} {p e d : E}

theorem Reaches.joined (h : Reaches ds p e) : Joined ds e p := by
  induction h with
  | refl => exact .refl
  | tail _ hdep ih => exact .head (Or.inr hdep) ih

/-- A public entity keeps another one: it is joined to it, or it reaches it. -/
def Keeps (ds : List (E × List E)) : Strategy → E → E → Prop
  | .byComponent, p, e => Joined ds e p
  | .byReach, p, e => Reaches ds p e

theorem keeps_self (s : Strategy) (p : E) : Keeps ds s p p := by
  cases s <;> exact .refl

theorem Keeps.dependency {s : Strategy} (h : Keeps ds s p e) (hdep : DependsOn ds e d) :
    Keeps ds s p d := by
  cases s with
  | byComponent => exact .head (Or.inr hdep) h
  | byReach => exact .tail h hdep

end Keeping

namespace Resolution

variable {E : Type} [Entity E] {r : Resolution E} {ds : List (E × List E)} {e : E}

def prunable (r : Resolution E) : Strategy → List E → List E
  | .byComponent, publics => (r.prune publics).entities
  | .byReach, publics => (r.table.pruneUnreachable publics).entities

theorem Sound.mem_pruneUnreachable (h : r.Sound ds) {publics : List E} :
    e ∈ (r.table.pruneUnreachable publics).entities ↔
      e ∈ mentions ds ∧ ∀ p ∈ publics, ¬ Reaches ds p e := by
  rw [h.built.lists.mem_pruneUnreachable, h.built.known]
  rfl

theorem Sound.mem_prunable (h : r.Sound ds) (s : Strategy) {publics : List E} :
    e ∈ r.prunable s publics ↔ e ∈ mentions ds ∧ ∀ p ∈ publics, ¬ Keeps ds s p e := by
  cases s with
  | byComponent => exact h.mem_prune
  | byReach => exact h.mem_pruneUnreachable

/-- By either strategy, what goes is what no public entity keeps; so no public entity goes, nothing
goes that something left depends on, and more public entities leave more. By components, no more
goes than by reach. -/
structure PrunesSafely (ds : List (E × List E)) (r : Resolution E) (publics : List E) : Prop where
  nested : ∀ e ∈ (r.prune publics).entities, e ∈ (r.table.pruneUnreachable publics).entities
  gone : ∀ s e, e ∈ r.prunable s publics ↔ e ∈ mentions ds ∧ ∀ p ∈ publics, ¬ Keeps ds s p e
  closed : ∀ s e d, e ∈ mentions ds → e ∉ r.prunable s publics → Declares ds e d →
    d ∉ r.prunable s publics
  spared : ∀ s, ∀ p ∈ publics, p ∉ r.prunable s publics
  antitone : ∀ s more, publics ⊆ more → r.prunable s more ⊆ r.prunable s publics

theorem prune_safe {calls : List (E × List E)} {o : Options} {r : Resolution E}
    (hres : (Table.ofCalls calls).resolve o = .ok r) (publics : List E) :
    PrunesSafely (Table.taken calls) r publics := by
  have h := Table.resolve_sound (Table.ofCalls_records calls) hres
  constructor
  case nested =>
    intro e he
    obtain ⟨hknown, hout⟩ := h.mem_prune.mp he
    exact h.mem_pruneUnreachable.mpr ⟨hknown, fun p hp hreach => hout p hp hreach.joined⟩
  case gone => exact fun s e => h.mem_prunable s
  case closed =>
    intro s e d hknown hkept hdep hgone
    by_cases hde : d = e
    · exact hkept (hde ▸ hgone)
    · have hclear := ((h.mem_prunable s).mp hgone).2
      apply hkept
      refine (h.mem_prunable s).mpr ⟨hknown, fun p hp hkeeps => ?_⟩
      exact hclear p hp (hkeeps.dependency ⟨hdep, hde⟩)
  case spared =>
    intro s p hp hgone
    exact ((h.mem_prunable s).mp hgone).2 p hp (keeps_self s p)
  case antitone =>
    intro s more hmore e he
    obtain ⟨hknown, hout⟩ := (h.mem_prunable s).mp he
    exact (h.mem_prunable s).mpr ⟨hknown, fun p hp => hout p (hmore hp)⟩

/-- Two users of one entity, only one of them public, and a cycle apart; the other public name is
not known. -/
theorem prune_safe_shared : ∃ r,
    (Table.ofCalls [((1 : Int), [2]), (3, [2]), (4, [5]), (5, [4])]).resolve {} = .ok r ∧
      PrunesSafely [((1 : Int), [2]), (3, [2]), (4, [5]), (5, [4])] r [1, 9] := by
  obtain ⟨r, hr⟩ := Table.resolve_default
    (Table.ofCalls_records [((1 : Int), [2]), (3, [2]), (4, [5]), (5, [4])])
  refine ⟨r, hr, ?_⟩
  have hsafe := prune_safe hr [1, 9]
  rwa [Table.taken_eq (by decide) (by decide)] at hsafe

end Resolution

end DepGraph
