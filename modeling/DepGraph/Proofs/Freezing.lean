import DepGraph.Proofs.Building
import Mathlib.Algebra.GroupWithZero.Nat

/-!
# Freezing a table

The one build of a table completes its nodes: what each lists is kept apart from itself, what lists
it is filled in, and all three lists of a node come out in order without repetition. Nothing moves
afterwards, since a built table refuses every further request.
-/

namespace DepGraph

theorem ascending_mergeUnion {xs ys : List Nat} (hx : xs.Pairwise (· < ·))
    (hy : ys.Pairwise (· < ·)) : (mergeUnion xs ys).Pairwise (· < ·) := by
  fun_induction mergeUnion xs ys with
  | case1 ys => exact hy
  | case2 xs => exact hx
  | case3 x xs y ys hlt ih =>
    refine List.pairwise_cons.mpr ⟨fun a ha => ?_, ih hx.of_cons hy⟩
    rcases mem_mergeUnion.mp ha with ha | ha
    · exact List.rel_of_pairwise_cons hx ha
    · rcases List.mem_cons.mp ha with heq | ha
      · exact heq ▸ hlt
      · exact Nat.lt_trans hlt (List.rel_of_pairwise_cons hy ha)
  | case4 x xs y ys hlt hgt ih =>
    refine List.pairwise_cons.mpr ⟨fun a ha => ?_, ih hx hy.of_cons⟩
    rcases mem_mergeUnion.mp ha with ha | ha
    · rcases List.mem_cons.mp ha with heq | ha
      · exact heq ▸ hgt
      · exact Nat.lt_trans hgt (List.rel_of_pairwise_cons hx ha)
    · exact List.rel_of_pairwise_cons hy ha
  | case5 x xs y ys hlt hgt ih =>
    have hxy : x = y := by omega
    refine List.pairwise_cons.mpr ⟨fun a ha => ?_, ih hx.of_cons hy.of_cons⟩
    rcases mem_mergeUnion.mp ha with ha | ha
    · exact List.rel_of_pairwise_cons hx ha
    · exact hxy ▸ List.rel_of_pairwise_cons hy ha

namespace Table

section Links

variable {E : Type} {nodes : Array (Node E)}

theorem length_linksOf (nodes : Array (Node E)) :
    (linksOf nodes).length = (nodes.toList.map fun n => n.ancestors.length).sum := by
  have hfirst : nodes.toList.zipIdx.map (fun p => (p.1.ancestors.map (p.2, ·)).length) =
      (nodes.toList.zipIdx.map (·.1)).map fun n => n.ancestors.length := by
    rw [List.map_map]
    exact List.map_congr_left fun p _ => List.length_map _
  rw [linksOf, List.length_flatMap, hfirst, List.zipIdx_map_fst]

theorem linksOf_ordered (h : ∀ n ∈ nodes.toList, n.ancestors.Pairwise (· < ·)) :
    (linksOf nodes).Pairwise fun l m => l.2 = m.2 → l.1 < m.1 := by
  have hids : nodes.toList.zipIdx.Pairwise fun p q => p.2 < q.2 := by
    apply List.pairwise_map.mp
    rw [List.zipIdx_map_snd]
    exact List.pairwise_lt_range'
  apply List.pairwise_flatMap.mpr
  constructor
  · intro p hp
    apply List.pairwise_map.mpr
    apply (h p.1 (List.fst_mem_of_mem_zipIdx hp)).imp
    intro a b hab heq
    exact absurd heq (Nat.ne_of_lt hab)
  · apply hids.imp
    intro p q hpq l hl m hm _
    obtain ⟨_, _, rfl⟩ := List.mem_map.mp hl
    obtain ⟨_, _, rfl⟩ := List.mem_map.mp hm
    exact hpq

end Links

variable {E : Type} [Entity E] {t t' : Table E} {ds : List (E × List E)}

theorem build_descendants_ascending (hr : Records ds t) (h : t.build = (.ok (), t')) (i : NodeId) :
    (t'.descendants i).Pairwise (· < ·) := by
  have hlists : ∀ n ∈ (t.nodes.mapIdx dropSelf).toList, n.ancestors.Pairwise (· < ·) := by
    intro n hn
    obtain ⟨j, hj⟩ := List.mem_iff_getElem?.mp hn
    rw [Array.getElem?_toList, Array.getElem?_mapIdx] at hj
    obtain ⟨m, hm, rfl⟩ := Option.map_eq_some_iff.mp hj
    exact dropSelf_ascending hr hm
  rw [Table.descendants, build_node? h]
  cases t.node? i with
  | none => exact List.Pairwise.nil
  | some n =>
    apply List.pairwise_map.mpr
    apply List.pairwise_filter.mpr
    apply (linksOf_ordered hlists).imp
    intro l m hlm hl hm
    exact hlm ((of_decide_eq_true hl).trans (of_decide_eq_true hm).symm)

theorem build_adjacency (h : t.build = (.ok (), t')) (i : NodeId) :
    t'.adjacency i = mergeUnion (t'.ancestors i) (t'.descendants i) := by
  rw [Table.adjacency, Table.ancestors, Table.descendants, build_node? h]
  cases t.node? i with
  | none => simp [mergeUnion]
  | some n => rfl

/-- What the build makes of the table `t`, which has taken the declarations `ds`. -/
structure Completes (ds : List (E × List E)) (t t' : Table E) : Prop where
  size : t'.size = t.size
  index : ∀ e, t'.idOf? e = t.idOf? e
  kept : ∀ i, (t'.node? i).map (fun n => (n.entity, n.declared)) =
    (t.node? i).map fun n => (n.entity, n.declared)
  ancestors : ∀ i, t'.ancestors i = (t.ancestors i).filter (· != i)
  selfLoop : ∀ i n, t'.node? i = some n →
    (n.selfLoop = true ↔ i ∈ t.ancestors i) ∧ (n.selfLoop = true ↔ Declares ds n.entity n.entity)
  descendants : ∀ i j, j ∈ t'.descendants i ↔ i ∈ t'.ancestors j
  adjacency : ∀ i j, j ∈ t'.adjacency i ↔ j ∈ t'.ancestors i ∨ j ∈ t'.descendants i
  ascending : ∀ i, (t.ancestors i).Pairwise (· < ·) ∧ (t'.ancestors i).Pairwise (· < ·) ∧
    (t'.descendants i).Pairwise (· < ·) ∧ (t'.adjacency i).Pairwise (· < ·)
  apart : ∀ i, i ∉ t'.ancestors i ∧ i ∉ t'.descendants i ∧ i ∉ t'.adjacency i
  edges : t'.edgeCount = (t'.nodes.toList.map fun n => n.ancestors.length).sum

theorem build_completes (hr : Records ds t) (h : t.build = (.ok (), t')) : Completes ds t t' := by
  have hbuilt := build_built hr h
  have hsorted (i : NodeId) : (t.ancestors i).Pairwise (· < ·) := by
    rw [Table.ancestors]
    cases hn : t.node? i with
    | none => exact List.Pairwise.nil
    | some n => exact (hr.node i n hn).ascending
  have hfilter (i : NodeId) : t'.ancestors i = (t.ancestors i).filter (· != i) := by
    have hnodup : (t.ancestors i).Nodup := (hsorted i).imp fun hab => Nat.ne_of_lt hab
    rw [← hnodup.erase_eq_filter, Table.ancestors, Table.ancestors, build_node? h]
    cases t.node? i <;> rfl
  have hself (i : NodeId) : i ∉ t'.ancestors i := by
    rw [hfilter]
    simp
  constructor
  case size =>
    have hlen := congrArg List.length (build_names h)
    simpa [names, Table.size] using hlen
  case index =>
    intro e
    rw [idOf?, idOf?, (build_frozen h).2]
  case kept =>
    intro i
    rw [build_node? h, Option.map_map]
    rfl
  case ancestors => exact hfilter
  case selfLoop =>
    intro i n hn
    refine ⟨?_, hbuilt.selfLoop i n hn⟩
    rw [build_node? h] at hn
    obtain ⟨m, hm, rfl⟩ := Option.map_eq_some_iff.mp hn
    rw [Table.ancestors, hm]
    exact List.contains_iff_mem
  case descendants => exact hbuilt.descendants
  case adjacency => exact hbuilt.adjacency
  case ascending =>
    intro i
    have hdesc := build_descendants_ascending hr h i
    refine ⟨hsorted i, hbuilt.ascending i, hdesc, ?_⟩
    rw [build_adjacency h]
    exact ascending_mergeUnion (hbuilt.ascending i) hdesc
  case apart =>
    intro i
    have hdesc : i ∉ t'.descendants i := by
      rw [hbuilt.descendants]
      exact hself i
    refine ⟨hself i, hdesc, ?_⟩
    rw [hbuilt.adjacency]
    exact not_or.mpr ⟨hself i, hdesc⟩
  case edges => rw [hbuilt.edges, length_linksOf]

end Table

/-- What can be asked of a table that changes it. -/
inductive Request (E : Type) where
  | add (e : E) (deps : List E)
  | build
  deriving Repr

namespace Table

variable {E : Type} [Entity E] {t : Table E}

def serve (t : Table E) : Request E → Except (GraphError E) Unit × Table E
  | .add e deps => ((t.add e deps).1.map fun _ => (), (t.add e deps).2)
  | .build => t.build

def after (t : Table E) (q : Request E) : Table E := (t.serve q).2

theorem serve_frozen (h : t.frozen = true) (q : Request E) :
    t.serve q = (.error .frozen, t) := by
  cases q with
  | add e deps => rw [serve, add, if_pos h, Except.map]
  | build => rw [serve, build, if_pos h]

theorem after_frozen (h : t.frozen = true) (qs : List (Request E)) : qs.foldl after t = t := by
  induction qs with
  | nil => rfl
  | cons q qs ih =>
    have hstep : t.after q = t := by rw [after, serve_frozen h]
    rw [List.foldl_cons, hstep, ih]

/-- Whatever declarations a table has been offered, it can be built, and that completes it. From
then on it refuses every request and stays as it is. -/
theorem build_once (calls : List (E × List E)) :
    ∃ t, (ofCalls calls).build = (.ok (), t) ∧ Completes (taken calls) (ofCalls calls) t ∧
      ∀ qs : List (Request E), qs.foldl after t = t ∧
        ∀ q, (qs.foldl after t).serve q = (.error .frozen, t) := by
  have hr := ofCalls_records calls
  obtain ⟨t, hb⟩ := build_of_unfrozen hr.unfrozen
  have hfrozen := (build_frozen hb).1
  refine ⟨t, hb, build_completes hr hb, fun qs => ?_⟩
  have hstill := after_frozen hfrozen qs
  rw [hstill]
  exact ⟨rfl, serve_frozen hfrozen⟩

end Table

end DepGraph
