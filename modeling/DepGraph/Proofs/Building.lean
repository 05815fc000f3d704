import DepGraph.Component.Split
import DepGraph.Proofs.Adding
import DepGraph.Proofs.Drawing
import DepGraph.Table.Build

/-!
# Building a table

A built table holds the dependency relation twice, once from each end, and the undirected view of
it. Self references are gone from all three and leave a flag.
-/

namespace DepGraph

theorem mem_mergeUnion {xs ys : List Nat} {a : Nat} : a ∈ mergeUnion xs ys ↔ a ∈ xs ∨ a ∈ ys := by
  fun_induction mergeUnion xs ys with
  | case1 ys => simp
  | case2 xs => simp
  | case3 x xs y ys hlt ih => simp [ih, or_assoc]
  | case4 x xs y ys hlt hgt ih =>
    simp only [List.mem_cons, ih]
    constructor
    · rintro (rfl | h | h)
      · exact Or.inr (Or.inl rfl)
      · exact Or.inl h
      · exact Or.inr (Or.inr h)
    · rintro (h | rfl | h)
      · exact Or.inr (Or.inl h)
      · exact Or.inl rfl
      · exact Or.inr (Or.inr h)
  | case5 x xs y ys hlt hgt ih =>
    obtain rfl : x = y := by omega
    simp only [List.mem_cons, ih]
    constructor
    · rintro (rfl | h | h)
      · exact Or.inl (Or.inl rfl)
      · exact Or.inl (Or.inr h)
      · exact Or.inr (Or.inr h)
    · rintro ((rfl | h) | rfl | h)
      · exact Or.inl rfl
      · exact Or.inr (Or.inl h)
      · exact Or.inl rfl
      · exact Or.inr (Or.inr h)

namespace Table

variable {E : Type} [Entity E] {t t' : Table E} {i j : NodeId}

theorem mem_linksOf {E : Type} {nodes : Array (Node E)} {d a : NodeId} :
    (d, a) ∈ linksOf nodes ↔ ∃ n, nodes[d]? = some n ∧ a ∈ n.ancestors := by
  simp only [linksOf, List.mem_flatMap, List.mem_map, Prod.mk.injEq]
  constructor
  · rintro ⟨⟨n, id⟩, hn, b, hb, rfl, rfl⟩
    exact ⟨n, by simpa using List.mem_zipIdx_iff_getElem?.mp hn, hb⟩
  · rintro ⟨n, hn, ha⟩
    exact ⟨(n, d), List.mem_zipIdx_iff_getElem?.mpr (by simpa using hn), a, ha, rfl, rfl⟩

theorem linksOf_congr {E : Type} {nodes nodes' : Array (Node E)}
    (h : ∀ i : NodeId, (nodes'[i]?).map (·.ancestors) = (nodes[i]?).map (·.ancestors)) :
    linksOf nodes' = linksOf nodes := by
  have hlists : nodes'.toList.map (·.ancestors) = nodes.toList.map (·.ancestors) := by
    apply List.ext_getElem?
    intro i
    simpa using h i
  have hread (ns : Array (Node E)) : linksOf ns =
      (ns.toList.map (·.ancestors)).zipIdx.flatMap fun p => p.1.map (p.2, ·) := by
    rw [linksOf, List.zipIdx_map, List.flatMap_map]
    rfl
  rw [hread, hread, hlists]

theorem dependents_getElem? (size : Nat) (links : List (NodeId × NodeId)) (i : NodeId) :
    (dependents size links)[i]? =
      if i < size then some ((links.filter fun l => l.2 = i).map (·.1)) else none := by
  induction links with
  | nil => simp [dependents, Array.getElem?_replicate]
  | cons l links ih =>
    have hfold : dependents size (l :: links) = (dependents size links).modify l.2 (l.1 :: ·) := rfl
    rw [hfold, Array.getElem?_modify, ih]
    by_cases hl : l.2 = i
    · rw [if_pos hl, List.filter_cons_of_pos (by simpa using hl)]
      split <;> simp
    · rw [if_neg hl, List.filter_cons_of_neg (by simpa using hl)]

theorem build_node? (h : t.build = (.ok (), t')) (i : NodeId) :
    t'.node? i = (t.node? i).map fun n => withDescendants (dropSelf i n)
      (((linksOf (t.nodes.mapIdx dropSelf)).filter fun l => l.2 = i).map (·.1)) := by
  unfold build at h
  split at h
  · cases h
  · obtain rfl := (Prod.mk.inj h).2
    simp only [node?, Array.getElem?_zipWith, Array.getElem?_mapIdx, dependents_getElem?,
      Array.size_mapIdx]
    by_cases hi : i < t.nodes.size
    · simp [hi]
    · simp [hi]

theorem build_frozen (h : t.build = (.ok (), t')) : t'.frozen = true ∧ t'.index = t.index := by
  unfold build at h
  split at h
  · cases h
  · obtain rfl := (Prod.mk.inj h).2
    exact ⟨rfl, rfl⟩

theorem build_edges (h : t.build = (.ok (), t')) : t'.edgeCount = (linksOf t'.nodes).length := by
  have hcount : t'.edgeCount = (linksOf (t.nodes.mapIdx dropSelf)).length := by
    unfold build at h
    split at h
    · cases h
    · obtain rfl := (Prod.mk.inj h).2
      rfl
  have hlinks : linksOf t'.nodes = linksOf (t.nodes.mapIdx dropSelf) := by
    apply linksOf_congr
    intro i
    have hnode := congrArg (Option.map (·.ancestors)) (build_node? h i)
    rw [node?, Option.map_map] at hnode
    rw [hnode, Array.getElem?_mapIdx, Option.map_map]
    rfl
  rw [hcount, hlinks]

theorem build_of_unfrozen (h : t.frozen = false) : ∃ t', t.build = (.ok (), t') := by
  simp [build, h]

theorem build_entity? (h : t.build = (.ok (), t')) (i : NodeId) : t'.entity? i = t.entity? i := by
  simp only [entity?, build_node? h]
  simp [Function.comp_def, withDescendants, dropSelf]

theorem build_names (h : t.build = (.ok (), t')) : t'.names = t.names := by
  apply List.ext_getElem?
  intro i
  rw [← entity?_eq_names, ← entity?_eq_names, build_entity? h]

theorem mem_ancestors : j ∈ t.ancestors i ↔ ∃ n, t.node? i = some n ∧ j ∈ n.ancestors := by
  cases h : t.node? i <;> simp [ancestors, h]

theorem mem_descendants : j ∈ t.descendants i ↔ ∃ n, t.node? i = some n ∧ j ∈ n.descendants := by
  cases h : t.node? i <;> simp [descendants, h]

theorem mem_adjacency : j ∈ t.adjacency i ↔ ∃ n, t.node? i = some n ∧ j ∈ n.adjacency := by
  cases h : t.node? i <;> simp [adjacency, h]

/-- The table is built and holds exactly the dependencies that `ds` declares. -/
structure Built (ds : List (E × List E)) (t : Table E) : Prop where
  indexed : Indexed t
  names : t.names = (mentions ds).foldl Entity.note []
  frozen : t.frozen = true
  ancestors : ∀ i j, j ∈ t.ancestors i ↔
    ∃ e d, t.entity? i = some e ∧ t.entity? j = some d ∧ DependsOn ds e d
  descendants : ∀ i j, j ∈ t.descendants i ↔ i ∈ t.ancestors j
  adjacency : ∀ i j, j ∈ t.adjacency i ↔ j ∈ t.ancestors i ∨ j ∈ t.descendants i
  selfLoop : ∀ i n, t.node? i = some n → (n.selfLoop = true ↔ Declares ds n.entity n.entity)
  ascending : ∀ i, (t.ancestors i).Pairwise (· < ·)
  edges : t.edgeCount = (linksOf t.nodes).length

theorem Built.mem_names {ds : List (E × List E)} (h : Built ds t) {e : E} :
    e ∈ t.names ↔ e ∈ mentions ds := by
  rw [h.names, Entity.mem_foldl_note]
  simp

theorem Built.known {ds : List (E × List E)} (h : Built ds t) {e : E} :
    (∃ i, t.entity? i = some e) ↔ e ∈ mentions ds := by
  rw [← h.mem_names, mem_names_iff h.indexed]
  exact exists_congr fun i => (h.indexed e i).symm

theorem Built.drawn {ds : List (E × List E)} (h : Built ds t) :
    Drawn ds t.descendants t.entity? where
  link v w := by
    rw [h.descendants, h.ancestors]
    constructor
    · rintro ⟨d, e, hd, he, hdep⟩
      exact ⟨e, d, he, hd, hdep⟩
    · rintro ⟨e, d, he, hd, hdep⟩
      exact ⟨d, e, hd, he, hdep⟩
  injective _ _ _ hv hw := h.indexed.injective hv hw
  closed _ _ _ _ hdep := h.known.mpr hdep.1.mentioned.1

theorem Built.mem_adjacency_iff {ds : List (E × List E)} (h : Built ds t) : j ∈ t.adjacency i ↔
    ∃ a b, t.entity? i = some a ∧ t.entity? j = some b ∧ (DependsOn ds a b ∨ DependsOn ds b a) := by
  rw [h.adjacency, h.descendants, h.ancestors, h.ancestors]
  constructor
  · rintro (⟨a, b, ha, hb, hdep⟩ | ⟨b, a, hb, ha, hdep⟩)
    · exact ⟨a, b, ha, hb, Or.inl hdep⟩
    · exact ⟨a, b, ha, hb, Or.inr hdep⟩
  · rintro ⟨a, b, ha, hb, hdep | hdep⟩
    · exact Or.inl ⟨a, b, ha, hb, hdep⟩
    · exact Or.inr ⟨b, a, hb, ha, hdep⟩

theorem dropSelf_ancestors {ds : List (E × List E)} {n : Node E} (hr : Records ds t)
    (hn : t.node? i = some n) : j ∈ (dropSelf i n).ancestors ↔
      ∃ e d, t.entity? i = some e ∧ t.entity? j = some d ∧ DependsOn ds e d := by
  have hrec := hr.node i n hn
  have hi : t.entity? i = some n.entity := entity?_eq_some_iff.mpr ⟨n, hn, rfl⟩
  have hnodup : n.ancestors.Nodup := hrec.ascending.imp (fun hab => Nat.ne_of_lt hab)
  simp only [dropSelf, hnodup.mem_erase_iff, hrec.ancestors j]
  constructor
  · rintro ⟨hne, d, hj, hdec⟩
    refine ⟨n.entity, d, hi, hj, hdec, ?_⟩
    rintro rfl
    exact hne (hr.indexed.injective hj hi)
  · rintro ⟨e, d, he, hj, hdec, hne⟩
    obtain rfl := Option.some.inj (hi.symm.trans he)
    refine ⟨?_, d, hj, hdec⟩
    rintro rfl
    exact hne (Option.some.inj (hj.symm.trans hi))

theorem dropSelf_ascending {ds : List (E × List E)} {n : Node E} (hr : Records ds t)
    (hn : t.node? i = some n) : (dropSelf i n).ancestors.Pairwise (· < ·) :=
  (hr.node i n hn).ascending.sublist List.erase_sublist

theorem build_ancestors {ds : List (E × List E)} (hr : Records ds t) (h : t.build = (.ok (), t')) :
    j ∈ t'.ancestors i ↔
      ∃ e d, t.entity? i = some e ∧ t.entity? j = some d ∧ DependsOn ds e d := by
  rw [mem_ancestors, build_node? h]
  constructor
  · rintro ⟨n, hn, hj⟩
    obtain ⟨m, hm, rfl⟩ := Option.map_eq_some_iff.mp hn
    exact (dropSelf_ancestors hr hm).mp hj
  · rintro ⟨e, d, he, hd⟩
    obtain ⟨m, hm, rfl⟩ := entity?_eq_some_iff.mp he
    refine ⟨_, congrArg (Option.map _) hm, ?_⟩
    exact (dropSelf_ancestors hr hm).mpr ⟨_, d, he, hd⟩

theorem build_descendants {ds : List (E × List E)} (hr : Records ds t)
    (h : t.build = (.ok (), t')) : j ∈ t'.descendants i ↔ i ∈ t'.ancestors j := by
  rw [mem_descendants, build_node? h, build_ancestors hr h]
  constructor
  · rintro ⟨n, hn, hj⟩
    obtain ⟨m, hm, rfl⟩ := Option.map_eq_some_iff.mp hn
    simp only [withDescendants, List.mem_map, List.mem_filter, decide_eq_true_eq] at hj
    obtain ⟨⟨d, a⟩, ⟨hlink, rfl⟩, rfl⟩ := hj
    obtain ⟨k, hk, ha⟩ := mem_linksOf.mp hlink
    rw [Array.getElem?_mapIdx] at hk
    obtain ⟨l, hl, rfl⟩ := Option.map_eq_some_iff.mp hk
    exact (dropSelf_ancestors hr hl).mp ha
  · rintro ⟨e, d, he, hd, hdep⟩
    obtain ⟨k, hk, rfl⟩ := entity?_eq_some_iff.mp he
    obtain ⟨m, hm, rfl⟩ := entity?_eq_some_iff.mp hd
    have ha := (dropSelf_ancestors hr hk).mpr ⟨_, _, he, hd, hdep⟩
    have hk' : (t.nodes.mapIdx dropSelf)[j]? = some (dropSelf j k) := by
      rw [Array.getElem?_mapIdx]
      exact congrArg (Option.map (dropSelf j)) hk
    refine ⟨_, congrArg (Option.map _) hm, ?_⟩
    simp only [withDescendants, List.mem_map, List.mem_filter, decide_eq_true_eq]
    exact ⟨(j, i), ⟨mem_linksOf.mpr ⟨_, hk', ha⟩, rfl⟩, rfl⟩

theorem build_built {ds : List (E × List E)} (hr : Records ds t) (h : t.build = (.ok (), t')) :
    Built ds t' := by
  constructor
  case indexed =>
    intro e i
    rw [build_entity? h, ← hr.indexed e i]
    simp only [idOf?, (build_frozen h).2]
  case names => rw [build_names h, hr.names]
  case frozen => exact (build_frozen h).1
  case ancestors =>
    intro i j
    simp only [build_ancestors hr h, build_entity? h]
  case descendants =>
    intro i j
    exact build_descendants hr h
  case adjacency =>
    intro i j
    rw [mem_adjacency, mem_ancestors, mem_descendants]
    cases hn : t'.node? i with
    | none => simp
    | some n =>
      rw [build_node? h] at hn
      obtain ⟨m, hm, rfl⟩ := Option.map_eq_some_iff.mp hn
      simp [withDescendants, mem_mergeUnion]
  case selfLoop =>
    intro i n hn
    rw [build_node? h] at hn
    obtain ⟨m, hm, rfl⟩ := Option.map_eq_some_iff.mp hn
    have hi : t.entity? i = some m.entity := entity?_eq_some_iff.mpr ⟨m, hm, rfl⟩
    simp only [withDescendants, dropSelf, List.contains_iff_mem, (hr.node i m hm).ancestors i, hi]
    simp
  case ascending =>
    intro i
    rw [Table.ancestors, build_node? h]
    cases hm : t.node? i with
    | none => exact List.Pairwise.nil
    | some m => exact dropSelf_ascending hr hm
  case edges => exact build_edges h

end Table

end DepGraph
