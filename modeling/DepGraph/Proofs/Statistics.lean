import DepGraph.Proofs.Cohorts
import DepGraph.Proofs.Counting
import DepGraph.Proofs.Histories
import DepGraph.Proofs.Pruning
import Mathlib.Algebra.GroupWithZero.Nat
import Mathlib.Order.Bounds.Defs

/-!
# Counting the graph

Every count of a resolution is the length of a list of entities, of pairs or of classes of them,
that repeats nothing. What the lists hold depends on the declared dependencies alone, so the
counts do too: each is the number of entities, of declared pairs or of connected components that
its name says.
-/

namespace DepGraph

variable {E : Type} {ds : List (E × List E)}

def declared (ds : List (E × List E)) : List (E × E) := ds.flatMap fun d => d.2.map (d.1, ·)

theorem mem_declared {a b : E} : (a, b) ∈ declared ds ↔ Declares ds a b := by
  simp only [declared, Declares, List.mem_flatMap, List.mem_map, Prod.mk.injEq]
  constructor
  · intro h
    obtain ⟨⟨e, deps⟩, hd, _, hb, rfl, rfl⟩ := h
    exact ⟨deps, hd, hb⟩
  · intro h
    obtain ⟨deps, hd, hb⟩ := h
    exact ⟨(a, deps), hd, b, hb, rfl, rfl⟩

theorem Plain.declared_nodup (h : Plain ds) : (declared ds).Nodup :=
  nodup_pairs (fun d : E × List E => d.1) h.distinct h.deps

theorem length_declared (ds : List (E × List E)) :
    (declared ds).length = (ds.map fun d => d.2.length).sum := by
  simp [declared, List.length_flatMap]

/-- The connected components of two or more entities. -/
def connectedSets (ds : List (E × List E)) : Set (Set E) :=
  { s | 2 ≤ s.ncard ∧ ∃ e ∈ mentions ds, s = { b | Joined ds e b } }

theorem exists_joined_of_not_lone {e : E} (h : ¬ Lone ds e) :
    e ∈ mentions ds ∧ ∃ d, d ≠ e ∧ Joined ds e d := by
  simp only [Lone, not_forall, not_and_or, not_not] at h
  obtain ⟨d, hdep⟩ := h
  rcases hdep with hdep | hdep
  · exact ⟨hdep.1.mentioned.1, d, hdep.2, .single (Or.inl hdep)⟩
  · exact ⟨hdep.1.mentioned.2, d, Ne.symm hdep.2, .single (Or.inr hdep)⟩

variable [Entity E]

namespace Table

variable {t : Table E} {a b e : E}

theorem Indexed.names_nodup (h : Indexed t) : t.names.Nodup := by
  rw [List.nodup_iff_pairwise_ne, List.pairwise_iff_getElem]
  intro i j hi hj hij heq
  have hname {k : NodeId} (hk : k < t.names.length) : t.entity? k = some t.names[k] := by
    rw [entity?_eq_names, List.getElem?_eq_getElem hk]
  exact Nat.ne_of_lt hij (h.injective (hname hi) (by rw [hname hj, heq]))

theorem Built.selfLoops_nodup (h : Built ds t) : t.selfLoops.Nodup := by
  rw [selfLoops_eq h]
  exact h.indexed.names_nodup.filter _

theorem Built.mem_selfLoops (h : Built ds t) : e ∈ t.selfLoops ↔ Declares ds e e := by
  rw [selfLoops_eq h, List.mem_filter, h.mem_names]
  simp only [decide_eq_true_eq]
  exact and_iff_right_of_imp fun hdecl => hdecl.mentioned.1

theorem Built.linksOf_nodup (h : Built ds t) : (linksOf t.nodes).Nodup := by
  apply nodup_pairs fun p : Node E × NodeId => p.2
  · rw [List.zipIdx_map_snd]
    exact List.nodup_range'
  · intro p hp
    have hnode : t.node? p.2 = some p.1 := by
      simpa [node?] using List.mem_zipIdx_iff_getElem?.mp hp
    have hanc : p.1.ancestors = t.ancestors p.2 := by
      rw [Table.ancestors, hnode]
      rfl
    rw [hanc]
    exact (h.ascending p.2).imp fun hlt => Nat.ne_of_lt hlt

def arc? (t : Table E) (l : NodeId × NodeId) : Option (E × E) :=
  (t.entity? l.1).bind fun a => (t.entity? l.2).map (a, ·)

theorem arc?_eq_some {l : NodeId × NodeId} :
    t.arc? l = some (a, b) ↔ t.entity? l.1 = some a ∧ t.entity? l.2 = some b := by
  rw [arc?, Option.bind_eq_some_iff]
  simp only [Option.map_eq_some_iff, Prod.mk.injEq]
  constructor
  · intro hl
    obtain ⟨_, hx, _, hy, rfl, rfl⟩ := hl
    exact ⟨hx, hy⟩
  · intro hl
    exact ⟨a, hl.1, b, hl.2, rfl, rfl⟩

def arcs (t : Table E) : List (E × E) := (linksOf t.nodes).filterMap t.arc?

theorem Built.mem_arcs (h : Built ds t) : (a, b) ∈ t.arcs ↔ DependsOn ds a b := by
  rw [arcs, List.mem_filterMap]
  constructor
  · intro hl
    obtain ⟨⟨i, j⟩, hl, hab⟩ := hl
    obtain ⟨ha, hb⟩ := arc?_eq_some.mp hab
    obtain ⟨x, y, hx, hy, hdep⟩ := (h.ancestors i j).mp (mem_ancestors.mpr (mem_linksOf.mp hl))
    obtain rfl := Option.some.inj (ha.symm.trans hx)
    obtain rfl := Option.some.inj (hb.symm.trans hy)
    exact hdep
  · intro hdep
    obtain ⟨i, hi⟩ := h.known.mpr hdep.1.mentioned.1
    obtain ⟨j, hj⟩ := h.known.mpr hdep.1.mentioned.2
    have hlink := (h.ancestors i j).mpr ⟨a, b, hi, hj, hdep⟩
    exact ⟨(i, j), mem_linksOf.mpr (mem_ancestors.mp hlink), arc?_eq_some.mpr ⟨hi, hj⟩⟩

theorem Built.arcs_nodup (h : Built ds t) : t.arcs.Nodup := by
  apply h.linksOf_nodup.filterMap
  intro l m arc hl hm
  obtain ⟨hx, hy⟩ := arc?_eq_some.mp hl
  obtain ⟨hx', hy'⟩ := arc?_eq_some.mp hm
  exact Prod.ext (h.indexed.injective hx hx') (h.indexed.injective hy hy')

theorem Built.length_arcs (h : Built ds t) : t.arcs.length = t.edgeCount := by
  rw [h.edges, arcs, List.filterMap_length_eq_length]
  intro l hl
  obtain ⟨a, b, ha, hb, _⟩ := (h.ancestors l.1 l.2).mp (mem_ancestors.mpr (mem_linksOf.mp hl))
  exact Option.isSome_iff_exists.mpr ⟨(a, b), arc?_eq_some.mpr ⟨ha, hb⟩⟩

theorem Built.arcs_append_perm (h : Built ds t) (hp : Plain ds) :
    (t.arcs ++ t.selfLoops.map fun e => (e, e)).Perm (declared ds) := by
  have hloops : (t.selfLoops.map fun e => (e, e)).Nodup :=
    h.selfLoops_nodup.map fun _ _ heq => (Prod.mk.inj heq).1
  have hnodup : (t.arcs ++ t.selfLoops.map fun e => (e, e)).Nodup := by
    refine List.nodup_append.mpr ⟨h.arcs_nodup, hloops, ?_⟩
    intro p hp q hq hpq
    obtain ⟨e, _, rfl⟩ := List.mem_map.mp hq
    rw [hpq, h.mem_arcs] at hp
    exact hp.2 rfl
  refine (List.perm_ext_iff_of_nodup hnodup hp.declared_nodup).mpr fun p => ?_
  obtain ⟨a, b⟩ := p
  rw [List.mem_append, h.mem_arcs, List.mem_map, mem_declared]
  constructor
  · intro hab
    rcases hab with hab | ⟨e, he, heq⟩
    · exact hab.1
    · obtain ⟨rfl, rfl⟩ := Prod.mk.inj heq
      exact h.mem_selfLoops.mp he
  · intro hab
    by_cases hne : b = a
    · subst hne
      exact Or.inr ⟨b, h.mem_selfLoops.mpr hab, rfl⟩
    · exact Or.inl ⟨hab, hne⟩

end Table

theorem Component.Faithful.length_entities_nodes {c : Component} {t : Table E}
    (h : c.Faithful ds t) : (t.entities c.nodes).length = c.size := by
  have hlen : c.nodes.length = c.size := by simp [nodes, size]
  rw [← hlen, Table.entities, List.filterMap_length_eq_length]
  intro i hi
  obtain ⟨x, hx, rfl⟩ := List.mem_map.mp hi
  obtain ⟨v, hv⟩ := List.mem_iff_getElem?.mp hx
  have hvert : c.vertex? v = some x := by simpa [vertex?] using hv
  obtain ⟨e, he⟩ := h.entity v (Array.getElem?_eq_some_iff.mp hvert).1
  rw [entity?, hvert] at he
  exact Option.isSome_iff_exists.mpr ⟨e, he⟩

namespace Resolution

variable {r : Resolution E}

def connected (r : Resolution E) : List (List E) :=
  r.components.map fun c => Entity.sort (r.table.entities c.nodes)

namespace Sound

/-- A list is that of a component exactly if it is all that each of its members is joined to. -/
theorem mem_connected (h : r.Sound ds) {es : List E} : es ∈ r.connected ↔
    Entity.Ascending es ∧ es ≠ [] ∧ ∀ a ∈ es, ¬ Lone ds a ∧ ∀ b, b ∈ es ↔ Joined ds a b := by
  have hmem {c : Component} {a : E} : a ∈ Entity.sort (r.table.entities c.nodes) ↔
      ∃ v, c.entity? r.table v = some a := by
    rw [(Entity.sort_perm _).mem_iff, Component.mem_entities_nodes]
  have hasc {c : Component} (hc : c ∈ r.components) :
      Entity.Ascending (Entity.sort (r.table.entities c.nodes)) :=
    Entity.ascending_sort (h.settled c hc).faithful.entities_nodes_nodup
  constructor
  · intro hes
    obtain ⟨c, hc, rfl⟩ := List.mem_map.mp hes
    have hcopy := (h.settled c hc).faithful
    refine ⟨hasc hc, ?_, ?_⟩
    · obtain ⟨e, he⟩ := hcopy.entity 0 hcopy.inhabited
      exact List.ne_nil_of_mem (hmem.mpr ⟨0, he⟩)
    · intro a ha
      obtain ⟨v, hv⟩ := hmem.mp ha
      exact ⟨hcopy.not_lone hv, fun b => by rw [hmem, h.joined_iff hc hv]⟩
  · intro hes
    obtain ⟨hes, hne, hall⟩ := hes
    obtain ⟨a, ha⟩ := List.exists_mem_of_ne_nil _ hne
    obtain ⟨hlinked, hclass⟩ := hall a ha
    have hknown : a ∈ mentions ds := (exists_joined_of_not_lone hlinked).1
    obtain ⟨c, hc, v, hv⟩ := (h.lone_or_vertex hknown).resolve_left hlinked
    refine List.mem_map.mpr ⟨c, hc, (hasc hc).eq_of_mem_iff hes fun b => ?_⟩
    rw [hmem, hclass, h.joined_iff hc hv]

theorem connected_nodup (h : r.Sound ds) : r.connected.Nodup := by
  refine List.pairwise_map.mpr (h.components_apart.imp_of_mem fun {c d} hc _ hapart heq => ?_)
  have hcopy := (h.settled c hc).faithful
  obtain ⟨e, he⟩ := hcopy.entity 0 hcopy.inhabited
  have hmem : e ∈ Entity.sort (r.table.entities d.nodes) := by
    rw [← heq, (Entity.sort_perm _).mem_iff, Component.mem_entities_nodes]
    exact ⟨0, he⟩
  rw [(Entity.sort_perm _).mem_iff, Component.mem_entities_nodes] at hmem
  obtain ⟨w, hw⟩ := hmem
  exact hapart 0 w e he hw

theorem lengths_connected (h : r.Sound ds) :
    r.connected.map List.length = r.components.map (·.size) := by
  rw [connected, List.map_map]
  refine List.map_congr_left fun c hc => ?_
  rw [Function.comp_apply, (Entity.sort_perm _).length_eq]
  exact (h.settled c hc).faithful.length_entities_nodes

theorem stats_eq (h : r.Sound ds) : r.stats =
    { nodes := r.table.names.length
      edges := r.table.arcs.length
      components := r.connected.length
      isolated := r.isolated.length
      clusters := r.clusters.length
      cohorts := r.depth
      selfLoops := r.selfLoops.length
      maxComponent := (r.connected.map List.length).foldl max 0 } := by
  have hisolated : r.isolated.length = r.partition.isolated.length := by
    rw [Resolution.isolated, Table.entities, List.filterMap_length_eq_length]
    intro i hi
    obtain ⟨e, he, _⟩ := (h.isolated i).mp hi
    exact Option.isSome_iff_exists.mpr ⟨e, he⟩
  have hclusters : r.clusters.length = (r.components.flatMap (·.clusters)).length := by
    simp [clusters, List.length_flatMap]
  rw [stats, Table.length_names, h.built.length_arcs, hisolated, hclusters, h.lengths_connected,
    connected, List.length_map]

theorem ncard_of_mem_connected (h : r.Sound ds) {es : List E} (hes : es ∈ r.connected) :
    { b | b ∈ es }.ncard = es.length :=
  ncard_eq_length (h.mem_connected.mp hes).1.nodup fun _ => Iff.rfl

theorem mem_connectedSets (h : r.Sound ds) {s : Set E} :
    s ∈ connectedSets ds ↔ ∃ es ∈ r.connected, { b | b ∈ es } = s := by
  constructor
  · intro hs
    obtain ⟨hlarge, e, he, rfl⟩ := hs
    have hlinked : ¬ Lone ds e := by
      intro hlone
      have hsingle : { b | Joined ds e b } = {e} := by
        ext b
        exact hlone.joined_iff.trans eq_comm
      rw [hsingle, Set.ncard_singleton] at hlarge
      omega
    obtain ⟨c, hc, v, hv⟩ := (h.lone_or_vertex he).resolve_left hlinked
    refine ⟨_, List.mem_map_of_mem hc, ?_⟩
    ext b
    rw [Set.mem_ofPred_eq, (Entity.sort_perm _).mem_iff, Component.mem_entities_nodes]
    exact (h.joined_iff hc hv).symm
  · intro hs
    obtain ⟨es, hes, rfl⟩ := hs
    obtain ⟨hasc, hne, hall⟩ := h.mem_connected.mp hes
    obtain ⟨a, ha⟩ := List.exists_mem_of_ne_nil _ hne
    obtain ⟨hlinked, hclass⟩ := hall a ha
    obtain ⟨hknown, d, hne, hjoin⟩ := exists_joined_of_not_lone hlinked
    refine ⟨?_, a, hknown, Set.ext hclass⟩
    exact (Set.one_lt_ncard_iff es.finite_toSet).mpr ⟨d, a, (hclass d).mpr hjoin, ha, hne⟩

theorem exists_connectedSets (h : r.Sound ds) : ∃ sets : List (Set E), sets.Nodup ∧
    (∀ s, s ∈ connectedSets ds ↔ s ∈ sets) ∧
    sets.map Set.ncard = r.components.map (·.size) := by
  refine ⟨r.connected.map fun es => { b | b ∈ es }, ?_, ?_, ?_⟩
  · refine h.connected_nodup.map_on ?_
    intro es hes es' hes' heq
    exact (h.mem_connected.mp hes).1.eq_of_mem_iff (h.mem_connected.mp hes').1 (Set.ext_iff.mp heq)
  · intro s
    rw [h.mem_connectedSets, List.mem_map]
  · rw [← h.lengths_connected, List.map_map]
    exact List.map_congr_left fun es hes => h.ncard_of_mem_connected hes

theorem length_names_eq (h : r.Sound ds) : r.table.names.length =
    r.isolated.length + (r.components.map (·.size)).sum := by
  have hperm : r.table.names.Perm
      (r.isolated ++ r.components.flatMap fun c => r.table.entities c.nodes) := by
    refine (List.perm_ext_iff_of_nodup h.built.indexed.names_nodup h.listed_nodup).mpr fun e => ?_
    rw [h.built.mem_names, List.mem_append, h.mem_isolated, List.mem_flatMap]
    simp only [Component.mem_entities_nodes]
    constructor
    · intro he
      exact (h.lone_or_vertex he).imp_left fun hlone => ⟨he, hlone⟩
    · intro he
      rcases he with he | ⟨c, hc, v, hv⟩
      · exact he.1
      · obtain ⟨_, _, hi⟩ := Option.bind_eq_some_iff.mp hv
        exact h.built.known.mp ⟨_, hi⟩
  rw [hperm.length_eq, List.length_append, List.length_flatMap]
  congr 2
  exact List.map_congr_left fun c hc => (h.settled c hc).faithful.length_entities_nodes

end Sound

theorem isGreatest_foldl_max {l : List Nat} (h : l ≠ []) :
    IsGreatest { n | n ∈ l } (l.foldl max 0) := by
  have hle : ∀ n ∈ l, n ≤ l.foldl max 0 := by
    intro n hn
    by_contra hlt
    exact Nat.lt_irrefl _ (lt_foldl_max.mpr (Or.inr ⟨n, hn, Nat.lt_of_not_le hlt⟩))
  refine ⟨?_, hle⟩
  rw [Set.mem_ofPred_eq]
  by_cases hzero : l.foldl max 0 = 0
  · obtain ⟨n, hn⟩ := List.exists_mem_of_ne_nil l h
    have hn0 : n = 0 := by
      have := hle n hn
      omega
    rwa [hzero, ← hn0]
  · have hpred : l.foldl max 0 - 1 < l.foldl max 0 := by omega
    obtain ⟨n, hn, hlt⟩ := (lt_foldl_max.mp hpred).resolve_left (by omega)
    have hmax : n = l.foldl max 0 := by
      have := hle n hn
      omega
    rwa [← hmax]

structure Counts (ds : List (E × List E)) (r : Resolution E) : Prop where
  nodes : r.stats.nodes = { e | e ∈ mentions ds }.ncard
  edges : r.stats.edges + { e | Declares ds e e }.ncard = (ds.map fun d => d.2.length).sum
  isolated : r.stats.isolated = { e | e ∈ mentions ds ∧ Lone ds e }.ncard
  total : r.stats.nodes = r.stats.isolated + (r.components.map (·.size)).sum
  sizes : ∃ sets : List (Set E), sets.Nodup ∧ (∀ s, s ∈ sets ↔ s ∈ connectedSets ds) ∧
    sets.map Set.ncard = r.components.map (·.size)
  components : r.stats.components = (connectedSets ds).ncard
  largest : (connectedSets ds = ∅ → r.stats.maxComponent = 0) ∧
    ((connectedSets ds).Nonempty →
      IsGreatest (Set.image Set.ncard (connectedSets ds)) r.stats.maxComponent)
  clusters : r.stats.clusters = r.clusters.length
  cohorts : r.stats.cohorts = r.cohorts.length
  selfLoops : r.stats.selfLoops = { e | Declares ds e e }.ncard

theorem Sound.counts (h : r.Sound ds) (hp : Plain ds) : r.Counts ds := by
  have hloops : { e | Declares ds e e }.ncard = r.selfLoops.length :=
    ncard_eq_length h.built.selfLoops_nodup fun _ => h.built.mem_selfLoops.symm
  have hnodes : { e | e ∈ mentions ds }.ncard = r.table.names.length :=
    ncard_eq_length h.built.indexed.names_nodup fun _ => h.built.mem_names.symm
  have hisolated : { e | e ∈ mentions ds ∧ Lone ds e }.ncard = r.isolated.length :=
    ncard_eq_length h.isolated_nodup fun _ => h.mem_isolated.symm
  obtain ⟨sets, hnodup, hmem, hsizes⟩ := h.exists_connectedSets
  have hmax : r.stats.maxComponent = (sets.map Set.ncard).foldl max 0 := by
    rw [hsizes]
    rfl
  constructor
  case nodes => rw [h.stats_eq, hnodes]
  case edges =>
    have hperm := (h.built.arcs_append_perm hp).length_eq
    rw [List.length_append, List.length_map, length_declared] at hperm
    rw [h.stats_eq, hloops]
    exact hperm
  case isolated => rw [h.stats_eq, hisolated]
  case total =>
    rw [h.stats_eq]
    exact h.length_names_eq
  case sizes => exact ⟨sets, hnodup, fun s => (hmem s).symm, hsizes⟩
  case components =>
    have hlen := congrArg List.length hsizes
    rw [List.length_map, List.length_map] at hlen
    rw [ncard_eq_length hnodup hmem, hlen]
    rfl
  case largest =>
    constructor
    · intro hnone
      obtain rfl : sets = [] := by
        apply List.eq_nil_iff_forall_not_mem.mpr
        intro s hs
        rw [← hmem, hnone] at hs
        exact hs
      exact hmax
    · intro hsome
      obtain ⟨s, hs⟩ := hsome
      have himage : Set.image Set.ncard (connectedSets ds) = { n | n ∈ sets.map Set.ncard } := by
        ext n
        simp only [Set.mem_image, hmem, Set.mem_ofPred_eq, List.mem_map]
      rw [himage, hmax]
      apply isGreatest_foldl_max
      exact List.ne_nil_of_mem (List.mem_map_of_mem ((hmem s).mp hs))
  case clusters => rw [h.stats_eq]
  case cohorts =>
    rw [h.stats_eq]
    simp [Resolution.cohorts, cohortEntries]
  case selfLoops => rw [h.stats_eq, hloops]

/-- Every count of a resolution is a count of the declared graph, whatever was declared. -/
theorem stats_exact {calls : List (E × List E)} {o : Options} {r : Resolution E}
    (h : (Table.ofCalls calls).resolve o = .ok r) : r.Counts (Table.taken calls) :=
  (Table.resolve_sound (Table.ofCalls_records calls) h).counts (Table.taken_plain calls)

/-- A pair that needs each other, an entity above it, one alone and one that lists itself. -/
theorem stats_exact_mixed : ∃ r,
    (Table.ofCalls [((5 : Int), []), (1, [2]), (2, [1]), (3, [1]), (4, [4])]).resolve {} = .ok r ∧
      r.Counts (Table.taken [((5 : Int), []), (1, [2]), (2, [1]), (3, [1]), (4, [4])]) := by
  obtain ⟨r, hr⟩ := Table.resolve_default
    (Table.ofCalls_records [((5 : Int), []), (1, [2]), (2, [1]), (3, [1]), (4, [4])])
  exact ⟨r, hr, stats_exact hr⟩

example : ((Table.ofCalls [((5 : Int), []), (1, [2]), (2, [1]), (3, [1]), (4, [4])]).resolve
    {}).map (·.stats) = .ok
      { nodes := 5, edges := 3, components := 1, isolated := 2
        clusters := 1, cohorts := 2, selfLoops := 1, maxComponent := 3 } := by
  cbv

end Resolution

end DepGraph
