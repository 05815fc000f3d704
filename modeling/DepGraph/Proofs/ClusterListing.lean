import DepGraph.Proofs.Outcomes

/-!
# The clusters of a resolution

Clusters are found component by component and among vertices; listed, they are the classes of two
or more entities that depend on each other, over the whole graph.
-/

namespace DepGraph

variable {E : Type} [Entity E] {ds : List (E × List E)}

namespace Component

variable {c : Component} {t : Table E}

theorem Settled.length_entities (h : c.Settled ds t) {k : Cluster} (hk : k ∈ c.clusters) :
    (c.entities t k.members).length = k.members.length := by
  rw [entities, List.filterMap_length_eq_length]
  intro v hv
  exact Option.isSome_iff_exists.mpr (h.faithful.class_named h.classes hk hv)

theorem Settled.apart (h : c.Settled ds t) :
    (c.clusters.map fun k => c.entities t k.members).Pairwise List.Disjoint := by
  have hclasses := List.pairwise_map.mp h.classes.apart
  refine List.pairwise_map.mpr (hclasses.imp fun {k l} hkl => List.disjoint_left.mpr ?_)
  intro e he he'
  obtain ⟨v, hv, hve⟩ := mem_entities.mp he
  obtain ⟨w, hw, hwe⟩ := mem_entities.mp he'
  obtain rfl := h.faithful.injective v w e hve hwe
  exact List.disjoint_left.mp hkl hv hw

end Component

namespace Resolution

variable {r : Resolution E}

theorem mem_clusters {ms : List E} : ms ∈ r.clusters ↔
    ∃ c ∈ r.components, ∃ k ∈ c.clusters, c.entities r.table k.members = ms := by
  simp [clusters, List.mem_mergeSort]

namespace Sound

theorem clusters_large (h : r.Sound ds) {ms : List E} (hms : ms ∈ r.clusters) :
    2 ≤ ms.length := by
  obtain ⟨c, hc, k, hk, rfl⟩ := mem_clusters.mp hms
  rw [(h.settled c hc).length_entities hk]
  exact (h.settled c hc).classes.large _ (List.mem_map_of_mem hk)

theorem clusters_ascending (h : r.Sound ds) {ms : List E} (hms : ms ∈ r.clusters) :
    Entity.Ascending ms := by
  obtain ⟨c, hc, k, hk, rfl⟩ := mem_clusters.mp hms
  exact (h.settled c hc).ascending k hk

theorem placed (h : r.Sound ds) {a b : E} (hab : DependsOn ds a b) :
    ∃ c ∈ r.components, ∃ v, c.entity? r.table v = some a := by
  rcases h.lone_or_vertex hab.1.mentioned.1 with hlone | hplace
  · exact absurd hab (hlone b).1
  · exact hplace

theorem clusters_mutual (h : r.Sound ds) {a b : E} (hne : a ≠ b) :
    (∃ ms ∈ r.clusters, a ∈ ms ∧ b ∈ ms) ↔ Mutual ds a b := by
  constructor
  · rintro ⟨ms, hms, ha, hb⟩
    obtain ⟨c, hc, k, hk, rfl⟩ := mem_clusters.mp hms
    have hset := h.settled c hc
    exact (hset.faithful.mem_class_iff hset.classes hk ha).mp hb
  · intro hmut
    obtain ⟨d, had, _⟩ := (Relation.ReflTransGen.cases_head hmut.1).resolve_left hne
    obtain ⟨c, hc, v, hv⟩ := h.placed had
    have hset := h.settled c hc
    obtain ⟨k, hk, ha⟩ := hset.faithful.exists_class hset.classes hv hne hmut
    exact ⟨_, mem_clusters.mpr ⟨c, hc, k, hk, rfl⟩, ha,
      (hset.faithful.mem_class_iff hset.classes hk ha).mpr hmut⟩

/-- A list is a cluster exactly if it is the whole class of each of its members, in order. -/
theorem mem_clusters_iff (h : r.Sound ds) {ms : List E} : ms ∈ r.clusters ↔
    Entity.Ascending ms ∧ 2 ≤ ms.length ∧ ∀ a ∈ ms, ∀ b, b ∈ ms ↔ Mutual ds a b := by
  have hclass {ns : List E} (hns : ns ∈ r.clusters) {a b : E} (ha : a ∈ ns) :
      b ∈ ns ↔ Mutual ds a b := by
    obtain ⟨c, hc, k, hk, rfl⟩ := mem_clusters.mp hns
    exact (h.settled c hc).faithful.mem_class_iff (h.settled c hc).classes hk ha
  constructor
  · intro hms
    exact ⟨h.clusters_ascending hms, h.clusters_large hms, fun a ha b => hclass hms ha⟩
  · intro hms
    obtain ⟨hasc, hlarge, hall⟩ := hms
    match ms with
    | a :: b :: rest =>
      have hab : a ≠ b := by
        intro heq
        subst heq
        exact Entity.below_irrefl a (List.rel_of_pairwise_cons hasc List.mem_cons_self)
      have hmut := (hall a List.mem_cons_self b).mp (List.mem_cons_of_mem a List.mem_cons_self)
      obtain ⟨ns, hns, ha, _⟩ := (h.clusters_mutual hab).mpr hmut
      have hsame := hasc.eq_of_mem_iff (h.clusters_ascending hns) fun e => by
        rw [hall a List.mem_cons_self, hclass hns ha]
      rw [hsame]
      exact hns
    | [] | [_] => simp at hlarge

theorem clusters_apart (h : r.Sound ds) : r.clusters.Pairwise List.Disjoint := by
  rw [clusters]
  refine ((List.mergeSort_perm _ _).pairwise_iff fun hdis => hdis.symm).mpr ?_
  refine List.pairwise_flatMap.mpr ⟨fun c hc => (h.settled c hc).apart, ?_⟩
  refine h.components_apart.imp fun {c d} hapart x hx y hy => List.disjoint_left.mpr ?_
  intro e he he'
  obtain ⟨k, _, rfl⟩ := List.mem_map.mp hx
  obtain ⟨l, _, rfl⟩ := List.mem_map.mp hy
  obtain ⟨v, _, hv⟩ := Component.mem_entities.mp he
  obtain ⟨w, _, hw⟩ := Component.mem_entities.mp he'
  exact hapart v w e hv hw

theorem clusters_ordered (h : r.Sound ds) : r.clusters.Pairwise fun xs ys =>
    ∃ x y, xs.head? = some x ∧ ys.head? = some y ∧ Entity.Below x y := by
  have hsorted : r.clusters.Pairwise fun xs ys => (compare xs ys).isLE = true :=
    Entity.pairwise_mergeSort_compare (fun ms : List E => ms) _
  refine (hsorted.and h.clusters_apart).imp_of_mem fun {xs ys} hx hy hxy => ?_
  obtain ⟨hle, hdis⟩ := hxy
  have hxs := h.clusters_large hx
  have hys := h.clusters_large hy
  cases xs with
  | nil => simp at hxs
  | cons x xs =>
    cases ys with
    | nil => simp at hys
    | cons y ys =>
      refine ⟨x, y, rfl, rfl, Entity.below_of_isLE ?_ ?_⟩
      · rw [List.compare_cons_cons] at hle
        cases hc : compare x y with
        | lt => rfl
        | eq => rfl
        | gt => simp [hc] at hle
      · rintro rfl
        exact List.disjoint_left.mp hdis List.mem_cons_self List.mem_cons_self

end Sound

/-- The lists are the strongly connected components of two or more entities, in order. -/
theorem clusters_exact {calls : List (E × List E)} {o : Options} {r : Resolution E}
    (h : (Table.ofCalls calls).resolve o = .ok r) :
    (∀ ms ∈ r.clusters, 2 ≤ ms.length) ∧
      (∀ a b, a ≠ b →
        ((∃ ms ∈ r.clusters, a ∈ ms ∧ b ∈ ms) ↔ Mutual (Table.taken calls) a b)) ∧
      r.clusters.Pairwise List.Disjoint ∧
      (∀ ms ∈ r.clusters, Entity.Ascending ms) ∧
      r.clusters.Pairwise fun xs ys =>
        ∃ x y, xs.head? = some x ∧ ys.head? = some y ∧ Entity.Below x y := by
  have hs := Table.resolve_sound (Table.ofCalls_records calls) h
  exact ⟨fun _ hms => hs.clusters_large hms, fun _ _ hne => hs.clusters_mutual hne,
    hs.clusters_apart, fun _ hms => hs.clusters_ascending hms, hs.clusters_ordered⟩

/-- Two entities that need each other, in a graph where a second declaration is refused. -/
theorem clusters_exact_pair :
    ∃ r, (Table.ofCalls [((3 : Int), [2]), (2, [1]), (2, [3]), (1, [2])]).resolve {} = .ok r ∧
      ∃ ms ∈ r.clusters, 1 ∈ ms ∧ 2 ∈ ms := by
  obtain ⟨r, hr⟩ := (Table.resolve_ok_iff (o := {})
    (Table.ofCalls_records [((3 : Int), [2]), (2, [1]), (2, [3]), (1, [2])])).mpr
    ⟨by simp [Table.SelfLoopRefused, Options.RejectsSelfLoops], by simp⟩
  have htaken : Table.taken [((3 : Int), [2]), (2, [1]), (2, [3]), (1, [2])] =
      [(3, [2]), (2, [1]), (1, [2])] := by decide +kernel
  have hmut : Mutual [((3 : Int), [2]), (2, [1]), (1, [2])] 1 2 :=
    ⟨.single ⟨⟨[2], by simp, by simp⟩, by decide⟩, .single ⟨⟨[1], by simp, by simp⟩, by decide⟩⟩
  rw [← htaken] at hmut
  exact ⟨r, hr, ((clusters_exact hr).2.1 1 2 (by decide)).mpr hmut⟩

end Resolution

end DepGraph
