import DepGraph.Proofs.Resolving

/-!
# The two detectors of cycles agree

One search walks the nodes of the whole table and stops at the first cycle, the other walks each
component and collects its clusters. Both see exactly the entities that need each other, so one
comes back empty-handed exactly if the other does, and a cycle lies inside a single cluster.
-/

namespace DepGraph.Table

variable {E : Type} [Entity E] {ds : List (E × List E)} {t : Table E}

theorem split_holds (h : Built ds t) {a b : E} (hab : DependsOn ds a b) :
    ∃ c ∈ t.split.1.components, ∃ v, c.entity? t.split.2 v = some a := by
  obtain ⟨i, hi⟩ := h.known.mpr hab.1.mentioned.1
  have hlinked : t.adjacency i ≠ [] := by
    intro hadj
    exact ((h.unlinked_iff hi).mp hadj b).1 hab
  obtain ⟨k, v, c, x, hc, hx, rfl⟩ := (exists_standsFor_iff h).mpr hlinked
  refine ⟨c, List.mem_of_getElem? hc, v, ?_⟩
  rw [Component.entity?, hx, Option.bind_some, split_entity? h.frozen]
  exact hi

theorem find_eq_nil_of_acyclic (h : Built ds t) (hacyclic : ¬ Cyclic ds) (f : Cluster.Finder)
    {c : Component} (hc : c ∈ t.split.1.components) : (f.find c t.split.2).1 = [] := by
  obtain ⟨hcopy, _⟩ := split_ready h hc
  have hclasses := (Cluster.find_classes f hcopy).1
  apply List.eq_nil_iff_forall_not_mem.mpr
  intro k hk
  obtain ⟨a, b, hne, ha, hb⟩ := hcopy.class_pair hclasses hk
  exact hacyclic (cyclic_iff.mpr ⟨a, b, hne, (hcopy.mem_class_iff hclasses hk ha).mp hb⟩)

theorem exists_cluster_of_mutual (h : Built ds t) (finder : Component → Cluster.Finder) {a b : E}
    (hne : a ≠ b) (hmut : Mutual ds a b) :
    ∃ c ∈ t.split.1.components, ∃ k ∈ ((finder c).find c t.split.2).1,
      ∀ e, e ∈ c.entities t.split.2 k.members ↔ Mutual ds a e := by
  obtain ⟨d, had, _⟩ := (Relation.ReflTransGen.cases_head hmut.1).resolve_left hne
  obtain ⟨c, hc, v, hv⟩ := split_holds h had
  obtain ⟨hcopy, _⟩ := split_ready h hc
  have hclasses := (Cluster.find_classes (finder c) hcopy).1
  obtain ⟨k, hk, ha⟩ := hcopy.exists_class hclasses hv hne hmut
  exact ⟨c, hc, k, hk, fun e => hcopy.mem_class_iff hclasses hk ha⟩

theorem findCycle_entities (h : Built ds t) {cycle : Cycle E} (hf : t.findCycle = some cycle) :
    ∃ a b, a ≠ b ∧ a ∈ cycle.entities ∧ b ∈ cycle.entities ∧
      ∀ e ∈ cycle.entities, Mutual ds a e := by
  obtain ⟨ids, hids, rfl⟩ := Option.map_eq_some_iff.mp hf
  have haround := (findCycleNodes_entities h hids).2
  have hmem (e : E) : e ∈ (Cycle.ofList (t.entities ids)).entities ↔ e ∈ t.entities ids :=
    (Cycle.ofList_isRotated _).perm.mem_iff
  simp only [hmem]
  match hes : t.entities ids with
  | a :: b :: rest =>
    rw [hes] at haround
    have hne : a ≠ b := by
      rintro rfl
      exact (List.nodup_cons.mp haround.nodup).1 List.mem_cons_self
    refine ⟨a, b, hne, List.mem_cons_self, List.mem_cons_of_mem _ List.mem_cons_self, ?_⟩
    intro e he
    exact ⟨(haround.leads List.mem_cons_self he).to_reflTransGen,
      (haround.leads he List.mem_cons_self).to_reflTransGen⟩
  | [] | [_] =>
    have hlong := haround.long
    simp [hes] at hlong

theorem findCycle_in_cluster (h : Built ds t) (finder : Component → Cluster.Finder)
    {cycle : Cycle E} (hf : t.findCycle = some cycle) :
    ∃ c ∈ t.split.1.components, ∃ k ∈ ((finder c).find c t.split.2).1,
      ∀ e ∈ cycle.entities, e ∈ c.entities t.split.2 k.members := by
  obtain ⟨a, b, hne, _, hb, hall⟩ := findCycle_entities h hf
  obtain ⟨c, hc, k, hk, hclass⟩ := exists_cluster_of_mutual h finder hne (hall b hb)
  exact ⟨c, hc, k, hk, fun e he => (hclass e).mpr (hall e he)⟩

/-- The search for one cycle and the search for clusters agree: there is no cycle to report exactly
if no component has a cluster, and the entities of a reported cycle all lie in one cluster. The
finder may be in a different state for each component. -/
theorem detectors_agree (h : Reached ds t) (hf : t.frozen = true)
    (finder : Component → Cluster.Finder) :
    (t.findCycle = none ↔
      ∀ c ∈ t.split.1.components, ((finder c).find c t.split.2).1 = []) ∧
    ∀ cycle, t.findCycle = some cycle →
      ∃ c ∈ t.split.1.components, ∃ k ∈ ((finder c).find c t.split.2).1,
        ∀ e ∈ cycle.entities, e ∈ c.entities t.split.2 k.members := by
  have hb := h.built hf
  refine ⟨⟨?_, ?_⟩, fun cycle hcycle => findCycle_in_cluster hb finder hcycle⟩
  · intro hnone c hc
    have hacyclic : ¬ Cyclic ds := by
      rw [← findCycle_isSome_iff hb, hnone]
      exact Bool.false_ne_true
    exact find_eq_nil_of_acyclic hb hacyclic (finder c) hc
  · intro hempty
    cases hcycle : t.findCycle with
    | none => rfl
    | some cycle =>
      obtain ⟨c, hc, k, hk, _⟩ := findCycle_in_cluster hb finder hcycle
      rw [hempty c hc] at hk
      cases hk

/-- Two entities that need each other, with one above them. -/
theorem detectors_agree_below : ∃ t : Table Int,
    Reached [(3, [1]), (1, [2]), (2, [1])] t ∧ t.frozen = true ∧ ∃ cycle,
      t.findCycle = some cycle ∧ ∃ c ∈ t.split.1.components,
        ∃ k ∈ (({} : Cluster.Finder).find c t.split.2).1,
          ∀ e ∈ cycle.entities, e ∈ c.entities t.split.2 k.members := by
  have htaken : taken [((3 : Int), [1]), (1, [2]), (2, [1])] = [(3, [1]), (1, [2]), (2, [1])] :=
    taken_eq (by decide) (by decide)
  have hr := reached_ofCalls [((3 : Int), [1]), (1, [2]), (2, [1])]
  obtain ⟨t, ht⟩ := build_of_unfrozen
    (ofCalls_records [((3 : Int), [1]), (1, [2]), (2, [1])]).unfrozen
  rw [htaken] at hr
  have hbuilt := hr.build ht
  have hfrozen := (build_frozen ht).1
  have hcyc : Cyclic [((3 : Int), [1]), (1, [2]), (2, [1])] :=
    ⟨1, .head (b := 2) ⟨⟨[2], by simp, by simp⟩, by decide⟩
      (.single ⟨⟨[1], by simp, by simp⟩, by decide⟩)⟩
  obtain ⟨cycle, hcycle⟩ := Option.isSome_iff_exists.mp
    ((findCycle_isSome_iff (hbuilt.built hfrozen)).mpr hcyc)
  exact ⟨t, hbuilt, hfrozen, cycle, hcycle,
    (detectors_agree hbuilt hfrozen fun _ => {}).2 cycle hcycle⟩

end DepGraph.Table
