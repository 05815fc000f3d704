import DepGraph.Proofs.Components
import DepGraph.Proofs.CycleSearch

/-!
# Detecting cycles in a built table

The search over the nodes of a built table, read as a search over the declared dependencies.
-/

namespace DepGraph.Table

open DepGraph.Cycle

variable {E : Type} [Entity E] {ds : List (E × List E)} {t : Table E}

theorem Built.descendants_lt (h : Built ds t) (i : NodeId) : ∀ j ∈ t.descendants i, j < t.size := by
  intro j hj
  obtain ⟨_, _, _, hd, _⟩ := (h.drawn.link i j).mp hj
  obtain ⟨n, hn, _⟩ := entity?_eq_some_iff.mp hd
  exact node?_lt hn

theorem findCycleNodes_some (h : Built ds t) {ids : List NodeId}
    (hf : t.findCycleNodes = some ids) : Around (fun a b => a ∈ t.descendants b) ids :=
  Search.from?_some h.descendants_lt h.drawn.irreflexive (Search.start_invariant _ _) rfl hf

theorem findCycleNodes_none (h : Built ds t) (hf : t.findCycleNodes = none) : ¬ Cyclic ds := by
  rintro ⟨e, hcyc⟩
  obtain ⟨d, hdep, _⟩ := Relation.TransGen.head'_iff.mp hcyc
  obtain ⟨i, hi⟩ := h.known.mpr hdep.1.mentioned.1
  have hlt : i < t.size := by
    obtain ⟨n, hn, _⟩ := entity?_eq_some_iff.mp hi
    exact node?_lt hn
  have hall : ∀ v < t.size, v ∈ t.roots ++ t.ids := fun v hv =>
    List.mem_append_right _ (List.mem_range.mpr hv)
  exact Search.acyclic_of_from?_none h.descendants_lt hall hf hlt ((h.drawn.cycle_iff hi).mpr hcyc)

theorem findCycleNodes_entities (h : Built ds t) {ids : List NodeId}
    (hf : t.findCycleNodes = some ids) :
    ids.map t.entity? = (t.entities ids).map some ∧ Around (DependsOn ds) (t.entities ids) := by
  have haround := findCycleNodes_some h hf
  have hnamed : ∀ i ∈ ids, ∃ e, t.entity? i = some e := by
    intro i hi
    obtain ⟨j, hj⟩ := haround.exists_next hi
    obtain ⟨_, d, _, hd, _⟩ := (h.drawn.link j i).mp hj
    exact ⟨d, hd⟩
  have hmap := map_eq_map_some hnamed
  refine ⟨hmap, haround.names hmap h.drawn.injective ?_⟩
  intro a b e d ha hb hab
  exact (h.drawn.link_iff hb ha).mp hab

theorem findCycle_isSome_iff (h : Built ds t) : t.findCycle.isSome = true ↔ Cyclic ds := by
  cases hf : t.findCycleNodes with
  | none => simp [findCycle, hf, findCycleNodes_none h hf]
  | some ids => simp [findCycle, hf, Cyclic, (findCycleNodes_entities h hf).2.transGen]

theorem findCycle_long (h : Built ds t) {c : Cycle E} (hc : t.findCycle = some c) :
    2 ≤ c.entities.length := by
  obtain ⟨ids, hids, rfl⟩ := Option.map_eq_some_iff.mp hc
  rw [(ofList_isRotated (t.entities ids)).perm.length_eq]
  exact (findCycleNodes_entities h hids).2.long

theorem findCycle_pairs (h : Built ds t) {c : Cycle E} (hc : t.findCycle = some c) :
    ∀ p ∈ c.pairs, DependsOn ds p.1 p.2 := by
  obtain ⟨ids, hids, rfl⟩ := Option.map_eq_some_iff.mp hc
  intro p hp
  exact (findCycleNodes_entities h hids).2.linked p (mem_pairs_ofList.mp hp)

/-- Detection is exact, and a cycle it returns is one: without repetition, each entity declared to
depend on the next, the closing link included, and entered at its least entity. -/
theorem findCycle_exact (h : Reached ds t) (hf : t.frozen = true) :
    (t.findCycle.isSome = true ↔ Cyclic ds) ∧
      ∀ c, t.findCycle = some c →
        2 ≤ c.entities.length ∧ c.entities.Nodup ∧
        (∀ site, (c.links site).map (fun l => (l.source, l.target)) =
            c.entities.zip (c.entities.rotate 1) ∧
          ∀ l ∈ c.links site, Declares ds l.source l.target) ∧
        (∃ a as, c.entities = a :: as ∧ ∀ b ∈ as, Entity.Below a b) ∧
        ∃ ids es, t.findCycleNodes = some ids ∧ ids.map t.entity? = es.map some ∧
          c.entities ~r es := by
  have hb := h.built hf
  refine ⟨findCycle_isSome_iff hb, ?_⟩
  intro c hc
  have hlong := findCycle_long hb hc
  have hpairs := findCycle_pairs hb hc
  obtain ⟨ids, hids, rfl⟩ := Option.map_eq_some_iff.mp hc
  obtain ⟨hmap, haround⟩ := findCycleNodes_entities hb hids
  have hrot := ofList_isRotated (t.entities ids)
  have hne : t.entities ids ≠ [] :=
    List.ne_nil_of_length_pos (Nat.lt_of_lt_of_le Nat.two_pos haround.long)
  refine ⟨hlong, hrot.nodup_iff.mpr haround.nodup, fun site => ⟨links_pairs _ site, ?_⟩,
    ofList_least hne haround.nodup, ids, t.entities ids, hids, hmap, hrot⟩
  intro l hl
  obtain ⟨p, hp, rfl⟩ := List.mem_map.mp hl
  exact (hpairs p hp).1

/-- Two entities that need each other, below a third that needs one of them. -/
theorem findCycle_exact_below : ∃ t : Table Int,
    Reached [(3, [1]), (1, [2]), (2, [1])] t ∧ t.frozen = true ∧
      ∃ c, t.findCycle = some c ∧ 2 ≤ c.entities.length ∧ c.entities.Nodup := by
  have htaken : taken [((3 : Int), [1]), (1, [2]), (2, [1])] = [(3, [1]), (1, [2]), (2, [1])] := by
    decide +kernel
  have hr := reached_ofCalls [((3 : Int), [1]), (1, [2]), (2, [1])]
  obtain ⟨t, ht⟩ := build_of_unfrozen
    (ofCalls_records [((3 : Int), [1]), (1, [2]), (2, [1])]).unfrozen
  rw [htaken] at hr
  have hbuilt := hr.build ht
  have hfrozen := (build_frozen ht).1
  have hcyc : Cyclic [((3 : Int), [1]), (1, [2]), (2, [1])] :=
    ⟨1, .head (b := 2) ⟨⟨[2], by simp, by simp⟩, by decide⟩
      (.single ⟨⟨[1], by simp, by simp⟩, by decide⟩)⟩
  obtain ⟨hiff, hcycle⟩ := findCycle_exact hbuilt hfrozen
  obtain ⟨c, hc⟩ := Option.isSome_iff_exists.mp (hiff.mpr hcyc)
  exact ⟨t, hbuilt, hfrozen, c, hc, (hcycle c hc).1, (hcycle c hc).2.1⟩

end DepGraph.Table
