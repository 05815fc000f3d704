import DepGraph.Proofs.EntityRanks
import DepGraph.Prune

/-!
# Pruning by components

Two entities share a component exactly if they are joined, and everything known stands in one
component or is isolated. So what is pruned can be said without components: the entities that
nothing public is joined to.
-/

namespace DepGraph

variable {E : Type} [Entity E] {ds : List (E × List E)} {a b e : E}

namespace Component

variable {c : Component} {t : Table E}

theorem mem_entities_nodes : e ∈ t.entities c.nodes ↔ ∃ v, c.entity? t v = some e := by
  simp only [Table.entities, nodes, List.filterMap_map, List.mem_filterMap, entity?,
    Option.bind_eq_some_iff, Function.comp_apply]
  constructor
  · intro hx
    obtain ⟨x, hx, he⟩ := hx
    obtain ⟨v, hv⟩ := List.mem_iff_getElem?.mp hx
    exact ⟨v, x, by simpa [vertex?] using hv, he⟩
  · intro hv
    obtain ⟨v, x, hx, he⟩ := hv
    exact ⟨x, List.mem_of_getElem? (by simpa [vertex?] using hx), he⟩

theorem Faithful.entities_nodes_nodup (h : c.Faithful ds t) : (t.entities c.nodes).Nodup := by
  rw [Table.entities, nodes, List.filterMap_map]
  refine List.pairwise_filterMap.mpr (List.pairwise_iff_getElem.mpr ?_)
  intro i j hi hj hij a ha b hb hab
  subst hab
  have hname {k : Nat} (hk : k < c.verts.toList.length)
      (hka : t.entity? c.verts.toList[k].node = some a) : c.entity? t k = some a := by
    rw [entity?, vertex?, ← Array.getElem?_toList, List.getElem?_eq_getElem hk]
    exact hka
  exact Nat.ne_of_lt hij (h.injective i j a (hname hi ha) (hname hj hb))

end Component

namespace Resolution

variable {r : Resolution E} {c : Component}

theorem mem_dead {publics : List E} :
    (c ∈ r.components.filter fun c => !(r.table.entities c.nodes).any (Entity.among · publics)) ↔
      c ∈ r.components ∧ ∀ d ∈ publics, d ∉ r.table.entities c.nodes := by
  rw [List.mem_filter, Bool.not_eq_true', List.any_eq_false]
  simp only [Entity.among_iff]
  refine and_congr_right fun _ => ?_
  exact ⟨fun hnone d hd hmem => hnone d hmem hd, fun hnone d hmem hd => hnone d hd hmem⟩

theorem mem_pruned {publics : List E} : e ∈ (r.prune publics).entities ↔
    (e ∈ r.isolated ∧ e ∉ publics) ∨ ∃ c ∈ r.components,
      (∀ d ∈ publics, d ∉ r.table.entities c.nodes) ∧ e ∈ r.table.entities c.nodes := by
  rw [prune, (Entity.sort_perm _).mem_iff, List.mem_append, List.mem_filter, List.mem_flatMap,
    Bool.not_eq_true', ← Bool.not_eq_true, Entity.among_iff]
  refine or_congr Iff.rfl (exists_congr fun c => ?_)
  rw [← and_assoc]
  exact and_congr_left fun _ => mem_dead

namespace Sound

theorem joined_iff (h : r.Sound ds) (hc : c ∈ r.components) {v : VertId}
    (hv : c.entity? r.table v = some a) :
    Joined ds a b ↔ ∃ w, c.entity? r.table w = some b := by
  constructor
  · intro hab
    induction hab with
    | refl => exact ⟨v, hv⟩
    | tail _ hstep ih =>
      obtain ⟨w, hw⟩ := ih
      exact (h.settled c hc).faithful.closed w _ _ hw hstep
  · intro hw
    obtain ⟨w, hw⟩ := hw
    exact h.joined c hc v w a b hv hw

theorem listed_nodup (h : r.Sound ds) :
    (r.isolated ++ r.components.flatMap fun c => r.table.entities c.nodes).Nodup := by
  refine List.nodup_append.mpr ⟨h.isolated_nodup, List.nodup_flatMap.mpr ⟨?_, ?_⟩, ?_⟩
  · exact fun c hc => (h.settled c hc).faithful.entities_nodes_nodup
  · refine h.components_apart.imp fun hapart => List.disjoint_left.mpr fun e he he' => ?_
    obtain ⟨v, hv⟩ := Component.mem_entities_nodes.mp he
    obtain ⟨w, hw⟩ := Component.mem_entities_nodes.mp he'
    exact hapart v w e hv hw
  · intro e he d hd hed
    subst hed
    obtain ⟨c, hc, hmem⟩ := List.mem_flatMap.mp hd
    obtain ⟨v, hv⟩ := Component.mem_entities_nodes.mp hmem
    exact (h.settled c hc).faithful.not_lone hv (h.mem_isolated.mp he).2

theorem prune_ascending (h : r.Sound ds) (publics : List E) :
    Entity.Ascending (r.prune publics).entities := by
  apply Entity.ascending_sort
  refine h.listed_nodup.sublist (List.Sublist.append List.filter_sublist ?_)
  exact List.filter_sublist.flatMap _

theorem mem_prune (h : r.Sound ds) {publics : List E} : e ∈ (r.prune publics).entities ↔
    e ∈ mentions ds ∧ ∀ p ∈ publics, ¬ Joined ds e p := by
  rw [mem_pruned]
  constructor
  · intro he
    rcases he with ⟨he, hout⟩ | ⟨c, hc, hdead, he⟩
    · obtain ⟨hknown, hlone⟩ := h.mem_isolated.mp he
      refine ⟨hknown, fun p hp hjoin => ?_⟩
      rw [hlone.joined_iff] at hjoin
      exact hout (hjoin ▸ hp)
    · obtain ⟨v, hv⟩ := Component.mem_entities_nodes.mp he
      obtain ⟨_, _, hi⟩ := Option.bind_eq_some_iff.mp hv
      refine ⟨h.built.known.mp ⟨_, hi⟩, fun p hp hjoin => ?_⟩
      exact hdead p hp (Component.mem_entities_nodes.mpr ((h.joined_iff hc hv).mp hjoin))
  · intro he
    obtain ⟨hknown, hout⟩ := he
    rcases h.lone_or_vertex hknown with hlone | ⟨c, hc, v, hv⟩
    · exact Or.inl ⟨h.mem_isolated.mpr ⟨hknown, hlone⟩, fun hp => hout e hp .refl⟩
    · refine Or.inr ⟨c, hc, fun p hp hmem => ?_, Component.mem_entities_nodes.mpr ⟨v, hv⟩⟩
      exact hout p hp ((h.joined_iff hc hv).mpr (Component.mem_entities_nodes.mp hmem))

end Sound

end Resolution

end DepGraph
