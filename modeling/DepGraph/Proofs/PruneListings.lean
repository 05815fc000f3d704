import DepGraph.Proofs.Bookkeeping
import DepGraph.Proofs.Reachability

/-!
# What the prunings list

Both prunings list known entities in order, each once, and which ones can be said of the
declarations alone. The walk of a pruning by reach follows lists that still hold self references
until the table is built and have lost them afterwards; they lead nowhere new, so it comes to the
same.
-/

namespace DepGraph

section Declared

variable {E : Type} {ds : List (E × List E)} {a b : E}

theorem reflTransGen_eq_of_stay {r s : E → E → Prop} (hsub : ∀ a b, s a b → r a b)
    (hstay : ∀ a b, r a b → a = b ∨ s a b) :
    Relation.ReflTransGen r = Relation.ReflTransGen s := by
  apply le_antisymm
  · apply Relation.reflTransGen_closed
    intro a b hab
    rcases hstay a b hab with heq | hs
    · rw [heq]
    · exact .single hs
  · exact Relation.ReflTransGen.mono hsub

theorem declares_cases (h : Declares ds a b) : a = b ∨ DependsOn ds a b := by
  by_cases hab : a = b
  · exact Or.inl hab
  · exact Or.inr ⟨h, Ne.symm hab⟩

/-- Self references add nothing to what an entity reaches. -/
theorem reflTransGen_declares (ds : List (E × List E)) :
    Relation.ReflTransGen (Declares ds) = Reaches ds :=
  reflTransGen_eq_of_stay (fun _ _ hdep => hdep.1) fun _ _ => declares_cases

theorem reflTransGen_declares_or (ds : List (E × List E)) :
    Relation.ReflTransGen (fun a b => Declares ds a b ∨ Declares ds b a) = Joined ds := by
  apply reflTransGen_eq_of_stay
  · intro a b hab
    exact hab.imp (·.1) (·.1)
  · intro a b hab
    rcases hab with hab | hba
    · exact (declares_cases hab).imp_right Or.inl
    · rcases declares_cases hba with heq | hdep
      · exact Or.inl heq.symm
      · exact Or.inr (Or.inr hdep)

theorem joined_comm : Joined ds a b ↔ Joined ds b a := by
  have : Std.Symm fun a b => DependsOn ds a b ∨ DependsOn ds b a := ⟨fun _ _ => Or.symm⟩
  exact Std.Symm.iff (r := Relation.ReflTransGen _) a b

theorem mentioned_of_reaches (hb : b ∈ mentions ds)
    (h : Relation.ReflTransGen (Declares ds) a b) : a ∈ mentions ds := by
  rcases Relation.ReflTransGen.cases_head h with heq | ⟨c, hdec, _⟩
  · rw [heq]
    exact hb
  · exact hdec.mentioned.1

end Declared

variable {E : Type} [Entity E] {ds : List (E × List E)}

theorem Prunable.contains_iff {p : Prunable E} (h : Entity.Ascending p.entities) {e : E} :
    p.contains e = true ↔ e ∈ p.entities :=
  Entity.seek_iff h

namespace Table

variable {t : Table E} {roots : List E} {p p' : Prunable E}

theorem Records.known (h : Records ds t) {e : E} :
    (∃ i, t.entity? i = some e) ↔ e ∈ mentions ds := by
  rw [← h.mem_names, mem_names_iff h.indexed]
  exact exists_congr fun i => (h.indexed e i).symm

theorem Records.lists (h : Records ds t) : Lists (Declares ds) t where
  indexed := h.indexed
  link i j := by
    rw [mem_ancestors]
    constructor
    · intro hj
      obtain ⟨n, hn, hj⟩ := hj
      obtain ⟨d, hd, hdec⟩ := ((h.node i n hn).ancestors j).mp hj
      exact ⟨n.entity, d, entity?_eq_some_iff.mpr ⟨n, hn, rfl⟩, hd, hdec⟩
    · intro hj
      obtain ⟨e, d, he, hd, hdec⟩ := hj
      obtain ⟨n, hn, rfl⟩ := entity?_eq_some_iff.mp he
      exact ⟨n, hn, ((h.node i n hn).ancestors j).mpr ⟨d, hd, hdec⟩⟩
  known _ _ hdec := ⟨h.known.mpr hdec.mentioned.1, h.known.mpr hdec.mentioned.2⟩

theorem pruneUnreachable_ascending (h : Indexed t) (roots : List E) :
    Entity.Ascending (t.pruneUnreachable roots).entities := by
  apply Entity.ascending_sort
  apply (List.nodup_range.filter _).filterMap
  intro i j e hi hj
  exact h.injective hi hj

theorem Reached.mem_pruneUnreachable (h : Reached ds t) {e : E} :
    e ∈ (t.pruneUnreachable roots).entities ↔
      e ∈ mentions ds ∧ ∀ a ∈ roots, ¬ Relation.ReflTransGen (Declares ds) a e := by
  rcases h.state with hr | hb
  · rw [hr.lists.mem_pruneUnreachable, hr.known]
  · rw [hb.lists.mem_pruneUnreachable, hb.known, reflTransGen_declares]
    rfl

/-- The prunable entities are those known that no known root reaches, in order. -/
structure ListsUnreached (ds : List (E × List E)) (roots : List E) (p : Prunable E) : Prop where
  ascending : Entity.Ascending p.entities
  unreached : ∀ e, e ∈ p.entities ↔ e ∈ mentions ds ∧
    ∀ a ∈ roots, a ∈ mentions ds → ¬ Relation.ReflTransGen (Declares ds) a e
  components : p.components = []
  contains : ∀ e, p.contains e = true ↔ e ∈ p.entities

theorem ListsUnreached.unique (h : ListsUnreached ds roots p) (h' : ListsUnreached ds roots p') :
    p = p' := by
  have hentities : p.entities = p'.entities := by
    apply h.ascending.eq_of_mem_iff h'.ascending
    intro e
    rw [h.unreached, h'.unreached]
  cases p
  cases p'
  congr
  exact h.components.trans h'.components.symm

theorem ListsUnreached.congr {more : List E} (h : ListsUnreached ds roots p)
    (hsame : ∀ e ∈ mentions ds, e ∈ more ↔ e ∈ roots) : ListsUnreached ds more p where
  ascending := h.ascending
  unreached e := by
    rw [h.unreached]
    refine and_congr_right fun _ => ?_
    constructor
    · intro hout a ha hknown
      exact hout a ((hsame a hknown).mp ha) hknown
    · intro hout a ha hknown
      exact hout a ((hsame a hknown).mpr ha) hknown
  components := h.components
  contains := h.contains

theorem Reached.listsUnreached (h : Reached ds t) (roots : List E) :
    ListsUnreached ds roots (t.pruneUnreachable roots) := by
  have hasc : Entity.Ascending (t.pruneUnreachable roots).entities := by
    apply pruneUnreachable_ascending
    exact h.state.elim (·.indexed) (·.indexed)
  refine ⟨hasc, fun e => ?_, rfl, fun e => Prunable.contains_iff hasc⟩
  rw [h.mem_pruneUnreachable]
  refine and_congr_right fun he => ?_
  constructor
  · intro hout a ha _
    exact hout a ha
  · intro hout a ha hreach
    exact hout a ha (mentioned_of_reaches he hreach) hreach

/-- A pruning by reach lists the known entities that no known root reaches, in order and without
components; it is the same before the build and after it, whatever the order and repetition of
the roots, and whatever else is among them that is not known. -/
theorem pruneUnreachable_exact (h : Reached ds t) (roots : List E) :
    ListsUnreached ds roots (t.pruneUnreachable roots) ∧
    (∀ t', t.build = (.ok (), t') → t'.pruneUnreachable roots = t.pruneUnreachable roots) ∧
    ∀ more, (∀ e ∈ mentions ds, e ∈ more ↔ e ∈ roots) →
      t.pruneUnreachable more = t.pruneUnreachable roots := by
  have hlists := h.listsUnreached roots
  refine ⟨hlists, ?_, ?_⟩
  · intro t' hb
    exact ((h.build hb).listsUnreached roots).unique hlists
  · intro more hsame
    exact (h.listsUnreached more).unique (hlists.congr hsame)

/-- A self reference, a cycle it leads to, an entity above, and roots that overlap; one of them is
not known. -/
theorem pruneUnreachable_exact_overlap : ∃ t t' : Table Int,
    Reached [(1, [1, 2]), (2, [3]), (3, [2]), (4, [2]), (5, [])] t ∧ t.build = (.ok (), t') ∧
    ListsUnreached [(1, [1, 2]), (2, [3]), (3, [2]), (4, [2]), (5, [])] [1, 9, 2, 1]
      (t.pruneUnreachable [1, 9, 2, 1]) ∧
    t'.pruneUnreachable [1, 9, 2, 1] = t.pruneUnreachable [1, 9, 2, 1] ∧
    t.pruneUnreachable [2, 1] = t.pruneUnreachable [1, 9, 2, 1] := by
  have htaken : taken [((1 : Int), [1, 2]), (2, [3]), (3, [2]), (4, [2]), (5, [])] =
      [(1, [1, 2]), (2, [3]), (3, [2]), (4, [2]), (5, [])] := taken_eq (by decide) (by decide)
  have hreached := reached_ofCalls [((1 : Int), [1, 2]), (2, [3]), (3, [2]), (4, [2]), (5, [])]
  obtain ⟨t', hb⟩ := build_of_unfrozen
    (ofCalls_records [((1 : Int), [1, 2]), (2, [3]), (3, [2]), (4, [2]), (5, [])]).unfrozen
  rw [htaken] at hreached
  obtain ⟨hlists, hbuilt, hroots⟩ := pruneUnreachable_exact hreached [1, 9, 2, 1]
  exact ⟨_, t', hreached, hb, hlists, hbuilt t' hb, hroots [2, 1] (by decide)⟩

end Table

namespace Resolution

variable {r : Resolution E} {publics : List E}

/-- The entities that go are those known that nothing public is connected to, in order, and the
components that go are those without a public member. -/
structure ListsUnjoined (ds : List (E × List E)) (r : Resolution E) (publics : List E) : Prop where
  ascending : Entity.Ascending (r.prune publics).entities
  unjoined : ∀ e, e ∈ (r.prune publics).entities ↔ e ∈ mentions ds ∧ ∀ p ∈ publics,
    ¬ Relation.ReflTransGen (fun a b => Declares ds a b ∨ Declares ds b a) p e
  componentsAscending : (r.prune publics).components.Pairwise (· < ·)
  components : ∀ k, k ∈ (r.prune publics).components ↔ ∃ c, r.partition.component? k = some c ∧
    c.id = k ∧ ∀ v e, c.entity? r.table v = some e → e ∉ publics
  contains : ∀ e, (r.prune publics).contains e = true ↔ e ∈ (r.prune publics).entities

theorem ids_ascending {t : Table E} {o : Options} (h : t.resolve o = .ok r) :
    (r.components.map (·.id)).Pairwise (· < ·) := by
  apply List.pairwise_map.mpr
  apply List.pairwise_iff_getElem.mpr
  intro i j hi hj hij
  rw [component_id h (List.getElem?_eq_getElem hi), component_id h (List.getElem?_eq_getElem hj)]
  exact hij

theorem mem_prunedComponents {t : Table E} {o : Options} (h : t.resolve o = .ok r) {k : CompId} :
    k ∈ (r.prune publics).components ↔ ∃ c, r.partition.component? k = some c ∧ c.id = k ∧
      ∀ v e, c.entity? r.table v = some e → e ∉ publics := by
  rw [prune, List.mem_map]
  constructor
  · intro hk
    obtain ⟨c, hc, hid⟩ := hk
    obtain ⟨hc, hdead⟩ := mem_dead.mp hc
    obtain ⟨j, hj⟩ := List.mem_iff_getElem?.mp hc
    refine ⟨c, ?_, hid, ?_⟩
    · rw [← hid, component_id h hj]
      exact hj
    · intro v e hv he
      exact hdead e he (Component.mem_entities_nodes.mpr ⟨v, hv⟩)
  · intro hk
    obtain ⟨c, hc, hid, hclear⟩ := hk
    refine ⟨c, mem_dead.mpr ⟨List.mem_of_getElem? hc, ?_⟩, hid⟩
    intro p hp hmem
    obtain ⟨v, hv⟩ := Component.mem_entities_nodes.mp hmem
    exact hclear v p hv hp

/-- Of any resolution, whatever is public in it, known or not: what goes is listed in order, by
entities and by components. -/
theorem prune_exact {calls : List (E × List E)} {o : Options}
    (h : (Table.ofCalls calls).resolve o = .ok r) (publics : List E) :
    ListsUnjoined (Table.taken calls) r publics := by
  have hsound := Table.resolve_sound (Table.ofCalls_records calls) h
  have hasc := hsound.prune_ascending publics
  constructor
  case ascending => exact hasc
  case unjoined =>
    intro e
    rw [hsound.mem_prune, reflTransGen_declares_or]
    exact and_congr_right fun _ => forall₂_congr fun p _ => not_congr joined_comm
  case componentsAscending =>
    exact (ids_ascending h).sublist (List.filter_sublist.map _)
  case components => exact fun k => mem_prunedComponents h
  case contains => exact fun e => Prunable.contains_iff hasc

/-- Of two components one has a public member, an entity that depends on itself alone stands by
itself, and the other public name is not known. -/
theorem prune_exact_apart : ∃ r,
    (Table.ofCalls [((1 : Int), [2]), (3, [2]), (4, [5]), (5, [4]), (6, [6])]).resolve {} = .ok r ∧
      ListsUnjoined [((1 : Int), [2]), (3, [2]), (4, [5]), (5, [4]), (6, [6])] r [3, 9] := by
  obtain ⟨r, hr⟩ := Table.resolve_default
    (Table.ofCalls_records [((1 : Int), [2]), (3, [2]), (4, [5]), (5, [4]), (6, [6])])
  refine ⟨r, hr, ?_⟩
  have hlists := prune_exact hr [3, 9]
  rwa [Table.taken_eq (by decide) (by decide)] at hlists

end Resolution

end DepGraph
