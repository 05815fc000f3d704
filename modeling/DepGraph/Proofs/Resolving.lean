import DepGraph.Proofs.Clusters
import DepGraph.Proofs.Connectivity
import DepGraph.Proofs.CycleDetection
import DepGraph.Resolution.Queries

/-!
# Resolving a graph

Once a table is built nothing inside can go wrong any more: every component is settled, so the
only refusals are those that the options ask for. What comes out knows where each entity went.
-/

namespace DepGraph

variable {E : Type} [Entity E] {ds : List (E × List E)} {t t' : Table E}

namespace Table

theorem toComponent_fresh (t : Table E) (remap : Array (Option VertId)) (k : CompId)
    (members : List NodeId) : (t.toComponent remap k members).Fresh := by
  intro v vert hv
  rw [toComponent_vertex?] at hv
  obtain ⟨i, _, rfl⟩ := Option.map_eq_some_iff.mp hv
  exact ⟨rfl, rfl⟩

theorem split_ready (h : Built ds t) {c : Component} (hc : c ∈ t.split.1.components) :
    c.Faithful ds t.split.2 ∧ c.Fresh := by
  obtain ⟨k, hk⟩ := List.mem_iff_getElem?.mp hc
  rw [split_component? h] at hk
  obtain ⟨members, hmembers, rfl⟩ := Option.map_eq_some_iff.mp hk
  exact ⟨(Component.SameGraph.refl _).faithful (split_entity? h.frozen)
    (toComponent_faithful h hmembers), toComponent_fresh _ _ _ _⟩

theorem split_blank (h : Built ds t) {c : Component} (hc : c ∈ t.split.1.components) :
    c.clusters = [] ∧ c.cohorts = [] := by
  obtain ⟨k, hk⟩ := List.mem_iff_getElem?.mp hc
  rw [split_component? h] at hk
  obtain ⟨members, _, rfl⟩ := Option.map_eq_some_iff.mp hk
  exact ⟨rfl, rfl⟩

theorem build_component (hr : Records ds t) (h : t.build = (.ok (), t')) {i : NodeId} {n : Node E}
    (hn : t'.node? i = some n) : n.component = none := by
  rw [build_node? h] at hn
  obtain ⟨m, hm, rfl⟩ := Option.map_eq_some_iff.mp hn
  have hblank := (hr.node i m hm).blank
  rw [hblank]
  rfl

theorem Built.unlinked_iff (h : Built ds t) {i : NodeId} {e : E} (hi : t.entity? i = some e) :
    t.adjacency i = [] ↔ Lone ds e := by
  rw [List.eq_nil_iff_forall_not_mem]
  constructor
  · intro hnone d
    rw [← not_or]
    intro hdep
    obtain ⟨j, hj⟩ := h.known.mpr (hdep.elim (·.1.mentioned.2) (·.1.mentioned.1))
    exact hnone j (h.mem_adjacency_iff.mpr ⟨e, d, hi, hj, hdep⟩)
  · intro hlone j hj
    obtain ⟨a, d, ha, _, hdep⟩ := h.mem_adjacency_iff.mp hj
    obtain rfl := Option.some.inj (hi.symm.trans ha)
    exact hdep.elim (hlone d).1 (hlone d).2

end Table

namespace Resolution

open Component

/-- Settling never fails, and leaves each component with its entities in its place. -/
theorem settle_ok (f : Cluster.Finder) (r : Cohort.Ranker) {cs : List Component}
    (h : ∀ c ∈ cs, c.Faithful ds t ∧ c.Fresh) :
    ∃ cs', settle t f r cs = .ok cs' ∧ (∀ c ∈ cs', c.Settled ds t) ∧
      cs'.map (·.entity? t) = cs.map (·.entity? t) := by
  induction cs generalizing f r with
  | nil => exact ⟨[], rfl, by simp, rfl⟩
  | cons c cs ih =>
    obtain ⟨hfaithful, hfresh⟩ := h c List.mem_cons_self
    obtain ⟨c', r', hok, hsame, hsettled⟩ := rank_settled f r hfaithful hfresh
    obtain ⟨cs', hrest, hall, hnames⟩ :=
      ih (f.find c t).2 r' fun d hd => h d (List.mem_cons_of_mem _ hd)
    refine ⟨c' :: cs', ?_, List.forall_mem_cons.mpr ⟨hsettled, hall⟩, ?_⟩
    · simp only [settle]
      rw [hok]
      simp only [hrest]
    · rw [List.map_cons, List.map_cons, hnames, funext (hsame.entity? t)]

/-- Everything a resolution says: components that are settled, and for each node where it went. -/
structure Sound (ds : List (E × List E)) (r : Resolution E) : Prop where
  built : Table.Built ds r.table
  settled : ∀ c ∈ r.components, c.Settled ds r.table
  place : ∀ i n, r.table.node? i = some n →
    (n.component = none ∧ Lone ds n.entity) ∨
    ∃ k c v, n.component = some k ∧ r.partition.component? k = some c ∧
      r.partition.vertOf? i = some v ∧ c.entity? r.table v = some n.entity
  apart : ∀ k l c d v w e, r.partition.component? k = some c → r.partition.component? l = some d →
    c.entity? r.table v = some e → d.entity? r.table w = some e → k = l
  joined : ∀ c ∈ r.components, ∀ v w a b, c.entity? r.table v = some a →
    c.entity? r.table w = some b → Joined ds a b
  isolated : ∀ i, i ∈ r.partition.isolated ↔ ∃ e, r.table.entity? i = some e ∧ Lone ds e
  isolatedNodup : r.partition.isolated.Nodup

namespace Sound

variable {r : Resolution E} {e : E}

theorem lone_or_vertex (h : r.Sound ds) (he : e ∈ mentions ds) :
    Lone ds e ∨ ∃ c ∈ r.components, ∃ v, c.entity? r.table v = some e := by
  obtain ⟨i, hi⟩ := h.built.known.mpr he
  obtain ⟨n, hn, rfl⟩ := Table.entity?_eq_some_iff.mp hi
  rcases h.place i n hn with ⟨_, hlone⟩ | ⟨k, c, v, _, hc, _, hv⟩
  · exact Or.inl hlone
  · exact Or.inr ⟨c, List.mem_of_getElem? hc, v, hv⟩

theorem mem_isolated (h : r.Sound ds) : e ∈ r.isolated ↔ e ∈ mentions ds ∧ Lone ds e := by
  rw [Resolution.isolated, Table.entities, List.mem_filterMap, ← h.built.known]
  constructor
  · intro hmem
    obtain ⟨i, hi, he⟩ := hmem
    obtain ⟨d, hd, hlone⟩ := (h.isolated i).mp hi
    obtain rfl := Option.some.inj (he.symm.trans hd)
    exact ⟨⟨i, he⟩, hlone⟩
  · intro hmem
    obtain ⟨⟨i, hi⟩, hlone⟩ := hmem
    exact ⟨i, (h.isolated i).mpr ⟨e, hi, hlone⟩, hi⟩

theorem isolated_nodup (h : r.Sound ds) : r.isolated.Nodup :=
  h.isolatedNodup.filterMap fun _ _ _ hi hj => h.built.indexed.injective hi hj

theorem components_apart (h : r.Sound ds) : r.components.Pairwise fun c d =>
    ∀ v w e, c.entity? r.table v = some e → ¬ d.entity? r.table w = some e := by
  rw [List.pairwise_iff_getElem]
  intro i j hi hj hij v w e hv hw
  exact Nat.ne_of_lt hij
    (h.apart i j _ _ v w e (List.getElem?_eq_getElem hi) (List.getElem?_eq_getElem hj) hv hw)

end Sound

section Settled

variable {cs : List Component}

theorem settled_names (h : Table.Built ds t)
    (hcs : cs.map (·.entity? t.split.2) = t.split.1.components.map (·.entity? t.split.2))
    (k : CompId) : (cs[k]?).map (·.entity? t.split.2) =
      (t.parts[k]?).map fun members v => (members[v]?).bind t.entity? := by
  rw [← List.getElem?_map, hcs, List.getElem?_map, Table.split_component? h, Option.map_map]
  congr 1
  funext members v
  rw [Function.comp_apply, Table.toComponent_entity?, funext (Table.split_entity? h.frozen)]

theorem settled_of_part (h : Table.Built ds t)
    (hcs : cs.map (·.entity? t.split.2) = t.split.1.components.map (·.entity? t.split.2))
    {k : CompId} {members : List NodeId} (hk : t.parts[k]? = some members) :
    ∃ c, cs[k]? = some c ∧ ∀ v, c.entity? t.split.2 v = (members[v]?).bind t.entity? := by
  have hname := settled_names h hcs k
  rw [hk] at hname
  obtain ⟨c, hc, hv⟩ := Option.map_eq_some_iff.mp hname
  exact ⟨c, hc, congrFun hv⟩

theorem part_of_settled (h : Table.Built ds t)
    (hcs : cs.map (·.entity? t.split.2) = t.split.1.components.map (·.entity? t.split.2))
    {k : CompId} {c : Component} (hk : cs[k]? = some c) : ∃ members, t.parts[k]? = some members ∧
      ∀ v, c.entity? t.split.2 v = (members[v]?).bind t.entity? := by
  have hname := settled_names h hcs k
  rw [hk] at hname
  obtain ⟨members, hmembers, hv⟩ := Option.map_eq_some_iff.mp hname.symm
  exact ⟨members, hmembers, congrFun hv.symm⟩

theorem sound_of_settled (o : Options) (h : Table.Built ds t)
    (hfresh : ∀ i n, t.node? i = some n → n.component = none)
    (hsettled : ∀ c ∈ cs, c.Settled ds t.split.2)
    (hcs : cs.map (·.entity? t.split.2) = t.split.1.components.map (·.entity? t.split.2)) :
    Sound ds ⟨t.split.2, { t.split.1 with components := cs }, o⟩ where
  built := Table.split_built h
  settled := hsettled
  place i n hn := by
    have hnode : (t.markSplit t.parts).node? i = some n := by
      rw [Table.split_of_frozen h.frozen] at hn
      exact hn
    by_cases hi : i ∈ t.parts.flatten
    · right
      obtain ⟨members, hmem, him⟩ := List.mem_flatten.mp hi
      obtain ⟨k, hk⟩ := List.mem_iff_getElem?.mp hmem
      obtain ⟨v, hv⟩ := List.mem_iff_getElem?.mp him
      obtain ⟨c, hc, hname⟩ := settled_of_part h hcs hk
      rw [Table.markSplit_placed (Table.parts_grouped h).nodup hk him] at hnode
      obtain ⟨m, hm, rfl⟩ := Option.map_eq_some_iff.mp hnode
      refine ⟨k, c, v, rfl, hc, ?_, ?_⟩
      · rw [Table.split_of_frozen h.frozen]
        exact (Table.remap_spec h).mpr ⟨members, hmem, hv⟩
      · rw [hname, hv]
        exact Table.entity?_eq_some_iff.mpr ⟨m, hm, rfl⟩
    · left
      rw [Table.markSplit_unplaced hi] at hnode
      obtain ⟨m, hm, rfl⟩ := Option.map_eq_some_iff.mp hnode
      have hadj : t.adjacency i = [] := by
        by_contra hne
        exact hi ((Table.mem_parts_iff h).mpr hne)
      exact ⟨hfresh i m hm,
        (h.unlinked_iff (Table.entity?_eq_some_iff.mpr ⟨m, hm, rfl⟩)).mp hadj⟩
  apart k l c d v w e hc hd hv hw := by
    obtain ⟨ms, hms, hcname⟩ := part_of_settled h hcs hc
    obtain ⟨ns, hns, hdname⟩ := part_of_settled h hcs hd
    obtain ⟨i, hvi, hi⟩ := Option.bind_eq_some_iff.mp ((hcname v).symm.trans hv)
    obtain ⟨j, hwj, hj⟩ := Option.bind_eq_some_iff.mp ((hdname w).symm.trans hw)
    obtain rfl := h.indexed.injective hi hj
    exact (Split.place_unique (Table.parts_grouped h).nodup hms hns hvi hwj).1
  joined c hc v w a b hv hw := by
    obtain ⟨k, hk⟩ := List.mem_iff_getElem?.mp hc
    obtain ⟨ms, hms, hname⟩ := part_of_settled h hcs hk
    obtain ⟨i, hvi, hi⟩ := Option.bind_eq_some_iff.mp ((hname v).symm.trans hv)
    obtain ⟨j, hwj, hj⟩ := Option.bind_eq_some_iff.mp ((hname w).symm.trans hw)
    exact h.joined hi hj
      ((Table.mem_part_iff h hms (List.mem_of_getElem? hvi)).mp (List.mem_of_getElem? hwj))
  isolated i := by
    simp only [Table.mem_split_isolated h.frozen, Table.split_entity? h.frozen]
    constructor
    · rintro ⟨hi, hadj⟩
      obtain ⟨e, he⟩ := Table.exists_entity?.mpr hi
      exact ⟨e, he, (h.unlinked_iff he).mp hadj⟩
    · rintro ⟨e, he, hlone⟩
      exact ⟨Table.exists_entity?.mp ⟨e, he⟩, (h.unlinked_iff he).mpr hlone⟩
  isolatedNodup := (Table.split_isolated_ascending h.frozen).imp fun hlt => Nat.ne_of_lt hlt

end Settled

end Resolution

namespace Table

theorem resolve_ok {o : Options} (hr : Records ds t) (hb : t.build = (.ok (), t'))
    (ho : Resolution.refusal? o t' = none) : ∃ r, t.resolve o = .ok r ∧ r.Sound ds := by
  have hbuilt := build_built hr hb
  obtain ⟨cs, hok, hsettled, hcs⟩ := Resolution.settle_ok
    (Cluster.Finder.withCapacity t'.split.1.maxSearchSize) {}
    fun c hc => split_ready hbuilt hc
  refine ⟨⟨t'.split.2, { t'.split.1 with components := cs }, o⟩, ?_,
    Resolution.sound_of_settled o hbuilt (fun i n hn => build_component hr hb hn) hsettled hcs⟩
  rw [resolve, hb]
  simp only [ho]
  rw [hok]

theorem resolve_refused {o : Options} (hb : t.build = (.ok (), t')) {err : GraphError E}
    (ho : Resolution.refusal? o t' = some err) : t.resolve o = .error err := by
  rw [resolve, hb]
  simp only [ho]

open Classical in
theorem selfLoops_eq (h : Built ds t) :
    t.selfLoops = t.names.filter fun e => decide (Declares ds e e) := by
  rw [names, List.filter_map]
  refine congrArg (List.map _) (List.filter_congr fun n hn => ?_)
  obtain ⟨i, hi⟩ := List.mem_iff_getElem?.mp hn
  have hloop := h.selfLoop i n (by simpa [node?] using hi)
  rw [Bool.eq_iff_iff, hloop, Function.comp_apply, decide_eq_true_eq]

theorem head?_selfLoops (h : Built ds t) {e : E} :
    t.selfLoops.head? = some e ↔ FirstSelfLoop ds e := by
  rw [selfLoops_eq h, List.head?_filter, h.names, Entity.find?_foldl_note, List.find?_nil,
    Option.none_or, firstSelfLoop_iff]

end Table

end DepGraph
