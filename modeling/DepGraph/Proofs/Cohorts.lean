import DepGraph.Proofs.ClusterListing
import DepGraph.Proofs.EntityRanks

/-!
# The cohorts of a resolution

Cohort after cohort lists the whole graph by rank: each entity once, on its own or inside its
cluster. Components rank their vertices independently of each other, so a cohort is put together
from all of them; that nothing is listed twice comes from components sharing no entity.
-/

namespace DepGraph

variable {E : Type} [Entity E] {ds : List (E × List E)}

theorem lt_foldl_max {k b : Nat} {l : List Nat} :
    k < l.foldl max b ↔ k < b ∨ ∃ a ∈ l, k < a := by
  induction l generalizing b with
  | nil => simp
  | cons a l ih =>
    rw [List.foldl_cons, ih, lt_max_iff, List.exists_mem_cons_iff, or_assoc]

theorem CohortEntry.mem_of_head? {E : Type} {x : CohortEntry E} {e : E} (h : x.head? = some e) :
    e ∈ x.entities := by
  cases x with
  | entity a => exact List.mem_singleton.mpr (Option.some.inj h).symm
  | cluster ms => exact List.mem_of_head? h

namespace Component

variable {c : Component} {t : Table E} {x : Rankee} {v w : VertId}

theorem Settled.lt_of_holds (h : c.Settled ds t) (hv : c.Holds x v) : v < c.size :=
  hv.lt h.classes fun _ _ hu => h.faithful.lt_of_link hu

theorem Settled.rank_of_holds (h : c.Settled ds t) (hv : c.Holds x v) (hw : c.Holds x w) :
    c.rankAt v = c.rankAt w := by
  have hlt := h.lt_of_holds hv
  cases x with
  | vertex a => rw [hv.1, hw.1]
  | cluster i =>
    obtain ⟨k, hk, hvk⟩ := hv
    obtain ⟨l, hl, hwl⟩ := hw
    obtain rfl := Option.some.inj (hk.symm.trans hl)
    have hmem := List.mem_map_of_mem (f := (·.members)) (List.mem_of_getElem? hk)
    obtain ⟨hvw, hwv⟩ := (h.classes.together _ hmem v hvk w).mp hwl
    exact h.ranked.same v w hlt hvw hwv

theorem Settled.mem_cohort (h : c.Settled ds t) {k : Nat} (hv : c.Holds x v) :
    x ∈ c.cohorts.getD k [] ↔ c.rankAt v = k := by
  rw [h.layered.mem]
  constructor
  · intro hmem
    obtain ⟨w, hw, hk⟩ := hmem
    rw [h.rank_of_holds hv hw, hk]
  · intro hk
    exact ⟨v, hv, hk⟩

theorem Settled.lt_cohorts_iff (h : c.Settled ds t) {k : Nat} :
    k < c.cohorts.length ↔ ∃ v < c.size, c.rankAt v = k := by
  constructor
  · intro hk
    obtain ⟨x, hx⟩ := List.exists_mem_of_ne_nil _ (h.layered.full _ (List.getElem_mem hk))
    have hmem := mem_getD_nil.mpr ⟨_, List.getElem?_eq_getElem hk, hx⟩
    obtain ⟨v, hv, hrank⟩ := (h.layered.mem k x).mp hmem
    exact ⟨v, h.lt_of_holds hv, hrank⟩
  · intro hv
    obtain ⟨v, hlt, hrank⟩ := hv
    obtain ⟨x, hx⟩ := exists_holds hlt
    obtain ⟨cohort, hk, _⟩ := mem_getD_nil.mp ((h.mem_cohort hx).mpr hrank)
    exact (List.getElem?_eq_some_iff.mp hk).1

end Component

namespace Resolution

variable {r : Resolution E} {e : E} {k : Nat} {x y : CohortEntry E}

theorem mem_entriesAt : x ∈ r.entriesAt k ↔ (k = 0 ∧ ∃ e ∈ r.isolated, .entity e = x) ∨
    ∃ c ∈ r.components, ∃ y ∈ c.cohorts.getD k [], r.entry? c y = some x := by
  rw [entriesAt, List.mem_append, List.mem_flatMap]
  simp only [List.mem_filterMap]
  by_cases hk : k = 0
  · simp [hk]
  · simp [hk]

namespace Sound

variable {c : Component} {z : Rankee}

theorem mem_entry (h : r.Sound ds) (hc : c ∈ r.components) (hz : z ∈ c.cohorts.getD k [])
    (hx : r.entry? c z = some x) :
    e ∈ x.entities ↔ ∃ v, c.Holds z v ∧ c.entity? r.table v = some e := by
  have hset := h.settled c hc
  cases z with
  | vertex w =>
    obtain ⟨d, hd, rfl⟩ := Option.map_eq_some_iff.mp hx
    obtain ⟨u, hu, _⟩ := (hset.layered.mem k _).mp hz
    obtain rfl := hu.1
    rw [CohortEntry.entities, List.mem_singleton]
    constructor
    · intro he
      exact ⟨u, hu, by rw [he]; exact hd⟩
    · intro hv
      obtain ⟨v, hv, he⟩ := hv
      rw [hv.1, hd] at he
      exact (Option.some.inj he).symm
  | cluster i =>
    obtain ⟨q, hq, rfl⟩ := Option.map_eq_some_iff.mp hx
    rw [CohortEntry.entities, Component.mem_entities]
    constructor
    · intro hv
      obtain ⟨v, hv, he⟩ := hv
      exact ⟨v, ⟨q, hq, hv⟩, he⟩
    · intro hv
      obtain ⟨v, ⟨p, hp, hvp⟩, he⟩ := hv
      obtain rfl := Option.some.inj (hq.symm.trans hp)
      exact ⟨v, hvp, he⟩

theorem exists_entry (h : r.Sound ds) (hc : c ∈ r.components) {v : VertId} (hv : c.Holds z v) :
    ∃ x, r.entry? c z = some x := by
  cases z with
  | vertex w =>
    obtain ⟨e, he⟩ := (h.settled c hc).faithful.entity w (hv.1 ▸ hv.2.1)
    exact ⟨_, congrArg (Option.map _) he⟩
  | cluster i =>
    obtain ⟨q, hq, _⟩ := hv
    exact ⟨_, congrArg (Option.map _) hq⟩

theorem rank_of_entry (h : r.Sound ds) (hx : x ∈ r.entriesAt k) (he : e ∈ x.entities) :
    r.rankOf? e = some k := by
  rcases mem_entriesAt.mp hx with ⟨rfl, d, hd, rfl⟩ | ⟨c, hc, z, hz, hentry⟩
  · obtain rfl := List.mem_singleton.mp he
    obtain ⟨hknown, hlone⟩ := h.mem_isolated.mp hd
    exact h.rankOf?_lone hknown hlone
  · obtain ⟨v, hv, hve⟩ := (h.mem_entry hc hz hentry).mp he
    rw [h.rankOf?_vertex hc hve, ((h.settled c hc).mem_cohort hv).mp hz]

theorem exists_entry_of_rank (h : r.Sound ds) (hr : r.rankOf? e = some k) :
    ∃ x ∈ r.entriesAt k, e ∈ x.entities := by
  have hknown := h.rankOf?_isSome.mp (by rw [hr]; rfl)
  rcases h.lone_or_vertex hknown with hlone | ⟨c, hc, v, hv⟩
  · obtain rfl : 0 = k := Option.some.inj ((h.rankOf?_lone hknown hlone).symm.trans hr)
    exact ⟨.entity e, mem_entriesAt.mpr (Or.inl ⟨rfl, e, h.mem_isolated.mpr ⟨hknown, hlone⟩, rfl⟩),
      List.mem_singleton.mpr rfl⟩
  · have hrank : c.rankAt v = k := Option.some.inj ((h.rankOf?_vertex hc hv).symm.trans hr)
    obtain ⟨z, hz⟩ := Component.exists_holds (Component.lt_of_entity? hv)
    have hmem := ((h.settled c hc).mem_cohort hz).mpr hrank
    obtain ⟨x, hx⟩ := h.exists_entry hc hz
    exact ⟨x, mem_entriesAt.mpr (Or.inr ⟨c, hc, z, hmem, hx⟩),
      (h.mem_entry hc hmem hx).mpr ⟨v, hz, hv⟩⟩

theorem component_entries_apart (h : r.Sound ds) (hc : c ∈ r.components) (k : Nat) :
    ((c.cohorts.getD k []).filterMap (r.entry? c)).Pairwise
      fun x y => x.entities.Disjoint y.entities := by
  have hset := h.settled c hc
  have hnodup : (c.cohorts.getD k []).Nodup := by
    rw [List.getD_eq_getElem?_getD]
    cases hk : c.cohorts[k]? with
    | none => exact List.nodup_nil
    | some zs => exact hset.layered.nodup zs (List.mem_of_getElem? hk)
  rw [List.pairwise_filterMap]
  refine hnodup.imp_of_mem fun {z z'} hz hz' hne x hx y hy => List.disjoint_left.mpr ?_
  intro e he he'
  obtain ⟨v, hv, hve⟩ := (h.mem_entry hc hz hx).mp he
  obtain ⟨w, hw, hwe⟩ := (h.mem_entry hc hz' hy).mp he'
  obtain rfl := hset.faithful.injective v w e hve hwe
  exact hne (Component.Holds.unique hset.classes hv hw)

theorem vertex_of_entry (h : r.Sound ds) (hc : c ∈ r.components)
    (hx : x ∈ (c.cohorts.getD k []).filterMap (r.entry? c)) (he : e ∈ x.entities) :
    ∃ v, c.entity? r.table v = some e := by
  obtain ⟨z, hz, hentry⟩ := List.mem_filterMap.mp hx
  obtain ⟨v, _, hv⟩ := (h.mem_entry hc hz hentry).mp he
  exact ⟨v, hv⟩

theorem entriesAt_apart (h : r.Sound ds) (k : Nat) :
    (r.entriesAt k).Pairwise fun x y => x.entities.Disjoint y.entities := by
  rw [entriesAt, List.pairwise_append]
  refine ⟨?_, ?_, ?_⟩
  · split
    · refine List.pairwise_map.mpr (h.isolated_nodup.imp fun hne => ?_)
      simpa [CohortEntry.entities] using hne.symm
    · exact List.Pairwise.nil
  · refine List.pairwise_flatMap.mpr ⟨fun c hc => h.component_entries_apart hc k, ?_⟩
    refine h.components_apart.imp_of_mem fun hc hd hapart x hx y hy => List.disjoint_left.mpr ?_
    intro e he he'
    obtain ⟨v, hv⟩ := h.vertex_of_entry hc hx he
    obtain ⟨w, hw⟩ := h.vertex_of_entry hd hy he'
    exact hapart v w e hv hw
  · intro x hx y hy
    refine List.disjoint_left.mpr fun e he he' => ?_
    obtain ⟨c, hc, hy⟩ := List.mem_flatMap.mp hy
    obtain ⟨v, hv⟩ := h.vertex_of_entry hc hy he'
    split at hx
    · obtain ⟨d, hd, rfl⟩ := List.mem_map.mp hx
      obtain rfl := List.mem_singleton.mp he
      exact (h.settled c hc).faithful.not_lone hv (h.mem_isolated.mp hd).2
    · cases hx

theorem entry_unique (h : r.Sound ds) (hx : x ∈ r.entriesAt k) (hy : y ∈ r.entriesAt k)
    (he : e ∈ x.entities) (he' : e ∈ y.entities) : x = y := by
  by_contra hne
  have : Std.Symm fun x y : CohortEntry E => x.entities.Disjoint y.entities :=
    ⟨fun _ _ hdis => hdis.symm⟩
  exact List.disjoint_left.mp ((h.entriesAt_apart k).forall hx hy hne) he he'

theorem rank_of_cluster (h : r.Sound ds) {ms : List E} (hms : ms ∈ r.clusters) {a b : E}
    (ha : a ∈ ms) (hb : b ∈ ms) (hr : r.rankOf? a = some k) : r.rankOf? b = some k := by
  by_cases hab : a = b
  · rw [← hab]
    exact hr
  · obtain ⟨n, hn, hrank⟩ := h.rankOf_known (h.rankOf?_isSome.mp (by rw [hr]; rfl))
    rw [hrank.shared b ((h.clusters_mutual hab).mp ⟨ms, hms, ha, hb⟩), ← hn, hr]

theorem cluster_mem_entriesAt (h : r.Sound ds) {ms : List E} :
    .cluster ms ∈ r.entriesAt k ↔ ms ∈ r.clusters ∧ ∀ e ∈ ms, r.rankOf? e = some k := by
  constructor
  · intro hx
    refine ⟨?_, fun e he => h.rank_of_entry hx he⟩
    rcases mem_entriesAt.mp hx with ⟨_, d, _, hd⟩ | ⟨c, hc, z, hz, hentry⟩
    · cases hd
    · cases z with
      | vertex w =>
        obtain ⟨_, _, heq⟩ := Option.map_eq_some_iff.mp hentry
        cases heq
      | cluster i =>
        obtain ⟨q, hq, heq⟩ := Option.map_eq_some_iff.mp hentry
        exact mem_clusters.mpr ⟨c, hc, q, List.mem_of_getElem? hq, CohortEntry.cluster.inj heq⟩
  · intro hms
    obtain ⟨hms, hranks⟩ := hms
    obtain ⟨c, hc, q, hq, rfl⟩ := mem_clusters.mp hms
    have hset := h.settled c hc
    obtain ⟨i, hi⟩ := List.mem_iff_getElem?.mp hq
    obtain ⟨a, _, _, ha, _⟩ := hset.faithful.class_pair hset.classes hq
    obtain ⟨v, hv, hva⟩ := Component.mem_entities.mp ha
    have hrank : c.rankAt v = k :=
      Option.some.inj ((h.rankOf?_vertex hc hva).symm.trans (hranks a ha))
    have hholds : c.Holds (.cluster i) v := ⟨q, hi, hv⟩
    exact mem_entriesAt.mpr (Or.inr ⟨c, hc, .cluster i, (hset.mem_cohort hholds).mpr hrank,
      congrArg (Option.map _) hi⟩)

theorem entity_mem_entriesAt (h : r.Sound ds) :
    .entity e ∈ r.entriesAt k ↔ r.rankOf? e = some k ∧ ∀ ms ∈ r.clusters, e ∉ ms := by
  constructor
  · intro hx
    have hself : e ∈ (CohortEntry.entity e).entities := List.mem_singleton.mpr rfl
    have hrank := h.rank_of_entry hx hself
    refine ⟨hrank, fun ms hms he => ?_⟩
    have hcluster := h.cluster_mem_entriesAt.mpr
      ⟨hms, fun b hb => h.rank_of_cluster hms he hb hrank⟩
    cases h.entry_unique hx hcluster hself he
  · intro hr
    obtain ⟨hr, hout⟩ := hr
    obtain ⟨x, hx, he⟩ := h.exists_entry_of_rank hr
    cases x with
    | entity d =>
      rw [List.mem_singleton.mp he]
      exact hx
    | cluster ms => exact absurd he (hout ms (h.cluster_mem_entriesAt.mp hx).1)

theorem exists_head (h : r.Sound ds) (hx : x ∈ r.entriesAt k) : ∃ e, x.head? = some e := by
  cases x with
  | entity e => exact ⟨e, rfl⟩
  | cluster ms =>
    have hlarge := h.clusters_large (h.cluster_mem_entriesAt.mp hx).1
    cases ms with
    | nil => simp at hlarge
    | cons e ms => exact ⟨e, rfl⟩

theorem entries_ordered (h : r.Sound ds) (k : Nat) :
    (Entity.sortBy CohortEntry.head? (r.entriesAt k)).Pairwise
      fun x y => ∃ a b, x.head? = some a ∧ y.head? = some b ∧ Entity.Below a b := by
  apply Entity.sortBy_ordered
  · refine List.pairwise_filterMap.mpr ((h.entriesAt_apart k).imp fun hdis a ha b hb => ?_)
    rintro rfl
    exact List.disjoint_left.mp hdis (CohortEntry.mem_of_head? ha) (CohortEntry.mem_of_head? hb)
  · exact fun x hx => h.exists_head hx

theorem entities_nodup (h : r.Sound ds) (k : Nat) :
    ((r.entriesAt k).flatMap CohortEntry.entities).Nodup := by
  refine List.nodup_flatMap.mpr ⟨?_, h.entriesAt_apart k⟩
  intro x hx
  cases x with
  | entity e => exact List.nodup_singleton e
  | cluster ms => exact (h.clusters_ascending (h.cluster_mem_entriesAt.mp hx).1).nodup

theorem lt_depth_iff (h : r.Sound ds) : k < r.depth ↔ ∃ e, r.rankOf? e = some k := by
  rw [depth, lt_foldl_max]
  constructor
  · intro hk
    rcases hk with hk | ⟨n, hn, hk⟩
    · have hne : r.partition.isolated ≠ [] := by
        intro hnil
        simp [hnil] at hk
      obtain rfl : k = 0 := by
        split at hk <;> omega
      obtain ⟨i, hi⟩ := List.exists_mem_of_ne_nil _ hne
      obtain ⟨e, he, hlone⟩ := (h.isolated i).mp hi
      exact ⟨e, h.rankOf?_lone (h.built.known.mp ⟨i, he⟩) hlone⟩
    · obtain ⟨c, hc, rfl⟩ := List.mem_map.mp hn
      have hset := h.settled c hc
      obtain ⟨v, hv, hrank⟩ := hset.lt_cohorts_iff.mp hk
      obtain ⟨e, he⟩ := hset.faithful.entity v hv
      exact ⟨e, by rw [h.rankOf?_vertex hc he, hrank]⟩
  · intro hr
    obtain ⟨e, hr⟩ := hr
    have hknown := h.rankOf?_isSome.mp (by rw [hr]; rfl)
    rcases h.lone_or_vertex hknown with hlone | ⟨c, hc, v, hv⟩
    · left
      obtain rfl : 0 = k := Option.some.inj ((h.rankOf?_lone hknown hlone).symm.trans hr)
      obtain ⟨i, hi⟩ := h.built.known.mpr hknown
      have hmem := (h.isolated i).mpr ⟨e, hi, hlone⟩
      rw [if_neg (by rw [List.isEmpty_iff]; exact List.ne_nil_of_mem hmem)]
      exact Nat.one_pos
    · right
      have hrank : c.rankAt v = k := Option.some.inj ((h.rankOf?_vertex hc hv).symm.trans hr)
      exact ⟨_, List.mem_map_of_mem hc,
        (h.settled c hc).lt_cohorts_iff.mpr ⟨v, Component.lt_of_entity? hv, hrank⟩⟩

end Sound

theorem cohortEntries_eq_some {xs : List (CohortEntry E)} : r.cohortEntries[k]? = some xs ↔
    k < r.depth ∧ Entity.sortBy CohortEntry.head? (r.entriesAt k) = xs := by
  rw [cohortEntries, List.getElem?_map, Option.map_eq_some_iff]
  simp [List.getElem?_eq_some_iff]

theorem cohorts_eq_some {es : List E} : r.cohorts[k]? = some es ↔ k < r.depth ∧
    Entity.sort ((Entity.sortBy CohortEntry.head? (r.entriesAt k)).flatMap CohortEntry.entities)
      = es := by
  rw [cohorts, List.getElem?_map, Option.map_eq_some_iff]
  simp [cohortEntries_eq_some, and_assoc]

namespace Sound

theorem mem_cohort_iff (h : r.Sound ds) {es : List E} (hes : r.cohorts[k]? = some es) :
    e ∈ es ↔ r.rankOf? e = some k := by
  obtain ⟨_, rfl⟩ := cohorts_eq_some.mp hes
  rw [(Entity.sort_perm _).mem_iff, List.mem_flatMap]
  constructor
  · intro hx
    obtain ⟨x, hx, he⟩ := hx
    exact h.rank_of_entry ((Entity.sortBy_perm _ _).mem_iff.mp hx) he
  · intro hr
    obtain ⟨x, hx, he⟩ := h.exists_entry_of_rank hr
    exact ⟨x, (Entity.sortBy_perm _ _).mem_iff.mpr hx, he⟩

theorem cohort_ascending (h : r.Sound ds) {es : List E} (hes : r.cohorts[k]? = some es) :
    Entity.Ascending es := by
  obtain ⟨_, rfl⟩ := cohorts_eq_some.mp hes
  apply Entity.ascending_sort
  exact ((Entity.sortBy_perm _ _).flatMap_right _).nodup_iff.mpr (h.entities_nodup k)

theorem cohort_full (h : r.Sound ds) {es : List E} (hes : r.cohorts[k]? = some es) : es ≠ [] := by
  obtain ⟨e, he⟩ := h.lt_depth_iff.mp (cohorts_eq_some.mp hes).1
  exact List.ne_nil_of_mem ((h.mem_cohort_iff hes).mpr he)

theorem mem_cohorts_iff (h : r.Sound ds) : (∃ es ∈ r.cohorts, e ∈ es) ↔ e ∈ mentions ds := by
  rw [← h.rankOf?_isSome]
  constructor
  · intro hes
    obtain ⟨es, hes, he⟩ := hes
    obtain ⟨k, hk⟩ := List.mem_iff_getElem?.mp hes
    rw [(h.mem_cohort_iff hk).mp he]
    rfl
  · intro hsome
    obtain ⟨k, hk⟩ := Option.isSome_iff_exists.mp hsome
    have hes := cohorts_eq_some.mpr ⟨h.lt_depth_iff.mpr ⟨e, hk⟩, rfl⟩
    exact ⟨_, List.mem_of_getElem? hes, (h.mem_cohort_iff hes).mpr hk⟩

theorem cohorts_nodup (h : r.Sound ds) : r.cohorts.flatten.Nodup := by
  refine List.nodup_flatten.mpr ⟨?_, ?_⟩
  · intro es hes
    obtain ⟨k, hk⟩ := List.mem_iff_getElem?.mp hes
    exact (h.cohort_ascending hk).nodup
  · rw [List.pairwise_iff_getElem]
    intro i j hi hj hij
    refine List.disjoint_left.mpr fun e he he' => ?_
    have hri := (h.mem_cohort_iff (List.getElem?_eq_getElem hi)).mp he
    have hrj := (h.mem_cohort_iff (List.getElem?_eq_getElem hj)).mp he'
    have hsame : i = j := Option.some.inj (hri.symm.trans hrj)
    omega

theorem depth_eq_zero (h : r.Sound ds) (hempty : r.table.size = 0) : r.depth = 0 := by
  by_contra hne
  obtain ⟨e, he⟩ := h.lt_depth_iff.mp (Nat.pos_of_ne_zero hne)
  obtain ⟨i, hi⟩ := h.built.known.mpr (h.rankOf?_isSome.mp (by rw [he]; rfl))
  have hlt := Table.exists_entity?.mp ⟨e, hi⟩
  rw [hempty] at hlt
  exact Nat.not_lt_zero i hlt

theorem depth_eq_top (h : r.Sound ds) (hne : r.table.size ≠ 0) : ∃ e n,
    r.rankOf? e = some n ∧ r.depth = n + 1 ∧ ∀ e' n', r.rankOf? e' = some n' → n' ≤ n := by
  obtain ⟨d, hd⟩ := Table.exists_entity?.mpr (Nat.pos_of_ne_zero hne)
  obtain ⟨m, hm, _⟩ := h.rankOf_known (h.built.known.mp ⟨0, hd⟩)
  have hpos := h.lt_depth_iff.mpr ⟨d, hm⟩
  obtain ⟨e, he⟩ := h.lt_depth_iff.mp (Nat.sub_one_lt_of_lt hpos)
  refine ⟨e, r.depth - 1, he, by omega, ?_⟩
  intro e' n' he'
  have hlt := h.lt_depth_iff.mpr ⟨e', he'⟩
  omega

end Sound

structure ListsCohorts (r : Resolution E) : Prop where
  lengths : r.cohortEntries.length = r.depth ∧ r.cohorts.length = r.depth
  depthEmpty : r.table.size = 0 → r.depth = 0
  depthTop : r.table.size ≠ 0 → ∃ e n, r.rankOf? e = some n ∧ r.depth = n + 1 ∧
    ∀ e' n', r.rankOf? e' = some n' → n' ≤ n
  entries : ∀ k xs, r.cohortEntries[k]? = some xs → xs ≠ [] ∧
    (xs.Pairwise fun x y => ∃ a b, x.head? = some a ∧ y.head? = some b ∧ Entity.Below a b) ∧
    (∀ ms, .cluster ms ∈ xs ↔ ms ∈ r.clusters ∧ ∀ e ∈ ms, r.rankOf? e = some k) ∧
    ∀ e, .entity e ∈ xs ↔ r.rankOf? e = some k ∧ ∀ ms ∈ r.clusters, e ∉ ms
  cohorts : ∀ k es, r.cohorts[k]? = some es →
    es ≠ [] ∧ Entity.Ascending es ∧ ∀ e, e ∈ es ↔ r.rankOf? e = some k
  once : r.cohorts.flatten.Nodup ∧
    ∀ e, e ∈ r.cohorts.flatten ↔ (r.table.idOf? e).isSome = true

/-- Cohorts list each known entity exactly once, at its rank and with its cluster, and every rank
up to the highest has one. -/
theorem cohorts_exact {calls : List (E × List E)} {o : Options} {r : Resolution E}
    (h : (Table.ofCalls calls).resolve o = .ok r) : r.ListsCohorts := by
  have hs := Table.resolve_sound (Table.ofCalls_records calls) h
  constructor
  case lengths => simp [cohorts, cohortEntries]
  case depthEmpty => exact hs.depth_eq_zero
  case depthTop => exact hs.depth_eq_top
  case entries =>
    intro k xs hxs
    obtain ⟨hk, rfl⟩ := cohortEntries_eq_some.mp hxs
    have hmem (x : CohortEntry E) :=
      (Entity.sortBy_perm CohortEntry.head? (r.entriesAt k)).mem_iff (a := x)
    refine ⟨?_, hs.entries_ordered k, ?_, ?_⟩
    · obtain ⟨e, he⟩ := hs.lt_depth_iff.mp hk
      obtain ⟨x, hx, _⟩ := hs.exists_entry_of_rank he
      exact List.ne_nil_of_mem ((hmem x).mpr hx)
    · intro ms
      rw [hmem, hs.cluster_mem_entriesAt]
    · intro e
      rw [hmem, hs.entity_mem_entriesAt]
  case cohorts =>
    intro k es hes
    exact ⟨hs.cohort_full hes, hs.cohort_ascending hes, fun e => hs.mem_cohort_iff hes⟩
  case once =>
    refine ⟨hs.cohorts_nodup, fun e => ?_⟩
    rw [List.mem_flatten, hs.mem_cohorts_iff, ← hs.built.known, Option.isSome_iff_exists]
    exact exists_congr fun i => (hs.built.indexed e i).symm

/-- A pair that needs each other, an entity above it and one alone. -/
theorem cohorts_exact_above_pair : ∃ r,
    (Table.ofCalls [((3 : Int), [1]), (1, [2]), (2, [1]), (4, [])]).resolve {} = .ok r ∧
      r.ListsCohorts := by
  obtain ⟨r, hr⟩ := Table.resolve_default
    (Table.ofCalls_records [((3 : Int), [1]), (1, [2]), (2, [1]), (4, [])])
  exact ⟨r, hr, cohorts_exact hr⟩

end Resolution

end DepGraph
