import DepGraph.Proofs.Cohorts
import DepGraph.Proofs.TwoLevels

/-!
# The books of a component

A settled component keeps four records: the tags on its vertices, the list of its clusters, the
ranks of its vertices and its cohorts. They are written by different phases, and a two-level
component is written by yet another; whichever it was, the records tell the same story.
-/

namespace DepGraph

/-- What a vertex is ranked as: the cluster it is tagged with, or itself. -/
def Vertex.rankee (x : Vertex) (v : VertId) : Rankee :=
  match x.cluster with
  | some k => .cluster k
  | none => .vertex v

theorem Vertex.rankee_eq_vertex {x : Vertex} {v w : VertId} :
    x.rankee v = .vertex w ↔ v = w ∧ x.cluster = none := by
  rw [rankee]
  cases x.cluster <;> simp

theorem Vertex.rankee_eq_cluster {x : Vertex} {v : VertId} {k : ClusterId} :
    x.rankee v = .cluster k ↔ x.cluster = some k := by
  rw [rankee]
  cases x.cluster <;> simp

namespace Cluster

variable {c : Component} {E : Type} [Entity E] {t : Table E}

theorem find_component (f : Finder) {k : Cluster} (hk : k ∈ (f.find c t).1) :
    k.component = c.id := by
  rw [Finder.find] at hk
  split at hk
  · cases hk
  · rw [Finder.search, number] at hk
    obtain ⟨_, _, rfl⟩ := List.mem_map.mp hk
    rfl

end Cluster

namespace Component

variable {c c' : Component} {E : Type} [Entity E] {ds : List (E × List E)} {t : Table E}
  {x : Rankee} {v : VertId}

/-- The rankees that the tags and the list of clusters call for. -/
def Recorded (c : Component) : Rankee → Prop
  | .vertex v => ∃ x, c.vertex? v = some x ∧ x.cluster = none
  | .cluster k => ∃ q, c.cluster? k = some q

def Tagged (c : Component) : Prop := ∀ v k,
  (∃ x, c.vertex? v = some x ∧ x.cluster = some k) ↔ ∃ q, c.cluster? k = some q ∧ v ∈ q.members

/-- Each record of the component agrees with the others. -/
structure Consistent (t : Table E) (c : Component) : Prop where
  numbered : ∀ k q, c.cluster? k = some q → q.id = k ∧ q.component = c.id
  tagged : c.Tagged
  listed : ∀ x, x ∈ c.cohorts.flatten ↔ c.Recorded x
  once : c.cohorts.flatten.Nodup
  ranked : ∀ v x k, c.vertex? v = some x →
    (x.rank = k ↔ ∃ cohort, c.cohorts[k]? = some cohort ∧ x.rankee v ∈ cohort)
  full : ∀ cohort ∈ c.cohorts, cohort ≠ []
  ascending : ∀ cohort ∈ c.cohorts, cohort.Pairwise fun x y => ∃ a b,
    c.representative? t x = some a ∧ c.representative? t y = some b ∧ Entity.Below a b

section Tags

variable {clusters : List Cluster} {vert : Vertex}

theorem setClusters_member (hn : (clusters.flatMap (·.members)).Nodup) {k : Cluster}
    (hk : k ∈ clusters) (hvk : v ∈ k.members)
    (hv : (c.setClusters clusters).vertex? v = some vert) : vert.cluster = some k.id := by
  have hat : (c.setClusters clusters).vertex? v = (c.vertex? v).map (join k) :=
    Writes.each_at join c.verts hn hk hvk
  rw [hat] at hv
  obtain ⟨old, _, rfl⟩ := Option.map_eq_some_iff.mp hv
  rfl

theorem setClusters_tag (hf : c.Fresh) (hn : (clusters.flatMap (·.members)).Nodup)
    (hv : (c.setClusters clusters).vertex? v = some vert) {i : ClusterId} :
    vert.cluster = some i ↔ ∃ k ∈ clusters, k.id = i ∧ v ∈ k.members := by
  constructor
  · intro hi
    have hmarked := setClusters_marked hf hn hv
    rw [hi] at hmarked
    by_contra hout
    apply absurd (hmarked.mpr ?_) (by simp)
    intro k hk hvk
    have htag := setClusters_member hn hk hvk hv
    exact hout ⟨k, hk, Option.some.inj (htag.symm.trans hi), hvk⟩
  · intro hk
    obtain ⟨k, hk, rfl, hvk⟩ := hk
    exact setClusters_member hn hk hvk hv

theorem setClusters_tagged (hf : c.Fresh) (hn : (clusters.flatMap (·.members)).Nodup)
    (hnum : (c.setClusters clusters).Numbered)
    (hlt : ∀ k ∈ clusters, ∀ v ∈ k.members, v < c.size) : (c.setClusters clusters).Tagged := by
  intro v i
  constructor
  · intro hx
    obtain ⟨vert, hv, hi⟩ := hx
    obtain ⟨k, hk, rfl, hvk⟩ := (setClusters_tag hf hn hv).mp hi
    obtain ⟨j, hj⟩ := List.mem_iff_getElem?.mp hk
    refine ⟨k, ?_, hvk⟩
    rw [hnum j k hj]
    exact hj
  · intro hk
    obtain ⟨k, hk, hvk⟩ := hk
    have hmem : k ∈ clusters := List.mem_of_getElem? hk
    have hsize : v < (c.setClusters clusters).size := by
      rw [(setClusters_sameGraph c clusters).size]
      exact hlt k hmem v hvk
    have hv : (c.setClusters clusters).vertex? v = some (c.setClusters clusters).verts[v] :=
      Array.getElem?_eq_getElem hsize
    refine ⟨_, hv, ?_⟩
    rw [setClusters_member hn hmem hvk hv, hnum i k hk]

end Tags

section Order

theorem holds_of_representative (hx : ∃ v, c.Holds x v) {e : E}
    (he : c.representative? t x = some e) : ∃ v, c.Holds x v ∧ c.entity? t v = some e := by
  cases x with
  | vertex w =>
    obtain ⟨v, hv⟩ := hx
    exact ⟨v, hv, by rw [hv.1]; exact he⟩
  | cluster i =>
    obtain ⟨v, hhead, hve⟩ := Option.bind_eq_some_iff.mp he
    obtain ⟨k, hk, hv⟩ := Option.bind_eq_some_iff.mp hhead
    exact ⟨v, ⟨k, hk, List.mem_of_head? hv⟩, hve⟩

theorem Faithful.exists_representative (h : c.Faithful ds t)
    (hc : MutualClasses c.descendants (c.clusters.map (·.members))) (hx : c.Holds x v) :
    ∃ e, c.representative? t x = some e := by
  cases x with
  | vertex w => exact h.entity w (hx.1 ▸ hx.2.1)
  | cluster i =>
    obtain ⟨k, hk, hv⟩ := hx
    obtain ⟨u, hu⟩ := Option.isSome_iff_exists.mp
      (List.isSome_head?.mpr (List.ne_nil_of_mem hv))
    obtain ⟨e, he⟩ := h.class_named hc (List.mem_of_getElem? hk) (List.mem_of_head? hu)
    refine ⟨e, ?_⟩
    rw [representative?, hk, Option.bind_some, Cluster.head?, hu]
    exact he

theorem Faithful.sortBy_sorted (h : c.Faithful ds t)
    (hc : MutualClasses c.descendants (c.clusters.map (·.members))) {xs : List Rankee}
    (hn : xs.Nodup) (hx : ∀ x ∈ xs, ∃ v, c.Holds x v) :
    c.Sorted t (Entity.sortBy (c.representative? t) xs) := by
  apply Entity.sortBy_ordered
  · apply List.pairwise_filterMap.mpr
    apply hn.imp_of_mem
    intro x y hxm hym hne a ha b hb hab
    subst hab
    obtain ⟨v, hv, hva⟩ := holds_of_representative (hx x hxm) ha
    obtain ⟨w, hw, hwa⟩ := holds_of_representative (hx y hym) hb
    obtain rfl := h.injective v w a hva hwa
    exact hne (Holds.unique hc hv hw)
  · intro x hxm
    obtain ⟨v, hv⟩ := hx x hxm
    exact h.exists_representative hc hv

theorem Faithful.rankees_sorted (h : c.Faithful ds t) (hc : Collapsed.Clustered c)
    (hn : c.Numbered) {wave : List Nat} (hw : wave.Nodup) :
    c.Sorted t (Cohort.Ranker.rankees c t wave) := by
  apply h.sortBy_sorted hc.classes
  · exact (Entity.sortBy_perm _ _).nodup_iff.mp (Cohort.Ranker.rankees_nodup hc hn t hw)
  · intro x hx
    have hwave : x ∈ Cohort.Ranker.rankees c t wave := (Entity.sortBy_perm _ _).mem_iff.mpr hx
    obtain ⟨i, _, g, hg, rfl⟩ := Cohort.Ranker.mem_rankees.mp hwave
    have hmem := List.mem_of_getElem? hg
    obtain ⟨v, hv⟩ := Cohort.Ranker.exists_member hc hmem
    exact ⟨v, (Cohort.Ranker.holds_rankee hc hn hmem v).mpr hv⟩

theorem Faithful.rank_sorted (h : c.Faithful ds t) (hc : Collapsed.Clustered c) (hn : c.Numbered)
    (r : Cohort.Ranker) {r' : Cohort.Ranker} (hok : r.rank c t = (.ok (), c', r')) :
    ∀ cohort ∈ c'.cohorts, c.Sorted t cohort := by
  rw [Cohort.Ranker.rank] at hok
  split at hok
  · obtain rfl := (Prod.mk.inj (Prod.mk.inj hok).2).1
    exact h.rankTwoLevels_sorted
  · obtain ⟨s, hwaves, _, hlevels⟩ := r.rankByWaves_ok t hc
    obtain rfl := (Prod.mk.inj (Prod.mk.inj (hok.symm.trans hwaves)).2).1
    intro cohort hcohort
    obtain ⟨wave, hwave, rfl⟩ := List.mem_map.mp hcohort
    exact h.rankees_sorted hc hn ((List.nodup_flatten.mp hlevels.nodup).1 wave hwave)

end Order

/-- Ranking writes nothing but ranks and cohorts. -/
structure Kept (c c' : Component) : Prop where
  id : c'.id = c.id
  graph : SameGraph c c'
  clusters : c'.clusters = c.clusters
  tags : ∀ v, (c'.vertex? v).map (·.cluster) = (c.vertex? v).map (·.cluster)

theorem rank_kept (r : Cohort.Ranker) (c : Component) (t : Table E) :
    Kept c (r.rank c t).2.1 := by
  rw [Cohort.Ranker.rank]
  split
  · exact ⟨rfl, rankTwoLevels_sameGraph c t, rfl, Cohort.Ranker.rankTwoLevels_marks c t⟩
  · rw [Cohort.Ranker.rankByWaves_eq]
    split
    · exact ⟨rfl, .refl c, rfl, fun _ => rfl⟩
    · exact ⟨rfl, Cohort.Ranker.writeRanks_sameGraph c _ _, rfl,
        Cohort.Ranker.writeRanks_marks c _ _⟩

theorem Kept.tagged (h : Kept c c') (htag : c.Tagged) : c'.Tagged := by
  have hread (b : Component) (v : VertId) (k : ClusterId) :
      (∃ y, b.vertex? v = some y ∧ y.cluster = some k) ↔
        (b.vertex? v).map (·.cluster) = some (some k) := by
    rw [Option.map_eq_some_iff]
  intro v k
  rw [hread, h.tags, ← hread, htag v k, cluster?, cluster?, h.clusters]

theorem Kept.representative? (h : Kept c c') (t : Table E) :
    c'.representative? t = c.representative? t := by
  have hentity : c'.entity? t = c.entity? t := funext (h.graph.entity? t)
  funext x
  cases x with
  | vertex v => exact congrFun hentity v
  | cluster k => rw [Component.representative?, Component.representative?, cluster?, cluster?,
      h.clusters, hentity]

theorem Tagged.holds_iff (htag : c.Tagged) :
    c.Holds x v ↔ ∃ y, c.vertex? v = some y ∧ y.rankee v = x := by
  cases x with
  | cluster k =>
    simp only [Vertex.rankee_eq_cluster]
    exact (htag v k).symm
  | vertex w =>
    simp only [Vertex.rankee_eq_vertex]
    constructor
    · intro hx
      obtain ⟨hvw, hlt, hout⟩ := hx
      refine ⟨c.verts[v], Array.getElem?_eq_getElem hlt, hvw, ?_⟩
      by_contra hsome
      obtain ⟨k, hk⟩ := Option.ne_none_iff_exists'.mp hsome
      obtain ⟨q, hq, hvq⟩ := (htag v k).mp ⟨_, Array.getElem?_eq_getElem hlt, hk⟩
      exact hout q (List.mem_of_getElem? hq) hvq
    · intro hy
      obtain ⟨y, hy, hvw, hnone⟩ := hy
      refine ⟨hvw, (Array.getElem?_eq_some_iff.mp hy).1, fun q hq hvq => ?_⟩
      obtain ⟨k, hk⟩ := List.mem_iff_getElem?.mp hq
      obtain ⟨z, hz, htagged⟩ := (htag v k).mpr ⟨q, hk, hvq⟩
      obtain rfl := Option.some.inj (hy.symm.trans hz)
      rw [hnone] at htagged
      cases htagged

section Cohorts

theorem Settled.cohorts_nodup (h : c.Settled ds t) : c.cohorts.flatten.Nodup := by
  refine List.nodup_flatten.mpr ⟨h.layered.nodup, List.pairwise_iff_getElem.mpr ?_⟩
  intro i j hi hj hij
  apply List.disjoint_left.mpr
  intro x hxi hxj
  obtain ⟨v, hv, hri⟩ :=
    (h.layered.mem i x).mp (mem_getD_nil.mpr ⟨_, List.getElem?_eq_getElem hi, hxi⟩)
  have hrj := (h.mem_cohort hv).mp (mem_getD_nil.mpr ⟨_, List.getElem?_eq_getElem hj, hxj⟩)
  omega

theorem Settled.mem_cohorts (h : c.Settled ds t) : x ∈ c.cohorts.flatten ↔ ∃ v, c.Holds x v := by
  rw [List.mem_flatten]
  constructor
  · intro hx
    obtain ⟨cohort, hcohort, hx⟩ := hx
    obtain ⟨k, hk⟩ := List.mem_iff_getElem?.mp hcohort
    obtain ⟨v, hv, _⟩ := (h.layered.mem k x).mp (mem_getD_nil.mpr ⟨cohort, hk, hx⟩)
    exact ⟨v, hv⟩
  · intro hx
    obtain ⟨v, hv⟩ := hx
    obtain ⟨cohort, hk, hx⟩ := mem_getD_nil.mp ((h.mem_cohort hv).mpr rfl)
    exact ⟨cohort, List.mem_of_getElem? hk, hx⟩

theorem Settled.recorded_iff (h : c.Settled ds t) (htag : c.Tagged) :
    c.Recorded x ↔ ∃ v, c.Holds x v := by
  cases x with
  | vertex w =>
    simp only [htag.holds_iff, Vertex.rankee_eq_vertex]
    constructor
    · intro hy
      obtain ⟨y, hy, hnone⟩ := hy
      exact ⟨w, y, hy, rfl, hnone⟩
    · intro hy
      obtain ⟨v, y, hy, rfl, hnone⟩ := hy
      exact ⟨y, hy, hnone⟩
  | cluster k =>
    constructor
    · intro hq
      obtain ⟨q, hq⟩ := hq
      obtain ⟨v, hv, _⟩ :=
        h.classes.other (List.mem_map_of_mem (f := (·.members)) (List.mem_of_getElem? hq)) 0
      exact ⟨v, q, hq, hv⟩
    · intro hv
      obtain ⟨v, q, hq, _⟩ := hv
      exact ⟨q, hq⟩

theorem Settled.rank_iff (h : c.Settled ds t) (htag : c.Tagged) {y : Vertex}
    (hy : c.vertex? v = some y) {k : Nat} :
    y.rank = k ↔ ∃ cohort, c.cohorts[k]? = some cohort ∧ y.rankee v ∈ cohort := by
  have hholds := (htag.holds_iff).mpr ⟨y, hy, rfl⟩
  rw [← mem_getD_nil, h.mem_cohort hholds, rankAt, hy]
  rfl

end Cohorts

theorem rank_consistent (f : Cluster.Finder) (r : Cohort.Ranker) (h : c.Faithful ds t)
    (hf : c.Fresh) {r' : Cohort.Ranker}
    (hok : r.rank (c.setClusters (f.find c t).1) t = (.ok (), c', r')) : c'.Consistent t := by
  obtain ⟨hclasses, _⟩ := Cluster.find_classes f h
  have hclustered := setClusters_clustered h hf hclasses
  have hcopy := (setClusters_sameGraph c (f.find c t).1).faithful (fun _ => rfl) h
  have hnum : (c.setClusters (f.find c t).1).Numbered := fun i k hk => Cluster.find_id f hk
  have hkept := rank_kept r (c.setClusters (f.find c t).1) t
  rw [hok] at hkept
  have hsettled : c'.Settled ds t := by
    obtain ⟨b, _, hb, _, hsettled⟩ := rank_settled f r h hf
    obtain rfl := (Prod.mk.inj (Prod.mk.inj (hok.symm.trans hb)).2).1
    exact hsettled
  have htag : c'.Tagged := by
    apply hkept.tagged
    apply setClusters_tagged hf
    · rw [List.flatMap_def]
      exact hclasses.flatten_nodup
    · exact hnum
    · intro k hk v hv
      exact hclasses.lt (fun _ _ hu => h.lt_of_link hu) (List.mem_map_of_mem hk) hv
  constructor
  case numbered =>
    intro k q hq
    have hfound : (f.find c t).1[k]? = some q := by
      rw [cluster?, hkept.clusters] at hq
      exact hq
    have hid : c'.id = c.id := hkept.id
    refine ⟨Cluster.find_id f hfound, ?_⟩
    rw [hid]
    exact Cluster.find_component f (List.mem_of_getElem? hfound)
  case tagged => exact htag
  case listed =>
    intro x
    rw [hsettled.mem_cohorts, hsettled.recorded_iff htag]
  case once => exact hsettled.cohorts_nodup
  case ranked => exact fun v x k hx => hsettled.rank_iff htag hx
  case full => exact hsettled.layered.full
  case ascending =>
    rw [hkept.representative? t]
    exact hcopy.rank_sorted hclustered hnum r hok

end Component

namespace Resolution

variable {E : Type} [Entity E] {t : Table E}

/-- Settling searches and ranks each component in its place, with the finder and the ranker that
those before it have left. -/
theorem settle_place {f : Cluster.Finder} {r : Cohort.Ranker} {cs cs' : List Component}
    (h : settle t f r cs = .ok cs') {k : CompId} {c' : Component} (hk : cs'[k]? = some c') :
    ∃ (c : Component) (f : Cluster.Finder) (r r' : Cohort.Ranker), cs[k]? = some c ∧
      r.rank (c.setClusters (f.find c t).1) t = (.ok (), c', r') := by
  induction cs generalizing f r cs' k with
  | nil =>
    obtain rfl := Except.ok.inj h
    simp at hk
  | cons c cs ih =>
    simp only [settle] at h
    split at h
    · cases h
    · rename_i first r' hrank
      split at h
      · cases h
      · rename_i rest hrest
        obtain rfl := Except.ok.inj h
        cases k with
        | zero =>
          obtain rfl := Option.some.inj hk
          exact ⟨c, f, r, r', rfl, hrank⟩
        | succ k => exact ih hrest hk

end Resolution

namespace Table

variable {E : Type} [Entity E] {t : Table E} {o : Options} {r : Resolution E}

theorem resolve_place (h : t.resolve o = .ok r) : ∃ t', t.build = (.ok (), t') ∧
    r.table = t'.split.2 ∧ ∀ k c', r.partition.component? k = some c' →
      ∃ (c : Component) (f : Cluster.Finder) (s s' : Cohort.Ranker),
        t'.split.1.component? k = some c ∧
        s.rank (c.setClusters (f.find c r.table).1) r.table = (.ok (), c', s') := by
  rw [resolve] at h
  split at h
  · cases h
  · rename_i t' hb
    split at h
    · cases h
    · dsimp only at h
      split at h
      · cases h
      · rename_i cs hsettle
        obtain rfl := Except.ok.inj h
        exact ⟨t', hb, rfl, fun k c' hk => Resolution.settle_place hsettle hk⟩

end Table

namespace Resolution

variable {E : Type} [Entity E] {calls : List (E × List E)} {o : Options} {r : Resolution E}
  {c : Component}

theorem component_id {t : Table E} (h : t.resolve o = .ok r) {k : CompId}
    (hk : r.partition.component? k = some c) : c.id = k := by
  obtain ⟨t, hb, _, hplace⟩ := Table.resolve_place h
  obtain ⟨b, f, s, s', hb', hok⟩ := hplace k c hk
  have hkept := Component.rank_kept s (b.setClusters (f.find b r.table).1) r.table
  rw [hok] at hkept
  have hid : c.id = b.id := hkept.id
  exact hid.trans (Table.split_id (Table.build_frozen hb).1 hb')

/-- In every component of a resolution the tags, the clusters, the ranks and the cohorts agree. -/
theorem components_consistent (h : (Table.ofCalls calls).resolve o = .ok r)
    (hc : c ∈ r.components) : c.Consistent r.table := by
  obtain ⟨t, hb, htable, hplace⟩ := Table.resolve_place h
  obtain ⟨k, hk⟩ := List.mem_iff_getElem?.mp hc
  obtain ⟨b, f, s, s', hb', hok⟩ := hplace k c hk
  have hbuilt := Table.build_built (Table.ofCalls_records calls) hb
  obtain ⟨hfaithful, hfresh⟩ := Table.split_ready hbuilt (List.mem_of_getElem? hb')
  rw [← htable] at hfaithful
  exact Component.rank_consistent f s hfaithful hfresh hok

/-- A pair that needs each other, in one component with an entity above it, and one alone. -/
theorem components_consistent_above_pair : ∃ r : Resolution Int,
    (Table.ofCalls [(3, [1]), (1, [2]), (2, [1]), (4, [])]).resolve {} = .ok r ∧
      ∃ c ∈ r.components, c.clusters ≠ [] ∧ c.Consistent r.table := by
  have htaken : Table.taken [((3 : Int), [1]), (1, [2]), (2, [1]), (4, [])] =
      [(3, [1]), (1, [2]), (2, [1]), (4, [])] := Table.taken_eq (by decide) (by decide)
  have hr := Table.ofCalls_records [((3 : Int), [1]), (1, [2]), (2, [1]), (4, [])]
  obtain ⟨r, hres⟩ := Table.resolve_default hr
  have hsound := Table.resolve_sound hr hres
  rw [htaken] at hsound
  have hup : DependsOn [((3 : Int), [1]), (1, [2]), (2, [1]), (4, [])] 1 2 :=
    ⟨⟨[2], by simp, by simp⟩, by decide⟩
  have hdown : DependsOn [((3 : Int), [1]), (1, [2]), (2, [1]), (4, [])] 2 1 :=
    ⟨⟨[1], by simp, by simp⟩, by decide⟩
  rcases hsound.lone_or_vertex hup.1.mentioned.1 with hlone | ⟨c, hc, v, hv⟩
  · exact absurd hup (hlone 2).1
  · have hset := hsound.settled c hc
    obtain ⟨k, hk, _⟩ := hset.faithful.exists_class hset.classes hv (by decide)
      ⟨.single hup, .single hdown⟩
    exact ⟨r, hres, c, hc, List.ne_nil_of_mem hk, components_consistent hres hc⟩

end Resolution

end DepGraph
