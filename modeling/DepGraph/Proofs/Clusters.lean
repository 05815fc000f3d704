import DepGraph.Proofs.Layers

/-!
# Listing and recording clusters

What a search finds is put in order before it is recorded: members by entity, clusters by their
first member. Neither sort changes which vertices stand together.
-/

namespace DepGraph

namespace Cluster

variable {c : Component} {E : Type} [Entity E] {ds : List (E × List E)} {t : Table E}

theorem members_number (c : Component) (t : Table E) (found : List (List VertId)) :
    ((number c t found).map (·.members)).Perm (found.map (Entity.sortBy (c.entity? t))) := by
  have hmembers : (number c t found).map (·.members) =
      Entity.sortBy (fun members => members.head?.bind (c.entity? t))
        (found.map (Entity.sortBy (c.entity? t))) := by
    rw [number, List.map_map]
    exact List.zipIdx_map_fst _ _
  rw [hmembers]
  exact Entity.sortBy_perm _ _

theorem number_classes {found : List (List VertId)} (h : MutualClasses c.descendants found) :
    MutualClasses c.descendants ((number c t found).map (·.members)) :=
  (h.reorder fun ms => Entity.sortBy_perm (c.entity? t) ms).perm (members_number c t found)

theorem number_ascending (h : c.Faithful ds t) {found : List (List VertId)}
    (hn : ∀ ms ∈ found, ms.Nodup) {k : Cluster} (hk : k ∈ number c t found) :
    Entity.Ascending (c.entities t k.members) := by
  have hmem := (members_number c t found).mem_iff.mp (List.mem_map_of_mem hk)
  obtain ⟨ms, hms, hsorted⟩ := List.mem_map.mp hmem
  rw [← hsorted]
  refine Entity.ascending_sortBy ((hn ms hms).filterMap ?_)
  intro v w e hv hw
  exact h.injective v w e hv hw

theorem find_classes (f : Finder) (h : c.Faithful ds t) :
    MutualClasses c.descendants ((f.find c t).1.map (·.members)) ∧
      ∀ k ∈ (f.find c t).1, Entity.Ascending (c.entities t k.members) := by
  rw [Finder.find]
  split
  · rename_i h2
    exact ⟨h.twoLevel_classes h2, by simp⟩
  · have hfound := f.explore_classes c fun _ _ hu => h.lt_of_link hu
    exact ⟨number_classes hfound, fun k hk => number_ascending h hfound.nodup hk⟩

theorem number_id {found : List (List VertId)} {i : Nat} {k : Cluster}
    (hk : (number c t found)[i]? = some k) : k.id = i := by
  rw [number, List.getElem?_map] at hk
  obtain ⟨⟨ms, j⟩, hj, rfl⟩ := Option.map_eq_some_iff.mp hk
  rw [List.getElem?_zipIdx] at hj
  obtain ⟨_, _, heq⟩ := Option.map_eq_some_iff.mp hj
  have hidx := congrArg Prod.snd heq
  simpa using hidx.symm

theorem find_id (f : Finder) {i : Nat} {k : Cluster} (hk : (f.find c t).1[i]? = some k) :
    k.id = i := by
  rw [Finder.find] at hk
  split at hk
  · simp at hk
  · exact number_id hk

end Cluster

namespace Component

variable {c : Component} {E : Type} [Entity E] {ds : List (E × List E)} {t : Table E}

theorem mem_entities {vs : List VertId} {e : E} :
    e ∈ c.entities t vs ↔ ∃ v ∈ vs, c.entity? t v = some e := List.mem_filterMap

section Classes

variable {ks : List Cluster}

theorem Faithful.mem_class_iff (h : c.Faithful ds t)
    (hc : MutualClasses c.descendants (ks.map (·.members))) {k : Cluster} (hk : k ∈ ks) {a b : E}
    (ha : a ∈ c.entities t k.members) : b ∈ c.entities t k.members ↔ Mutual ds a b := by
  obtain ⟨v, hv, hva⟩ := mem_entities.mp ha
  have htogether := hc.together _ (List.mem_map_of_mem hk) v hv
  constructor
  · intro hb
    obtain ⟨w, hw, hwb⟩ := mem_entities.mp hb
    exact (h.drawn.mutual_iff hva hwb).mpr ((htogether w).mp hw)
  · intro hmut
    obtain ⟨w, hw, _⟩ := h.drawn.reaches_named hva hmut.2
    exact mem_entities.mpr ⟨w, (htogether w).mpr ((h.drawn.mutual_iff hva hw).mp hmut), hw⟩

theorem Faithful.exists_class (h : c.Faithful ds t)
    (hc : MutualClasses c.descendants (ks.map (·.members))) {v : VertId} {a b : E}
    (hv : c.entity? t v = some a) (hne : a ≠ b) (hmut : Mutual ds a b) :
    ∃ k ∈ ks, a ∈ c.entities t k.members := by
  obtain ⟨w, hw, _⟩ := h.drawn.reaches_named hv hmut.2
  have hvw : v ≠ w := by
    rintro rfl
    exact hne (Option.some.inj (hv.symm.trans hw))
  obtain ⟨hlead, hback⟩ := (h.drawn.mutual_iff hv hw).mp hmut
  obtain ⟨ms, hms, hvm⟩ := hc.all v w hvw hlead hback
  obtain ⟨k, hk, rfl⟩ := List.mem_map.mp hms
  exact ⟨k, hk, mem_entities.mpr ⟨v, hvm, hv⟩⟩

theorem Faithful.class_named (h : c.Faithful ds t)
    (hc : MutualClasses c.descendants (ks.map (·.members))) {k : Cluster} (hk : k ∈ ks)
    {v : VertId} (hv : v ∈ k.members) : ∃ e, c.entity? t v = some e :=
  h.entity v (hc.lt (fun _ _ hu => h.lt_of_link hu) (List.mem_map_of_mem hk) hv)

theorem Faithful.class_pair (h : c.Faithful ds t)
    (hc : MutualClasses c.descendants (ks.map (·.members))) {k : Cluster} (hk : k ∈ ks) :
    ∃ a b, a ≠ b ∧ a ∈ c.entities t k.members ∧ b ∈ c.entities t k.members := by
  have hmem := List.mem_map_of_mem (f := (·.members)) hk
  obtain ⟨v, hv, _⟩ := hc.other hmem 0
  obtain ⟨w, hw, hne⟩ := hc.other hmem v
  obtain ⟨a, ha⟩ := h.class_named hc hk hv
  obtain ⟨b, hb⟩ := h.class_named hc hk hw
  refine ⟨a, b, ?_, mem_entities.mpr ⟨v, hv, ha⟩, mem_entities.mpr ⟨w, hw, hb⟩⟩
  rintro rfl
  exact hne (h.injective w v a hb ha)

end Classes

/-- Nothing has been found out about the component yet. -/
def Fresh (c : Component) : Prop :=
  ∀ v vert, c.vertex? v = some vert → vert.rank = 0 ∧ vert.cluster = none

theorem Fresh.rankAt (h : c.Fresh) (v : VertId) : c.rankAt v = 0 := by
  rw [Component.rankAt]
  cases hv : c.vertex? v with
  | none => rfl
  | some vert => exact (h v vert hv).1

def join (k : Cluster) (vert : Vertex) : Vertex := { vert with cluster := some k.id }

theorem setClusters_sameGraph (c : Component) (clusters : List Cluster) :
    SameGraph c (c.setClusters clusters) where
  size := Writes.each_size join (·.members) clusters c.verts
  roots := rfl
  pinnacles := rfl
  shape v := Writes.each_reads join (·.members) clusters Vertex.shape (fun _ _ => rfl) c.verts v

theorem setClusters_rankAt (c : Component) (clusters : List Cluster) (v : VertId) :
    (c.setClusters clusters).rankAt v = c.rankAt v :=
  congrArg (·.getD 0)
    (Writes.each_reads join (·.members) clusters (·.rank) (fun _ _ => rfl) c.verts v)

theorem setClusters_marked (hf : c.Fresh) {clusters : List Cluster}
    (hn : (clusters.flatMap (·.members)).Nodup) {v : VertId} {vert : Vertex}
    (hv : (c.setClusters clusters).vertex? v = some vert) :
    vert.cluster.isNone = true ↔ ∀ k ∈ clusters, v ∉ k.members := by
  by_cases hin : ∃ k ∈ clusters, v ∈ k.members
  · obtain ⟨k, hk, hvk⟩ := hin
    have hat : (c.setClusters clusters).vertex? v = (c.vertex? v).map (join k) :=
      Writes.each_at join c.verts hn hk hvk
    rw [hat] at hv
    obtain ⟨old, _, rfl⟩ := Option.map_eq_some_iff.mp hv
    exact iff_of_false (by simp [join]) fun hall => hall k hk hvk
  · push Not at hin
    have helse : (c.setClusters clusters).vertex? v = c.vertex? v :=
      Writes.each_elsewhere join (·.members) c.verts hin
    rw [helse] at hv
    exact iff_of_true (by rw [(hf v vert hv).2]; rfl) hin

theorem setClusters_clustered (h : c.Faithful ds t) (hf : c.Fresh) {clusters : List Cluster}
    (hc : MutualClasses c.descendants (clusters.map (·.members))) :
    Collapsed.Clustered (c.setClusters clusters) := by
  have hsame := setClusters_sameGraph c clusters
  have hn : (clusters.flatMap (·.members)).Nodup := by
    rw [List.flatMap_def]
    exact hc.flatten_nodup
  refine ⟨?_, ?_, fun v vert hv => setClusters_marked hf hn hv⟩
  · rw [hsame.descendants, hsame.size]
    exact fun v u hu => h.lt_of_link hu
  · rw [hsame.descendants]
    exact hc

/-- Clusters, ranks and cohorts are on the component, and all are right. -/
structure Settled (ds : List (E × List E)) (t : Table E) (c : Component) : Prop where
  faithful : c.Faithful ds t
  classes : MutualClasses c.descendants (c.clusters.map (·.members))
  ascending : ∀ k ∈ c.clusters, Entity.Ascending (c.entities t k.members)
  ranked : c.Ranked
  layered : c.Layered

theorem rank_settled (f : Cluster.Finder) (r : Cohort.Ranker) (h : c.Faithful ds t)
    (hf : c.Fresh) : ∃ c' r', r.rank (c.setClusters (f.find c t).1) t = (.ok (), c', r') ∧
      SameGraph c c' ∧ Settled ds t c' := by
  obtain ⟨hclasses, hasc⟩ := Cluster.find_classes f h
  have hset := setClusters_sameGraph c (f.find c t).1
  have hcopy := hset.faithful (fun _ => rfl) h
  have hclustered := setClusters_clustered h hf hclasses
  have hzero (v : VertId) : (c.setClusters (f.find c t).1).rankAt v = 0 := by
    rw [setClusters_rankAt, hf.rankAt]
  obtain ⟨c', r', hok, hsame, hclusters, hranked⟩ :=
    rank_ranked r hcopy hclustered fun _ v _ => hzero v
  have hlayered := rank_layered r hcopy hclustered (fun i k hk => Cluster.find_id f hk) hzero hok
  have hall := hset.trans hsame
  refine ⟨c', r', hok, hall, hall.faithful (fun _ => rfl) h, ?_, ?_, hranked, hlayered⟩
  · rw [hclusters, hall.descendants]
    exact hclasses
  · rw [hclusters]
    intro k hk
    have hent : c'.entity? t = c.entity? t := funext (hall.entity? t)
    rw [entities, hent]
    exact hasc k hk

end Component

end DepGraph
