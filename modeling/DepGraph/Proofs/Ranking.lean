import DepGraph.Proofs.Collapsing
import DepGraph.Proofs.Waves

/-!
# Ranking a component

Both ways of ranking a component give its vertices the same kind of rank: equal inside a class of
vertices that lead to each other, and one above the highest link into the class from outside.
Neither touches the links.
-/

namespace DepGraph

/-- The part of a vertex that ranking and clustering leave alone. -/
def Vertex.shape (x : Vertex) : NodeId × List VertId × List VertId :=
  (x.node, x.ancestors, x.descendants)

namespace Component

variable {c c' : Component} {E : Type} [Entity E] {ds : List (E × List E)} {t : Table E}

structure SameGraph (c c' : Component) : Prop where
  size : c'.size = c.size
  roots : c'.roots = c.roots
  pinnacles : c'.pinnacles = c.pinnacles
  shape : ∀ v, (c'.vertex? v).map Vertex.shape = (c.vertex? v).map Vertex.shape

namespace SameGraph

theorem refl (c : Component) : SameGraph c c := ⟨rfl, rfl, rfl, fun _ => rfl⟩

theorem trans {c'' : Component} (h : SameGraph c c') (k : SameGraph c' c'') : SameGraph c c'' where
  size := k.size.trans h.size
  roots := k.roots.trans h.roots
  pinnacles := k.pinnacles.trans h.pinnacles
  shape v := (k.shape v).trans (h.shape v)

theorem symm (h : SameGraph c c') : SameGraph c' c :=
  ⟨h.size.symm, h.roots.symm, h.pinnacles.symm, fun v => (h.shape v).symm⟩

theorem reads {α : Type} (h : SameGraph c c') (f : NodeId × List VertId × List VertId → α)
    (v : VertId) :
    (c'.vertex? v).map (fun x => f x.shape) = (c.vertex? v).map (fun x => f x.shape) := by
  have hmap := congrArg (Option.map f) (h.shape v)
  rwa [Option.map_map, Option.map_map] at hmap

theorem descendants (h : SameGraph c c') : c'.descendants = c.descendants :=
  funext fun v => congrArg (·.getD []) (h.reads (·.2.2) v)

theorem ancestors (h : SameGraph c c') : c'.ancestors = c.ancestors :=
  funext fun v => congrArg (·.getD []) (h.reads (·.2.1) v)

theorem entity? (h : SameGraph c c') (t : Table E) (v : VertId) :
    c'.entity? t v = c.entity? t v := by
  have hread (x : Component) : x.entity? t v =
      ((x.vertex? v).map Vertex.shape).bind fun s => t.entity? s.1 := by
    rw [Option.bind_map]
    rfl
  rw [hread, hread, h.shape]

theorem faithful (h : SameGraph c c') {t' : Table E} (ht : ∀ i, t'.entity? i = t.entity? i)
    (hf : c.Faithful ds t) : c'.Faithful ds t' := by
  have hent : c'.entity? t' = c.entity? t := by
    funext v
    rw [h.entity? t' v]
    simp only [Component.entity?, ht]
  constructor
  all_goals simp only [h.size, h.roots, h.pinnacles, h.descendants, h.ancestors, hent]
  · exact hf.inhabited
  · exact hf.entity
  · exact hf.injective
  · exact hf.ancestors
  · exact hf.descendants
  · exact hf.closed
  · exact hf.linked
  · exact hf.roots
  · exact hf.pinnacles
  · exact hf.rootsNodup
  · exact hf.pinnaclesNodup

end SameGraph

theorem lt_of_mem_descendants {v w : VertId} (h : w ∈ c.descendants v) : v < c.size := by
  cases hv : c.vertex? v with
  | none => simp [Component.descendants, hv] at h
  | some x => exact (Array.getElem?_eq_some_iff.mp hv).1

def rankAt (c : Component) (v : VertId) : Nat := ((c.vertex? v).map (·.rank)).getD 0

/-- A class of vertices that lead to each other shares its rank, which is zero, or one above some
vertex outside that links into the class; and every such vertex ranks lower. -/
structure Ranked (c : Component) : Prop where
  same : ∀ v w, v < c.size → Leads c.descendants v w → Leads c.descendants w v →
    c.rankAt v = c.rankAt w
  above : ∀ v, ∀ w ∈ c.descendants v, ¬ Leads c.descendants w v → c.rankAt v < c.rankAt w
  attained : ∀ w < c.size, c.rankAt w = 0 ∨ ∃ v u, Leads c.descendants w u ∧
    Leads c.descendants u w ∧ u ∈ c.descendants v ∧ ¬ Leads c.descendants u v ∧
    c.rankAt w = c.rankAt v + 1

end Component

namespace Cohort.Ranker

open Component Collapsed

variable {c : Component} {E : Type} [Entity E]

def mark (r : Ranker) (group : Group × Nat) (vert : Vertex) : Vertex :=
  { vert with rank := r.rankAt group.2 }

def writeRanks (c : Component) (r : Ranker) : Array Vertex :=
  (groupsOf c).zipIdx.foldl (fun verts group =>
    group.1.members.foldl (fun verts v => verts.modify v (r.mark group)) verts) c.verts

theorem writeRanks_sameGraph (c : Component) (r : Ranker) (cohorts : List (List Rankee)) :
    SameGraph c { c with verts := writeRanks c r, cohorts } where
  size := Writes.each_size r.mark (·.1.members) _ c.verts
  roots := rfl
  pinnacles := rfl
  shape v := Writes.each_reads r.mark (·.1.members) _ Vertex.shape (fun _ _ => rfl) c.verts v

theorem writeRanks_rankAt (h : Parted c) (r : Ranker) (cohorts : List (List Rankee)) {i v : Nat}
    (hv : Stands c i v) :
    ({ c with verts := writeRanks c r, cohorts } : Component).rankAt v = r.rankAt i := by
  have hlt : v < c.verts.size := (exists_stands h).mpr ⟨i, hv⟩
  obtain ⟨g, hg, hvg⟩ := hv
  have hmem : (g, i) ∈ (groupsOf c).zipIdx := List.mem_zipIdx_iff_getElem?.mpr hg
  have hat := Writes.each_at r.mark c.verts (keys_nodup h) hmem hvg
  have hvert : ({ c with verts := writeRanks c r, cohorts } : Component).vertex? v =
      (c.verts[v]?).map (r.mark (g, i)) := hat
  simp [Component.rankAt, hvert, hlt, mark]

/-- Ranks of groups that are right for the links between groups are right for the component. -/
theorem writeRanks_ranked (h : Clustered c) (r : Ranker) (cohorts : List (List Rankee))
    (hr : Ranks (ofComponent c).next (ofComponent c).size r.rankAt) :
    ({ c with verts := writeRanks c r, cohorts } : Component).Ranked := by
  have hsame := writeRanks_sameGraph c r cohorts
  have hrank {i v : Nat} (hv : Stands c i v) := writeRanks_rankAt h.parted r cohorts hv
  have hgroup {v : Nat} (hv : v < c.size) := (exists_stands h.parted).mp hv
  constructor
  all_goals simp only [hsame.size, hsame.descendants]
  · intro v w hv hvw hwv
    obtain ⟨i, hi⟩ := hgroup hv
    rw [hrank hi, hrank ((stands_together h hi).mpr ⟨hvw, hwv⟩)]
  · intro v w hw hnot
    obtain ⟨i, hi⟩ := hgroup (lt_of_mem_descendants hw)
    obtain ⟨j, hj⟩ := hgroup (h.bound v w hw)
    have hij : j ≠ i := by
      rintro rfl
      exact hnot ((stands_together h hj).mp hi).1
    rw [hrank hi, hrank hj]
    refine hr.above i ?_ j ((mem_next h.parted).mpr ⟨hij, v, w, hi, hj, hw⟩)
    rw [size_ofComponent]
    exact hi.lt
  · intro w hw
    obtain ⟨j, hj⟩ := hgroup hw
    have hjn : j < (ofComponent c).size := by
      rw [size_ofComponent]
      exact hj.lt
    rw [hrank hj]
    rcases hr.attained j hjn with hzero | ⟨i, _, hij, hrise⟩
    · exact Or.inl hzero
    · obtain ⟨hne, v, u, hv, hu, huv⟩ := (mem_next h.parted).mp hij
      obtain ⟨hwu, huw⟩ := (stands_together h hj).mp hu
      refine Or.inr ⟨v, u, hwu, huw, huv, ?_, by rw [hrank hv]; exact hrise⟩
      intro hback
      exact hne (((stands_together h hv).mpr ⟨.single huv, hback⟩).unique h.parted hu).symm

def rankees (c : Component) (t : Table E) (wave : List Nat) : List Rankee :=
  Entity.sortBy (c.representative? t)
    (wave.filterMap fun g => ((ofComponent c).groups[g]?).map (·.rankee))

def written (c : Component) (t : Table E) (s : Ranking) : Component :=
  { c with verts := writeRanks c s.ranker, cohorts := s.cohorts.map (rankees c t) }

theorem rankByWaves_eq (r : Ranker) (c : Component) (t : Table E) : r.rankByWaves c t =
    if (r.run (ofComponent c)).ranked < (ofComponent c).size then
      (.error (.incompleteRanking c.id (r.run (ofComponent c)).ranked (ofComponent c).size), c,
        (r.run (ofComponent c)).ranker)
    else (.ok (), written c t (r.run (ofComponent c)), (r.run (ofComponent c)).ranker) := rfl

theorem rankByWaves_ok (r : Ranker) (t : Table E) (h : Clustered c) : ∃ s : Ranking,
    r.rankByWaves c t = (.ok (), written c t s, s.ranker) ∧
    Ranks (ofComponent c).next (ofComponent c).size s.ranker.rankAt ∧
    Levels (ofComponent c).size s.ranker.rankAt s.cohorts := by
  obtain ⟨hall, hranks, hlevels⟩ := Ranking.run_levels r (size_descendants c)
    (fun _ _ hj => next_lt h.parted hj) (next_nodup c) (acyclic h)
  refine ⟨_, ?_, hranks, hlevels⟩
  rw [rankByWaves_eq, hall, if_neg (Nat.lt_irrefl _)]

theorem rankByWaves_ranked (r : Ranker) (t : Table E) (h : Clustered c) :
    ∃ c' r', r.rankByWaves c t = (.ok (), c', r') ∧ SameGraph c c' ∧ c'.clusters = c.clusters ∧
      c'.Ranked := by
  obtain ⟨s, hok, hranks, _⟩ := rankByWaves_ok r t h
  exact ⟨_, _, hok, writeRanks_sameGraph c s.ranker _, rfl, writeRanks_ranked h s.ranker _ hranks⟩

end Cohort.Ranker

namespace Component

variable {c : Component} {E : Type} [Entity E] {ds : List (E × List E)} {t : Table E}

section TwoLevel

theorem Faithful.not_pinnacle_of_root (h : c.Faithful ds t) {v : VertId} (hv : v ∈ c.roots) :
    v ∉ c.pinnacles := by
  intro hp
  obtain ⟨hlt, hanc⟩ := (h.roots v).mp hv
  rcases h.linked v hlt with hne | hne
  · exact hne hanc
  · exact hne ((h.pinnacles v).mp hp).2

theorem Faithful.levels_nodup (h : c.Faithful ds t) : (c.roots ++ c.pinnacles).Nodup := by
  refine List.nodup_append.mpr ⟨h.rootsNodup, h.pinnaclesNodup, ?_⟩
  rintro a ha b hb rfl
  exact h.not_pinnacle_of_root ha hb

/-- Roots and pinnacles are apart, so when their counts add up to the size they are everything. -/
theorem Faithful.root_or_pinnacle (h : c.Faithful ds t) (h2 : c.isTwoLevel = true) {v : VertId}
    (hv : v < c.size) : v ∈ c.roots ∨ v ∈ c.pinnacles := by
  have hsub : c.roots ++ c.pinnacles ⊆ List.range c.size := by
    intro a ha
    rw [List.mem_range]
    rcases List.mem_append.mp ha with ha | ha
    · exact ((h.roots a).mp ha).1
    · exact ((h.pinnacles a).mp ha).1
  have hlen : (List.range c.size).length ≤ (c.roots ++ c.pinnacles).length := by
    rw [isTwoLevel, beq_iff_eq] at h2
    rw [List.length_range, List.length_append, ← h2]
  have hperm := (h.levels_nodup.subperm hsub).perm_of_length_le hlen
  exact List.mem_append.mp (hperm.mem_iff.mpr (List.mem_range.mpr hv))

theorem Faithful.lt_of_link (h : c.Faithful ds t) {v w : VertId} (hw : w ∈ c.descendants v) :
    w < c.size := by
  obtain ⟨_, _, _, hd, _⟩ := (h.drawn.link v w).mp hw
  exact lt_of_entity? hd

theorem Faithful.link_levels (h : c.Faithful ds t) (h2 : c.isTwoLevel = true) {v w : VertId}
    (hw : w ∈ c.descendants v) : v ∈ c.roots ∧ v ∉ c.pinnacles ∧ w ∈ c.pinnacles := by
  have hv : v ∉ c.pinnacles := by
    intro hp
    rw [((h.pinnacles v).mp hp).2] at hw
    cases hw
  have hr : w ∉ c.roots := by
    intro hr
    have hanc := (h.descendants v w).mp hw
    rw [((h.roots w).mp hr).2] at hanc
    cases hanc
  exact ⟨(h.root_or_pinnacle h2 (lt_of_mem_descendants hw)).resolve_right hv, hv,
    (h.root_or_pinnacle h2 (h.lt_of_link hw)).resolve_left hr⟩

theorem Faithful.leads_pinnacle (h : c.Faithful ds t) {v w : VertId} (hv : v ∈ c.pinnacles)
    (hl : Leads c.descendants v w) : v = w := by
  rcases Relation.ReflTransGen.cases_head hl with rfl | ⟨u, hu, _⟩
  · rfl
  · rw [((h.pinnacles v).mp hv).2] at hu
    cases hu

theorem Faithful.twoLevel_antisymm (h : c.Faithful ds t) (h2 : c.isTwoLevel = true) {v w : VertId}
    (hvw : Leads c.descendants v w) (hwv : Leads c.descendants w v) : v = w := by
  rcases Relation.ReflTransGen.cases_tail hvw with rfl | ⟨u, _, hu⟩
  · rfl
  · exact (h.leads_pinnacle (h.link_levels h2 hu).2.2 hwv).symm

theorem Faithful.twoLevel_classes (h : c.Faithful ds t) (h2 : c.isTwoLevel = true) :
    MutualClasses c.descendants [] :=
  ⟨by simp, by simp, by simp,
    fun _ _ hne hab hba => absurd (h.twoLevel_antisymm h2 hab hba) hne, List.Pairwise.nil⟩

def lift (vert : Vertex) : Vertex := { vert with rank := 1 }

theorem rankTwoLevels_verts (c : Component) (t : Table E) : (Cohort.rankTwoLevels c t).verts =
    (c.pinnacles.map (·, ())).foldl (fun verts p => verts.modify p.1 lift) c.verts := by
  rw [List.foldl_map]
  rfl

theorem rankTwoLevels_sameGraph (c : Component) (t : Table E) :
    SameGraph c (Cohort.rankTwoLevels c t) where
  size := by
    rw [size, rankTwoLevels_verts]
    exact Writes.size_modify (f := fun _ => lift) c.verts
  roots := rfl
  pinnacles := rfl
  shape v := by
    rw [vertex?, rankTwoLevels_verts]
    exact Writes.modify_reads (f := fun _ => lift) Vertex.shape (fun _ _ => rfl) c.verts v

theorem rankTwoLevels_pinnacle (h : c.Faithful ds t) {v : VertId} (hv : v ∈ c.pinnacles) :
    (Cohort.rankTwoLevels c t).rankAt v = 1 := by
  have hlt : v < c.verts.size := ((h.pinnacles v).mp hv).1
  have hkeys : ((c.pinnacles.map (·, ())).map (·.1)).Nodup := by
    simpa [Function.comp_def] using h.pinnaclesNodup
  have hmem : (v, ()) ∈ c.pinnacles.map (·, ()) := List.mem_map_of_mem hv
  have hvert : (Cohort.rankTwoLevels c t).vertex? v = (c.verts[v]?).map lift := by
    rw [vertex?, rankTwoLevels_verts]
    exact Writes.modify_at (f := fun _ => lift) c.verts hkeys hmem
  simp [rankAt, hvert, hlt, lift]

theorem rankTwoLevels_other (t : Table E) {v : VertId} (hv : v ∉ c.pinnacles) :
    (Cohort.rankTwoLevels c t).rankAt v = c.rankAt v := by
  have hvert : (Cohort.rankTwoLevels c t).vertex? v = c.vertex? v := by
    rw [vertex?, rankTwoLevels_verts]
    refine Writes.modify_elsewhere (f := fun _ => lift) c.verts ?_
    simp only [List.mem_map]
    rintro _ ⟨w, hw, rfl⟩ rfl
    exact hv hw
  rw [rankAt, rankAt, hvert]

theorem rankTwoLevels_rankAt (h : c.Faithful ds t) (hlow : ∀ v, v ∉ c.pinnacles → c.rankAt v = 0)
    (v : VertId) :
    (Cohort.rankTwoLevels c t).rankAt v = if v ∈ c.pinnacles then 1 else 0 := by
  by_cases hv : v ∈ c.pinnacles
  · rw [if_pos hv, rankTwoLevels_pinnacle h hv]
  · rw [if_neg hv, rankTwoLevels_other t hv, hlow v hv]

theorem rankTwoLevels_ranked (h : c.Faithful ds t) (h2 : c.isTwoLevel = true)
    (hlow : ∀ v, v ∉ c.pinnacles → c.rankAt v = 0) : (Cohort.rankTwoLevels c t).Ranked := by
  have hsame := rankTwoLevels_sameGraph c t
  have hrank := rankTwoLevels_rankAt h hlow
  constructor
  all_goals simp only [hsame.size, hsame.descendants]
  · intro v w _ hvw hwv
    rw [h.twoLevel_antisymm h2 hvw hwv]
  · intro v w hw _
    obtain ⟨_, hv, hwp⟩ := h.link_levels h2 hw
    rw [hrank, hrank, if_neg hv, if_pos hwp]
    exact Nat.one_pos
  · intro w hw
    by_cases hwp : w ∈ c.pinnacles
    · have hanc : c.ancestors w ≠ [] := (h.linked w hw).resolve_right fun hne =>
        hne ((h.pinnacles w).mp hwp).2
      obtain ⟨v, hv⟩ := List.exists_mem_of_ne_nil _ hanc
      have hlink := (h.descendants v w).mpr hv
      refine Or.inr ⟨v, w, .refl, .refl, hlink, ?_, ?_⟩
      · intro hback
        obtain rfl := h.leads_pinnacle hwp hback
        exact h.drawn.irreflexive w hlink
      · rw [hrank, hrank, if_pos hwp, if_neg (h.link_levels h2 hlink).2.1]
    · left
      rw [hrank, if_neg hwp]

end TwoLevel

/-- Ranking never fails on a component whose clusters are its classes. Two levels are told apart
by what is written on the upper one, so the lower one has to be at zero already. -/
theorem rank_ranked (r : Cohort.Ranker) (h : c.Faithful ds t) (hc : Collapsed.Clustered c)
    (hlow : c.isTwoLevel = true → ∀ v, v ∉ c.pinnacles → c.rankAt v = 0) :
    ∃ c' r', r.rank c t = (.ok (), c', r') ∧ SameGraph c c' ∧ c'.clusters = c.clusters ∧
      c'.Ranked := by
  rw [Cohort.Ranker.rank]
  split
  · rename_i h2
    exact ⟨_, _, rfl, rankTwoLevels_sameGraph c t, rfl, rankTwoLevels_ranked h h2 (hlow h2)⟩
  · exact r.rankByWaves_ranked t hc

end Component

end DepGraph
