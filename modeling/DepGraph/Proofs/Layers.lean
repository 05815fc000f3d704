import DepGraph.Proofs.Ranking

/-!
# The cohorts of a component

A component records its cohorts as well as its ranks, and the two say the same: cohort `k` lists
what is ranked `k`, a cluster once for all its members, and no cohort is empty.
-/

namespace DepGraph

open Collapsed

theorem mem_getD_nil {α : Type} {xss : List (List α)} {k : Nat} {x : α} :
    x ∈ xss.getD k [] ↔ ∃ xs, xss[k]? = some xs ∧ x ∈ xs := by
  rw [List.getD_eq_getElem?_getD]
  cases xss[k]? <;> simp

namespace Component

variable {c c' : Component} {x y : Rankee} {v : VertId}

def Numbered (c : Component) : Prop := ∀ i k, c.cluster? i = some k → k.id = i

def Holds (c : Component) : Rankee → VertId → Prop
  | .vertex w, v => v = w ∧ v < c.size ∧ ∀ k ∈ c.clusters, v ∉ k.members
  | .cluster i, v => ∃ k, c.cluster? i = some k ∧ v ∈ k.members

theorem holds_congr (hs : c'.size = c.size) (hc : c'.clusters = c.clusters) :
    c'.Holds = c.Holds := by
  funext x v
  cases x with
  | vertex w => simp only [Holds, hs, hc]
  | cluster i => simp only [Holds, cluster?, hc]

theorem exists_holds (hv : v < c.size) : ∃ x, c.Holds x v := by
  by_cases hin : ∃ k ∈ c.clusters, v ∈ k.members
  · obtain ⟨k, hk, hvk⟩ := hin
    obtain ⟨i, hi⟩ := List.mem_iff_getElem?.mp hk
    exact ⟨.cluster i, k, hi, hvk⟩
  · push Not at hin
    exact ⟨.vertex v, rfl, hv, hin⟩

theorem Holds.lt (h : MutualClasses c.descendants (c.clusters.map (·.members)))
    (hbound : ∀ w, ∀ u ∈ c.descendants w, u < c.size) (hx : c.Holds x v) : v < c.size := by
  cases x with
  | vertex w => exact hx.2.1
  | cluster i =>
    obtain ⟨k, hk, hv⟩ := hx
    exact h.lt hbound (List.mem_map_of_mem (List.mem_of_getElem? hk)) hv

theorem Holds.unique (h : MutualClasses c.descendants (c.clusters.map (·.members)))
    (hx : c.Holds x v) (hy : c.Holds y v) : x = y := by
  have hpart {i : ClusterId} {k : Cluster} (hi : c.cluster? i = some k) :
      (c.clusters.map (·.members))[i]? = some k.members := by
    rw [List.getElem?_map]
    exact congrArg (Option.map _) hi
  cases x with
  | vertex a =>
    cases y with
    | vertex b => rw [← hx.1, hy.1]
    | cluster j =>
      obtain ⟨k, hk, hv⟩ := hy
      exact absurd hv (hx.2.2 k (List.mem_of_getElem? hk))
  | cluster i =>
    obtain ⟨k, hk, hv⟩ := hx
    cases y with
    | vertex b => exact absurd hv (hy.2.2 k (List.mem_of_getElem? hk))
    | cluster j =>
      obtain ⟨l, hl, hw⟩ := hy
      rw [Split.group_unique h.flatten_nodup (hpart hk) (hpart hl) hv hw]

structure Layered (c : Component) : Prop where
  mem : ∀ k x, x ∈ c.cohorts.getD k [] ↔ ∃ v, c.Holds x v ∧ c.rankAt v = k
  nodup : ∀ xs ∈ c.cohorts, xs.Nodup
  full : ∀ xs ∈ c.cohorts, xs ≠ []

end Component

namespace Cohort.Ranker

open Component

variable {c : Component} {g : Group} {i : Nat} {E : Type} [Entity E]

theorem holds_rankee (h : Clustered c) (hn : c.Numbered) (hg : g ∈ groupsOf c) (v : VertId) :
    c.Holds g.rankee v ↔ v ∈ g.members := by
  rcases mem_groupsOf.mp hg with ⟨k, hk, rfl⟩ | ⟨w, hw, rfl⟩
  · obtain ⟨i, hi⟩ := List.mem_iff_getElem?.mp hk
    have hid : c.cluster? k.id = some k := by
      rw [hn i k hi]
      exact hi
    simp [Holds, hid]
  · obtain ⟨hlt, hout⟩ := (mem_singles h).mp hw
    rw [Holds, List.mem_singleton]
    constructor
    · exact fun hv => hv.1
    · rintro rfl
      exact ⟨rfl, hlt, hout⟩

theorem exists_member (h : Clustered c) (hg : g ∈ groupsOf c) : ∃ v, v ∈ g.members := by
  rcases mem_groupsOf.mp hg with ⟨k, hk, rfl⟩ | ⟨w, hw, rfl⟩
  · obtain ⟨v, hv, _⟩ := h.classes.other (List.mem_map_of_mem hk) 0
    exact ⟨v, hv⟩
  · exact ⟨w, List.mem_singleton.mpr rfl⟩

theorem mem_rankees {t : Table E} {wave : List Nat} {x : Rankee} :
    x ∈ rankees c t wave ↔ ∃ i ∈ wave, ∃ g, (groupsOf c)[i]? = some g ∧ g.rankee = x := by
  rw [rankees, (Entity.sortBy_perm _ _).mem_iff]
  simp [ofComponent]

theorem getD_rankees (t : Table E) (waves : List (List Nat)) (k : Nat) :
    (waves.map (rankees c t)).getD k [] = rankees c t (waves.getD k []) := by
  have hnil : rankees c t [] = [] := by simp [rankees, Entity.sortBy]
  rw [List.getD_eq_getElem?_getD, List.getElem?_map, List.getD_eq_getElem?_getD,
    ← Option.getD_map (rankees c t), hnil]

theorem exists_group (h : Clustered c) (hn : c.Numbered) {x : Rankee} {v : VertId}
    (hx : c.Holds x v) :
    ∃ (i : Nat) (g : Group), (groupsOf c)[i]? = some g ∧ g.rankee = x ∧ v ∈ g.members := by
  obtain ⟨i, g, hg, hv⟩ := (exists_stands h.parted).mp (hx.lt h.classes h.bound)
  have hholds := (holds_rankee h hn (List.mem_of_getElem? hg) v).mpr hv
  exact ⟨i, g, hg, Holds.unique h.classes hholds hx, hv⟩

theorem rankees_nodup (h : Clustered c) (hn : c.Numbered) (t : Table E) {wave : List Nat}
    (hw : wave.Nodup) : (rankees c t wave).Nodup := by
  rw [rankees, (Entity.sortBy_perm _ _).nodup_iff]
  apply hw.filterMap
  intro i j x hi hj
  obtain ⟨g, hg, rfl⟩ := Option.map_eq_some_iff.mp hi
  obtain ⟨l, hl, hlg⟩ := Option.map_eq_some_iff.mp hj
  have hg' : (groupsOf c)[i]? = some g := by simpa [ofComponent] using hg
  have hl' : (groupsOf c)[j]? = some l := by simpa [ofComponent] using hl
  obtain ⟨v, hv⟩ := exists_member h (List.mem_of_getElem? hg')
  have hvl : v ∈ l.members := by
    rw [← holds_rankee h hn (List.mem_of_getElem? hl'), hlg,
      holds_rankee h hn (List.mem_of_getElem? hg')]
    exact hv
  exact Stands.unique h.parted ⟨g, hg', hv⟩ ⟨l, hl', hvl⟩

section Waves

variable {s : Ranking} {t : Table E}

theorem mem_rankees_iff (h : Clustered c) (hn : c.Numbered)
    (hl : Levels (ofComponent c).size s.ranker.rankAt s.cohorts) {k : Nat} {x : Rankee} :
    x ∈ rankees c t (s.cohorts.getD k []) ↔
      ∃ v, c.Holds x v ∧ (written c t s).rankAt v = k := by
  rw [written]
  rw [mem_rankees]
  constructor
  · intro hx
    obtain ⟨i, hi, g, hg, rfl⟩ := hx
    obtain ⟨v, hv⟩ := exists_member h (List.mem_of_getElem? hg)
    refine ⟨v, (holds_rankee h hn (List.mem_of_getElem? hg) v).mpr hv, ?_⟩
    rw [writeRanks_rankAt h.parted s.ranker _ ⟨g, hg, hv⟩]
    exact ((hl.mem k i).mp hi).2
  · intro hx
    obtain ⟨v, hx, hk⟩ := hx
    obtain ⟨i, g, hg, rfl, hv⟩ := exists_group h hn hx
    rw [writeRanks_rankAt h.parted s.ranker _ ⟨g, hg, hv⟩] at hk
    refine ⟨i, (hl.mem k i).mpr ⟨?_, hk⟩, g, hg, rfl⟩
    rw [size_ofComponent]
    exact (List.getElem?_eq_some_iff.mp hg).1

theorem rankees_full (h : Clustered c) (hpos : 0 < c.size)
    (hl : Levels (ofComponent c).size s.ranker.rankAt s.cohorts) {wave : List Nat}
    (hw : wave ∈ s.cohorts) :
    rankees c t wave ≠ [] := by
  rw [size_ofComponent] at hl
  obtain ⟨i, hi⟩ := (exists_stands h.parted).mp hpos
  obtain ⟨j, hj⟩ := List.exists_mem_of_ne_nil _ (hl.full (Nat.zero_lt_of_lt hi.lt) wave hw)
  obtain ⟨k, hk⟩ := List.mem_iff_getElem?.mp hw
  have hlt : j < (groupsOf c).length :=
    ((hl.mem k j).mp (mem_getD_nil.mpr ⟨wave, hk, hj⟩)).1
  exact List.ne_nil_of_mem (mem_rankees.mpr ⟨j, hj, _, List.getElem?_eq_getElem hlt, rfl⟩)

end Waves

theorem rankByWaves_layered (r : Ranker) (t : Table E) (h : Clustered c) (hn : c.Numbered)
    (hpos : 0 < c.size) {c' : Component} {r' : Ranker}
    (hok : r.rankByWaves c t = (.ok (), c', r')) : c'.Layered := by
  obtain ⟨s, hwaves, _, hlevels⟩ := rankByWaves_ok r t h
  obtain ⟨rfl, rfl⟩ := Prod.mk.inj (Prod.mk.inj (hok.symm.trans hwaves)).2
  have hsame := writeRanks_sameGraph c s.ranker (s.cohorts.map (rankees c t))
  constructor
  · intro k x
    rw [written, holds_congr hsame.size rfl, getD_rankees]
    exact mem_rankees_iff h hn hlevels
  · intro xs hxs
    obtain ⟨wave, hwave, rfl⟩ := List.mem_map.mp hxs
    exact rankees_nodup h hn t ((List.nodup_flatten.mp hlevels.nodup).1 wave hwave)
  · intro xs hxs
    obtain ⟨wave, hwave, rfl⟩ := List.mem_map.mp hxs
    exact rankees_full h hpos hlevels hwave

end Cohort.Ranker

namespace Component

variable {c c' : Component} {E : Type} [Entity E] {ds : List (E × List E)} {t : Table E}

section TwoLevel

theorem Faithful.twoLevel_clusters (h : c.Faithful ds t) (h2 : c.isTwoLevel = true)
    (hc : MutualClasses c.descendants (c.clusters.map (·.members))) : c.clusters = [] :=
  List.map_eq_nil_iff.mp (hc.eq_nil fun _ _ hvw hwv => h.twoLevel_antisymm h2 hvw hwv)

theorem Faithful.twoLevel_link (h : c.Faithful ds t) (h2 : c.isTwoLevel = true) :
    ∃ v w, v ∈ c.roots ∧ w ∈ c.pinnacles := by
  rcases h.linked 0 h.inhabited with hne | hne
  · obtain ⟨v, hv⟩ := List.exists_mem_of_ne_nil _ hne
    obtain ⟨hroot, _, hpin⟩ := h.link_levels h2 ((h.descendants v 0).mpr hv)
    exact ⟨v, 0, hroot, hpin⟩
  · obtain ⟨w, hw⟩ := List.exists_mem_of_ne_nil _ hne
    obtain ⟨hroot, _, hpin⟩ := h.link_levels h2 hw
    exact ⟨0, w, hroot, hpin⟩

theorem mem_roots_iff_rank (h : c.Faithful ds t) (h2 : c.isTwoLevel = true)
    (hzero : ∀ v, c.rankAt v = 0) (v : VertId) :
    v ∈ c.roots ↔ v < c.size ∧ (Cohort.rankTwoLevels c t).rankAt v = 0 := by
  rw [rankTwoLevels_rankAt h fun w _ => hzero w]
  constructor
  · intro hv
    exact ⟨((h.roots v).mp hv).1, if_neg (h.not_pinnacle_of_root hv)⟩
  · rintro ⟨hlt, hk⟩
    refine (h.root_or_pinnacle h2 hlt).resolve_right fun hp => ?_
    rw [if_pos hp] at hk
    omega

theorem mem_pinnacles_iff_rank (h : c.Faithful ds t) (hzero : ∀ v, c.rankAt v = 0) (v : VertId) :
    v ∈ c.pinnacles ↔ v < c.size ∧ (Cohort.rankTwoLevels c t).rankAt v = 1 := by
  rw [rankTwoLevels_rankAt h fun w _ => hzero w]
  constructor
  · intro hv
    exact ⟨((h.pinnacles v).mp hv).1, if_pos hv⟩
  · rintro ⟨_, hk⟩
    by_contra hp
    rw [if_neg hp] at hk
    omega

def level (c : Component) (t : Table E) (vs : List VertId) : List Rankee :=
  (Entity.sortBy (c.entity? t) vs).map .vertex

theorem mem_level {vs : List VertId} {x : Rankee} :
    x ∈ c.level t vs ↔ ∃ v ∈ vs, .vertex v = x := by
  simp [level, (Entity.sortBy_perm (c.entity? t) vs).mem_iff]

theorem level_nodup {vs : List VertId} (h : vs.Nodup) : (c.level t vs).Nodup :=
  ((Entity.sortBy_perm _ _).nodup_iff.mpr h).map fun _ _ heq => Rankee.vertex.inj heq

theorem level_holds (hnone : c.clusters = []) {rank : VertId → Nat} {vs : List VertId} {k : Nat}
    (hvs : ∀ v, v ∈ vs ↔ v < c.size ∧ rank v = k) (x : Rankee) :
    x ∈ c.level t vs ↔ ∃ v, c.Holds x v ∧ rank v = k := by
  rw [mem_level]
  constructor
  · rintro ⟨v, hv, rfl⟩
    obtain ⟨hlt, hk⟩ := (hvs v).mp hv
    exact ⟨v, ⟨rfl, hlt, by simp [hnone]⟩, hk⟩
  · rintro ⟨v, hx, hk⟩
    cases x with
    | vertex w => exact ⟨v, (hvs v).mpr ⟨hx.2.1, hk⟩, by rw [hx.1]⟩
    | cluster i =>
      obtain ⟨q, hq, _⟩ := hx
      simp [cluster?, hnone] at hq

theorem rankTwoLevels_layered (h : c.Faithful ds t) (h2 : c.isTwoLevel = true)
    (hc : MutualClasses c.descendants (c.clusters.map (·.members)))
    (hzero : ∀ v, c.rankAt v = 0) : (Cohort.rankTwoLevels c t).Layered := by
  have hnone := h.twoLevel_clusters h2 hc
  have hcohorts : (Cohort.rankTwoLevels c t).cohorts = [c.level t c.roots, c.level t c.pinnacles] :=
    rfl
  constructor
  · intro k x
    rw [hcohorts, holds_congr (rankTwoLevels_sameGraph c t).size rfl]
    match k with
    | 0 => exact level_holds hnone (mem_roots_iff_rank h h2 hzero) x
    | 1 => exact level_holds hnone (mem_pinnacles_iff_rank h hzero) x
    | k + 2 =>
      refine iff_of_false (by simp) ?_
      rintro ⟨v, _, hk⟩
      rw [rankTwoLevels_rankAt h fun w _ => hzero w] at hk
      split at hk <;> omega
  · rw [hcohorts]
    simp [level_nodup h.rootsNodup, level_nodup h.pinnaclesNodup]
  · rw [hcohorts]
    obtain ⟨v, w, hv, hw⟩ := h.twoLevel_link h2
    have hlow : c.level t c.roots ≠ [] := List.ne_nil_of_mem (mem_level.mpr ⟨v, hv, rfl⟩)
    have hhigh : c.level t c.pinnacles ≠ [] := List.ne_nil_of_mem (mem_level.mpr ⟨w, hw, rfl⟩)
    simp [hlow, hhigh]

end TwoLevel

theorem rank_layered (r : Cohort.Ranker) (h : c.Faithful ds t) (hc : Clustered c)
    (hn : c.Numbered) (hzero : ∀ v, c.rankAt v = 0) {r' : Cohort.Ranker}
    (hok : r.rank c t = (.ok (), c', r')) : c'.Layered := by
  rw [Cohort.Ranker.rank] at hok
  split at hok
  · rename_i h2
    obtain rfl := (Prod.mk.inj (Prod.mk.inj hok).2).1
    exact rankTwoLevels_layered h h2 hc.classes hzero
  · exact r.rankByWaves_layered t hc hn h.inhabited hok

end Component

end DepGraph
