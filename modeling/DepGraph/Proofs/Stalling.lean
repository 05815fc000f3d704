import DepGraph.Proofs.Counting
import DepGraph.Proofs.DetectorAgreement
import Mathlib.Order.Bounds.Defs

/-!
# Ranking without clusters

A component on which no cluster is recorded is ranked vertex by vertex, so a cycle stops the waves:
what lies on one, or above one, never gets its turn. The ranking is refused then, and the refusal
counts what was ranked. Without a cycle every vertex gets its turn, at the end of its longest chain.
-/

namespace DepGraph

open Cohort.Ranker (OnCycle Stalled)

section Cycles

variable {next : Nat → List Nat}

theorem eq_of_leads (hfree : ∀ v, ¬ OnCycle next v) {v w : Nat} (hvw : Leads next v w)
    (hwv : Leads next w v) : v = w := by
  rcases Relation.ReflTransGen.cases_head hvw with heq | ⟨u, hu, huw⟩
  · exact heq
  · exact absurd (Relation.TransGen.head' hu (huw.trans hwv)) (hfree v)

theorem classes_of_acyclic (hfree : ∀ v, ¬ OnCycle next v) : MutualClasses next [] :=
  ⟨by simp, by simp, by simp, fun _ _ hne hab hba => absurd (eq_of_leads hfree hab hba) hne,
    List.Pairwise.nil⟩

end Cycles

namespace Component

variable {c c' : Component} {E : Type} [Entity E] {ds : List (E × List E)} {t : Table E}

/-- No cluster is recorded on the component; and if it has two levels, the lower is ranked zero. -/
structure Bare (c : Component) : Prop where
  clusters : c.clusters = []
  unmarked : ∀ v vert, c.vertex? v = some vert → vert.cluster = none
  grounded : c.isTwoLevel = true → ∀ v, v ∉ c.pinnacles → c.rankAt v = 0

theorem Bare.congr (h : c.Bare) (hclusters : c'.clusters = c.clusters)
    (hmarks : ∀ v, (c'.vertex? v).map (·.cluster) = (c.vertex? v).map (·.cluster))
    (hground : c'.isTwoLevel = true → ∀ v, v ∉ c'.pinnacles → c'.rankAt v = 0) : c'.Bare := by
  refine ⟨hclusters.trans h.clusters, ?_, hground⟩
  intro v vert hv
  have hmark := hmarks v
  rw [hv, Option.map_some] at hmark
  obtain ⟨old, hold, hsame⟩ := Option.map_eq_some_iff.mp hmark.symm
  exact hsame.symm.trans (h.unmarked v old hold)

theorem Fresh.bare (h : c.Fresh) (hc : c.clusters = []) : c.Bare :=
  ⟨hc, fun v vert hv => (h v vert hv).2, fun _ v _ => h.rankAt v⟩

theorem Faithful.twoLevel_free (h : c.Faithful ds t) (h2 : c.isTwoLevel = true) (v : VertId) :
    ¬ OnCycle c.descendants v := by
  intro hcycle
  obtain ⟨w, hw, hback⟩ := Relation.TransGen.head'_iff.mp hcycle
  obtain rfl := h.twoLevel_antisymm h2 (.single hw) hback
  exact h.drawn.irreflexive v hw

end Component

namespace Collapsed

variable {c : Component} {E : Type} [Entity E] {ds : List (E × List E)} {t : Table E}

theorem groupsOf_bare (h : c.Bare) :
    groupsOf c = (List.range c.size).map fun v => ⟨.vertex v, [v]⟩ := by
  have hall : c.verts.toList.zipIdx.filter (fun p => p.1.cluster.isNone) =
      c.verts.toList.zipIdx := by
    apply List.filter_eq_self.mpr
    intro p hp
    have hvert : c.vertex? p.2 = some p.1 := by
      simpa [Component.vertex?] using List.mem_zipIdx_iff_getElem?.mp hp
    rw [h.unmarked _ _ hvert]
    rfl
  have hids : c.verts.toList.zipIdx.map (·.2) = List.range c.size := by
    rw [List.zipIdx_map_snd, List.range_eq_range', Array.length_toList]
    rfl
  rw [groupsOf, h.clusters, ← hids, List.map_map]
  exact congrArg (List.map fun p => (⟨.vertex p.2, [p.2]⟩ : Group)) hall

theorem parted_of_bare (h : c.Bare) : Parted c := by
  have hflat : ((groupsOf c).map (·.members)).flatten = List.range c.size := by
    rw [groupsOf_bare h, List.map_map]
    exact List.flatMap_singleton' _
  constructor
  · rw [hflat]
    exact List.nodup_range
  · intro v
    rw [hflat, List.mem_range]

theorem size_of_bare (h : c.Bare) : (ofComponent c).size = c.size := by
  rw [size_ofComponent, groupsOf_bare h, List.length_map, List.length_range]

theorem stands_of_bare (h : c.Bare) {i v : Nat} : Stands c i v ↔ i = v ∧ v < c.size := by
  rw [Stands, groupsOf_bare h]
  by_cases hi : i < c.size
  · simp [hi, eq_comm]
    omega
  · simp [hi]
    omega

theorem next_of_bare (h : c.Bare) (hf : c.Faithful ds t) {i j : Nat} :
    j ∈ (ofComponent c).next i ↔ j ∈ c.descendants i := by
  simp only [mem_next (parted_of_bare h), stands_of_bare h]
  constructor
  · intro hj
    obtain ⟨_, v, w, ⟨rfl, _⟩, ⟨rfl, _⟩, hw⟩ := hj
    exact hw
  · intro hj
    refine ⟨?_, i, j, ⟨rfl, Component.lt_of_mem_descendants hj⟩, ⟨rfl, hf.lt_of_link hj⟩, hj⟩
    intro heq
    subst heq
    exact hf.drawn.irreflexive j hj

theorem clustered_of_bare (h : c.Bare) (hf : c.Faithful ds t)
    (hfree : ∀ v, ¬ OnCycle c.descendants v) : Clustered c := by
  refine ⟨fun v u hu => hf.lt_of_link hu, ?_, ?_⟩
  · rw [h.clusters]
    exact classes_of_acyclic hfree
  · intro v vert hv
    rw [h.unmarked v vert hv, h.clusters]
    simp

end Collapsed

namespace Cohort.Ranking

variable {next : Nat → List Nat} {n : Nat} {done : List (List Nat)} {s : Ranking}

theorem Between.ranked_eq (h : Between next n done s) (hend : s.ranker.wave = [])
    (hbound : ∀ g, ∀ d ∈ next g, g < n) :
    s.ranked = { g | g < n ∧ ¬ Stalled next g }.ncard := by
  rw [h.ranked]
  refine (ncard_eq_length h.nodup.of_append_left fun g => ?_).symm
  rw [Set.mem_ofPred_eq]
  constructor
  · intro hg
    exact h.mem_past hend hg.1 hg.2
  · intro hg
    exact ⟨h.lt hg, h.not_stalled hbound hg⟩

end Cohort.Ranking

namespace Cohort.Ranker

open Component Collapsed

theorem ncard_lt_of_onCycle {next : Nat → List Nat} {n v : Nat} (hv : v < n)
    (hcycle : OnCycle next v) : { g | g < n ∧ ¬ Stalled next g }.ncard < n := by
  have hproper : { g | g < n ∧ ¬ Stalled next g } ⊂ (Finset.range n : Set Nat) := by
    refine ⟨fun g hg => Finset.mem_coe.mpr (Finset.mem_range.mpr hg.1), fun hall => ?_⟩
    exact (hall (Finset.mem_coe.mpr (Finset.mem_range.mpr hv))).2 ⟨v, hcycle, .refl⟩
  have hless := Set.ncard_lt_ncard hproper (Finset.finite_toSet _)
  rwa [Set.ncard_coe_finset, Finset.card_range] at hless

variable {c c' : Component} {E : Type} [Entity E] {ds : List (E × List E)} {t : Table E}

/-- A component on which no cluster is recorded is refused for its cycles, and not written to. -/
theorem rank_stalls (r : Ranker) (hf : c.Faithful ds t) (hb : c.Bare) {v : VertId}
    (hcycle : OnCycle c.descendants v) : ∃ r', r.rank c t = (.error (.incompleteRanking c.id
      { v | v < c.size ∧ ¬ Stalled c.descendants v }.ncard c.size), c, r') := by
  have h2 : ¬ c.isTwoLevel = true := fun h2 => hf.twoLevel_free h2 v hcycle
  have hnext (i j : Nat) : j ∈ (ofComponent c).next i ↔ j ∈ c.descendants i := next_of_bare hb hf
  have hstalled : Stalled (ofComponent c).next = Stalled c.descendants := by
    simp only [funext_iff, Stalled, OnCycle, Leads, hnext, implies_true]
  obtain ⟨done, hlast, hend⟩ := Ranking.run_between r (size_descendants c)
    (fun _ _ hj => next_lt (parted_of_bare hb) hj) (next_nodup c)
  have hranked := hlast.ranked_eq hend fun i j hj => by
    rw [size_of_bare hb]
    exact lt_of_mem_descendants ((hnext i j).mp hj)
  obtain ⟨u, hu, _⟩ := Relation.TransGen.head'_iff.mp hcycle
  have hless := ncard_lt_of_onCycle (lt_of_mem_descendants hu) hcycle
  rw [hstalled, size_of_bare hb] at hranked
  rw [rank, if_neg h2, rankByWaves_eq, size_of_bare hb, hranked, if_pos hless]
  exact ⟨_, rfl⟩

end Cohort.Ranker

namespace Component

variable {c c' : Component} {E : Type} [Entity E] {ds : List (E × List E)} {t : Table E}

inductive ChainTo (c : Component) : VertId → Nat → Prop
  | start {v : VertId} : v < c.size → ChainTo c v 0
  | link {u v : VertId} {n : Nat} : ChainTo c u n → u ∈ c.ancestors v → ChainTo c v (n + 1)

theorem Ranked.ranks (h : c.Ranked) (hfree : ∀ v, ¬ OnCycle c.descendants v) :
    Cohort.Ranker.Ranks c.descendants c.size c.rankAt where
  above v _ w hw := h.above v w hw fun hback => hfree v (Relation.TransGen.head' hw hback)
  attained w hw := by
    rcases h.attained w hw with hzero | ⟨v, u, hwu, huw, hu, _, hrise⟩
    · exact Or.inl hzero
    · obtain rfl := eq_of_leads hfree hwu huw
      exact Or.inr ⟨v, lt_of_mem_descendants hu, hu, hrise⟩

theorem Faithful.longest_chain (hf : c.Faithful ds t) {rank : VertId → Nat}
    (hr : Cohort.Ranker.Ranks c.descendants c.size rank) {v : VertId} (hv : v < c.size) :
    IsGreatest { n | c.ChainTo v n } (rank v) := by
  constructor
  · rw [Set.mem_ofPred_eq]
    generalize hk : rank v = k
    induction k generalizing v with
    | zero => exact .start hv
    | succ k ih =>
      rcases hr.attained v hv with hzero | ⟨u, hu, hlink, hrise⟩
      · omega
      · exact .link (ih hu (by omega)) ((hf.descendants u v).mp hlink)
  · intro n hn
    induction hn with
    | start _ => exact Nat.zero_le _
    | link hchain hlink ih =>
      have hdown := (hf.descendants _ _).mpr hlink
      have hrise := hr.above _ (lt_of_mem_descendants hdown) _ hdown
      have hlow := ih (lt_of_mem_descendants hdown)
      omega

theorem Ranked.longest_chain (h : c'.Ranked) (hf : c.Faithful ds t) (hsame : SameGraph c c')
    (hfree : ∀ v, ¬ OnCycle c.descendants v) {v : VertId} (hv : v < c.size) :
    IsGreatest { n | c.ChainTo v n } (c'.rankAt v) := by
  have hranks := h.ranks (by rw [hsame.descendants]; exact hfree)
  rw [hsame.descendants, hsame.size] at hranks
  exact hf.longest_chain hranks hv

theorem rank_reaches (r : Cohort.Ranker) (hf : c.Faithful ds t) (hb : c.Bare)
    (hfree : ∀ v, ¬ OnCycle c.descendants v) : ∃ c' r', r.rank c t = (.ok (), c', r') ∧
      c'.size = c.size ∧ ∀ v < c.size, IsGreatest { n | c.ChainTo v n } (c'.rankAt v) := by
  have hclustered := Collapsed.clustered_of_bare hb hf hfree
  obtain ⟨c', r', hok, hsame, _, hranked⟩ := rank_ranked r hf hclustered hb.grounded
  exact ⟨c', r', hok, hsame.size, fun v hv => hranked.longest_chain hf hsame hfree hv⟩

end Component

namespace Cohort.Ranker

open Component Collapsed

variable {c c₀ : Component} {E : Type} [Entity E] {ds : List (E × List E)} {t : Table E}

def tried (r : Ranker) (c : Component) (t : Table E) : Component := (r.rank c t).2.1

/-- What becomes of a component that is only ever ranked, by whatever rankers. -/
inductive Unclustered (t : Table E) (c₀ : Component) : Component → Prop
  | new : Unclustered t c₀ c₀
  | tried {c : Component} (r : Ranker) : Unclustered t c₀ c → Unclustered t c₀ (r.tried c t)

theorem rankTwoLevels_marks (c : Component) (t : Table E) (v : VertId) :
    ((rankTwoLevels c t).vertex? v).map (·.cluster) = (c.vertex? v).map (·.cluster) := by
  rw [vertex?, rankTwoLevels_verts]
  exact Writes.modify_reads (f := fun _ => lift) (·.cluster) (fun _ _ => rfl) c.verts v

theorem writeRanks_marks (c : Component) (r : Ranker) (cohorts : List (List Rankee)) (v : VertId) :
    (({ c with verts := writeRanks c r, cohorts } : Component).vertex? v).map (·.cluster) =
      (c.vertex? v).map (·.cluster) :=
  Writes.each_reads r.mark (·.1.members) _ (·.cluster) (fun _ _ => rfl) c.verts v

theorem rankTwoLevels_bare (t : Table E) (h2 : c.isTwoLevel = true) (hb : c.Bare) :
    (rankTwoLevels c t).Bare := by
  refine hb.congr rfl (rankTwoLevels_marks c t) ?_
  intro _ v hv
  have hother : v ∉ c.pinnacles := hv
  rw [rankTwoLevels_other t hother]
  exact hb.grounded h2 v hother

theorem writeRanks_bare (r : Ranker) (cohorts : List (List Rankee)) (h2 : ¬ c.isTwoLevel = true)
    (hb : c.Bare) : ({ c with verts := writeRanks c r, cohorts } : Component).Bare := by
  have hsame := writeRanks_sameGraph c r cohorts
  refine hb.congr rfl (writeRanks_marks c r cohorts) ?_
  intro h2'
  rw [isTwoLevel, hsame.size, hsame.roots, hsame.pinnacles] at h2'
  exact absurd h2' h2

theorem tried_bare (r : Ranker) (t : Table E) (hb : c.Bare) :
    SameGraph c (r.tried c t) ∧ (r.tried c t).Bare := by
  by_cases h2 : c.isTwoLevel = true
  · rw [tried, rank, if_pos h2]
    exact ⟨rankTwoLevels_sameGraph c t, rankTwoLevels_bare t h2 hb⟩
  · rw [tried, rank, if_neg h2, rankByWaves_eq]
    split
    · exact ⟨.refl c, hb⟩
    · exact ⟨writeRanks_sameGraph c _ _, writeRanks_bare _ _ h2 hb⟩

theorem Unclustered.sameGraph (hb : c₀.Bare) (h : Unclustered t c₀ c) :
    SameGraph c₀ c ∧ c.Bare := by
  induction h with
  | new => exact ⟨.refl c₀, hb⟩
  | tried r _ ih =>
    obtain ⟨hsame, hbare⟩ := tried_bare r t ih.2
    exact ⟨ih.1.trans hsame, hbare⟩

theorem Unclustered.bare (hf : c₀.Faithful ds t) (hb : c₀.Bare) (h : Unclustered t c₀ c) :
    c.Faithful ds t ∧ c.Bare := by
  obtain ⟨hsame, hbare⟩ := h.sameGraph hb
  exact ⟨hsame.faithful (fun _ => rfl) hf, hbare⟩

/-- A component without clusters, however often it has been ranked before, is refused exactly if it
has a cycle, with the number of vertices that no cycle leads to; and it comes out of a refusal as it
went in, although the waves have run. Otherwise the ranks are the lengths of the longest chains. -/
theorem rank_without_clusters (h : Table.Reached ds t) (hf : t.frozen = true)
    (hc : c₀ ∈ t.split.1.components) (hu : Unclustered t.split.2 c₀ c) (r : Ranker) :
    ((∃ err, (r.rank c t.split.2).1 = .error err) ↔ ∃ v, OnCycle c.descendants v) ∧
    (∀ err c' r', r.rank c t.split.2 = (.error err, c', r') →
      err = .incompleteRanking c.id { v | v < c.size ∧ ¬ Stalled c.descendants v }.ncard c.size ∧
      c' = c) ∧
    ((¬ ∃ v, OnCycle c.descendants v) → ∃ c' r', r.rank c t.split.2 = (.ok (), c', r') ∧
      c'.size = c.size ∧ ∀ v < c.size, IsGreatest { n | c.ChainTo v n } (c'.rankAt v)) := by
  have hbuilt := h.built hf
  obtain ⟨hcopy, hfresh⟩ := Table.split_ready hbuilt hc
  obtain ⟨hfaithful, hbare⟩ := hu.bare hcopy (hfresh.bare (Table.split_blank hbuilt hc).1)
  by_cases hcycle : ∃ v, OnCycle c.descendants v
  · obtain ⟨v, hv⟩ := hcycle
    obtain ⟨s, hrank⟩ := rank_stalls r hfaithful hbare hv
    refine ⟨iff_of_true ⟨_, congrArg Prod.fst hrank⟩ ⟨v, hv⟩, ?_,
      fun hfree => absurd ⟨v, hv⟩ hfree⟩
    intro err c' r' herr
    obtain ⟨herror, hsame⟩ := Prod.mk.inj (herr.symm.trans hrank)
    exact ⟨Except.error.inj herror, (Prod.mk.inj hsame).1⟩
  · obtain ⟨c', r', hok, hchains⟩ :=
      rank_reaches r hfaithful hbare fun v hv => hcycle ⟨v, hv⟩
    have hnone (err : GraphError E) : (r.rank c t.split.2).1 ≠ .error err := by
      rw [hok]
      intro herr
      cases herr
    refine ⟨iff_of_false (fun herr => ?_) hcycle, fun err _ _ herr => ?_,
      fun _ => ⟨c', r', hok, hchains⟩⟩
    · obtain ⟨err, herr⟩ := herr
      exact hnone err herr
    · exact absurd (congrArg Prod.fst herr) (hnone err)

/-- Two entities that need each other, with one above them and one below. -/
theorem rank_without_clusters_pair : ∃ t : Table Int,
    Table.Reached [(3, [1]), (1, [2, 4]), (2, [1])] t ∧ t.frozen = true ∧
      ∃ c ∈ t.split.1.components, Unclustered t.split.2 c c ∧
        ∃ r', ({} : Ranker).rank c t.split.2 = (.error (.incompleteRanking c.id
          { v | v < c.size ∧ ¬ Stalled c.descendants v }.ncard c.size), c, r') := by
  obtain ⟨t, hreached, hfrozen⟩ := Table.exists_reached
    (show (([(3, [1]), (1, [2, 4]), (2, [1])] : List (Int × List Int)).map (·.1)).Nodup by decide)
    (by decide)
  have hbuilt := hreached.built hfrozen
  have hdown : DependsOn [((3 : Int), [1]), (1, [2, 4]), (2, [1])] 1 2 :=
    ⟨⟨[2, 4], by simp, by simp⟩, by decide⟩
  have hup : DependsOn [((3 : Int), [1]), (1, [2, 4]), (2, [1])] 2 1 :=
    ⟨⟨[1], by simp, by simp⟩, by decide⟩
  obtain ⟨c, hc, v, hv⟩ := Table.split_holds hbuilt hdown
  have hcycle : OnCycle c.descendants v :=
    ((Table.split_ready hbuilt hc).1.drawn.cycle_iff hv).mpr (.head hdown (.single hup))
  obtain ⟨hiff, herror, _⟩ := rank_without_clusters hreached hfrozen hc .new {}
  obtain ⟨err, herr⟩ := hiff.mpr ⟨v, hcycle⟩
  rcases hrank : ({} : Ranker).rank c t.split.2 with ⟨answer, c', r'⟩
  obtain rfl : answer = .error err := by rwa [hrank] at herr
  obtain ⟨rfl, rfl⟩ := herror err c' r' hrank
  exact ⟨t, hreached, hfrozen, c', hc, .new, r', hrank⟩

end Cohort.Ranker

end DepGraph
