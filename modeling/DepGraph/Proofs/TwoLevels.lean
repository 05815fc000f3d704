import DepGraph.Proofs.Stalling

/-!
# Two-level components

A component is taken for a two-level one by a mere count of its roots and pinnacles. The count is
right, since no vertex is both; and then the search for clusters and the ranking in waves would
have come to the same: no cluster, the roots in the first cohort and the pinnacles in the second.
-/

namespace DepGraph

open Cohort Collapsed

namespace Component

variable {c c' : Component} {E : Type} [Entity E] {ds : List (E × List E)} {t : Table E}

theorem Faithful.isTwoLevel_iff (h : c.Faithful ds t) :
    c.isTwoLevel = true ↔ ∀ v < c.size, c.ancestors v = [] ∨ c.descendants v = [] := by
  constructor
  · intro h2 v hv
    rcases h.root_or_pinnacle h2 hv with hr | hp
    · exact Or.inl ((h.roots v).mp hr).2
    · exact Or.inr ((h.pinnacles v).mp hp).2
  · intro hall
    have hperm : (c.roots ++ c.pinnacles).Perm (List.range c.size) := by
      rw [List.perm_ext_iff_of_nodup h.levels_nodup List.nodup_range]
      intro v
      rw [List.mem_append, h.roots, h.pinnacles, List.mem_range, ← and_or_left]
      exact and_iff_left_of_imp (hall v)
    rw [isTwoLevel, beq_iff_eq, ← List.length_append, hperm.length_eq, List.length_range]

section Agreement

/-- The links, the cluster and the rank are all there is to a vertex. -/
theorem verts_eq (hs : SameGraph c c')
    (hmarks : ∀ v, (c'.vertex? v).map (·.cluster) = (c.vertex? v).map (·.cluster))
    (hrank : ∀ v < c.size, c'.rankAt v = c.rankAt v) : c'.verts = c.verts := by
  apply Array.ext_getElem?
  intro v
  change c'.vertex? v = c.vertex? v
  have hshape := hs.shape v
  have hmark := hmarks v
  cases hx : c.vertex? v with
  | none =>
    rw [hx] at hshape
    exact Option.map_eq_none_iff.mp hshape
  | some x =>
    rw [hx] at hshape hmark
    obtain ⟨y, hy, hxy⟩ := Option.map_eq_some_iff.mp hshape
    have hranks := hrank v (Array.getElem?_eq_some_iff.mp hx).1
    rw [rankAt, rankAt, hx, hy] at hranks
    rw [hy] at hmark ⊢
    cases x
    cases y
    simp_all [Vertex.shape]

def Sorted (c : Component) (t : Table E) (xs : List Rankee) : Prop :=
  xs.Pairwise fun x y => ∃ a b, c.representative? t x = some a ∧ c.representative? t y = some b ∧
    Entity.Below a b

theorem Layered.cohorts_eq {c₀ : Component} (h : c.Layered) (h' : c'.Layered)
    (hholds : c'.Holds = c.Holds) (hrank : ∀ x v, c.Holds x v → c'.rankAt v = c.rankAt v)
    (hs : ∀ xs ∈ c.cohorts, c₀.Sorted t xs) (hs' : ∀ xs ∈ c'.cohorts, c₀.Sorted t xs) :
    c'.cohorts = c.cohorts := by
  have hmem (k : Nat) (x : Rankee) : x ∈ c'.cohorts.getD k [] ↔ x ∈ c.cohorts.getD k [] := by
    rw [h.mem, h'.mem, hholds]
    refine exists_congr fun v => and_congr_right fun hx => ?_
    rw [hrank x v hx]
  apply List.ext_getElem?
  intro k
  have hk := hmem k
  rw [List.getD_eq_getElem?_getD, List.getD_eq_getElem?_getD] at hk
  cases hys : c'.cohorts[k]? with
  | none =>
    cases hxs : c.cohorts[k]? with
    | none => rfl
    | some xs =>
      obtain ⟨x, hx⟩ := List.exists_mem_of_ne_nil _ (h.full xs (List.mem_of_getElem? hxs))
      rw [hys, hxs] at hk
      exact absurd ((hk x).mpr hx) List.not_mem_nil
  | some ys =>
    cases hxs : c.cohorts[k]? with
    | none =>
      obtain ⟨y, hy⟩ := List.exists_mem_of_ne_nil _ (h'.full ys (List.mem_of_getElem? hys))
      rw [hys, hxs] at hk
      exact absurd ((hk y).mp hy) List.not_mem_nil
    | some xs =>
      rw [hys, hxs] at hk
      rw [Entity.eq_of_keys_ordered (hs' ys (List.mem_of_getElem? hys))
        (hs xs (List.mem_of_getElem? hxs)) hk]

end Agreement

section Order

variable {vs : List VertId}

theorem Faithful.entities_nodup (h : c.Faithful ds t) (hn : vs.Nodup) :
    (vs.filterMap (c.entity? t)).Nodup :=
  hn.filterMap fun v w e hv hw => h.injective v w e hv hw

theorem Faithful.level_sorted (h : c.Faithful ds t) (hn : vs.Nodup) (hlt : ∀ v ∈ vs, v < c.size) :
    c.Sorted t (c.level t vs) := by
  apply List.pairwise_map.mpr
  apply Entity.sortBy_ordered (h.entities_nodup hn)
  intro v hv
  exact h.entity v (hlt v hv)

theorem Faithful.rankTwoLevels_sorted (h : c.Faithful ds t) :
    ∀ xs ∈ (rankTwoLevels c t).cohorts, c.Sorted t xs := by
  intro xs hxs
  have hcases : xs = c.level t c.roots ∨ xs = c.level t c.pinnacles := by
    simpa [rankTwoLevels, level] using hxs
  rcases hcases with rfl | rfl
  · exact h.level_sorted h.rootsNodup fun v hv => ((h.roots v).mp hv).1
  · exact h.level_sorted h.pinnaclesNodup fun v hv => ((h.pinnacles v).mp hv).1

theorem Faithful.rankTwoLevels_cohorts (h : c.Faithful ds t) (h2 : c.isTwoLevel = true) :
    ∃ low high, (rankTwoLevels c t).cohorts = [low.map Rankee.vertex, high.map Rankee.vertex] ∧
      (∀ v, v ∈ low ↔ v < c.size ∧ c.ancestors v = []) ∧
      (∀ v, v ∈ high ↔ v < c.size ∧ c.descendants v = []) ∧ low ≠ [] ∧ high ≠ [] ∧
      Entity.Ascending (c.entities t low) ∧ Entity.Ascending (c.entities t high) := by
  obtain ⟨v, w, hv, hw⟩ := h.twoLevel_link h2
  have hmem (vs : List VertId) (u : VertId) : u ∈ Entity.sortBy (c.entity? t) vs ↔ u ∈ vs :=
    (Entity.sortBy_perm _ _).mem_iff
  refine ⟨Entity.sortBy (c.entity? t) c.roots, Entity.sortBy (c.entity? t) c.pinnacles, rfl,
    ?_, ?_, ?_, ?_, ?_, ?_⟩
  · intro u
    rw [hmem, h.roots]
  · intro u
    rw [hmem, h.pinnacles]
  · exact List.ne_nil_of_mem ((hmem _ v).mpr hv)
  · exact List.ne_nil_of_mem ((hmem _ w).mpr hw)
  · exact Entity.ascending_sortBy (h.entities_nodup h.rootsNodup)
  · exact Entity.ascending_sortBy (h.entities_nodup h.pinnaclesNodup)

theorem Bare.rankees_eq (hb : c.Bare) (t : Table E) {wave : List Nat}
    (hw : ∀ g ∈ wave, g < c.size) : Ranker.rankees c t wave = c.level t wave := by
  have hverts : wave.filterMap (fun g => ((ofComponent c).groups[g]?).map (·.rankee)) =
      wave.map .vertex := by
    rw [← List.filterMap_eq_map]
    apply List.filterMap_congr
    intro g hg
    simp [ofComponent, groupsOf_bare hb, hw g hg]
  rw [Ranker.rankees, hverts, level, Entity.sortBy, Entity.sortBy]
  refine (List.map_mergeSort ?_).symm
  intro v _ w _
  rfl

theorem Faithful.waves_sorted (h : c.Faithful ds t) (hb : c.Bare) {rank : Nat → Nat}
    {waves : List (List Nat)} (hl : Ranker.Levels (ofComponent c).size rank waves) :
    ∀ xs ∈ waves.map (Ranker.rankees c t), c.Sorted t xs := by
  intro xs hxs
  obtain ⟨wave, hwave, rfl⟩ := List.mem_map.mp hxs
  have hlt : ∀ g ∈ wave, g < c.size := by
    intro g hg
    obtain ⟨k, hk⟩ := List.mem_iff_getElem?.mp hwave
    rw [← size_of_bare hb]
    exact ((hl.mem k g).mp (mem_getD_nil.mpr ⟨wave, hk, hg⟩)).1
  rw [hb.rankees_eq t hlt]
  exact h.level_sorted ((List.nodup_flatten.mp hl.nodup).1 wave hwave) hlt

end Order

/-- On two levels the waves come to what is written down without them. -/
theorem Faithful.rankByWaves_twoLevel (h : c.Faithful ds t) (hf : c.Fresh) (hc : c.clusters = [])
    (h2 : c.isTwoLevel = true) (r : Ranker) :
    ∃ r', r.rankByWaves c t = (.ok (), rankTwoLevels c t, r') := by
  have hb := hf.bare hc
  have hfree := h.twoLevel_free h2
  have hclustered := clustered_of_bare hb h hfree
  obtain ⟨s, hok, hranks, hlevels⟩ := r.rankByWaves_ok t hclustered
  have hwaves := Ranker.writeRanks_sameGraph c s.ranker (s.cohorts.map (Ranker.rankees c t))
  have hlevel := rankTwoLevels_sameGraph c t
  have hsame := hlevel.symm.trans hwaves
  have hrank {v : VertId} (hv : v < c.size) :=
    ((Ranker.writeRanks_ranked hclustered s.ranker (s.cohorts.map (Ranker.rankees c t))
      hranks).longest_chain h hwaves hfree hv).unique
      ((rankTwoLevels_ranked h h2 (hb.grounded h2)).longest_chain h hlevel hfree hv)
  have hverts := verts_eq hsame
    (fun v => (Ranker.writeRanks_marks c s.ranker _ v).trans
      (Ranker.rankTwoLevels_marks c t v).symm)
    fun v hv => hrank (hlevel.size ▸ hv)
  have hholds (x : Rankee) (v : VertId) (hx : (rankTwoLevels c t).Holds x v) : v < c.size := by
    rw [holds_congr hlevel.size rfl] at hx
    exact hx.lt hclustered.classes hclustered.bound
  have hlayered := r.rankByWaves_layered t hclustered (by simp [Numbered, cluster?, hc])
    h.inhabited hok
  have hcohorts := (rankTwoLevels_layered h h2 hclustered.classes hf.rankAt).cohorts_eq hlayered
    (holds_congr hsame.size rfl) (fun x v hx => hrank (hholds x v hx)) h.rankTwoLevels_sorted
    (h.waves_sorted hb hlevels)
  have hwritten : Ranker.written c t s = rankTwoLevels c t :=
    congrArg₂ (fun verts cohorts => ({ c with verts, cohorts } : Component)) hverts hcohorts
  exact ⟨s.ranker, hwritten ▸ hok⟩

theorem Faithful.search_twoLevel (h : c.Faithful ds t) (h2 : c.isTwoLevel = true)
    (f : Cluster.Finder) : (f.search c t).1 = [] := by
  have hfound : (f.explore c).found = [] :=
    (f.explore_classes c fun _ _ hu => h.lt_of_link hu).eq_nil
      fun _ _ hvw hwv => h.twoLevel_antisymm h2 hvw hwv
  rw [Cluster.Finder.search, hfound]
  simp [Cluster.number, Entity.sortBy]

theorem setClusters_nil (h : c.clusters = []) : c.setClusters [] = c := by
  rw [setClusters, List.foldl_nil, ← h]

end Component

namespace Table

open Component

variable {E : Type} [Entity E] {ds : List (E × List E)} {t : Table E} {c : Component}

/-- The count of roots and pinnacles tells the two-level components of a split; and on these the
search finds no cluster and the waves record the very component that is recorded without either,
with the roots in one cohort and the pinnacles in the other. -/
theorem twoLevel_exact (h : Reached ds t) (hf : t.frozen = true)
    (hc : c ∈ t.split.1.components) :
    (c.isTwoLevel = true ↔ ∀ v < c.size, c.ancestors v = [] ∨ c.descendants v = []) ∧
    (∀ v < c.size, ¬ (c.ancestors v = [] ∧ c.descendants v = [])) ∧
    (c.isTwoLevel = true → ∀ (f : Cluster.Finder) (r : Ranker),
      f.find c t.split.2 = ([], f) ∧ (f.search c t.split.2).1 = [] ∧
      c.setClusters (f.search c t.split.2).1 = c ∧
      r.rank c t.split.2 = (.ok (), rankTwoLevels c t.split.2, r) ∧
      (∃ r', r.rankByWaves c t.split.2 = (.ok (), rankTwoLevels c t.split.2, r')) ∧
      ∃ low high, (rankTwoLevels c t.split.2).cohorts =
          [low.map Rankee.vertex, high.map Rankee.vertex] ∧
        (∀ v, v ∈ low ↔ v < c.size ∧ c.ancestors v = []) ∧
        (∀ v, v ∈ high ↔ v < c.size ∧ c.descendants v = []) ∧ low ≠ [] ∧ high ≠ [] ∧
        Entity.Ascending (c.entities t.split.2 low) ∧
        Entity.Ascending (c.entities t.split.2 high)) := by
  obtain ⟨hcopy, hfresh⟩ := split_ready (h.built hf) hc
  have hnone := (split_blank (h.built hf) hc).1
  refine ⟨hcopy.isTwoLevel_iff, ?_, ?_⟩
  · intro v hv hboth
    rcases hcopy.linked v hv with hne | hne
    · exact hne hboth.1
    · exact hne hboth.2
  · intro h2 f r
    have hsearch := hcopy.search_twoLevel h2 f
    refine ⟨?_, hsearch, ?_, ?_, hcopy.rankByWaves_twoLevel hfresh hnone h2 r,
      hcopy.rankTwoLevels_cohorts h2⟩
    · rw [Cluster.Finder.find, if_pos h2]
    · rw [hsearch, setClusters_nil hnone]
    · rw [Ranker.rank, if_pos h2]

/-- Two entities above a shared one, and one of them above another. -/
theorem twoLevel_exact_fork : ∃ t : Table Int, Reached [(1, [2]), (3, [2, 4])] t ∧
    t.frozen = true ∧ ∃ c ∈ t.split.1.components, c.isTwoLevel = true ∧ ∀ r : Ranker,
      ∃ r', r.rankByWaves c t.split.2 = (.ok (), rankTwoLevels c t.split.2, r') := by
  obtain ⟨t, hreached, hfrozen⟩ := exists_reached
    (show (([(1, [2]), (3, [2, 4])] : List (Int × List Int)).map (·.1)).Nodup by decide)
    (by decide)
  have hbuilt := hreached.built hfrozen
  have hdep : DependsOn [((1 : Int), [2]), (3, [2, 4])] 1 2 := ⟨⟨[2], by simp, by simp⟩, by decide⟩
  obtain ⟨c, hc, _⟩ := split_holds hbuilt hdep
  obtain ⟨hiff, _, hagree⟩ := twoLevel_exact hreached hfrozen hc
  have hlevels (v : VertId) : c.ancestors v = [] ∨ c.descendants v = [] := by
    have hcopy := (split_ready hbuilt hc).1
    by_contra hboth
    obtain ⟨hup, hdown⟩ := not_or.mp hboth
    obtain ⟨u, hu⟩ := List.exists_mem_of_ne_nil _ hup
    obtain ⟨w, hw⟩ := List.exists_mem_of_ne_nil _ hdown
    obtain ⟨e, _, he, _, ⟨l, hl, hl'⟩, _⟩ := (hcopy.ancestors v u).mp hu
    obtain ⟨_, _, _, he', ⟨k, hk, hk'⟩, _⟩ :=
      (hcopy.ancestors w v).mp ((hcopy.descendants v w).mp hw)
    obtain rfl := Option.some.inj (he.symm.trans he')
    simp only [List.mem_cons, Prod.mk.injEq, List.not_mem_nil, or_false] at hl hk
    rcases hl with ⟨rfl, _⟩ | ⟨rfl, _⟩ <;> rcases hk with ⟨_, rfl⟩ | ⟨_, rfl⟩ <;> simp at hk'
  have h2 := hiff.mpr fun v _ => hlevels v
  exact ⟨t, hreached, hfrozen, c, hc, h2, fun r => (hagree h2 {} r).2.2.2.2.1⟩

end Table

end DepGraph
