import DepGraph.Proofs.Cohorts
import DepGraph.Proofs.Reachability
import DepGraph.Proofs.Traces

/-!
# Numbers stay in range

Nodes, vertices, components, clusters and groups are all known by number, and each number is read
by a phase other than the one that gave it out. Every number that is stored or waits on a stack, a
path or in a wave names something that is there, before a table is built and after, while its
components are searched and ranked, and in the answers of the resolution.
-/

namespace DepGraph

namespace Cluster.Finder

/-- The arrays have a place for every vertex, and nothing but vertices is on its way. -/
structure InRange (n : Nat) (f : Finder) : Prop where
  disc : f.disc.size = n
  low : f.low.size = n
  marks : n ≤ f.onStack.size
  stack : ∀ v ∈ f.stack, v < n
  path : ∀ p ∈ f.path, p.vertex < n ∧ ∀ u ∈ p.rest, u < n
  found : ∀ ms ∈ f.found, ms ≠ [] ∧ ∀ v ∈ ms, v < n

variable {next : Nat → List Nat} {n : Nat} {f : Finder}

theorem Passes.inRange (hnext : ∀ v, ∀ u ∈ next v, u < n) (h : Passes next n f) :
    f.InRange n := by
  have hinv := h.invariant hnext
  have hstack (v : Nat) (hv : v ∈ f.stack) : v < n := hinv.lt_of_time (hinv.stack_time v hv)
  constructor
  case disc => exact hinv.disc_size
  case low => exact hinv.low_size
  case marks => exact hinv.marks_size
  case stack => exact hstack
  case path =>
    intro p hp
    refine ⟨hstack _ (hinv.path_stack _ (List.mem_map_of_mem hp)), fun u hu => ?_⟩
    exact hnext _ u (hinv.path_rest p hp u hu)
  case found =>
    intro ms hms
    refine ⟨?_, fun v hv => hinv.lt_of_time (hinv.done ms hms v hv).1⟩
    apply List.ne_nil_of_length_pos
    have := (hinv.large ms hms).1
    omega

end Cluster.Finder

namespace Cycle.Search

structure InRange (n : Nat) (s : Search) : Prop where
  marks : s.onPath.size = n
  visited : s.visited.size = n
  path : ∀ p ∈ s.path, p.vertex < n ∧ ∀ u ∈ p.rest, u < n

theorem Passes.inRange {next : Nat → List Nat} {n : Nat} {s : Search}
    (hnext : ∀ v, ∀ u ∈ next v, u < n) (h : Passes next n s) : s.InRange n := by
  have hinv := h.invariant hnext
  refine ⟨hinv.marks_size, hinv.visited_size, fun p hp => ⟨?_, fun u hu => ?_⟩⟩
  · exact lt_of_visited hinv (hinv.path_visited _ (List.mem_map_of_mem hp))
  · exact hnext _ u (hinv.path_rest p hp u hu)

end Cycle.Search

namespace Collapsed

/-- Every vertex has a group, every group its list of dependents, and nothing beyond is named. -/
structure InRange (c : Component) : Prop where
  assigned : ∀ v < c.size, ∃ i < (ofComponent c).size,
    ((positions c.size (groupsOf c))[v]?).join = some i
  members : ∀ g ∈ (ofComponent c).groups, ∀ v ∈ g.members, v < c.size
  lists : (ofComponent c).descendants.size = (ofComponent c).size
  next : ∀ i, ∀ j ∈ (ofComponent c).next i, j < (ofComponent c).size

theorem Clustered.inRange {c : Component} (h : Clustered c) : InRange c where
  assigned v hv := by
    obtain ⟨i, hi⟩ := (exists_stands h.parted).mp hv
    refine ⟨i, ?_, (positions_spec h.parted).mpr hi⟩
    rw [size_ofComponent]
    exact hi.lt
  members g hg v hv := by
    have hmem : g ∈ groupsOf c := by simpa [ofComponent] using hg
    obtain ⟨i, hi⟩ := List.mem_iff_getElem?.mp hmem
    exact (exists_stands h.parted).mpr ⟨i, g, hi, hv⟩
  lists := size_descendants c
  next _ _ hj := next_lt h.parted hj

end Collapsed

namespace Cohort.Ranking

structure InRange (n : Nat) (s : Ranking) : Prop where
  left : s.ranker.left.size = n
  ranks : s.ranker.ranks.size = n
  wave : ∀ g ∈ s.ranker.wave, g < n
  next : ∀ g ∈ s.ranker.next, g < n
  cohorts : ∀ cohort ∈ s.cohorts, ∀ g ∈ cohort, g < n

theorem Passes.inRange {c : Component} {s : Ranking} (hc : Collapsed.Clustered c)
    (h : Passes (Collapsed.ofComponent c) s) : s.InRange (Collapsed.ofComponent c).size := by
  obtain ⟨done, hdone⟩ := h.between (Collapsed.size_descendants c)
    (fun _ _ hj => Collapsed.next_lt hc.parted hj) (Collapsed.next_nodup c)
  have hlt (g : Nat) (hg : g ∈ done.flatten ++ s.ranker.wave) := ((hdone.ready g).mp hg).1
  constructor
  case left => exact hdone.progress.left_size
  case ranks => exact hdone.progress.ranks_size
  case wave => exact fun g hg => hlt g (List.mem_append_right _ hg)
  case next =>
    intro g hg
    rw [hdone.released] at hg
    cases hg
  case cohorts =>
    intro cohort hcohort g hg
    apply hlt
    rw [← flatten_opened, ← hdone.cohorts]
    exact List.mem_flatten.mpr ⟨cohort, hcohort, hg⟩

end Cohort.Ranking

namespace Table

variable {E : Type} [Entity E] {ds : List (E × List E)} {t : Table E}

structure InRange (t : Table E) : Prop where
  index : ∀ e i, t.idOf? e = some i → i < t.size
  ancestors : ∀ i, ∀ j ∈ t.ancestors i, j < t.size
  descendants : ∀ i, ∀ j ∈ t.descendants i, j < t.size
  adjacency : ∀ i, ∀ j ∈ t.adjacency i, j < t.size
  roots : ∀ i ∈ t.roots, i < t.size

theorem roots_lt (t : Table E) : ∀ i ∈ t.roots, i < t.size := by
  intro i hi
  exact List.mem_range.mp (List.mem_filter.mp hi).1

theorem Records.inRange (h : Records ds t) : t.InRange := by
  have hblank (i : NodeId) (n : Node E) (hn : t.node? i = some n) :
      n.descendants = [] ∧ n.adjacency = [] := by
    rw [(h.node i n hn).blank]
    exact ⟨rfl, rfl⟩
  constructor
  case index => exact fun e i hi => h.indexed.lt hi
  case ancestors =>
    intro i j hj
    obtain ⟨n, hn, hj⟩ := mem_ancestors.mp hj
    obtain ⟨d, hd, _⟩ := ((h.node i n hn).ancestors j).mp hj
    exact exists_entity?.mp ⟨d, hd⟩
  case descendants =>
    intro i j hj
    obtain ⟨n, hn, hj⟩ := mem_descendants.mp hj
    rw [(hblank i n hn).1] at hj
    cases hj
  case adjacency =>
    intro i j hj
    obtain ⟨n, hn, hj⟩ := mem_adjacency.mp hj
    rw [(hblank i n hn).2] at hj
    cases hj
  case roots => exact t.roots_lt

theorem Built.inRange (h : Built ds t) : t.InRange where
  index _ _ hi := h.indexed.lt hi
  ancestors := h.lists.ancestors_lt
  descendants := h.descendants_lt
  adjacency i j hj := by
    rcases (h.adjacency i j).mp hj with hj | hj
    · exact h.lists.ancestors_lt i j hj
    · exact h.descendants_lt i j hj
  roots := t.roots_lt

/-- The search for a cycle keeps to the nodes in every state, to the end. -/
structure DetectsInRange (t : Table E) : Prop where
  states : ∀ s, Cycle.Search.Passes t.descendants t.size s → s.InRange t.size
  ends : ∃ s, Cycle.Search.Passes t.descendants t.size s ∧ match t.findCycleNodes with
    | none => s.path = []
    | some segment => s.step t.descendants = .found segment

theorem InRange.detects (h : t.InRange) : t.DetectsInRange where
  states _ hs := hs.inRange h.descendants
  ends := Cycle.Search.from?_passes .start rfl _

/-- So does the walk from the roots of a pruning. -/
structure WalksInRange (t : Table E) (roots : List E) : Prop where
  states : ∀ s, Relation.ReflTransGen t.Turn (t.rooted roots) s →
    s.2.size = t.size ∧ ∀ i ∈ s.1, i < t.size
  ends : Relation.ReflTransGen t.Turn (t.rooted roots)
    ([], t.reach (t.rooted roots).1 (t.rooted roots).2)

theorem InRange.walks (h : t.InRange) (roots : List E) : t.WalksInRange roots where
  states s hs := by
    have hspread := turns_spread hs (rooted_spread h.index roots)
    refine ⟨hspread.size, fun i hi => ?_⟩
    rw [← hspread.size]
    exact (hspread.stacked i hi).lt
  ends := reach_turns t _ _

end Table

namespace Component

variable {E : Type} [Entity E] {ds : List (E × List E)} {t : Table E} {c : Component}

/-- The rankee is a vertex of the component, or a cluster recorded on it that has members. -/
def Names (c : Component) : Rankee → Prop
  | .vertex v => v < c.size
  | .cluster k => ∃ q, c.cluster? k = some q ∧ q.members ≠ []

structure InRange (t : Table E) (c : Component) : Prop where
  vertices : ∀ v x, c.vertex? v = some x → x.node < t.size ∧
    (∀ w ∈ x.ancestors, w < c.size) ∧ ∀ w ∈ x.descendants, w < c.size
  roots : ∀ v ∈ c.roots, v < c.size
  pinnacles : ∀ v ∈ c.pinnacles, v < c.size
  clusters : ∀ k ∈ c.clusters, k.members ≠ [] ∧ ∀ v ∈ k.members, v < c.size
  cohorts : ∀ cohort ∈ c.cohorts, ∀ x ∈ cohort, c.Names x

theorem Faithful.lt_of_ancestor (h : c.Faithful ds t) {v w : VertId} (hw : w ∈ c.ancestors v) :
    w < c.size := by
  obtain ⟨_, d, _, hd, _⟩ := (h.ancestors v w).mp hw
  exact lt_of_entity? hd

theorem Faithful.inRange (h : c.Faithful ds t)
    (hclusters : ∀ k ∈ c.clusters, k.members ≠ [] ∧ ∀ v ∈ k.members, v < c.size)
    (hcohorts : ∀ cohort ∈ c.cohorts, ∀ x ∈ cohort, c.Names x) : c.InRange t where
  vertices v x hx := by
    refine ⟨?_, fun w hw => ?_, fun w hw => ?_⟩
    · obtain ⟨e, he⟩ := h.entity v (Array.getElem?_eq_some_iff.mp hx).1
      rw [entity?, hx] at he
      exact Table.exists_entity?.mp ⟨e, he⟩
    · apply h.lt_of_ancestor (v := v)
      simpa [Component.ancestors, hx] using hw
    · apply h.lt_of_link (v := v)
      simpa [Component.descendants, hx] using hw
  roots v hv := ((h.roots v).mp hv).1
  pinnacles v hv := ((h.pinnacles v).mp hv).1
  clusters := hclusters
  cohorts := hcohorts

theorem Faithful.class_inRange (h : c.Faithful ds t)
    (hc : MutualClasses c.descendants (c.clusters.map (·.members))) :
    ∀ k ∈ c.clusters, k.members ≠ [] ∧ ∀ v ∈ k.members, v < c.size := by
  intro k hk
  have hmem := List.mem_map_of_mem (f := (·.members)) hk
  exact ⟨hc.ne_nil hmem, fun v hv => hc.lt (fun _ _ hw => h.lt_of_link hw) hmem hv⟩

theorem Holds.names {x : Rankee} {v : VertId} (h : c.Holds x v) : c.Names x := by
  cases x with
  | vertex w => exact h.1 ▸ h.2.1
  | cluster i =>
    obtain ⟨q, hq, hv⟩ := h
    exact ⟨q, hq, List.ne_nil_of_mem hv⟩

theorem exists_rank {cohort : List Rankee} (hcohort : cohort ∈ c.cohorts) {x : Rankee}
    (hx : x ∈ cohort) : ∃ k, x ∈ c.cohorts.getD k [] := by
  obtain ⟨k, hk⟩ := List.mem_iff_getElem?.mp hcohort
  exact ⟨k, mem_getD_nil.mpr ⟨cohort, hk, hx⟩⟩

theorem Settled.inRange (h : c.Settled ds t) : c.InRange t := by
  apply h.faithful.inRange (h.faithful.class_inRange h.classes)
  intro cohort hcohort x hx
  obtain ⟨k, hk⟩ := exists_rank hcohort hx
  obtain ⟨v, hv, _⟩ := (h.layered.mem k x).mp hk
  exact hv.names

/-- The search for clusters keeps to the vertices in every state, to the end. -/
structure SearchesInRange (c : Component) (f : Cluster.Finder) : Prop where
  states : ∀ g, Cluster.Finder.Passes c.descendants c.size g → g.InRange c.size
  ends : Cluster.Finder.Passes c.descendants c.size (f.explore c)

theorem InRange.searches (h : c.InRange t) (f : Cluster.Finder) : c.SearchesInRange f where
  states g hg := by
    apply hg.inRange
    intro v u hu
    cases hx : c.vertex? v with
    | none => simp [descendants, hx] at hu
    | some x =>
      simp only [descendants, hx, Option.map_some, Option.getD_some] at hu
      exact (h.vertices v x hx).2.2 u hu
  ends := (Cluster.Finder.explore_rests f c).1

/-- The ranking of a component with its clusters keeps to the groups of its collapsed form, and
leaves a component that is in range again. -/
structure RanksInRange (t : Table E) (c : Component) (r : Cohort.Ranker) : Prop where
  before : c.InRange t
  collapsed : Collapsed.InRange c
  states : ∀ s, Cohort.Ranking.Passes (Collapsed.ofComponent c) s →
    s.InRange (Collapsed.ofComponent c).size
  waves : ∀ wave ∈ (r.run (Collapsed.ofComponent c)).cohorts,
    ∃ s, Cohort.Ranking.Passes (Collapsed.ofComponent c) s ∧ s.ranker.wave = wave
  ends : Cohort.Ranking.Passes (Collapsed.ofComponent c) (r.run (Collapsed.ofComponent c)) ∧
    (r.run (Collapsed.ofComponent c)).ranker.wave = []
  after : ∃ c' r', r.rank c t = (.ok (), c', r') ∧ c'.InRange t

theorem Faithful.ranks (h : c.Faithful ds t) (hf : c.Fresh) (hnone : c.cohorts = [])
    (f : Cluster.Finder) (r : Cohort.Ranker) : RanksInRange t (c.setClusters (f.find c t).1) r := by
  obtain ⟨hclasses, _⟩ := Cluster.find_classes f h
  have hclustered := setClusters_clustered h hf hclasses
  have hcopy := (setClusters_sameGraph c (f.find c t).1).faithful (fun _ => rfl) h
  have hpasses := Cohort.Ranking.run_passes (Collapsed.size_descendants _)
    (fun _ _ hj => Collapsed.next_lt hclustered.parted hj) (Collapsed.next_nodup _) r
  constructor
  case before =>
    apply hcopy.inRange (hcopy.class_inRange hclustered.classes)
    intro cohort hcohort
    have hempty : (c.setClusters (f.find c t).1).cohorts = [] := hnone
    rw [hempty] at hcohort
    cases hcohort
  case collapsed => exact hclustered.inRange
  case states => exact fun s hs => hs.inRange hclustered
  case waves => exact hpasses.1
  case ends => exact hpasses.2
  case after =>
    obtain ⟨c', r', hok, _, hsettled⟩ := rank_settled f r h hf
    exact ⟨c', r', hok, hsettled.inRange⟩

end Component

namespace Table

variable {E : Type} [Entity E] {ds : List (E × List E)} {t : Table E}

theorem split_inRange (h : Built ds t) {c : Component} (hc : c ∈ t.split.1.components) :
    c.InRange t.split.2 := by
  obtain ⟨hclusters, hcohorts⟩ := split_blank h hc
  apply (split_ready h hc).1.inRange
  · rw [hclusters]
    simp
  · rw [hcohorts]
    simp

end Table

namespace Resolution

variable {E : Type} [Entity E] {ds : List (E × List E)} {r : Resolution E}

/-- What the queries of a resolution look up is there: for every known entity its node, component
and vertex, for every rankee of a cohort its entry and that entry's first entity, and for every
rank, that of the isolated entities included, a place among the cohorts. -/
structure InRange (r : Resolution E) : Prop where
  table : r.table.InRange
  components : ∀ c ∈ r.components, c.InRange r.table
  isolated : ∀ i ∈ r.partition.isolated, i < r.table.size
  places : ∀ i n k, r.table.node? i = some n → n.component = some k →
    ∃ c v, r.partition.component? k = some c ∧ r.partition.vertOf? i = some v ∧ v < c.size
  entries : ∀ c ∈ r.components, ∀ cohort ∈ c.cohorts, ∀ x ∈ cohort,
    ∃ entry e, r.entry? c x = some entry ∧ entry.head? = some e
  ranks : ∀ c ∈ r.components, ∀ k < c.cohorts.length, k < r.depth
  bottom : r.partition.isolated ≠ [] → 0 < r.depth
  walks : ∀ roots, r.table.WalksInRange roots

theorem depth_bottom (h : r.partition.isolated ≠ []) : 0 < r.depth := by
  rw [depth, lt_foldl_max, if_neg (by simpa using h)]
  exact Or.inl Nat.one_pos

theorem lt_depth_of_cohort {c : Component} (hc : c ∈ r.components) {k : Nat}
    (hk : k < c.cohorts.length) : k < r.depth := by
  rw [depth, lt_foldl_max]
  exact Or.inr ⟨_, List.mem_map_of_mem hc, hk⟩

theorem Sound.inRange (h : r.Sound ds) : r.InRange := by
  have htable := h.built.inRange
  constructor
  case table => exact htable
  case components => exact fun c hc => (h.settled c hc).inRange
  case isolated =>
    intro i hi
    obtain ⟨e, he, _⟩ := (h.isolated i).mp hi
    exact Table.exists_entity?.mp ⟨e, he⟩
  case places =>
    intro i n k hn hk
    rcases h.place i n hn with ⟨hnone, _⟩ | ⟨l, c, v, hl, hc, hv, he⟩
    · cases hk.symm.trans hnone
    · obtain rfl := Option.some.inj (hk.symm.trans hl)
      exact ⟨c, v, hc, hv, Component.lt_of_entity? he⟩
  case entries =>
    intro c hc cohort hcohort x hx
    obtain ⟨k, hk⟩ := Component.exists_rank hcohort hx
    obtain ⟨v, hv, _⟩ := ((h.settled c hc).layered.mem k x).mp hk
    obtain ⟨entry, hentry⟩ := h.exists_entry hc hv
    have hat : entry ∈ r.entriesAt k := mem_entriesAt.mpr (Or.inr ⟨c, hc, x, hk, hentry⟩)
    obtain ⟨e, he⟩ := h.exists_head hat
    exact ⟨entry, e, hentry, he⟩
  case ranks => exact fun c hc k hk => lt_depth_of_cohort hc hk
  case bottom => exact depth_bottom
  case walks => exact htable.walks

end Resolution

namespace Table

variable {E : Type} [Entity E]

/-- From the first declaration to the last query no number goes out of range, whatever was declared
and whatever the options say: in the table before it is built and after, in each component as it
is split off, searched with any finder and ranked with any ranker, and in what comes out. -/
theorem resolve_in_range (calls : List (E × List E)) :
    (ofCalls calls).InRange ∧
      ∃ t, (ofCalls calls).build = (.ok (), t) ∧ t.InRange ∧ t.DetectsInRange ∧
        (∀ c ∈ t.split.1.components, c.InRange t.split.2 ∧
          ∀ (f : Cluster.Finder) (r : Cohort.Ranker), c.SearchesInRange f ∧
            Component.RanksInRange t.split.2 (c.setClusters (f.find c t.split.2).1) r) ∧
        ∀ o r, (ofCalls calls).resolve o = .ok r → r.InRange := by
  have hr := ofCalls_records calls
  obtain ⟨t, hb⟩ := build_of_unfrozen hr.unfrozen
  have hbuilt := build_built hr hb
  refine ⟨hr.inRange, t, hb, hbuilt.inRange, hbuilt.inRange.detects, ?_, ?_⟩
  · intro c hc
    obtain ⟨hfaithful, hfresh⟩ := split_ready hbuilt hc
    have hrange := split_inRange hbuilt hc
    refine ⟨hrange, fun f r => ⟨hrange.searches f, ?_⟩⟩
    exact hfaithful.ranks hfresh (split_blank hbuilt hc).2 f r
  · intro o r hres
    exact (resolve_sound hr hres).inRange

end Table

end DepGraph
