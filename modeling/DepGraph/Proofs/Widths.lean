import DepGraph.Proofs.Counting
import DepGraph.Proofs.Histories
import DepGraph.Proofs.Ranges
import DepGraph.Proofs.Settling
import DepGraph.Proofs.Stalling

/-!
# Counts stay within a word

Every number that is counted up or down is bounded by the number of nodes: the numbers given out
to nodes, vertices, components and clusters, the clock of the search for clusters, and the counts
and ranks of a ranking. A ranking is a sequence of links, each settled once, and no link is settled
that its target does not still count. So a table that a word can count overflows nowhere.
-/

namespace DepGraph

namespace Cluster.Finder

variable {next : Nat → List Nat} {n : Nat} {f : Finder}

/-- The clock counts the vertices that are discovered, and no time is ahead of it. -/
structure Counts (n : Nat) (f : Finder) : Prop where
  discovered : f.clock = f.disc.countP (0 < ·)
  bounded : f.clock ≤ n
  times : ∀ v, f.time v ≤ f.clock

theorem Passes.counts (hnext : ∀ v, ∀ u ∈ next v, u < n) (h : Passes next n f) : f.Counts n := by
  have hinv := h.invariant hnext
  have hclock := hinv.clock_count
  have hopen : f.disc.countP (fun time => decide ¬ (decide (0 < time) = true)) =
      f.disc.count 0 := by
    rw [Array.count]
    congr 1
    funext time
    cases time <;> rfl
  have hsplit : f.disc.size = _ := Array.size_eq_countP_add_countP (p := fun time => 0 < time)
  rw [hopen, hinv.disc_size] at hsplit
  exact ⟨by omega, by omega, hinv.time_le⟩

end Cluster.Finder

namespace Component

variable {E : Type} [Entity E] {ds : List (E × List E)} {t : Table E} {c : Component}

/-- The search for clusters in a component: the clock of every state, and the numbers given to the
clusters. -/
structure SearchFits (t : Table E) (c : Component) (f : Cluster.Finder) : Prop where
  width : c.size < 2 ^ 32
  states : ∀ g, Cluster.Finder.Passes c.descendants c.size g → g.Counts c.size
  ends : Cluster.Finder.Passes c.descendants c.size (f.explore c)
  ids : ∀ i k, (f.find c t).1[i]? = some k → k.id = i ∧ i < 2 ^ 32

theorem Faithful.searchFits (h : c.Faithful ds t) (hsize : c.size < 2 ^ 32) (f : Cluster.Finder) :
    c.SearchFits t f := by
  obtain ⟨hclasses, _⟩ := Cluster.find_classes f h
  have hlink (v u : VertId) (hu : u ∈ c.descendants v) : u < c.size := h.lt_of_link hu
  have hcount : (f.find c t).1.length ≤ c.size := by
    rw [← List.length_map (·.members)]
    refine length_le_of_flatten ?_ hclasses.flatten_nodup ?_
    · exact fun ms hms => hclasses.ne_nil hms
    · intro v hv
      obtain ⟨ms, hms, hv⟩ := List.mem_flatten.mp hv
      exact hclasses.lt hlink hms hv
  refine ⟨hsize, fun g hg => hg.counts hlink, (f.explore_rests c).1, ?_⟩
  intro i k hk
  have hi := (List.getElem?_eq_some_iff.mp hk).1
  exact ⟨Cluster.find_id f hk, by omega⟩

/-- The ranking of a component: no more groups than vertices, and the counts of the groups. -/
structure RankingFits (c : Component) (r : Cohort.Ranker) : Prop where
  width : c.size < 2 ^ 32
  groups : (Collapsed.ofComponent c).size ≤ c.size
  counts : Cohort.Ranker.Counts (Collapsed.ofComponent c) r

theorem groups_le (h : Collapsed.Parted c) (hne : ∀ k ∈ c.clusters, k.members ≠ []) :
    (Collapsed.ofComponent c).size ≤ c.size := by
  rw [Collapsed.size_ofComponent, ← List.length_map (·.members)]
  refine length_le_of_flatten ?_ h.nodup fun v hv => (h.cover v).mp hv
  intro ms hms
  rw [Collapsed.members_groupsOf, List.mem_append, List.mem_map, List.mem_map] at hms
  rcases hms with ⟨k, hk, rfl⟩ | ⟨v, _, rfl⟩
  · exact hne k hk
  · exact List.cons_ne_nil v []

theorem rankingFits (h : Collapsed.Parted c) (hne : ∀ k ∈ c.clusters, k.members ≠ [])
    (hsize : c.size < 2 ^ 32) (r : Cohort.Ranker) : c.RankingFits r where
  width := hsize
  groups := groups_le h hne
  counts := Cohort.Ranker.counts (Collapsed.size_descendants c)
    (fun _ _ hj => Collapsed.next_lt h hj) (Collapsed.next_nodup c) r

theorem Faithful.rankingFits (h : c.Faithful ds t) (hf : c.Fresh) (hsize : c.size < 2 ^ 32)
    (f : Cluster.Finder) (r : Cohort.Ranker) :
    (c.setClusters (f.find c t).1).RankingFits r := by
  obtain ⟨hclasses, _⟩ := Cluster.find_classes f h
  have hsame := setClusters_sameGraph c (f.find c t).1
  apply Component.rankingFits (setClusters_clustered h hf hclasses).parted
  · exact fun k hk => hclasses.ne_nil (List.mem_map_of_mem hk)
  · rwa [hsame.size]

theorem Bare.rankingFits {c' : Component} (hb : c.Bare) (hsize : c.size < 2 ^ 32)
    (hu : Cohort.Ranker.Unclustered t c c') (r : Cohort.Ranker) : c'.RankingFits r := by
  obtain ⟨hsame, hbare⟩ := hu.sameGraph hb
  apply Component.rankingFits (Collapsed.parted_of_bare hbare)
  · rw [hbare.clusters]
    intro k hk
    cases hk
  · rwa [hsame.size]

end Component

namespace Table

variable {E : Type} [Entity E] {ds : List (E × List E)} {t : Table E}

theorem components_le (h : Built ds t) : t.split.1.components.length ≤ t.size := by
  have hlen : t.split.1.components.length = t.parts.length := by
    simp [split_of_frozen h.frozen]
  rw [hlen]
  refine length_le_of_flatten ?_ (parts_grouped h).nodup fun i hi => parts_lt h hi
  intro members hmem
  obtain ⟨k, hk⟩ := List.mem_iff_getElem?.mp hmem
  have hlarge := part_large h hk
  exact List.ne_nil_of_length_pos (by omega)

theorem component_le (h : Built ds t) {c : Component} (hc : c ∈ t.split.1.components) :
    c.size ≤ t.size := by
  obtain ⟨k, members, hk, rfl⟩ := mem_split_components h hc
  rw [toComponent_size]
  have hmem := List.mem_of_getElem? hk
  refine length_le_of_lt ((List.nodup_flatten.mp (parts_grouped h).nodup).1 members hmem) ?_
  intro i hi
  exact parts_lt h (List.mem_flatten.mpr ⟨members, hmem, hi⟩)

/-- The numbers given out by a split, and all counts on the way from its components to their
ranks, those of components on which no cluster is recorded included. -/
structure SplitFits (p : Partition) (t : Table E) : Prop where
  ids : ∀ k c, p.components[k]? = some c → c.id = k ∧ k < 2 ^ 32
  numbers : ∀ i v, p.vertOf? i = some v → v < 2 ^ 32
  searches : ∀ c ∈ p.components, ∀ f : Cluster.Finder, c.SearchFits t f
  rankings : ∀ c ∈ p.components, ∀ (f : Cluster.Finder) (r : Cohort.Ranker),
    (c.setClusters (f.find c t).1).RankingFits r
  unclustered : ∀ c ∈ p.components, ∀ c', Cohort.Ranker.Unclustered t c c' →
    ∀ r, c'.RankingFits r

theorem Built.splitFits (h : Built ds t) (hsize : t.size < 2 ^ 32) :
    SplitFits t.split.1 t.split.2 := by
  have hwidth {c : Component} (hc : c ∈ t.split.1.components) : c.size < 2 ^ 32 :=
    Nat.lt_of_le_of_lt (component_le h hc) hsize
  constructor
  case ids =>
    intro k c hc
    have hk := (List.getElem?_eq_some_iff.mp hc).1
    have hcount := components_le h
    exact ⟨split_id h.frozen hc, by omega⟩
  case numbers =>
    intro i v hv
    obtain ⟨_, k, _, _, c, x, hc, hx, _⟩ := (vertOf?_split h).mp hv
    have hlt := (Array.getElem?_eq_some_iff.mp hx).1
    exact Nat.lt_trans hlt (hwidth (List.mem_of_getElem? hc))
  case searches =>
    intro c hc f
    exact (split_ready h hc).1.searchFits (hwidth hc) f
  case rankings =>
    intro c hc f r
    obtain ⟨hcopy, hfresh⟩ := split_ready h hc
    exact hcopy.rankingFits hfresh (hwidth hc) f r
  case unclustered =>
    intro c hc c' hu r
    obtain ⟨_, hfresh⟩ := split_ready h hc
    exact (hfresh.bare (split_blank h hc).1).rankingFits (hwidth hc) hu r

theorem internAll_append (t : Table E) (xs ys : List E) :
    (t.internAll (xs ++ ys)).2 = ((t.internAll xs).2.internAll ys).2 := by
  induction xs generalizing t with
  | nil => rfl
  | cons x xs ih => exact ih (t.intern x).2

/-- While the calls are taken, `e` is looked up in `t` and gets a number if it has none. -/
inductive Interns (calls : List (E × List E)) : Table E → E → Prop where
  | call {before after : List (E × List E)} {e d : E} {deps told rest : List E}
      {id : NodeId} {added : Table E} : calls = before ++ (e, deps) :: after →
      (ofCalls before).add e deps = (.ok id, added) → e :: deps = told ++ d :: rest →
      Interns calls ((ofCalls before).internAll told).2 d

theorem Interns.lt {calls : List (E × List E)} {e : E} (h : Interns calls t e) :
    (t.intern e).1 < (ofCalls calls).size := by
  obtain ⟨hcalls, hadd, hdeps⟩ := h
  rename_i before after e' deps told rest id added
  have hr := ofCalls_records before
  have hold := internAll_spec hr.indexed told
  have hnew := intern_spec hold.indexed e
  have hrest := internAll_spec hnew.indexed rest
  have hall : ((ofCalls before).internAll (e' :: deps)).2 =
      ((((ofCalls before).internAll told).2.intern e).2.internAll rest).2 := by
    rw [hdeps, internAll_append]
    rfl
  have hadded : (ofCalls before).offer (e', deps) = added := by rw [offer, hadd]
  have hkept : added.entity? (((ofCalls before).internAll told).2.intern e).1 = some e := by
    obtain ⟨_, _, _, _, rfl⟩ := add_cases hadd
    rw [declare_entity?]
    exact hall ▸ hrest.grows.entity? hnew.entity
  have hcalls' : ofCalls calls = after.foldl offer added := by
    rw [hcalls, ofCalls, List.foldl_append, List.foldl_cons, ← hadded]
    rfl
  rw [hcalls']
  exact exists_entity?.mp ⟨e, foldl_offer_keeps (add_records hr hadd) hkept after⟩

/-- Nothing that is counted from the first declaration to the last rank exceeds a word. -/
structure CountsFit (calls : List (E × List E)) : Prop where
  interned : ∀ t e, Interns calls t e → (t.intern e).1 < 2 ^ 32
  built : ∃ t, (ofCalls calls).build = (.ok (), t) ∧ (∀ i ∈ t.ids, i < 2 ^ 32) ∧
    SplitFits t.split.1 t.split.2

/-- A table of fewer nodes than a word can count overflows nowhere. -/
theorem counts_fit (calls : List (E × List E)) (hsize : (ofCalls calls).size < 2 ^ 32) :
    CountsFit calls := by
  have hr := ofCalls_records calls
  obtain ⟨t, hb⟩ := build_of_unfrozen hr.unfrozen
  have hnodes : t.size < 2 ^ 32 := by
    rwa [← length_names, build_names hb, length_names]
  refine ⟨fun u e hu => Nat.lt_trans hu.lt hsize, t, hb, ?_, (build_built hr hb).splitFits hnodes⟩
  intro i hi
  exact Nat.lt_trans (List.mem_range.mp hi) hnodes

/-- Two entities that need each other, with one above them and one below. -/
theorem counts_fit_pair : (ofCalls [((3 : Int), [1]), (1, [2, 4]), (2, [1])]).size < 2 ^ 32 ∧
    CountsFit [((3 : Int), [1]), (1, [2, 4]), (2, [1])] := by
  have hnames := (ofCalls_records [((3 : Int), [1]), (1, [2, 4]), (2, [1])]).names
  rw [taken_eq (by decide) (by decide)] at hnames
  have hcount := congrArg List.length hnames
  rw [length_names] at hcount
  have hsize : (ofCalls [((3 : Int), [1]), (1, [2, 4]), (2, [1])]).size < 2 ^ 32 := by
    rw [hcount]
    decide
  exact ⟨hsize, counts_fit _ hsize⟩

end Table

end DepGraph
