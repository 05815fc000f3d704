import DepGraph.Prune
import DepGraph.Resolution.Queries
import DepGraph.Proofs.Histories
import DepGraph.Proofs.Outcomes

/-!
# Dropping self references

A declaration without its self reference makes the same nodes, since the entity itself is interned
before its dependencies. Only the list recorded on its node is shorter by the node itself, and the
build takes that out anyway. So the built tables differ in the flags alone, and no phase after the
build reads those except to refuse a self loop or to count it.
-/

namespace DepGraph

variable {E : Type} [Entity E]

def otherThan (e : E) (deps : List E) : List E := deps.filter (!Entity.same e ·)

/-- The declarations with every entity dropped from its own dependencies. -/
def withoutSelf (ds : List (E × List E)) : List (E × List E) :=
  ds.map fun d => (d.1, otherThan d.1 d.2)

theorem withoutSelf_plain {ds : List (E × List E)} (h : Plain ds) : Plain (withoutSelf ds) := by
  constructor
  · have hnames : (withoutSelf ds).map (·.1) = ds.map (·.1) := by
      simp [withoutSelf, Function.comp_def]
    rw [hnames]
    exact h.distinct
  · intro d hd
    obtain ⟨d', hd', rfl⟩ := List.mem_map.mp hd
    exact (h.deps d' hd').filter _

def Node.unflagged {E : Type} (n : Node E) : Node E := { n with selfLoop := false }

namespace Table

variable {t t' : Table E} {ds : List (E × List E)} {e : E} {deps : List E} {id i : NodeId}

/-- The table with every node dropped from its own list. -/
def selfless (t : Table E) : Table E :=
  { t with nodes := t.nodes.mapIdx fun i n => { n with ancestors := n.ancestors.erase i } }

theorem selfless_node? (t : Table E) (i : NodeId) : t.selfless.node? i =
    (t.node? i).map fun n => { n with ancestors := n.ancestors.erase i } :=
  Array.getElem?_mapIdx

theorem selfless_idOf? (t : Table E) (e : E) : t.selfless.idOf? e = t.idOf? e := rfl

theorem selfless_size (t : Table E) : t.selfless.size = t.size := Array.size_mapIdx

theorem selfless_isDeclared (t : Table E) (e : E) : t.selfless.isDeclared e = t.isDeclared e := by
  rw [isDeclared, isDeclared, selfless_idOf?]
  cases t.idOf? e with
  | none => rfl
  | some i =>
    simp only [Option.bind_some, selfless_node?]
    cases t.node? i <;> rfl

theorem selfless_intern (t : Table E) (e : E) :
    t.selfless.intern e = ((t.intern e).1, (t.intern e).2.selfless) := by
  unfold intern
  rw [selfless_idOf?, selfless_size]
  cases t.idOf? e with
  | some id => rfl
  | none => simp [selfless, Array.mapIdx_push]

theorem intern_of_idOf? (h : t.idOf? e = some id) : t.intern e = (id, t) := by
  rw [intern, h]

theorem selfless_internAll (hi : Indexed t) (hid : t.idOf? e = some id) (deps : List E) :
    t.selfless.internAll (otherThan e deps) =
      ((t.internAll deps).1.filter (· != id), (t.internAll deps).2.selfless) := by
  induction deps generalizing t with
  | nil => rfl
  | cons d deps ih =>
    by_cases hd : e = d
    · subst hd
      have hdrop : otherThan e (e :: deps) = otherThan e deps := by simp [otherThan, Entity.same]
      rw [hdrop, ih hi hid, internAll, intern_of_idOf? hid]
      simp
    · have hsame : Entity.same e d = false := by
        rw [← Bool.not_eq_true, Entity.same_iff]
        exact hd
      have hkeep : otherThan e (d :: deps) = d :: otherThan e deps := by
        simp [otherThan, hsame]
      have hfirst := intern_spec hi d
      have hknown : (t.intern d).2.idOf? e = some id :=
        (hfirst.indexed e id).mpr (hfirst.grows.entity? ((hi e id).mp hid))
      have hne : (t.intern d).1 ≠ id := by
        intro heq
        have hname := hfirst.entity
        rw [heq, (hfirst.indexed e id).mp hknown] at hname
        exact hd (Option.some.inj hname)
      rw [hkeep, internAll, selfless_intern, internAll]
      simp only [ih hfirst.indexed hknown]
      simp [hne]

theorem selfless_declare (t : Table E) (id : NodeId) (ids : List NodeId) :
    (t.declare id ids).selfless = t.selfless.declare id (ids.erase id) := by
  have hnodes : (t.declare id ids).selfless.nodes =
      (t.selfless.declare id (ids.erase id)).nodes := by
    apply Array.ext_getElem?
    intro i
    change (t.declare id ids).selfless.node? i = (t.selfless.declare id (ids.erase id)).node? i
    rw [selfless_node?, declare_node?, declare_node?, selfless_node?]
    by_cases hi : id = i
    · subst hi
      rw [if_pos rfl, if_pos rfl, Option.map_map, Option.map_map]
      rfl
    · rw [if_neg hi, if_neg hi]
  exact congrArg (fun nodes => ({ t with nodes } : Table E)) hnodes

theorem mergeSort_filter_ne {ids : List NodeId} (h : ids.Nodup) (id : NodeId) :
    (ids.filter (· != id)).mergeSort = ids.mergeSort.erase id := by
  have hasc := ascending_mergeSort h
  have hnodup : ids.mergeSort.Nodup := hasc.imp fun hlt => Nat.ne_of_lt hlt
  refine Entity.eq_of_ordered (fun _ _ => Nat.lt_asymm) (ascending_mergeSort (h.filter _))
    (hasc.sublist List.erase_sublist) fun i => ?_
  simp [hnodup.mem_erase_iff, and_comm]

/-- One declaration less its self reference. -/
theorem add_selfless (hr : Records ds t) (h : t.add e deps = (.ok id, t')) :
    t.selfless.add e (otherThan e deps) = (.ok id, t'.selfless) := by
  obtain ⟨hfrozen, hdeclared, hdeps, rfl, rfl⟩ := add_cases h
  have hfirst := intern_spec hr.indexed e
  have hall := internAll_spec hfirst.indexed deps
  have hid := (hfirst.indexed e (t.intern e).1).mpr hfirst.entity
  have hnone : Entity.repeated? (otherThan e deps) = none :=
    Entity.repeated?_eq_none_iff.mpr (hdeps.filter _)
  have hfrozen' : ¬ t.selfless.frozen = true := by simp [selfless, hfrozen]
  rw [add, if_neg hfrozen', selfless_isDeclared, if_neg hdeclared, hnone]
  simp only [selfless_intern, selfless_internAll hfirst.indexed hid]
  rw [selfless_declare, mergeSort_filter_ne (hall.nodup hdeps)]

/-- Without their self references the declarations lead to the same table, less those. -/
theorem ofCalls_withoutSelf (calls : List (E × List E)) :
    ofCalls (withoutSelf (taken calls)) = (ofCalls calls).selfless := by
  have hnew : Records [] ({} : Table E) ∧ ofCalls (withoutSelf []) = ({} : Table E).selfless :=
    ⟨records_new, rfl⟩
  have hrun := offer_induction
    (P := fun ds t => Records ds t ∧ ofCalls (withoutSelf ds) = t.selfless) ?_ hnew calls
  · exact hrun.2
  · intro ds t t' e deps id h hadd
    obtain ⟨hr, hds⟩ := h
    have hoffer : offer t.selfless (e, otherThan e deps) = t'.selfless := by
      simp only [offer, add_selfless hr hadd]
    refine ⟨add_records hr hadd, ?_⟩
    rw [withoutSelf, List.map_append, ofCalls, List.foldl_append, ← ofCalls, ← withoutSelf, hds]
    exact hoffer

def unflagged (t : Table E) : Table E := { t with nodes := t.nodes.map Node.unflagged }

omit [Entity E] in
theorem dropSelf_twice {n : Node E} (h : n.ancestors.Nodup) (i : NodeId) :
    dropSelf i { n with ancestors := n.ancestors.erase i } = (dropSelf i n).unflagged := by
  have hgone : i ∉ n.ancestors.erase i := h.not_mem_erase
  have hflag : (n.ancestors.erase i).contains i = false := by simpa using hgone
  rw [dropSelf, dropSelf, Node.unflagged, hflag]
  simp [List.erase_of_not_mem hgone]

theorem build_selfless (hr : Records ds t) (h : t.build = (.ok (), t')) :
    t.selfless.build = (.ok (), t'.unflagged) := by
  have hnodes : t.selfless.nodes.mapIdx dropSelf =
      (t.nodes.mapIdx dropSelf).map Node.unflagged := by
    apply Array.ext_getElem?
    intro i
    rw [Array.getElem?_mapIdx, Array.getElem?_map, Array.getElem?_mapIdx]
    change (t.selfless.node? i).map _ = ((t.node? i).map _).map _
    rw [selfless_node?]
    cases hn : t.node? i with
    | none => rfl
    | some n =>
      have hnodup : n.ancestors.Nodup := (hr.node i n hn).ascending.imp fun hlt => Nat.ne_of_lt hlt
      exact congrArg some (dropSelf_twice hnodup i)
  have hlinks : linksOf (t.selfless.nodes.mapIdx dropSelf) = linksOf (t.nodes.mapIdx dropSelf) := by
    apply linksOf_congr
    intro i
    rw [hnodes, Array.getElem?_map, Option.map_map]
    rfl
  have hfrozen : t.selfless.frozen = false := hr.unfrozen
  rw [build, if_neg (by simp [hr.unfrozen])] at h
  obtain rfl := (Prod.mk.inj h).2
  rw [build, if_neg (by simp [hfrozen])]
  simp only [hlinks]
  rw [hnodes]
  simp only [unflagged, Array.map_zipWith, Array.zipWith_map_left, Array.size_map]
  rfl

theorem unflagged_node? (t : Table E) (i : NodeId) :
    t.unflagged.node? i = (t.node? i).map Node.unflagged :=
  Array.getElem?_map

theorem unflagged_reads {α : Type} (t : Table E) (read : Node E → α)
    (hread : ∀ n, read n.unflagged = read n) (i : NodeId) :
    (t.unflagged.node? i).map read = (t.node? i).map read := by
  rw [unflagged_node?, Option.map_map]
  exact congrArg (Option.map · _) (funext hread)

theorem unflagged_any (t : Table E) (p : Node E → Bool)
    (hp : ∀ n, p n.unflagged = p n) (i : NodeId) :
    (t.unflagged.node? i).any p = (t.node? i).any p := by
  rw [unflagged_node?, Option.any_map]
  exact congrArg (Option.any · _) (funext hp)

@[simp]
theorem unflagged_size (t : Table E) : t.unflagged.size = t.size := Array.size_map

@[simp]
theorem unflagged_ids (t : Table E) : t.unflagged.ids = t.ids := by
  rw [ids, ids, unflagged_size]

@[simp]
theorem unflagged_idOf? (t : Table E) : t.unflagged.idOf? = t.idOf? := rfl

@[simp]
theorem unflagged_entity? (t : Table E) : t.unflagged.entity? = t.entity? :=
  funext (unflagged_reads t (·.entity) fun _ => rfl)

@[simp]
theorem unflagged_entities (t : Table E) : t.unflagged.entities = t.entities := by
  funext ids
  rw [entities, entities, unflagged_entity?]

@[simp]
theorem unflagged_ancestors (t : Table E) : t.unflagged.ancestors = t.ancestors :=
  funext fun i => congrArg (·.getD []) (unflagged_reads t (·.ancestors) (fun _ => rfl) i)

@[simp]
theorem unflagged_descendants (t : Table E) : t.unflagged.descendants = t.descendants :=
  funext fun i => congrArg (·.getD []) (unflagged_reads t (·.descendants) (fun _ => rfl) i)

@[simp]
theorem unflagged_adjacency (t : Table E) : t.unflagged.adjacency = t.adjacency :=
  funext fun i => congrArg (·.getD []) (unflagged_reads t (·.adjacency) (fun _ => rfl) i)

@[simp]
theorem unflagged_roots (t : Table E) : t.unflagged.roots = t.roots := by
  rw [roots, roots, unflagged_ids]
  exact congrArg (List.filter · _) (funext (unflagged_any t _ fun _ => rfl))

theorem unflagged_selfLoops (t : Table E) : t.unflagged.selfLoops = [] := by
  simp [selfLoops, unflagged, Node.unflagged]

@[simp]
theorem unflagged_findCycle (t : Table E) : t.unflagged.findCycle = t.findCycle := by
  simp [findCycle, findCycleNodes]

@[simp]
theorem unflagged_parts (t : Table E) : t.unflagged.parts = t.parts := by
  have hmarks : t.unflagged.nodes.map (·.adjacency.isEmpty) =
      t.nodes.map (·.adjacency.isEmpty) := by
    simp [unflagged, Function.comp_def, Node.unflagged]
  rw [parts, parts, unflagged_adjacency, unflagged_ids, hmarks]

@[simp]
theorem unflagged_remap (t : Table E) : t.unflagged.remap = t.remap := by
  rw [remap, remap, unflagged_size, unflagged_parts]

theorem unflagged_markSplit (t : Table E) (gs : List (List NodeId)) :
    t.unflagged.markSplit gs = (t.markSplit gs).unflagged := by
  have hstart : t.unflagged.markIsolated.nodes = t.markIsolated.nodes.map Node.unflagged := by
    simp [unflagged, markIsolated, Function.comp_def, Node.unflagged]
  rw [markSplit_eq, markSplit_eq, hstart,
    Writes.each_map (fun (p : List NodeId × CompId) (n : Node E) =>
      { n with component := some p.2 }) (·.1) _ Node.unflagged fun _ _ => rfl]
  rfl

theorem unflagged_sameLinks (t : Table E) : SameLinks t t.unflagged where
  size := t.unflagged_size
  links := unflagged_reads t _ fun _ => rfl

theorem unflagged_split (h : t.frozen = true) :
    t.unflagged.split = (t.split.1, t.split.2.unflagged) := by
  have hfrozen : t.unflagged.frozen = true := h
  rw [split_of_frozen h, split_of_frozen hfrozen]
  simp only [unflagged_parts, unflagged_remap, unflagged_ids, unflagged_size, unflagged_adjacency,
    t.unflagged_sameLinks.toComponent, unflagged_markSplit]

theorem unflagged_reach (t : Table E) (stack : List NodeId) (marks : Array Bool) :
    t.unflagged.reach stack marks = t.reach stack marks := by
  fun_induction t.reach stack marks with
  | case1 marks => rw [reach]
  | case2 marks id rest fresh marks' hgather ih =>
    rw [reach, unflagged_ancestors, hgather]
    exact ih

theorem unflagged_pruneUnreachable (t : Table E) (roots : List E) :
    t.unflagged.pruneUnreachable roots = t.pruneUnreachable roots := by
  simp [pruneUnreachable, unflagged_reach]

end Table

@[simp]
theorem Component.entity?_unflagged (c : Component) (t : Table E) :
    c.entity? t.unflagged = c.entity? t := by
  funext v
  simp [entity?]

@[simp]
theorem Component.representative?_unflagged (c : Component) (t : Table E) :
    c.representative? t.unflagged = c.representative? t := by
  funext x
  cases x <;> simp [representative?]

theorem Cluster.Finder.find_unflagged (f : Finder) (c : Component) (t : Table E) :
    f.find c t.unflagged = f.find c t := by
  simp [find, search, number]

theorem Cohort.Ranker.rank_unflagged (r : Ranker) (c : Component) (t : Table E) :
    r.rank c t.unflagged = r.rank c t := by
  simp [rank, rankByWaves, rankTwoLevels]

namespace Resolution

theorem settle_unflagged (t : Table E) (f : Cluster.Finder) (r : Cohort.Ranker)
    (cs : List Component) : settle t.unflagged f r cs = settle t f r cs := by
  induction cs generalizing f r with
  | nil => rfl
  | cons c cs ih =>
    simp only [settle, Cluster.Finder.find_unflagged, Cohort.Ranker.rank_unflagged, ih]

theorem refusal?_ranking (t : Table E) : refusal? ⟨.ranking, false⟩ t = none := rfl

/-- Everything `r` can be asked, `s` answers alike, except that `s` counts no self loop. -/
structure AnswersAlike (r s : Resolution E) : Prop where
  partition : s.partition = r.partition
  entries : s.cohortEntries = r.cohortEntries
  cohorts : s.cohorts = r.cohorts
  clusters : s.clusters = r.clusters
  components : ∀ e, s.componentOf? e = r.componentOf? e
  ranks : ∀ e, s.rankOf? e = r.rankOf? e
  prune : ∀ publics, s.prune publics = r.prune publics
  unreachable : ∀ roots, s.table.pruneUnreachable roots = r.table.pruneUnreachable roots
  stats : s.stats = { r.stats with selfLoops := 0 }

def unflagged (r : Resolution E) : Resolution E := { r with table := r.table.unflagged }

variable (r : Resolution E)

theorem unflagged_cohortEntries : r.unflagged.cohortEntries = r.cohortEntries := by
  have hentry (c : Component) : entry? r.unflagged c = entry? r c := by
    funext x
    cases x <;> simp [unflagged, entry?, Component.entities]
  have hat (k : Nat) : r.unflagged.entriesAt k = r.entriesAt k := by
    simp only [entriesAt, hentry, isolated]
    simp only [unflagged, components, Table.unflagged_entities]
  simp only [cohortEntries, hat]
  rfl

theorem unflagged_rankOf? (e : E) : r.unflagged.rankOf? e = r.rankOf? e := by
  simp only [unflagged, rankOf?, Table.unflagged_idOf?, Table.unflagged_node?]
  cases r.table.idOf? e with
  | none => rfl
  | some i => cases hn : r.table.node? i <;> simp [hn, Node.unflagged]

theorem unflagged_answersAlike : AnswersAlike r r.unflagged where
  partition := rfl
  entries := unflagged_cohortEntries r
  cohorts := by rw [cohorts, unflagged_cohortEntries, ← cohorts]
  clusters := by
    simp only [unflagged, clusters, Component.entities, Component.entity?_unflagged]
    rfl
  components e := by
    simp only [unflagged, componentOf?, Table.unflagged_idOf?]
    cases r.table.idOf? e with
    | none => rfl
    | some i =>
      rw [Option.bind_some, Table.unflagged_node?, Option.bind_map]
      rfl
  ranks := unflagged_rankOf? r
  prune publics := by simp only [unflagged, prune, Table.unflagged_entities]
  unreachable := Table.unflagged_pruneUnreachable r.table
  stats := by
    simp only [unflagged, stats, selfLoops, Table.unflagged_selfLoops, Table.unflagged_size]
    rfl

end Resolution

namespace Table

/-- Of two tables whose builds differ in flags alone, the resolutions do so as well. -/
theorem resolve_unflagged {t t' b : Table E} {r : Resolution E} (hb : t.build = (.ok (), b))
    (hb' : t'.build = (.ok (), b.unflagged)) (h : t.resolve ⟨.ranking, false⟩ = .ok r) :
    t'.resolve ⟨.ranking, false⟩ = .ok r.unflagged := by
  rw [resolve, hb] at h
  rw [resolve, hb']
  simp only [Resolution.refusal?_ranking, unflagged_split (build_frozen hb).1,
    Resolution.settle_unflagged] at h ⊢
  split at h
  · cases h
  · obtain rfl := Except.ok.inj h
    rfl

open Classical in
/-- Self references are inert. Whatever declarations a table has taken, it takes them without their
self references too, and that changes the built table in nothing but the flags. So the partition,
the cycle found and, where self loops are not refused, every answer of the resolution are the same;
and the flags tell which entities listed themselves. -/
theorem selfReferences_inert (calls : List (E × List E)) :
    taken (withoutSelf (taken calls)) = withoutSelf (taken calls) ∧
    ∃ t, (ofCalls calls).build = (.ok (), t) ∧
      (ofCalls (withoutSelf (taken calls))).build = (.ok (), t.unflagged) ∧
      t.unflagged.split.1 = t.split.1 ∧
      t.unflagged.findCycle = t.findCycle ∧
      (∃ r s, (ofCalls calls).resolve ⟨.ranking, false⟩ = .ok r ∧
        (ofCalls (withoutSelf (taken calls))).resolve ⟨.ranking, false⟩ = .ok s ∧
        r.AnswersAlike s) ∧
      t.selfLoops =
        (t.nodes.toList.map (·.entity)).filter fun e => decide (Declares (taken calls) e e) := by
  have hr := ofCalls_records calls
  have hplain := withoutSelf_plain (taken_plain calls)
  obtain ⟨t, hb⟩ := build_of_unfrozen hr.unfrozen
  obtain ⟨r, hres⟩ := resolve_default hr
  have hb' := build_selfless hr hb
  have hres' := resolve_unflagged hb hb' hres
  rw [ofCalls_withoutSelf]
  refine ⟨taken_eq hplain.distinct hplain.deps, t, hb, hb', ?_, unflagged_findCycle t, ?_, ?_⟩
  · rw [unflagged_split (build_frozen hb).1]
  · exact ⟨r, r.unflagged, hres, hres', r.unflagged_answersAlike⟩
  · exact selfLoops_eq (build_built hr hb)

end Table

end DepGraph
