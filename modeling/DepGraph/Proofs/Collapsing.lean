import DepGraph.Cohort.Collapsed
import DepGraph.Proofs.ClusterClasses
import DepGraph.Proofs.Components

/-!
# Collapsing the clusters of a component

The groups of a collapsed component are the classes of vertices that lead to each other, clusters
and single vertices alike, so a chain of groups that came back to its start would have been one
class. The collapsed graph has no cycle, whatever cycles the component has.
-/

namespace DepGraph

theorem eraseReps_loop {a : Nat} {as : List Nat} (acc : List Nat)
    (hs : (a :: as).Pairwise (· ≤ ·)) :
    ∃ l, List.eraseRepsBy.loop (· == ·) a as acc = acc.reverse ++ l ∧ l.Pairwise (· < ·) ∧
      ∀ x, x ∈ l ↔ x ∈ a :: as := by
  induction as generalizing a acc with
  | nil => exact ⟨[a], by simp [List.eraseRepsBy.loop], List.pairwise_singleton _ _, by simp⟩
  | cons b as ih =>
    obtain ⟨ha, hb⟩ := List.pairwise_cons.mp hs
    rw [List.eraseRepsBy.loop]
    split
    · rename_i hab
      obtain rfl : a = b := by simpa using hab
      obtain ⟨l, hl, hlt, hmem⟩ := ih acc hb
      exact ⟨l, hl, hlt, fun x => by simp [hmem]⟩
    · rename_i hab
      have hne : a ≠ b := by simpa using hab
      obtain ⟨l, hl, hlt, hmem⟩ := ih (a :: acc) hb
      refine ⟨a :: l, by simpa using hl, List.pairwise_cons.mpr ⟨?_, hlt⟩, fun x => by simp [hmem]⟩
      intro x hx
      have hbx : b ≤ x := by
        rcases List.mem_cons.mp ((hmem x).mp hx) with rfl | hx
        · exact Nat.le_refl x
        · exact List.rel_of_pairwise_cons hb hx
      have hab' := ha b List.mem_cons_self
      omega

theorem eraseReps_mergeSort (xs : List Nat) :
    xs.mergeSort.eraseReps.Pairwise (· < ·) ∧ ∀ x, x ∈ xs.mergeSort.eraseReps ↔ x ∈ xs := by
  have hsorted : xs.mergeSort.Pairwise (· ≤ ·) := List.pairwise_mergeSort' (· ≤ ·) xs
  have hmem (x : Nat) : x ∈ xs.mergeSort ↔ x ∈ xs := List.mem_mergeSort
  cases hx : xs.mergeSort with
  | nil =>
    simp only [hx] at hmem
    exact ⟨List.Pairwise.nil, hmem⟩
  | cons a as =>
    rw [hx] at hsorted
    obtain ⟨l, hl, hlt, hlmem⟩ := eraseReps_loop [] hsorted
    have hl' : (a :: as).eraseReps = l := hl
    rw [hl']
    exact ⟨hlt, fun x => by rw [hlmem, ← hx, hmem]⟩

/-- The lists are all the classes of vertices that lead to each other, single ones included. -/
structure AllClasses (next : Nat → List Nat) (n : Nat) (groups : List (List Nat)) : Prop where
  nodup : groups.flatten.Nodup
  cover : ∀ v, v ∈ groups.flatten ↔ v < n
  together : ∀ ms ∈ groups, ∀ a ∈ ms, ∀ b, b ∈ ms ↔ Leads next a b ∧ Leads next b a

namespace Collapsed

variable {c : Component}

/-- The clusters of the component are its classes of two or more, and exactly their members are
marked. -/
structure Clustered (c : Component) : Prop where
  bound : ∀ v, ∀ u ∈ c.descendants v, u < c.size
  classes : MutualClasses c.descendants (c.clusters.map (·.members))
  marked : ∀ v vert, c.vertex? v = some vert →
    (vert.cluster.isNone = true ↔ ∀ k ∈ c.clusters, v ∉ k.members)

def singles (c : Component) : List Nat :=
  (c.verts.toList.zipIdx.filter fun (vert, _) => vert.cluster.isNone).map (·.2)

theorem members_groupsOf (c : Component) :
    (groupsOf c).map (·.members) = c.clusters.map (·.members) ++ (singles c).map ([·]) := by
  simp [groupsOf, singles, Function.comp_def]

theorem mem_singles (h : Clustered c) {v : Nat} :
    v ∈ singles c ↔ v < c.size ∧ ∀ k ∈ c.clusters, v ∉ k.members := by
  refine (Table.mem_positions (fun vert : Vertex => vert.cluster.isNone) _).trans ?_
  constructor
  · rintro ⟨vert, hv, hnone⟩
    have hv' : c.vertex? v = some vert := by simpa [Component.vertex?] using hv
    exact ⟨(Array.getElem?_eq_some_iff.mp hv').1, (h.marked v vert hv').mp hnone⟩
  · rintro ⟨hv, hout⟩
    have hv' : c.vertex? v = some c.verts[v] := Array.getElem?_eq_getElem hv
    exact ⟨c.verts[v], by simpa [Component.vertex?] using hv', (h.marked v _ hv').mpr hout⟩

theorem mem_groupsOf {g : Group} : g ∈ groupsOf c ↔
    (∃ k ∈ c.clusters, ⟨.cluster k.id, k.members⟩ = g) ∨ ∃ v ∈ singles c, ⟨.vertex v, [v]⟩ = g := by
  have hsplit : groupsOf c = c.clusters.map (fun k => ⟨.cluster k.id, k.members⟩) ++
      (singles c).map fun v => ⟨.vertex v, [v]⟩ := by
    rw [groupsOf, singles, List.map_map]
    rfl
  rw [hsplit, List.mem_append, List.mem_map, List.mem_map]

theorem flatten_singles (c : Component) : ((singles c).map ([·])).flatten = singles c := by
  rw [← List.flatMap_def, List.flatMap_singleton']

theorem groupsOf_classes (h : Clustered c) :
    AllClasses c.descendants c.size ((groupsOf c).map (·.members)) := by
  have hsingle {v b : Nat} (hv : v ∈ singles c) (hvb : Leads c.descendants v b)
      (hbv : Leads c.descendants b v) : b = v := by
    by_contra hne
    obtain ⟨ms, hms, hvm⟩ := h.classes.all v b (Ne.symm hne) hvb hbv
    obtain ⟨k, hk, rfl⟩ := List.mem_map.mp hms
    exact ((mem_singles h).mp hv).2 k hk hvm
  rw [members_groupsOf]
  refine ⟨?_, ?_, ?_⟩
  · rw [List.flatten_append, List.nodup_append]
    refine ⟨h.classes.flatten_nodup, ?_, ?_⟩
    · rw [flatten_singles]
      exact Table.positions_nodup _ _
    · rintro a ha b hb rfl
      rw [flatten_singles] at hb
      obtain ⟨ms, hms, ham⟩ := List.mem_flatten.mp ha
      obtain ⟨k, hk, rfl⟩ := List.mem_map.mp hms
      exact ((mem_singles h).mp hb).2 k hk ham
  · intro v
    rw [List.flatten_append, List.mem_append, flatten_singles, mem_singles h]
    constructor
    · rintro (hv | ⟨hv, _⟩)
      · obtain ⟨ms, hms, hvm⟩ := List.mem_flatten.mp hv
        exact h.classes.lt h.bound hms hvm
      · exact hv
    · intro hv
      by_cases hin : ∃ k ∈ c.clusters, v ∈ k.members
      · obtain ⟨k, hk, hvm⟩ := hin
        exact Or.inl (List.mem_flatten.mpr ⟨_, List.mem_map_of_mem hk, hvm⟩)
      · push Not at hin
        exact Or.inr ⟨hv, hin⟩
  · intro ms hms a ha b
    rcases List.mem_append.mp hms with hms | hms
    · exact h.classes.together ms hms a ha b
    · obtain ⟨v, hv, rfl⟩ := List.mem_map.mp hms
      obtain rfl := List.mem_singleton.mp ha
      rw [List.mem_singleton]
      constructor
      · rintro rfl
        exact ⟨.refl, .refl⟩
      · rintro ⟨hab, hba⟩
        exact hsingle hv hab hba

/-- Every vertex is a member of exactly one group. -/
structure Parted (c : Component) : Prop where
  nodup : ((groupsOf c).map (·.members)).flatten.Nodup
  cover : ∀ v, v ∈ ((groupsOf c).map (·.members)).flatten ↔ v < c.size

theorem Clustered.parted (h : Clustered c) : Parted c :=
  ⟨(groupsOf_classes h).nodup, (groupsOf_classes h).cover⟩

def Stands (c : Component) (i v : Nat) : Prop :=
  ∃ g, (groupsOf c)[i]? = some g ∧ v ∈ g.members

theorem stands_iff {i v : Nat} : Stands c i v ↔
    ∃ ms, ((groupsOf c).map (·.members))[i]? = some ms ∧ v ∈ ms := by
  simp [Stands, List.getElem?_map]

theorem Stands.unique (h : Parted c) {i j v : Nat} (hi : Stands c i v) (hj : Stands c j v) :
    i = j := by
  obtain ⟨ms, hms, hv⟩ := stands_iff.mp hi
  obtain ⟨ns, hns, hw⟩ := stands_iff.mp hj
  exact Split.group_unique h.nodup hms hns hv hw

theorem exists_stands (h : Parted c) {v : Nat} : v < c.size ↔ ∃ i, Stands c i v := by
  rw [← h.cover v, List.mem_flatten]
  constructor
  · rintro ⟨ms, hms, hv⟩
    obtain ⟨i, hi⟩ := List.mem_iff_getElem?.mp hms
    exact ⟨i, stands_iff.mpr ⟨ms, hi, hv⟩⟩
  · rintro ⟨i, hi⟩
    obtain ⟨ms, hms, hv⟩ := stands_iff.mp hi
    exact ⟨ms, List.mem_of_getElem? hms, hv⟩

theorem Stands.lt {i v : Nat} (h : Stands c i v) : i < (groupsOf c).length := by
  obtain ⟨g, hg, _⟩ := h
  exact (List.getElem?_eq_some_iff.mp hg).1

theorem stands_together (h : Clustered c) {i v w : Nat} (hv : Stands c i v) :
    Stands c i w ↔ Leads c.descendants v w ∧ Leads c.descendants w v := by
  obtain ⟨ms, hms, hvm⟩ := stands_iff.mp hv
  have hclass := (groupsOf_classes h).together ms (List.mem_of_getElem? hms) v hvm w
  rw [← hclass, stands_iff, hms]
  constructor
  · rintro ⟨_, ⟨⟩, hw⟩
    exact hw
  · intro hw
    exact ⟨ms, rfl, hw⟩

theorem keys_groupsOf (c : Component) : (groupsOf c).zipIdx.flatMap (fun p => p.1.members) =
    ((groupsOf c).map (·.members)).flatten := by
  rw [List.flatMap_def, ← List.zipIdx_map_fst 0 (groupsOf c), List.map_map, List.zipIdx_map_fst]
  rfl

theorem keys_nodup (h : Parted c) :
    ((groupsOf c).zipIdx.flatMap fun p => p.1.members).Nodup := by
  rw [keys_groupsOf]
  exact h.nodup

theorem positions_spec (h : Parted c) {v i : Nat} :
    ((positions c.size (groupsOf c))[v]?).join = some i ↔ Stands c i v := by
  simp only [positions, Writes.setIfInBounds_eq_modify]
  rw [Writes.each_lookup (fun p : Group × Nat => p.1.members) _ (·.2) (keys_nodup h)
    (by rw [keys_groupsOf]; exact fun k hk => (h.cover k).mp hk)]
  constructor
  · rintro ⟨⟨g, _⟩, hg, hv, rfl⟩
    exact ⟨g, List.mem_zipIdx_iff_getElem?.mp hg, hv⟩
  · rintro ⟨g, hg, hv⟩
    exact ⟨(g, i), List.mem_zipIdx_iff_getElem?.mpr hg, hv, rfl⟩

theorem size_ofComponent (c : Component) : (ofComponent c).size = (groupsOf c).length := by
  simp [size, ofComponent]

theorem size_descendants (c : Component) :
    (ofComponent c).descendants.size = (ofComponent c).size := by
  simp [size, ofComponent]

theorem next_ofComponent (c : Component) (i : Nat) : ∃ outside : List Nat,
    (ofComponent c).next i = outside.mergeSort.eraseReps ∧
    ∀ j, j ∈ outside ↔ j ≠ i ∧ ∃ g, (groupsOf c)[i]? = some g ∧
      ∃ v ∈ g.members, ∃ w ∈ c.descendants v,
        ((positions c.size (groupsOf c))[w]?).join = some j := by
  cases hg : (groupsOf c)[i]? with
  | none => exact ⟨[], by simp [next, ofComponent, hg, List.eraseReps, List.eraseRepsBy], by simp⟩
  | some g =>
    refine ⟨((g.members.flatMap c.descendants).filterMap fun d =>
      ((positions c.size (groupsOf c))[d]?).join).filter (· != i), ?_, ?_⟩
    · simp [next, ofComponent, hg]
    · intro j
      simp only [List.mem_filter, List.mem_filterMap, List.mem_flatMap, bne_iff_ne,
        Option.some.injEq, exists_eq_left']
      constructor
      · rintro ⟨⟨w, ⟨v, hv, hw⟩, hj⟩, hne⟩
        exact ⟨hne, v, hv, w, hw, hj⟩
      · rintro ⟨hne, v, hv, w, hw, hj⟩
        exact ⟨⟨w, ⟨v, hv, hw⟩, hj⟩, hne⟩

theorem next_nodup (c : Component) (i : Nat) : ((ofComponent c).next i).Nodup := by
  obtain ⟨outside, hnext, _⟩ := next_ofComponent c i
  rw [hnext]
  exact (eraseReps_mergeSort outside).1.imp fun hab => Nat.ne_of_lt hab

theorem mem_next (h : Parted c) {i j : Nat} : j ∈ (ofComponent c).next i ↔
    j ≠ i ∧ ∃ v w, Stands c i v ∧ Stands c j w ∧ w ∈ c.descendants v := by
  obtain ⟨outside, hnext, hmem⟩ := next_ofComponent c i
  rw [hnext, (eraseReps_mergeSort outside).2, hmem]
  refine and_congr_right fun _ => ?_
  constructor
  · rintro ⟨g, hg, v, hv, w, hw, hj⟩
    exact ⟨v, w, ⟨g, hg, hv⟩, (positions_spec h).mp hj, hw⟩
  · rintro ⟨v, w, ⟨g, hg, hv⟩, hj, hw⟩
    exact ⟨g, hg, v, hv, w, hw, (positions_spec h).mpr hj⟩

theorem next_lt (h : Parted c) {i j : Nat} (hj : j ∈ (ofComponent c).next i) :
    j < (ofComponent c).size := by
  obtain ⟨_, _, _, _, hw, _⟩ := (mem_next h).mp hj
  rw [size_ofComponent]
  exact hw.lt

theorem leads_of_chain (h : Clustered c) {i j v w : Nat}
    (hc : Leads (ofComponent c).next i j) (hv : Stands c i v) (hw : Stands c j w) :
    Leads c.descendants v w := by
  induction hc generalizing w with
  | refl => exact ((stands_together h hv).mp hw).1
  | tail _ hstep ih =>
    obtain ⟨_, x, y, hx, hy, hxy⟩ := (mem_next h.parted).mp hstep
    exact ((ih hx).tail hxy).trans ((stands_together h hy).mp hw).1

theorem acyclic (h : Clustered c) (i : Nat) :
    ¬ Relation.TransGen (fun a b => b ∈ (ofComponent c).next a) i i := by
  intro hcyc
  obtain ⟨j, hstep, hback⟩ := Relation.TransGen.head'_iff.mp hcyc
  obtain ⟨hne, v, w, hv, hw, hvw⟩ := (mem_next h.parted).mp hstep
  have hwv := leads_of_chain h hback hw hv
  have hi : Stands c i w := (stands_together h hv).mpr ⟨.single hvw, hwv⟩
  exact hne (hw.unique h.parted hi)

end Collapsed

end DepGraph
