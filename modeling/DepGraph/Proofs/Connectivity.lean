import DepGraph.Proofs.Components
import DepGraph.Proofs.Freezing

/-!
# Connected components

The components of a split table are the connected components of its undirected view. Each part of
the search is everything that one of its nodes leads to; since no link leaves a part, renumbering
keeps every list whole and in order.
-/

namespace DepGraph

def Partition.StandsFor (p : Partition) (k : CompId) (v : VertId) (i : NodeId) : Prop :=
  ∃ c x, p.component? k = some c ∧ c.vertex? v = some x ∧ x.node = i

namespace Table

variable {E : Type} [Entity E] {t : Table E} {ds : List (E × List E)} {k : CompId}
  {members : List NodeId} {i j : NodeId} {v : VertId}

section Parts

theorem Reached.ascending (h : Reached ds t) (hf : t.frozen = true) (i : NodeId) :
    (t.descendants i).Pairwise (· < ·) ∧ (t.adjacency i).Pairwise (· < ·) := by
  induction h with
  | new => cases hf
  | add h hadd =>
    rcases h.state with hr | hb
    · cases (add_records hr hadd).unfrozen.symm.trans hf
    · cases (add_cases hadd).1.symm.trans hb.frozen
  | build h hbuild =>
    rcases h.state with hr | hb
    · exact ((build_completes hr hbuild).ascending i).2.2
    · simp [Table.build, hb.frozen] at hbuild
  | @split ds t h ih =>
    cases hfrozen : t.frozen with
    | false => simp [Table.split, hfrozen] at hf
    | true =>
      have hdesc : (t.markSplit t.parts).descendants i = t.descendants i :=
        congrArg (·.getD []) (markSplit_reads t t.parts (·.descendants) (fun _ _ _ => rfl) i)
      have hadj : (t.markSplit t.parts).adjacency i = t.adjacency i :=
        congrArg (·.getD []) (markSplit_reads t t.parts (·.adjacency) (fun _ _ _ => rfl) i)
      rw [split_of_frozen hfrozen, hdesc, hadj]
      exact ih hfrozen

theorem Reached.descendants_nodup (h : Reached ds t) (hf : t.frozen = true) (i : NodeId) :
    (t.descendants i).Nodup :=
  (h.ascending hf i).1.imp Nat.ne_of_lt

theorem Built.adjacency_irrefl (h : Built ds t) (i : NodeId) : i ∉ t.adjacency i := by
  intro hi
  have hanc : i ∈ t.ancestors i := by
    rw [h.adjacency, h.descendants] at hi
    exact hi.elim id id
  obtain ⟨e, d, he, hd, _, hne⟩ := (h.ancestors i i).mp hanc
  exact hne (Option.some.inj (hd.symm.trans he))

theorem Built.leads_symm (h : Built ds t) (hl : Leads t.adjacency i j) :
    Leads t.adjacency j i := by
  induction hl with
  | refl => exact .refl
  | tail _ hstep ih => exact .head (h.adjacency_symm hstep) ih

theorem mem_part_iff (h : Built ds t) (hk : t.parts[k]? = some members) (hi : i ∈ members) :
    j ∈ members ↔ Leads t.adjacency i j := by
  constructor
  · intro hj
    obtain ⟨a, rest, rfl, _, hrest⟩ := t.parts_ordered.head members (List.mem_of_getElem? hk)
    have hled {x : NodeId} (hx : x ∈ a :: rest) : Leads t.adjacency a x := by
      rcases List.mem_cons.mp hx with rfl | hx
      · exact .refl
      · exact (hrest x hx).2
    exact (h.leads_symm (hled hi)).trans (hled hj)
  · intro hl
    induction hl with
    | refl => exact hi
    | tail _ hstep ih => exact parts_closed h hk ih hstep

theorem linked_of_mem_part (h : Built ds t) (hk : t.parts[k]? = some members) (hi : i ∈ members) :
    t.adjacency i ≠ [] :=
  (mem_parts_iff h).mp (List.mem_flatten.mpr ⟨members, List.mem_of_getElem? hk, hi⟩)

theorem part_large (h : Built ds t) (hk : t.parts[k]? = some members) : 2 ≤ members.length := by
  obtain ⟨a, rest, rfl, _⟩ := t.parts_ordered.head members (List.mem_of_getElem? hk)
  obtain ⟨j, hj⟩ := List.exists_mem_of_ne_nil _ (linked_of_mem_part h hk List.mem_cons_self)
  have hmem := parts_closed h hk List.mem_cons_self hj
  have hrest : j ∈ rest := by
    refine (List.mem_cons.mp hmem).resolve_left ?_
    rintro rfl
    exact h.adjacency_irrefl j hj
  have hpos := List.length_pos_of_mem hrest
  rw [List.length_cons]
  omega

theorem Built.joined (h : Built ds t) {a b : E} (hi : t.entity? i = some a)
    (hj : t.entity? j = some b) (hl : Leads t.adjacency i j) : Joined ds a b := by
  induction hl generalizing b with
  | refl =>
    obtain rfl := Option.some.inj (hi.symm.trans hj)
    exact .refl
  | tail _ hstep ih =>
    obtain ⟨d, e, hd, he, hdep⟩ := h.mem_adjacency_iff.mp hstep
    obtain rfl := Option.some.inj (hj.symm.trans he)
    exact (ih hd).tail hdep

end Parts

section Components

variable {remap : Array (Option VertId)} {c : Component}

theorem toComponent_nodes : (t.toComponent remap k members).nodes = members := by
  simp [toComponent, Component.nodes, Function.comp_def]

theorem mem_split_components (h : Built ds t) (hc : c ∈ t.split.1.components) :
    ∃ k members, t.parts[k]? = some members ∧ c = t.toComponent t.remap k members := by
  obtain ⟨k, hk⟩ := List.mem_iff_getElem?.mp hc
  rw [split_component? h] at hk
  obtain ⟨members, hmembers, rfl⟩ := Option.map_eq_some_iff.mp hk
  exact ⟨k, members, hmembers, rfl⟩

theorem standsFor_iff (h : Built ds t) : t.split.1.StandsFor k v i ↔
    ∃ members, t.parts[k]? = some members ∧ members[v]? = some i := by
  constructor
  · rintro ⟨c, x, hc, hx, rfl⟩
    rw [Partition.component?, split_component? h] at hc
    obtain ⟨members, hmembers, rfl⟩ := Option.map_eq_some_iff.mp hc
    rw [toComponent_vertex?] at hx
    obtain ⟨i, hi, rfl⟩ := Option.map_eq_some_iff.mp hx
    exact ⟨members, hmembers, hi⟩
  · rintro ⟨members, hmembers, hi⟩
    refine ⟨t.toComponent t.remap k members, t.toVertex t.remap i, ?_, ?_, rfl⟩
    · rw [Partition.component?, split_component? h, hmembers]
      rfl
    · rw [toComponent_vertex?, hi]
      rfl

theorem standsFor_unique (h : Built ds t) {l : CompId} {w : VertId}
    (hk : t.split.1.StandsFor k v i) (hl : t.split.1.StandsFor l w i) : k = l ∧ v = w := by
  obtain ⟨ms, hms, hv⟩ := (standsFor_iff h).mp hk
  obtain ⟨ns, hns, hw⟩ := (standsFor_iff h).mp hl
  exact Split.place_unique (parts_grouped h).nodup hms hns hv hw

theorem exists_standsFor_iff (h : Built ds t) :
    (∃ k v, t.split.1.StandsFor k v i) ↔ t.adjacency i ≠ [] := by
  rw [← mem_parts_iff h, List.mem_flatten]
  constructor
  · rintro ⟨k, v, hkv⟩
    obtain ⟨members, hmembers, hv⟩ := (standsFor_iff h).mp hkv
    exact ⟨members, List.mem_of_getElem? hmembers, List.mem_of_getElem? hv⟩
  · rintro ⟨members, hmem, hi⟩
    obtain ⟨k, hk⟩ := List.mem_iff_getElem?.mp hmem
    obtain ⟨v, hv⟩ := List.mem_iff_getElem?.mp hi
    exact ⟨k, v, (standsFor_iff h).mpr ⟨members, hk, hv⟩⟩

theorem share_component_iff (h : Built ds t) (hne : i ≠ j) :
    (∃ k v w, t.split.1.StandsFor k v i ∧ t.split.1.StandsFor k w j) ↔ Leads t.adjacency i j := by
  constructor
  · rintro ⟨k, v, w, hv, hw⟩
    obtain ⟨ms, hms, hvi⟩ := (standsFor_iff h).mp hv
    obtain ⟨ns, hns, hwj⟩ := (standsFor_iff h).mp hw
    obtain rfl := Option.some.inj (hms.symm.trans hns)
    exact (mem_part_iff h hms (List.mem_of_getElem? hvi)).mp (List.mem_of_getElem? hwj)
  · intro hl
    obtain ⟨u, hu, _⟩ := (Relation.ReflTransGen.cases_head hl).resolve_left hne
    obtain ⟨k, v, hv⟩ := (exists_standsFor_iff h).mpr (List.ne_nil_of_mem hu)
    obtain ⟨ms, hms, hvi⟩ := (standsFor_iff h).mp hv
    have hj := (mem_part_iff h hms (List.mem_of_getElem? hvi)).mpr hl
    obtain ⟨w, hw⟩ := List.mem_iff_getElem?.mp hj
    exact ⟨k, v, w, hv, (standsFor_iff h).mpr ⟨ms, hms, hw⟩⟩

theorem vertOf?_split (h : Built ds t) : t.split.1.vertOf? i = some v ↔
    ∃ n k, t.split.2.node? i = some n ∧ n.component = some k ∧ t.split.1.StandsFor k v i := by
  have hremap : t.split.1.vertOf? i = some v ↔ ∃ g ∈ t.parts, g[v]? = some i := by
    rw [split_of_frozen h.frozen]
    exact remap_spec h
  rw [hremap]
  constructor
  · rintro ⟨members, hmem, hv⟩
    obtain ⟨k, hk⟩ := List.mem_iff_getElem?.mp hmem
    have hi := List.mem_of_getElem? hv
    obtain ⟨m, hm⟩ : ∃ m, t.node? i = some m :=
      ⟨_, Array.getElem?_eq_getElem (parts_lt h (List.mem_flatten.mpr ⟨members, hmem, hi⟩))⟩
    have hmark : t.split.2.node? i = some
        { m with isolated := m.isolated || m.adjacency.isEmpty, component := some k } := by
      rw [split_of_frozen h.frozen]
      exact (markSplit_placed (parts_grouped h).nodup hk hi).trans (congrArg _ hm)
    exact ⟨_, k, hmark, rfl, (standsFor_iff h).mpr ⟨members, hk, hv⟩⟩
  · rintro ⟨_, k, _, _, hstands⟩
    obtain ⟨members, hk, hv⟩ := (standsFor_iff h).mp hstands
    exact ⟨members, List.mem_of_getElem? hk, hv⟩

theorem map_filterMap_eq {links : List NodeId} {number : NodeId → Option VertId}
    {node : VertId → Option NodeId} (h : ∀ a ∈ links, ∃ w, number a = some w ∧ node w = some a) :
    (links.filterMap number).map node = links.map some := by
  induction links with
  | nil => rfl
  | cons a links ih =>
    obtain ⟨w, hw, hback⟩ := h a List.mem_cons_self
    rw [List.filterMap_cons_some hw, List.map_cons, List.map_cons, hback,
      ih fun b hb => h b (List.mem_cons_of_mem _ hb)]

theorem renumbered_back (h : Built ds t) (hk : t.parts[k]? = some members) (hi : i ∈ members)
    {links : List NodeId} (hl : ∀ j ∈ links, j ∈ t.adjacency i) :
    (links.filterMap fun a => (t.remap[a]?).join).map
      (fun w => ((t.toComponent t.remap k members).vertex? w).map (·.node)) = links.map some := by
  apply map_filterMap_eq
  intro a ha
  obtain ⟨w, hw⟩ := List.mem_iff_getElem?.mp (parts_closed h hk hi (hl a ha))
  refine ⟨w, (remap_spec h).mpr ⟨members, List.mem_of_getElem? hk, hw⟩, ?_⟩
  rw [toComponent_vertex?, hw]
  rfl

end Components

/-- What splitting the table `t` yields: the partition `p`, and `t'` with the components noted on
its nodes. -/
structure Splits (t : Table E) (p : Partition) (t' : Table E) : Prop where
  isolated : p.isolated.Pairwise (· < ·) ∧ ∀ i, i ∈ p.isolated ↔ i < t.size ∧ t.adjacency i = []
  placed : ∀ i < t.size, (i ∈ p.isolated ∧ ∀ k v, ¬ p.StandsFor k v i) ∨
    i ∉ p.isolated ∧ ∃ k v, p.StandsFor k v i ∧ ∀ l w, p.StandsFor l w i → l = k ∧ w = v
  nodes : ∀ k v i, p.StandsFor k v i → i < t.size
  connected : ∀ i j, i ≠ j →
    ((∃ k v w, p.StandsFor k v i ∧ p.StandsFor k w j) ↔ Leads t.adjacency i j)
  large : ∀ c ∈ p.components, 2 ≤ c.size
  lowest : ∀ c ∈ p.components, ∃ x, c.vertex? 0 = some x ∧ ∀ i ∈ c.nodes, x.node ≤ i
  ordered : p.components.Pairwise fun c d =>
    ∀ x y, c.vertex? 0 = some x → d.vertex? 0 = some y → x.node < y.node
  vertOf : ∀ i v, p.vertOf? i = some v ↔
    ∃ n k, t'.node? i = some n ∧ n.component = some k ∧ p.StandsFor k v i
  ancestors : ∀ c ∈ p.components, ∀ v x, c.vertex? v = some x →
    x.ancestors.map (fun w => (c.vertex? w).map (·.node)) = (t.ancestors x.node).map some
  descendants : ∀ c ∈ p.components, ∀ v x, c.vertex? v = some x →
    x.descendants.map (fun w => (c.vertex? w).map (·.node)) = (t.descendants x.node).map some
  roots : ∀ c ∈ p.components, c.roots.Nodup ∧
    ∀ v, v ∈ c.roots ↔ v < c.size ∧ c.ancestors v = []
  pinnacles : ∀ c ∈ p.components, c.pinnacles.Nodup ∧
    ∀ v, v ∈ c.pinnacles ↔ v < c.size ∧ c.descendants v = []

section Exact

theorem mem_split_isolated (h : t.frozen = true) :
    i ∈ t.split.1.isolated ↔ i < t.size ∧ t.adjacency i = [] := by
  rw [split_of_frozen h]
  simp [ids]

theorem split_isolated_ascending (h : t.frozen = true) :
    t.split.1.isolated.Pairwise (· < ·) := by
  rw [split_of_frozen h]
  exact List.pairwise_lt_range.sublist List.filter_sublist

theorem split_placed (h : Built ds t) (hi : i < t.size) :
    (i ∈ t.split.1.isolated ∧ ∀ k v, ¬ t.split.1.StandsFor k v i) ∨
      i ∉ t.split.1.isolated ∧ ∃ k v, t.split.1.StandsFor k v i ∧
        ∀ l w, t.split.1.StandsFor l w i → l = k ∧ w = v := by
  rw [mem_split_isolated h.frozen]
  by_cases hadj : t.adjacency i = []
  · refine Or.inl ⟨⟨hi, hadj⟩, fun k v hkv => ?_⟩
    exact (exists_standsFor_iff h).mp ⟨k, v, hkv⟩ hadj
  · obtain ⟨k, v, hkv⟩ := (exists_standsFor_iff h).mpr hadj
    exact Or.inr ⟨fun hnot => hadj hnot.2, k, v, hkv, fun l w hlw => standsFor_unique h hlw hkv⟩

theorem split_lowest (h : Built ds t) {c : Component} (hc : c ∈ t.split.1.components) :
    ∃ x, c.vertex? 0 = some x ∧ ∀ i ∈ c.nodes, x.node ≤ i := by
  obtain ⟨k, members, hk, rfl⟩ := mem_split_components h hc
  obtain ⟨a, rest, rfl, _, hrest⟩ := t.parts_ordered.head members (List.mem_of_getElem? hk)
  refine ⟨t.toVertex t.remap a, toComponent_vertex?, ?_⟩
  intro i hi
  rw [toComponent_nodes] at hi
  rcases List.mem_cons.mp hi with rfl | hi
  · exact Nat.le_refl i
  · exact Nat.le_of_lt (hrest i hi).1

theorem split_ordered (h : Built ds t) : t.split.1.components.Pairwise fun c d =>
    ∀ x y, c.vertex? 0 = some x → d.vertex? 0 = some y → x.node < y.node := by
  have hstart {k : CompId} {c : Component} {x : Vertex} (hc : t.split.1.components[k]? = some c)
      (hx : c.vertex? 0 = some x) : ∃ g, t.parts[k]? = some g ∧ g.head? = some x.node := by
    rw [split_component? h] at hc
    obtain ⟨g, hg, rfl⟩ := Option.map_eq_some_iff.mp hc
    rw [toComponent_vertex?] at hx
    obtain ⟨i, hi, rfl⟩ := Option.map_eq_some_iff.mp hx
    exact ⟨g, hg, by rw [List.head?_eq_getElem?]; exact hi⟩
  rw [List.pairwise_iff_getElem]
  intro k l hk hl hkl x y hx hy
  obtain ⟨g, hg, hgx⟩ := hstart (List.getElem?_eq_getElem hk) hx
  obtain ⟨g', hg', hgy⟩ := hstart (List.getElem?_eq_getElem hl) hy
  obtain ⟨hgk, rfl⟩ := List.getElem?_eq_some_iff.mp hg
  obtain ⟨hgl, rfl⟩ := List.getElem?_eq_some_iff.mp hg'
  exact List.pairwise_iff_getElem.mp t.parts_ordered.ascending k l hgk hgl hkl _ _ hgx hgy

/-- Splitting a built table yields its connected components, and no link is lost or crosses from
one to another. -/
theorem split_exact (h : Reached ds t) (hf : t.frozen = true) : Splits t t.split.1 t.split.2 := by
  have hb := h.built hf
  constructor
  case isolated => exact ⟨split_isolated_ascending hf, fun i => mem_split_isolated hf⟩
  case placed => exact fun i hi => split_placed hb hi
  case nodes =>
    intro k v i hkv
    exact parts_lt hb ((mem_parts_iff hb).mpr ((exists_standsFor_iff hb).mp ⟨k, v, hkv⟩))
  case connected => exact fun i j hne => share_component_iff hb hne
  case large =>
    intro c hc
    obtain ⟨k, members, hk, rfl⟩ := mem_split_components hb hc
    rw [toComponent_size]
    exact part_large hb hk
  case lowest => exact fun c hc => split_lowest hb hc
  case ordered => exact split_ordered hb
  case vertOf => exact fun i v => vertOf?_split hb
  case ancestors =>
    intro c hc v x hx
    obtain ⟨k, members, hk, rfl⟩ := mem_split_components hb hc
    rw [toComponent_vertex?] at hx
    obtain ⟨i, hi, rfl⟩ := Option.map_eq_some_iff.mp hx
    exact renumbered_back hb hk (List.mem_of_getElem? hi)
      fun j hj => (hb.adjacency i j).mpr (Or.inl hj)
  case descendants =>
    intro c hc v x hx
    obtain ⟨k, members, hk, rfl⟩ := mem_split_components hb hc
    rw [toComponent_vertex?] at hx
    obtain ⟨i, hi, rfl⟩ := Option.map_eq_some_iff.mp hx
    exact renumbered_back hb hk (List.mem_of_getElem? hi)
      fun j hj => (hb.adjacency i j).mpr (Or.inr hj)
  case roots =>
    intro c hc
    obtain ⟨k, members, hk, rfl⟩ := mem_split_components hb hc
    have hcopy := toComponent_faithful hb hk
    exact ⟨hcopy.rootsNodup, hcopy.roots⟩
  case pinnacles =>
    intro c hc
    obtain ⟨k, members, hk, rfl⟩ := mem_split_components hb hc
    have hcopy := toComponent_faithful hb hk
    exact ⟨hcopy.pinnaclesNodup, hcopy.pinnacles⟩

/-- Two components and an isolated entity, declared across each other. -/
theorem split_exact_across : ∃ t : Table Int,
    Reached [(3, [1]), (6, [5]), (4, []), (1, [2, 3])] t ∧ t.frozen = true ∧
      Splits t t.split.1 t.split.2 := by
  have htaken : taken [((3 : Int), [1]), (6, [5]), (4, []), (1, [2, 3])] =
      [(3, [1]), (6, [5]), (4, []), (1, [2, 3])] := taken_eq (by decide) (by decide)
  have hr := reached_ofCalls [((3 : Int), [1]), (6, [5]), (4, []), (1, [2, 3])]
  obtain ⟨t, ht⟩ := build_of_unfrozen
    (ofCalls_records [((3 : Int), [1]), (6, [5]), (4, []), (1, [2, 3])]).unfrozen
  rw [htaken] at hr
  have hbuilt := hr.build ht
  have hfrozen := (build_frozen ht).1
  exact ⟨t, hbuilt, hfrozen, split_exact hbuilt hfrozen⟩

end Exact

end Table

end DepGraph
