import DepGraph.Proofs.ComponentSearch

/-!
# Components as copies of the dependency relation

A component numbers some of the entities anew. Its vertices stand for different entities, its lists
say of them exactly what the declarations say, and it holds whatever any of its entities is linked
to. The components of a split table are such copies, and every linked entity is in exactly one.
-/

namespace DepGraph

variable {E : Type} [Entity E]

namespace Table

variable {t t' : Table E} {ds : List (E × List E)} {i : NodeId}

theorem open_unlinked_iff :
    Marks.Open (t.nodes.map (·.adjacency.isEmpty)) i ↔ t.adjacency i ≠ [] := by
  simp only [Marks.Open, Array.getElem?_map, adjacency, node?]
  cases t.nodes[i]? <;> simp

theorem Built.adjacency_symm (h : Built ds t) {i j : NodeId} (hj : j ∈ t.adjacency i) :
    i ∈ t.adjacency j := by
  rw [h.adjacency, h.descendants] at *
  exact hj.symm

theorem parts_grouped (h : Built ds t) :
    Split.Grouped t.adjacency t.ids (t.nodes.map (·.adjacency.isEmpty)) t.parts := by
  apply Split.groups_grouped (fun i j => h.adjacency_symm)
  intro i hi j (hj : j ∈ t.adjacency i)
  rw [open_unlinked_iff, not_not] at hi
  rw [hi] at hj
  cases hj

theorem parts_ordered (t : Table E) : Split.Ordered t.adjacency t.ids t.parts := by
  refine Split.groups_ordered List.pairwise_lt_range fun j hj => ?_
  have hlt := (Array.getElem?_eq_some_iff.mp hj).1
  rw [Array.size_map] at hlt
  exact List.mem_range.mpr hlt

theorem mem_parts_iff (h : Built ds t) : i ∈ t.parts.flatten ↔ t.adjacency i ≠ [] := by
  constructor
  · intro hi
    exact open_unlinked_iff.mp ((parts_grouped h).fresh i hi)
  · intro hi
    refine (parts_grouped h).covers i ?_ (open_unlinked_iff.mpr hi)
    obtain ⟨j, hj⟩ := List.exists_mem_of_ne_nil _ hi
    obtain ⟨n, hn, _⟩ := mem_adjacency.mp hj
    exact List.mem_range.mpr (node?_lt hn)

theorem parts_lt (h : Built ds t) (hi : i ∈ t.parts.flatten) : i < t.size := by
  obtain ⟨j, hj⟩ := List.exists_mem_of_ne_nil _ ((mem_parts_iff h).mp hi)
  obtain ⟨n, hn, _⟩ := mem_adjacency.mp hj
  exact node?_lt hn

theorem remap_spec (h : Built ds t) {v : VertId} :
    ((t.remap)[i]?).join = some v ↔ ∃ g ∈ t.parts, g[v]? = some i :=
  Split.numbering_spec (parts_grouped h).nodup (fun _ hi => parts_lt h hi)

theorem parts_closed (h : Built ds t) {k : CompId} {members : List NodeId}
    (hk : t.parts[k]? = some members) {i j : NodeId} (hi : i ∈ members)
    (hj : j ∈ t.adjacency i) : j ∈ members :=
  (parts_grouped h).closed members (List.mem_of_getElem? hk) i hi j hj

/-- When a component is written down, whatever its nodes link to has been numbered. -/
theorem toComponent_take (h : Built ds t) {k : CompId} {members : List NodeId}
    (hk : t.parts[k]? = some members) :
    t.toComponent (Split.numbering t.size (t.parts.take (k + 1))) k members =
      t.toComponent t.remap k members := by
  have hplace {i j : NodeId} (hi : i ∈ members) (hj : j ∈ t.adjacency i) :
      ((Split.numbering t.size (t.parts.take (k + 1)))[j]?).join = (t.remap[j]?).join :=
    Split.numbering_take (parts_grouped h).nodup (fun _ hi => parts_lt h hi) hk
      (parts_closed h hk hi hj)
  have hvertex (i : NodeId) (hi : i ∈ members) :
      t.toVertex (Split.numbering t.size (t.parts.take (k + 1))) i = t.toVertex t.remap i := by
    simp only [toVertex, relink, Vertex.mk.injEq, true_and, and_true]
    constructor
    · exact List.filterMap_congr fun j hj => hplace hi ((h.adjacency i j).mpr (Or.inl hj))
    · exact List.filterMap_congr fun j hj => hplace hi ((h.adjacency i j).mpr (Or.inr hj))
  rw [toComponent, toComponent, List.map_congr_left hvertex]

theorem split_id (h : t.frozen = true) {k : CompId} {c : Component}
    (hk : t.split.1.components[k]? = some c) : c.id = k := by
  rw [split_of_frozen h, List.getElem?_map, List.getElem?_zipIdx, Option.map_map] at hk
  obtain ⟨members, _, rfl⟩ := Option.map_eq_some_iff.mp hk
  exact Nat.zero_add k

theorem split_component? (h : Built ds t) (k : CompId) : t.split.1.components[k]? =
    (t.parts[k]?).map fun members => t.toComponent t.remap k members := by
  rw [split_of_frozen h.frozen, List.getElem?_map, List.getElem?_zipIdx]
  cases hk : t.parts[k]? with
  | none => rfl
  | some members => simp [toComponent_take h hk]

theorem flatMap_zipIdx_nodup {gs : List (List Nat)} (hn : gs.flatten.Nodup) :
    (gs.zipIdx.flatMap (·.1)).Nodup := by
  rwa [List.flatMap_def, List.zipIdx_map_fst]

theorem markSplit_placed {gs : List (List NodeId)} (hn : gs.flatten.Nodup) {k : CompId}
    {g : List NodeId} (hg : gs[k]? = some g) (hi : i ∈ g) :
    (t.markSplit gs).node? i = (t.node? i).map fun n =>
      { n with isolated := n.isolated || n.adjacency.isEmpty, component := some k } := by
  have hmem : (g, k) ∈ gs.zipIdx := List.mem_zipIdx_iff_getElem?.mpr hg
  have hat := Writes.each_at
    (fun (p : List NodeId × CompId) (n : Node E) => { n with component := some p.2 })
    (t.nodes.map fun n => { n with isolated := n.isolated || n.adjacency.isEmpty })
    (flatMap_zipIdx_nodup hn) hmem hi
  simp only [markSplit_eq, markIsolated, node?]
  rw [hat]
  simp [Function.comp_def]

theorem markSplit_unplaced {gs : List (List NodeId)} (hi : i ∉ gs.flatten) :
    (t.markSplit gs).node? i = (t.node? i).map fun n =>
      { n with isolated := n.isolated || n.adjacency.isEmpty } := by
  have hout : ∀ p ∈ gs.zipIdx, i ∉ p.1 := by
    rintro ⟨g, k⟩ hp hig
    have hg := List.mem_of_getElem? (List.mem_zipIdx_iff_getElem?.mp hp)
    exact hi (List.mem_flatten.mpr ⟨g, hg, hig⟩)
  have helse := Writes.each_elsewhere
    (fun (p : List NodeId × CompId) (n : Node E) => { n with component := some p.2 }) (·.1)
    (t.nodes.map fun n => { n with isolated := n.isolated || n.adjacency.isEmpty }) hout
  simp only [markSplit_eq, markIsolated, node?]
  rw [helse]
  simp

theorem markSplit_reads {α : Type} (t : Table E) (gs : List (List NodeId)) (read : Node E → α)
    (hread : ∀ n b k, read { n with isolated := b, component := k } = read n) (i : NodeId) :
    ((t.markSplit gs).node? i).map read = (t.node? i).map read := by
  simp only [markSplit_eq, markIsolated, node?]
  rw [Writes.each_reads (fun (p : List NodeId × CompId) (n : Node E) =>
      { n with component := some p.2 }) (·.1) _ read (fun p n => hread n n.isolated (some p.2)),
    Array.getElem?_map, Option.map_map]
  exact congrArg (Option.map · _) (funext fun n => hread n _ n.component)

theorem markSplit_entity? (t : Table E) (gs : List (List NodeId)) (i : NodeId) :
    (t.markSplit gs).entity? i = t.entity? i :=
  markSplit_reads t gs (·.entity) (fun _ _ _ => rfl) i

theorem split_entity? (h : t.frozen = true) (i : NodeId) : t.split.2.entity? i = t.entity? i := by
  rw [split_of_frozen h]
  exact markSplit_entity? t t.parts i

theorem split_built (h : Built ds t) : Built ds t.split.2 := by
  have hent := markSplit_entity? t t.parts
  have hanc (i : NodeId) : (t.markSplit t.parts).ancestors i = t.ancestors i :=
    congrArg (·.getD []) (markSplit_reads t t.parts (·.ancestors) (fun _ _ _ => rfl) i)
  have hdesc (i : NodeId) : (t.markSplit t.parts).descendants i = t.descendants i :=
    congrArg (·.getD []) (markSplit_reads t t.parts (·.descendants) (fun _ _ _ => rfl) i)
  have hadj (i : NodeId) : (t.markSplit t.parts).adjacency i = t.adjacency i :=
    congrArg (·.getD []) (markSplit_reads t t.parts (·.adjacency) (fun _ _ _ => rfl) i)
  have hkeep := markSplit_eq t t.parts
  rw [split_of_frozen h.frozen]
  constructor
  case indexed =>
    intro e i
    rw [hent, idOf?, hkeep]
    exact h.indexed e i
  case names =>
    rw [← h.names]
    apply List.ext_getElem?
    intro i
    rw [← entity?_eq_names, ← entity?_eq_names, hent]
  case frozen => exact (congrArg Table.frozen hkeep).trans h.frozen
  case ancestors =>
    intro i j
    rw [hanc, hent, hent]
    exact h.ancestors i j
  case descendants =>
    intro i j
    rw [hdesc, hanc]
    exact h.descendants i j
  case adjacency =>
    intro i j
    rw [hadj, hanc, hdesc]
    exact h.adjacency i j
  case selfLoop =>
    intro i n hnode
    have hflag := markSplit_reads t t.parts (fun n => (n.entity, n.selfLoop)) (fun _ _ _ => rfl) i
    rw [hnode] at hflag
    obtain ⟨m, hm, hmn⟩ := Option.map_eq_some_iff.mp hflag.symm
    obtain ⟨hentity, hloop⟩ := Prod.mk.inj hmn
    rw [← hentity, ← hloop]
    exact h.selfLoop i m hm
  case ascending =>
    intro i
    rw [hanc]
    exact h.ascending i
  case edges =>
    rw [linksOf_congr (markSplit_reads t t.parts (·.ancestors) fun _ _ _ => rfl)]
    exact (congrArg Table.edgeCount hkeep).trans h.edges

end Table

namespace Component

/-- The component says of its entities what the declarations say, and leaves no link out. -/
structure Faithful (ds : List (E × List E)) (t : Table E) (c : Component) : Prop where
  inhabited : 0 < c.size
  entity : ∀ v, v < c.size → ∃ e, c.entity? t v = some e
  injective : ∀ v w e, c.entity? t v = some e → c.entity? t w = some e → v = w
  ancestors : ∀ v w, w ∈ c.ancestors v ↔
    ∃ e d, c.entity? t v = some e ∧ c.entity? t w = some d ∧ DependsOn ds e d
  descendants : ∀ v w, w ∈ c.descendants v ↔ v ∈ c.ancestors w
  closed : ∀ v e d, c.entity? t v = some e → DependsOn ds e d ∨ DependsOn ds d e →
    ∃ w, c.entity? t w = some d
  linked : ∀ v, v < c.size → c.ancestors v ≠ [] ∨ c.descendants v ≠ []
  roots : ∀ v, v ∈ c.roots ↔ v < c.size ∧ c.ancestors v = []
  pinnacles : ∀ v, v ∈ c.pinnacles ↔ v < c.size ∧ c.descendants v = []
  rootsNodup : c.roots.Nodup
  pinnaclesNodup : c.pinnacles.Nodup

theorem lt_of_entity? {c : Component} {t : Table E} {v : VertId} {e : E}
    (h : c.entity? t v = some e) : v < c.size := by
  obtain ⟨vert, hv, _⟩ := Option.bind_eq_some_iff.mp h
  exact (Array.getElem?_eq_some_iff.mp hv).1

theorem Faithful.drawn {ds : List (E × List E)} {t : Table E} {c : Component}
    (h : c.Faithful ds t) : Drawn ds c.descendants (c.entity? t) where
  link v w := by
    rw [h.descendants, h.ancestors]
    constructor
    · rintro ⟨d, e, hd, he, hdep⟩
      exact ⟨e, d, he, hd, hdep⟩
    · rintro ⟨e, d, he, hd, hdep⟩
      exact ⟨d, e, hd, he, hdep⟩
  injective := h.injective
  closed v e d hv hdep := h.closed v e d hv (Or.inr hdep)

end Component

namespace Table

variable {t : Table E} {ds : List (E × List E)} {remap : Array (Option VertId)}
  {members : List NodeId} {k : CompId} {v w : VertId}

theorem toComponent_vertex? : (t.toComponent remap k members).vertex? v =
    (members[v]?).map (t.toVertex remap) := by
  simp [toComponent, Component.vertex?]

theorem toComponent_entity? (u : Table E) : (t.toComponent remap k members).entity? u v =
    (members[v]?).bind u.entity? := by
  rw [Component.entity?, toComponent_vertex?]
  cases members[v]? <;> rfl

theorem toComponent_size : (t.toComponent remap k members).size = members.length := by
  simp [toComponent, Component.size]

theorem mem_positions {α : Type} (p : α → Bool) (xs : List α) {i : Nat} :
    i ∈ (xs.zipIdx.filter fun (x, _) => p x).map (·.2) ↔ ∃ x, xs[i]? = some x ∧ p x = true := by
  simp only [List.mem_map, List.mem_filter, Prod.exists, List.mem_zipIdx_iff_getElem?]
  constructor
  · rintro ⟨x, j, ⟨hx, hp⟩, rfl⟩
    exact ⟨x, hx, hp⟩
  · rintro ⟨x, hx, hp⟩
    exact ⟨x, i, ⟨hx, hp⟩, rfl⟩

theorem positions_nodup {α : Type} (p : α × Nat → Bool) (xs : List α) :
    ((xs.zipIdx.filter p).map (·.2)).Nodup := by
  have hall : (xs.zipIdx.map (·.2)).Nodup := by
    rw [List.zipIdx_map_snd]
    exact List.nodup_range'
  exact hall.sublist (List.filter_sublist.map _)

/-- In a group that no link leaves, renumbering drops nothing. -/
theorem mem_renumbered (h : Built ds t) (hk : t.parts[k]? = some members) {i : NodeId}
    (hv : members[v]? = some i) {links : List NodeId} (hl : ∀ j ∈ links, j ∈ t.adjacency i) :
    w ∈ links.filterMap (fun a => (t.remap[a]?).join) ↔
      ∃ j, members[w]? = some j ∧ j ∈ links := by
  have hg := parts_grouped h
  simp only [List.mem_filterMap, remap_spec h]
  constructor
  · rintro ⟨j, hj, g, hgm, hgw⟩
    have hjm := hg.closed members (List.mem_of_getElem? hk) i (List.mem_of_getElem? hv) j (hl j hj)
    obtain ⟨u, hu⟩ := List.mem_iff_getElem?.mp hjm
    obtain ⟨l, hl⟩ := List.mem_iff_getElem?.mp hgm
    obtain ⟨rfl, rfl⟩ := Split.place_unique hg.nodup hl hk hgw hu
    exact ⟨j, hu, hj⟩
  · rintro ⟨j, hw, hj⟩
    exact ⟨j, hj, members, List.mem_of_getElem? hk, hw⟩

theorem mem_toComponent_ancestors (h : Built ds t) (hk : t.parts[k]? = some members) :
    w ∈ (t.toComponent t.remap k members).ancestors v ↔
      ∃ i j, members[v]? = some i ∧ members[w]? = some j ∧ j ∈ t.ancestors i := by
  rw [Component.ancestors, toComponent_vertex?]
  cases hv : members[v]? with
  | none => simp
  | some i =>
    have hl : ∀ j ∈ t.ancestors i, j ∈ t.adjacency i := fun j hj =>
      (h.adjacency i j).mpr (Or.inl hj)
    simpa [toVertex, relink] using mem_renumbered h hk hv hl

theorem mem_toComponent_descendants (h : Built ds t) (hk : t.parts[k]? = some members) :
    w ∈ (t.toComponent t.remap k members).descendants v ↔
      ∃ i j, members[v]? = some i ∧ members[w]? = some j ∧ j ∈ t.descendants i := by
  rw [Component.descendants, toComponent_vertex?]
  cases hv : members[v]? with
  | none => simp
  | some i =>
    have hl : ∀ j ∈ t.descendants i, j ∈ t.adjacency i := fun j hj =>
      (h.adjacency i j).mpr (Or.inr hj)
    simpa [toVertex, relink] using mem_renumbered h hk hv hl

theorem renumbered_eq_nil_iff (h : Built ds t) (hk : t.parts[k]? = some members) {i : NodeId}
    (hv : members[v]? = some i) {links : List NodeId} (hl : ∀ j ∈ links, j ∈ t.adjacency i) :
    links.filterMap (fun a => (t.remap[a]?).join) = [] ↔ links = [] := by
  constructor
  · intro hnil
    refine List.eq_nil_iff_forall_not_mem.mpr fun j hj => ?_
    obtain ⟨w, hw⟩ := List.mem_iff_getElem?.mp
      (parts_closed h hk (List.mem_of_getElem? hv) (hl j hj))
    have hmem := (mem_renumbered h hk hv hl).mpr ⟨j, hw, hj⟩
    rw [hnil] at hmem
    cases hmem
  · rintro rfl
    rfl

/-- Places chosen by a list of the node are those where the list of the vertex is empty. -/
theorem mem_places (h : Built ds t) (hk : t.parts[k]? = some members) {has : Node E → Bool}
    {links : NodeId → List NodeId} (hl : ∀ i, ∀ j ∈ links i, j ∈ t.adjacency i)
    (hhas : ∀ i, i < t.size → ((t.node? i).any has = true ↔ links i = [])) :
    v ∈ t.places has members ↔ v < members.length ∧
      ((members[v]?).map fun i =>
        (links i).filterMap fun a => (t.remap[a]?).join).getD [] = [] := by
  refine (mem_positions (fun i => (t.node? i).any has) members).trans ?_
  constructor
  · rintro ⟨i, hv, hi⟩
    obtain ⟨hlt, _⟩ := List.getElem?_eq_some_iff.mp hv
    have hsize := parts_lt h
      (List.mem_flatten.mpr ⟨members, List.mem_of_getElem? hk, List.mem_of_getElem? hv⟩)
    rw [hv]
    exact ⟨hlt, (renumbered_eq_nil_iff h hk hv (hl i)).mpr ((hhas i hsize).mp hi)⟩
  · rintro ⟨hlt, hnil⟩
    have hv := List.getElem?_eq_getElem hlt
    have hsize := parts_lt h
      (List.mem_flatten.mpr ⟨members, List.mem_of_getElem? hk, List.mem_of_getElem? hv⟩)
    rw [hv] at hnil
    exact ⟨_, hv, (hhas _ hsize).mpr ((renumbered_eq_nil_iff h hk hv (hl _)).mp hnil)⟩

theorem isRoot_iff {i : NodeId} (hi : i < t.size) :
    (t.node? i).any (·.isRoot) = true ↔ t.ancestors i = [] := by
  have hnode : t.node? i = some t.nodes[i] := Array.getElem?_eq_getElem hi
  simp [ancestors, hnode, Node.isRoot]

theorem isPinnacle_iff {i : NodeId} (hi : i < t.size) :
    (t.node? i).any (·.isPinnacle) = true ↔ t.descendants i = [] := by
  have hnode : t.node? i = some t.nodes[i] := Array.getElem?_eq_getElem hi
  simp [descendants, hnode, Node.isPinnacle]

theorem mem_toComponent_roots (h : Built ds t) (hk : t.parts[k]? = some members) :
    v ∈ (t.toComponent t.remap k members).roots ↔
      v < members.length ∧ (t.toComponent t.remap k members).ancestors v = [] := by
  have hplaces := mem_places h hk (v := v) (fun i j hj => (h.adjacency i j).mpr (Or.inl hj))
    fun i => isRoot_iff
  rw [Component.ancestors, toComponent_vertex?, Option.map_map]
  exact hplaces

theorem mem_toComponent_pinnacles (h : Built ds t) (hk : t.parts[k]? = some members) :
    v ∈ (t.toComponent t.remap k members).pinnacles ↔
      v < members.length ∧ (t.toComponent t.remap k members).descendants v = [] := by
  have hplaces := mem_places h hk (v := v) (fun i j hj => (h.adjacency i j).mpr (Or.inr hj))
    fun i => isPinnacle_iff
  rw [Component.descendants, toComponent_vertex?, Option.map_map]
  exact hplaces

theorem entity?_of_mem_parts (h : Built ds t) {i : NodeId} (hi : i ∈ t.parts.flatten) :
    ∃ e, t.entity? i = some e := exists_entity?.mpr (parts_lt h hi)

theorem toComponent_entity?_iff {v : VertId} {e : E} :
    (t.toComponent t.remap k members).entity? t v = some e ↔
      ∃ i, members[v]? = some i ∧ t.entity? i = some e := by
  rw [toComponent_entity?]
  exact Option.bind_eq_some_iff

theorem toComponent_closed (h : Built ds t) (hk : t.parts[k]? = some members) {v : VertId}
    {e d : E} (hv : (t.toComponent t.remap k members).entity? t v = some e)
    (hdep : DependsOn ds e d ∨ DependsOn ds d e) :
    ∃ w, (t.toComponent t.remap k members).entity? t w = some d := by
  obtain ⟨i, hi, he⟩ := toComponent_entity?_iff.mp hv
  have hd : d ∈ mentions ds :=
    hdep.elim (fun hd => hd.1.mentioned.2) (fun hd => hd.1.mentioned.1)
  obtain ⟨j, hjd⟩ := h.known.mpr hd
  have hadj : j ∈ t.adjacency i := by
    rw [h.adjacency, h.descendants, h.ancestors, h.ancestors]
    exact hdep.imp (fun hd => ⟨e, d, he, hjd, hd⟩) (fun hd => ⟨d, e, hjd, he, hd⟩)
  obtain ⟨w, hw⟩ := List.mem_iff_getElem?.mp (parts_closed h hk (List.mem_of_getElem? hi) hadj)
  exact ⟨w, toComponent_entity?_iff.mpr ⟨j, hw, hjd⟩⟩

theorem toComponent_faithful (h : Built ds t) (hk : t.parts[k]? = some members) :
    (t.toComponent t.remap k members).Faithful ds t := by
  have hpart {i : NodeId} (hi : i ∈ members) : i ∈ t.parts.flatten :=
    List.mem_flatten.mpr ⟨members, List.mem_of_getElem? hk, hi⟩
  constructor
  case inhabited =>
    obtain ⟨i, rest, rfl, _⟩ := t.parts_ordered.head members (List.mem_of_getElem? hk)
    rw [toComponent_size, List.length_cons]
    exact Nat.succ_pos _
  case entity =>
    intro v hv
    rw [toComponent_size] at hv
    obtain ⟨e, he⟩ := entity?_of_mem_parts h (hpart (List.getElem_mem hv))
    exact ⟨e, toComponent_entity?_iff.mpr ⟨_, List.getElem?_eq_getElem hv, he⟩⟩
  case injective =>
    intro v w e hv hw
    obtain ⟨i, hvi, hi⟩ := toComponent_entity?_iff.mp hv
    obtain ⟨j, hwj, hj⟩ := toComponent_entity?_iff.mp hw
    obtain rfl := h.indexed.injective hi hj
    exact (Split.place_unique (parts_grouped h).nodup hk hk hvi hwj).2
  case ancestors =>
    intro v w
    rw [mem_toComponent_ancestors h hk]
    constructor
    · rintro ⟨i, j, hi, hj, hji⟩
      obtain ⟨e, d, he, hd, hdep⟩ := (h.ancestors i j).mp hji
      exact ⟨e, d, toComponent_entity?_iff.mpr ⟨i, hi, he⟩,
        toComponent_entity?_iff.mpr ⟨j, hj, hd⟩, hdep⟩
    · rintro ⟨e, d, hv, hw, hdep⟩
      obtain ⟨i, hi, he⟩ := toComponent_entity?_iff.mp hv
      obtain ⟨j, hj, hd⟩ := toComponent_entity?_iff.mp hw
      exact ⟨i, j, hi, hj, (h.ancestors i j).mpr ⟨e, d, he, hd, hdep⟩⟩
  case descendants =>
    intro v w
    rw [mem_toComponent_ancestors h hk, mem_toComponent_descendants h hk]
    constructor
    · rintro ⟨i, j, hi, hj, hji⟩
      exact ⟨j, i, hj, hi, (h.descendants i j).mp hji⟩
    · rintro ⟨j, i, hj, hi, hij⟩
      exact ⟨i, j, hi, hj, (h.descendants i j).mpr hij⟩
  case closed => exact fun _ _ _ => toComponent_closed h hk
  case linked =>
    intro v hv
    rw [toComponent_size] at hv
    have hi := hpart (List.getElem_mem hv)
    obtain ⟨j, hj⟩ := List.exists_mem_of_ne_nil _ ((mem_parts_iff h).mp hi)
    obtain ⟨w, hw⟩ := List.mem_iff_getElem?.mp (parts_closed h hk (List.getElem_mem hv) hj)
    have hvi := List.getElem?_eq_getElem hv
    rcases (h.adjacency _ j).mp hj with hj | hj
    · exact Or.inl (List.ne_nil_of_mem ((mem_toComponent_ancestors h hk).mpr ⟨_, j, hvi, hw, hj⟩))
    · exact Or.inr (List.ne_nil_of_mem ((mem_toComponent_descendants h hk).mpr ⟨_, j, hvi, hw, hj⟩))
  case roots =>
    intro v
    rw [toComponent_size]
    exact mem_toComponent_roots h hk
  case pinnacles =>
    intro v
    rw [toComponent_size]
    exact mem_toComponent_pinnacles h hk
  case rootsNodup => exact positions_nodup _ _
  case pinnaclesNodup => exact positions_nodup _ _

/-- The tables that some history leads to, each with the declarations it has taken. -/
inductive Reached : List (E × List E) → Table E → Prop
  | new : Reached [] {}
  | add {ds : List (E × List E)} {t t' : Table E} {e : E} {deps : List E} {id : NodeId} :
      Reached ds t → t.add e deps = (.ok id, t') → Reached (ds ++ [(e, deps)]) t'
  | build {ds : List (E × List E)} {t t' : Table E} :
      Reached ds t → t.build = (.ok (), t') → Reached ds t'
  | split {ds : List (E × List E)} {t : Table E} : Reached ds t → Reached ds t.split.2

theorem Reached.state (h : Reached ds t) : Records ds t ∨ Built ds t := by
  induction h with
  | new => exact Or.inl records_new
  | add _ hadd ih =>
    rcases ih with hr | hb
    · exact Or.inl (add_records hr hadd)
    · exact absurd (add_cases hadd).1 (by simp [hb.frozen])
  | build _ hbuild ih =>
    rcases ih with hr | hb
    · exact Or.inr (build_built hr hbuild)
    · simp [Table.build, hb.frozen] at hbuild
  | split _ ih =>
    rcases ih with hr | hb
    · rw [Table.split, hr.unfrozen]
      exact Or.inl hr
    · exact Or.inr (split_built hb)

theorem Reached.built (h : Reached ds t) (hf : t.frozen = true) : Built ds t := by
  rcases h.state with hr | hb
  · simp [hr.unfrozen] at hf
  · exact hb

theorem reached_ofCalls (calls : List (E × List E)) : Reached (taken calls) (ofCalls calls) :=
  offer_induction Reached.add Reached.new calls

theorem exists_reached (hdistinct : (ds.map (·.1)).Nodup) (hdeps : ∀ d ∈ ds, d.2.Nodup) :
    ∃ t : Table E, Reached ds t ∧ t.frozen = true := by
  obtain ⟨t, ht⟩ := build_of_unfrozen (ofCalls_records ds).unfrozen
  have hr := reached_ofCalls ds
  rw [taken_eq hdistinct hdeps] at hr
  exact ⟨t, hr.build ht, (build_frozen ht).1⟩

end Table

end DepGraph
