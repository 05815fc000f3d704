import DepGraph.Component.Split
import DepGraph.Proofs.Splitting

/-!
# The search for components

One search after another takes nodes from its waves, numbers them and writes the component on them,
on marks and numbers that all searches share. What this leaves behind is the layered search: the
groups in the order found, each node numbered by its place, each component written down with the
numbers given by then. The count of visited nodes is exact, so ending the scan on a full count skips
no search.
-/

namespace DepGraph

variable {E : Type} [Entity E]

namespace Table

variable {t u : Table E}

structure SameLinks (t u : Table E) : Prop where
  size : u.size = t.size
  links : ∀ i, (u.node? i).map (fun n => (n.ancestors, n.descendants, n.adjacency)) =
    (t.node? i).map fun n => (n.ancestors, n.descendants, n.adjacency)

theorem SameLinks.refl (t : Table E) : SameLinks t t := ⟨rfl, fun _ => rfl⟩

theorem SameLinks.reads {α : Type} (h : SameLinks t u)
    (read : List NodeId × List NodeId × List NodeId → α) (i : NodeId) :
    (u.node? i).map (fun n => read (n.ancestors, n.descendants, n.adjacency)) =
      (t.node? i).map fun n => read (n.ancestors, n.descendants, n.adjacency) := by
  simpa [Option.map_map, Function.comp_def] using congrArg (Option.map read) (h.links i)

theorem SameLinks.adjacency (h : SameLinks t u) : u.adjacency = t.adjacency :=
  funext fun i => congrArg (·.getD []) (h.reads (·.2.2) i)

theorem SameLinks.relink (h : SameLinks t u) (remap : Array (Option VertId)) :
    u.relink remap = t.relink remap := by
  have hanc : u.ancestors = t.ancestors :=
    funext fun i => congrArg (·.getD []) (h.reads (·.1) i)
  have hdesc : u.descendants = t.descendants :=
    funext fun i => congrArg (·.getD []) (h.reads (·.2.1) i)
  funext vert
  rw [Table.relink, Table.relink, hanc, hdesc]

theorem SameLinks.any (h : SameLinks t u)
    (has : List NodeId × List NodeId × List NodeId → Bool) (i : NodeId) :
    (u.node? i).any (fun n => has (n.ancestors, n.descendants, n.adjacency)) =
      (t.node? i).any fun n => has (n.ancestors, n.descendants, n.adjacency) := by
  have hany := congrArg (Option.any has) (h.links i)
  rwa [Option.any_map, Option.any_map] at hany

theorem SameLinks.isRoot (h : SameLinks t u) (i : NodeId) :
    (u.node? i).any (·.isRoot) = (t.node? i).any (·.isRoot) := h.any (·.1.isEmpty) i

theorem SameLinks.isPinnacle (h : SameLinks t u) (i : NodeId) :
    (u.node? i).any (·.isPinnacle) = (t.node? i).any (·.isPinnacle) := h.any (·.2.1.isEmpty) i

theorem SameLinks.modifyNode (h : SameLinks t u) (id : NodeId) {f : Node E → Node E}
    (hf : ∀ n, ((f n).ancestors, (f n).descendants, (f n).adjacency) =
      (n.ancestors, n.descendants, n.adjacency)) : SameLinks t (u.modifyNode id f) where
  size := (Array.size_modify ..).trans h.size
  links i := by
    rw [← h.links i, Table.modifyNode, node?, node?, Array.getElem?_modify]
    split
    · rw [Option.map_map]
      exact congrArg (Option.map · _) (funext hf)
    · rfl

def assign (t : Table E) (k : CompId) (members : List NodeId) : Table E :=
  members.foldl (fun t id => t.modifyNode id ({ · with component := some k })) t

theorem SameLinks.assign (h : SameLinks t u) (k : CompId) (members : List NodeId) :
    SameLinks t (u.assign k members) := by
  induction members generalizing u with
  | nil => exact h
  | cons id members ih => exact ih (h.modifyNode id fun _ => rfl)

def assignAll (t : Table E) (gs : List (List NodeId)) : Table E :=
  gs.zipIdx.foldl (fun t g => t.assign g.2 g.1) t

theorem assignAll_concat (t : Table E) (gs : List (List NodeId)) (g : List NodeId) :
    t.assignAll (gs ++ [g]) = (t.assignAll gs).assign gs.length g := by
  simp [assignAll, List.zipIdx_append]

theorem SameLinks.assignAll (h : SameLinks t u) (gs : List (List NodeId)) :
    SameLinks t (u.assignAll gs) := by
  unfold Table.assignAll
  induction gs.zipIdx generalizing u with
  | nil => exact h
  | cons g rest ih => exact ih (h.assign g.2 g.1)

def places (t : Table E) (has : Node E → Bool) (members : List NodeId) : List VertId :=
  (members.zipIdx.filter fun (id, _) => (t.node? id).any has).map (·.2)

theorem places_concat (t : Table E) (has : Node E → Bool) (members : List NodeId) (id : NodeId) :
    t.places has (members ++ [id]) =
      if (t.node? id).any has then t.places has members ++ [members.length]
      else t.places has members := by
  by_cases h : (t.node? id).any has <;> simp [places, List.zipIdx_append, h]

def toVertex (t : Table E) (remap : Array (Option VertId)) (id : NodeId) : Vertex :=
  t.relink remap { node := id, ancestors := [], descendants := [] }

@[simp]
theorem toVertex_node (t : Table E) (remap : Array (Option VertId)) (id : NodeId) :
    (t.toVertex remap id).node = id := rfl

/-- The component with these members, numbered in this order. -/
def toComponent (t : Table E) (remap : Array (Option VertId)) (k : CompId)
    (members : List NodeId) : Component where
  id := k
  verts := (members.map (t.toVertex remap)).toArray
  roots := t.places Node.isRoot members
  pinnacles := t.places Node.isPinnacle members

theorem SameLinks.toComponent (h : SameLinks t u) : u.toComponent = t.toComponent := by
  funext remap k members
  unfold Table.toComponent Table.toVertex places
  simp only [h.relink, h.isRoot, h.isPinnacle]

end Table

namespace Split

namespace Splitter

variable {s s' s'' : Splitter}

/-- The splitter has met the nodes `ids`, and visited those not visited before. -/
structure Gathers (s : Splitter) (ids : List NodeId) (s' : Splitter) : Prop where
  visited : s'.visited = (Marks.gather ids s.visited).2
  count : s'.count = s.count + (Marks.gather ids s.visited).1.length
  next : s'.next = s.next ++ (Marks.gather ids s.visited).1

theorem Gathers.nil (s : Splitter) : Gathers s [] s := ⟨rfl, rfl, (List.append_nil _).symm⟩

theorem Gathers.trans {xs ys : List NodeId} (h : Gathers s xs s') (h' : Gathers s' ys s'') :
    Gathers s (xs ++ ys) s'' := by
  refine ⟨?_, ?_, ?_⟩
  · rw [h'.visited, h.visited, Marks.gather_append]
  · rw [h'.count, h.count, h.visited, Marks.gather_append, List.length_append, Nat.add_assoc]
  · rw [h'.next, h.next, h.visited, Marks.gather_append, List.append_assoc]

theorem meet_gathers (s : Splitter) (id : NodeId) : Gathers s [id] (s.meet id) := by
  unfold meet
  split
  · rename_i hopen
    refine ⟨?_, ?_, ?_⟩ <;> simp [Marks.gather, hopen, visit]
  · rename_i hmarked
    refine ⟨?_, ?_, ?_⟩ <;> simp [Marks.gather, hmarked]

theorem foldl_meet_gathers (ids : List NodeId) (s : Splitter) :
    Gathers s ids (ids.foldl meet s) := by
  induction ids generalizing s with
  | nil => exact .nil s
  | cons id ids ih => exact (meet_gathers s id).trans (ih (s.meet id))

theorem foldl_meet_remap (ids : List NodeId) (s : Splitter) :
    (ids.foldl meet s).remap = s.remap := by
  induction ids generalizing s with
  | nil => rfl
  | cons id ids ih =>
    rw [List.foldl_cons, ih, meet]
    split <;> rfl

/-- All nodes: those counted as visited and those without a mark. -/
def total (s : Splitter) : Nat := s.count + Marks.unmarked s.visited

theorem Gathers.total {ids : List NodeId} (h : Gathers s ids s') : s'.total = s.total := by
  have hcount := Marks.gather_unmarked ids s.visited
  rw [Splitter.total, Splitter.total, h.count, h.visited]
  omega

theorem visit_total {id : NodeId} (h : s.visited[id]? = some false) :
    (s.visit id).total = s.total := by
  have hmark := Marks.unmarked_setIfInBounds h
  simp only [total, visit]
  omega

end Splitter

namespace Search

variable {t : Table E} {remap : Array (Option VertId)} {k : CompId} {members : List NodeId}
  {s : Search E}

theorem number_gathers (k : CompId) (s : Search E) (id : NodeId) :
    s.splitter.Gathers (s.table.adjacency id) (s.number k id).splitter := by
  have hsame := (Table.SameLinks.refl s.table).modifyNode id
    (f := ({ · with component := some k })) fun _ => rfl
  have h := Splitter.foldl_meet_gathers (s.table.adjacency id)
    { s.splitter with remap := s.splitter.remap.setIfInBounds id (some s.verts.size) }
  rw [← hsame.adjacency] at h ⊢
  exact ⟨h.visited, h.count, h.next⟩

/-- The search has numbered `members` for component `k`. -/
structure Numbered (t : Table E) (remap : Array (Option VertId)) (k : CompId)
    (members : List NodeId) (s : Search E) : Prop where
  table : s.table = t.assign k members
  remap : s.splitter.remap = numberOn remap members
  verts : s.verts.toList = members.map ({ node := ·, ancestors := [], descendants := [] })
  roots : s.roots = t.places Node.isRoot members
  pinnacles : s.pinnacles = t.places Node.isPinnacle members

theorem Numbered.sameLinks (h : Numbered t remap k members s) : t.SameLinks s.table :=
  h.table ▸ (Table.SameLinks.refl t).assign k members

theorem Numbered.number (h : Numbered t remap k members s) (id : NodeId) :
    Numbered t remap k (members ++ [id]) (s.number k id) := by
  have hsize : s.verts.size = members.length := by
    rw [← Array.length_toList, h.verts, List.length_map]
  have hsame := h.sameLinks.modifyNode id (f := ({ · with component := some k })) fun _ => rfl
  constructor
  case table =>
    rw [Search.number, h.table, Table.assign, Table.assign, List.foldl_append]
    rfl
  case remap =>
    rw [Search.number, Splitter.foldl_meet_remap, h.remap, hsize, numberOn, numberOn,
      List.zipIdx_append, List.foldl_append]
    simp
  case verts => simp [Search.number, h.verts]
  case roots => rw [Search.number, hsame.isRoot, h.roots, hsize, Table.places_concat]
  case pinnacles => rw [Search.number, hsame.isPinnacle, h.pinnacles, hsize, Table.places_concat]

theorem Numbered.wave (h : Numbered t remap k members s) (wave : List NodeId) :
    Numbered t remap k (members ++ wave) (wave.foldl (Search.number k) s) ∧
      s.splitter.Gathers (wave.flatMap t.adjacency)
        (wave.foldl (Search.number k) s).splitter := by
  induction wave generalizing members s with
  | nil => exact ⟨(List.append_nil members).symm ▸ h, .nil _⟩
  | cons id wave ih =>
    obtain ⟨hnumbered, hgathers⟩ := ih (h.number id)
    have hfirst := number_gathers k s id
    rw [h.sameLinks.adjacency] at hfirst
    exact ⟨List.append_assoc members [id] wave ▸ hnumbered, hfirst.trans hgathers⟩

theorem Numbered.advance (h : Numbered t remap k members s) :
    Numbered t remap k (members ++ s.splitter.wave) (s.advance k) := by
  obtain ⟨hnumbered, _⟩ := h.wave s.splitter.wave
  exact ⟨hnumbered.table, hnumbered.remap, hnumbered.verts, hnumbered.roots, hnumbered.pinnacles⟩

/-- The search has its component when it ends: the nodes of all layers, layer by layer. -/
theorem Numbered.run (h : Numbered t remap k members s) (hnext : s.splitter.next = []) :
    Numbered t remap k
        (members ++ (layers t.adjacency s.splitter.wave s.splitter.visited).1.flatten) (s.run k) ∧
      (s.run k).splitter.visited = (layers t.adjacency s.splitter.wave s.splitter.visited).2 ∧
      (s.run k).splitter.total = s.splitter.total := by
  fun_induction Search.run k s generalizing members with
  | case1 s hwave =>
    rw [List.isEmpty_iff.mp hwave, layers_nil]
    exact ⟨(List.append_nil members).symm ▸ h, rfl, rfl⟩
  | case2 s hwave ih =>
    obtain ⟨_, hgathers⟩ := h.wave s.splitter.wave
    obtain ⟨hnumbered, hvisited, htotal⟩ := ih h.advance rfl
    obtain ⟨hflat, hmarks⟩ := layers_next t.adjacency s.splitter.wave s.splitter.visited
    have hwave' : (s.advance k).splitter.wave =
        (spread t.adjacency s.splitter.wave s.splitter.visited).1 := by
      rw [spread, ← List.nil_append (Marks.gather ..).1, ← hnext]
      exact hgathers.next
    have hvisited' : (s.advance k).splitter.visited =
        (spread t.adjacency s.splitter.wave s.splitter.visited).2 := hgathers.visited
    rw [hwave', hvisited'] at hnumbered hvisited
    rw [hflat, hmarks, ← List.append_assoc]
    exact ⟨hnumbered, hvisited, htotal.trans hgathers.total⟩

theorem Numbered.component (h : Numbered t remap k members s) :
    s.component k = t.toComponent (numberOn remap members) k members := by
  have hverts : s.verts.map (t.relink (numberOn remap members)) =
      (members.map (t.toVertex (numberOn remap members))).toArray := by
    apply Array.toList_inj.mp
    rw [Array.toList_map, h.verts, List.map_map]
    rfl
  rw [Search.component, h.remap, h.sameLinks.relink, hverts, h.roots, h.pinnacles]
  rfl

end Search

namespace Progress

variable {t : Table E} {gs : List (List NodeId)} {seen : List NodeId} {s : Progress E}

/-- The searches so far have found the groups `gs`. Each component was written down with the numbers
given up to its own. -/
structure Recorded (t : Table E) (gs : List (List NodeId)) (s : Progress E) : Prop where
  table : s.table = t.assignAll gs
  remap : s.splitter.remap = numbering t.size gs
  components : s.components = gs.zipIdx.map fun (members, k) =>
    t.toComponent (numbering t.size (gs.take (k + 1))) k members
  total : s.splitter.total = t.size

theorem Recorded.sameLinks (h : Recorded t gs s) : t.SameLinks s.table :=
  h.table ▸ (Table.SameLinks.refl t).assignAll gs

theorem numbering_concat (size : Nat) (gs : List (List NodeId)) (g : List NodeId) :
    numbering size (gs ++ [g]) = numberOn (numbering size gs) g := by
  simp [numbering]

theorem components_concat (t : Table E) (gs : List (List NodeId)) (g : List NodeId) :
    (gs ++ [g]).zipIdx.map (fun (members, k) =>
        t.toComponent (numbering t.size ((gs ++ [g]).take (k + 1))) k members) =
      gs.zipIdx.map (fun (members, k) =>
        t.toComponent (numbering t.size (gs.take (k + 1))) k members) ++
      [t.toComponent (numbering t.size (gs ++ [g])) gs.length g] := by
  rw [List.zipIdx_append, List.map_append]
  congr 1
  · refine List.map_congr_left ?_
    rintro ⟨members, k⟩ hk
    obtain ⟨hlt, _⟩ := List.getElem?_eq_some_iff.mp (List.mem_zipIdx_iff_getElem?.mp hk)
    have htake : (gs ++ [g]).take (k + 1) = gs.take (k + 1) :=
      List.take_append_of_le_length hlt
    simp only [htake]
  · have htake : (gs ++ [g]).take (gs.length + 1) = gs ++ [g] :=
      List.take_of_length_le (by simp)
    simp [htake]

theorem Recorded.search (h : Recorded t gs s) {start : NodeId}
    (hopen : s.splitter.visited[start]? = some false) :
    let r := layers t.adjacency [start] (s.splitter.visited.setIfInBounds start true)
    Recorded t (gs ++ [r.1.flatten]) (s.search start) ∧
      (s.search start).splitter.visited = r.2 := by
  have hblank : Search.Numbered s.table (numbering t.size gs) s.components.length []
      { splitter := s.splitter.enter start, table := s.table } :=
    ⟨rfl, h.remap, rfl, rfl, rfl⟩
  obtain ⟨hnumbered, hvisited, htotal⟩ := hblank.run rfl
  have hlength : s.components.length = gs.length := by
    rw [h.components, List.length_map, List.length_zipIdx]
  have henter : (s.splitter.enter start).total = s.splitter.total :=
    Splitter.visit_total (s := s.splitter) hopen
  rw [h.sameLinks.adjacency, List.nil_append] at hnumbered
  rw [h.sameLinks.adjacency] at hvisited
  refine ⟨⟨?_, ?_, ?_, ?_⟩, hvisited⟩
  · rw [Table.assignAll_concat, ← h.table, ← hlength]
    exact hnumbered.table
  · rw [numbering_concat]
    exact hnumbered.remap
  · rw [components_concat, ← h.components, numbering_concat, ← hlength,
      ← h.sameLinks.toComponent]
    exact congrArg (s.components ++ [·]) hnumbered.component
  · exact htotal.trans (henter.trans h.total)

/-- Where the count says that all nodes have been visited, no search is left to start. -/
theorem Recorded.finished (h : Recorded t gs s) (hcount : s.table.size ≤ s.splitter.count)
    (starts : List NodeId) : groups t.adjacency starts s.splitter.visited = [] := by
  refine groups_eq_nil (fun i hi => ?_) starts
  have htotal := h.total
  have hpos : 0 < Marks.unmarked s.splitter.visited :=
    Array.count_pos_iff.mpr (Array.mem_of_getElem? hi)
  rw [h.sameLinks.size] at hcount
  rw [Splitter.total] at htotal
  omega

theorem Recorded.searchAll (h : Recorded t gs s) (starts : List NodeId) :
    Recorded t (gs ++ groups t.adjacency starts s.splitter.visited) (s.searchAll starts) := by
  induction starts generalizing gs s with
  | nil => simpa [groups, Progress.searchAll] using h
  | cons start starts ih =>
    rw [Progress.searchAll]
    split
    · rename_i hcount
      rw [h.finished hcount, List.append_nil]
      exact h
    · split
      · rename_i hopen
        obtain ⟨hsearch, hvisited⟩ := h.search hopen
        have hrest := ih hsearch
        rw [hvisited, List.append_assoc] at hrest
        rw [groups, if_pos hopen]
        exact hrest
      · rename_i hmarked
        rw [groups, if_neg hmarked]
        exact ih h

theorem searchAll_isolated (s : Progress E) (starts : List NodeId) :
    (s.searchAll starts).isolated = s.isolated := by
  fun_induction Progress.searchAll s starts with
  | case1 => rfl
  | case2 => rfl
  | case3 s start starts hcount hopen ih => exact ih
  | case4 s start starts hcount hmarked ih => exact ih

def lone (t : Table E) (seen : List NodeId) (i : NodeId) : Bool :=
  decide (i ∈ seen) && (t.adjacency i).isEmpty

theorem lone_concat (t : Table E) (seen : List NodeId) (id i : NodeId) :
    lone t (seen ++ [id]) i = (lone t seen i || decide (i = id) && (t.adjacency i).isEmpty) := by
  simp [lone, Bool.and_or_distrib_right]

/-- Of the nodes looked at, those without links have been set aside. -/
structure Sifted (t : Table E) (seen : List NodeId) (s : Progress E) : Prop where
  visited : ∀ i, s.splitter.visited[i]? = (t.node? i).map fun _ => lone t seen i
  table : s.table = { t with nodes := s.table.nodes }
  nodes : ∀ i, s.table.node? i =
    (t.node? i).map fun n => { n with isolated := n.isolated || lone t seen i }
  remap : s.splitter.remap = Array.replicate t.size none
  isolated : s.isolated = seen.filter fun id => (t.adjacency id).isEmpty
  components : s.components = []
  total : s.splitter.total = t.size

theorem Sifted.adjacency (h : Sifted t seen s) (i : NodeId) :
    s.table.adjacency i = t.adjacency i := by
  rw [Table.adjacency, Table.adjacency, h.nodes i, Option.map_map]
  rfl

theorem Sifted.skip (h : Sifted t seen s) {id : NodeId} (hid : ¬ (t.adjacency id).isEmpty) :
    Sifted t (seen ++ [id]) s := by
  have hlone : lone t (seen ++ [id]) = lone t seen := by
    funext i
    rw [lone_concat]
    by_cases hi : i = id <;> simp_all
  refine ⟨?_, h.table, ?_, h.remap, ?_, h.components, h.total⟩
  · rw [hlone]
    exact h.visited
  · rw [hlone]
    exact h.nodes
  · simp [h.isolated, hid]

theorem Sifted.take (h : Sifted t seen s) {id : NodeId} (hlt : id < t.size) (hnew : id ∉ seen)
    (hid : (t.adjacency id).isEmpty) : Sifted t (seen ++ [id])
      { s with
        splitter := s.splitter.visit id
        table := s.table.modifyNode id ({ · with isolated := true })
        isolated := s.isolated ++ [id] } := by
  have hlone (i : NodeId) : lone t (seen ++ [id]) i = (lone t seen i || decide (i = id)) := by
    rw [lone_concat]
    by_cases hi : i = id <;> simp_all
  have hnode : t.node? id = some t.nodes[id] := Array.getElem?_eq_getElem hlt
  have hopen : s.splitter.visited[id]? = some false := by simp [h.visited, hnode, lone, hnew]
  constructor
  case visited =>
    intro i
    rw [Splitter.visit, Array.getElem?_setIfInBounds, h.visited, hlone]
    by_cases hi : id = i
    · subst hi
      simp [hnode, (Array.getElem?_eq_some_iff.mp hopen).1]
    · simp [hi, Ne.symm hi]
  case table => rw [Table.modifyNode, h.table]
  case nodes =>
    intro i
    rw [Table.modifyNode, Table.node?, Array.getElem?_modify, hlone, ← Table.node?, h.nodes]
    by_cases hi : id = i
    · subst hi
      simp [hnode]
    · simp [hi, Ne.symm hi]
  case remap => exact h.remap
  case isolated => simp [h.isolated, hid]
  case components => exact h.components
  case total => exact (Splitter.visit_total hopen).trans h.total

theorem Sifted.setAside (h : Sifted t seen s) {id : NodeId} (hlt : id < t.size)
    (hnew : id ∉ seen) : Sifted t (seen ++ [id]) (s.setAside id) := by
  rw [Progress.setAside, h.adjacency]
  split
  · rename_i hid
    exact h.take hlt hnew hid
  · rename_i hid
    exact h.skip hid

theorem Sifted.setAsideAll (h : Sifted t seen s) {ids : List NodeId} (hlt : ∀ id ∈ ids, id < t.size)
    (hnodup : (seen ++ ids).Nodup) : Sifted t (seen ++ ids) (ids.foldl Progress.setAside s) := by
  induction ids generalizing seen s with
  | nil => exact (List.append_nil seen).symm ▸ h
  | cons id ids ih =>
    have hnew : id ∉ seen := fun hid =>
      (List.nodup_append.mp hnodup).2.2 id hid id List.mem_cons_self rfl
    have hstep := h.setAside (hlt id List.mem_cons_self) hnew
    rw [List.append_cons] at hnodup ⊢
    exact ih hstep (fun i hi => hlt i (List.mem_cons_of_mem _ hi)) hnodup

theorem sifted_blank (t : Table E) :
    Sifted t [] { splitter := .ofSize t.size, table := t } where
  visited i := by
    by_cases hi : i < t.size
    · have hnode : t.node? i = some t.nodes[i] := Array.getElem?_eq_getElem hi
      simp [Splitter.ofSize, hnode, lone, hi]
    · have hnode : t.node? i = none := Array.getElem?_eq_none (Nat.le_of_not_lt hi)
      simp [Splitter.ofSize, hnode, Nat.le_of_not_lt hi]
  table := rfl
  nodes i := by simp [lone]
  remap := rfl
  isolated := rfl
  components := rfl
  total := by simp [Splitter.total, Splitter.ofSize, Marks.unmarked]

end Progress

end Split

namespace Table

variable {t : Table E}

def markIsolated (t : Table E) : Table E :=
  { t with nodes := t.nodes.map fun n => { n with isolated := n.isolated || n.adjacency.isEmpty } }

theorem sameLinks_markIsolated (t : Table E) : SameLinks t t.markIsolated where
  size := Array.size_map ..
  links i := by
    rw [markIsolated, node?, Array.getElem?_map, Option.map_map]
    rfl

theorem sifted_all (t : Table E) :
    Split.Progress.Sifted t t.ids (t.ids.foldl Split.Progress.setAside
      { splitter := .ofSize t.size, table := t }) :=
  (Split.Progress.sifted_blank t).setAsideAll (fun _ hid => List.mem_range.mp hid) List.nodup_range

theorem lone_ids {i : NodeId} {n : Node E} (h : t.node? i = some n) :
    Split.Progress.lone t t.ids i = n.adjacency.isEmpty := by
  have hid : i ∈ t.ids := List.mem_range.mpr (node?_lt h)
  simp [Split.Progress.lone, hid, adjacency, h]

def parts (t : Table E) : List (List NodeId) :=
  Split.groups t.adjacency t.ids (t.nodes.map (·.adjacency.isEmpty))

def remap (t : Table E) : Array (Option VertId) := Split.numbering t.size t.parts

theorem sifted_visited {s : Split.Progress E} (h : s.Sifted t t.ids) :
    s.splitter.visited = t.nodes.map (·.adjacency.isEmpty) := by
  apply Array.ext_getElem?
  intro i
  rw [h.visited, Array.getElem?_map, ← node?]
  cases hn : t.node? i with
  | none => rfl
  | some n => rw [Option.map_some, Option.map_some, lone_ids hn]

theorem sifted_table {s : Split.Progress E} (h : s.Sifted t t.ids) :
    s.table = t.markIsolated := by
  rw [h.table, markIsolated]
  congr 1
  apply Array.ext_getElem?
  intro i
  rw [Array.getElem?_map, ← node?, ← node?, h.nodes]
  cases hn : t.node? i with
  | none => rfl
  | some n => rw [Option.map_some, Option.map_some, lone_ids hn]

theorem sifted_recorded {s : Split.Progress E} (h : s.Sifted t t.ids) :
    Split.Progress.Recorded t.markIsolated [] s where
  table := sifted_table h
  remap := by
    rw [h.remap, t.sameLinks_markIsolated.size]
    rfl
  components := h.components
  total := h.total.trans t.sameLinks_markIsolated.size.symm

/-- The table with the component of each node written on it, or that it is isolated. -/
def markSplit (t : Table E) (gs : List (List NodeId)) : Table E := t.markIsolated.assignAll gs

theorem split_of_frozen (h : t.frozen = true) :
    t.split =
      ({ components := t.parts.zipIdx.map fun (members, k) =>
           t.toComponent (Split.numbering t.size (t.parts.take (k + 1))) k members
         isolated := t.ids.filter fun id => (t.adjacency id).isEmpty
         remap := t.remap },
       t.markSplit t.parts) := by
  have hsifted := t.sifted_all
  have hsame := t.sameLinks_markIsolated
  have hfound := (sifted_recorded hsifted).searchAll t.ids
  rw [sifted_visited hsifted, hsame.adjacency, List.nil_append] at hfound
  have hcomponents := hfound.components
  have hremap := hfound.remap
  rw [hsame.size, hsame.toComponent] at hcomponents
  rw [hsame.size] at hremap
  rw [split, if_pos h]
  simp only [Prod.mk.injEq, Partition.mk.injEq]
  refine ⟨⟨hcomponents, ?_, hremap⟩, hfound.table⟩
  rw [Split.Progress.searchAll_isolated, hsifted.isolated]

theorem markSplit_eq (t : Table E) (gs : List (List NodeId)) :
    t.markSplit gs = { t with
      nodes := gs.zipIdx.foldl
        (fun nodes p => p.1.foldl
          (fun nodes id => nodes.modify id ({ · with component := some p.2 })) nodes)
        t.markIsolated.nodes } := by
  have hassign (nodes : Array (Node E)) (p : List NodeId × CompId) :
      ({ t with nodes } : Table E).assign p.2 p.1 = { t with
        nodes := p.1.foldl (fun nodes id => nodes.modify id ({ · with component := some p.2 }))
          nodes } :=
    List.foldl_hom (fun nodes => ({ t with nodes } : Table E)) fun _ _ => rfl
  exact List.foldl_hom (fun nodes => ({ t with nodes } : Table E)) hassign

end Table

end DepGraph
