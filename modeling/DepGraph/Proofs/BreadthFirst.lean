import DepGraph.Proofs.DetectorAgreement
import Mathlib.Combinatorics.SimpleGraph.Metric
import Mathlib.Data.List.Chain

/-!
# Vertices are numbered breadth first

The search of a component goes outward in layers. A layer holds what the layer before it links to
and no earlier layer does, so it is all that lies at one distance from the start. Within a layer
the nodes stand in the order in which the layer before meets them: by the first of its nodes that
links to them, and then by their own number.
-/

namespace DepGraph

namespace Marks

theorem gather_sublist (ids : List Nat) (marks : Array Bool) :
    (gather ids marks).1.Sublist ids := by
  induction ids generalizing marks with
  | nil => exact List.Sublist.refl []
  | cons i ids ih =>
    rw [gather]
    split
    · exact (ih _).cons_cons i
    · exact (ih marks).cons i

end Marks

namespace Split

open Marks (Open)

variable {adjacency : Nat → List Nat}

/-- A search along the wave meets `x` before `y`: some node of the wave links to `x`, none before it
links to `y`, and if it links to both, `x` has the lower number. -/
def Met (adjacency : Nat → List Nat) (wave : List Nat) (x y : Nat) : Prop :=
  ∃ before a after, wave = before ++ a :: after ∧ x ∈ adjacency a ∧
    (∀ b ∈ before, y ∉ adjacency b) ∧ (y ∈ adjacency a → x < y)

theorem Met.cons {wave : List Nat} {a x y : Nat} (h : Met adjacency wave x y)
    (hy : y ∉ adjacency a) : Met adjacency (a :: wave) x y := by
  obtain ⟨before, b, after, rfl, hx, hbefore, hlt⟩ := h
  exact ⟨a :: before, b, after, rfl, hx, List.forall_mem_cons.mpr ⟨hy, hbefore⟩, hlt⟩

theorem spread_met (hasc : ∀ a, (adjacency a).Pairwise (· < ·)) (wave : List Nat)
    (marks : Array Bool) : (spread adjacency wave marks).1.Pairwise (Met adjacency wave) := by
  induction wave generalizing marks with
  | nil => exact List.Pairwise.nil
  | cons a wave ih =>
    rw [spread, List.flatMap_cons, Marks.gather_append]
    have hsub := Marks.gather_sublist (adjacency a) marks
    have hrest {y : Nat} (hy : y ∈ (Marks.gather (wave.flatMap adjacency)
        (Marks.gather (adjacency a) marks).2).1) : y ∉ adjacency a :=
      (Marks.open_gather.mp (Marks.mem_gather.mp hy).2).2
    refine List.pairwise_append.mpr ⟨?_, ?_, ?_⟩
    · refine ((hasc a).sublist hsub).imp_of_mem ?_
      intro x y hx _ hxy
      exact ⟨[], a, wave, rfl, hsub.subset hx, by simp, fun _ => hxy⟩
    · refine (ih _).imp_of_mem ?_
      intro x y _ hy hmet
      exact hmet.cons (hrest hy)
    · intro x hx y hy
      exact ⟨[], a, wave, rfl, hsub.subset hx, by simp, fun hya => absurd hya (hrest hy)⟩

def InLayer (ls : List (List Nat)) (k x : Nat) : Prop := ∃ layer, ls[k]? = some layer ∧ x ∈ layer

theorem InLayer.mem {ls : List (List Nat)} {k x : Nat} (h : InLayer ls k x) : x ∈ ls.flatten := by
  obtain ⟨layer, hlayer, hx⟩ := h
  exact List.mem_flatten.mpr ⟨layer, List.mem_of_getElem? hlayer, hx⟩

def AtLevel (ls : List (List Nat)) (k v : Nat) : Prop :=
  ∃ x, ls.flatten[v]? = some x ∧ InLayer ls k x

theorem exists_atLevel {ls : List (List Nat)} {v x : Nat} (h : ls.flatten[v]? = some x) :
    ∃ k, InLayer ls k x ∧ AtLevel ls k v := by
  obtain ⟨layer, hlayer, hx⟩ := List.mem_flatten.mp (List.mem_of_getElem? h)
  obtain ⟨k, hk⟩ := List.mem_iff_getElem?.mp hlayer
  exact ⟨k, ⟨layer, hk, hx⟩, x, h, layer, hk, hx⟩

/-- What follows a layer: nodes that it links to, in the order in which it meets them. -/
structure Follows (adjacency : Nat → List Nat) (wave layer : List Nat) : Prop where
  linked : ∀ x ∈ layer, ∃ a ∈ wave, x ∈ adjacency a
  met : layer.Pairwise (Met adjacency wave)

theorem spread_follows (hasc : ∀ a, (adjacency a).Pairwise (· < ·)) (wave : List Nat)
    (marks : Array Bool) : Follows adjacency wave (spread adjacency wave marks).1 := by
  refine ⟨fun x hx => ?_, spread_met hasc wave marks⟩
  exact List.mem_flatMap.mp (Marks.mem_gather.mp hx).1

theorem layers_head (adjacency : Nat → List Nat) (wave : List Nat) (marks : Array Bool) :
    (layers adjacency wave marks).1.head? = some wave := by
  fun_cases layers adjacency wave marks with
  | case1 marks' h => rfl
  | case2 i is marks' h later marks'' hlater => rfl

theorem layers_follow (hasc : ∀ a, (adjacency a).Pairwise (· < ·)) (wave : List Nat)
    (marks : Array Bool) : (layers adjacency wave marks).1.IsChain (Follows adjacency) := by
  fun_induction layers adjacency wave marks with
  | case1 wave marks marks' h => exact List.isChain_singleton wave
  | case2 wave marks i is marks' h later marks'' hlater ih =>
    have hhead := layers_head adjacency (i :: is) marks'
    rw [hlater] at ih hhead
    refine List.isChain_cons.mpr ⟨fun layer hlayer => ?_, ih⟩
    obtain rfl := Option.some.inj (hhead.symm.trans hlayer)
    have hfollows := spread_follows hasc wave marks
    rwa [h] at hfollows

theorem layers_near (adjacency : Nat → List Nat) {wave : List Nat} {marks : Array Bool}
    {k a x : Nat} (ha : InLayer (layers adjacency wave marks).1 k a) (hx : x ∈ adjacency a)
    (ho : Open marks x) : ∃ l ≤ k + 1, InLayer (layers adjacency wave marks).1 l x := by
  fun_induction layers adjacency wave marks generalizing k with
  | case1 wave marks marks' h =>
    obtain ⟨layer, hlayer, ha⟩ := ha
    obtain rfl := List.mem_singleton.mp (List.mem_of_getElem? hlayer)
    have hnext : x ∈ (spread adjacency layer marks).1 :=
      Marks.mem_gather.mpr ⟨List.mem_flatMap.mpr ⟨a, ha, hx⟩, ho⟩
    rw [h] at hnext
    cases hnext
  | case2 wave marks i is marks' h later marks'' hlater ih =>
    have hhead := layers_head adjacency (i :: is) marks'
    rw [hlater, List.head?_eq_getElem?] at hhead
    have hnext (hw : x ∈ wave.flatMap adjacency) : InLayer (wave :: later) 1 x := by
      have hmem : x ∈ (spread adjacency wave marks).1 := Marks.mem_gather.mpr ⟨hw, ho⟩
      rw [h] at hmem
      exact ⟨i :: is, hhead, hmem⟩
    cases k with
    | zero =>
      obtain ⟨layer, hlayer, ha⟩ := ha
      obtain rfl := Option.some.inj hlayer
      exact ⟨1, Nat.le_refl 1, hnext (List.mem_flatMap.mpr ⟨a, ha, hx⟩)⟩
    | succ k =>
      by_cases hw : x ∈ wave.flatMap adjacency
      · exact ⟨1, by omega, hnext hw⟩
      · have hstill : Open marks' x := by
          have hopen : Open (spread adjacency wave marks).2 x := Marks.open_gather.mpr ⟨ho, hw⟩
          rwa [h] at hopen
        rw [hlater] at ih
        obtain ⟨l, hl, hin⟩ := ih ha hstill
        exact ⟨l + 1, by omega, hin⟩

/-- The layers of a search from one start that no link leaves. -/
structure Layering (adjacency : Nat → List Nat) (start : Nat) (ls : List (List Nat)) : Prop where
  first : ls[0]? = some [start]
  nodup : ls.flatten.Nodup
  follow : ls.IsChain (Follows adjacency)
  near : ∀ k a x, InLayer ls k a → x ∈ adjacency a → ∃ l ≤ k + 1, InLayer ls l x

theorem groups_searched {starts : List Nat} {marks : Array Bool} {g : List Nat}
    (hg : g ∈ groups adjacency starts marks) : ∃ i marks', Open marks' i ∧
      g = (layers adjacency [i] (marks'.setIfInBounds i true)).1.flatten := by
  induction starts generalizing marks with
  | nil => cases hg
  | cons i starts ih =>
    rw [groups] at hg
    split at hg
    · rename_i ho
      rcases List.mem_cons.mp hg with rfl | hg
      · exact ⟨i, marks, ho, rfl⟩
      · exact ih hg
    · exact ih hg

theorem search_layering (hasc : ∀ a, (adjacency a).Pairwise (· < ·)) {marks : Array Bool} {i : Nat}
    (ho : Open marks i) {g : List Nat}
    (hg : g = (layers adjacency [i] (marks.setIfInBounds i true)).1.flatten)
    (hclosed : ∀ a ∈ g, ∀ x ∈ adjacency a, x ∈ g) :
    Layering adjacency i (layers adjacency [i] (marks.setIfInBounds i true)).1 := by
  obtain ⟨_, hnodup, hfresh, _⟩ := search_found adjacency ho
  have hfirst := layers_head adjacency [i] (marks.setIfInBounds i true)
  rw [List.head?_eq_getElem?] at hfirst
  refine ⟨hfirst, hnodup, layers_follow hasc _ _, ?_⟩
  intro k a x ha hx
  by_cases hxi : x = i
  · exact ⟨0, Nat.zero_le _, [i], hfirst, hxi ▸ List.mem_singleton_self i⟩
  · have hmem := hclosed a (hg ▸ ha.mem) x hx
    exact layers_near adjacency ha hx (Marks.open_mark.mpr ⟨hfresh x (hg ▸ hmem), hxi⟩)

def Precedes (members : List Nat) (x y : Nat) : Prop :=
  ∀ v w : Nat, members[v]? = some x → members[w]? = some y → v < w

theorem place_inj {members : List Nat} (hn : members.Nodup) {x v w : Nat}
    (hv : members[v]? = some x) (hw : members[w]? = some x) : v = w :=
  (List.getElem?_inj (List.getElem?_eq_some_iff.mp hv).1 hn).mp (hv.trans hw.symm)

theorem precedes_of_nodup {members : List Nat} (hn : members.Nodup) :
    members.Pairwise (Precedes members) := by
  refine List.pairwise_iff_getElem.mpr ?_
  intro a b ha hb hab v w hv hw
  rwa [place_inj hn hv (List.getElem?_eq_getElem ha), place_inj hn hw (List.getElem?_eq_getElem hb)]

namespace Layering

variable {start : Nat} {ls : List (List Nat)}

theorem unique (h : Layering adjacency start ls) {k l x : Nat} (hk : InLayer ls k x)
    (hl : InLayer ls l x) : k = l := by
  obtain ⟨_, hg, hx⟩ := hk
  obtain ⟨_, hh, hy⟩ := hl
  exact group_unique h.nodup hg hh hx hy

theorem follows (h : Layering adjacency start ls) {k : Nat} {layer : List Nat}
    (hl : ls[k + 1]? = some layer) : ∃ wave, ls[k]? = some wave ∧ Follows adjacency wave layer := by
  obtain ⟨hlt, rfl⟩ := List.getElem?_eq_some_iff.mp hl
  exact ⟨ls[k], List.getElem?_eq_getElem (by omega), h.follow.getElem k hlt⟩

theorem precedes_across (h : Layering adjacency start ls) {k l x y : Nat} (hx : InLayer ls k x)
    (hy : InLayer ls l y) (hkl : k < l) : Precedes ls.flatten x y := by
  obtain ⟨_, hg, hx⟩ := hx
  obtain ⟨_, hh, hy⟩ := hy
  obtain ⟨hk, rfl⟩ := List.getElem?_eq_some_iff.mp hg
  obtain ⟨hl, rfl⟩ := List.getElem?_eq_some_iff.mp hh
  have hacross := (List.pairwise_flatten.mp (precedes_of_nodup h.nodup)).2
  exact List.pairwise_iff_getElem.mp hacross k l hk hl hkl x hx y hy

theorem precedes_within (h : Layering adjacency start ls) {k : Nat} {layer : List Nat}
    (hl : ls[k]? = some layer) : layer.Pairwise (Precedes ls.flatten) :=
  (List.pairwise_flatten.mp (precedes_of_nodup h.nodup)).1 layer (List.mem_of_getElem? hl)

theorem met_of_place (h : Layering adjacency start ls) {k x y v w : Nat}
    (hx : InLayer ls (k + 1) x) (hy : InLayer ls (k + 1) y) (hv : ls.flatten[v]? = some x)
    (hw : ls.flatten[w]? = some y) (hvw : v < w) :
    ∃ wave, ls[k]? = some wave ∧ Met adjacency wave x y := by
  obtain ⟨layer, hlayer, hx⟩ := hx
  obtain ⟨_, hlayer', hy⟩ := hy
  obtain rfl := Option.some.inj (hlayer.symm.trans hlayer')
  obtain ⟨wave, hwave, hfollows⟩ := h.follows hlayer
  refine ⟨wave, hwave, ?_⟩
  obtain ⟨a, ha, rfl⟩ := List.getElem_of_mem hx
  obtain ⟨b, hb, rfl⟩ := List.getElem_of_mem hy
  rcases Nat.lt_trichotomy a b with hab | rfl | hab
  · exact List.pairwise_iff_getElem.mp hfollows.met a b ha hb hab
  · exact absurd (place_inj h.nodup hv hw) (Nat.ne_of_lt hvw)
  · have hwv := List.pairwise_iff_getElem.mp (h.precedes_within hlayer) b a hb ha hab w v hw hv
    omega

/-- Where `x` is met before `y`, the node that `x` is met at has a place no later than that of any
neighbour of `y`; and if it is that neighbour, `x` has the lower number. -/
theorem met_first (h : Layering adjacency start ls) {k x y : Nat} {wave : List Nat}
    (hwave : ls[k]? = some wave) (hmet : Met adjacency wave x y) (hy : InLayer ls (k + 1) y) :
    ∃ a, InLayer ls k a ∧ x ∈ adjacency a ∧ ∀ b l, InLayer ls l b → y ∈ adjacency b →
      Precedes ls.flatten a b ∨ a = b ∧ x < y := by
  obtain ⟨before, a, after, rfl, hx, hbefore, hlt⟩ := hmet
  have ha : InLayer ls k a := ⟨_, hwave, by simp⟩
  refine ⟨a, ha, hx, ?_⟩
  intro b l hb hyb
  obtain ⟨m, hm, hym⟩ := h.near l b y hb hyb
  have hkm := h.unique hy hym
  rcases Nat.lt_or_ge k l with hkl | hkl
  · exact Or.inl (h.precedes_across ha hb hkl)
  · obtain rfl : k = l := by omega
    obtain ⟨_, hlayer, hb⟩ := hb
    obtain rfl := Option.some.inj (hwave.symm.trans hlayer)
    rcases List.mem_append.mp hb with hb | hb
    · exact absurd hyb (hbefore b hb)
    · rcases List.mem_cons.mp hb with rfl | hb
      · exact Or.inr ⟨rfl, hlt hyb⟩
      · have hrest := (List.pairwise_append.mp (h.precedes_within hwave)).2.1
        exact Or.inl (List.rel_of_pairwise_cons hrest hb)

end Layering

end Split

/-- Levels of a graph around a start: each level beyond is linked to the one before, and no link
skips a level. -/
structure Levels (g : SimpleGraph Nat) (start : Nat) (level : Nat → Nat → Prop) : Prop where
  first : ∀ v, level 0 v ↔ v = start
  unique : ∀ k l v, level k v → level l v → k = l
  back : ∀ k v, level (k + 1) v → ∃ u, level k u ∧ g.Adj u v
  near : ∀ k u v, level k u → g.Adj u v → ∃ l ≤ k + 1, level l v

namespace Levels

variable {g : SimpleGraph Nat} {start : Nat} {level : Nat → Nat → Prop}

theorem exists_walk (h : Levels g start level) {k v : Nat} (hv : level k v) :
    ∃ p : g.Walk start v, p.length = k := by
  induction k generalizing v with
  | zero =>
    obtain rfl := (h.first v).mp hv
    exact ⟨.nil, rfl⟩
  | succ k ih =>
    obtain ⟨u, hu, hadj⟩ := h.back k v hv
    obtain ⟨p, hp⟩ := ih hu
    exact ⟨p.concat hadj, by rw [SimpleGraph.Walk.length_concat, hp]⟩

theorem le_of_walk (h : Levels g start level) {u v : Nat} (p : g.Walk u v) {k : Nat}
    (hu : level k u) : ∃ l ≤ k + p.length, level l v := by
  induction p generalizing k with
  | nil => exact ⟨k, Nat.le_refl k, hu⟩
  | cons hadj p ih =>
    obtain ⟨l, hl, hw⟩ := h.near k _ _ hu hadj
    obtain ⟨m, hm, hv⟩ := ih hw
    refine ⟨m, ?_, hv⟩
    rw [SimpleGraph.Walk.length_cons]
    omega

theorem dist_eq (h : Levels g start level) {k v : Nat} (hv : level k v) : g.dist start v = k := by
  obtain ⟨p, hp⟩ := h.exists_walk hv
  obtain ⟨q, hq⟩ := SimpleGraph.Reachable.exists_walk_length_eq_dist ⟨p⟩
  obtain ⟨l, hl, hlv⟩ := h.le_of_walk q ((h.first start).mpr rfl)
  have hle := SimpleGraph.dist_le p
  have heq := h.unique k l v hv hlv
  omega

end Levels

namespace Component

def graph (c : Component) : SimpleGraph VertId :=
  SimpleGraph.fromRel fun v w => w ∈ c.ancestors v ∨ w ∈ c.descendants v

/-- What a vertex is numbered by: its distance from the first one, the earliest vertex that it is
linked to, and its node. -/
noncomputable def key (c : Component) (v : VertId) (x : Vertex) : Nat × VertId × NodeId :=
  (c.graph.dist 0 v, sInf (c.graph.neighborSet v), x.node)

/-- The vertices stand in the order of their keys, the first vertex ahead of all. -/
structure BreadthFirst {E : Type} [Entity E] (t : Table E) (c : Component) : Prop where
  links : ∀ v w x y, c.vertex? v = some x → c.vertex? w = some y →
    (c.graph.Adj v w ↔ y.node ∈ t.adjacency x.node)
  linked : ∀ v < c.size, (c.graph.neighborSet v).Nonempty
  first : ∀ v < c.size, (c.graph.dist 0 v = 0 ↔ v = 0)
  ordered : ∀ v w x y, c.vertex? v = some x → c.vertex? w = some y → v ≠ 0 → w ≠ 0 → v < w →
    Prod.Lex (· < ·) (Prod.Lex (· < ·) (· < ·)) (c.key v x) (c.key w y)

end Component

namespace Table

open Split (Layering InLayer AtLevel)

variable {E : Type} [Entity E] {t : Table E} {ds : List (E × List E)} {k : CompId}
  {members : List NodeId} {v w : VertId}

theorem toComponent_adj (h : Built ds t) (hk : t.parts[k]? = some members) :
    (t.toComponent t.remap k members).graph.Adj v w ↔
      ∃ i j, members[v]? = some i ∧ members[w]? = some j ∧ j ∈ t.adjacency i := by
  rw [Component.graph, SimpleGraph.fromRel_adj]
  simp only [mem_toComponent_ancestors h hk, mem_toComponent_descendants h hk, h.adjacency]
  constructor
  · rintro ⟨_, (⟨i, j, hi, hj, hl⟩ | ⟨i, j, hi, hj, hl⟩) | ⟨j, i, hj, hi, hl⟩ | ⟨j, i, hj, hi, hl⟩⟩
    · exact ⟨i, j, hi, hj, Or.inl hl⟩
    · exact ⟨i, j, hi, hj, Or.inr hl⟩
    · exact ⟨i, j, hi, hj, Or.inr ((h.descendants i j).mpr hl)⟩
    · exact ⟨i, j, hi, hj, Or.inl ((h.descendants j i).mp hl)⟩
  · rintro ⟨i, j, hi, hj, hl⟩
    refine ⟨?_, Or.inl (hl.imp (fun hl => ⟨i, j, hi, hj, hl⟩) fun hl => ⟨i, j, hi, hj, hl⟩)⟩
    rintro rfl
    obtain rfl := Option.some.inj (hi.symm.trans hj)
    exact h.adjacency_irrefl i ((h.adjacency i i).mpr hl)

theorem part_layering (h : Built ds t) (hasc : ∀ i, (t.adjacency i).Pairwise (· < ·))
    (hk : t.parts[k]? = some members) :
    ∃ start ls, members = ls.flatten ∧ Layering t.adjacency start ls := by
  obtain ⟨i, marks, ho, hg⟩ := Split.groups_searched (List.mem_of_getElem? hk)
  refine ⟨i, _, hg, Split.search_layering hasc ho hg ?_⟩
  exact fun a ha x hx => parts_closed h hk ha hx

theorem part_levels (h : Built ds t) {start : NodeId} {ls : List (List NodeId)}
    (hls : Layering t.adjacency start ls) (hk : t.parts[k]? = some ls.flatten) :
    Levels (t.toComponent t.remap k ls.flatten).graph 0 (AtLevel ls) := by
  have hzero : ls.flatten[0]? = some start := by
    obtain ⟨rest, rfl⟩ : ∃ rest, ls = [start] :: rest := by
      cases ls with
      | nil => cases hls.first
      | cons layer rest => exact ⟨rest, by rw [Option.some.inj hls.first]⟩
    rfl
  constructor
  case first =>
    intro v
    constructor
    · rintro ⟨i, hi, layer, hlayer, hmem⟩
      obtain rfl := Option.some.inj (hls.first.symm.trans hlayer)
      obtain rfl := List.mem_singleton.mp hmem
      exact Split.place_inj hls.nodup hi hzero
    · rintro rfl
      exact ⟨start, hzero, [start], hls.first, List.mem_singleton_self start⟩
  case unique =>
    rintro a b v ⟨i, hi, hia⟩ ⟨j, hj, hjb⟩
    obtain rfl := Option.some.inj (hi.symm.trans hj)
    exact hls.unique hia hjb
  case back =>
    rintro a v ⟨i, hi, layer, hlayer, hmem⟩
    obtain ⟨wave, hwave, hfollows⟩ := hls.follows hlayer
    obtain ⟨j, hj, hlink⟩ := hfollows.linked i hmem
    have hin : InLayer ls a j := ⟨wave, hwave, hj⟩
    obtain ⟨u, hu⟩ := List.mem_iff_getElem?.mp hin.mem
    exact ⟨u, ⟨j, hu, hin⟩, (toComponent_adj h hk).mpr ⟨j, i, hu, hi, hlink⟩⟩
  case near =>
    rintro a u v ⟨i, hi, hin⟩ hadj
    obtain ⟨i', j, hi', hj, hlink⟩ := (toComponent_adj h hk).mp hadj
    obtain rfl := Option.some.inj (hi.symm.trans hi')
    obtain ⟨b, hb, hjb⟩ := hls.near a i j hin hlink
    exact ⟨b, hb, j, hj, hjb⟩

theorem part_linked (h : Built ds t) (hk : t.parts[k]? = some members) {i : NodeId}
    (hv : members[v]? = some i) :
    ((t.toComponent t.remap k members).graph.neighborSet v).Nonempty := by
  have hi := List.mem_of_getElem? hv
  obtain ⟨j, hj⟩ := List.exists_mem_of_ne_nil _ (linked_of_mem_part h hk hi)
  obtain ⟨w, hw⟩ := List.mem_iff_getElem?.mp (parts_closed h hk hi hj)
  exact ⟨w, (toComponent_adj h hk).mpr ⟨i, j, hv, hw, hj⟩⟩

theorem part_neighbours (h : Built ds t) {start : NodeId} {ls : List (List NodeId)}
    (hls : Layering t.adjacency start ls) (hk : t.parts[k]? = some ls.flatten) {a : Nat}
    {i j : NodeId} (hv : ls.flatten[v]? = some i) (hw : ls.flatten[w]? = some j)
    (hi : InLayer ls (a + 1) i) (hj : InLayer ls (a + 1) j) (hvw : v < w) :
    Prod.Lex (· < ·) (· < ·)
      (sInf ((t.toComponent t.remap k ls.flatten).graph.neighborSet v), i)
      (sInf ((t.toComponent t.remap k ls.flatten).graph.neighborSet w), j) := by
  obtain ⟨wave, hwave, hmet⟩ := hls.met_of_place hi hj hv hw hvw
  obtain ⟨p, hp, hip, hfirst⟩ := hls.met_first hwave hmet hj
  obtain ⟨u, hu⟩ := List.mem_iff_getElem?.mp hp.mem
  have hle : sInf ((t.toComponent t.remap k ls.flatten).graph.neighborSet v) ≤ u :=
    Nat.sInf_le ((toComponent_adj h hk).mpr ⟨i, p, hv, hu, h.adjacency_symm hip⟩)
  have hleast := Nat.sInf_mem (part_linked h hk hw)
  obtain ⟨j', q, hj', hq, hjq⟩ := (toComponent_adj h hk).mp hleast
  obtain rfl := Option.some.inj (hw.symm.trans hj')
  obtain ⟨b, hqb, _⟩ := Split.exists_atLevel hq
  rw [Prod.lex_def]
  rcases hfirst q b hqb (h.adjacency_symm hjq) with hprec | ⟨rfl, hij⟩
  · exact Or.inl (Nat.lt_of_le_of_lt hle (hprec u _ hu hq))
  · rw [← Split.place_inj hls.nodup hu hq]
    exact (Nat.lt_or_eq_of_le hle).imp_right fun heq => ⟨heq, hij⟩

theorem part_ordered (h : Built ds t) {start : NodeId} {ls : List (List NodeId)}
    (hls : Layering t.adjacency start ls) (hk : t.parts[k]? = some ls.flatten) {i j : NodeId}
    (hv : ls.flatten[v]? = some i) (hw : ls.flatten[w]? = some j) (hv0 : v ≠ 0) (hvw : v < w) :
    Prod.Lex (· < ·) (Prod.Lex (· < ·) (· < ·))
      ((t.toComponent t.remap k ls.flatten).key v (t.toVertex t.remap i))
      ((t.toComponent t.remap k ls.flatten).key w (t.toVertex t.remap j)) := by
  have hlevels := part_levels h hls hk
  obtain ⟨a, hi, hva⟩ := Split.exists_atLevel hv
  obtain ⟨b, hj, hwb⟩ := Split.exists_atLevel hw
  rw [Component.key, Component.key, hlevels.dist_eq hva, hlevels.dist_eq hwb, Prod.lex_def]
  rcases Nat.lt_trichotomy a b with hab | rfl | hab
  · exact Or.inl hab
  · refine Or.inr ⟨rfl, ?_⟩
    cases a with
    | zero => exact absurd ((hlevels.first v).mp hva) hv0
    | succ a => exact part_neighbours h hls hk hv hw hi hj hvw
  · exact absurd (hls.precedes_across hj hi hab w v hw hv) (Nat.lt_asymm hvw)

/-- The vertices of every component are numbered breadth first from vertex zero. -/
theorem split_breadthFirst (h : Reached ds t) (hf : t.frozen = true) {c : Component}
    (hc : c ∈ t.split.1.components) : c.BreadthFirst t := by
  have hb := h.built hf
  obtain ⟨k, members, hk, rfl⟩ := mem_split_components hb hc
  obtain ⟨start, ls, rfl, hls⟩ := part_layering hb (fun i => (h.ascending hf i).2) hk
  have hlevels := part_levels hb hls hk
  have hplace {v : VertId} (hv : v < (t.toComponent t.remap k ls.flatten).size) :
      ∃ i, ls.flatten[v]? = some i := by
    rw [toComponent_size] at hv
    exact ⟨_, List.getElem?_eq_getElem hv⟩
  constructor
  case links =>
    intro v w x y hx hy
    rw [toComponent_vertex?] at hx hy
    obtain ⟨i, hi, rfl⟩ := Option.map_eq_some_iff.mp hx
    obtain ⟨j, hj, rfl⟩ := Option.map_eq_some_iff.mp hy
    rw [toComponent_adj hb hk, hi, hj]
    simp
  case linked =>
    intro v hv
    obtain ⟨i, hi⟩ := hplace hv
    exact part_linked hb hk hi
  case first =>
    intro v hv
    obtain ⟨i, hi⟩ := hplace hv
    obtain ⟨a, _, hva⟩ := Split.exists_atLevel hi
    rw [hlevels.dist_eq hva, ← hlevels.first v]
    constructor
    · rintro rfl
      exact hva
    · exact fun hv0 => hlevels.unique a 0 v hva hv0
  case ordered =>
    intro v w x y hx hy hv0 _ hvw
    rw [toComponent_vertex?] at hx hy
    obtain ⟨i, hi, rfl⟩ := Option.map_eq_some_iff.mp hx
    obtain ⟨j, hj, rfl⟩ := Option.map_eq_some_iff.mp hy
    exact part_ordered hb hls hk hi hj hv0 hvw

/-- Two entities at one distance, both linked to one beyond them and only the later to another. -/
theorem split_breadthFirst_fork : ∃ t : Table Int, Reached [(1, [2, 3]), (2, [5]), (3, [4, 5])] t ∧
    t.frozen = true ∧ ∃ c ∈ t.split.1.components, c.BreadthFirst t := by
  have hdistinct :
      (([(1, [2, 3]), (2, [5]), (3, [4, 5])] : List (Int × List Int)).map (·.1)).Nodup := by
    decide
  obtain ⟨t, hreached, hfrozen⟩ := exists_reached hdistinct (by decide)
  have hdep : DependsOn [((1 : Int), [2, 3]), (2, [5]), (3, [4, 5])] 1 2 :=
    ⟨⟨[2, 3], by simp, by simp⟩, by decide⟩
  obtain ⟨c, hc, _⟩ := split_holds (hreached.built hfrozen) hdep
  exact ⟨t, hreached, hfrozen, c, hc, split_breadthFirst hreached hfrozen hc⟩

end Table

end DepGraph
