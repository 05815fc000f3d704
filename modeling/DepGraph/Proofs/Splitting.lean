import DepGraph.Proofs.Building
import DepGraph.Proofs.Writes

/-!
# The layered search

Breadth-first search along lists of neighbours, written layer by layer. It puts every linked node
into exactly one group, and no link leaves a group. The groups come in the order of their lowest
nodes, and a node is numbered by its place in its group, so renumbering loses no link.
-/

namespace DepGraph

namespace Marks

def Open (marks : Array Bool) (i : Nat) : Prop := marks[i]? = some false

theorem open_mark {marks : Array Bool} {i k : Nat} :
    Open (marks.setIfInBounds k true) i ↔ Open marks i ∧ i ≠ k := by
  unfold Open
  rw [Array.getElem?_setIfInBounds]
  split
  · rename_i hki
    subst hki
    split <;> simp_all
  · rename_i hki
    constructor
    · intro h
      exact ⟨h, Ne.symm hki⟩
    · exact fun h => h.1

theorem open_gather {ids : List Nat} {marks : Array Bool} {i : Nat} :
    Open (gather ids marks).2 i ↔ Open marks i ∧ i ∉ ids := by
  induction ids generalizing marks with
  | nil => simp [gather]
  | cons k ids ih =>
    unfold gather
    split
    · rw [ih, open_mark, List.mem_cons, not_or, and_assoc]
    · rename_i hk
      rw [ih, List.mem_cons, not_or]
      constructor
      · rintro ⟨hi, hids⟩
        refine ⟨hi, ?_, hids⟩
        rintro rfl
        exact hk hi
      · rintro ⟨hi, _, hids⟩
        exact ⟨hi, hids⟩

theorem mem_gather {ids : List Nat} {marks : Array Bool} {i : Nat} :
    i ∈ (gather ids marks).1 ↔ i ∈ ids ∧ Open marks i := by
  induction ids generalizing marks with
  | nil => simp [gather]
  | cons k ids ih =>
    unfold gather
    split
    · rename_i hk
      rw [List.mem_cons, List.mem_cons, ih, open_mark]
      constructor
      · rintro (rfl | ⟨hi, ho, _⟩)
        · exact ⟨Or.inl rfl, hk⟩
        · exact ⟨Or.inr hi, ho⟩
      · rintro ⟨hi, ho⟩
        by_cases hik : i = k
        · exact Or.inl hik
        · exact Or.inr ⟨hi.resolve_left hik, ho, hik⟩
    · rename_i hk
      rw [List.mem_cons, ih]
      constructor
      · rintro ⟨hi, ho⟩
        exact ⟨Or.inr hi, ho⟩
      · rintro ⟨rfl | hi, ho⟩
        · exact absurd ho hk
        · exact ⟨hi, ho⟩

theorem gather_nodup (ids : List Nat) (marks : Array Bool) : (gather ids marks).1.Nodup := by
  induction ids generalizing marks with
  | nil => exact List.nodup_nil
  | cons k ids ih =>
    unfold gather
    split
    · refine List.nodup_cons.mpr ⟨?_, ih _⟩
      rw [mem_gather, open_mark]
      exact fun h => h.2.2 rfl
    · exact ih marks

theorem gather_append (xs ys : List Nat) (marks : Array Bool) :
    gather (xs ++ ys) marks = ((gather xs marks).1 ++ (gather ys (gather xs marks).2).1,
      (gather ys (gather xs marks).2).2) := by
  induction xs generalizing marks with
  | nil => rfl
  | cons x xs ih =>
    rw [List.cons_append, gather, gather]
    split
    · rw [ih]
      rfl
    · exact ih marks

end Marks

namespace Split

open Marks (Open)

/-- The layer after `wave`: its unmarked neighbours, in the order the wave meets them. -/
def spread (adjacency : Nat → List Nat) (wave : List Nat) (marks : Array Bool) :
    List Nat × Array Bool :=
  Marks.gather (wave.flatMap adjacency) marks

/-- The layers of the search from a marked wave outward, and the marks after it. -/
def layers (adjacency : Nat → List Nat) (wave : List Nat) (marks : Array Bool) :
    List (List Nat) × Array Bool :=
  match _h : spread adjacency wave marks with
  | ([], marks') => ([wave], marks')
  | (i :: is, marks') =>
    let (later, marks'') := layers adjacency (i :: is) marks'
    (wave :: later, marks'')
termination_by Marks.unmarked marks
decreasing_by
  have hcount := Marks.gather_unmarked (wave.flatMap adjacency) marks
  rw [spread] at _h
  simp [_h] at hcount
  omega

/-- The members of each component, in search order, for the starts given. -/
def groups (adjacency : Nat → List Nat) : List Nat → Array Bool → List (List Nat)
  | [], _ => []
  | i :: is, marks =>
    if marks[i]? = some false then
      let (found, marks) := layers adjacency [i] (marks.setIfInBounds i true)
      found.flatten :: groups adjacency is marks
    else groups adjacency is marks

def numberOn (remap : Array (Option Nat)) (members : List Nat) : Array (Option Nat) :=
  members.zipIdx.foldl (fun remap (node, v) => remap.setIfInBounds node (some v)) remap

def numbering (size : Nat) (groups : List (List Nat)) : Array (Option Nat) :=
  groups.foldl numberOn (Array.replicate size none)

variable {adjacency : Nat → List Nat}

/-- What a search from a marked wave finds, and how it leaves the marks. -/
structure Found (adjacency : Nat → List Nat) (wave : List Nat) (marks : Array Bool)
    (found : List Nat) (marks' : Array Bool) : Prop where
  starts : ∀ i ∈ wave, i ∈ found
  fresh : ∀ i ∈ found, i ∈ wave ∨ Open marks i
  nodup : found.Nodup
  left : ∀ i, Open marks' i ↔ Open marks i ∧ i ∉ found
  closed : ∀ i ∈ found, ∀ j ∈ adjacency i, ¬ Open marks' j

/-- The step: a search that goes on from the next layer extends to the wave before it. -/
theorem Found.extend {wave : List Nat} {marks marks' : Array Bool} {later : List Nat}
    (hw : wave.Nodup) (hm : ∀ i ∈ wave, ¬ Open marks i)
    (h : Found adjacency (spread adjacency wave marks).1 (spread adjacency wave marks).2
      later marks') : Found adjacency wave marks (wave ++ later) marks' := by
  have hnext (i : Nat) (hi : i ∈ later) : i ∉ wave ∧ Open marks i := by
    have hopen : Open marks i := by
      rcases h.fresh i hi with hi | hi
      · exact (Marks.mem_gather.mp hi).2
      · exact (Marks.open_gather.mp hi).1
    exact ⟨fun hwave => hm i hwave hopen, hopen⟩
  constructor
  case starts =>
    intro i hi
    exact List.mem_append_left _ hi
  case fresh =>
    intro i hi
    exact (List.mem_append.mp hi).imp_right fun hi => (hnext i hi).2
  case nodup =>
    rw [List.nodup_append]
    refine ⟨hw, h.nodup, ?_⟩
    rintro i hi j hj rfl
    exact (hnext i hj).1 hi
  case left =>
    intro i
    rw [h.left i, spread, Marks.open_gather, List.mem_append, not_or]
    constructor
    · rintro ⟨⟨ho, _⟩, hl⟩
      exact ⟨ho, fun hi => hm i hi ho, hl⟩
    · rintro ⟨ho, _, hl⟩
      refine ⟨⟨ho, fun hi => hl (h.starts i ?_)⟩, hl⟩
      exact Marks.mem_gather.mpr ⟨hi, ho⟩
  case closed =>
    intro i hi j hj hopen
    rcases List.mem_append.mp hi with hi | hi
    · have hadj : j ∈ wave.flatMap adjacency := List.mem_flatMap.mpr ⟨i, hi, hj⟩
      have hspread := ((h.left j).mp hopen).1
      rw [spread, Marks.open_gather] at hspread
      exact hspread.2 hadj
    · exact h.closed i hi j hj hopen

theorem layers_found (adjacency : Nat → List Nat) {wave : List Nat} {marks : Array Bool}
    (hw : wave.Nodup) (hm : ∀ i ∈ wave, ¬ Open marks i) :
    Found adjacency wave marks (layers adjacency wave marks).1.flatten
      (layers adjacency wave marks).2 := by
  fun_induction layers adjacency wave marks with
  | case1 wave marks marks' h =>
    have hend : Found adjacency (spread adjacency wave marks).1 (spread adjacency wave marks).2
        [] marks' := by
      rw [h]
      exact ⟨by simp, by simp, List.nodup_nil, by simp, by simp⟩
    simpa using Found.extend hw hm hend
  | case2 wave marks i is marks' h later marks'' hlater ih =>
    have hnodup : (i :: is).Nodup := by
      have := Marks.gather_nodup (wave.flatMap adjacency) marks
      rw [spread] at h
      rwa [h] at this
    have hmarked : ∀ j ∈ i :: is, ¬ Open marks' j := by
      intro j hj hopen
      have hg : (Marks.gather (wave.flatMap adjacency) marks) = (i :: is, marks') := h
      have hin : j ∈ (Marks.gather (wave.flatMap adjacency) marks).1 := by rw [hg]; exact hj
      have hout : Open (Marks.gather (wave.flatMap adjacency) marks).2 j := by rw [hg]; exact hopen
      exact (Marks.open_gather.mp hout).2 (Marks.mem_gather.mp hin).1
    have hrest := ih hnodup hmarked
    rw [hlater] at hrest
    have hnext : Found adjacency (spread adjacency wave marks).1 (spread adjacency wave marks).2
        later.flatten marks'' := by
      rw [h]
      exact hrest
    simpa using Found.extend hw hm hnext

def Sealed (adjacency : Nat → List Nat) (marks : Array Bool) : Prop :=
  ∀ i, ¬ Open marks i → ∀ j ∈ adjacency i, ¬ Open marks j

theorem search_found (adjacency : Nat → List Nat) {marks : Array Bool} {i : Nat}
    (ho : Open marks i) :
    let r := layers adjacency [i] (marks.setIfInBounds i true)
    i ∈ r.1.flatten ∧ r.1.flatten.Nodup ∧ (∀ k ∈ r.1.flatten, Open marks k) ∧
      (∀ k, Open r.2 k ↔ Open marks k ∧ k ∉ r.1.flatten) ∧
      ∀ k ∈ r.1.flatten, ∀ j ∈ adjacency k, ¬ Open r.2 j := by
  have hmarked : ∀ k ∈ [i], ¬ Open (marks.setIfInBounds i true) k := by
    intro k hk hopen
    exact (Marks.open_mark.mp hopen).2 (List.mem_singleton.mp hk)
  have h := layers_found adjacency (List.nodup_singleton i) hmarked
  have hstart := h.starts i List.mem_cons_self
  refine ⟨hstart, h.nodup, ?_, ?_, h.closed⟩
  · intro k hk
    rcases h.fresh k hk with hk | hk
    · exact List.mem_singleton.mp hk ▸ ho
    · exact (Marks.open_mark.mp hk).1
  · intro k
    rw [h.left k, Marks.open_mark]
    constructor
    · rintro ⟨⟨hk, _⟩, hf⟩
      exact ⟨hk, hf⟩
    · rintro ⟨hk, hf⟩
      refine ⟨⟨hk, ?_⟩, hf⟩
      rintro rfl
      exact hf hstart

/-- The groups cover the open starts, share nothing, and no link leaves a group. -/
structure Grouped (adjacency : Nat → List Nat) (starts : List Nat) (marks : Array Bool)
    (gs : List (List Nat)) : Prop where
  nodup : gs.flatten.Nodup
  fresh : ∀ i ∈ gs.flatten, Open marks i
  covers : ∀ i ∈ starts, Open marks i → i ∈ gs.flatten
  closed : ∀ g ∈ gs, ∀ i ∈ g, ∀ j ∈ adjacency i, j ∈ g

theorem groups_grouped (hsym : ∀ i j, j ∈ adjacency i → i ∈ adjacency j) (starts : List Nat)
    {marks : Array Bool} (hs : Sealed adjacency marks) :
    Grouped adjacency starts marks (groups adjacency starts marks) := by
  induction starts generalizing marks with
  | nil => exact ⟨List.nodup_nil, by simp [groups], by simp, by simp [groups]⟩
  | cons i starts ih =>
    rw [groups]
    split
    · rename_i ho
      obtain ⟨hstart, hnodup, hfresh, hleft, hclosed⟩ :=
        search_found adjacency ho
      generalize layers adjacency [i] (marks.setIfInBounds i true) = r at *
      have hsealed : Sealed adjacency r.2 := by
        intro k hk j hj hopen
        by_cases hf : k ∈ r.1.flatten
        · exact hclosed k hf j hj hopen
        · have hkm : ¬ Open marks k := fun h => hk ((hleft k).mpr ⟨h, hf⟩)
          exact hs k hkm j hj ((hleft j).mp hopen).1
      have hrest := ih hsealed
      refine ⟨?_, ?_, ?_, ?_⟩
      · rw [List.flatten_cons, List.nodup_append]
        refine ⟨hnodup, hrest.nodup, ?_⟩
        rintro k hk j hj rfl
        exact ((hleft k).mp (hrest.fresh k hj)).2 hk
      · intro k hk
        rw [List.flatten_cons] at hk
        rcases List.mem_append.mp hk with hk | hk
        · exact hfresh k hk
        · exact ((hleft k).mp (hrest.fresh k hk)).1
      · intro k hk hopen
        rw [List.flatten_cons, List.mem_append]
        by_cases hf : k ∈ r.1.flatten
        · exact Or.inl hf
        · rcases List.mem_cons.mp hk with rfl | hk
          · exact Or.inl hstart
          · exact Or.inr (hrest.covers k hk ((hleft k).mpr ⟨hopen, hf⟩))
      · intro g hg k hk j hj
        rcases List.mem_cons.mp hg with rfl | hg
        · by_contra hf
          have hjm : ¬ Open marks j := fun h => hclosed k hk j hj ((hleft j).mpr ⟨h, hf⟩)
          exact hs j hjm k (hsym k j hj) (hfresh k hk)
        · exact hrest.closed g hg k hk j hj
    · rename_i ho
      have hrest := ih hs
      refine ⟨hrest.nodup, hrest.fresh, ?_, hrest.closed⟩
      intro k hk hopen
      rcases List.mem_cons.mp hk with rfl | hk
      · exact absurd hopen ho
      · exact hrest.covers k hk hopen

theorem layers_nil (adjacency : Nat → List Nat) (marks : Array Bool) :
    layers adjacency [] marks = ([[]], marks) := by
  fun_cases layers adjacency [] marks with
  | case1 marks' h => rw [(Prod.mk.inj h).2]
  | case2 i is marks' h => cases h

theorem layers_next (adjacency : Nat → List Nat) (wave : List Nat) (marks : Array Bool) :
    let (next, marks') := spread adjacency wave marks
    (layers adjacency wave marks).1.flatten = wave ++ (layers adjacency next marks').1.flatten ∧
      (layers adjacency wave marks).2 = (layers adjacency next marks').2 := by
  fun_cases layers adjacency wave marks with
  | case1 marks' h => simp [h, layers_nil]
  | case2 i is marks' h later marks'' hlater => simp [h, hlater]

theorem layers_first (adjacency : Nat → List Nat) (wave : List Nat) (marks : Array Bool) :
    ∃ later, (layers adjacency wave marks).1.flatten = wave ++ later := by
  fun_cases layers adjacency wave marks with
  | case1 marks' h => exact ⟨[], by simp⟩
  | case2 i is marks' h later marks'' hlater => exact ⟨later.flatten, by simp⟩

theorem layers_led (adjacency : Nat → List Nat) (wave : List Nat) (marks : Array Bool) {j : Nat}
    (hj : j ∈ (layers adjacency wave marks).1.flatten) : ∃ i ∈ wave, Leads adjacency i j := by
  fun_induction layers adjacency wave marks with
  | case1 wave marks marks' h => exact ⟨j, by simpa using hj, .refl⟩
  | case2 wave marks i is marks' h later marks'' hlater ih =>
    rw [List.flatten_cons] at hj
    rcases List.mem_append.mp hj with hj | hj
    · exact ⟨j, hj, .refl⟩
    · rw [hlater] at ih
      obtain ⟨k, hk, hkj⟩ := ih hj
      have hnext : k ∈ (Marks.gather (wave.flatMap adjacency) marks).1 := by
        rw [spread] at h
        rw [h]
        exact hk
      obtain ⟨u, hu, huk⟩ := List.mem_flatMap.mp (Marks.mem_gather.mp hnext).1
      exact ⟨u, hu, .head huk hkj⟩

theorem groups_eq_nil {marks : Array Bool} (h : ∀ i, ¬ Open marks i) (starts : List Nat) :
    groups adjacency starts marks = [] := by
  induction starts with
  | nil => rfl
  | cons i starts ih =>
    have hi : ¬ marks[i]? = some false := h i
    rw [groups, if_neg hi, ih]

/-- Each group starts at its lowest node and holds only what that node leads to, and the groups
stand in the order of those nodes. -/
structure Ordered (adjacency : Nat → List Nat) (starts : List Nat) (gs : List (List Nat)) :
    Prop where
  head : ∀ g ∈ gs, ∃ i rest, g = i :: rest ∧ i ∈ starts ∧ ∀ j ∈ rest, i < j ∧ Leads adjacency i j
  ascending : gs.Pairwise fun g h => ∀ i j, g.head? = some i → h.head? = some j → i < j

theorem search_ordered (adjacency : Nat → List Nat) {marks : Array Bool} {i : Nat}
    {starts : List Nat} (ho : Open marks i) (hstarts : ∀ j ∈ starts, i < j)
    (hopen : ∀ j, Open marks j → j ∈ i :: starts) :
    ∃ rest, (layers adjacency [i] (marks.setIfInBounds i true)).1.flatten = i :: rest ∧
      ∀ j ∈ rest, i < j ∧ Leads adjacency i j := by
  obtain ⟨_, hnodup, hfresh, _⟩ := search_found adjacency ho
  have hled {j : Nat} := layers_led adjacency [i] (marks.setIfInBounds i true) (j := j)
  obtain ⟨rest, hrest⟩ := layers_first adjacency [i] (marks.setIfInBounds i true)
  rw [hrest, List.singleton_append] at hnodup hfresh hled
  refine ⟨rest, hrest, fun j hj => ⟨?_, ?_⟩⟩
  · rcases List.mem_cons.mp (hopen j (hfresh j (List.mem_cons_of_mem _ hj))) with rfl | hj'
    · exact absurd hj (List.nodup_cons.mp hnodup).1
    · exact hstarts j hj'
  · obtain ⟨k, hk, hkj⟩ := hled (List.mem_cons_of_mem _ hj)
    obtain rfl := List.mem_singleton.mp hk
    exact hkj

/-- Starts that ascend and miss no open node give groups in order. -/
theorem groups_ordered {starts : List Nat} (hasc : starts.Pairwise (· < ·)) {marks : Array Bool}
    (hopen : ∀ j, Open marks j → j ∈ starts) :
    Ordered adjacency starts (groups adjacency starts marks) := by
  induction starts generalizing marks with
  | nil => exact ⟨by simp [groups], by simp [groups]⟩
  | cons i starts ih =>
    obtain ⟨hfirst, hrest⟩ := List.pairwise_cons.mp hasc
    rw [groups]
    split
    · rename_i ho
      obtain ⟨hstart, _, _, hleft, _⟩ := search_found adjacency ho
      obtain ⟨rest, hfound, hlater⟩ := search_ordered adjacency ho hfirst hopen
      have hgroups := ih hrest fun j hj => by
        obtain ⟨hj, hnot⟩ := (hleft j).mp hj
        refine (List.mem_cons.mp (hopen j hj)).resolve_left ?_
        rintro rfl
        exact hnot hstart
      constructor
      · rintro g (_ | ⟨_, hg⟩)
        · exact ⟨i, rest, hfound, List.mem_cons_self, hlater⟩
        · obtain ⟨k, later, hk, hmem, hlow⟩ := hgroups.head g hg
          exact ⟨k, later, hk, List.mem_cons_of_mem _ hmem, hlow⟩
      · refine List.pairwise_cons.mpr ⟨?_, hgroups.ascending⟩
        intro g hg a b ha hb
        obtain ⟨k, later, rfl, hmem, _⟩ := hgroups.head g hg
        rw [hfound] at ha
        cases ha
        cases hb
        exact hfirst _ hmem
    · rename_i ho
      have hgroups := ih hrest fun j hj => by
        refine (List.mem_cons.mp (hopen j hj)).resolve_left ?_
        rintro rfl
        exact ho hj
      refine ⟨fun g hg => ?_, hgroups.ascending⟩
      obtain ⟨k, later, hk, hmem, hlow⟩ := hgroups.head g hg
      exact ⟨k, later, hk, List.mem_cons_of_mem _ hmem, hlow⟩

theorem numbering_eq (size : Nat) (gs : List (List Nat)) :
    numbering size gs = (gs.flatMap List.zipIdx).foldl
      (fun remap p => remap.modify p.1 fun _ => some p.2) (Array.replicate size none) := by
  rw [numbering, List.foldl_flatMap]
  simp only [← Writes.setIfInBounds_eq_modify]
  rfl

theorem mem_flatMap_zipIdx {gs : List (List Nat)} {i v : Nat} :
    (i, v) ∈ gs.flatMap List.zipIdx ↔ ∃ g ∈ gs, g[v]? = some i := by
  simp only [List.mem_flatMap, List.mem_zipIdx_iff_getElem?]

theorem numbering_spec {size : Nat} {gs : List (List Nat)} (hn : gs.flatten.Nodup)
    (hlt : ∀ i ∈ gs.flatten, i < size) {i v : Nat} :
    ((numbering size gs)[i]?).join = some v ↔ ∃ g ∈ gs, g[v]? = some i := by
  have hkeys : ((gs.flatMap List.zipIdx).map (·.1)).Nodup := by
    rw [List.map_flatMap]
    simpa [List.flatMap_id'] using hn
  have hplaced : ∀ p ∈ gs.flatMap List.zipIdx, p.1 < size := by
    rintro ⟨i, v⟩ hp
    obtain ⟨g, hg, hv⟩ := mem_flatMap_zipIdx.mp hp
    exact hlt i (List.mem_flatten.mpr ⟨g, hg, List.mem_of_getElem? hv⟩)
  rw [numbering_eq, ← mem_flatMap_zipIdx]
  refine (Writes.lookup_iff (fun v => v) hkeys hplaced).trans ?_
  simp

/-- The nodes of a group have their numbers as soon as the group has been numbered. -/
theorem numbering_take {size : Nat} {gs : List (List Nat)} (hn : gs.flatten.Nodup)
    (hlt : ∀ i ∈ gs.flatten, i < size) {k : Nat} {g : List Nat} (hg : gs[k]? = some g) {i : Nat}
    (hi : i ∈ g) :
    ((numbering size (gs.take (k + 1)))[i]?).join = ((numbering size gs)[i]?).join := by
  obtain ⟨v, hv⟩ := List.mem_iff_getElem?.mp hi
  have hflat : gs.flatten = (gs.take (k + 1)).flatten ++ (gs.drop (k + 1)).flatten := by
    rw [← List.flatten_append, List.take_append_drop]
  have hsub : (gs.take (k + 1)).flatten.Sublist gs.flatten :=
    hflat ▸ List.sublist_append_left _ _
  have htake : (gs.take (k + 1))[k]? = some g := by
    rw [List.getElem?_take, if_pos (Nat.lt_succ_self k), hg]
  have hearly := numbering_spec (hn.sublist hsub) (fun i hi => hlt i (hsub.subset hi))
    (i := i) (v := v)
  rw [hearly.mpr ⟨g, List.mem_of_getElem? htake, hv⟩,
    (numbering_spec hn hlt).mpr ⟨g, List.mem_of_getElem? hg, hv⟩]

theorem group_unique {gs : List (List Nat)} (hn : gs.flatten.Nodup) {k l : Nat} {g h : List Nat}
    (hg : gs[k]? = some g) (hh : gs[l]? = some h) {i : Nat} (hig : i ∈ g) (hih : i ∈ h) :
    k = l := by
  by_contra hne
  have hdisj : ∀ {a b : Nat} {x y : List Nat}, gs[a]? = some x → gs[b]? = some y → a < b →
      i ∈ x → i ∈ y → False := by
    intro a b x y hx hy hab hix hiy
    obtain ⟨ha, rfl⟩ := List.getElem?_eq_some_iff.mp hx
    obtain ⟨hb, rfl⟩ := List.getElem?_eq_some_iff.mp hy
    have hapart := List.pairwise_iff_getElem.mp (List.nodup_flatten.mp hn).2 a b ha hb hab
    exact List.disjoint_left.mp hapart hix hiy
  rcases Nat.lt_or_gt_of_ne hne with hlt | hlt
  · exact hdisj hg hh hlt hig hih
  · exact hdisj hh hg hlt hih hig

theorem place_unique {gs : List (List Nat)} (hn : gs.flatten.Nodup) {k l : Nat}
    {g h : List Nat} (hg : gs[k]? = some g) (hh : gs[l]? = some h) {i v w : Nat}
    (hv : g[v]? = some i) (hw : h[w]? = some i) : k = l ∧ v = w := by
  obtain rfl := group_unique hn hg hh (List.mem_of_getElem? hv) (List.mem_of_getElem? hw)
  obtain rfl := Option.some.inj (hg.symm.trans hh)
  obtain ⟨hlv, rfl⟩ := List.getElem?_eq_some_iff.mp hv
  obtain ⟨hlw, hvw⟩ := List.getElem?_eq_some_iff.mp hw
  have hnodup := (List.nodup_flatten.mp hn).1 g (List.mem_of_getElem? hg)
  exact ⟨rfl, (hnodup.getElem_inj_iff.mp hvw).symm⟩

end Split

end DepGraph
