import DepGraph.Proofs.Declarations
import Mathlib.Data.List.Sort

/-!
# Taking declarations

What a table records while it takes declarations. Interning only ever adds nodes that have nothing
but an entity, so a declaration changes exactly one node, and the numbers it writes there stay the
numbers of the same entities from then on.
-/

namespace DepGraph.Table

variable {E : Type} [Entity E] {t t' : Table E} {e : E} {i : NodeId}

def names (t : Table E) : List E := t.nodes.toList.map (·.entity)

theorem length_names (t : Table E) : t.names.length = t.size := by
  simp [names, size]

/-- Entities and numbers are matched one to one. -/
def Indexed (t : Table E) : Prop := ∀ e i, t.idOf? e = some i ↔ t.entity? i = some e

theorem entity?_eq_names (t : Table E) (i : NodeId) : t.entity? i = t.names[i]? := by
  simp [entity?, node?, names]

theorem mem_names_iff (h : Indexed t) : e ∈ t.names ↔ ∃ i, t.idOf? e = some i := by
  rw [List.mem_iff_getElem?]
  constructor
  · rintro ⟨i, hi⟩
    exact ⟨i, (h e i).mpr (by rw [entity?_eq_names, hi])⟩
  · rintro ⟨i, hi⟩
    exact ⟨i, by rw [← entity?_eq_names]; exact (h e i).mp hi⟩

theorem Indexed.injective (h : Indexed t) {i j : NodeId} (hi : t.entity? i = some e)
    (hj : t.entity? j = some e) : i = j := by
  have hij := ((h e i).mpr hi).symm.trans ((h e j).mpr hj)
  exact Option.some.inj hij

theorem entity?_eq_some_iff : t.entity? i = some e ↔ ∃ n, t.node? i = some n ∧ n.entity = e := by
  simp [entity?]

theorem exists_entity? : (∃ e, t.entity? i = some e) ↔ i < t.size := by
  rw [← Option.isSome_iff_exists]
  simp [entity?, node?, size]

/-- The table `t'` is `t` with nodes added that nothing has been recorded on. -/
structure Grows (t t' : Table E) : Prop where
  keeps : ∀ i n, t.node? i = some n → t'.node? i = some n
  fresh : ∀ i n, t'.node? i = some n →
    t.node? i = some n ∨ n = { entity := n.entity } ∧ n.entity ∉ t.names
  names : ∀ e ∈ t.names, e ∈ t'.names
  frozen : t'.frozen = t.frozen
  edgeCount : t'.edgeCount = t.edgeCount

theorem Grows.refl (t : Table E) : Grows t t :=
  ⟨fun _ _ h => h, fun _ _ h => Or.inl h, fun _ h => h, rfl, rfl⟩

theorem Grows.trans {t'' : Table E} (h : Grows t t') (k : Grows t' t'') : Grows t t'' where
  keeps i n hn := k.keeps i n (h.keeps i n hn)
  fresh i n hn := by
    rcases k.fresh i n hn with hn | ⟨hn, hnew⟩
    · exact h.fresh i n hn
    · exact Or.inr ⟨hn, fun hold => hnew (h.names _ hold)⟩
  names e he := k.names e (h.names e he)
  frozen := k.frozen.trans h.frozen
  edgeCount := k.edgeCount.trans h.edgeCount

theorem Grows.entity? (h : Grows t t') (hi : t.entity? i = some e) : t'.entity? i = some e := by
  obtain ⟨n, hn, he⟩ := entity?_eq_some_iff.mp hi
  exact entity?_eq_some_iff.mpr ⟨n, h.keeps i n hn, he⟩

/-- What interning one entity yields, whether it was known or not. -/
structure Interned (t : Table E) (e : E) (id : NodeId) (t' : Table E) : Prop where
  indexed : Indexed t'
  grows : Grows t t'
  entity : t'.entity? id = some e
  names : t'.names = Entity.note t.names e

theorem intern_known (h : Indexed t) {id : NodeId} (hid : t.idOf? e = some id) :
    Interned t e id t where
  indexed := h
  grows := .refl t
  entity := (h e id).mp hid
  names := by
    have he : e ∈ t.names := (mem_names_iff h).mpr ⟨id, hid⟩
    rw [Entity.note, if_pos (Entity.among_iff.mpr he)]

theorem node?_lt {n : Node E} (h : t.node? i = some n) : i < t.size :=
  (Array.getElem?_eq_some_iff.mp h).1

def extend (t : Table E) (e : E) : Table E :=
  { t with nodes := t.nodes.push { entity := e }, index := t.index.insert e t.size }

theorem extend_node? (t : Table E) (e : E) (i : NodeId) :
    (t.extend e).node? i = if i = t.size then some { entity := e } else t.node? i :=
  Array.getElem?_push

theorem extend_idOf? (t : Table E) (e a : E) :
    (t.extend e).idOf? a = if compare e a = .eq then some t.size else t.idOf? a :=
  Std.TreeMap.getElem?_insert

theorem extend_names (t : Table E) (e : E) : (t.extend e).names = t.names ++ [e] := by
  simp [names, extend]

theorem extend_grows (t : Table E) (hnew : e ∉ t.names) : Grows t (t.extend e) where
  keeps i n hn := by
    rw [extend_node?, if_neg (Nat.ne_of_lt (node?_lt hn))]
    exact hn
  fresh i n hn := by
    rw [extend_node?] at hn
    split at hn
    · cases hn
      exact Or.inr ⟨rfl, hnew⟩
    · exact Or.inl hn
  names a ha := by
    rw [extend_names]
    exact List.mem_append_left _ ha
  frozen := rfl
  edgeCount := rfl

theorem extend_entity? (t : Table E) (e : E) : (t.extend e).entity? t.size = some e := by
  rw [entity?_eq_some_iff]
  exact ⟨_, by rw [extend_node?, if_pos rfl], rfl⟩

theorem extend_indexed (h : Indexed t) (hnew : e ∉ t.names) : Indexed (t.extend e) := by
  intro a i
  rw [extend_idOf?]
  split
  · rename_i hea
    obtain rfl := Std.LawfulEqOrd.eq_of_compare hea
    rw [Option.some_inj]
    constructor
    · rintro rfl
      exact extend_entity? t e
    · intro hi
      obtain ⟨n, hn, hne⟩ := entity?_eq_some_iff.mp hi
      rw [extend_node?] at hn
      split at hn
      · rename_i his
        exact his.symm
      · have hold : e ∈ t.names := (mem_names_iff h).mpr
          ⟨i, (h e i).mpr (entity?_eq_some_iff.mpr ⟨n, hn, hne⟩)⟩
        exact absurd hold hnew
  · rename_i hea
    rw [h a i]
    constructor
    · exact (extend_grows t hnew).entity?
    · intro hi
      obtain ⟨n, hn, hne⟩ := entity?_eq_some_iff.mp hi
      rw [extend_node?] at hn
      split at hn
      · cases hn
        exact absurd (Std.LawfulEqOrd.compare_eq_iff_eq.mpr hne) hea
      · exact entity?_eq_some_iff.mpr ⟨n, hn, hne⟩

theorem intern_unknown (h : Indexed t) (he : t.idOf? e = none) :
    Interned t e t.size (t.extend e) := by
  have hnew : e ∉ t.names := by
    rw [mem_names_iff h, he]
    rintro ⟨i, hi⟩
    cases hi
  have hamong : ¬ Entity.among e t.names = true := by rwa [Entity.among_iff]
  refine ⟨extend_indexed h hnew, extend_grows t hnew, extend_entity? t e, ?_⟩
  rw [Entity.note, if_neg hamong, extend_names]

theorem intern_spec (h : Indexed t) (e : E) : Interned t e (t.intern e).1 (t.intern e).2 := by
  unfold intern
  split
  · rename_i id hid
    exact intern_known h hid
  · rename_i hnone
    exact intern_unknown h hnone

/-- What interning a list yields: the numbers of its entities, in its order. -/
structure InternedAll (t : Table E) (es : List E) (ids : List NodeId) (t' : Table E) : Prop where
  indexed : Indexed t'
  grows : Grows t t'
  entities : ids.map t'.entity? = es.map some
  names : t'.names = es.foldl Entity.note t.names

theorem internAll_spec (h : Indexed t) (es : List E) :
    InternedAll t es (t.internAll es).1 (t.internAll es).2 := by
  induction es generalizing t with
  | nil => exact ⟨h, .refl t, rfl, rfl⟩
  | cons e es ih =>
    have hfirst := intern_spec h e
    have hrest := ih hfirst.indexed
    refine ⟨hrest.indexed, hfirst.grows.trans hrest.grows, ?_, ?_⟩
    · simp only [internAll, List.map_cons]
      rw [hrest.grows.entity? hfirst.entity, hrest.entities]
    · rw [List.foldl_cons, ← hfirst.names]
      exact hrest.names

/-- What is recorded on a node once its table has taken `ds`: everything else is still blank. -/
structure RecordedNode (ds : List (E × List E)) (t : Table E) (n : Node E) : Prop where
  declared : n.declared = true ↔ ∃ deps, (n.entity, deps) ∈ ds
  ancestors : ∀ j, j ∈ n.ancestors ↔ ∃ d, t.entity? j = some d ∧ Declares ds n.entity d
  ascending : n.ancestors.Pairwise (· < ·)
  blank : n = { entity := n.entity, ancestors := n.ancestors, declared := n.declared }

/-- The table is not built and has taken exactly the declarations `ds`, in this order. -/
structure Records (ds : List (E × List E)) (t : Table E) : Prop where
  indexed : Indexed t
  names : t.names = (mentions ds).foldl Entity.note []
  unfrozen : t.frozen = false
  node : ∀ i n, t.node? i = some n → RecordedNode ds t n

theorem Records.mem_names {ds : List (E × List E)} (h : Records ds t) :
    e ∈ t.names ↔ e ∈ mentions ds := by
  rw [h.names, Entity.mem_foldl_note]
  simp

theorem records_new : Records [] ({} : Table E) where
  indexed e i := by simp [idOf?, entity?, node?]
  names := rfl
  unfrozen := rfl
  node i n hn := by simp [node?] at hn

theorem isDeclared_iff {ds : List (E × List E)} (h : Records ds t) :
    t.isDeclared e = true ↔ ∃ deps, (e, deps) ∈ ds := by
  constructor
  · intro hd
    simp only [isDeclared, Option.any_eq_true] at hd
    obtain ⟨n, hbind, hdec⟩ := hd
    obtain ⟨i, hi, hn⟩ := Option.bind_eq_some_iff.mp hbind
    obtain ⟨m, hm, rfl⟩ := entity?_eq_some_iff.mp ((h.indexed e i).mp hi)
    obtain rfl := Option.some.inj (hn.symm.trans hm)
    exact (h.node i n hn).declared.mp hdec
  · rintro ⟨deps, hdeps⟩
    have he : e ∈ mentions ds := List.mem_flatMap.mpr ⟨_, hdeps, List.mem_cons_self⟩
    obtain ⟨i, hi⟩ := (mem_names_iff h.indexed).mp (h.mem_names.mpr he)
    obtain ⟨n, hn, rfl⟩ := entity?_eq_some_iff.mp ((h.indexed e i).mp hi)
    have hdec := (h.node i n hn).declared.mpr ⟨deps, hdeps⟩
    simp [isDeclared, hi, hn, hdec]

theorem declare_node? (t : Table E) (id : NodeId) (ancestors : List NodeId) (i : NodeId) :
    (t.declare id ancestors).node? i =
      if id = i then (t.node? i).map ({ · with ancestors, declared := true }) else t.node? i :=
  Array.getElem?_modify

theorem declare_entity? (t : Table E) (id : NodeId) (ancestors : List NodeId) (i : NodeId) :
    (t.declare id ancestors).entity? i = t.entity? i := by
  simp only [entity?, declare_node?]
  split
  · simp [Function.comp_def]
  · rfl

theorem declare_names (t : Table E) (id : NodeId) (ancestors : List NodeId) :
    (t.declare id ancestors).names = t.names := by
  apply List.ext_getElem?
  intro i
  rw [← entity?_eq_names, ← entity?_eq_names, declare_entity?]

theorem ascending_mergeSort {ids : List Nat} (h : ids.Nodup) :
    ids.mergeSort.Pairwise (· < ·) := by
  have hsorted : ids.mergeSort.Pairwise (· ≤ ·) := List.pairwise_mergeSort' (· ≤ ·) ids
  have hnodup : ids.mergeSort.Nodup := (List.mergeSort_perm ids _).nodup_iff.mpr h
  exact hsorted.imp₂ (fun _ _ hle hne => Nat.lt_of_le_of_ne hle hne) hnodup

theorem InternedAll.mem_ids {es : List E} {ids : List NodeId} (h : InternedAll t es ids t')
    {j : NodeId} : j ∈ ids ↔ ∃ d ∈ es, t'.entity? j = some d := by
  constructor
  · intro hj
    have hmem : t'.entity? j ∈ es.map some := h.entities ▸ List.mem_map_of_mem hj
    obtain ⟨d, hd, hjd⟩ := List.mem_map.mp hmem
    exact ⟨d, hd, hjd.symm⟩
  · rintro ⟨d, hd, hj⟩
    have hmem : some d ∈ ids.map t'.entity? := h.entities ▸ List.mem_map_of_mem hd
    obtain ⟨k, hk, hkd⟩ := List.mem_map.mp hmem
    rwa [h.indexed.injective hj hkd]

theorem InternedAll.nodup {es : List E} {ids : List NodeId} (h : InternedAll t es ids t')
    (hes : es.Nodup) : ids.Nodup := by
  have hmap : (ids.map t'.entity?).Nodup := by
    rw [h.entities]
    exact hes.map (fun a b hab => Option.some.inj hab)
  exact List.Nodup.of_map _ hmap

/-- A node that the new declaration is not about keeps what is recorded on it. -/
theorem RecordedNode.grow {ds : List (E × List E)} (hr : Records ds t) (hg : Grows t t')
    (hi' : Indexed t') {n : Node E} (hn : t'.node? i = some n) : RecordedNode ds t' n := by
  rcases hg.fresh i n hn with hold | ⟨hblank, hnew⟩
  · have hrec := hr.node i n hold
    refine ⟨hrec.declared, ?_, hrec.ascending, hrec.blank⟩
    intro j
    rw [hrec.ancestors j]
    constructor
    · rintro ⟨d, hd, hdec⟩
      exact ⟨d, hg.entity? hd, hdec⟩
    · rintro ⟨d, hd, hdec⟩
      obtain ⟨k, hk⟩ := (mem_names_iff hr.indexed).mp (hr.mem_names.mpr hdec.mentioned.2)
      have hkd := (hr.indexed d k).mp hk
      rw [hi'.injective hd (hg.entity? hkd)]
      exact ⟨d, hkd, hdec⟩
  · have hno (deps : List E) : (n.entity, deps) ∉ ds := fun hm =>
      hnew (hr.mem_names.mpr (List.mem_flatMap.mpr ⟨_, hm, List.mem_cons_self⟩))
    rw [hblank]
    refine ⟨?_, ?_, List.Pairwise.nil, rfl⟩
    · simp [hno]
    · intro j
      simp only [List.not_mem_nil, false_iff]
      rintro ⟨d, _, deps, hm, _⟩
      exact hno deps hm

theorem add_cases {deps : List E} {id : NodeId} (h : t.add e deps = (.ok id, t')) :
    t.frozen = false ∧ ¬ t.isDeclared e = true ∧ deps.Nodup ∧ id = (t.intern e).1 ∧
      t' = ((t.intern e).2.internAll deps).2.declare (t.intern e).1
        ((t.intern e).2.internAll deps).1.mergeSort := by
  unfold add at h
  split at h
  · cases h
  · rename_i hfrozen
    split at h
    · cases h
    · rename_i hdeclared
      split at h
      · cases h
      · rename_i hrepeated
        cases h
        exact ⟨by simpa using hfrozen, hdeclared, Entity.nodup_of_repeated?_eq_none hrepeated,
          rfl, rfl⟩

/-- All that is refused is refused before anything is interned. -/
theorem add_refused {deps : List E} {err : GraphError E} (h : t.add e deps = (.error err, t')) :
    t' = t := by
  unfold add at h
  split at h
  · exact (Prod.mk.inj h).2.symm
  · split at h
    · exact (Prod.mk.inj h).2.symm
    · split at h
      · exact (Prod.mk.inj h).2.symm
      · cases h

/-- One accepted declaration adds itself to what the table records, and nothing else. -/
theorem add_records {ds : List (E × List E)} {deps : List E} {id : NodeId} (hr : Records ds t)
    (h : t.add e deps = (.ok id, t')) : Records (ds ++ [(e, deps)]) t' := by
  obtain ⟨hfrozen, hdeclared, hdeps, rfl, rfl⟩ := add_cases h
  rw [isDeclared_iff hr] at hdeclared
  have hfirst := intern_spec hr.indexed e
  have hall := internAll_spec hfirst.indexed deps
  have hgrows := hfirst.grows.trans hall.grows
  have hid := hall.grows.entity? hfirst.entity
  refine ⟨?_, ?_, ?_, ?_⟩
  · intro a i
    rw [declare_entity?]
    exact hall.indexed a i
  · rw [declare_names, hall.names, hfirst.names, hr.names, mentions_append, List.foldl_append,
      List.foldl_cons]
  · exact hgrows.frozen.trans hfrozen
  · intro i n hn
    rw [declare_node?] at hn
    split at hn
    · rename_i hi
      subst hi
      obtain ⟨m, hm, rfl⟩ := Option.map_eq_some_iff.mp hn
      obtain ⟨m', hm', hme⟩ := entity?_eq_some_iff.mp hid
      obtain rfl := Option.some.inj (hm.symm.trans hm')
      have hrec := RecordedNode.grow hr hgrows hall.indexed hm
      refine ⟨?_, ?_, ascending_mergeSort (hall.nodup hdeps), ?_⟩
      · simp [hme]
      · intro j
        simp only [List.mem_mergeSort, hall.mem_ids, declare_entity?, declares_append, hme,
          true_and]
        constructor
        · rintro ⟨d, hd, hj⟩
          exact ⟨d, hj, Or.inr hd⟩
        · rintro ⟨d, hj, ⟨l, hl, _⟩ | hd⟩
          · exact absurd ⟨l, hl⟩ hdeclared
          · exact ⟨d, hd, hj⟩
      · have hblank := hrec.blank
        rw [hblank]
    · rename_i hi
      have hrec := RecordedNode.grow hr hgrows hall.indexed hn
      have hne : n.entity ≠ e := by
        rintro rfl
        exact hi (hall.indexed.injective hid (entity?_eq_some_iff.mpr ⟨n, hn, rfl⟩))
      refine ⟨?_, ?_, hrec.ascending, hrec.blank⟩
      · rw [hrec.declared]
        simp [hne]
      · intro j
        simp only [hrec.ancestors j, declare_entity?, declares_append, hne, false_and, or_false]

def offer (t : Table E) (d : E × List E) : Table E := (t.add d.1 d.2).2

/-- The declarations among `calls` that the table takes when they are offered to it in turn. -/
def accepted (t : Table E) : List (E × List E) → List (E × List E)
  | [] => []
  | d :: calls =>
    match t.add d.1 d.2 with
    | (.ok _, t') => d :: t'.accepted calls
    | (.error _, t') => t'.accepted calls

/-- What every accepted declaration keeps, a sequence of offers keeps. -/
theorem offer_induction {P : List (E × List E) → Table E → Prop}
    (step : ∀ {ds t t' e deps id}, P ds t → t.add e deps = (.ok id, t') → P (ds ++ [(e, deps)]) t')
    {ds : List (E × List E)} (h : P ds t) (calls : List (E × List E)) :
    P (ds ++ t.accepted calls) (calls.foldl offer t) := by
  induction calls generalizing ds t with
  | nil => simpa [accepted] using h
  | cons d calls ih =>
    simp only [accepted, List.foldl_cons, offer]
    split
    · rename_i hadd
      rw [hadd]
      simpa using ih (step h hadd)
    · rename_i hadd
      obtain rfl := add_refused hadd
      rw [hadd]
      exact ih h

def ofCalls (calls : List (E × List E)) : Table E := calls.foldl offer {}

def taken (calls : List (E × List E)) : List (E × List E) := ({} : Table E).accepted calls

theorem ofCalls_records (calls : List (E × List E)) : Records (taken calls) (ofCalls calls) :=
  offer_induction add_records records_new calls

theorem add_ok {ds : List (E × List E)} {deps : List E} (hr : Records ds t)
    (hnew : e ∉ ds.map (·.1)) (hdeps : deps.Nodup) : ∃ id t', t.add e deps = (.ok id, t') := by
  have hdeclared : ¬ t.isDeclared e = true := by
    rw [isDeclared_iff hr]
    rintro ⟨l, hl⟩
    exact hnew (List.mem_map_of_mem hl)
  rw [add, hr.unfrozen, if_neg hdeclared, Entity.repeated?_eq_none_iff.mpr hdeps]
  exact ⟨_, _, rfl⟩

theorem addAll_ok {ds calls : List (E × List E)} (hr : Records ds t)
    (hdistinct : ((ds ++ calls).map (·.1)).Nodup) (hdeps : ∀ d ∈ calls, d.2.Nodup) :
    t.addAll calls = (calls.foldl offer t, none) ∧ t.accepted calls = calls := by
  induction calls generalizing ds t with
  | nil => exact ⟨rfl, rfl⟩
  | cons d calls ih =>
    have hnew : d.1 ∉ ds.map (·.1) := by
      rw [List.map_append, List.map_cons] at hdistinct
      intro hin
      exact List.disjoint_of_nodup_append hdistinct hin List.mem_cons_self
    obtain ⟨id, t', hadd⟩ := add_ok hr hnew (hdeps d List.mem_cons_self)
    have hrest := ih (add_records hr hadd) (by simpa using hdistinct)
      fun x hx => hdeps x (List.mem_cons_of_mem _ hx)
    constructor
    · rw [addAll, hadd, List.foldl_cons, offer, hadd]
      exact hrest.1
    · rw [accepted, hadd]
      exact congrArg (d :: ·) hrest.2

section Accepted

variable {ds : List (E × List E)}

theorem addAll_new (hdistinct : (ds.map (·.1)).Nodup) (hdeps : ∀ d ∈ ds, d.2.Nodup) :
    ({} : Table E).addAll ds = (ofCalls ds, none) :=
  (addAll_ok records_new hdistinct hdeps).1

theorem taken_eq (hdistinct : (ds.map (·.1)).Nodup) (hdeps : ∀ d ∈ ds, d.2.Nodup) :
    taken ds = ds :=
  (addAll_ok records_new hdistinct hdeps).2

end Accepted

end DepGraph.Table
