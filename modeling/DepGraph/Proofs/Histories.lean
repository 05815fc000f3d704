import DepGraph.Proofs.Adding

/-!
# Histories of declarations

Whatever declarations a table is offered, those it takes settle what it holds: which entities have
nodes and in which order, which of them are declared, and the numbers each depends on. A refused
declaration shows nowhere, and a number once given out stays with its entity.
-/

namespace DepGraph

variable {E : Type}

/-- No two declarations are of one entity, and none lists a dependency twice. -/
structure Plain (ds : List (E × List E)) : Prop where
  distinct : (ds.map (·.1)).Nodup
  deps : ∀ d ∈ ds, d.2.Nodup

theorem plain_nil : Plain ([] : List (E × List E)) := ⟨List.nodup_nil, by simp⟩

theorem Plain.unique {ds : List (E × List E)} {e : E} {l l' : List E} (h : Plain ds)
    (hl : (e, l) ∈ ds) (hl' : (e, l') ∈ ds) : l = l' :=
  (Prod.mk.inj (List.inj_on_of_nodup_map h.distinct hl hl' rfl)).2

theorem Plain.of_append {ds more : List (E × List E)} (h : Plain (ds ++ more)) : Plain ds := by
  refine ⟨?_, fun d hd => h.deps d (List.mem_append_left _ hd)⟩
  have hids := h.distinct
  rw [List.map_append] at hids
  exact hids.of_append_left

theorem plain_append_iff {ds : List (E × List E)} {e : E} {deps : List E} :
    Plain (ds ++ [(e, deps)]) ↔ Plain ds ∧ e ∉ ds.map (·.1) ∧ deps.Nodup := by
  constructor
  · intro h
    have hids := h.distinct
    rw [List.map_append, List.map_singleton, List.nodup_append] at hids
    refine ⟨h.of_append, ?_, ?_⟩
    · intro he
      exact hids.2.2 e he e List.mem_cons_self rfl
    · exact h.deps (e, deps) (List.mem_append_right _ List.mem_cons_self)
  · intro h
    obtain ⟨hp, hnew, hdeps⟩ := h
    constructor
    · rw [List.map_append, List.map_singleton, List.nodup_append]
      refine ⟨hp.distinct, List.nodup_singleton e, ?_⟩
      intro a ha b hb hab
      obtain rfl := List.mem_singleton.mp hb
      exact hnew (hab ▸ ha)
    · intro d hd
      rcases List.mem_append.mp hd with hd | hd
      · exact hp.deps d hd
      · rw [List.mem_singleton.mp hd]
        exact hdeps

variable [Entity E]

namespace Entity

theorem foldl_note_eq_loop (es known : List E) :
    es.foldl note known = List.eraseDupsBy.loop same es known.reverse := by
  induction es generalizing known with
  | nil => simp [List.eraseDupsBy.loop]
  | cons e es ih =>
    rw [List.foldl_cons, ih, note, among, List.eraseDupsBy.loop, List.any_reverse]
    cases known.any (same e) <;> simp

theorem foldl_note (es : List E) : es.foldl note [] = es.eraseDupsBy same :=
  foldl_note_eq_loop es []

end Entity

namespace Table

variable {t t' : Table E} {ds : List (E × List E)} {e a : E} {deps : List E} {id i : NodeId}

theorem add_numbers (hr : Records ds t) (h : t.add e deps = (.ok id, t')) :
    t'.entity? id = some e ∧ ∀ i a, t.entity? i = some a → t'.entity? i = some a := by
  obtain ⟨_, _, _, rfl, rfl⟩ := add_cases h
  have hfirst := intern_spec hr.indexed e
  have hall := internAll_spec hfirst.indexed deps
  simp only [declare_entity?]
  refine ⟨hall.grows.entity? hfirst.entity, fun i a hi => ?_⟩
  exact (hfirst.grows.trans hall.grows).entity? hi

theorem add_plain (hr : Records ds t) (hp : Plain ds) (h : t.add e deps = (.ok id, t')) :
    Plain (ds ++ [(e, deps)]) := by
  obtain ⟨_, hdeclared, hdeps, _⟩ := add_cases h
  refine plain_append_iff.mpr ⟨hp, ?_, hdeps⟩
  intro he
  obtain ⟨⟨_, l⟩, hd, rfl⟩ := List.mem_map.mp he
  exact hdeclared ((isDeclared_iff hr).mpr ⟨l, hd⟩)

theorem taken_plain (calls : List (E × List E)) : Plain (taken calls) := by
  have hnew : Records [] ({} : Table E) ∧ Plain (E := E) [] := ⟨records_new, plain_nil⟩
  have hrun := offer_induction (P := fun ds t => Records ds t ∧ Plain ds)
    (fun h hadd => ⟨add_records h.1 hadd, add_plain h.1 h.2 hadd⟩) hnew calls
  exact hrun.2

theorem foldl_offer_keeps (hr : Records ds t) (hi : t.entity? i = some a)
    (calls : List (E × List E)) : (calls.foldl offer t).entity? i = some a := by
  have hrun := offer_induction (P := fun ds t => Records ds t ∧ t.entity? i = some a)
    (fun h hadd => ⟨add_records h.1 hadd, (add_numbers h.1 hadd).2 i a h.2⟩) ⟨hr, hi⟩ calls
  exact hrun.2

/-- What a table that has taken the declarations `ds` holds, entity by entity. -/
structure Tracks (ds : List (E × List E)) (t : Table E) : Prop where
  entities : t.nodes.toList.map (·.entity) = (mentions ds).eraseDupsBy Entity.same
  index : ∀ e i, t.idOf? e = some i ↔ ∃ n, t.node? i = some n ∧ n.entity = e
  dense : ∀ i, i < t.size ↔ ∃ e, t.idOf? e = some i
  known : ∀ e, (∃ i, t.idOf? e = some i) ↔ e ∈ mentions ds
  oneToOne : ∀ a b i, t.idOf? a = some i → t.idOf? b = some i → a = b
  declared : ∀ i n, t.node? i = some n → (n.declared = true ↔ ∃ deps, (n.entity, deps) ∈ ds)
  ancestors : ∀ i n deps, t.node? i = some n → (n.entity, deps) ∈ ds →
    n.ancestors.Pairwise (· < ·) ∧ ∀ j, j ∈ n.ancestors ↔ ∃ d ∈ deps, t.idOf? d = some j
  undeclared : ∀ i n, t.node? i = some n → n.declared = false → n.ancestors = []

theorem Records.tracks (h : Records ds t) (hp : Plain ds) : Tracks ds t := by
  constructor
  case entities =>
    rw [← Entity.foldl_note]
    exact h.names
  case index =>
    intro e i
    rw [h.indexed e i, entity?_eq_some_iff]
  case dense =>
    intro i
    rw [← exists_entity?]
    exact exists_congr fun e => (h.indexed e i).symm
  case known =>
    intro e
    rw [← mem_names_iff h.indexed, h.mem_names]
  case oneToOne =>
    intro a b i ha hb
    have hai := (h.indexed a i).mp ha
    have hbi := (h.indexed b i).mp hb
    exact Option.some.inj (hai.symm.trans hbi)
  case declared => exact fun i n hn => (h.node i n hn).declared
  case ancestors =>
    intro i n deps hn hdeps
    refine ⟨(h.node i n hn).ascending, fun j => ?_⟩
    rw [(h.node i n hn).ancestors j]
    constructor
    · rintro ⟨d, hd, l, hl, hmem⟩
      obtain rfl := hp.unique hl hdeps
      exact ⟨d, hmem, (h.indexed d j).mpr hd⟩
    · rintro ⟨d, hmem, hd⟩
      exact ⟨d, (h.indexed d j).mp hd, deps, hdeps, hmem⟩
  case undeclared =>
    intro i n hn hnot
    apply List.eq_nil_iff_forall_not_mem.mpr
    intro j hj
    obtain ⟨d, _, l, hl, _⟩ := ((h.node i n hn).ancestors j).mp hj
    have hdec := (h.node i n hn).declared.mpr ⟨l, hl⟩
    rw [hnot] at hdec
    cases hdec

/-- After any sequence of declarations, taken and refused in any mix, the table holds what those
taken say and nothing else; the number that a taken one returned is still that of its entity, and a
refused one left the table as it found it. -/
theorem ofCalls_tracks (calls : List (E × List E)) :
    Tracks (taken calls) (ofCalls calls) ∧
    (∀ before e deps after id t', calls = before ++ (e, deps) :: after →
      (ofCalls before).add e deps = (.ok id, t') →
      t'.idOf? e = some id ∧ (ofCalls calls).idOf? e = some id) ∧
    ∀ before e deps after err t', calls = before ++ (e, deps) :: after →
      (ofCalls before).add e deps = (.error err, t') → t' = ofCalls before := by
  have hr := ofCalls_records calls
  refine ⟨hr.tracks (taken_plain calls), ?_, fun _ _ _ _ _ _ _ => add_refused⟩
  rintro before e deps after id t' rfl hadd
  have hbefore := ofCalls_records before
  have hadded := add_records hbefore hadd
  have hid := (add_numbers hbefore hadd).1
  have hlater : ofCalls (before ++ (e, deps) :: after) = after.foldl offer t' := by
    have hoffer : offer (ofCalls before) (e, deps) = t' := by
      simp only [offer, hadd]
    rw [ofCalls, List.foldl_append, List.foldl_cons, ← ofCalls, hoffer]
  refine ⟨(hadded.indexed e id).mpr hid, (hr.indexed e id).mpr ?_⟩
  rw [hlater]
  exact foldl_offer_keeps hadded hid after

example : taken [("c", ["a"]), ("c", ["b"]), ("b", ["d", "d"]), ("a", ["a", "c"])] =
    [("c", ["a"]), ("a", ["a", "c"])] := by
  cbv

end Table

end DepGraph
