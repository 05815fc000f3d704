import DepGraph.Proofs.Components
import DepGraph.Proofs.Faults
import DepGraph.Proofs.Freezing

/-!
# Requests to a table

Whether a table takes a declaration can be told from the requests made of it before. A build among
them refuses everything from then on. Until then an entity counts as declared once a declaration of
it has been taken; neither a refused declaration nor a mention as a dependency makes it so.
-/

namespace DepGraph.Table

variable {E : Type} [Entity E] {qs : List (Request E)} {q : Request E} {ds : List (E × List E)}
  {t : Table E} {e : E} {deps : List E}

def ofRequests (qs : List (Request E)) : Table E := qs.foldl after {}

/-- The sequence asks for a declaration of `e`, and the table took it when it was asked. -/
def Took (qs : List (Request E)) (e : E) : Prop :=
  ∃ before deps rest, qs = before ++ .add e deps :: rest ∧
    ∃ id t, (ofRequests before).add e deps = (.ok id, t)

theorem ofRequests_append (qs more : List (Request E)) :
    ofRequests (qs ++ more) = more.foldl after (ofRequests qs) :=
  List.foldl_append

theorem took_append : Took (qs ++ [q]) e ↔
    Took qs e ∨ ∃ deps id t, q = .add e deps ∧ (ofRequests qs).add e deps = (.ok id, t) := by
  constructor
  · intro h
    obtain ⟨before, deps, rest, hsplit, id, t, hadd⟩ := h
    rcases List.eq_nil_or_concat' rest with rfl | ⟨init, last, rfl⟩
    · obtain ⟨rfl, hq⟩ := List.append_inj' hsplit rfl
      exact Or.inr ⟨deps, id, t, (List.cons.inj hq).1, hadd⟩
    · rw [← List.cons_append, ← List.append_assoc] at hsplit
      obtain ⟨rfl, _⟩ := List.append_inj' hsplit rfl
      exact Or.inl ⟨before, deps, init, rfl, id, t, hadd⟩
  · intro h
    rcases h with ⟨before, deps, rest, rfl, id, t, hadd⟩ | ⟨deps, id, t, rfl, hadd⟩
    · exact ⟨before, deps, rest ++ [q], by simp, id, t, hadd⟩
    · exact ⟨qs, deps, [], rfl, id, t, hadd⟩

theorem took_append_of_refused
    (h : ∀ e deps id t, q = .add e deps → (ofRequests qs).add e deps ≠ (.ok id, t)) :
    Took (qs ++ [q]) e ↔ Took qs e := by
  rw [took_append]
  apply or_iff_left
  intro htook
  obtain ⟨deps, id, t, hq, hadd⟩ := htook
  exact h e deps id t hq hadd

theorem Reached.records (h : Reached ds t) (hf : t.frozen = false) : Records ds t := by
  rcases h.state with hr | hb
  · exact hr
  · rw [hb.frozen] at hf
    cases hf

/-- The declarations taken are those that the requests tell, and the table is built exactly if it
has been asked to be. -/
structure Remembers (qs : List (Request E)) (ds : List (E × List E)) (t : Table E) : Prop where
  reached : Reached ds t
  frozen : t.frozen = true ↔ .build ∈ qs
  took : ∀ e, e ∈ ds.map (·.1) ↔ Took qs e

theorem remembers_new : Remembers [] [] ({} : Table E) where
  reached := .new
  frozen := by simp
  took e := by simp [Took]

theorem Remembers.build (h : Remembers qs ds (ofRequests qs)) :
    Remembers (qs ++ [.build]) ds ((ofRequests qs).after .build) := by
  have htook (e : E) : e ∈ ds.map (·.1) ↔ Took (qs ++ [.build]) e := by
    rw [h.took, took_append_of_refused]
    intro e deps id t hq
    cases hq
  rw [after, serve]
  cases hf : (ofRequests qs).frozen with
  | false =>
    obtain ⟨t, hb⟩ := build_of_unfrozen hf
    rw [hb]
    exact ⟨h.reached.build hb, iff_of_true (build_frozen hb).1 (by simp), htook⟩
  | true =>
    rw [Table.build, if_pos hf]
    exact ⟨h.reached, iff_of_true hf (by simp), htook⟩

theorem Remembers.add (h : Remembers qs ds (ofRequests qs)) (e : E) (deps : List E) :
    ∃ ds', Remembers (qs ++ [.add e deps]) ds' ((ofRequests qs).after (.add e deps)) := by
  have hbuild : Request.build ∈ qs ++ [.add e deps] ↔ .build ∈ qs := by simp
  rw [after, serve]
  rcases hadd : (ofRequests qs).add e deps with ⟨answer, t⟩
  cases answer with
  | ok id =>
    have hunfrozen := (add_records (h.reached.records (add_cases hadd).1) hadd).unfrozen
    refine ⟨ds ++ [(e, deps)], h.reached.add hadd, ?_, fun a => ?_⟩
    · rw [hbuild, ← h.frozen, hunfrozen, (add_cases hadd).1]
    · rw [took_append, ← h.took, List.map_append, List.mem_append, List.map_singleton,
        List.mem_singleton]
      refine or_congr_right ?_
      constructor
      · intro ha
        exact ⟨deps, id, t, by rw [ha], by rw [ha]; exact hadd⟩
      · intro ha
        obtain ⟨_, _, _, hq, _⟩ := ha
        injection hq with hea
        exact hea.symm
  | error err =>
    obtain rfl := add_refused hadd
    refine ⟨ds, h.reached, by rw [hbuild, h.frozen], fun a => ?_⟩
    rw [h.took, took_append_of_refused]
    intro b ds' id t hq hok
    cases hq
    cases hadd.symm.trans hok

theorem exists_remembers (qs : List (Request E)) : ∃ ds, Remembers qs ds (ofRequests qs) := by
  induction qs using List.reverseRecOn with
  | nil => exact ⟨[], remembers_new⟩
  | append_singleton qs q ih =>
    obtain ⟨ds, h⟩ := ih
    have hstep : ofRequests (qs ++ [q]) = (ofRequests qs).after q := ofRequests_append qs [q]
    rw [hstep]
    cases q with
    | add e deps => exact h.add e deps
    | build => exact ⟨ds, h.build⟩

/-- Why a declaration of `e` is refused after the requests `qs`: a build comes first, then an
earlier declaration, then a dependency listed twice. -/
inductive Refusal (qs : List (Request E)) (e : E) (deps : List E) : GraphError E → Prop
  | frozen : .build ∈ qs → Refusal qs e deps .frozen
  | declared : .build ∉ qs → Took qs e → Refusal qs e deps (.duplicateEntity e)
  | repeated {d : E} : .build ∉ qs → ¬ Took qs e → Entity.LeastRepeated deps d →
      Refusal qs e deps (.duplicateLink e d)

theorem Remembers.refusal_iff_fault (h : Remembers qs ds t) (hb : .build ∉ qs)
    {err : GraphError E} : Refusal qs e deps err ↔ Fault ds e deps err := by
  have htook := h.took e
  constructor
  · intro hr
    cases hr with
    | frozen hbuild => exact absurd hbuild hb
    | declared _ he => exact .declared (htook.mpr he)
    | repeated _ hnew hd => exact .repeated (fun he => hnew (htook.mp he)) hd
  · intro hf
    cases hf with
    | declared he => exact .declared hb (htook.mp he)
    | repeated hnew hd => exact .repeated hb (fun he => hnew (htook.mpr he)) hd

theorem add_error_iff_refusal {err : GraphError E} :
    ((ofRequests qs).add e deps).1 = .error err ↔ Refusal qs e deps err := by
  obtain ⟨ds, h⟩ := exists_remembers qs
  by_cases hb : .build ∈ qs
  · rw [Table.add, if_pos (h.frozen.mpr hb)]
    constructor
    · intro herr
      obtain rfl := Except.error.inj herr
      exact .frozen hb
    · intro hr
      cases hr with
      | frozen _ => rfl
      | declared hnot _ => exact absurd hb hnot
      | repeated hnot _ _ => exact absurd hb hnot
  · have hunfrozen : (ofRequests qs).frozen = false := by
      rw [← Bool.not_eq_true, h.frozen]
      exact hb
    rw [h.refusal_iff_fault hb, add_error_iff (h.reached.records hunfrozen)]

theorem exists_refusal_iff : (∃ err, Refusal qs e deps err) ↔
    .build ∈ qs ∨ Took qs e ∨ ¬ deps.Nodup := by
  constructor
  · intro hr
    obtain ⟨err, hr⟩ := hr
    cases hr with
    | frozen hb => exact Or.inl hb
    | declared _ he => exact Or.inr (Or.inl he)
    | repeated _ _ hd => exact Or.inr (Or.inr hd.repeated.not_nodup)
  · intro hbad
    by_cases hb : .build ∈ qs
    · exact ⟨_, .frozen hb⟩
    · obtain ⟨ds, h⟩ := exists_remembers qs
      obtain ⟨err, hf⟩ : ∃ err, Fault ds e deps err := by
        rw [exists_fault_iff, List.exists_duplicate_iff_not_nodup, h.took]
        exact hbad.resolve_left hb
      exact ⟨err, (h.refusal_iff_fault hb).mpr hf⟩

theorem add_ok_iff_refusal : (∃ id, ((ofRequests qs).add e deps).1 = .ok id) ↔
    ¬ ∃ err, Refusal qs e deps err := by
  simp only [← add_error_iff_refusal]
  cases ((ofRequests qs).add e deps).1 with
  | ok id => exact iff_of_true ⟨id, rfl⟩ (by simp)
  | error err => exact iff_of_false (by simp) (by simp)

/-- After any requests, a declaration is refused for the first reason there is and taken if there
is none; when it is refused, the table stays exactly as it was. -/
theorem add_exact (qs : List (Request E)) (e : E) (deps : List E) :
    (∀ err, ((ofRequests qs).add e deps).1 = .error err ↔ Refusal qs e deps err) ∧
    ((∃ id, ((ofRequests qs).add e deps).1 = .ok id) ↔
      .build ∉ qs ∧ ¬ Took qs e ∧ deps.Nodup) ∧
    ∀ err t, (ofRequests qs).add e deps = (.error err, t) →
      t = ofRequests qs ∧ ofRequests (qs ++ [.add e deps]) = t := by
  refine ⟨fun err => add_error_iff_refusal, ?_, ?_⟩
  · rw [add_ok_iff_refusal, exists_refusal_iff, not_or, not_or, not_not]
  · intro err t hadd
    refine ⟨add_refused hadd, ?_⟩
    rw [ofRequests_append, List.foldl_cons, List.foldl_nil, after, serve, hadd]

end DepGraph.Table
