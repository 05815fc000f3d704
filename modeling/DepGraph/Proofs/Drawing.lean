import DepGraph.Proofs.Declarations
import DepGraph.Proofs.Walks

/-!
# Drawing dependencies on numbered vertices

Tables and components both draw the dependency relation on numbered vertices, with links from
each entity to what depends on it. Walks along the links are then chains of dependencies, read
backwards.
-/

namespace DepGraph

variable {E : Type} {ds : List (E × List E)} {next : Nat → List Nat} {name : Nat → Option E}

/-- The links are the dependencies of the named entities, and a named entity has its dependents
named too. -/
structure Drawn (ds : List (E × List E)) (next : Nat → List Nat) (name : Nat → Option E) :
    Prop where
  link : ∀ v w, w ∈ next v ↔ ∃ e d, name v = some e ∧ name w = some d ∧ DependsOn ds d e
  injective : ∀ v w e, name v = some e → name w = some e → v = w
  closed : ∀ v e d, name v = some e → DependsOn ds d e → ∃ w, name w = some d

namespace Drawn

theorem link_iff (h : Drawn ds next name) {v w : Nat} {e d : E} (hv : name v = some e)
    (hw : name w = some d) : w ∈ next v ↔ DependsOn ds d e := by
  rw [h.link, hv, hw]
  constructor
  · rintro ⟨_, _, ⟨⟩, ⟨⟩, hdep⟩
    exact hdep
  · intro hdep
    exact ⟨e, d, rfl, rfl, hdep⟩

theorem irreflexive (h : Drawn ds next name) (v : Nat) : v ∉ next v := by
  intro hv
  obtain ⟨e, d, he, hd, hdep⟩ := (h.link v v).mp hv
  exact hdep.2 (Option.some.inj (he.symm.trans hd))

theorem leads_named (h : Drawn ds next name) {v w : Nat} {e : E} (hv : name v = some e)
    (hl : Leads next v w) : ∃ d, name w = some d ∧ Reaches ds d e := by
  induction hl with
  | refl => exact ⟨e, hv, .refl⟩
  | tail _ hstep ih =>
    obtain ⟨d, hd, hreach⟩ := ih
    obtain ⟨d', c, hd', hc, hdep⟩ := (h.link _ _).mp hstep
    obtain rfl := Option.some.inj (hd.symm.trans hd')
    exact ⟨c, hc, .head hdep hreach⟩

theorem reaches_named (h : Drawn ds next name) {v : Nat} {e d : E} (hv : name v = some e)
    (hr : Reaches ds d e) : ∃ w, name w = some d ∧ Leads next v w := by
  induction hr using Relation.ReflTransGen.head_induction_on with
  | refl => exact ⟨v, hv, .refl⟩
  | head hdep _ ih =>
    obtain ⟨w, hw, hl⟩ := ih
    obtain ⟨x, hx⟩ := h.closed w _ _ hw hdep
    exact ⟨x, hx, hl.tail ((h.link_iff hw hx).mpr hdep)⟩

theorem leads_iff (h : Drawn ds next name) {v w : Nat} {e d : E} (hv : name v = some e)
    (hw : name w = some d) : Leads next v w ↔ Reaches ds d e := by
  constructor
  · intro hl
    obtain ⟨d', hd', hr⟩ := h.leads_named hv hl
    obtain rfl := Option.some.inj (hw.symm.trans hd')
    exact hr
  · intro hr
    obtain ⟨w', hw', hl⟩ := h.reaches_named hv hr
    obtain rfl := h.injective w w' d hw hw'
    exact hl

theorem mutual_iff (h : Drawn ds next name) {v w : Nat} {a b : E} (hv : name v = some a)
    (hw : name w = some b) : Mutual ds a b ↔ Leads next v w ∧ Leads next w v := by
  rw [h.leads_iff hv hw, h.leads_iff hw hv]
  exact and_comm

theorem cycle_iff (h : Drawn ds next name) {v : Nat} {e : E} (hv : name v = some e) :
    Relation.TransGen (fun a b => b ∈ next a) v v ↔ Relation.TransGen (DependsOn ds) e e := by
  rw [Relation.TransGen.head'_iff, Relation.TransGen.tail'_iff]
  constructor
  · rintro ⟨w, hstep, hl⟩
    obtain ⟨e', d, he', hd, hdep⟩ := (h.link v w).mp hstep
    obtain rfl := Option.some.inj (hv.symm.trans he')
    exact ⟨d, (h.leads_iff hd hv).mp hl, hdep⟩
  · rintro ⟨d, hr, hdep⟩
    obtain ⟨w, hw⟩ := h.closed v e d hv hdep
    exact ⟨w, (h.link_iff hv hw).mpr hdep, (h.leads_iff hw hv).mpr hr⟩

end Drawn

theorem map_eq_map_some {vs : List Nat} (h : ∀ v ∈ vs, ∃ e, name v = some e) :
    vs.map name = (vs.filterMap name).map some := by
  rw [List.map_filterMap_some_eq_filter_map_isSome, List.filter_eq_self.mpr]
  intro x hx
  obtain ⟨v, hv, rfl⟩ := List.mem_map.mp hx
  exact Option.isSome_iff_exists.mpr (h v hv)

end DepGraph
