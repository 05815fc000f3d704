import DepGraph.Proofs.Resolving

/-!
# How a resolution ends

The refusals of a resolution, in the order they are considered: a self loop if the options reject
them, then a cycle in the strict mode. Nothing else is ever refused.
-/

namespace DepGraph

variable {E : Type} [Entity E] {ds : List (E × List E)} {t t' : Table E} {o : Options}

def Options.RejectsSelfLoops (o : Options) : Prop :=
  o.mode = .strictAcyclic ∨ o.checkSelfLoops = true

theorem Options.rejectsSelfLoops_iff : o.rejectsSelfLoops = true ↔ o.RejectsSelfLoops := by
  simp [rejectsSelfLoops, RejectsSelfLoops]

namespace Table

def SelfLoopRefused (o : Options) (ds : List (E × List E)) : Prop :=
  o.RejectsSelfLoops ∧ ∃ e, Declares ds e e

theorem refusal?_selfLoop (h : Built ds t) (ho : o.RejectsSelfLoops) {e : E}
    (he : FirstSelfLoop ds e) : Resolution.refusal? o t = some (.selfLoop e) := by
  have hhead := (head?_selfLoops h).mpr he
  obtain ⟨rest, hrest⟩ := List.head?_eq_some_iff.mp hhead
  rw [Resolution.refusal?, Options.rejectsSelfLoops_iff.mpr ho, hrest]

theorem refusal?_cycle (h : Built ds t) (ho : ¬ SelfLoopRefused o ds) :
    Resolution.refusal? o t =
      if o.mode = .strictAcyclic then t.findCycle.map .cycleDetected else none := by
  rw [Resolution.refusal?]
  split
  · rename_i e rest hreject hloops
    have he := (head?_selfLoops h).mp (by rw [hloops, List.head?_cons])
    obtain ⟨_, _, _, hdecl, _⟩ := he
    exact absurd ⟨Options.rejectsSelfLoops_iff.mp hreject, e, hdecl⟩ ho
  · rfl

/-- The three ends of a resolution. -/
theorem resolve_cases (hr : Records ds t) (o : Options) :
    (∃ e, o.RejectsSelfLoops ∧ FirstSelfLoop ds e ∧ t.resolve o = .error (.selfLoop e)) ∨
    (¬ SelfLoopRefused o ds ∧ o.mode = .strictAcyclic ∧ Cyclic ds ∧
      ∃ c, t.resolve o = .error (.cycleDetected c)) ∨
    (¬ SelfLoopRefused o ds ∧ ¬ (o.mode = .strictAcyclic ∧ Cyclic ds) ∧
      ∃ r, t.resolve o = .ok r ∧ r.Sound ds) := by
  obtain ⟨t', hb⟩ := build_of_unfrozen hr.unfrozen
  have hbuilt := build_built hr hb
  by_cases hloop : SelfLoopRefused o ds
  · obtain ⟨hreject, hdecl⟩ := hloop
    obtain ⟨e, he⟩ := exists_firstSelfLoop hdecl
    exact Or.inl ⟨e, hreject, he, resolve_refused hb (refusal?_selfLoop hbuilt hreject he)⟩
  · have hrefusal := refusal?_cycle hbuilt hloop
    right
    by_cases hcyc : o.mode = .strictAcyclic ∧ Cyclic ds
    · obtain ⟨c, hc⟩ := Option.isSome_iff_exists.mp ((findCycle_isSome_iff hbuilt).mpr hcyc.2)
      rw [if_pos hcyc.1, hc] at hrefusal
      exact Or.inl ⟨hloop, hcyc.1, hcyc.2, c, resolve_refused hb hrefusal⟩
    · have hnone : Resolution.refusal? o t' = none := by
        rw [hrefusal]
        split
        · rename_i hmode
          have hfind : ¬ t'.findCycle.isSome = true := fun hsome =>
            hcyc ⟨hmode, (findCycle_isSome_iff hbuilt).mp hsome⟩
          rw [Option.not_isSome_iff_eq_none.mp hfind]
          rfl
        · rfl
      exact Or.inr ⟨hloop, hcyc, resolve_ok hr hb hnone⟩

theorem resolve_sound (hr : Records ds t) {r : Resolution E} (h : t.resolve o = .ok r) :
    r.Sound ds := by
  rcases resolve_cases hr o with ⟨e, _, _, he⟩ | ⟨_, _, _, c, hc⟩ | ⟨_, _, s, hs, hsound⟩
  · rw [h] at he
    cases he
  · rw [h] at hc
    cases hc
  · rw [h] at hs
    cases hs
    exact hsound

theorem resolve_selfLoop_iff (hr : Records ds t) {e : E} :
    t.resolve o = .error (.selfLoop e) ↔ o.RejectsSelfLoops ∧ FirstSelfLoop ds e := by
  rcases resolve_cases hr o with ⟨d, hreject, hd, hres⟩ | ⟨hloop, _, _, c, hres⟩ |
    ⟨hloop, _, r, hres, _⟩
  · rw [hres]
    constructor
    · rintro ⟨⟩
      exact ⟨hreject, hd⟩
    · rintro ⟨_, he⟩
      rw [hd.unique he]
  all_goals
    rw [hres]
    refine iff_of_false nofun ?_
    rintro ⟨hreject, _, _, _, he, _⟩
    exact hloop ⟨hreject, e, he⟩

theorem resolve_cycle_iff (hr : Records ds t) :
    (∃ c, t.resolve o = .error (.cycleDetected c)) ↔
      ¬ SelfLoopRefused o ds ∧ o.mode = .strictAcyclic ∧ Cyclic ds := by
  rcases resolve_cases hr o with ⟨d, hreject, ⟨_, _, _, hd, _⟩, hres⟩ |
    ⟨hloop, hmode, hcyc, c, hres⟩ | ⟨hloop, hfree, r, hres, _⟩
  · rw [hres]
    exact iff_of_false nofun fun hnot => hnot.1 ⟨hreject, d, hd⟩
  · exact iff_of_true ⟨c, hres⟩ ⟨hloop, hmode, hcyc⟩
  · rw [hres]
    exact iff_of_false nofun fun hcyc => hfree hcyc.2

theorem resolve_ok_iff (hr : Records ds t) :
    (∃ r, t.resolve o = .ok r) ↔
      ¬ SelfLoopRefused o ds ∧ ¬ (o.mode = .strictAcyclic ∧ Cyclic ds) := by
  rcases resolve_cases hr o with ⟨d, hreject, ⟨_, _, _, hd, _⟩, hres⟩ |
    ⟨hloop, hmode, hcyc, c, hres⟩ | ⟨hloop, hfree, r, hres, _⟩
  · rw [hres]
    exact iff_of_false nofun fun hnot => hnot.1 ⟨hreject, d, hd⟩
  · rw [hres]
    exact iff_of_false nofun fun hnot => hnot.2 ⟨hmode, hcyc⟩
  · exact iff_of_true ⟨r, hres⟩ ⟨hloop, hfree⟩

theorem resolve_default (hr : Records ds t) : ∃ r, t.resolve {} = .ok r :=
  (resolve_ok_iff hr).mpr ⟨by simp [SelfLoopRefused, Options.RejectsSelfLoops], by simp⟩

theorem resolve_error (hr : Records ds t) {err : GraphError E} (h : t.resolve o = .error err) :
    (∃ e, err = .selfLoop e) ∨ ∃ c, err = .cycleDetected c := by
  rcases resolve_cases hr o with ⟨d, _, _, hres⟩ | ⟨_, _, _, c, hres⟩ | ⟨_, _, r, hres, _⟩
  · exact Or.inl ⟨d, Except.error.inj (h.symm.trans hres)⟩
  · exact Or.inr ⟨c, Except.error.inj (h.symm.trans hres)⟩
  · cases h.symm.trans hres

/-- Which of its ends a resolution takes is settled by the options and the accepted declarations
alone; in particular no graph leaves a component half ranked. -/
theorem resolve_outcome (calls : List (E × List E)) (o : Options) :
    (∀ e, (ofCalls calls).resolve o = .error (.selfLoop e) ↔
      (o.mode = .strictAcyclic ∨ o.checkSelfLoops = true) ∧ FirstSelfLoop (taken calls) e) ∧
    ((∃ c, (ofCalls calls).resolve o = .error (.cycleDetected c)) ↔
      ¬ ((o.mode = .strictAcyclic ∨ o.checkSelfLoops = true) ∧ ∃ e, Declares (taken calls) e e) ∧
      o.mode = .strictAcyclic ∧ Cyclic (taken calls)) ∧
    ((∃ r, (ofCalls calls).resolve o = .ok r) ↔
      ¬ ((o.mode = .strictAcyclic ∨ o.checkSelfLoops = true) ∧ ∃ e, Declares (taken calls) e e) ∧
      ¬ (o.mode = .strictAcyclic ∧ Cyclic (taken calls))) ∧
    ∀ err, (ofCalls calls).resolve o = .error err →
      (∃ e, err = .selfLoop e) ∨ ∃ c, err = .cycleDetected c := by
  have hr := ofCalls_records calls
  exact ⟨fun _ => resolve_selfLoop_iff hr, resolve_cycle_iff hr, resolve_ok_iff hr,
    fun _ h => resolve_error hr h⟩

end Table

end DepGraph
