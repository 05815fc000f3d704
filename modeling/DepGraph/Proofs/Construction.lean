import DepGraph.Proofs.CycleReports
import DepGraph.Proofs.Faults

/-!
# Commands on faulty manifests

All commands draw up the table of the manifest first, so they refuse the same manifests, each
with the first faulty declaration as the reason. Once there is a table a pruning goes through,
whatever the settings of the manifest are and whatever cycles it has.
-/

namespace DepGraph

namespace Manifest

variable {m : Manifest} {t : Table String} {i : Invalid}

theorem addAll_fault {ds : List (String × List String)} {more : List Declaration}
    (hr : Table.Records ds t) (hp : Plain ds) (h : addAll t more = .error i) :
    FirstFault (ds ++ more.map fun d => (d.id, d.deps)) i.id i.cause := by
  induction more generalizing ds t with
  | nil => cases h
  | cons d more ih =>
    rcases hadd : t.add d.id d.deps with ⟨answer, next⟩
    rw [addAll, hadd] at h
    cases answer with
    | ok id =>
      have hrest := ih (Table.add_records hr hadd) (Table.add_plain hr hp hadd) h
      rwa [List.append_assoc, List.singleton_append] at hrest
    | error cause =>
      obtain rfl := Except.error.inj h
      exact ⟨ds, d.deps, _, rfl, hp, (Table.add_error_iff hr).mp (congrArg Prod.fst hadd)⟩

theorem table_error_iff : m.table = .error i ↔ FirstFault m.declarations i.id i.cause := by
  have hblame {j : Invalid} (hj : m.table = .error j) :
      FirstFault m.declarations j.id j.cause :=
    addAll_fault Table.records_new plain_nil hj
  constructor
  · exact hblame
  · intro h
    cases ht : m.table with
    | ok t => exact absurd (table_plain ht) (exists_firstFault_iff.mp ⟨_, _, h⟩)
    | error j =>
      obtain ⟨hid, hcause⟩ := (hblame ht).unique h
      cases i
      cases j
      simp only at hid hcause
      rw [hid, hcause]

theorem exists_firstFault_iff_entities : (∃ e err, FirstFault m.declarations e err) ↔
    ∃ before d after, m.entities = before ++ d :: after ∧
      (d.id ∈ before.map (·.id) ∨ ∃ x, List.Duplicate x d.deps) := by
  rw [exists_firstFault_iff, not_plain_iff]
  constructor
  · intro h
    obtain ⟨before, e, deps, after, hds, hbad⟩ := h
    obtain ⟨init, rest, hm, rfl, hrest⟩ := List.map_eq_append_iff.mp hds
    obtain ⟨d, tail, rfl, hd, _⟩ := List.map_eq_cons_iff.mp hrest
    obtain ⟨rfl, rfl⟩ := Prod.mk.inj hd
    rw [List.map_map] at hbad
    exact ⟨init, d, tail, hm, hbad⟩
  · intro h
    obtain ⟨before, d, after, hm, hbad⟩ := h
    refine ⟨before.map fun d => (d.id, d.deps), d.id, d.deps,
      after.map fun d => (d.id, d.deps), ?_, ?_⟩
    · rw [declarations, hm, List.map_append, List.map_cons]
    · rw [List.map_map]
      exact hbad

end Manifest

namespace Command

variable {m : Manifest} {t : Table String} {i : Invalid}

theorem run_invalid (ht : m.table = .error i) (style : Style) (cmd : Command) :
    run m style cmd = { failure := some (.invalid i) } := by
  have hbuilt : builtTable m = .error (.invalid i) := by simp only [builtTable, ht]
  cases cmd with
  | resolve mode check => simp only [run, runResolve, ht]
  | cycle => simp only [run, runCycle, hbuilt]
  | prune strategy more => cases strategy <;> simp only [run, runPrune, hbuilt, ht]

/-- What the strategies find prunable in the graph of a table not yet built. -/
inductive Finds (t : Table String) (publics : List String) : Strategy → Prunable String → Prop
  | byReach {t' : Table String} : t.build = (.ok (), t') →
      Finds t publics .byReach (t'.pruneUnreachable publics)
  | byComponent {r : Resolution String} : t.resolve {} = .ok r →
      Finds t publics .byComponent (r.prune publics)

theorem runPrune_ok (ht : m.table = .ok t) (style : Style) (strategy : Strategy)
    (more : List String) : ∃ p, Finds t (publics m more) strategy p ∧
      run m style (.prune strategy more) =
        { stdout := (p.report strategy (publics m more)).render style } := by
  have hr := Manifest.table_records ht
  cases strategy with
  | byReach =>
    obtain ⟨t', hb⟩ := Table.build_of_unfrozen hr.unfrozen
    refine ⟨_, .byReach hb, ?_⟩
    simp only [run, runPrune, builtTable_eq ht hb]
  | byComponent =>
    obtain ⟨r, hres⟩ := Table.resolve_default hr
    refine ⟨_, .byComponent hres, ?_⟩
    simp only [run, runPrune, ht, hres]

theorem run_valid (ht : m.table = .ok t) (style : Style) (cmd : Command) :
    (run m style cmd).failure ≠ some (.invalid i) := by
  cases cmd with
  | resolve mode check =>
    rw [runResolve_eq ht]
    split <;> nofun
  | cycle =>
    obtain ⟨t', hb⟩ := Table.build_of_unfrozen (Manifest.table_records ht).unfrozen
    rw [runCycle_eq ht hb]
    split <;> nofun
  | prune strategy more =>
    obtain ⟨p, _, hrun⟩ := runPrune_ok ht style strategy more
    rw [hrun]
    nofun

theorem run_invalid_iff (style : Style) (cmd : Command) :
    (run m style cmd).failure = some (.invalid i) ↔
      FirstFault m.declarations i.id i.cause := by
  rw [← Manifest.table_error_iff]
  constructor
  · intro h
    cases ht : m.table with
    | ok t => exact absurd h (run_valid ht style cmd)
    | error j =>
      rw [run_invalid ht] at h
      rw [Failure.invalid.inj (Option.some.inj h)]
  · intro ht
    rw [run_invalid ht]

/-- The commands agree on which manifests they take and on what they say of the others, and only
then do they part: a pruning of a manifest that is taken always reports. -/
theorem construction_uniform (m : Manifest) :
    (∀ style cmd i, (run m style cmd).failure = some (.invalid i) ↔
      FirstFault m.declarations i.id i.cause) ∧
    ((∃ e err, FirstFault m.declarations e err) ↔
      ∃ before d after, m.entities = before ++ d :: after ∧
        (d.id ∈ before.map (·.id) ∨ ∃ x, List.Duplicate x d.deps)) ∧
    (∀ e err, FirstFault m.declarations e err → ∀ style cmd,
      run m style cmd = { failure := some (.invalid ⟨e, err⟩) } ∧
      (run m style cmd).failure.map Failure.chain =
        some ["invalid entity '" ++ e ++ "'", err.message]) ∧
    ((¬ ∃ e err, FirstFault m.declarations e err) → ∃ t, m.table = .ok t ∧
      ∀ style strategy more, ∃ p, Finds t (publics m more) strategy p ∧
        run m style (.prune strategy more) =
          { stdout := (p.report strategy (publics m more)).render style }) ∧
    ∀ style strategy more e, run m style (.prune strategy more) ≠ refuse m style e := by
  have hblamed (e : String) (err : GraphError String) (h : FirstFault m.declarations e err) :
      m.table = .error ⟨e, err⟩ := Manifest.table_error_iff.mpr h
  refine ⟨fun style cmd i => run_invalid_iff style cmd, Manifest.exists_firstFault_iff_entities,
    ?_, ?_, ?_⟩
  · intro e err h style cmd
    rw [run_invalid (hblamed e err h)]
    exact ⟨rfl, rfl⟩
  · intro h
    rw [exists_firstFault_iff, not_not] at h
    obtain ⟨t, ht⟩ := Manifest.table_ok_iff.mpr h
    exact ⟨t, ht, runPrune_ok ht⟩
  · intro style strategy more e hrun
    cases ht : m.table with
    | ok t =>
      obtain ⟨p, _, hok⟩ := runPrune_ok ht style strategy more
      cases congrArg Outcome.failure (hok.symm.trans hrun)
    | error i => cases congrArg Outcome.failure ((run_invalid ht style _).symm.trans hrun)

end Command

end DepGraph
