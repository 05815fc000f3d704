import DepGraph.Command
import DepGraph.Proofs.Manifests
import DepGraph.Proofs.Outcomes

/-!
# Reports of cycles

A search for a cycle and a strict resolution of the same manifest come to the same end: neither
finds a cycle, or both report the same one, link by link and site by site. Every link reported is
one that the manifest declares.
-/

namespace DepGraph

namespace Table

variable {E : Type} [Entity E] {ds : List (E × List E)} {t t' : Table E}

theorem resolve_strict (o : Options) (hr : Records ds t) (hb : t.build = (.ok (), t'))
    (ho : o.mode = .strictAcyclic) (hself : ∀ e, ¬ Declares ds e e) :
    (∃ r, t.resolve o = .ok r) ∧ t'.findCycle = none ∨
      ∃ c, t.resolve o = .error (.cycleDetected c) ∧ t'.findCycle = some c := by
  have hbuilt := build_built hr hb
  have hclear : ¬ SelfLoopRefused o ds := by
    intro hrefused
    obtain ⟨_, e, he⟩ := hrefused
    exact hself e he
  have hrefusal := refusal?_cycle hbuilt hclear
  rw [if_pos ho] at hrefusal
  cases hfind : t'.findCycle with
  | none =>
    rw [hfind] at hrefusal
    obtain ⟨r, hres, _⟩ := resolve_ok hr hb hrefusal
    exact Or.inl ⟨⟨r, hres⟩, rfl⟩
  | some c =>
    rw [hfind] at hrefusal
    exact Or.inr ⟨c, resolve_refused hb hrefusal, rfl⟩

end Table

namespace Link

theorem foldl_rendered (ls : List (Link String)) (k : Nat) (text : String) :
    (ls.zipIdx (k + 1)).foldl
      (fun text (l, i) =>
        let text := if 0 < i then text ++ "\n" else text
        text ++ l.site ++ ": " ++ Label.plain l.source ++ " imports " ++ Label.plain l.target)
      text =
    "\n".intercalate
      (text :: ls.map fun l => l.site ++ ": " ++ l.source ++ " imports " ++ l.target) := by
  induction ls generalizing k text with
  | nil => rw [List.map_nil, String.intercalate_singleton, List.zipIdx_nil, List.foldl_nil]
  | cons l ls ih =>
    rw [List.zipIdx_cons, List.foldl_cons, ih, List.map_cons, String.intercalate_cons_cons,
      ← String.intercalate_cons_append]
    simp only [Nat.succ_pos, if_true, String.append_assoc]
    rfl

/-- Both ways of writing the links of a cycle come to the same lines. -/
theorem renderAll_eq (ls : List (Link String)) : renderAll ls =
    "\n".intercalate (ls.map fun l => l.site ++ ": " ++ l.source ++ " imports " ++ l.target) := by
  cases ls with
  | nil => rfl
  | cons l ls =>
    rw [renderAll, List.zipIdx_cons, List.foldl_cons, foldl_rendered]
    rfl

end Link

namespace Command

variable {m : Manifest} {t t' : Table String} {c : Cycle String}

theorem lines_singleton (s : String) : Report.lines [s] = s ++ "\n" := by
  simp [Report.lines, String.join]

/-- Both commands fail, and over the same links: those around the cycle. -/
structure ReportsCycle (m : Manifest) (check : Bool) (c : Cycle String) : Prop where
  cycle : ∀ style, run m style .cycle =
    { stdout := (Link.report (c.links m.siteOf)).render style, failure := some (.cyclic c.length) }
  resolve : ∀ style, run m style (.resolve (some .strictAcyclic) check) =
    { stderr := (Diagnostic.ofError m (.cycleDetected c)).render style
      failure := some (.graph (.cycleDetected c)) }
  long : 2 ≤ c.entities.length
  links : (c.links m.siteOf).map (fun l => (l.source, l.target)) =
    c.entities.zip (c.entities.rotate 1)
  details : (Diagnostic.ofError m (.cycleDetected c)).details =
    (c.links m.siteOf).map fun l => l.site ++ ": " ++ l.source ++ " imports " ++ l.target
  printed : (run m .text .cycle).stdout =
    "\n".intercalate (Diagnostic.ofError m (.cycleDetected c)).details ++ "\n"
  located : ∀ l ∈ c.links m.siteOf, m.Located l

theorem builtTable_eq (ht : m.table = .ok t) (hb : t.build = (.ok (), t')) :
    builtTable m = .ok t' := by
  simp only [builtTable, ht, hb]

theorem runCycle_eq (ht : m.table = .ok t) (hb : t.build = (.ok (), t')) (style : Style) :
    run m style .cycle = match t'.findCycle with
      | none => { stdout := Link.acyclicReport.render style }
      | some c => { stdout := (Link.report (c.links m.siteOf)).render style
                    failure := some (.cyclic c.length) } := by
  cases hfind : t'.findCycle <;> simp only [run, runCycle, builtTable_eq ht hb, hfind]

theorem runResolve_eq (ht : m.table = .ok t) (style : Style) (mode : Option Mode) (check : Bool) :
    run m style (.resolve mode check) = match t.resolve (options m mode check) with
      | .error e => refuse m style e
      | .ok r => { stdout := r.report.render style } := by
  cases hres : t.resolve (options m mode check) <;> simp only [run, runResolve, ht, hres]

theorem reportsCycle (ht : m.table = .ok t) (hb : t.build = (.ok (), t')) {check : Bool}
    (hres : t.resolve (options m (some .strictAcyclic) check) = .error (.cycleDetected c))
    (hfind : t'.findCycle = some c) : ReportsCycle m check c := by
  have hbuilt := Table.build_built (Manifest.table_records ht) hb
  have hcycle (style : Style) : run m style .cycle =
      { stdout := (Link.report (c.links m.siteOf)).render style
        failure := some (.cyclic c.length) } := by
    rw [runCycle_eq ht hb, hfind]
  constructor
  case cycle => exact hcycle
  case resolve =>
    intro style
    rw [runResolve_eq ht, hres]
    rfl
  case long => exact Table.findCycle_long hbuilt hfind
  case links => exact c.links_pairs m.siteOf
  case details => rfl
  case printed =>
    rw [hcycle]
    exact (lines_singleton _).trans (congrArg (· ++ "\n") (Link.renderAll_eq _))
  case located =>
    intro l hl
    obtain ⟨p, hp, rfl⟩ := List.mem_map.mp hl
    exact Manifest.located_of_declares ht (Table.findCycle_pairs hbuilt hfind p hp).1

/-- For a manifest without self references, the search reports no cycle exactly if the strict
resolution gets through; otherwise they report the same cycle. -/
theorem cycle_agrees_resolve (ht : m.table = .ok t) (hself : ∀ d ∈ m.entities, d.id ∉ d.deps)
    (check : Bool) (style : Style) :
    (run m style .cycle = { stdout := Link.acyclicReport.render style } ↔
      ∃ r, t.resolve (options m (some .strictAcyclic) check) = .ok r ∧
        run m style (.resolve (some .strictAcyclic) check) =
          { stdout := r.report.render style }) ∧
    ((¬ ∃ r, t.resolve (options m (some .strictAcyclic) check) = .ok r) →
      ∃ c, t.resolve (options m (some .strictAcyclic) check) = .error (.cycleDetected c) ∧
        ReportsCycle m check c) := by
  have hr := Manifest.table_records ht
  obtain ⟨t', hb⟩ := Table.build_of_unfrozen hr.unfrozen
  have hnone : ∀ e, ¬ Declares m.declarations e e := by
    intro e he
    obtain ⟨d, hd, rfl, hdeps⟩ := Manifest.declares_iff.mp he
    exact hself d hd hdeps
  rcases Table.resolve_strict (options m (some .strictAcyclic) check) hr hb rfl hnone with
    ⟨⟨r, hres⟩, hfind⟩ | ⟨c, hres, hfind⟩
  · refine ⟨iff_of_true ?_ ⟨r, hres, ?_⟩, fun hnot => absurd ⟨r, hres⟩ hnot⟩
    · rw [runCycle_eq ht hb, hfind]
    · rw [runResolve_eq ht, hres]
  · have hreports := reportsCycle ht hb hres hfind
    refine ⟨iff_of_false (fun hclear => ?_) (fun hok => ?_), fun _ => ⟨c, hres, hreports⟩⟩
    · cases congrArg Outcome.failure (hclear.symm.trans (hreports.cycle style))
    · obtain ⟨r, hr, _⟩ := hok
      cases hres.symm.trans hr

/-- Two entities that need each other; one link has a site of its own, the other only a file. -/
def couple : Manifest where
  entities := [{ id := "app", deps := ["core"], path := some "app.toml" },
    { id := "core", deps := ["app", "log"], sites := Sites.empty.insert "app" "core.toml:3" }]

theorem cycle_agrees_resolve_couple : ∃ t, couple.table = .ok t ∧
    (∀ d ∈ couple.entities, d.id ∉ d.deps) ∧
    ∃ c, t.resolve (options couple (some .strictAcyclic) false) = .error (.cycleDetected c) ∧
      ReportsCycle couple false c := by
  have hself : ∀ d ∈ couple.entities, d.id ∉ d.deps := by decide
  obtain ⟨t, ht⟩ := Manifest.table_ok_iff.mpr
    (show Plain couple.declarations from ⟨by decide, by decide⟩)
  have hcyc : Cyclic couple.declarations :=
    ⟨"app", .head (b := "core") ⟨⟨["core"], by decide, by decide⟩, by decide⟩
      (.single ⟨⟨["app", "log"], by decide, by decide⟩, by decide⟩)⟩
  have hnot : ¬ ∃ r, t.resolve (options couple (some .strictAcyclic) false) = .ok r := by
    rw [Table.resolve_ok_iff (Manifest.table_records ht)]
    exact fun h => h.2 ⟨rfl, hcyc⟩
  exact ⟨t, ht, hself, (cycle_agrees_resolve ht hself false .text).2 hnot⟩

end Command

end DepGraph
