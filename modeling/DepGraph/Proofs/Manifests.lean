import DepGraph.Manifest.Basic
import DepGraph.Proofs.Histories

/-!
# The declarations of a manifest

A manifest that gives a table has all its declarations in it, so no two of them share an id. A
declaration can then be looked up by its id, and a dependency's site is found in the declaration
that lists it.
-/

namespace DepGraph.Manifest

variable {m : Manifest} {t t' : Table String}

def declarations (m : Manifest) : List (String × List String) :=
  m.entities.map fun d => (d.id, d.deps)

theorem addAll_records {ds : List (String × List String)} {more : List Declaration}
    (hr : Table.Records ds t) (hp : Plain ds) (h : addAll t more = .ok t') :
    Table.Records (ds ++ more.map fun d => (d.id, d.deps)) t' ∧
      Plain (ds ++ more.map fun d => (d.id, d.deps)) := by
  induction more generalizing ds t with
  | nil =>
    obtain rfl := Except.ok.inj h
    rw [List.map_nil, List.append_nil]
    exact ⟨hr, hp⟩
  | cons d more ih =>
    rw [addAll] at h
    split at h
    · rename_i id next hadd
      have hrest := ih (Table.add_records hr hadd) (Table.add_plain hr hp hadd) h
      rwa [List.append_assoc, List.singleton_append] at hrest
    · cases h

theorem table_records (h : m.table = .ok t) : Table.Records m.declarations t :=
  (addAll_records Table.records_new plain_nil h).1

theorem table_plain (h : m.table = .ok t) : Plain m.declarations :=
  (addAll_records Table.records_new plain_nil h).2

theorem addAll_ok {ds : List (String × List String)} {more : List Declaration}
    (hr : Table.Records ds t) (hp : Plain (ds ++ more.map fun d => (d.id, d.deps))) :
    ∃ t', addAll t more = .ok t' := by
  induction more generalizing ds t with
  | nil => exact ⟨t, rfl⟩
  | cons d more ih =>
    have hnew : d.id ∉ ds.map (·.1) := by
      have hids := hp.distinct
      rw [List.map_append] at hids
      intro hin
      exact List.disjoint_of_nodup_append hids hin List.mem_cons_self
    have hdeps : d.deps.Nodup := hp.deps (d.id, d.deps) (by simp)
    obtain ⟨id, next, hadd⟩ := Table.add_ok hr hnew hdeps
    rw [addAll, hadd]
    apply ih (Table.add_records hr hadd)
    rwa [List.append_assoc, List.singleton_append]

theorem table_ok_iff : (∃ t, m.table = .ok t) ↔ Plain m.declarations := by
  constructor
  · intro h
    obtain ⟨t, ht⟩ := h
    exact table_plain ht
  · exact addAll_ok Table.records_new

theorem declares_iff {e d : String} :
    Declares m.declarations e d ↔ ∃ x ∈ m.entities, x.id = e ∧ d ∈ x.deps := by
  simp only [Declares, declarations, List.mem_map, Prod.mk.injEq]
  constructor
  · intro h
    obtain ⟨deps, ⟨x, hx, rfl, rfl⟩, hd⟩ := h
    exact ⟨x, hx, rfl, hd⟩
  · intro h
    obtain ⟨x, hx, rfl, hd⟩ := h
    exact ⟨x.deps, ⟨x, hx, rfl, rfl⟩, hd⟩

theorem find?_of_plain (h : Plain m.declarations) {x : Declaration} (hx : x ∈ m.entities) :
    m.entities.find? (·.id == x.id) = some x := by
  have hids : (m.entities.map (·.id)).Nodup := by
    have := h.distinct
    rwa [declarations, List.map_map] at this
  cases hfind : m.entities.find? (·.id == x.id) with
  | none => exact absurd (List.find?_eq_none.mp hfind x hx) (by simp)
  | some y =>
    have hid : y.id = x.id := by simpa using List.find?_some hfind
    rw [List.inj_on_of_nodup_map hids (List.mem_of_find?_eq_some hfind) hx hid]

/-- The site is that of the declaration which lists the dependency: its entry for the dependency,
else its path, else its own id. -/
def Located (m : Manifest) (l : Link String) : Prop :=
  ∃ d ∈ m.entities, d.id = l.source ∧ l.target ∈ d.deps ∧
    m.entities.find? (·.id == l.source) = some d ∧
    l.site = match d.sites.get? l.target, d.path with
      | some site, _ => site
      | none, some path => path
      | none, none => l.source

theorem located_of_declares (h : m.table = .ok t) {source target : String}
    (hdecl : Declares m.declarations source target) :
    m.Located ⟨source, target, m.siteOf source target⟩ := by
  obtain ⟨d, hd, rfl, htarget⟩ := declares_iff.mp hdecl
  have hfind := find?_of_plain (table_plain h) hd
  have hsite : m.siteOf d.id target = ((d.sites.get? target).or d.path).getD d.id := by
    rw [siteOf, hfind]
  refine ⟨d, hd, rfl, htarget, hfind, hsite.trans ?_⟩
  cases d.sites.get? target with
  | some site => rfl
  | none => cases d.path <;> rfl

end DepGraph.Manifest
