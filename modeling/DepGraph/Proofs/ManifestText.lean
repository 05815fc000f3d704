import DepGraph.Manifest.Format
import DepGraph.Proofs.JsonText

/-!
# Reading back what is written as a manifest

A manifest written as data reads back as itself: every field that may be left out is left out just
where its default stands for it, and sites are written in the order their map keeps them in. Its
JSON text gives the data back whatever characters the strings hold.
-/

namespace DepGraph

theorem mapM_eq_some {α β : Type} {f : β → Option α} {g : α → β} (h : ∀ a, f (g a) = some a)
    (as : List α) : (as.map g).mapM f = some as := by
  induction as with
  | nil => rfl
  | cons a as ih => simp [h, ih]

theorem Value.texts?_texts (ss : List String) : (Value.texts ss).texts? = some ss :=
  mapM_eq_some (f := Value.text?) (g := Value.text) (fun _ => rfl) ss

namespace Sites

theorem eq_of_entries {m m' : Sites} (h : m.entries = m'.entries) : m = m' := by
  cases m
  cases m'
  cases h
  rfl

theorem insertEntry_last {key site : String} {entries : List (String × String)}
    (h : ∀ e ∈ entries, compare e.1 key = .lt) :
    insertEntry key site entries = entries ++ [(key, site)] := by
  induction entries with
  | nil => rfl
  | cons e entries ih =>
    obtain ⟨k, s⟩ := e
    rw [List.forall_mem_cons] at h
    have hgt : compare key k = .gt := Std.OrientedCmp.gt_of_lt h.1
    rw [insertEntry, hgt]
    simp only [ih h.2, List.cons_append]

theorem foldl_insert {m : Sites} {entries : List (String × String)}
    (h : Ascending (m.entries ++ entries)) :
    (entries.foldl (fun m e => m.insert e.1 e.2) m).entries = m.entries ++ entries := by
  induction entries generalizing m with
  | nil => simp
  | cons e entries ih =>
    have hlast : (m.insert e.1 e.2).entries = m.entries ++ [e] :=
      insertEntry_last fun a ha => (List.pairwise_append.mp h).2.2 a ha e List.mem_cons_self
    have hrest : (m.insert e.1 e.2).entries ++ entries = m.entries ++ e :: entries := by
      rw [hlast, List.append_assoc, List.singleton_append]
    rw [List.foldl_cons, ih (hrest ▸ h), hrest]

theorem ofList_entries (m : Sites) : ofList m.entries = m :=
  eq_of_entries (foldl_insert m.ascending)

theorem ofValue?_toValue (m : Sites) : ofValue? m.toValue = some m := by
  have hread := mapM_eq_some (f := fun e : String × Value => e.2.text?.map (e.1, ·))
    (g := fun e : String × String => (e.1, Value.text e.2)) (fun _ => rfl) m.entries
  rw [ofValue?, toValue, Value.table?, Option.bind_eq_bind, Option.bind_some]
  simp only [hread]
  exact congrArg some m.ofList_entries

theorem writable (m : Sites) : Json.Writable m.toValue := by
  refine .table fun f hf => ?_
  obtain ⟨e, _, rfl⟩ := List.mem_map.mp hf
  exact .text e.2

end Sites

theorem Mode.ofName?_name (m : Mode) : Mode.ofName? m.name = some m := by
  cases m <;> decide

namespace Options

variable (o : Options)

theorem record?_toValue (surplus : Bool) :
    o.toValue.record? surplus ["mode", "check_self_loops"] =
      some [some (.text o.mode.name), some (.bool o.checkSelfLoops)] := rfl

theorem ofValue?_toValue (f : Format) : ofValue? f o.toValue = some o := by
  simp only [ofValue?, record?_toValue, Value.readOr, Mode.ofValue?, Mode.ofName?_name, Value.bool?]
  rfl

theorem writable : Json.Writable o.toValue := by
  refine .table fun f hf => ?_
  rcases List.mem_pair.mp hf with rfl | rfl
  · exact .text _
  · exact .bool _

end Options

namespace Declaration

variable (d : Declaration)

theorem record?_toValue (surplus : Bool) :
    d.toValue.record? surplus ["id", "deps", "public", "path", "sites"] =
      some [some (.text d.id), some (.texts d.deps), some (.bool d.isPublic), d.path.map .text,
        if d.sites.entries.isEmpty then none else some d.sites.toValue] := by
  rw [toValue]
  cases d.path <;> split <;> rfl

theorem readOr_path :
    Value.readOr none pathOfValue? (d.path.map .text) = some d.path := by
  cases d.path <;> rfl

theorem readOr_sites : Value.readOr .empty Sites.ofValue?
    (if d.sites.entries.isEmpty then none else some d.sites.toValue) = some d.sites := by
  split
  · rename_i hnone
    exact congrArg some (Sites.eq_of_entries (List.isEmpty_iff.mp hnone).symm)
  · exact d.sites.ofValue?_toValue

theorem ofValue?_toValue (f : Format) : ofValue? f d.toValue = some d := by
  simp only [ofValue?, record?_toValue, readOr_path, readOr_sites]
  simp only [Value.readOr, Value.text?, Value.texts?_texts, Value.bool?]
  rfl

theorem writable : Json.Writable d.toValue := by
  refine .table fun f hf => ?_
  simp only [List.mem_append, List.mem_cons, List.not_mem_nil, or_false, Option.mem_toList,
    Option.map_eq_some_iff] at hf
  rcases hf with ((rfl | rfl | rfl) | hpath) | hsites
  · exact .text d.id
  · exact .list fun v hv => by
      obtain ⟨s, _, rfl⟩ := List.mem_map.mp hv
      exact .text s
  · exact .bool d.isPublic
  · obtain ⟨path, _, rfl⟩ := hpath
    exact .text path
  · split at hsites
    · cases hsites
    · obtain rfl := List.mem_singleton.mp hsites
      exact d.sites.writable

end Declaration

namespace Manifest

variable (m : Manifest)

theorem record?_toValue (surplus : Bool) : m.toValue.record? surplus ["settings", "entity"] =
    some [some m.settings.toValue, some (.list (m.entities.map (·.toValue)))] := rfl

theorem ofValue?_toValue (f : Format) : ofValue? f m.toValue = some m := by
  have hentities : Declaration.listOfValue? f (.list (m.entities.map (·.toValue))) =
      some m.entities :=
    mapM_eq_some (fun d => d.ofValue?_toValue f) m.entities
  simp only [ofValue?, record?_toValue, Value.readOr, Options.ofValue?_toValue, hentities]
  rfl

theorem writable : Json.Writable m.toValue := by
  refine .table fun f hf => ?_
  rcases List.mem_pair.mp hf with rfl | rfl
  · exact m.settings.writable
  · refine .list fun v hv => ?_
    obtain ⟨d, _, rfl⟩ := List.mem_map.mp hv
    exact d.writable

/-- A manifest reads back from its data and from its text as it was written. -/
theorem parse?_render_toValue :
    ofValue? .json m.toValue = some m ∧ parse? .json (Json.render m.toValue) = some m := by
  have hread : Format.json.parse? (Json.render m.toValue) = some m.toValue :=
    Json.parse?_render m.writable
  refine ⟨m.ofValue?_toValue .json, ?_⟩
  rw [parse?, hread, Option.bind_some, m.ofValue?_toValue]

end Manifest

end DepGraph
