import DepGraph.Entity

/-!
# Sites

The places where the dependencies of one entity are written down, by dependency. Entries are
ascending by key, so equal maps are equal lists.
-/

namespace DepGraph

namespace Sites

def Ascending (entries : List (String × String)) : Prop :=
  entries.Pairwise fun a b => compare a.1 b.1 = .lt

/-- Puts an entry in its place, over one with the same key. -/
def insertEntry (key site : String) : List (String × String) → List (String × String)
  | [] => [(key, site)]
  | (k, s) :: rest =>
    match compare key k with
    | .lt => (key, site) :: (k, s) :: rest
    | .eq => (key, site) :: rest
    | .gt => (k, s) :: insertEntry key site rest

theorem mem_insertEntry {key site : String} {entries : List (String × String)}
    {e : String × String} (h : e ∈ insertEntry key site entries) :
    e = (key, site) ∨ e ∈ entries := by
  induction entries with
  | nil => simpa [insertEntry] using h
  | cons a rest ih =>
    obtain ⟨k, s⟩ := a
    unfold insertEntry at h
    split at h
    · simpa using h
    · rcases List.mem_cons.mp h with h | h
      · exact .inl h
      · exact .inr (List.mem_cons_of_mem _ h)
    · rcases List.mem_cons.mp h with h | h
      · exact .inr (h ▸ List.mem_cons_self)
      · rcases ih h with h | h
        · exact .inl h
        · exact .inr (List.mem_cons_of_mem _ h)

theorem ascending_insertEntry {key site : String} {entries : List (String × String)}
    (h : Ascending entries) : Ascending (insertEntry key site entries) := by
  induction entries with
  | nil => simp [insertEntry, Ascending]
  | cons a rest ih =>
    obtain ⟨k, s⟩ := a
    obtain ⟨hk, hrest⟩ := List.pairwise_cons.mp h
    unfold insertEntry
    split
    · rename_i hlt
      refine List.pairwise_cons.mpr ⟨?_, h⟩
      intro b hb
      rcases List.mem_cons.mp hb with rfl | hb
      · exact hlt
      · exact Std.TransCmp.lt_trans hlt (hk b hb)
    · rename_i heq
      have hkey : key = k := Std.LawfulEqOrd.compare_eq_iff_eq.mp heq
      exact List.pairwise_cons.mpr ⟨fun b hb => hkey ▸ hk b hb, hrest⟩
    · rename_i hgt
      refine List.pairwise_cons.mpr ⟨?_, ih hrest⟩
      intro b hb
      rcases mem_insertEntry hb with rfl | hb
      · exact Std.OrientedCmp.lt_of_gt hgt
      · exact hk b hb

end Sites

structure Sites where
  entries : List (String × String)
  ascending : Sites.Ascending entries
  deriving DecidableEq, Repr

namespace Sites

def empty : Sites := ⟨[], .nil⟩

def insert (m : Sites) (key site : String) : Sites :=
  ⟨insertEntry key site m.entries, ascending_insertEntry m.ascending⟩

/-- The map of some entries; of entries with one key the last counts. -/
def ofList (entries : List (String × String)) : Sites :=
  entries.foldl (fun m (key, site) => m.insert key site) empty

def get? (m : Sites) (key : String) : Option String := m.entries.lookup key

end Sites

end DepGraph
