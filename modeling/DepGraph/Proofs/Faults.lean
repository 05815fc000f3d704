import DepGraph.Proofs.Histories
import Mathlib.Data.List.Duplicate
import Mathlib.Data.List.Induction

/-!
# Faulty declarations

A table refuses a declaration for two reasons: its entity has been declared before, or its list
names a dependency twice. Having been mentioned as a dependency is no fault. Which declaration of a
sequence is the first faulty one can be read off the sequence alone.
-/

namespace DepGraph

variable {E : Type} [Entity E]

namespace Entity

variable {es : List E} {d : E}

structure LeastRepeated (es : List E) (d : E) : Prop where
  repeated : List.Duplicate d es
  least : ∀ x, List.Duplicate x es → x = d ∨ Below d x

theorem LeastRepeated.unique {d' : E} (h : LeastRepeated es d) (h' : LeastRepeated es d') :
    d = d' := by
  rcases h.least d' h'.repeated with heq | hlt
  · exact heq.symm
  · rcases h'.least d h.repeated with heq | hgt
    · exact heq
    · exact absurd hgt (below_asymm hlt)

theorem LeastRepeated.perm {ds : List E} (hp : es.Perm ds) (h : LeastRepeated es d) :
    LeastRepeated ds d := by
  classical
  have htwice (x : E) : List.Duplicate x es ↔ List.Duplicate x ds := by
    rw [List.duplicate_iff_two_le_count, List.duplicate_iff_two_le_count, hp.count_eq]
  exact ⟨(htwice d).mp h.repeated, fun x hx => h.least x ((htwice x).mpr hx)⟩

/-- In order, the first entity that equals its neighbour is the least that occurs twice. -/
theorem leastRepeated_of_adjacent? (hs : es.Pairwise fun a b => le a b = true)
    (h : repeated?.adjacent? es = some d) : LeastRepeated es d := by
  have hrises {a x : E} {rest : List E} (hr : (a :: rest).Pairwise fun a b => le a b = true)
      (hx : x ∈ a :: rest) : x = a ∨ Below a x := by
    by_cases hxa : x = a
    · exact Or.inl hxa
    · have hmem := (List.mem_cons.mp hx).resolve_left hxa
      exact Or.inr (below_of_isLE (List.rel_of_pairwise_cons hr hmem) (Ne.symm hxa))
  fun_induction repeated?.adjacent? es with
  | case1 a b rest hsame =>
    obtain rfl := same_iff.mp hsame
    obtain rfl := Option.some.inj h
    exact ⟨.cons_mem List.mem_cons_self, fun x hx => hrises hs hx.mem⟩
  | case2 a b rest hdiff ih =>
    have htail := ih hs.of_cons h
    refine ⟨htail.repeated.duplicate_cons a, fun x hx => ?_⟩
    apply htail.least
    apply hx.of_duplicate_cons
    intro hxa
    subst hxa
    have hne : x ≠ b := fun heq => hdiff (same_iff.mpr heq)
    have hlt : Below x b := below_of_isLE (List.rel_of_pairwise_cons hs List.mem_cons_self) hne
    rcases hrises hs.of_cons hx.mem_cons_self with heq | hgt
    · exact hne heq
    · exact below_asymm hlt hgt
  | case3 => cases h

theorem repeated?_eq_some_iff : repeated? es = some d ↔ LeastRepeated es d := by
  have hfound {x : E} (hx : repeated? es = some x) : LeastRepeated es x :=
    (leastRepeated_of_adjacent? (pairwise_mergeSort_compare (fun e : E => e) es) hx).perm
      (sort_perm es)
  constructor
  · exact hfound
  · intro h
    cases hx : repeated? es with
    | none => exact absurd (repeated?_eq_none_iff.mp hx) h.repeated.not_nodup
    | some x => rw [(hfound hx).unique h]

end Entity

/-- What is wrong with a declaration of `e` after those in `ds`. A second declaration is noticed
before a repeated dependency. -/
inductive Fault (ds : List (E × List E)) (e : E) (deps : List E) : GraphError E → Prop
  | declared : e ∈ ds.map (·.1) → Fault ds e deps (.duplicateEntity e)
  | repeated {d : E} : e ∉ ds.map (·.1) → Entity.LeastRepeated deps d →
      Fault ds e deps (.duplicateLink e d)

section Fault

variable {ds : List (E × List E)} {e : E} {deps : List E} {err : GraphError E}

theorem exists_fault_iff : (∃ err, Fault ds e deps err) ↔
    e ∈ ds.map (·.1) ∨ ∃ x, List.Duplicate x deps := by
  constructor
  · intro hfault
    obtain ⟨_, hfault⟩ := hfault
    cases hfault with
    | declared he => exact Or.inl he
    | repeated _ hd => exact Or.inr ⟨_, hd.repeated⟩
  · intro hbad
    by_cases he : e ∈ ds.map (·.1)
    · exact ⟨_, .declared he⟩
    · obtain ⟨x, hx⟩ := hbad.resolve_left he
      cases hd : Entity.repeated? deps with
      | none => exact absurd (Entity.repeated?_eq_none_iff.mp hd) hx.not_nodup
      | some d => exact ⟨_, .repeated he (Entity.repeated?_eq_some_iff.mp hd)⟩

theorem Fault.unique {err' : GraphError E} (h : Fault ds e deps err)
    (h' : Fault ds e deps err') : err = err' := by
  cases h with
  | declared he =>
    cases h' with
    | declared => rfl
    | repeated hnew _ => exact absurd he hnew
  | repeated hnew hd =>
    cases h' with
    | declared he => exact absurd he hnew
    | repeated _ hd' => rw [hd.unique hd']

theorem plain_append_iff_fault :
    Plain (ds ++ [(e, deps)]) ↔ Plain ds ∧ ¬ ∃ err, Fault ds e deps err := by
  rw [plain_append_iff, exists_fault_iff, List.exists_duplicate_iff_not_nodup, not_or, not_not]

/-- The declaration of `e` is the first faulty one of the sequence, and `err` is its fault. -/
def FirstFault (ds : List (E × List E)) (e : E) (err : GraphError E) : Prop :=
  ∃ before deps after, ds = before ++ (e, deps) :: after ∧ Plain before ∧ Fault before e deps err

theorem not_plain_of_fault {after : List (E × List E)} (h : Fault ds e deps err) :
    ¬ Plain (ds ++ (e, deps) :: after) := by
  intro hp
  rw [← List.singleton_append, ← List.append_assoc] at hp
  exact (plain_append_iff_fault.mp hp.of_append).2 ⟨err, h⟩

theorem Fault.length_le {before rest after : List (E × List E)} (h : Fault ds e deps err)
    (hp : Plain before) (hsame : ds ++ (e, deps) :: rest = before ++ after) :
    before.length ≤ ds.length := by
  by_contra hlong
  have hwhole : ds ++ [(e, deps)] <+: ds ++ (e, deps) :: rest := ⟨rest, by simp⟩
  have hinit : ds ++ [(e, deps)] <+: before := by
    apply List.prefix_of_prefix_length_le hwhole ⟨after, hsame.symm⟩
    rw [List.length_append, List.length_singleton]
    omega
  obtain ⟨tail, rfl⟩ := hinit
  rw [List.append_assoc] at hp
  exact not_plain_of_fault h hp

theorem FirstFault.unique {e' : E} {err' : GraphError E} (h : FirstFault ds e err)
    (h' : FirstFault ds e' err') : e = e' ∧ err = err' := by
  obtain ⟨before, deps, after, rfl, hplain, hfault⟩ := h
  obtain ⟨before', deps', after', hsame, hplain', hfault'⟩ := h'
  have hle := hfault.length_le hplain' hsame
  have hge := hfault'.length_le hplain hsame.symm
  obtain ⟨rfl, hrest⟩ := List.append_inj hsame (Nat.le_antisymm hge hle)
  obtain ⟨rfl, rfl⟩ := Prod.mk.inj (List.cons.inj hrest).1
  exact ⟨rfl, hfault.unique hfault'⟩

theorem exists_firstFault_iff : (∃ e err, FirstFault ds e err) ↔ ¬ Plain ds := by
  constructor
  · intro h
    obtain ⟨e, err, before, deps, after, rfl, _, hfault⟩ := h
    exact not_plain_of_fault hfault
  · intro h
    induction ds using List.reverseRecOn with
    | nil => exact absurd plain_nil h
    | append_singleton ds d ih =>
      by_cases hp : Plain ds
      · rw [plain_append_iff_fault, not_and, not_not] at h
        obtain ⟨err, hfault⟩ := h hp
        exact ⟨d.1, err, ds, d.2, [], rfl, hp, hfault⟩
      · obtain ⟨e, err, before, deps, after, rfl, hplain, hfault⟩ := ih hp
        exact ⟨e, err, before, deps, after ++ [d], by simp, hplain, hfault⟩

theorem not_plain_iff : ¬ Plain ds ↔ ∃ before e deps after, ds = before ++ (e, deps) :: after ∧
    (e ∈ before.map (·.1) ∨ ∃ x, List.Duplicate x deps) := by
  constructor
  · intro h
    obtain ⟨e, err, before, deps, after, hds, _, hfault⟩ := exists_firstFault_iff.mpr h
    exact ⟨before, e, deps, after, hds, exists_fault_iff.mp ⟨err, hfault⟩⟩
  · intro h
    obtain ⟨before, e, deps, after, rfl, hbad⟩ := h
    obtain ⟨err, hfault⟩ := exists_fault_iff.mpr hbad
    exact not_plain_of_fault hfault

end Fault

namespace Table

variable {t : Table E} {ds : List (E × List E)} {e : E} {deps : List E} {err : GraphError E}

theorem add_error_iff (hr : Records ds t) :
    (t.add e deps).1 = .error err ↔ Fault ds e deps err := by
  have hknown : t.isDeclared e = true ↔ e ∈ ds.map (·.1) := by
    rw [isDeclared_iff hr]
    simp
  rw [add, hr.unfrozen, if_neg Bool.false_ne_true]
  by_cases he : e ∈ ds.map (·.1)
  · rw [if_pos (hknown.mpr he)]
    constructor
    · intro h
      obtain rfl := Except.error.inj h
      exact .declared he
    · intro h
      cases h with
      | declared _ => rfl
      | repeated hnew _ => exact absurd he hnew
  · rw [if_neg (fun hdec => he (hknown.mp hdec))]
    cases hd : Entity.repeated? deps with
    | none =>
      constructor
      · intro h
        cases h
      · intro h
        cases h with
        | declared hold => exact absurd hold he
        | repeated _ hleast =>
          rw [Entity.repeated?_eq_some_iff.mpr hleast] at hd
          cases hd
    | some d =>
      have hleast := Entity.repeated?_eq_some_iff.mp hd
      constructor
      · intro h
        obtain rfl := Except.error.inj h
        exact .repeated he hleast
      · intro h
        cases h with
        | declared hold => exact absurd hold he
        | repeated _ hother => rw [hleast.unique hother]

end Table

end DepGraph
