import DepGraph.Proofs.ClusterListing

/-!
# Policies on clusters

A policy says which entities may depend on each other in a circle. The check goes through clusters,
yet it decides about declared cycles: it passes exactly if every entity on one is admitted, and
otherwise reports, of the components with an entity that is not, the one that starts lowest.
-/

namespace DepGraph

variable {E : Type} {ds : List (E × List E)}

/-- The entity is one of two or more that are declared to depend on each other in a circle. -/
def LiesOnCycle (ds : List (E × List E)) (e : E) : Prop :=
  ∃ l, Cycle.Around (Declares ds) l ∧ e ∈ l

theorem liesOnCycle_iff {e : E} : LiesOnCycle ds e ↔ ∃ d, e ≠ d ∧ Mutual ds e d := by
  constructor
  · intro h
    obtain ⟨l, hl, he⟩ := h
    have hdepends : Cycle.Around (DependsOn ds) l :=
      ⟨hl.long, hl.nodup, fun p hp => ⟨hl.linked p hp, (hl.apart hp).symm⟩⟩
    obtain ⟨d, hed, hde⟩ := Relation.TransGen.head'_iff.mp (hdepends.leads he he)
    exact ⟨d, hed.2.symm, .single hed, hde⟩
  · intro h
    obtain ⟨d, hne, hed, hde⟩ := h
    obtain ⟨c, hec, hcd⟩ := (Relation.ReflTransGen.cases_head hed).resolve_left hne
    obtain ⟨l, hl, he⟩ := Cycle.exists_around hec hec.2.symm (hcd.trans hde)
    exact ⟨l, ⟨hl.long, hl.nodup, fun p hp => (hl.linked p hp).1⟩, he⟩

theorem rejects_iff {admits : E → Bool} {es : List E} :
    (!(es.filter (!admits ·)).isEmpty) = true ↔ ∃ e ∈ es, admits e = false := by
  simp

variable [Entity E]

/-- Of the strongly connected components with an entity on a cycle that is not admitted, `members`
is the one that starts lowest, and `rejected` are those of it that are not admitted. -/
structure Offends (ds : List (E × List E)) (admits : E → Bool) (members rejected : List E) :
    Prop where
  ascending : Entity.Ascending members
  component : ∀ a ∈ members, ∀ b, b ∈ members ↔ Mutual ds a b
  offender : ∃ e ∈ members, LiesOnCycle ds e ∧ admits e = false
  lowest : ∀ e, LiesOnCycle ds e → admits e = false →
    e ∈ members ∨ ∃ a ∈ members, ∀ x, Mutual ds e x → Entity.Below a x
  rejectedAscending : Entity.Ascending rejected
  rejected : ∀ e, e ∈ rejected ↔ e ∈ members ∧ admits e = false

namespace Offends

variable {admits : E → Bool} {ms ns rs qs : List E}

theorem eq_of_mem (h : Offends ds admits ms rs) (k : Offends ds admits ns qs) {e : E}
    (he : e ∈ ms) (he' : e ∈ ns) : ms = ns := by
  apply h.ascending.eq_of_mem_iff k.ascending
  intro x
  rw [h.component e he, k.component e he']

theorem unique (h : Offends ds admits ms rs) (k : Offends ds admits ns qs) :
    ms = ns ∧ rs = qs := by
  have hsame : ms = ns := by
    obtain ⟨e, he, hcycle, hnot⟩ := h.offender
    obtain ⟨d, hd, hcycle', hnot'⟩ := k.offender
    rcases k.lowest e hcycle hnot with he' | ⟨b, hb, hbelow⟩
    · exact h.eq_of_mem k he he'
    · rcases h.lowest d hcycle' hnot' with hd' | ⟨a, ha, habove⟩
      · exact h.eq_of_mem k hd' hd
      · have hba := hbelow a ((h.component e he a).mp ha)
        have hab := habove b ((k.component d hd b).mp hb)
        exact absurd hab (Entity.below_asymm hba)
  refine ⟨hsame, h.rejectedAscending.eq_of_mem_iff k.rejectedAscending ?_⟩
  intro x
  rw [h.rejected, k.rejected, hsame]

end Offends

namespace Resolution

variable {r : Resolution E} {admits : E → Bool} {ms : List E}

theorem checkClusters_eq : r.checkClusters admits =
    match r.clusters.find? fun ms => !(ms.filter (!admits ·)).isEmpty with
    | none => .ok ()
    | some ms => .error (.illegalCluster ms (ms.filter (!admits ·))) := rfl

namespace Sound

theorem mem_cluster_iff (h : r.Sound ds) {e : E} :
    (∃ ms ∈ r.clusters, e ∈ ms) ↔ LiesOnCycle ds e := by
  rw [liesOnCycle_iff]
  constructor
  · intro hmem
    obtain ⟨ms, hms, he⟩ := hmem
    obtain ⟨hasc, hlarge, hclass⟩ := h.mem_clusters_iff.mp hms
    have hmore : ms ≠ [e] := by
      intro heq
      simp [heq] at hlarge
    rcases (hasc.nodup.ne_singleton_iff e).mp hmore with hnil | ⟨d, hd, hne⟩
    · simp [hnil] at hlarge
    · exact ⟨d, hne.symm, (hclass e he d).mp hd⟩
  · intro hother
    obtain ⟨d, hne, hmut⟩ := hother
    obtain ⟨ms, hms, he, _⟩ := (h.clusters_mutual hne).mpr hmut
    exact ⟨ms, hms, he⟩

/-- The first cluster with a member that is not admitted starts below any other such. -/
theorem offends (h : r.Sound ds)
    (hf : r.clusters.find? (fun ms => !(ms.filter (!admits ·)).isEmpty) = some ms) :
    Offends ds admits ms (ms.filter (!admits ·)) := by
  obtain ⟨hms, before, after, hsplit, hbefore⟩ := List.find?_eq_some_iff_append.mp hf
  have hmem : ms ∈ r.clusters := by
    rw [hsplit]
    exact List.mem_append_right _ List.mem_cons_self
  obtain ⟨hasc, _, hclass⟩ := h.mem_clusters_iff.mp hmem
  constructor
  case ascending => exact hasc
  case component => exact hclass
  case offender =>
    obtain ⟨e, he, hnot⟩ := rejects_iff.mp hms
    exact ⟨e, he, h.mem_cluster_iff.mp ⟨ms, hmem, he⟩, hnot⟩
  case lowest =>
    intro e hcycle hnot
    obtain ⟨ns, hns, he⟩ := h.mem_cluster_iff.mpr hcycle
    obtain ⟨hasc', _, hclass'⟩ := h.mem_clusters_iff.mp hns
    have hordered := h.clusters_ordered
    rw [hsplit] at hns hordered
    rcases List.mem_append.mp hns with hns | hns
    · have hrejects := rejects_iff.mpr ⟨e, he, hnot⟩
      have hpassed := hbefore ns hns
      rw [hrejects] at hpassed
      cases hpassed
    · rcases List.mem_cons.mp hns with heq | hns
      · exact Or.inl (heq ▸ he)
      · right
        have hlater := (List.pairwise_append.mp hordered).2.1
        obtain ⟨a, b, ha, hb, hab⟩ := List.rel_of_pairwise_cons hlater hns
        obtain ⟨rest, rfl⟩ := List.head?_eq_some_iff.mp hb
        refine ⟨a, List.mem_of_mem_head? ha, ?_⟩
        intro x hx
        rcases List.mem_cons.mp ((hclass' e he x).mpr hx) with heq | hx
        · exact heq ▸ hab
        · exact Entity.below_trans hab (List.rel_of_pairwise_cons hasc' hx)
  case rejectedAscending => exact hasc.filter _
  case rejected => simp

theorem checkClusters_ok_iff (h : r.Sound ds) :
    r.checkClusters admits = .ok () ↔ ∀ e, LiesOnCycle ds e → admits e = true := by
  rw [checkClusters_eq]
  cases hf : r.clusters.find? fun ms => !(ms.filter (!admits ·)).isEmpty with
  | none =>
    refine iff_of_true rfl ?_
    intro e hcycle
    obtain ⟨ms, hms, he⟩ := h.mem_cluster_iff.mpr hcycle
    by_contra hnot
    exact List.find?_eq_none.mp hf ms hms (rejects_iff.mpr ⟨e, he, by simpa using hnot⟩)
  | some ms =>
    obtain ⟨e, _, hcycle, hnot⟩ := (h.offends hf).offender
    refine iff_of_false (by simp) ?_
    intro hall
    rw [hall e hcycle] at hnot
    cases hnot

theorem checkClusters_error (h : r.Sound ds) {err : GraphError E}
    (herr : r.checkClusters admits = .error err) :
    ∃ members rejected, err = .illegalCluster members rejected ∧
      Offends ds admits members rejected := by
  rw [checkClusters_eq] at herr
  cases hf : r.clusters.find? fun ms => !(ms.filter (!admits ·)).isEmpty with
  | none =>
    rw [hf] at herr
    cases herr
  | some ms =>
    rw [hf] at herr
    exact ⟨ms, _, (Except.error.inj herr).symm, h.offends hf⟩

end Sound

/-- A policy passes exactly if it admits every entity on a cycle. Any other is refused with the
component that starts lowest among those with an entity not admitted, and with those entities. -/
theorem checkClusters_exact {calls : List (E × List E)} {o : Options} {r : Resolution E}
    (h : (Table.ofCalls calls).resolve o = .ok r) (admits : E → Bool) :
    (r.checkClusters admits = .ok () ↔
      ∀ e, LiesOnCycle (Table.taken calls) e → admits e = true) ∧
    ∀ err, r.checkClusters admits = .error err ↔ ∃ members rejected,
      err = .illegalCluster members rejected ∧
        Offends (Table.taken calls) admits members rejected := by
  have hs := Table.resolve_sound (Table.ofCalls_records calls) h
  refine ⟨hs.checkClusters_ok_iff, fun err => ⟨hs.checkClusters_error, ?_⟩⟩
  intro hoffends
  obtain ⟨members, rejected, rfl, hoffends⟩ := hoffends
  cases hcheck : r.checkClusters admits with
  | ok =>
    obtain ⟨e, _, hcycle, hnot⟩ := hoffends.offender
    rw [hs.checkClusters_ok_iff.mp hcheck e hcycle] at hnot
    cases hnot
  | error err =>
    obtain ⟨ms, rs, rfl, hfound⟩ := hs.checkClusters_error hcheck
    obtain ⟨rfl, rfl⟩ := hfound.unique hoffends
    rfl

/-- Two pairs that need each other, and a policy that admits one entity of each. -/
theorem checkClusters_exact_pairs : ∃ r,
    (Table.ofCalls [((4 : Int), [3]), (3, [4]), (2, [1, 4]), (1, [2])]).resolve {} = .ok r ∧
      ∃ members rejected,
        r.checkClusters (fun e => e == 1 || e == 4) = .error (.illegalCluster members rejected) ∧
        Offends (Table.taken [((4 : Int), [3]), (3, [4]), (2, [1, 4]), (1, [2])])
          (fun e => e == 1 || e == 4) members rejected := by
  obtain ⟨r, hr⟩ := Table.resolve_default
    (Table.ofCalls_records [((4 : Int), [3]), (3, [4]), (2, [1, 4]), (1, [2])])
  have htaken : Table.taken [((4 : Int), [3]), (3, [4]), (2, [1, 4]), (1, [2])] =
      [(4, [3]), (3, [4]), (2, [1, 4]), (1, [2])] := Table.taken_eq (by decide) (by decide)
  obtain ⟨hok, herror⟩ := checkClusters_exact hr fun e => e == 1 || e == 4
  have hcycle : LiesOnCycle [((4 : Int), [3]), (3, [4]), (2, [1, 4]), (1, [2])] 2 := by
    refine ⟨[2, 1], ⟨by decide, by decide, ?_⟩, by simp⟩
    intro p hp
    obtain rfl | rfl : p = (2, 1) ∨ p = (1, 2) := by simpa [Cycle.pairs] using hp
    · exact ⟨[1, 4], by simp, by simp⟩
    · exact ⟨[2], by simp, by simp⟩
  rw [← htaken] at hcycle
  cases hcheck : r.checkClusters fun e => e == 1 || e == 4 with
  | ok =>
    have hadmitted := hok.mp hcheck 2 hcycle
    cases hadmitted
  | error err =>
    obtain ⟨members, rejected, rfl, hoffends⟩ := (herror err).mp hcheck
    exact ⟨r, hr, members, rejected, hcheck, hoffends⟩

end Resolution

end DepGraph
