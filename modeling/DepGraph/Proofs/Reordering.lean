import DepGraph.Proofs.Statistics
import Mathlib.Data.List.Permutation

/-!
# The order of declarations does not matter

Nodes, vertices, components and groups are all numbered by order of declaration, and the searches
start where the numbers say. Yet every answer is settled by what is declared: a rank by the ranks
it has to lie above, a listing by its members and their order, a count by what it counts. Two
resolutions of declarations that say the same therefore answer the same. Which cycle is found may
depend on the order, unless there is only one to find.
-/

namespace DepGraph

variable {E : Type} {ds ds' : List (E × List E)}

/-- The same declarations in another order, each with its dependencies in another order. -/
def Reordered (ds ds' : List (E × List E)) : Prop :=
  ∃ mid, ds.Perm mid ∧ List.Forall₂ (fun d d' => d.1 = d'.1 ∧ d.2.Perm d'.2) mid ds'

namespace Reordered

theorem symm (h : Reordered ds ds') : Reordered ds' ds := by
  obtain ⟨mid, hperm, hmatch⟩ := h
  obtain ⟨other, hother, hback⟩ := List.perm_comp_forall₂ hperm hmatch
  refine ⟨other, hback.symm, List.Forall₂.flip (hother.imp fun d d' hsame => ?_)⟩
  exact ⟨hsame.1.symm, hsame.2.symm⟩

theorem exists_right (h : Reordered ds ds') {d : E × List E} (hd : d ∈ ds) :
    ∃ d' ∈ ds', d.1 = d'.1 ∧ d.2.Perm d'.2 := by
  obtain ⟨mid, hperm, hmatch⟩ := h
  have hmid := hperm.mem_iff.mp hd
  clear hperm hd
  induction hmatch with
  | nil => cases hmid
  | @cons x y xs ys hxy _ ih =>
    rcases List.mem_cons.mp hmid with heq | hmid
    · subst heq
      exact ⟨y, List.mem_cons_self, hxy⟩
    · obtain ⟨d', hmem, hsame⟩ := ih hmid
      exact ⟨d', List.mem_cons_of_mem y hmem, hsame⟩

theorem entities_perm (h : Reordered ds ds') : (ds.map (·.1)).Perm (ds'.map (·.1)) := by
  obtain ⟨mid, hperm, hmatch⟩ := h
  have hsame : mid.map (·.1) = ds'.map (·.1) := by
    clear hperm
    induction hmatch with
    | nil => rfl
    | cons hxy _ ih => rw [List.map_cons, List.map_cons, hxy.1, ih]
  rw [← hsame]
  exact hperm.map _

end Reordered

/-- The two lists mention the same entities and declare the same dependencies. -/
structure Alike (ds ds' : List (E × List E)) : Prop where
  known : ∀ e, e ∈ mentions ds ↔ e ∈ mentions ds'
  declares : ∀ a b, Declares ds a b ↔ Declares ds' a b

theorem Reordered.mentioned (h : Reordered ds ds') {e : E} (he : e ∈ mentions ds) :
    e ∈ mentions ds' := by
  obtain ⟨d, hd, he⟩ := List.mem_flatMap.mp he
  obtain ⟨d', hd', hfst, hsnd⟩ := h.exists_right hd
  refine List.mem_flatMap.mpr ⟨d', hd', ?_⟩
  rwa [List.mem_cons, ← hfst, ← hsnd.mem_iff, ← List.mem_cons]

theorem Reordered.declared (h : Reordered ds ds') {a b : E} (hab : Declares ds a b) :
    Declares ds' a b := by
  obtain ⟨deps, hdecl, hb⟩ := hab
  obtain ⟨⟨a', deps'⟩, hd', hfst, hsnd⟩ := h.exists_right hdecl
  obtain rfl : a = a' := hfst
  exact ⟨deps', hd', hsnd.mem_iff.mp hb⟩

theorem Reordered.alike (h : Reordered ds ds') : Alike ds ds' :=
  ⟨fun _ => ⟨h.mentioned, h.symm.mentioned⟩, fun _ _ => ⟨h.declared, h.symm.declared⟩⟩

namespace Alike

theorem dependsOn_eq (h : Alike ds ds') : DependsOn ds = DependsOn ds' := by
  funext a b
  rw [DependsOn, DependsOn, h.declares]

theorem mutual_eq (h : Alike ds ds') : Mutual ds = Mutual ds' := by
  unfold Mutual Reaches
  rw [h.dependsOn_eq]

theorem joined_eq (h : Alike ds ds') : Joined ds = Joined ds' := by
  unfold Joined
  rw [h.dependsOn_eq]

theorem lone_eq (h : Alike ds ds') : Lone ds = Lone ds' := by
  unfold Lone
  rw [h.dependsOn_eq]

theorem cyclic_eq (h : Alike ds ds') : Cyclic ds = Cyclic ds' := by
  unfold Cyclic
  rw [h.dependsOn_eq]

theorem external_iff (h : Alike ds ds') {e d : E} : External ds e d ↔ External ds' e d := by
  rw [External, External, h.mutual_eq, h.dependsOn_eq]

theorem symm (h : Alike ds ds') : Alike ds' ds :=
  ⟨fun e => (h.known e).symm, fun a b => (h.declares a b).symm⟩

end Alike

variable [Entity E] {t t' : Table E} {r r' : Resolution E}

namespace Resolution.Sound

variable (hd : Alike ds ds') (h : r.Sound ds) (h' : r'.Sound ds')

include hd h h'

/-- A rank is settled by the ranks it has to lie above, so it is the same in both. -/
theorem rankOf?_eq_some (n : Nat) (e : E) (hn : r.rankOf? e = some n) :
    r'.rankOf? e = some n := by
  induction n using Nat.strongRecOn generalizing e with
  | _ n ih =>
    have hknown := h.rankOf?_isSome.mp (by rw [hn]; rfl)
    obtain ⟨m, hm, hrank⟩ := h.rankOf_known hknown
    obtain rfl : n = m := Option.some.inj (hn.symm.trans hm)
    obtain ⟨n', hn', hrank'⟩ := h'.rankOf_known ((hd.known e).mp hknown)
    have hle : n ≤ n' := by
      rcases hrank.attained with hzero | ⟨d, k, hext, hk, hrise⟩
      · omega
      · obtain ⟨k', hk', hlt⟩ := hrank'.above d (hd.external_iff.mp hext)
        have hsame := ih k (by omega) d hk
        have hkk : k' = k := Option.some.inj (hk'.symm.trans hsame)
        omega
    have hge : n' ≤ n := by
      rcases hrank'.attained with hzero | ⟨d, k', hext, hk', hrise⟩
      · omega
      · obtain ⟨k, hk, hlt⟩ := hrank.above d (hd.external_iff.mpr hext)
        have hsame := ih k hlt d hk
        have hkk : k' = k := Option.some.inj (hk'.symm.trans hsame)
        omega
    rw [hn', Nat.le_antisymm hge hle]

theorem rankOf?_eq (e : E) : r.rankOf? e = r'.rankOf? e := by
  cases hr : r.rankOf? e with
  | some n => rw [rankOf?_eq_some hd h h' n e hr]
  | none =>
    cases hr' : r'.rankOf? e with
    | none => rfl
    | some n =>
      have hback := rankOf?_eq_some hd.symm h' h n e hr'
      rw [hr] at hback
      cases hback

theorem clusters_eq : r.clusters = r'.clusters := by
  refine Entity.eq_of_keys_ordered h.clusters_ordered h'.clusters_ordered fun ms => ?_
  rw [h.mem_clusters_iff, h'.mem_clusters_iff, hd.mutual_eq]

theorem depth_eq : r.depth = r'.depth := by
  refine eq_of_forall_lt_iff fun k => ?_
  rw [h.lt_depth_iff, h'.lt_depth_iff]
  simp only [rankOf?_eq hd h h']

theorem entriesAt_eq (k : Nat) : Entity.sortBy CohortEntry.head? (r.entriesAt k) =
    Entity.sortBy CohortEntry.head? (r'.entriesAt k) := by
  refine Entity.eq_of_keys_ordered (h.entries_ordered k) (h'.entries_ordered k) fun x => ?_
  rw [(Entity.sortBy_perm _ _).mem_iff, (Entity.sortBy_perm _ _).mem_iff]
  cases x with
  | entity e =>
    rw [h.entity_mem_entriesAt, h'.entity_mem_entriesAt, rankOf?_eq hd h h', clusters_eq hd h h']
  | cluster ms =>
    rw [h.cluster_mem_entriesAt, h'.cluster_mem_entriesAt, clusters_eq hd h h']
    simp only [rankOf?_eq hd h h']

theorem cohortEntries_eq : r.cohortEntries = r'.cohortEntries := by
  rw [cohortEntries, cohortEntries, depth_eq hd h h']
  exact List.map_congr_left fun k _ => entriesAt_eq hd h h' k

theorem prune_eq (publics : List E) :
    (r.prune publics).entities = (r'.prune publics).entities := by
  refine (h.prune_ascending publics).eq_of_mem_iff (h'.prune_ascending publics) fun e => ?_
  rw [h.mem_prune, h'.mem_prune, hd.known, hd.joined_eq]

theorem connected_perm : r.connected.Perm r'.connected := by
  refine (List.perm_ext_iff_of_nodup h.connected_nodup h'.connected_nodup).mpr fun es => ?_
  rw [h.mem_connected, h'.mem_connected, hd.lone_eq, hd.joined_eq]

/-- Each counted list has the same members in both, in whatever order. -/
theorem stats_alike : r.stats = r'.stats := by
  have hnames : r.table.names.Perm r'.table.names := by
    refine (List.perm_ext_iff_of_nodup h.built.indexed.names_nodup
      h'.built.indexed.names_nodup).mpr fun e => ?_
    rw [h.built.mem_names, h'.built.mem_names, hd.known]
  have harcs : r.table.arcs.Perm r'.table.arcs := by
    refine (List.perm_ext_iff_of_nodup h.built.arcs_nodup h'.built.arcs_nodup).mpr fun arc => ?_
    obtain ⟨a, b⟩ := arc
    rw [h.built.mem_arcs, h'.built.mem_arcs, hd.dependsOn_eq]
  have hisolated : r.isolated.Perm r'.isolated := by
    refine (List.perm_ext_iff_of_nodup h.isolated_nodup h'.isolated_nodup).mpr fun e => ?_
    rw [h.mem_isolated, h'.mem_isolated, hd.known, hd.lone_eq]
  have hloops : r.selfLoops.Perm r'.selfLoops := by
    refine (List.perm_ext_iff_of_nodup h.built.selfLoops_nodup
      h'.built.selfLoops_nodup).mpr fun e => ?_
    exact h.built.mem_selfLoops.trans ((hd.declares e e).trans h'.built.mem_selfLoops.symm)
  have hconnected := connected_perm hd h h'
  have hmax : (r.connected.map List.length).foldl max 0 =
      (r'.connected.map List.length).foldl max 0 :=
    (hconnected.map List.length).foldl_eq 0
  rw [h.stats_eq, h'.stats_eq, hnames.length_eq, harcs.length_eq, hisolated.length_eq,
    hloops.length_eq, hconnected.length_eq, hmax, clusters_eq hd h h', depth_eq hd h h']

end Resolution.Sound

structure Resolution.SameAnswers (r r' : Resolution E) : Prop where
  cohorts : r.cohorts = r'.cohorts
  cohortEntries : r.cohortEntries = r'.cohortEntries
  clusters : r.clusters = r'.clusters
  stats : r.stats = r'.stats
  rankOf : ∀ e, r.rankOf? e = r'.rankOf? e
  prune : ∀ publics, (r.prune publics).entities = (r'.prune publics).entities

theorem Resolution.Sound.sameAnswers (hd : Alike ds ds') (h : r.Sound ds) (h' : r'.Sound ds') :
    r.SameAnswers r' := by
  have hentries := cohortEntries_eq hd h h'
  exact ⟨by rw [cohorts, cohorts, hentries], hentries, clusters_eq hd h h', stats_alike hd h h',
    rankOf?_eq hd h h', prune_eq hd h h'⟩

namespace Table

theorem resolve_loop (hr : Records ds t) {o : Options} (h : SelfLoopRefused o ds) :
    ∃ e, t.resolve o = .error (.selfLoop e) := by
  obtain ⟨e, he⟩ := exists_firstSelfLoop h.2
  exact ⟨e, (resolve_selfLoop_iff hr).mpr ⟨h.1, he⟩⟩

theorem resolve_alike (hd : Alike ds ds') (h : Records ds t) (h' : Records ds' t') (o : Options) :
    (∃ err err', t.resolve o = .error err ∧ t'.resolve o = .error err' ∧ err.code = err'.code) ∨
      ∃ r r', t.resolve o = .ok r ∧ t'.resolve o = .ok r' ∧ r.SameAnswers r' := by
  have hloops : SelfLoopRefused o ds ↔ SelfLoopRefused o ds' := by
    simp only [SelfLoopRefused, hd.declares]
  by_cases hloop : SelfLoopRefused o ds
  · obtain ⟨e, he⟩ := resolve_loop h hloop
    obtain ⟨e', he'⟩ := resolve_loop h' (hloops.mp hloop)
    exact Or.inl ⟨_, _, he, he', rfl⟩
  · by_cases hcyc : o.mode = .strictAcyclic ∧ Cyclic ds
    · obtain ⟨c, hc⟩ := (resolve_cycle_iff h).mpr ⟨hloop, hcyc⟩
      obtain ⟨c', hc'⟩ := (resolve_cycle_iff h').mpr ⟨hloops.not.mp hloop, hd.cyclic_eq ▸ hcyc⟩
      exact Or.inl ⟨_, _, hc, hc', rfl⟩
    · obtain ⟨r, hr⟩ := (resolve_ok_iff h).mpr ⟨hloop, hcyc⟩
      obtain ⟨r', hr'⟩ := (resolve_ok_iff h').mpr ⟨hloops.not.mp hloop, hd.cyclic_eq ▸ hcyc⟩
      exact Or.inr ⟨r, r', hr, hr',
        Resolution.Sound.sameAnswers hd (resolve_sound h hr) (resolve_sound h' hr')⟩

/-- Declarations with distinct entities and no repeated dependency are all taken, in whatever order
they and their dependencies come; and the order shows neither in the kind of refusal nor in any
answer. -/
theorem resolve_reordered (h : Reordered ds ds') (hdistinct : (ds.map (·.1)).Nodup)
    (hdeps : ∀ d ∈ ds, d.2.Nodup) (o : Options) : ∃ t t' : Table E,
    ({} : Table E).addAll ds = (t, none) ∧ ({} : Table E).addAll ds' = (t', none) ∧
    ((∃ err err', t.resolve o = .error err ∧ t'.resolve o = .error err' ∧ err.code = err'.code) ∨
      ∃ r r', t.resolve o = .ok r ∧ t'.resolve o = .ok r' ∧ r.SameAnswers r') := by
  have hdistinct' : (ds'.map (·.1)).Nodup := h.entities_perm.nodup_iff.mp hdistinct
  have hdeps' : ∀ d ∈ ds', d.2.Nodup := by
    intro d' hd'
    obtain ⟨d, hd, _, hperm⟩ := h.symm.exists_right hd'
    exact hperm.nodup_iff.mpr (hdeps d hd)
  have hr := ofCalls_records ds
  have hr' := ofCalls_records ds'
  rw [taken_eq hdistinct hdeps] at hr
  rw [taken_eq hdistinct' hdeps'] at hr'
  exact ⟨ofCalls ds, ofCalls ds', addAll_new hdistinct hdeps, addAll_new hdistinct' hdeps',
    resolve_alike h.alike hr hr' o⟩

/-- A pair that needs each other, declared from either end. -/
theorem resolve_reordered_pair : ∃ t t' : Table Int,
    ({} : Table Int).addAll [(1, [2, 3]), (2, [1])] = (t, none) ∧
    ({} : Table Int).addAll [(2, [1]), (1, [3, 2])] = (t', none) ∧
    ∃ r r', t.resolve {} = .ok r ∧ t'.resolve {} = .ok r' ∧ r.SameAnswers r' := by
  have hre : Reordered [((1 : Int), [2, 3]), (2, [1])] [(2, [1]), (1, [3, 2])] :=
    ⟨[(2, [1]), (1, [2, 3])], .swap _ _ _,
      .cons ⟨rfl, .refl _⟩ (.cons ⟨rfl, .swap _ _ _⟩ .nil)⟩
  obtain ⟨t, t', ht, ht', hends⟩ := resolve_reordered hre (by decide) (by decide) {}
  refine ⟨t, t', ht, ht', hends.resolve_left ?_⟩
  rintro ⟨err, _, herr, _⟩
  have hadd : ({} : Table Int).addAll [(1, [2, 3]), (2, [1])] = (ofCalls _, none) :=
    addAll_new (by decide) (by decide)
  obtain rfl := congrArg Prod.fst (hadd.symm.trans ht)
  obtain ⟨r, hr⟩ := resolve_default (ofCalls_records [((1 : Int), [2, 3]), (2, [1])])
  cases hr.symm.trans herr

section Cycles

open DepGraph.Cycle (Around ofList)

variable {l : List E}

/-- A search that can only find rotations of one cycle finds its canonical form. -/
theorem Built.findCycle_eq (h : Built ds t) (hl : Around (DependsOn ds) l)
    (hone : ∀ l', Around (DependsOn ds) l' → l' ~r l) : t.findCycle = some (ofList l) := by
  have hsome : t.findCycle.isSome = true := (findCycle_isSome_iff h).mpr hl.transGen
  obtain ⟨c, hc⟩ := Option.isSome_iff_exists.mp hsome
  obtain ⟨ids, hids, rfl⟩ := Option.map_eq_some_iff.mp hc
  have hrot : t.entities ids ~r l := hone _ (findCycleNodes_entities h hids).2
  rw [hc, Cycle.ofList_eq_of_isRotated hl.nodup hrot]

/-- If the declarations have one cycle, however it may be entered, it is found and written down in
the same way whatever order they and their dependencies came in. -/
theorem findCycle_reordered (h : Reordered ds ds') (ht : Reached ds t) (hf : t.frozen = true)
    (ht' : Reached ds' t') (hf' : t'.frozen = true) (hl : Around (DependsOn ds) l)
    (hone : ∀ l', Around (DependsOn ds) l' → l' ~r l) :
    t.findCycle = some (ofList l) ∧ t'.findCycle = some (ofList l) := by
  refine ⟨(ht.built hf).findCycle_eq hl hone, (ht'.built hf').findCycle_eq ?_ ?_⟩
  · rwa [← h.alike.dependsOn_eq]
  · rwa [← h.alike.dependsOn_eq]

/-- A pair that needs each other, met from above or from inside. -/
theorem findCycle_reordered_met : ∃ t t' : Table Int,
    Reached [(3, [1, 2]), (1, [2]), (2, [1])] t ∧ t.frozen = true ∧
    Reached [(2, [1]), (1, [2]), (3, [2, 1])] t' ∧ t'.frozen = true ∧
    t.findCycle = some ⟨[1, 2]⟩ ∧ t'.findCycle = some ⟨[1, 2]⟩ := by
  have hre : Reordered [((3 : Int), [1, 2]), (1, [2]), (2, [1])]
      [(2, [1]), (1, [2]), (3, [2, 1])] :=
    ⟨[(2, [1]), (1, [2]), (3, [1, 2])], by decide,
      .cons ⟨rfl, .refl _⟩ (.cons ⟨rfl, .refl _⟩ (.cons ⟨rfl, .swap _ _ _⟩ .nil))⟩
  obtain ⟨t, ht, hf⟩ := exists_reached
    (show (([(3, [1, 2]), (1, [2]), (2, [1])] : List (Int × List Int)).map (·.1)).Nodup by decide)
    (by decide)
  obtain ⟨t', ht', hf'⟩ := exists_reached
    (show (([(2, [1]), (1, [2]), (3, [2, 1])] : List (Int × List Int)).map (·.1)).Nodup by decide)
    (by decide)
  have hpair : Around (DependsOn [((3 : Int), [1, 2]), (1, [2]), (2, [1])]) [1, 2] :=
    ⟨by decide, by decide, by simp [Cycle.pairs, DependsOn, Declares]⟩
  have hone : ∀ l, Around (DependsOn [((3 : Int), [1, 2]), (1, [2]), (2, [1])]) l →
      l ~r [1, 2] := by
    intro l hl
    have hin : ∀ a ∈ l, a = 1 ∨ a = 2 := by
      intro a ha
      obtain ⟨b, _, hb⟩ := Relation.TransGen.tail'_iff.mp (hl.leads ha ha)
      simp only [DependsOn, Declares] at hb
      grind
    have hperm : l.Perm [1, 2] := by
      refine (List.subperm_of_subset hl.nodup ?_).perm_of_length_le hl.long
      intro a ha
      simpa using hin a ha
    rcases List.perm_pair.mp hperm with rfl | rfl
    · exact .refl _
    · exact ⟨1, rfl⟩
  obtain ⟨hfound, hfound'⟩ := findCycle_reordered hre ht hf ht' hf' hpair hone
  exact ⟨t, t', ht, hf, ht', hf', hfound, hfound'⟩

end Cycles

end Table

end DepGraph
