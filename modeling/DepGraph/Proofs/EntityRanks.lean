import DepGraph.Proofs.Outcomes

/-!
# The rank of an entity

Ranks are kept on vertices and read through three numberings. Read by entity they are the height
of its strongly connected component above those it depends on.
-/

namespace DepGraph

variable {E : Type} [Entity E] {ds : List (E × List E)}

/-- Some entity mutual with `e` depends on `d`, which is not itself mutual with `e`. -/
def External (ds : List (E × List E)) (e d : E) : Prop :=
  ∃ a, Mutual ds e a ∧ DependsOn ds a d ∧ ¬ Mutual ds e d

theorem Component.Faithful.not_lone {c : Component} {t : Table E} (h : c.Faithful ds t)
    {v : VertId} {e : E} (hv : c.entity? t v = some e) : ¬ Lone ds e := by
  intro hlone
  rcases h.linked v (Component.lt_of_entity? hv) with hne | hne
  · obtain ⟨w, hw⟩ := List.exists_mem_of_ne_nil _ hne
    obtain ⟨a, b, ha, _, hdep⟩ := (h.ancestors v w).mp hw
    obtain rfl := Option.some.inj (hv.symm.trans ha)
    exact (hlone b).1 hdep
  · obtain ⟨w, hw⟩ := List.exists_mem_of_ne_nil _ hne
    obtain ⟨a, b, ha, _, hdep⟩ := (h.drawn.link v w).mp hw
    obtain rfl := Option.some.inj (hv.symm.trans ha)
    exact (hlone b).2 hdep

namespace Resolution

variable {r : Resolution E} {e : E}

theorem rankOf?_of_place {i : NodeId} {n : Node E} {k : CompId} {c : Component} {v : VertId}
    (hi : r.table.idOf? e = some i) (hn : r.table.node? i = some n) (hk : n.component = some k)
    (hc : r.partition.component? k = some c) (hv : r.partition.vertOf? i = some v)
    (hlt : v < c.size) : r.rankOf? e = some (c.rankAt v) := by
  have hvert : c.vertex? v = some c.verts[v] := Array.getElem?_eq_getElem hlt
  simp [rankOf?, hi, hn, hk, hc, hv, hvert, Component.rankAt]

namespace Sound

theorem rankOf?_vertex (h : r.Sound ds) {c : Component} (hc : c ∈ r.components) {v : VertId}
    (hv : c.entity? r.table v = some e) : r.rankOf? e = some (c.rankAt v) := by
  obtain ⟨k, hk⟩ := List.mem_iff_getElem?.mp hc
  have hfaithful := (h.settled c hc).faithful
  have hlt := Component.lt_of_entity? hv
  obtain ⟨_, _, hi⟩ := Option.bind_eq_some_iff.mp hv
  obtain ⟨n, hn, rfl⟩ := Table.entity?_eq_some_iff.mp hi
  rcases h.place _ n hn with ⟨_, hlone⟩ | ⟨l, d, w, hcomp, hd, hw, hname⟩
  · exact absurd hlone (hfaithful.not_lone hv)
  · obtain rfl := h.apart k l c d v w _ hk hd hv hname
    obtain rfl := Option.some.inj (Eq.trans (Eq.symm hk) hd)
    obtain rfl := hfaithful.injective v w _ hv hname
    exact rankOf?_of_place ((h.built.indexed _ _).mpr hi) hn hcomp hd hw hlt

theorem rankOf?_lone (h : r.Sound ds) (he : e ∈ mentions ds) (hlone : Lone ds e) :
    r.rankOf? e = some 0 := by
  obtain ⟨i, hi⟩ := h.built.known.mpr he
  obtain ⟨n, hn, rfl⟩ := Table.entity?_eq_some_iff.mp hi
  have hid := (h.built.indexed _ _).mpr hi
  rcases h.place i n hn with ⟨hnone, _⟩ | ⟨k, c, v, _, hc, _, hv⟩
  · simp [rankOf?, hid, hn, hnone]
  · exact absurd hlone ((h.settled c (List.mem_of_getElem? hc)).faithful.not_lone hv)

end Sound

/-- `n` is the rank of the whole class of `e`: above everything it depends on, and no higher than
that asks for. -/
structure RankOf (ds : List (E × List E)) (r : Resolution E) (e : E) (n : Nat) : Prop where
  shared : ∀ a, Mutual ds e a → r.rankOf? a = some n
  above : ∀ d, External ds e d → ∃ m, r.rankOf? d = some m ∧ m < n
  attained : n = 0 ∨ ∃ d m, External ds e d ∧ r.rankOf? d = some m ∧ n = m + 1

namespace Sound

theorem rankOf_vertex (h : r.Sound ds) {c : Component} (hc : c ∈ r.components) {v : VertId}
    (hv : c.entity? r.table v = some e) : RankOf ds r e (c.rankAt v) := by
  have hset := h.settled c hc
  have hdrawn := hset.faithful.drawn
  have hrank {w : VertId} {d : E} (hw : c.entity? r.table w = some d) := h.rankOf?_vertex hc hw
  have hlt := Component.lt_of_entity? hv
  have hclass {a : E} (ha : Mutual ds e a) : ∃ u, c.entity? r.table u = some a ∧
      Leads c.descendants v u ∧ Leads c.descendants u v := by
    obtain ⟨u, hu, _⟩ := hdrawn.reaches_named hv ha.2
    exact ⟨u, hu, (hdrawn.mutual_iff hv hu).mp ha⟩
  constructor
  · intro a ha
    obtain ⟨u, hu, hvu, huv⟩ := hclass ha
    rw [hrank hu, hset.ranked.same v u hlt hvu huv]
  · rintro d ⟨a, ha, hdep, hout⟩
    obtain ⟨u, hu, hvu, huv⟩ := hclass ha
    obtain ⟨x, hx⟩ := hset.faithful.closed u a d hu (Or.inl hdep)
    have hlink := (hdrawn.link_iff hx hu).mpr hdep
    have hnot : ¬ Leads c.descendants u x := fun hback =>
      hout (ha.trans ((hdrawn.mutual_iff hu hx).mpr ⟨hback, .single hlink⟩))
    refine ⟨c.rankAt x, hrank hx, ?_⟩
    rw [hset.ranked.same v u hlt hvu huv]
    exact hset.ranked.above x u hlink hnot
  · rcases hset.ranked.attained v hlt with hzero | ⟨x, u, hvu, huv, hlink, hnot, hrise⟩
    · exact Or.inl hzero
    · obtain ⟨d, a, hx, hu, hdep⟩ := (hdrawn.link x u).mp hlink
      have ha := (hdrawn.mutual_iff hv hu).mpr ⟨hvu, huv⟩
      refine Or.inr ⟨d, c.rankAt x, ⟨a, ha, hdep, ?_⟩, hrank hx, hrise⟩
      intro hmut
      exact hnot ((hdrawn.mutual_iff hu hx).mp (ha.symm.trans hmut)).1

theorem rankOf_lone (hlone : Lone ds e) (hr : r.rankOf? e = some 0) : RankOf ds r e 0 := by
  have hself {a : E} (ha : Mutual ds e a) : e = a := by
    rcases Relation.ReflTransGen.cases_head ha.1 with rfl | ⟨d, hd, _⟩
    · rfl
    · exact absurd hd (hlone d).1
  refine ⟨?_, ?_, Or.inl rfl⟩
  · intro a ha
    rw [← hself ha]
    exact hr
  · rintro d ⟨a, ha, hdep, _⟩
    rw [← hself ha] at hdep
    exact absurd hdep (hlone d).1

theorem rankOf_known (h : r.Sound ds) (he : e ∈ mentions ds) :
    ∃ n, r.rankOf? e = some n ∧ RankOf ds r e n := by
  rcases h.lone_or_vertex he with hlone | ⟨c, hc, v, hv⟩
  · have hzero := h.rankOf?_lone he hlone
    exact ⟨0, hzero, rankOf_lone hlone hzero⟩
  · exact ⟨c.rankAt v, h.rankOf?_vertex hc hv, h.rankOf_vertex hc hv⟩

theorem rankOf?_isSome (h : r.Sound ds) : (r.rankOf? e).isSome = true ↔ e ∈ mentions ds := by
  constructor
  · intro hsome
    rw [← h.built.known]
    cases hid : r.table.idOf? e with
    | none => simp [rankOf?, hid] at hsome
    | some i => exact ⟨i, (h.built.indexed e i).mp hid⟩
  · intro he
    obtain ⟨n, hn, _⟩ := h.rankOf_known he
    rw [hn]
    rfl

end Sound

/-- The rank of an entity is zero if its strongly connected component depends on nothing outside
itself, and otherwise one above the highest rank that it depends on there. -/
theorem ranks_exact {calls : List (E × List E)} {o : Options} {r : Resolution E}
    (h : (Table.ofCalls calls).resolve o = .ok r) :
    (∀ e, ((r.rankOf? e).isSome = true ↔ (r.table.idOf? e).isSome = true) ∧
      ((r.rankOf? e).isSome = true ↔ e ∈ mentions (Table.taken calls))) ∧
    ∀ e n, r.rankOf? e = some n →
      ((∀ d, ¬ External (Table.taken calls) e d) → n = 0) ∧
      ((∃ d, External (Table.taken calls) e d) →
        ∃ d m, External (Table.taken calls) e d ∧ r.rankOf? d = some m ∧ n = m + 1 ∧
          ∀ d', External (Table.taken calls) e d' → ∃ m', r.rankOf? d' = some m' ∧ m' ≤ m) ∧
      (∀ a, Mutual (Table.taken calls) e a → r.rankOf? a = some n) ∧
      ∀ d, External (Table.taken calls) e d → ∃ m, r.rankOf? d = some m ∧ m < n := by
  have hs := Table.resolve_sound (Table.ofCalls_records calls) h
  refine ⟨fun e => ⟨?_, hs.rankOf?_isSome⟩, ?_⟩
  · rw [hs.rankOf?_isSome, ← hs.built.known, Option.isSome_iff_exists]
    exact exists_congr fun i => (hs.built.indexed e i).symm
  · intro e n hn
    have he := hs.rankOf?_isSome.mp (by rw [hn]; rfl)
    obtain ⟨n', hn', hrank⟩ := hs.rankOf_known he
    obtain rfl := Option.some.inj (hn.symm.trans hn')
    refine ⟨?_, ?_, hrank.shared, hrank.above⟩
    · intro hnone
      rcases hrank.attained with hzero | ⟨d, _, hd, _⟩
      · exact hzero
      · exact absurd hd (hnone d)
    · rintro ⟨d, hd⟩
      obtain ⟨m, _, hlt⟩ := hrank.above d hd
      rcases hrank.attained with hzero | ⟨d, m, hd, hm, hrise⟩
      · omega
      · refine ⟨d, m, hd, hm, hrise, fun d' hd' => ?_⟩
        obtain ⟨m', hm', hlt'⟩ := hrank.above d' hd'
        exact ⟨m', hm', by omega⟩

/-- An entity above a pair that needs each other. -/
theorem ranks_exact_above_pair :
    ∃ r, (Table.ofCalls [((3 : Int), [1]), (1, [2]), (2, [1])]).resolve {} = .ok r ∧
      ∃ n m, r.rankOf? 3 = some n ∧ r.rankOf? 1 = some m ∧ m < n := by
  obtain ⟨r, hr⟩ := (Table.resolve_ok_iff (o := {})
    (Table.ofCalls_records [((3 : Int), [1]), (1, [2]), (2, [1])])).mpr
    ⟨by simp [Table.SelfLoopRefused, Options.RejectsSelfLoops], by simp⟩
  have htaken : Table.taken [((3 : Int), [1]), (1, [2]), (2, [1])] =
      [(3, [1]), (1, [2]), (2, [1])] := by decide +kernel
  obtain ⟨hknown, hranks⟩ := ranks_exact hr
  rw [htaken] at hknown hranks
  have hdep : DependsOn [((3 : Int), [1]), (1, [2]), (2, [1])] 3 1 :=
    ⟨⟨[1], by simp, by simp⟩, by decide⟩
  have hout : ¬ Mutual [((3 : Int), [1]), (1, [2]), (2, [1])] 3 1 := by
    rintro ⟨_, hback⟩
    obtain ⟨d, _, ⟨⟨deps, hmem, hin⟩, _⟩⟩ :=
      (Relation.ReflTransGen.cases_tail hback).resolve_left (by decide)
    grind
  obtain ⟨n, hn⟩ := Option.isSome_iff_exists.mp ((hknown 3).2.mpr hdep.1.mentioned.1)
  obtain ⟨m, hm, hlt⟩ := (hranks 3 n hn).2.2.2 1 ⟨3, ⟨.refl, .refl⟩, hdep, hout⟩
  exact ⟨r, hr, n, m, hn, hm, hlt⟩

end Resolution

end DepGraph
