import DepGraph.Cycle.Basic
import DepGraph.Proofs.Order
import Mathlib.Data.List.Chain
import Mathlib.Data.List.Rotate
import Mathlib.Logic.Relation

/-!
# Rotating cycles

The canonical form of a cycle is a rotation of it that starts at its least entity. A rotation has
the same links, the closing one included.
-/

namespace DepGraph.Cycle

variable {E : Type} [Entity E] {es : List E}

theorem exists_least (h : es ≠ []) : ∃ e ∈ es, es.all (Entity.le e) = true := by
  induction es with
  | nil => exact absurd rfl h
  | cons a es ih =>
    have hself : Entity.le a a = true := by simp [Entity.le]
    by_cases hes : es = []
    · exact ⟨a, List.mem_cons_self, by simp [hes, hself]⟩
    · obtain ⟨e, he, hall⟩ := ih hes
      rw [List.all_eq_true] at hall
      rcases hae : Entity.le a e with _ | _
      · have hea : Entity.le e a = true := by
          unfold Entity.le at *
          rw [Std.OrientedOrd.eq_swap (a := e)]
          cases h : compare a e <;> simp_all
        refine ⟨e, List.mem_cons_of_mem _ he, ?_⟩
        rw [List.all_cons, hea, Bool.true_and, List.all_eq_true]
        exact hall
      · refine ⟨a, List.mem_cons_self, ?_⟩
        rw [List.all_cons, hself, Bool.true_and, List.all_eq_true]
        exact fun x hx => Std.TransCmp.isLE_trans hae (hall x hx)

theorem startIndex_lt (h : es ≠ []) : startIndex es < es.length := by
  obtain ⟨e, he, hall⟩ := exists_least h
  exact List.findIdx_lt_length_of_exists ⟨e, he, hall⟩

theorem ofList_entities (es : List E) : (ofList es).entities = es.rotate (startIndex es) := by
  have hle : startIndex es ≤ es.length := List.findIdx_le_length
  rw [ofList, List.rotate_eq_drop_append_take hle]

theorem ofList_isRotated (es : List E) : (ofList es).entities ~r es := by
  rw [ofList_entities]
  exact List.IsRotated.forall es _

theorem ofList_head (h : es ≠ []) :
    ∃ a as, (ofList es).entities = a :: as ∧ ∀ b ∈ es, Entity.le a b = true := by
  have hlt := startIndex_lt h
  have hdrop : es.drop (startIndex es) = es[startIndex es] :: es.drop (startIndex es + 1) :=
    List.drop_eq_getElem_cons hlt
  have hleast : es.all (Entity.le es[startIndex es]) = true :=
    List.findIdx_getElem (w := hlt)
  refine ⟨es[startIndex es], es.drop (startIndex es + 1) ++ es.take (startIndex es), ?_, ?_⟩
  · rw [ofList, hdrop, List.cons_append]
  · exact List.all_eq_true.mp hleast

theorem ofList_least (h : es ≠ []) (hn : es.Nodup) :
    ∃ a as, (ofList es).entities = a :: as ∧ ∀ b ∈ as, Entity.Below a b := by
  obtain ⟨a, as, heq, hleast⟩ := ofList_head h
  have hrot := ofList_isRotated es
  rw [heq] at hrot
  refine ⟨a, as, heq, ?_⟩
  intro b hb
  apply Entity.below_of_isLE (hleast b (hrot.mem_iff.mp (List.mem_cons_of_mem a hb)))
  rintro rfl
  exact (List.nodup_cons.mp (hrot.nodup_iff.mpr hn)).1 hb

theorem ofList_isCanonical (es : List E) : (ofList es).isCanonical = true := by
  by_cases h : es = []
  · subst h
    rfl
  · obtain ⟨a, as, heq, hleast⟩ := ofList_head h
    have hrot := ofList_isRotated es
    rw [heq] at hrot
    rw [isCanonical, heq, List.all_eq_true]
    exact fun b hb => hleast b (hrot.mem_iff.mp hb)

theorem canonicalize_of_isCanonical {c : Cycle E} (h : c.isCanonical = true) :
    c.canonicalize = c := by
  obtain ⟨es⟩ := c
  cases es with
  | nil => rfl
  | cons a as =>
    have hstart : startIndex (a :: as) = 0 := by
      simp only [isCanonical] at h
      rw [startIndex, List.findIdx_cons, h]
      rfl
    rw [canonicalize, ofList, hstart]
    simp

theorem eq_of_isRotated {α : Type} {a : α} {as bs : List α} (hn : (a :: as).Nodup)
    (h : a :: as ~r a :: bs) : a :: as = a :: bs := by
  obtain ⟨k, hk⟩ := h
  have hlt : k % (a :: as).length < (a :: as).length := Nat.mod_lt _ (by simp)
  have hhead : (a :: as)[k % (a :: as).length]? = some a := by
    rw [← List.head?_rotate hlt, List.rotate_mod, hk, List.head?_cons]
  have hget : (a :: as)[k % (a :: as).length] = (a :: as)[0] :=
    (List.getElem?_eq_some_iff.mp hhead).2
  have hzero : k % (a :: as).length = 0 := hn.getElem_inj_iff.mp hget
  rw [← hk, ← List.rotate_mod, hzero, List.rotate_zero]

theorem ofList_eq_of_isRotated {xs ys : List E} (hn : xs.Nodup) (h : ys ~r xs) :
    ofList xs = ofList ys := by
  by_cases hx : xs = []
  · subst hx
    rw [List.isRotated_nil_iff.mp h]
  · have hy : ys ≠ [] := by
      rintro rfl
      exact hx (List.isRotated_nil_iff'.mp h).symm
    obtain ⟨a, as, hxs, ha⟩ := ofList_head hx
    obtain ⟨b, bs, hys, hb⟩ := ofList_head hy
    have hrotx := ofList_isRotated xs
    have hroty := ofList_isRotated ys
    rw [hxs] at hrotx
    rw [hys] at hroty
    have hay : a ∈ ys := h.mem_iff.mpr (hrotx.mem_iff.mp List.mem_cons_self)
    have hbx : b ∈ xs := h.mem_iff.mp (hroty.mem_iff.mp List.mem_cons_self)
    obtain rfl : a = b := Entity.eq_of_le (ha b hbx) (hb a hay)
    have hsame := eq_of_isRotated (hrotx.nodup_iff.mpr hn) (hrotx.trans (h.symm.trans hroty.symm))
    calc ofList xs = ⟨a :: as⟩ := congrArg Cycle.mk hxs
      _ = ⟨a :: bs⟩ := by rw [hsame]
      _ = ofList ys := (congrArg Cycle.mk hys).symm

theorem pairs_eq_zip {E : Type} (c : Cycle E) : c.pairs = c.entities.zip (c.entities.rotate 1) := by
  cases h : c.entities with
  | nil => simp [pairs, h]
  | cons a as => simp [pairs, h]

theorem links_pairs {E : Type} (c : Cycle E) (site : E → E → String) :
    (c.links site).map (fun l => (l.source, l.target)) =
      c.entities.zip (c.entities.rotate 1) := by
  rw [← pairs_eq_zip, links, List.map_map]
  exact List.map_id _

theorem pairs_rotate {E : Type} (es : List E) (k : Nat) :
    (Cycle.mk (es.rotate k)).pairs = (Cycle.mk es).pairs.rotate k := by
  have hzip := List.zipWith_rotate_distrib Prod.mk es (es.rotate 1) k (by simp)
  rw [List.rotate_rotate, Nat.add_comm, ← List.rotate_rotate] at hzip
  rw [pairs_eq_zip, pairs_eq_zip]
  exact hzip.symm

theorem pairs_ofList (es : List E) :
    (ofList es).pairs = (Cycle.mk es).pairs.rotate (startIndex es) := by
  have hpairs := pairs_rotate es (startIndex es)
  rwa [← ofList_entities] at hpairs

theorem mem_pairs_ofList {p : E × E} : p ∈ (ofList es).pairs ↔ p ∈ (Cycle.mk es).pairs := by
  rw [pairs_ofList, List.mem_rotate]

/-- The canonical form of a list is a rotation of it, links included, and a second time changes
nothing. A list without repetition shares its form with its rotations and with no other list. -/
theorem ofList_canonical (xs ys : List E) :
    ((ofList xs).entities ~r xs ∧ (ofList xs).isCanonical = true ∧
      (ofList xs).canonicalize = ofList xs ∧ (ofList xs).pairs ~r xs.zip (xs.rotate 1)) ∧
    (xs.Nodup → (ofList xs = ofList ys ↔ ys ~r xs)) := by
  refine ⟨⟨ofList_isRotated xs, ofList_isCanonical xs,
    canonicalize_of_isCanonical (ofList_isCanonical xs), ?_⟩, ?_⟩
  · rw [pairs_ofList, ← pairs_eq_zip ⟨xs⟩]
    exact List.IsRotated.forall _ _
  · intro hxs
    constructor
    · intro heq
      have hrotx := ofList_isRotated xs
      rw [heq] at hrotx
      exact (ofList_isRotated ys).symm.trans hrotx
    · exact ofList_eq_of_isRotated hxs

/-- Two ways to enter one cycle. -/
theorem ofList_canonical_entered :
    [(3 : Int), 1, 2].Nodup ∧ ofList [(3 : Int), 1, 2] = ofList [2, 3, 1] :=
  ⟨by decide, ((ofList_canonical [3, 1, 2] [2, 3, 1]).2 (by decide)).mpr ⟨1, by decide⟩⟩

example : (ofList [(2 : Int), 1, 3, 1]).entities = [1, 3, 1, 2] := by decide

theorem pairs_map {α β : Type} (f : α → β) (l : List α) :
    (Cycle.mk (l.map f)).pairs = (Cycle.mk l).pairs.map (Prod.map f f) := by
  rw [pairs_eq_zip, pairs_eq_zip, ← List.map_rotate, List.zip_map]

section Around

variable {α : Type} {r : α → α → Prop} {l : List α}

/-- The list runs once around a cycle of the relation. -/
structure Around (r : α → α → Prop) (l : List α) : Prop where
  long : 2 ≤ l.length
  nodup : l.Nodup
  linked : ∀ p ∈ (Cycle.mk l).pairs, r p.1 p.2

theorem linked_of_chain {a c : α} {as : List α} (hchain : (a :: as ++ [c]).IsChain r) :
    ∀ p ∈ (a :: as).zip (as ++ [c]), r p.1 p.2 := by
  induction as generalizing a with
  | nil =>
    intro p hp
    obtain rfl : p = (a, c) := by simpa using hp
    exact (List.isChain_cons_cons.mp hchain).1
  | cons b as ih =>
    intro p hp
    rw [List.cons_append, List.cons_append, List.isChain_cons_cons] at hchain
    rw [List.cons_append, List.zip_cons_cons] at hp
    rcases List.mem_cons.mp hp with rfl | hp
    · exact hchain.1
    · exact ih hchain.2 p hp

theorem leads_of_linked {a c : α} {as : List α} (h : ∀ p ∈ (a :: as).zip (as ++ [c]), r p.1 p.2)
    {b : α} (hb : b ∈ a :: as) : Relation.ReflTransGen r a b ∧ Relation.TransGen r b c := by
  induction as generalizing a b with
  | nil =>
    obtain rfl := List.mem_singleton.mp hb
    exact ⟨.refl, .single (h (b, c) (by simp))⟩
  | cons d as ih =>
    rw [List.cons_append, List.zip_cons_cons] at h
    have hrest : ∀ p ∈ (d :: as).zip (as ++ [c]), r p.1 p.2 := fun p hp =>
      h p (List.mem_cons_of_mem _ hp)
    have hfirst : r a d := h (a, d) List.mem_cons_self
    rcases List.mem_cons.mp hb with rfl | hb
    · exact ⟨.refl, .head hfirst (ih hrest List.mem_cons_self).2⟩
    · exact ⟨.head hfirst (ih hrest hb).1, (ih hrest hb).2⟩

theorem Around.leads (h : Around r l) {a b : α} (ha : a ∈ l) (hb : b ∈ l) :
    Relation.TransGen r a b := by
  cases l with
  | nil => cases ha
  | cons c cs =>
    have hpairs : ∀ p ∈ (c :: cs).zip (cs ++ [c]), r p.1 p.2 := by simpa [pairs] using h.linked
    exact (leads_of_linked hpairs ha).2.trans_left (leads_of_linked hpairs hb).1

theorem Around.transGen (h : Around r l) : ∃ a, Relation.TransGen r a a := by
  obtain ⟨a, ha⟩ := List.exists_mem_of_length_pos (Nat.lt_of_lt_of_le Nat.two_pos h.long)
  exact ⟨a, h.leads ha ha⟩

theorem Around.exists_next (h : Around r l) {a : α} (ha : a ∈ l) : ∃ b, r a b := by
  have hfst : (Cycle.mk l).pairs.map (·.1) = l := by
    rw [pairs_eq_zip, List.map_fst_zip]
    simp
  rw [← hfst] at ha
  obtain ⟨p, hp, rfl⟩ := List.mem_map.mp ha
  exact ⟨p.2, h.linked p hp⟩

theorem Around.apart (h : Around r l) {p : α × α} (hp : p ∈ (Cycle.mk l).pairs) : p.1 ≠ p.2 := by
  rw [pairs_eq_zip] at hp
  obtain ⟨i, hi, rfl⟩ := List.mem_iff_getElem.mp hp
  have hlong := h.long
  have hlt : i < l.length := by simpa using hi
  rw [List.getElem_zip, List.getElem_rotate]
  intro heq
  have hsame : i = (i + 1) % l.length := h.nodup.getElem_inj_iff.mp heq
  by_cases hend : i + 1 = l.length
  · rw [hend, Nat.mod_self] at hsame
    omega
  · rw [Nat.mod_eq_of_lt (by omega)] at hsame
    omega

theorem exists_path {a b : α} (h : Relation.ReflTransGen r a b) :
    ∃ as, (a :: as).Nodup ∧ (a :: as).IsChain r ∧ (a :: as).getLast? = some b := by
  induction h using Relation.ReflTransGen.head_induction_on with
  | refl => exact ⟨[], by simp, by simp, by simp⟩
  | @head a c hac _ ih =>
    obtain ⟨cs, hnodup, hchain, hlast⟩ := ih
    by_cases ha : a ∈ c :: cs
    · -- the way comes through `a` again and can start there
      obtain ⟨before, after, hsplit⟩ := List.append_of_mem ha
      rw [hsplit] at hnodup hchain hlast
      refine ⟨after, hnodup.of_append_right, hchain.right_of_append, ?_⟩
      rwa [List.getLast?_append_of_ne_nil _ (by simp)] at hlast
    · refine ⟨c :: cs, List.nodup_cons.mpr ⟨ha, hnodup⟩, .cons_cons hac hchain, ?_⟩
      rwa [List.getLast?_cons_cons]

/-- A link whose target leads back is part of a cycle. -/
theorem exists_around {a b : α} (hab : r a b) (hne : a ≠ b) (hba : Relation.ReflTransGen r b a) :
    ∃ l, Around r l ∧ a ∈ l := by
  obtain ⟨bs, hnodup, hchain, hlast⟩ := exists_path hba
  have hclosed : (b :: bs ++ [b]).IsChain r := by
    refine hchain.append (by simp) ?_
    intro x hx y hy
    obtain rfl := Option.some.inj (hlast.symm.trans hx)
    obtain rfl : b = y := by simpa using hy
    exact hab
  refine ⟨b :: bs, ⟨?_, hnodup, ?_⟩, List.mem_of_getLast? hlast⟩
  · cases bs with
    | nil => exact absurd (by simpa using hlast.symm) hne
    | cons c cs => simp
  · have hlinked := linked_of_chain hclosed
    simpa [pairs] using hlinked

theorem Around.names {β : Type} {q : β → β → Prop} {name : α → Option β} {es : List β}
    (h : Around r l) (hes : l.map name = es.map some)
    (hinj : ∀ a b e, name a = some e → name b = some e → a = b)
    (hlink : ∀ a b e d, name a = some e → name b = some d → r a b → q e d) : Around q es := by
  have hlen : l.length = es.length := by simpa using congrArg List.length hes
  refine ⟨by rw [← hlen]; exact h.long, ?_, ?_⟩
  · apply List.Nodup.of_map some
    rw [← hes]
    refine List.Nodup.map_on ?_ h.nodup
    intro a ha b _ hab
    obtain ⟨e, _, he⟩ := List.mem_map.mp (hes ▸ List.mem_map_of_mem ha)
    exact hinj a b e he.symm (hab ▸ he.symm)
  · intro p hp
    have hpairs := pairs_map some es
    rw [← hes, pairs_map] at hpairs
    obtain ⟨⟨a, b⟩, hab, hname⟩ := List.mem_map.mp (hpairs ▸ List.mem_map_of_mem hp)
    obtain ⟨ha, hb⟩ := Prod.mk.inj hname
    exact hlink a b p.1 p.2 ha hb (h.linked _ hab)

end Around

end DepGraph.Cycle
