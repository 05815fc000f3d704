import DepGraph.Entity
import Mathlib.Data.List.Nodup

/-!
# The order of entities and its sorts

Strictly ascending lists of entities, and what the stable sorts by a key return. Every listing of
the library is a sort of distinct keys, so all of them come out strictly ascending, and an entity
can be looked up in them by halving.
-/

namespace DepGraph

namespace Entity

variable {E α : Type} [Entity E]

def Below (a b : E) : Prop := compare a b = .lt

def Ascending (es : List E) : Prop := es.Pairwise Below

theorem below_irrefl (a : E) : ¬ Below a a := by
  simp [Below]

theorem below_trans {a b c : E} (h : Below a b) (k : Below b c) : Below a c :=
  Std.TransCmp.lt_trans h k

theorem below_of_isLE {a b : E} (h : (compare a b).isLE = true) (hne : a ≠ b) : Below a b := by
  unfold Below
  cases hc : compare a b with
  | lt => rfl
  | eq => exact absurd (Std.LawfulEqOrd.eq_of_compare hc) hne
  | gt => simp [hc] at h

theorem eq_of_le {a b : E} (h : le a b = true) (k : le b a = true) : a = b := by
  by_contra hne
  exact below_irrefl a (below_trans (below_of_isLE h hne) (below_of_isLE k (Ne.symm hne)))

theorem Ascending.nodup {es : List E} (h : Ascending es) : es.Nodup := by
  refine List.Pairwise.imp ?_ h
  rintro a b hab rfl
  exact below_irrefl a hab

theorem below_asymm {a b : E} (h : Below a b) : ¬ Below b a := fun k =>
  below_irrefl a (below_trans h k)

theorem eq_of_ordered {R : α → α → Prop} (hasymm : ∀ x y, R x y → ¬ R y x) {xs ys : List α}
    (hx : xs.Pairwise R) (hy : ys.Pairwise R) (h : ∀ x, x ∈ xs ↔ x ∈ ys) : xs = ys := by
  have hnodup {zs : List α} (hz : zs.Pairwise R) : zs.Nodup := by
    refine hz.imp ?_
    rintro x _ hxx rfl
    exact hasymm x x hxx hxx
  have hperm : xs.Perm ys := (List.perm_ext_iff_of_nodup (hnodup hx) (hnodup hy)).mpr h
  exact hperm.eq_of_pairwise (fun x y _ _ hxy hyx => absurd hyx (hasymm x y hxy)) hx hy

theorem Ascending.eq_of_mem_iff {es ds : List E} (he : Ascending es) (hd : Ascending ds)
    (h : ∀ e, e ∈ es ↔ e ∈ ds) : es = ds :=
  eq_of_ordered (fun _ _ => below_asymm) he hd h

theorem eq_of_keys_ordered {key : α → Option E} {xs ys : List α}
    (hx : xs.Pairwise fun x y => ∃ a b, key x = some a ∧ key y = some b ∧ Below a b)
    (hy : ys.Pairwise fun x y => ∃ a b, key x = some a ∧ key y = some b ∧ Below a b)
    (h : ∀ x, x ∈ xs ↔ x ∈ ys) : xs = ys := by
  refine eq_of_ordered ?_ hx hy h
  rintro x y ⟨a, b, ha, hb, hab⟩ ⟨b', a', hb', ha', hba⟩
  obtain rfl := Option.some.inj (ha.symm.trans ha')
  obtain rfl := Option.some.inj (hb.symm.trans hb')
  exact below_asymm hab hba

theorem sort_perm (es : List E) : (sort es).Perm es := List.mergeSort_perm es le

theorem sortBy_perm (key : α → Option E) (xs : List α) : (sortBy key xs).Perm xs :=
  List.mergeSort_perm xs _

section Compare

variable {κ : Type} [Ord κ] [Std.TransOrd κ]

theorem pairwise_mergeSort_compare (key : α → κ) (xs : List α) :
    (xs.mergeSort fun a b => (compare (key a) (key b)).isLE).Pairwise
      fun a b => (compare (key a) (key b)).isLE = true := by
  apply List.pairwise_mergeSort
  · intro a b c hab hbc
    exact Std.TransCmp.isLE_trans hab hbc
  · intro a b
    rw [Std.OrientedOrd.eq_swap (a := key b)]
    cases compare (key a) (key b) <;> rfl

end Compare

theorem ascending_sortBy {key : α → Option E} {xs : List α} (h : (xs.filterMap key).Nodup) :
    Ascending ((sortBy key xs).filterMap key) := by
  have hsorted := pairwise_mergeSort_compare key xs
  have hnodup : ((sortBy key xs).filterMap key).Nodup :=
    ((sortBy_perm key xs).filterMap key).nodup_iff.mpr h
  have hkeys : ((sortBy key xs).filterMap key).Pairwise
      fun a b : E => (compare a b).isLE = true := by
    rw [List.pairwise_filterMap]
    refine hsorted.imp ?_
    intro a b hab x hx y hy
    rw [hx, hy] at hab
    exact hab
  exact hkeys.imp₂ (fun _ _ hle hne => below_of_isLE hle hne) hnodup

theorem sortBy_ordered {key : α → Option E} {xs : List α} (h : (xs.filterMap key).Nodup)
    (hkey : ∀ x ∈ xs, ∃ a, key x = some a) : (sortBy key xs).Pairwise
      fun x y => ∃ a b, key x = some a ∧ key y = some b ∧ Below a b := by
  have hkeys := List.pairwise_filterMap.mp (ascending_sortBy h)
  refine hkeys.imp_of_mem fun {x y} hx hy hxy => ?_
  obtain ⟨a, ha⟩ := hkey x ((sortBy_perm key xs).mem_iff.mp hx)
  obtain ⟨b, hb⟩ := hkey y ((sortBy_perm key xs).mem_iff.mp hy)
  exact ⟨a, b, ha, hb, hxy a ha b hb⟩

theorem ascending_sort {es : List E} (h : es.Nodup) : Ascending (sort es) := by
  have hsorted : (sort es).Pairwise fun a b => (compare a b).isLE = true :=
    pairwise_mergeSort_compare (fun e : E => e) es
  exact hsorted.imp₂ (fun _ _ hle hne => below_of_isLE hle hne) ((sort_perm es).nodup_iff.mpr h)

section Seek

variable {e middle : E} {es lower upper : List E}

theorem mem_iff_mem_lower (h : Ascending (lower ++ middle :: upper)) (hlt : Below e middle) :
    e ∈ lower ++ middle :: upper ↔ e ∈ lower := by
  obtain ⟨_, hupper, _⟩ := List.pairwise_append.mp h
  rw [List.mem_append]
  apply or_iff_left
  intro he
  rcases List.mem_cons.mp he with heq | he
  · exact below_irrefl middle (heq ▸ hlt)
  · exact below_asymm hlt (List.rel_of_pairwise_cons hupper he)

theorem mem_iff_mem_upper (h : Ascending (lower ++ middle :: upper)) (hgt : Below middle e) :
    e ∈ lower ++ middle :: upper ↔ e ∈ upper := by
  obtain ⟨_, _, hlower⟩ := List.pairwise_append.mp h
  rw [List.mem_append, List.mem_cons]
  constructor
  · intro he
    rcases he with he | heq | he
    · exact absurd (hlower e he middle List.mem_cons_self) (below_asymm hgt)
    · exact absurd (heq ▸ hgt) (below_irrefl middle)
    · exact he
  · exact fun he => Or.inr (Or.inr he)

theorem seek_iff (h : Ascending es) : seek e es = true ↔ e ∈ es := by
  have hhalves {es upper : List E} {middle : E}
      (hdrop : es.drop (es.length / 2) = middle :: upper) :
      es.take (es.length / 2) ++ middle :: upper = es := by
    rw [← hdrop, List.take_append_drop]
  fun_induction seek e es with
  | case1 es hdrop =>
    have hlength := congrArg List.length hdrop
    rw [List.length_drop, List.length_nil] at hlength
    obtain rfl : es = [] := List.eq_nil_of_length_eq_zero (by omega)
    simp
  | case2 es middle upper hdrop hlt ih =>
    have hsplit := h
    rw [← hhalves hdrop] at hsplit
    refine (ih (h.sublist (List.take_sublist _ _))).trans ?_
    rw [← mem_iff_mem_lower hsplit hlt, hhalves hdrop]
  | case3 es middle upper hdrop heq =>
    obtain rfl := Std.LawfulEqOrd.eq_of_compare heq
    rw [← hhalves hdrop]
    simp
  | case4 es middle upper hdrop hgt ih =>
    have hsplit := h
    rw [← hhalves hdrop] at hsplit
    have hupper : Ascending upper := (List.pairwise_append.mp hsplit).2.1.of_cons
    refine (ih hupper).trans ?_
    rw [← mem_iff_mem_upper hsplit (Std.OrientedCmp.lt_of_gt hgt), hhalves hdrop]

end Seek

end Entity

end DepGraph
