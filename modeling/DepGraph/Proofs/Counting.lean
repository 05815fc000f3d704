import Mathlib.Algebra.Order.BigOperators.Group.List
import Mathlib.Data.List.Nodup
import Mathlib.Data.Set.Card

/-!
# Counting by lists

Lists that repeat nothing count what they list, and cannot be longer than what there is to list.
-/

namespace DepGraph

variable {α β γ : Type}

theorem ncard_eq_length {s : Set α} {l : List α} (hn : l.Nodup) (h : ∀ a, a ∈ s ↔ a ∈ l) :
    s.ncard = l.length := by
  classical
  have hset : s = (l.toFinset : Set α) := by
    ext a
    rw [h, Finset.mem_coe, List.mem_toFinset]
  rw [hset, Set.ncard_coe_finset, List.toFinset_card_of_nodup hn]

theorem nodup_pairs (key : α → β) {listed : α → List γ} {xs : List α}
    (hkeys : (xs.map key).Nodup) (hlisted : ∀ x ∈ xs, (listed x).Nodup) :
    (xs.flatMap fun x => (listed x).map (key x, ·)).Nodup := by
  refine List.nodup_flatMap.mpr ⟨?_, ?_⟩
  · intro x hx
    exact (hlisted x hx).map fun _ _ heq => (Prod.mk.inj heq).2
  · refine (List.pairwise_map.mp hkeys).imp fun hne => List.disjoint_left.mpr ?_
    intro p hp hp'
    obtain ⟨_, _, rfl⟩ := List.mem_map.mp hp
    obtain ⟨_, _, heq⟩ := List.mem_map.mp hp'
    exact hne (Prod.mk.inj heq).1.symm

theorem length_le_of_lt {l : List Nat} {n : Nat} (hn : l.Nodup) (hlt : ∀ x ∈ l, x < n) :
    l.length ≤ n := by
  have hsub := List.subperm_of_subset hn fun x hx => List.mem_range.mpr (hlt x hx)
  simpa using hsub.length_le

theorem length_le_of_flatten {ls : List (List Nat)} {n : Nat} (hne : ∀ l ∈ ls, l ≠ [])
    (hn : ls.flatten.Nodup) (hlt : ∀ x ∈ ls.flatten, x < n) : ls.length ≤ n := by
  have hcount : ls.length ≤ ls.flatten.length := by
    rw [List.length_flatten, ← List.length_map List.length]
    apply List.length_le_sum_of_one_le
    intro k hk
    obtain ⟨l, hl, rfl⟩ := List.mem_map.mp hk
    exact List.length_pos_iff.mpr (hne l hl)
  exact Nat.le_trans hcount (length_le_of_lt hn hlt)

end DepGraph
