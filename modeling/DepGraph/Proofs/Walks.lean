import DepGraph.Walk
import Mathlib.Data.List.Nodup
import Mathlib.Logic.Relation

/-!
# What depth-first walks rest on

Leading from vertex to vertex, and the cut that both walks make in their stacks.
-/

namespace DepGraph

def Leads (next : Nat → List Nat) : Nat → Nat → Prop := Relation.ReflTransGen fun u v => v ∈ next u

namespace Walk

theorem splitThrough_of_mem {v : Nat} {l : List Nat} (h : v ∈ l) :
    ∃ upper lower, l = upper ++ v :: lower ∧ v ∉ upper ∧
      splitThrough v l = (upper ++ [v], lower) := by
  induction l with
  | nil => cases h
  | cons u us ih =>
    rw [splitThrough]
    split
    · rename_i huv
      subst huv
      exact ⟨[], us, rfl, List.not_mem_nil, rfl⟩
    · rename_i huv
      have hmem := (List.mem_cons.mp h).resolve_left (Ne.symm huv)
      obtain ⟨upper, lower, rfl, hnot, hsplit⟩ := ih hmem
      refine ⟨u :: upper, lower, rfl, ?_, ?_⟩
      · rw [List.mem_cons, not_or]
        exact ⟨Ne.symm huv, hnot⟩
      · rw [hsplit]
        rfl

theorem mem_advance {upper below : List Frame} {v u : Nat} {rest : List Nat} {p : Frame}
    (h : p ∈ upper ++ ⟨v, rest⟩ :: below) :
    p ∈ upper ++ ⟨v, u :: rest⟩ :: below ∨ p = ⟨v, rest⟩ := by
  simp only [List.mem_append, List.mem_cons] at h ⊢
  rcases h with h | h | h
  · exact Or.inl (Or.inl h)
  · exact Or.inr h
  · exact Or.inl (Or.inr (Or.inr h))

end Walk

end DepGraph
