/-!
# Marks

Marks on numbered things, and the gathering of the unmarked among a list of numbers. Numbers
beyond the marks are never gathered.
-/

namespace DepGraph.Marks

/-- Marks the unmarked among `ids` and returns them in order, each once. -/
def gather : List Nat → Array Bool → List Nat × Array Bool
  | [], marks => ([], marks)
  | i :: is, marks =>
    if marks[i]? = some false then
      let (fresh, marks') := gather is (marks.setIfInBounds i true)
      (i :: fresh, marks')
    else gather is marks

def unmarked (marks : Array Bool) : Nat := marks.count false

theorem unmarked_setIfInBounds {marks : Array Bool} {i : Nat} (h : marks[i]? = some false) :
    unmarked (marks.setIfInBounds i true) + 1 = unmarked marks := by
  obtain ⟨hi, hf⟩ := Array.getElem?_eq_some_iff.mp h
  have hpos : 0 < marks.count false := Array.count_pos_iff.mpr (hf ▸ Array.getElem_mem hi)
  simp only [unmarked, Array.setIfInBounds, hi, dif_pos]
  rw [Array.count_set]
  simp [hf]
  omega

theorem gather_unmarked (ids : List Nat) (marks : Array Bool) :
    (gather ids marks).1.length + unmarked (gather ids marks).2 = unmarked marks := by
  induction ids generalizing marks with
  | nil => simp [gather]
  | cons i is ih =>
    by_cases h : marks[i]? = some false
    · have hrest := ih (marks.setIfInBounds i true)
      have hset := unmarked_setIfInBounds h
      simp [gather, h]
      omega
    · simpa [gather, h] using ih marks

end DepGraph.Marks
