/-!
# Reused buffers

Arrays that serve one use after another. They are wiped in their own memory, so what an earlier
use left in them cannot be seen by a later one.
-/

namespace DepGraph.Buffer

variable {α : Type}

def refill (a : Array α) (size : Nat) (x : α) : Array α := Nat.repeat (·.push x) size (a.shrink 0)

/-- The marks all cleared, and more added up to `size`. Marks are never given back. -/
def clear (marks : Array Bool) (size : Nat) : Array Bool :=
  Nat.repeat (·.push false) (size - marks.size) (marks.map fun _ => false)

theorem repeat_push (a : Array α) (x : α) (n : Nat) :
    Nat.repeat (·.push x) n a = a ++ Array.replicate n x := by
  induction n with
  | zero => simp [Nat.repeat]
  | succ n ih => rw [Nat.repeat, ih, Array.replicate_succ, Array.append_push]

theorem refill_eq (a : Array α) (size : Nat) (x : α) :
    refill a size x = Array.replicate size x := by
  simp [refill, repeat_push]

theorem clear_eq (marks : Array Bool) (size : Nat) :
    clear marks size = Array.replicate (max marks.size size) false := by
  have hmap : marks.map (fun _ => false) = Array.replicate marks.size false := by
    apply Array.ext <;> simp
  rw [clear, repeat_push, hmap, Array.replicate_append_replicate]
  congr 1
  omega

end DepGraph.Buffer
