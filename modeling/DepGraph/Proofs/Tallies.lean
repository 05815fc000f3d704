import DepGraph.Proofs.Settling

/-!
# What a walk has done so far

Both depth-first searches move their path in the same three ways: they look at the next successor
of the innermost vertex and enter it, or pass it by, or they leave the innermost vertex. A tally is
kept beside the search, taken from the stacks as they were before and after a turn. It balances in
every state: what was entered accounts for every link, looked at or still waiting on the path, and
every turn is one of a link or of a vertex left.
-/

namespace DepGraph.Walk

open Cohort.Ranker (linksFrom mem_linksFrom linksFrom_nodup)

variable {next : Nat → List Nat} {known known' : Nat → Prop} {path path' : List Frame}

def gained (before after : List Nat) : List Nat := after.take (after.length - before.length)

theorem gained_append (upper lower : List Nat) : gained lower (upper ++ lower) = upper := by
  simp [gained]

theorem gained_of_le {before after : List Nat} (h : after.length ≤ before.length) :
    gained before after = [] := by
  simp [gained, h]

def vertices (path : List Frame) : List Nat := path.map (·.vertex)

def upcoming : List Frame → List (Nat × Nat)
  | ⟨v, u :: _⟩ :: _ => [(v, u)]
  | _ => []

def waiting (path : List Frame) : List (Nat × Nat) :=
  path.flatMap fun p => p.rest.map (p.vertex, ·)

/-- What a walk has entered and examined, the latest first, and the turns it has taken. -/
structure Tally where
  entered : List Nat := []
  examined : List (Nat × Nat) := []
  turns : Nat := 0

namespace Tally

def start (c : Tally) (path path' : List Frame) : Tally :=
  { c with entered := gained (vertices path) (vertices path') ++ c.entered }

def turn (c : Tally) (path path' : List Frame) : Tally where
  entered := gained (vertices path) (vertices path') ++ c.entered
  examined := upcoming path ++ c.examined
  turns := c.turns + 1

variable (c : Tally) (v u : Nat) (rest fresh : List Nat) (below : List Frame)

theorem turn_enter : c.turn (⟨v, u :: rest⟩ :: below) (⟨u, fresh⟩ :: ⟨v, rest⟩ :: below) =
    ⟨u :: c.entered, (v, u) :: c.examined, c.turns + 1⟩ := by
  have hgain : gained (vertices (⟨v, u :: rest⟩ :: below))
      (vertices (⟨u, fresh⟩ :: ⟨v, rest⟩ :: below)) = [u] := gained_append [u] _
  rw [turn, hgain]
  rfl

theorem turn_pass : c.turn (⟨v, u :: rest⟩ :: below) (⟨v, rest⟩ :: below) =
    ⟨c.entered, (v, u) :: c.examined, c.turns + 1⟩ := by
  have hgain : gained (vertices (⟨v, u :: rest⟩ :: below)) (vertices (⟨v, rest⟩ :: below)) = [] :=
    gained_of_le (Nat.le_refl _)
  rw [turn, hgain]
  rfl

theorem turn_leave : c.turn (⟨v, []⟩ :: below) below = { c with turns := c.turns + 1 } := by
  have hgain : gained (vertices (⟨v, []⟩ :: below)) (vertices below) = [] :=
    gained_of_le (Nat.le_succ _)
  rw [turn, hgain]
  rfl

end Tally

/-- How a walk sets out: from a vertex not known before, or not at all. -/
inductive Start (next : Nat → List Nat) (known known' : Nat → Prop) : List Frame → Prop where
  | enter {v : Nat} : ¬ known v → (∀ x, known' x ↔ x = v ∨ known x) →
      Start next known known' [⟨v, next v⟩]
  | skip : (∀ x, known' x ↔ known x) → Start next known known' []

/-- What one turn does to the path and to what is known. -/
inductive Turn (next : Nat → List Nat) (known known' : Nat → Prop) :
    List Frame → List Frame → Prop where
  | enter {v u : Nat} {rest : List Nat} {below : List Frame} : ¬ known u →
      (∀ x, known' x ↔ x = u ∨ known x) →
      Turn next known known' (⟨v, u :: rest⟩ :: below) (⟨u, next u⟩ :: ⟨v, rest⟩ :: below)
  | pass {v u : Nat} {rest : List Nat} {below : List Frame} : (∀ x, known' x ↔ known x) →
      Turn next known known' (⟨v, u :: rest⟩ :: below) (⟨v, rest⟩ :: below)
  | leave {v : Nat} {below : List Frame} : (∀ x, known' x ↔ known x) →
      Turn next known known' (⟨v, []⟩ :: below) below

/-- The tally agrees with the path and with what is known. -/
structure Balanced (next : Nat → List Nat) (known : Nat → Prop) (c : Tally) (path : List Frame) :
    Prop where
  nodup : c.entered.Nodup
  entered : ∀ v, v ∈ c.entered ↔ known v
  examined : (waiting path ++ c.examined).Perm (linksFrom next c.entered)
  turns : c.turns + path.length = c.entered.length + c.examined.length

namespace Balanced

variable {c : Tally}

theorem blank (next : Nat → List Nat) (h : ∀ v, ¬ known v) : Balanced next known {} [] := by
  refine ⟨List.nodup_nil, ?_, List.Perm.refl [], rfl⟩
  intro v
  simp [h v]

theorem congr (h : Balanced next known c path) (hknown : ∀ x, known' x ↔ known x) :
    Balanced next known' c path := by
  refine ⟨h.nodup, ?_, h.examined, h.turns⟩
  intro v
  rw [hknown]
  exact h.entered v

theorem enter (h : Balanced next known c path) {u : Nat} (hu : ¬ known u)
    (hknown : ∀ x, known' x ↔ x = u ∨ known x) :
    Balanced next known' { c with entered := u :: c.entered } (⟨u, next u⟩ :: path) := by
  constructor
  case nodup => exact List.nodup_cons.mpr ⟨fun hmem => hu ((h.entered u).mp hmem), h.nodup⟩
  case entered =>
    intro v
    rw [List.mem_cons, h.entered, hknown]
  case examined =>
    rw [waiting, List.flatMap_cons, List.append_assoc, linksFrom, List.flatMap_cons]
    exact h.examined.append_left _
  case turns =>
    have hturns := h.turns
    simp only [List.length_cons]
    omega

theorem examine {v u : Nat} {rest : List Nat} {below : List Frame}
    (h : Balanced next known c (⟨v, u :: rest⟩ :: below)) :
    Balanced next known ⟨c.entered, (v, u) :: c.examined, c.turns + 1⟩ (⟨v, rest⟩ :: below) := by
  refine ⟨h.nodup, h.entered, ?_, ?_⟩
  · exact List.perm_middle.trans h.examined
  · have hturns := h.turns
    simp only [List.length_cons] at hturns ⊢
    omega

theorem leave {v : Nat} {below : List Frame} (h : Balanced next known c (⟨v, []⟩ :: below)) :
    Balanced next known { c with turns := c.turns + 1 } below := by
  refine ⟨h.nodup, h.entered, h.examined, ?_⟩
  have hturns := h.turns
  simp only [List.length_cons] at hturns ⊢
  omega

theorem start (h : Balanced next known c []) (hs : Start next known known' path) :
    Balanced next known' (c.start [] path) path := by
  cases hs with
  | enter hv hknown => exact h.enter hv hknown
  | skip hknown => exact h.congr hknown

/-- The step: a tally that balances still does after one turn. -/
theorem turn (h : Balanced next known c path) (ht : Turn next known known' path path') :
    Balanced next known' (c.turn path path') path' := by
  cases ht with
  | enter hu hknown =>
    rw [Tally.turn_enter]
    exact h.examine.enter hu hknown
  | pass hknown =>
    rw [Tally.turn_pass]
    exact h.examine.congr hknown
  | leave hknown =>
    rw [Tally.turn_leave]
    exact h.leave.congr hknown

section Bounds

variable {n : Nat}

theorem entered_le (h : Balanced next known c path) (hlt : ∀ v, known v → v < n) :
    c.entered.length ≤ n :=
  length_le_of_lt h.nodup fun v hv => hlt v ((h.entered v).mp hv)

theorem examined_le (h : Balanced next known c path) (hlt : ∀ v, known v → v < n)
    (hnodup : ∀ v, (next v).Nodup) :
    c.examined.length ≤ (linksFrom next (List.range n)).length := by
  have hsub : linksFrom next c.entered ⊆ linksFrom next (List.range n) := by
    intro l hl
    obtain ⟨hv, hu⟩ := mem_linksFrom.mp hl
    exact mem_linksFrom.mpr ⟨List.mem_range.mpr (hlt l.1 ((h.entered l.1).mp hv)), hu⟩
  have hall := (List.subperm_of_subset (linksFrom_nodup hnodup h.nodup) hsub).length_le
  have hperm := h.examined.length_eq
  rw [List.length_append] at hperm
  omega

theorem turns_le (h : Balanced next known c path) (hlt : ∀ v, known v → v < n)
    (hnodup : ∀ v, (next v).Nodup) :
    c.turns ≤ n + (linksFrom next (List.range n)).length := by
  have hturns := h.turns
  have hentered := h.entered_le hlt
  have hexamined := h.examined_le hlt hnodup
  omega

theorem ended (h : Balanced next known c []) (hall : ∀ v, known v ↔ v < n) :
    c.entered.Perm (List.range n) ∧ c.examined.Perm (linksFrom next (List.range n)) ∧
      c.turns = n + (linksFrom next (List.range n)).length := by
  have hentered : c.entered.Perm (List.range n) := by
    rw [List.perm_ext_iff_of_nodup h.nodup List.nodup_range]
    intro v
    rw [h.entered, hall, List.mem_range]
  have hexamined : c.examined.Perm (linksFrom next (List.range n)) :=
    h.examined.trans (hentered.flatMap_right _)
  refine ⟨hentered, hexamined, ?_⟩
  have hturns := h.turns
  rwa [hentered.length_eq, hexamined.length_eq, List.length_range] at hturns

end Bounds

end Balanced

end DepGraph.Walk
