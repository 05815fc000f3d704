/-!
# Entities

Entities are what a dependency graph relates: values of a type with a lawful total order.
Cohorts, clusters and prunable entities are listed by that order, whatever order they were
declared in.
-/

namespace DepGraph

/-- A type of entities. The laws are part of the class, so a graph over it needs no hypotheses. -/
class Entity (E : Type) extends Ord E where
  [transOrd : Std.TransOrd E]
  [lawfulEqOrd : Std.LawfulEqOrd E]

attribute [instance] Entity.transOrd Entity.lawfulEqOrd

instance : Entity Int where

instance : Entity String where

/-- How an entity is written: plainly, or quoted inside a message. -/
class Label (E : Type) where
  plain : E → String
  quoted : E → String

namespace Entity

variable {E : Type} [Entity E] {α : Type}

def le (a b : E) : Bool := (compare a b).isLE

def same (a b : E) : Bool := compare a b == .eq

theorem same_iff {a b : E} : same a b = true ↔ a = b := by
  simp [same]

/-- Membership by the order, usable without a decidable equality. -/
def among (e : E) (es : List E) : Bool := es.any (same e)

theorem among_iff {e : E} {es : List E} : among e es = true ↔ e ∈ es := by
  simp [among, same_iff]

/-- Looks an entity up in an ascending list, halving the stretch that may hold it. -/
def seek (e : E) (es : List E) : Bool :=
  match _h : es.drop (es.length / 2) with
  | [] => false
  | middle :: upper =>
    match compare e middle with
    | .lt => seek e (es.take (es.length / 2))
    | .eq => true
    | .gt => seek e upper
termination_by es.length
decreasing_by
  all_goals
    have hlength := congrArg List.length _h
    simp at hlength ⊢
    omega

def sort (es : List E) : List E := es.mergeSort le

/-- A stable sort by a key that may be missing; missing keys come first. -/
def sortBy (key : α → Option E) (xs : List α) : List α :=
  xs.mergeSort fun a b => (compare (key a) (key b)).isLE

def repeated? (es : List E) : Option E := adjacent? (sort es)
where
  adjacent? : List E → Option E
    | a :: b :: rest => if same a b then some a else adjacent? (b :: rest)
    | _ => none

end Entity

end DepGraph
