import DepGraph.Proofs.Order
import DepGraph.Table.Basic
import Mathlib.Logic.Relation

/-!
# Declarations and what a table records of them

The dependency relation is read off the declarations a table has taken, never off its nodes. A
table that takes declarations numbers every entity they mention in the order of first mention, and
keeps for each the numbers of what it was declared to depend on.
-/

namespace DepGraph

variable {E : Type}

def Declares (ds : List (E × List E)) (e d : E) : Prop := ∃ deps, (e, deps) ∈ ds ∧ d ∈ deps

/-- Depending on another entity. A self reference is declared but is no dependency. -/
def DependsOn (ds : List (E × List E)) (e d : E) : Prop := Declares ds e d ∧ d ≠ e

def Reaches (ds : List (E × List E)) : E → E → Prop := Relation.ReflTransGen (DependsOn ds)

/-- The strongly connected component of an entity: what it reaches and is reached from. -/
def Mutual (ds : List (E × List E)) (a b : E) : Prop := Reaches ds a b ∧ Reaches ds b a

def Joined (ds : List (E × List E)) : E → E → Prop :=
  Relation.ReflTransGen fun a b => DependsOn ds a b ∨ DependsOn ds b a

def Lone (ds : List (E × List E)) (e : E) : Prop := ∀ d, ¬ DependsOn ds e d ∧ ¬ DependsOn ds d e

def Cyclic (ds : List (E × List E)) : Prop := ∃ e, Relation.TransGen (DependsOn ds) e e

/-- Every mention of an entity, in order: each declared entity before its dependencies. -/
def mentions (ds : List (E × List E)) : List E := ds.flatMap fun d => d.1 :: d.2

/-- The entity was declared to depend on itself, and no entity mentioned before it was. -/
def FirstSelfLoop (ds : List (E × List E)) (e : E) : Prop :=
  ∃ before after, mentions ds = before ++ e :: after ∧ Declares ds e e ∧
    ∀ x ∈ before, ¬ Declares ds x x

open Classical in
theorem firstSelfLoop_iff {ds : List (E × List E)} {e : E} : FirstSelfLoop ds e ↔
    (mentions ds).find? (fun x => decide (Declares ds x x)) = some e := by
  rw [List.find?_eq_some_iff_append]
  constructor
  · rintro ⟨before, after, hsplit, he, hbefore⟩
    exact ⟨decide_eq_true he, before, after, hsplit, fun x hx => by simpa using hbefore x hx⟩
  · rintro ⟨he, before, after, hsplit, hbefore⟩
    exact ⟨before, after, hsplit, of_decide_eq_true he, fun x hx => by simpa using hbefore x hx⟩

theorem FirstSelfLoop.unique {ds : List (E × List E)} {a b : E} (ha : FirstSelfLoop ds a)
    (hb : FirstSelfLoop ds b) : a = b :=
  Option.some.inj ((firstSelfLoop_iff.mp ha).symm.trans (firstSelfLoop_iff.mp hb))

theorem mentions_append (ds : List (E × List E)) (e : E) (deps : List E) :
    mentions (ds ++ [(e, deps)]) = mentions ds ++ e :: deps := by
  simp [mentions]

theorem Declares.mentioned {ds : List (E × List E)} {e d : E} (h : Declares ds e d) :
    e ∈ mentions ds ∧ d ∈ mentions ds := by
  obtain ⟨deps, hm, hd⟩ := h
  constructor
  · exact List.mem_flatMap.mpr ⟨_, hm, List.mem_cons_self⟩
  · exact List.mem_flatMap.mpr ⟨_, hm, List.mem_cons_of_mem _ hd⟩

theorem exists_firstSelfLoop {ds : List (E × List E)} (h : ∃ e, Declares ds e e) :
    ∃ e, FirstSelfLoop ds e := by
  classical
  obtain ⟨e, he⟩ := h
  have hsome : ((mentions ds).find? fun x => decide (Declares ds x x)).isSome = true :=
    List.find?_isSome.mpr ⟨e, he.mentioned.1, decide_eq_true he⟩
  obtain ⟨first, hfirst⟩ := Option.isSome_iff_exists.mp hsome
  exact ⟨first, firstSelfLoop_iff.mpr hfirst⟩

theorem declares_append {ds : List (E × List E)} {e a d : E} {deps : List E} :
    Declares (ds ++ [(e, deps)]) a d ↔ Declares ds a d ∨ a = e ∧ d ∈ deps := by
  simp only [Declares, List.mem_append, List.mem_singleton, Prod.mk.injEq]
  constructor
  · rintro ⟨l, hm | ⟨rfl, rfl⟩, hd⟩
    · exact Or.inl ⟨l, hm, hd⟩
    · exact Or.inr ⟨rfl, hd⟩
  · rintro (⟨l, hm, hd⟩ | ⟨rfl, hd⟩)
    · exact ⟨l, Or.inl hm, hd⟩
    · exact ⟨deps, Or.inr ⟨rfl, rfl⟩, hd⟩

theorem Mutual.symm {ds : List (E × List E)} {a b : E} (h : Mutual ds a b) : Mutual ds b a :=
  ⟨h.2, h.1⟩

theorem Mutual.trans {ds : List (E × List E)} {a b c : E} (h : Mutual ds a b)
    (k : Mutual ds b c) : Mutual ds a c :=
  ⟨h.1.trans k.1, k.2.trans h.2⟩

theorem Reaches.transGen {ds : List (E × List E)} {a b : E} (h : Reaches ds a b) (hne : a ≠ b) :
    Relation.TransGen (DependsOn ds) a b := by
  rcases Relation.reflTransGen_iff_eq_or_transGen.mp h with rfl | h
  · exact absurd rfl hne
  · exact h

theorem cyclic_iff {ds : List (E × List E)} : Cyclic ds ↔ ∃ a b, a ≠ b ∧ Mutual ds a b := by
  constructor
  · rintro ⟨e, hcyc⟩
    obtain ⟨d, hdep, hback⟩ := Relation.TransGen.head'_iff.mp hcyc
    exact ⟨e, d, hdep.2.symm, .single hdep, hback⟩
  · rintro ⟨a, b, hne, hab, hba⟩
    exact ⟨a, (Reaches.transGen hab hne).trans_left hba⟩

theorem Lone.joined_iff {ds : List (E × List E)} {a b : E} (h : Lone ds a) :
    Joined ds a b ↔ a = b := by
  constructor
  · intro hab
    rcases Relation.ReflTransGen.cases_head hab with heq | ⟨d, hd, _⟩
    · exact heq
    · exact absurd hd (not_or.mpr (h d))
  · intro hab
    subst hab
    exact .refl

namespace Entity

variable [Entity E]

def note (known : List E) (e : E) : List E := if among e known then known else known ++ [e]

theorem mem_foldl_note {es known : List E} {e : E} :
    e ∈ es.foldl note known ↔ e ∈ known ∨ e ∈ es := by
  induction es generalizing known with
  | nil => simp
  | cons x xs ih =>
    rw [List.foldl_cons, ih, note]
    split
    · rename_i hx
      rw [among_iff] at hx
      constructor
      · rintro (h | h)
        · exact Or.inl h
        · exact Or.inr (List.mem_cons_of_mem _ h)
      · rintro (h | h)
        · exact Or.inl h
        · rcases List.mem_cons.mp h with rfl | h
          · exact Or.inl hx
          · exact Or.inr h
    · simp [or_assoc]

theorem find?_foldl_note (p : E → Bool) (es known : List E) :
    (es.foldl note known).find? p = (known.find? p).or (es.find? p) := by
  induction es generalizing known with
  | nil => simp
  | cons x xs ih =>
    rw [List.foldl_cons, ih, note]
    split
    · rename_i hx
      rw [among_iff] at hx
      cases hp : p x with
      | false => simp [hp]
      | true =>
        obtain ⟨y, hy⟩ := Option.isSome_iff_exists.mp (List.find?_isSome.mpr ⟨x, hx, hp⟩)
        simp [hy]
    · rw [List.find?_append, Option.or_assoc]
      cases hp : p x <;> simp [hp]

theorem ascending_of_adjacent?_eq_none {es : List E} (hs : es.Pairwise fun a b => le a b = true)
    (h : repeated?.adjacent? es = none) : Ascending es := by
  induction es with
  | nil => exact List.Pairwise.nil
  | cons a es ih =>
    cases es with
    | nil => exact List.pairwise_singleton _ _
    | cons b rest =>
      rw [repeated?.adjacent?] at h
      split at h
      · cases h
      · rename_i hne
        rw [same_iff] at hne
        have hrest := ih hs.of_cons h
        have hab : Below a b := below_of_isLE (List.rel_of_pairwise_cons hs List.mem_cons_self) hne
        refine List.pairwise_cons.mpr ⟨?_, hrest⟩
        intro c hc
        rcases List.mem_cons.mp hc with rfl | hc
        · exact hab
        · exact below_trans hab (List.rel_of_pairwise_cons hrest hc)

theorem nodup_of_repeated?_eq_none {es : List E} (h : repeated? es = none) : es.Nodup := by
  have hasc := ascending_of_adjacent?_eq_none (pairwise_mergeSort_compare (fun e : E => e) es) h
  exact (sort_perm es).nodup_iff.mp hasc.nodup

theorem adjacent?_eq_none_of_nodup {es : List E} (h : es.Nodup) :
    repeated?.adjacent? es = none := by
  fun_induction repeated?.adjacent? es with
  | case1 a b rest hsame =>
    obtain rfl := same_iff.mp hsame
    exact absurd List.mem_cons_self (List.nodup_cons.mp h).1
  | case2 a b rest hne ih => exact ih (List.nodup_cons.mp h).2
  | case3 => rfl

theorem repeated?_eq_none_iff {es : List E} : repeated? es = none ↔ es.Nodup :=
  ⟨nodup_of_repeated?_eq_none,
    fun h => adjacent?_eq_none_of_nodup ((sort_perm es).nodup_iff.mpr h)⟩

end Entity

end DepGraph
