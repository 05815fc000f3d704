import Mathlib.Data.List.Nodup

/-!
# Writing at distinct places

Arrays that are written once at each of several places. No write disturbs another, so each place
ends with what was written there and every other place keeps what it held.
-/

namespace DepGraph.Writes

variable {α β : Type} {f : β → α → α} {l : List (Nat × β)} {i : Nat}

theorem modify_elsewhere (a : Array α) (h : ∀ p ∈ l, p.1 ≠ i) :
    (l.foldl (fun a p => a.modify p.1 (f p.2)) a)[i]? = a[i]? := by
  induction l generalizing a with
  | nil => rfl
  | cons p l ih =>
    rw [List.foldl_cons, ih _ (fun q hq => h q (List.mem_cons_of_mem _ hq)), Array.getElem?_modify,
      if_neg (h p List.mem_cons_self)]

theorem modify_at (a : Array α) {b : β} (hl : (l.map (·.1)).Nodup) (h : (i, b) ∈ l) :
    (l.foldl (fun a p => a.modify p.1 (f p.2)) a)[i]? = (a[i]?).map (f b) := by
  induction l generalizing a with
  | nil => simp at h
  | cons p l ih =>
    rw [List.map_cons, List.nodup_cons] at hl
    rw [List.foldl_cons]
    rcases List.mem_cons.mp h with rfl | h
    · rw [modify_elsewhere, Array.getElem?_modify, if_pos rfl]
      intro q hq hqi
      exact hl.1 (List.mem_map.mpr ⟨q, hq, hqi⟩)
    · have hne : p.1 ≠ i := by
        intro hpi
        exact hl.1 (List.mem_map.mpr ⟨_, h, hpi.symm⟩)
      rw [ih _ hl.2 h, Array.getElem?_modify, if_neg hne]

theorem size_modify (a : Array α) :
    (l.foldl (fun a p => a.modify p.1 (f p.2)) a).size = a.size := by
  induction l generalizing a with
  | nil => rfl
  | cons p l ih => rw [List.foldl_cons, ih, Array.size_modify]

theorem lookup_iff {γ : Type} (val : β → γ) {size : Nat} (hl : (l.map (·.1)).Nodup)
    (hlt : ∀ p ∈ l, p.1 < size) {y : γ} :
    ((l.foldl (fun a p => a.modify p.1 fun _ => some (val p.2))
      (Array.replicate size none))[i]?).join = some y ↔ ∃ b, (i, b) ∈ l ∧ val b = y := by
  constructor
  · intro h
    by_cases hi : ∃ b, (i, b) ∈ l
    · obtain ⟨b, hb⟩ := hi
      rw [modify_at (f := fun b _ => some (val b)) _ hl hb, Array.getElem?_replicate,
        if_pos (hlt _ hb)] at h
      exact ⟨b, hb, Option.some.inj h⟩
    · rw [modify_elsewhere (f := fun b _ => some (val b)), Array.getElem?_replicate] at h
      · split at h <;> cases h
      · rintro ⟨k, b⟩ hp rfl
        exact hi ⟨b, hp⟩
  · rintro ⟨b, hb, rfl⟩
    rw [modify_at (f := fun b _ => some (val b)) _ hl hb, Array.getElem?_replicate,
      if_pos (hlt _ hb)]
    rfl

theorem modify_reads {γ : Type} (read : α → γ) (hread : ∀ b x, read (f b x) = read x)
    (a : Array α) (i : Nat) :
    ((l.foldl (fun a p => a.modify p.1 (f p.2)) a)[i]?).map read = (a[i]?).map read := by
  induction l generalizing a with
  | nil => rfl
  | cons p l ih =>
    rw [List.foldl_cons, ih, Array.getElem?_modify]
    split
    · rw [Option.map_map]
      exact congrArg (Option.map · _) (funext fun x => hread p.2 x)
    · rfl

/-- A map that commutes with every write may be taken before or after them. -/
theorem modify_map (g : α → α) (hg : ∀ b x, f b (g x) = g (f b x)) (a : Array α) :
    l.foldl (fun a p => a.modify p.1 (f p.2)) (a.map g) =
      (l.foldl (fun a p => a.modify p.1 (f p.2)) a).map g := by
  induction l generalizing a with
  | nil => rfl
  | cons p l ih =>
    have hwrite : (a.map g).modify p.1 (f p.2) = (a.modify p.1 (f p.2)).map g := by
      apply Array.ext_getElem?
      intro j
      rw [Array.getElem?_modify, Array.getElem?_map, Array.getElem?_map, Array.getElem?_modify]
      split
      · rw [Option.map_map, Option.map_map]
        exact congrArg (Option.map · _) (funext fun x => hg p.2 x)
      · rfl
    rw [List.foldl_cons, List.foldl_cons, hwrite, ih]

section Owners

variable {keys : β → List Nat} {xs : List β}

def owners (keys : β → List Nat) (xs : List β) : List (Nat × β) :=
  xs.flatMap fun x => (keys x).map (·, x)

theorem mem_owners {x : β} : (i, x) ∈ owners keys xs ↔ x ∈ xs ∧ i ∈ keys x := by
  simp [owners]

theorem keys_owners (keys : β → List Nat) (xs : List β) :
    (owners keys xs).map (·.1) = xs.flatMap keys := by
  simp [owners, List.map_flatMap, Function.comp_def]

theorem foldl_owners (a : Array α) :
    xs.foldl (fun a x => (keys x).foldl (fun a i => a.modify i (f x)) a) a =
      (owners keys xs).foldl (fun a p => a.modify p.1 (f p.2)) a := by
  simp [owners, List.foldl_flatMap, List.foldl_map]

theorem each_elsewhere (f : β → α → α) (keys : β → List Nat) (a : Array α)
    (h : ∀ x ∈ xs, i ∉ keys x) :
    (xs.foldl (fun a x => (keys x).foldl (fun a i => a.modify i (f x)) a) a)[i]? = a[i]? := by
  rw [foldl_owners]
  apply modify_elsewhere
  rintro ⟨k, x⟩ hp rfl
  exact h x (mem_owners.mp hp).1 (mem_owners.mp hp).2

theorem each_at (f : β → α → α) (a : Array α) (hn : (xs.flatMap keys).Nodup) {x : β} (hx : x ∈ xs)
    (hi : i ∈ keys x) :
    (xs.foldl (fun a x => (keys x).foldl (fun a i => a.modify i (f x)) a) a)[i]? =
      (a[i]?).map (f x) := by
  rw [foldl_owners]
  exact modify_at a (keys_owners keys xs ▸ hn) (mem_owners.mpr ⟨hx, hi⟩)

theorem each_reads {γ : Type} (f : β → α → α) (keys : β → List Nat) (xs : List β) (read : α → γ)
    (hread : ∀ b x, read (f b x) = read x) (a : Array α) (i : Nat) :
    ((xs.foldl (fun a x => (keys x).foldl (fun a i => a.modify i (f x)) a) a)[i]?).map read =
      (a[i]?).map read := by
  rw [foldl_owners]
  exact modify_reads read hread a i

theorem each_map (f : β → α → α) (keys : β → List Nat) (xs : List β) (g : α → α)
    (hg : ∀ b x, f b (g x) = g (f b x)) (a : Array α) :
    xs.foldl (fun a x => (keys x).foldl (fun a i => a.modify i (f x)) a) (a.map g) =
      (xs.foldl (fun a x => (keys x).foldl (fun a i => a.modify i (f x)) a) a).map g := by
  rw [foldl_owners, foldl_owners]
  exact modify_map g hg a

theorem each_lookup {γ : Type} (keys : β → List Nat) (xs : List β) (val : β → γ) {size : Nat}
    (hn : (xs.flatMap keys).Nodup) (hlt : ∀ k ∈ xs.flatMap keys, k < size) {y : γ} :
    ((xs.foldl (fun a x => (keys x).foldl (fun a i => a.modify i fun _ => some (val x)) a)
      (Array.replicate size none))[i]?).join = some y ↔ ∃ x ∈ xs, i ∈ keys x ∧ val x = y := by
  rw [foldl_owners (f := fun x _ => some (val x)),
    lookup_iff val (by rw [keys_owners]; exact hn) (fun p hp => hlt p.1 ?_)]
  · simp only [mem_owners, and_assoc]
  · rw [← keys_owners]
    exact List.mem_map_of_mem hp

theorem each_size (f : β → α → α) (keys : β → List Nat) (xs : List β) (a : Array α) :
    (xs.foldl (fun a x => (keys x).foldl (fun a i => a.modify i (f x)) a) a).size = a.size := by
  rw [foldl_owners, size_modify]

end Owners

theorem setIfInBounds_eq_modify (a : Array α) (i : Nat) (x : α) :
    a.setIfInBounds i x = a.modify i (fun _ => x) := by
  apply Array.ext_getElem?
  intro j
  rw [Array.getElem?_setIfInBounds, Array.getElem?_modify]
  split
  · rename_i hij
    subst hij
    split
    · rename_i hi
      simp [hi]
    · rename_i hi
      simp [hi]
  · rfl

theorem getD_setIfInBounds {α : Type} (a : Array α) (i j : Nat) (x d : α) (hi : i < a.size) :
    (a.setIfInBounds i x).getD j d = if j = i then x else a.getD j d := by
  rw [Array.getD_eq_getD_getElem?, Array.getElem?_setIfInBounds, Array.getD_eq_getD_getElem?]
  by_cases hji : j = i
  · subst hji
    simp [hi]
  · rw [if_neg (Ne.symm hji), if_neg hji]

theorem getD_modify {α : Type} (a : Array α) (i j : Nat) (g : α → α) (d : α) (hi : i < a.size) :
    (a.modify i g).getD j d = if j = i then g (a.getD j d) else a.getD j d := by
  rw [Array.getD_eq_getD_getElem?, Array.getElem?_modify, Array.getD_eq_getD_getElem?]
  by_cases hji : j = i
  · subst hji
    simp [hi]
  · rw [if_neg (Ne.symm hji), if_neg hji]

theorem getD_replicate {α : Type} (n i : Nat) (x : α) : (Array.replicate n x).getD i x = x := by
  rw [Array.getD_eq_getD_getElem?, Array.getElem?_replicate]
  split <;> rfl

theorem size_cleared (ids : List Nat) (marks : Array Bool) :
    (ids.foldl (fun marks v => marks.setIfInBounds v false) marks).size = marks.size := by
  induction ids generalizing marks with
  | nil => rfl
  | cons k ids ih => rw [List.foldl_cons, ih, Array.size_setIfInBounds]

theorem cleared_iff (ids : List Nat) (marks : Array Bool) (i : Nat) :
    (ids.foldl (fun marks v => marks.setIfInBounds v false) marks).getD i false = true ↔
      marks.getD i false = true ∧ i ∉ ids := by
  induction ids generalizing marks with
  | nil => simp
  | cons k ids ih =>
    have hset : (marks.setIfInBounds k false).getD i false = true ↔
        marks.getD i false = true ∧ i ≠ k := by
      rw [Array.getD_eq_getD_getElem?, Array.getElem?_setIfInBounds, Array.getD_eq_getD_getElem?]
      by_cases hik : i = k
      · subst hik
        by_cases hi : i < marks.size <;> simp [hi]
      · simp [hik, Ne.symm hik]
    rw [List.foldl_cons, ih, hset, List.mem_cons, not_or, and_assoc]

end DepGraph.Writes
