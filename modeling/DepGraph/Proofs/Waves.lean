import DepGraph.Cohort.Ranker
import DepGraph.Proofs.Counting
import DepGraph.Proofs.Walks
import DepGraph.Proofs.Writes
import Mathlib.Algebra.BigOperators.Group.Finset.Piecewise
import Mathlib.Data.Fintype.Basic
import Mathlib.Data.Fintype.Card
import Mathlib.Data.Fintype.EquivFin
import Mathlib.Logic.Relation

/-!
# Ranking in waves

Each link of the group graph is settled once. The count of a group is the number of its incoming
links still to be settled, and its rank is one above the highest group whose link to it was. A
group takes its turn only after its count has come down to zero, so no rank changes after it has
been passed on. A wave is what is ranked alike, so the cohorts filled rank by rank are the waves.
Without a cycle every group gets its turn.
-/

namespace DepGraph.Cohort

namespace Ranker

variable {next : Nat → List Nat} {n : Nat} {seen seen' : Nat → Nat → Prop} {r : Ranker}

def rankAt (r : Ranker) (g : Nat) : Nat := r.ranks.getD g 0

open Classical in
noncomputable def waits (next : Nat → List Nat) (n : Nat) (seen : Nat → Nat → Prop) (d : Nat) :
    Finset Nat :=
  (Finset.range n).filter fun g => d ∈ next g ∧ ¬ seen g d

def Ready (next : Nat → List Nat) (n : Nat) (seen : Nat → Nat → Prop) (d : Nat) : Prop :=
  d < n ∧ waits next n seen d = ∅

/-- The ranker after the links in `seen` have been settled. -/
structure Progress (next : Nat → List Nat) (n : Nat) (seen : Nat → Nat → Prop) (r : Ranker) :
    Prop where
  left_size : r.left.size = n
  ranks_size : r.ranks.size = n
  link : ∀ g d, seen g d → g < n ∧ d ∈ next g
  ready : ∀ g d, seen g d → Ready next n seen g
  left : ∀ d < n, r.left.getD d 0 = (waits next n seen d).card
  above : ∀ g d, seen g d → r.rankAt g < r.rankAt d
  attained : ∀ d < n, r.rankAt d = 0 ∨ ∃ g, seen g d ∧ r.rankAt d = r.rankAt g + 1

theorem mem_waits {g d : Nat} : g ∈ waits next n seen d ↔ g < n ∧ d ∈ next g ∧ ¬ seen g d := by
  simp [waits]

theorem ready_iff {d : Nat} : Ready next n seen d ↔ d < n ∧ ∀ g < n, d ∈ next g → seen g d := by
  rw [Ready, Finset.eq_empty_iff_forall_notMem]
  simp only [mem_waits]
  constructor
  · rintro ⟨hd, hall⟩
    refine ⟨hd, fun g hg hlink => ?_⟩
    by_contra hns
    exact hall g ⟨hg, hlink, hns⟩
  · rintro ⟨hd, hall⟩
    refine ⟨hd, ?_⟩
    rintro g ⟨hg, hlink, hns⟩
    exact hns (hall g hg hlink)

theorem Ready.mono (hsub : ∀ g d, seen g d → seen' g d) {d : Nat} (h : Ready next n seen d) :
    Ready next n seen' d := by
  rw [ready_iff] at h ⊢
  exact ⟨h.1, fun g hg hlink => hsub g d (h.2 g hg hlink)⟩

theorem Progress.congr (h : Progress next n seen r) {r' : Ranker} (hleft : r'.left = r.left)
    (hranks : r'.ranks = r.ranks) (heq : ∀ g d, seen g d ↔ seen' g d) :
    Progress next n seen' r' := by
  have hseen : seen = seen' := by
    funext g d
    exact propext (heq g d)
  have hrank (g : Nat) : r'.rankAt g = r.rankAt g := by rw [rankAt, rankAt, hranks]
  subst hseen
  constructor
  case left_size => rw [hleft, h.left_size]
  case ranks_size => rw [hranks, h.ranks_size]
  case link => exact h.link
  case ready => exact h.ready
  case left => simpa only [hleft] using h.left
  case above => simpa only [hrank] using h.above
  case attained => simpa only [hrank] using h.attained

section Settle

variable {g d : Nat}

def withLink (seen : Nat → Nat → Prop) (g d : Nat) (x y : Nat) : Prop := seen x y ∨ x = g ∧ y = d

theorem waits_withLink_self :
    waits next n (withLink seen g d) d = (waits next n seen d).erase g := by
  ext x
  simp only [mem_waits, Finset.mem_erase, withLink]
  grind

theorem waits_withLink_other {y : Nat} (hy : y ≠ d) :
    waits next n (withLink seen g d) y = waits next n seen y := by
  ext x
  simp only [mem_waits, withLink]
  grind

theorem left_pos (h : Progress next n seen r) (hg : g < n) (hd : d < n) (hlink : d ∈ next g)
    (hnew : ¬ seen g d) : 0 < r.left.getD d 0 := by
  rw [h.left d hd, Finset.card_pos]
  exact ⟨g, mem_waits.mpr ⟨hg, hlink, hnew⟩⟩

theorem settle_rankAt (h : Progress next n seen r) (hd : d < n) (x : Nat) :
    (r.settle g d).rankAt x = if x = d then max (r.rankAt d) (r.rankAt g + 1) else r.rankAt x := by
  rw [rankAt, settle, Writes.getD_modify _ _ _ _ _ (by rw [h.ranks_size]; exact hd)]
  split
  · rename_i hx
    subst hx
    rfl
  · rfl

theorem not_ready_of_waits (hwait : g ∈ waits next n seen d) : ¬ Ready next n seen d := by
  rintro ⟨_, hempty⟩
  rw [hempty] at hwait
  simp at hwait

theorem Progress.ne_of_waits (h : Progress next n seen r) (hwait : g ∈ waits next n seen d)
    {x y : Nat} (hs : seen x y) : x ≠ d := by
  rintro rfl
  exact not_ready_of_waits hwait (h.ready x y hs)

theorem settle_above (h : Progress next n seen r) (hd : d < n)
    (hwait : g ∈ waits next n seen d) (hgd : g ≠ d) {x y : Nat} (hs : withLink seen g d x y) :
    (r.settle g d).rankAt x < (r.settle g d).rankAt y := by
  have hrank := settle_rankAt (g := g) h hd
  rcases hs with hs | ⟨rfl, rfl⟩
  · have hlt := h.above x y hs
    rw [hrank, hrank, if_neg (h.ne_of_waits hwait hs)]
    split
    · rename_i hyd
      subst hyd
      omega
    · exact hlt
  · rw [hrank, hrank, if_neg hgd, if_pos rfl]
    omega

theorem settle_attained (h : Progress next n seen r) (hd : d < n)
    (hwait : g ∈ waits next n seen d) (hgd : g ≠ d) {y : Nat} (hy : y < n) :
    (r.settle g d).rankAt y = 0 ∨
      ∃ x, withLink seen g d x y ∧ (r.settle g d).rankAt y = (r.settle g d).rankAt x + 1 := by
  have hrank := settle_rankAt (g := g) h hd
  rw [hrank]
  split
  · rename_i hyd
    subst hyd
    rcases Nat.le_total (r.rankAt y) (r.rankAt g + 1) with hle | hle
    · refine Or.inr ⟨g, Or.inr ⟨rfl, rfl⟩, ?_⟩
      rw [hrank, if_neg hgd]
      omega
    · rcases h.attained y hy with hzero | ⟨x, hs, hx⟩
      · omega
      · refine Or.inr ⟨x, Or.inl hs, ?_⟩
        rw [hrank, if_neg (h.ne_of_waits hwait hs)]
        omega
  · rcases h.attained y hy with hzero | ⟨x, hs, hx⟩
    · exact Or.inl hzero
    · refine Or.inr ⟨x, Or.inl hs, ?_⟩
      rw [hrank, if_neg (h.ne_of_waits hwait hs)]
      exact hx

theorem settle_progress (h : Progress next n seen r) (hg : Ready next n seen g) (hd : d < n)
    (hlink : d ∈ next g) (hnew : ¬ seen g d) :
    Progress next n (withLink seen g d) (r.settle g d) := by
  have hwait : g ∈ waits next n seen d := mem_waits.mpr ⟨hg.1, hlink, hnew⟩
  have hgd : g ≠ d := by
    rintro rfl
    exact not_ready_of_waits hwait hg
  have hmore (x y : Nat) (hs : seen x y) : withLink seen g d x y := Or.inl hs
  constructor
  case left_size => simp [settle, h.left_size]
  case ranks_size => simp [settle, h.ranks_size]
  case link =>
    rintro x y (hs | ⟨rfl, rfl⟩)
    · exact h.link x y hs
    · exact ⟨hg.1, hlink⟩
  case ready =>
    rintro x y (hs | ⟨rfl, rfl⟩)
    · exact (h.ready x y hs).mono hmore
    · exact hg.mono hmore
  case left =>
    intro y hy
    rw [settle, Writes.getD_modify _ _ _ _ _ (by rw [h.left_size]; exact hd)]
    split
    · rename_i hyd
      subst hyd
      rw [h.left y hy, waits_withLink_self, Finset.card_erase_of_mem hwait]
    · rename_i hyd
      rw [h.left y hy, waits_withLink_other hyd]
  case above => exact fun _ _ => settle_above h hd hwait hgd
  case attained => exact fun _ => settle_attained h hd hwait hgd

/-- Settling one link makes its target ready exactly if it was the last one missing. -/
theorem settle_ready (h : Progress next n seen r) (hg : Ready next n seen g) (hd : d < n)
    (hlink : d ∈ next g) (hnew : ¬ seen g d) (y : Nat) :
    Ready next n (withLink seen g d) y ↔ Ready next n seen y ∨ y = d ∧ r.left.getD d 0 = 1 := by
  have hwait : g ∈ waits next n seen d := mem_waits.mpr ⟨hg.1, hlink, hnew⟩
  by_cases hy : y = d
  · subst hy
    have hcard := Finset.card_erase_add_one hwait
    rw [or_iff_right (not_ready_of_waits hwait), and_iff_right rfl, Ready, and_iff_right hd,
      waits_withLink_self, ← Finset.card_eq_zero, h.left y hd]
    omega
  · rw [Ready, Ready, waits_withLink_other hy]
    simp [hy]

end Settle

def linksFrom (next : Nat → List Nat) (gs : List Nat) : List (Nat × Nat) :=
  gs.flatMap fun g => (next g).map (g, ·)

theorem linksFrom_append (xs ys : List Nat) :
    linksFrom next (xs ++ ys) = linksFrom next xs ++ linksFrom next ys := List.flatMap_append

theorem mem_linksFrom {gs : List Nat} {g d : Nat} :
    (g, d) ∈ linksFrom next gs ↔ g ∈ gs ∧ d ∈ next g := by
  simp only [linksFrom, List.mem_flatMap, List.mem_map, Prod.mk.injEq]
  constructor
  · intro h
    obtain ⟨_, hg, _, hd, rfl, rfl⟩ := h
    exact ⟨hg, hd⟩
  · intro h
    exact ⟨g, h.1, d, h.2, rfl, rfl⟩

theorem linksFrom_nodup (hnodup : ∀ g, (next g).Nodup) {gs : List Nat} (hn : gs.Nodup) :
    (linksFrom next gs).Nodup :=
  nodup_pairs id (by rwa [List.map_id]) fun g _ => hnodup g

def OnCycle (next : Nat → List Nat) (g : Nat) : Prop :=
  Relation.TransGen (fun a b => b ∈ next a) g g

/-- A cycle leads to the group, or passes through it. -/
def Stalled (next : Nat → List Nat) (g : Nat) : Prop := ∃ u, OnCycle next u ∧ Leads next u g

/-- Every rank is one above the highest rank linked to it, or zero where there is none. -/
structure Ranks (next : Nat → List Nat) (n : Nat) (rank : Nat → Nat) : Prop where
  above : ∀ g < n, ∀ d ∈ next g, rank g < rank d
  attained : ∀ d < n, rank d = 0 ∨ ∃ g < n, d ∈ next g ∧ rank d = rank g + 1

/-- The cohorts list the groups below `n` by rank, and leave no rank out. -/
structure Levels (n : Nat) (rank : Nat → Nat) (cohorts : List (List Nat)) : Prop where
  mem : ∀ k g, g ∈ cohorts.getD k [] ↔ g < n ∧ rank g = k
  nodup : cohorts.flatten.Nodup
  full : 0 < n → ∀ ws ∈ cohorts, ws ≠ []

section Reset

theorem getD_tally {ds : List Nat} {a : Array Nat} {d : Nat} (hd : d < a.size) :
    (ds.foldl (fun a x => a.modify x (· + 1)) a).getD d 0 = a.getD d 0 + ds.count d := by
  induction ds generalizing a with
  | nil => simp
  | cons x ds ih =>
    have hstep : (a.modify x (· + 1)).getD d 0 = a.getD d 0 + if x = d then 1 else 0 := by
      rw [Array.getD_eq_getD_getElem?, Array.getElem?_modify, Array.getD_eq_getD_getElem?]
      split <;> simp [hd]
    rw [List.foldl_cons, ih (by simpa using hd), hstep, List.count_cons]
    simp only [beq_iff_eq]
    omega

theorem size_tally (ds : List Nat) (a : Array Nat) :
    (ds.foldl (fun a x => a.modify x (· + 1)) a).size = a.size := by
  induction ds generalizing a with
  | nil => rfl
  | cons x ds ih => rw [List.foldl_cons, ih, Array.size_modify]

variable {c : Collapsed}

theorem reset_left (r : Ranker) (c : Collapsed) : (r.reset c).left =
    c.descendants.toList.flatten.foldl (fun a x => a.modify x (· + 1))
      (Array.replicate c.size 0) := by
  rw [reset, Buffer.refill_eq, List.foldl_flatten, ← Array.foldl_toList]

theorem reset_ranks (r : Ranker) (c : Collapsed) :
    (r.reset c).ranks = Array.replicate c.size 0 := Buffer.refill_eq _ _ _

theorem toList_descendants (hs : c.descendants.size = c.size) :
    c.descendants.toList = (List.range c.size).map c.next := by
  apply List.ext_getElem?
  intro g
  by_cases hg : g < c.size
  · simp [Collapsed.next, hg, hs]
  · simp [hg, hs]

theorem reset_waits (hs : c.descendants.size = c.size) (hnodup : ∀ g, (c.next g).Nodup) {d : Nat}
    (hd : d < c.size) :
    (r.reset c).left.getD d 0 = (waits c.next c.size (fun _ _ => False) d).card := by
  have hsum : (waits c.next c.size (fun _ _ => False) d).card =
      ((List.range c.size).map fun g => (c.next g).count d).sum := by
    rw [waits, Finset.card_filter]
    refine (Finset.sum_congr rfl fun g _ => ?_).trans rfl
    simp [(hnodup g).count]
  rw [reset_left, getD_tally (by simpa using hd), Writes.getD_replicate, Nat.zero_add,
    toList_descendants hs, List.count_flatten, List.map_map, hsum]
  rfl

end Reset

end Ranker

namespace Ranking

open Ranker

variable {next : Nat → List Nat} {n : Nat} {done : List (List Nat)} {wave : List Nat}
  {told : List (Nat × Nat)} {s : Ranking}

/-- The cohorts when `done` have had their turn and `wave` is next. A cohort is opened by the first
group in it, except that the lowest is always there. -/
def opened (done : List (List Nat)) (wave : List Nat) : List (List Nat) :=
  if wave = [] ∧ done ≠ [] then done else done ++ [wave]

theorem opened_of_wave (h : wave ≠ []) : opened done wave = done ++ [wave] := by
  simp [opened, h]

theorem opened_nil (h : done ≠ []) : opened done [] = done := by
  simp [opened, h]

theorem mem_opened {ws : List Nat} (h : ws ∈ opened done wave) : ws ∈ done ∨ ws = wave := by
  unfold opened at h
  split at h
  · exact Or.inl h
  · simpa using h

theorem flatten_opened (done : List (List Nat)) (wave : List Nat) :
    (opened done wave).flatten = done.flatten ++ wave := by
  by_cases h : wave = [] ∧ done ≠ []
  · simp [opened, h]
  · simp [opened, h]

theorem modify_last (done : List (List Nat)) (wave : List Nat) (f : List Nat → List Nat) :
    (done ++ [wave]).modify done.length f = done ++ [f wave] := by
  induction done with
  | nil => rfl
  | cons w done ih => simpa using ih

theorem place_opened (h : done ≠ []) (wave : List Nat) (g : Nat) :
    place (opened done wave) done.length g = opened done (wave ++ [g]) := by
  have hroom : opened done wave ++
      List.replicate (done.length + 1 - (opened done wave).length) [] = done ++ [wave] := by
    by_cases hwave : wave = []
    · subst hwave
      simp [opened_nil h]
    · simp [opened_of_wave hwave]
  rw [place, hroom, modify_last, opened_of_wave (by simp)]

/-- The links settled once the groups in `past` have had their turn and those in `told` have been
told. -/
def settled (next : Nat → List Nat) (past : List Nat) (told : List (Nat × Nat)) (g d : Nat) :
    Prop :=
  g ∈ past ∧ d ∈ next g ∨ (g, d) ∈ told

/-- During the turn of `wave`: the links in `told` have been settled out of it. -/
structure Turn (next : Nat → List Nat) (n : Nat) (done : List (List Nat)) (wave : List Nat)
    (told : List (Nat × Nat)) (s : Ranking) : Prop where
  progress : Progress next n (settled next done.flatten told) s.ranker
  sources : ∀ g d, (g, d) ∈ told → g ∈ wave
  ready : ∀ g, g ∈ done.flatten ++ wave ++ s.ranker.next ↔
    Ready next n (settled next done.flatten told) g
  nodup : (done.flatten ++ wave ++ s.ranker.next).Nodup
  past_level : ∀ k g, g ∈ done.getD k [] → s.ranker.rankAt g = k
  wave_level : ∀ g ∈ wave, s.ranker.rankAt g = done.length
  next_level : ∀ g ∈ s.ranker.next, s.ranker.rankAt g = done.length + 1
  cohorts : s.cohorts = opened (done ++ [wave]) s.ranker.next

theorem exists_level {g : Nat} (hg : g ∈ done.flatten) : ∃ k < done.length, g ∈ done.getD k [] := by
  obtain ⟨ws, hws, hg⟩ := List.mem_flatten.mp hg
  obtain ⟨k, hk, rfl⟩ := List.getElem_of_mem hws
  exact ⟨k, hk, by simpa [hk] using hg⟩

theorem mem_flatten_of_level {g k : Nat} (hg : g ∈ done.getD k []) : g ∈ done.flatten := by
  rw [List.getD_eq_getElem?_getD] at hg
  cases hk : done[k]? with
  | none => simp [hk] at hg
  | some ws =>
    rw [hk] at hg
    exact List.mem_flatten.mpr ⟨ws, List.mem_of_getElem? hk, hg⟩

theorem Turn.rankAt_le (h : Turn next n done wave told s) {d : Nat} (hd : d < n) :
    s.ranker.rankAt d ≤ done.length + 1 := by
  rcases h.progress.attained d hd with hzero | ⟨g, hs, hrank⟩
  · omega
  · rcases hs with ⟨hpast, _⟩ | htold
    · obtain ⟨k, hk, hg⟩ := exists_level hpast
      have hlevel := h.past_level k g hg
      omega
    · have hlevel := h.wave_level g (h.sources g d htold)
      omega

theorem withLink_settled (next : Nat → List Nat) (past : List Nat) (told : List (Nat × Nat))
    (g d : Nat) :
    withLink (settled next past told) g d = settled next past (told ++ [(g, d)]) := by
  funext x y
  simp only [withLink, settled, List.mem_append, List.mem_singleton, Prod.mk.injEq, or_assoc]

theorem tell_ranker (s : Ranking) (g d : Nat) : (s.tell g d).ranker =
    { s.ranker.settle g d with
      next := s.ranker.next ++ if s.ranker.left.getD d 0 = 1 then [d] else [] } := by
  unfold Ranking.tell
  split
  · rfl
  · rw [List.append_nil]
    rfl

theorem tell_cohorts (s : Ranking) (g d : Nat) : (s.tell g d).cohorts =
    if s.ranker.left.getD d 0 = 1 then place s.cohorts ((s.ranker.settle g d).rankAt d) d
    else s.cohorts := by
  unfold Ranking.tell
  split <;> rfl

section Tell

variable {g d : Nat} (h : Turn next n done wave told s) (hg : g ∈ wave) (hd : d < n)
  (hlink : d ∈ next g) (hnew : (g, d) ∉ told)
include h hg

theorem Turn.source_ready : Ready next n (settled next done.flatten told) g :=
  (h.ready g).mp (List.mem_append_left _ (List.mem_append_right _ hg))

include hnew

theorem Turn.unsettled : ¬ settled next done.flatten told g d := by
  rintro (⟨hpast, _⟩ | htold)
  · exact List.disjoint_of_nodup_append h.nodup.of_append_left hpast hg
  · exact hnew htold

include hlink

theorem Turn.unreleased : d ∉ done.flatten ++ wave ++ s.ranker.next := by
  intro hmem
  have hwait : g ∈ waits next n (settled next done.flatten told) d :=
    mem_waits.mpr ⟨(h.source_ready hg).1, hlink, h.unsettled hg hnew⟩
  exact not_ready_of_waits hwait ((h.ready d).mp hmem)

include hd

theorem Turn.settle_progress :
    Progress next n (settled next done.flatten (told ++ [(g, d)])) (s.ranker.settle g d) := by
  rw [← withLink_settled]
  exact Ranker.settle_progress h.progress (h.source_ready hg) hd hlink (h.unsettled hg hnew)

theorem Turn.settle_ready (y : Nat) :
    Ready next n (settled next done.flatten (told ++ [(g, d)])) y ↔
      y ∈ done.flatten ++ wave ++ s.ranker.next ∨ y = d ∧ s.ranker.left.getD d 0 = 1 := by
  rw [← withLink_settled, h.ready y]
  exact Ranker.settle_ready h.progress (h.source_ready hg) hd hlink (h.unsettled hg hnew) y

theorem Turn.settle_rankAt {x : Nat} (hx : x ∈ done.flatten ++ wave ++ s.ranker.next) :
    (s.ranker.settle g d).rankAt x = s.ranker.rankAt x := by
  rw [Ranker.settle_rankAt h.progress hd, if_neg]
  rintro rfl
  exact h.unreleased hg hlink hnew hx

omit hlink hnew in
theorem Turn.target_rankAt : (s.ranker.settle g d).rankAt d = done.length + 1 := by
  have hle := h.rankAt_le hd
  rw [Ranker.settle_rankAt h.progress hd, if_pos rfl, h.wave_level g hg]
  omega

theorem Turn.tell : Turn next n done wave (told ++ [(g, d)]) (s.tell g d) := by
  have hranker := tell_ranker s g d
  have hnext : (s.tell g d).ranker.next =
      s.ranker.next ++ if s.ranker.left.getD d 0 = 1 then [d] else [] := by rw [hranker]
  have hrank {x : Nat} (hx : x ∈ done.flatten ++ wave ++ s.ranker.next) :
      (s.tell g d).ranker.rankAt x = s.ranker.rankAt x := by
    rw [hranker]
    exact h.settle_rankAt hg hd hlink hnew hx
  constructor
  case progress =>
    exact (h.settle_progress hg hd hlink hnew).congr (by rw [hranker]) (by rw [hranker])
      fun _ _ => Iff.rfl
  case sources =>
    intro x y hxy
    rcases List.mem_append.mp hxy with hxy | hxy
    · exact h.sources x y hxy
    · obtain ⟨rfl, rfl⟩ := Prod.mk.inj (List.mem_singleton.mp hxy)
      exact hg
  case ready =>
    intro y
    rw [hnext, ← List.append_assoc, List.mem_append, h.settle_ready hg hd hlink hnew]
    split
    · rename_i hlast
      rw [List.mem_singleton, and_iff_left hlast]
    · rename_i hmore
      rw [or_iff_left List.not_mem_nil, or_iff_left fun hy => hmore hy.2]
  case nodup =>
    rw [hnext, ← List.append_assoc]
    split
    · refine List.nodup_append.mpr ⟨h.nodup, List.nodup_singleton d, ?_⟩
      rintro x hx y hy rfl
      exact h.unreleased hg hlink hnew (List.mem_singleton.mp hy ▸ hx)
    · rw [List.append_nil]
      exact h.nodup
  case past_level =>
    intro k x hx
    rw [hrank (by simp [mem_flatten_of_level hx]), h.past_level k x hx]
  case wave_level =>
    intro x hx
    rw [hrank (by simp [hx]), h.wave_level x hx]
  case next_level =>
    intro x hx
    rw [hnext] at hx
    rcases List.mem_append.mp hx with hx | hx
    · rw [hrank (by simp [hx]), h.next_level x hx]
    · obtain rfl : x = d := by
        split at hx
        · exact List.mem_singleton.mp hx
        · cases hx
      rw [hranker]
      exact h.target_rankAt hg hd
  case cohorts =>
    rw [hnext, tell_cohorts]
    split
    · have hlevel : (s.ranker.settle g d).rankAt d = (done ++ [wave]).length := by
        rw [h.target_rankAt hg hd, List.length_append, List.length_singleton]
      rw [hlevel, h.cohorts, place_opened (by simp)]
    · rw [List.append_nil, h.cohorts]

end Tell

def tellAll (s : Ranking) (links : List (Nat × Nat)) : Ranking :=
  links.foldl (fun s l => s.tell l.1 l.2) s

theorem advance_eq (next : Nat → List Nat) (s : Ranking) :
    s.advance next = { s.tellAll (linksFrom next s.ranker.wave) with
      ranker := { (s.tellAll (linksFrom next s.ranker.wave)).ranker with
        wave := (s.tellAll (linksFrom next s.ranker.wave)).ranker.next, next := [] }
      ranked := s.ranked + s.ranker.wave.length } := by
  simp only [advance, tellAll, linksFrom, List.foldl_flatMap, List.foldl_map]

/-- Between two waves: those in `done` have had their turn. -/
structure Between (next : Nat → List Nat) (n : Nat) (done : List (List Nat)) (s : Ranking) :
    Prop where
  progress : Progress next n (settled next done.flatten []) s.ranker
  ready : ∀ g, g ∈ done.flatten ++ s.ranker.wave ↔ Ready next n (settled next done.flatten []) g
  nodup : (done.flatten ++ s.ranker.wave).Nodup
  past_level : ∀ k g, g ∈ done.getD k [] → s.ranker.rankAt g = k
  wave_level : ∀ g ∈ s.ranker.wave, s.ranker.rankAt g = done.length
  full : ∀ ws ∈ done, ws ≠ []
  cohorts : s.cohorts = opened done s.ranker.wave
  released : s.ranker.next = []
  ranked : s.ranked = done.flatten.length

section Advance

variable (hnext : ∀ g, ∀ d ∈ next g, d < n)
include hnext

theorem Turn.tellAll {links : List (Nat × Nat)} (h : Turn next n done wave told s)
    (hlinks : ∀ g d, (g, d) ∈ links → g ∈ wave ∧ d ∈ next g) (hn : (told ++ links).Nodup) :
    Turn next n done wave (told ++ links) (s.tellAll links) := by
  induction links generalizing told s with
  | nil => exact (List.append_nil told).symm ▸ h
  | cons l links ih =>
    obtain ⟨g, d⟩ := l
    obtain ⟨hg, hd⟩ := hlinks g d List.mem_cons_self
    have hnew : (g, d) ∉ told := fun hold =>
      List.disjoint_of_nodup_append hn hold List.mem_cons_self
    have hstep := h.tell hg (hnext g d hd) hd hnew
    rw [List.append_cons] at hn ⊢
    exact ih hstep (fun x y hxy => hlinks x y (List.mem_cons_of_mem _ hxy)) hn

omit hnext in
theorem Between.turn (h : Between next n done s) (hwave : s.ranker.wave ≠ []) :
    Turn next n done s.ranker.wave [] s where
  progress := h.progress
  sources _ _ hold := by cases hold
  ready := by
    rw [h.released, List.append_nil]
    exact h.ready
  nodup := by
    rw [h.released, List.append_nil]
    exact h.nodup
  past_level := h.past_level
  wave_level := h.wave_level
  next_level := by
    intro g hg
    rw [h.released] at hg
    cases hg
  cohorts := by rw [h.cohorts, h.released, opened_of_wave hwave, opened_nil (by simp)]

omit hnext in
theorem Turn.finish (h : Turn next n done wave (linksFrom next wave) s) (hwave : wave ≠ [])
    (hfull : ∀ ws ∈ done, ws ≠ []) :
    Between next n (done ++ [wave])
      { s with
        ranker := { s.ranker with wave := s.ranker.next, next := [] }
        ranked := done.flatten.length + wave.length } := by
  have hflat : (done ++ [wave]).flatten = done.flatten ++ wave := by simp
  have hseen : settled next done.flatten (linksFrom next wave) =
      settled next (done ++ [wave]).flatten [] := by
    funext g d
    simp only [settled, mem_linksFrom, hflat, List.mem_append, List.not_mem_nil, or_false,
      or_and_right]
  have hprogress := h.progress
  have hready := h.ready
  rw [hseen] at hprogress hready
  constructor
  case progress => exact hprogress.congr rfl rfl fun _ _ => Iff.rfl
  case ready =>
    rw [hflat] at *
    exact hready
  case nodup =>
    rw [hflat]
    exact h.nodup
  case past_level =>
    intro k g hg
    rcases Nat.lt_trichotomy k done.length with hk | rfl | hk
    · exact h.past_level k g (by simpa [List.getElem?_append_left hk] using hg)
    · exact h.wave_level g (by simpa using hg)
    · simp [hk] at hg
  case wave_level =>
    rw [List.length_append]
    exact h.next_level
  case full =>
    intro ws hws
    rcases List.mem_append.mp hws with hws | hws
    · exact hfull ws hws
    · exact List.mem_singleton.mp hws ▸ hwave
  case cohorts => exact h.cohorts
  case released => rfl
  case ranked => rw [hflat, List.length_append]

variable (hnodup : ∀ g, (next g).Nodup)
include hnodup

theorem Between.advance (h : Between next n done s) (hwave : s.ranker.wave ≠ []) :
    Between next n (done ++ [s.ranker.wave]) (s.advance next) := by
  have hturn := Turn.tellAll hnext (h.turn hwave) (fun _ _ hl => mem_linksFrom.mp hl)
    (linksFrom_nodup hnodup h.nodup.of_append_right)
  have hend := hturn.finish hwave h.full
  rw [advance_eq, h.ranked]
  exact hend

end Advance

/-- What every wave keeps holds when the last has had its turn. -/
theorem run_induction {P : List (List Nat) → Ranking → Prop}
    (hstep : ∀ done s, P done s → s.ranker.wave ≠ [] →
      P (done ++ [s.ranker.wave]) (s.advance next)) (h : P done s) :
    ∃ done', P done' (s.run next) ∧ (s.run next).ranker.wave = [] := by
  fun_induction Ranking.run next s generalizing done with
  | case1 s hwave => exact ⟨done, h, List.isEmpty_iff.mp hwave⟩
  | case2 s hwave ih => exact ih (hstep done s h fun hnil => hwave (List.isEmpty_iff.mpr hnil))

section Finished

variable (h : Between next n done s) (hend : s.ranker.wave = [])
include h

theorem Between.lt {g : Nat} (hg : g ∈ done.flatten) : g < n :=
  ((h.ready g).mp (List.mem_append_left _ hg)).1

include hend

theorem Between.mem_past {g : Nat} (hg : g < n) (hfree : ¬ Stalled next g) : g ∈ done.flatten := by
  let link (a b : { a : Fin n // ¬ Stalled next a.1 }) : Prop := b.1.1 ∈ next a.1.1
  have hirr : Std.Irrefl (Relation.TransGen link) := by
    refine ⟨fun a ha => a.2 ⟨a.1, ?_, .refl⟩⟩
    exact Relation.TransGen.lift (p := fun a b => b ∈ next a) (fun a => a.1.1)
      (fun _ _ hab => hab) a a ha
  have hwf : WellFounded (Relation.TransGen link) :=
    Finite.wellFounded_of_trans_of_irrefl _
  suffices hall : ∀ a : { a : Fin n // ¬ Stalled next a.1 }, a.1.1 ∈ done.flatten from
    hall ⟨⟨g, hg⟩, hfree⟩
  intro a
  induction a using hwf.induction with
  | _ a ih =>
    have hready : Ready next n (settled next done.flatten []) a.1.1 := by
      rw [ready_iff]
      refine ⟨a.1.2, fun x hx hlink => Or.inl ⟨ih ⟨⟨x, hx⟩, ?_⟩ (.single hlink), hlink⟩⟩
      intro hstalled
      obtain ⟨u, hu, hux⟩ := hstalled
      exact a.2 ⟨u, hu, hux.tail hlink⟩
    have hmem := (h.ready a.1.1).mpr hready
    rwa [hend, List.append_nil] at hmem

omit hend in
/-- Ranks rise along the links of what has had its turn, so no cycle leads there. -/
theorem Between.not_stalled (hbound : ∀ g, ∀ d ∈ next g, g < n) {g : Nat}
    (hg : g ∈ done.flatten) : ¬ Stalled next g := by
  have hback {a b : Nat} (hab : b ∈ next a) (hb : b ∈ done.flatten) : a ∈ done.flatten := by
    have hready := (h.ready b).mp (List.mem_append_left _ hb)
    have hseen := (ready_iff.mp hready).2 a (hbound a b hab) hab
    exact (hseen.resolve_right List.not_mem_nil).1
  have hlink {a b : Nat} (hab : b ∈ next a) (hb : b ∈ done.flatten) :
      s.ranker.rankAt a < s.ranker.rankAt b :=
    h.progress.above a b (Or.inl ⟨hback hab hb, hab⟩)
  have hrise {a b : Nat} (hab : Relation.TransGen (fun a b => b ∈ next a) a b)
      (hb : b ∈ done.flatten) : s.ranker.rankAt a < s.ranker.rankAt b := by
    induction hab with
    | single hstep => exact hlink hstep hb
    | tail _ hstep ih => exact Nat.lt_trans (ih (hback hstep hb)) (hlink hstep hb)
  intro hstalled
  obtain ⟨u, hu, hug⟩ := hstalled
  have hpast : u ∈ done.flatten := by
    clear hu
    induction hug using Relation.ReflTransGen.head_induction_on with
    | refl => exact hg
    | head hstep _ ih => exact hback hstep ih
  exact Nat.lt_irrefl _ (hrise hu hpast)

theorem Between.complete (hacyclic : ∀ g, ¬ OnCycle next g) {g : Nat} (hg : g < n) :
    g ∈ done.flatten := by
  apply h.mem_past hend hg
  intro hstalled
  obtain ⟨u, hu, _⟩ := hstalled
  exact hacyclic u hu

omit hend in
theorem Between.ranks (hall : ∀ g < n, g ∈ done.flatten) : Ranks next n s.ranker.rankAt where
  above g hg d hd := h.progress.above g d (Or.inl ⟨hall g hg, hd⟩)
  attained d hd := by
    rcases h.progress.attained d hd with hzero | ⟨g, hs, hrank⟩
    · exact Or.inl hzero
    · obtain ⟨hg, hlink⟩ := hs.resolve_right List.not_mem_nil
      exact Or.inr ⟨g, h.lt hg, hlink, hrank⟩

theorem Between.flatten_cohorts : s.cohorts.flatten = done.flatten := by
  rw [h.cohorts, flatten_opened, hend, List.append_nil]

theorem Between.levels (hall : ∀ g < n, g ∈ done.flatten) :
    Levels n s.ranker.rankAt s.cohorts where
  mem k g := by
    have hcohort : g ∈ s.cohorts.getD k [] ↔ g ∈ done.getD k [] := by
      rw [h.cohorts, hend]
      by_cases hne : done = []
      · cases k <;> simp [hne, opened]
      · rw [opened_nil hne]
    rw [hcohort]
    constructor
    · intro hg
      exact ⟨h.lt (mem_flatten_of_level hg), h.past_level k g hg⟩
    · rintro ⟨hg, hk⟩
      obtain ⟨l, _, hl⟩ := exists_level (hall g hg)
      rwa [← hk, h.past_level l g hl]
  nodup := by
    rw [h.flatten_cohorts hend]
    exact h.nodup.of_append_left
  full := by
    intro hpos
    have hne : done ≠ [] := by
      rintro rfl
      cases hall 0 hpos
    rw [h.cohorts, hend, opened_nil hne]
    exact h.full

end Finished

end Ranking

def Ranker.run (r : Ranker) (c : Collapsed) : Ranking := (r.start c).run c.next

namespace Ranking

open Ranker

section Start

variable {c : Collapsed}

theorem start_between (r : Ranker) (hs : c.descendants.size = c.size)
    (hnodup : ∀ g, (c.next g).Nodup) : Between c.next c.size [] (r.start c) := by
  have hnone : settled c.next [] [] = fun _ _ => False := by
    funext g d
    simp [settled]
  have hready (g : Nat) : g ∈ (r.start c).ranker.wave ↔
      Ready c.next c.size (fun _ _ => False) g := by
    rw [Ranker.start, List.mem_filter, List.mem_range, Ready, beq_iff_eq]
    refine and_congr_right fun hg => ?_
    rw [reset_waits hs hnodup hg, Finset.card_eq_zero]
  have hzero (g : Nat) : (r.reset c).rankAt g = 0 := by
    rw [rankAt, reset_ranks, Writes.getD_replicate]
  constructor
  case progress =>
    rw [List.flatten_nil, hnone]
    constructor
    case left_size => exact (congrArg Array.size (reset_left r c)).trans (by simp [size_tally])
    case ranks_size => exact (congrArg Array.size (reset_ranks r c)).trans Array.size_replicate
    case left => exact fun d hd => reset_waits hs hnodup hd
    case attained => exact fun d _ => Or.inl (hzero d)
    all_goals
      intro g d hseen
      cases hseen
  case ready =>
    rw [List.flatten_nil, hnone]
    exact hready
  case nodup => exact List.nodup_range.sublist List.filter_sublist
  case past_level =>
    intro k g hg
    simp at hg
  case wave_level => exact fun g _ => hzero g
  case full =>
    intro ws hws
    cases hws
  case cohorts => simp [opened, Ranker.start]
  case released => rfl
  case ranked => rfl

theorem run_between (r : Ranker) (hs : c.descendants.size = c.size)
    (hnext : ∀ g, ∀ d ∈ c.next g, d < c.size) (hnodup : ∀ g, (c.next g).Nodup) :
    ∃ done, Between c.next c.size done (r.run c) ∧ (r.run c).ranker.wave = [] :=
  run_induction (fun _ _ h hwave => h.advance hnext hnodup hwave) (start_between r hs hnodup)

/-- Waves over a graph without a cycle take every group once, at its rank. -/
theorem run_levels (r : Ranker) (hs : c.descendants.size = c.size)
    (hnext : ∀ g, ∀ d ∈ c.next g, d < c.size) (hnodup : ∀ g, (c.next g).Nodup)
    (hacyclic : ∀ g, ¬ OnCycle c.next g) :
    (r.run c).ranked = c.size ∧ Ranks c.next c.size (r.run c).ranker.rankAt ∧
      Levels c.size (r.run c).ranker.rankAt (r.run c).cohorts := by
  obtain ⟨done, h, hend⟩ := run_between r hs hnext hnodup
  have hall (g : Nat) (hg : g < c.size) : g ∈ done.flatten := h.complete hend hacyclic hg
  have hperm : done.flatten.Perm (List.range c.size) := by
    rw [List.perm_ext_iff_of_nodup h.nodup.of_append_left List.nodup_range]
    intro g
    rw [List.mem_range]
    exact ⟨h.lt, hall g⟩
  refine ⟨?_, h.ranks hall, h.levels hend hall⟩
  rw [h.ranked, hperm.length_eq, List.length_range]

end Start

end Ranking

end DepGraph.Cohort
