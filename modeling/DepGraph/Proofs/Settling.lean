import DepGraph.Proofs.Counting
import DepGraph.Proofs.Traces

/-!
# Ranking link by link

A ranking settles one link after the other: those of each group in turn, wave by wave. No group has
two turns, so no link is settled twice, and a link that is still to be settled is one that its
target still counts. The counts never run below zero for that, and the ranks, which are taken up
without a gap, never reach the number of groups, whether or not the waves get to every group.
-/

namespace DepGraph.Cohort

namespace Ranker

variable {next : Nat → List Nat} {n : Nat} {seen seen' : Nat → Nat → Prop} {r : Ranker}

/-- No rank is left out below one that is held, so none gets as high as the number of groups. -/
theorem Progress.rankAt_lt (h : Progress next n seen r) {d : Nat} (hd : d < n) :
    r.rankAt d < n := by
  have hheld : ∀ j ≤ r.rankAt d, ∃ g < n, r.rankAt g + j = r.rankAt d := by
    intro j hj
    induction j with
    | zero => exact ⟨d, hd, rfl⟩
    | succ j ih =>
      obtain ⟨g, hg, hrank⟩ := ih (by omega)
      rcases h.attained g hg with hzero | ⟨x, hs, hx⟩
      · omega
      · exact ⟨x, (h.link x g hs).1, by omega⟩
  have hsub : Finset.range (r.rankAt d + 1) ⊆ (Finset.range n).image r.rankAt := by
    intro k hk
    rw [Finset.mem_range] at hk
    obtain ⟨g, hg, hrank⟩ := hheld (r.rankAt d - k) (by omega)
    exact Finset.mem_image.mpr ⟨g, Finset.mem_range.mpr hg, by omega⟩
  have hcard := (Finset.card_le_card hsub).trans Finset.card_image_le
  rw [Finset.card_range, Finset.card_range] at hcard
  exact hcard

theorem Progress.left_le (h : Progress next n seen r) {d : Nat} (hd : d < n) :
    r.left.getD d 0 ≤ n := by
  rw [h.left d hd]
  have hsub : waits next n seen d ⊆ Finset.range n := fun g hg =>
    Finset.mem_range.mpr (mem_waits.mp hg).1
  simpa using Finset.card_le_card hsub

def settleAll (r : Ranker) (links : List (Nat × Nat)) : Ranker :=
  links.foldl (fun r l => r.settle l.1 l.2) r

theorem settleAll_append (r : Ranker) (xs ys : List (Nat × Nat)) :
    r.settleAll (xs ++ ys) = (r.settleAll xs).settleAll ys := List.foldl_append

def SameCounts (r r' : Ranker) : Prop := r'.left = r.left ∧ r'.ranks = r.ranks

theorem SameCounts.settle {r r' : Ranker} (h : SameCounts r r') (g d : Nat) :
    SameCounts (r.settle g d) (r'.settle g d) := by
  obtain ⟨hleft, hranks⟩ := h
  constructor
  · simp only [Ranker.settle, hleft]
  · simp only [Ranker.settle, hranks]

theorem SameCounts.eq {r r' : Ranker} (h : SameCounts r r') (hwave : r'.wave = r.wave)
    (hnext : r'.next = r.next) : r' = r := by
  cases r
  cases r'
  obtain ⟨rfl, rfl⟩ := h
  cases hwave
  cases hnext
  rfl

theorem settleAll_waves (r : Ranker) (links : List (Nat × Nat)) :
    (r.settleAll links).wave = r.wave ∧ (r.settleAll links).next = r.next := by
  induction links generalizing r with
  | nil => exact ⟨rfl, rfl⟩
  | cons l links ih => exact ih (r.settle l.1 l.2)

end Ranker

namespace Ranking

open Ranker

variable {next : Nat → List Nat} {n : Nat} {done : List (List Nat)} {s : Ranking} {r : Ranker}

theorem tellAll_counts (h : SameCounts r s.ranker) (links : List (Nat × Nat)) :
    SameCounts (r.settleAll links) (s.tellAll links).ranker := by
  induction links generalizing s r with
  | nil => exact h
  | cons l links ih =>
    refine ih (r := r.settle l.1 l.2) ?_
    rw [tell_ranker]
    exact h.settle l.1 l.2

/-- What holds where the links settled so far are cut: the ranker is in progress there, and the link
that follows has not been settled. -/
def Cut (next : Nat → List Nat) (n : Nat) (r : Ranker) (before after : List (Nat × Nat)) : Prop :=
  ∃ seen, Progress next n seen (r.settleAll before) ∧
    ∀ g d, (g, d) ∈ after.head? → g < n ∧ d ∈ next g ∧ ¬ seen g d

/-- The ranking has settled the links of all groups that had their turn, beginning with `r`. -/
structure Settles (next : Nat → List Nat) (n : Nat) (r : Ranker) (done : List (List Nat))
    (s : Ranking) : Prop where
  between : Between next n done s
  counts : SameCounts (r.settleAll (linksFrom next done.flatten)) s.ranker
  cuts : ∀ before after, before ++ after = linksFrom next done.flatten → Cut next n r before after

section Settling

variable (hnext : ∀ g, ∀ d ∈ next g, d < n) (hnodup : ∀ g, (next g).Nodup)
include hnext hnodup

theorem Between.cut (h : Between next n done s) (hwave : s.ranker.wave ≠ [])
    (hr : SameCounts r s.ranker) {before after : List (Nat × Nat)}
    (hcut : before ++ after = linksFrom next s.ranker.wave) : Cut next n r before after := by
  have hlink {g d : Nat} (hl : (g, d) ∈ before ++ after) : g ∈ s.ranker.wave ∧ d ∈ next g :=
    mem_linksFrom.mp (hcut ▸ hl)
  have hn : (before ++ after).Nodup := by
    rw [hcut]
    exact linksFrom_nodup hnodup h.nodup.of_append_right
  have hturn := Turn.tellAll hnext (h.turn hwave)
    (fun g d hl => hlink (List.mem_append_left after hl)) hn.of_append_left
  obtain ⟨hleft, hranks⟩ := tellAll_counts hr before
  refine ⟨_, hturn.progress.congr hleft.symm hranks.symm fun _ _ => Iff.rfl, fun g d hl => ?_⟩
  have hafter := List.mem_of_head? hl
  obtain ⟨hg, hd⟩ := hlink (List.mem_append_right before hafter)
  refine ⟨(hturn.source_ready hg).1, hd, hturn.unsettled hg ?_⟩
  exact fun hbefore => List.disjoint_of_nodup_append hn hbefore hafter

theorem Settles.advance (h : Settles next n r done s) (hwave : s.ranker.wave ≠ []) :
    Settles next n r (done ++ [s.ranker.wave]) (s.advance next) := by
  have hlinks : linksFrom next (done ++ [s.ranker.wave]).flatten =
      linksFrom next done.flatten ++ linksFrom next s.ranker.wave := by
    rw [← linksFrom_append, List.flatten_append, List.flatten_singleton]
  refine ⟨h.between.advance hnext hnodup hwave, ?_, ?_⟩
  · rw [hlinks, settleAll_append, advance_eq]
    exact tellAll_counts h.counts _
  · intro before after hcut
    rw [hlinks, List.append_eq_append_iff] at hcut
    have hlate (rest : List (Nat × Nat)) (hbefore : before = linksFrom next done.flatten ++ rest)
        (hrest : rest ++ after = linksFrom next s.ranker.wave) : Cut next n r before after := by
      have hcut := h.between.cut hnext hnodup hwave h.counts hrest
      rwa [Cut, ← settleAll_append, ← hbefore] at hcut
    rcases hcut with ⟨mid, hpast, hafter⟩ | ⟨rest, hbefore, hrest⟩
    · cases mid with
      | nil => exact hlate [] (by simpa using hpast.symm) (by simpa using hafter)
      | cons l mid =>
        subst hafter
        exact h.cuts before (l :: mid) hpast.symm
    · exact hlate rest hbefore hrest.symm

end Settling

end Ranking

namespace Ranker

def settledLinks (r : Ranker) (c : Collapsed) : List (Nat × Nat) :=
  linksFrom c.next (r.run c).cohorts.flatten

/-- The counts of `n` groups once each of `ds` has been counted up. -/
def tallied (n : Nat) (ds : List Nat) : Array Nat :=
  ds.foldl (fun left d => left.modify d (· + 1)) (Array.replicate n 0)

/-- The counts of a ranking. They are counted up to at most the number of groups; then every group
has at most one turn and every link is settled at most once, and whenever one is, its target still
counts it. -/
structure Counts (c : Collapsed) (r : Ranker) : Prop where
  starts : (r.reset c).left = tallied c.size c.descendants.toList.flatten
  tally : ∀ ds, ds <+: c.descendants.toList.flatten → ∀ d, (tallied c.size ds).getD d 0 ≤ c.size
  turns : (r.run c).cohorts.flatten.Nodup
  links : (r.settledLinks c).Nodup
  ends : (r.run c).ranker = (r.reset c).settleAll (r.settledLinks c)
  counted : ∀ before g d after, before ++ (g, d) :: after = r.settledLinks c →
    0 < ((r.reset c).settleAll before).left.getD d 0
  ranks : ∀ before after, before ++ after = r.settledLinks c → ∀ g < c.size,
    ((r.reset c).settleAll before).rankAt g + 1 ≤ c.size

theorem tally_le {c : Collapsed} (hs : c.descendants.size = c.size)
    (hnodup : ∀ g, (c.next g).Nodup) {ds : List Nat} (hds : ds <+: c.descendants.toList.flatten)
    (d : Nat) : (tallied c.size ds).getD d 0 ≤ c.size := by
  by_cases hd : d < c.size
  · have hcount (ds : List Nat) : (tallied c.size ds).getD d 0 = ds.count d := by
      rw [tallied, getD_tally (by simpa using hd), Writes.getD_replicate, Nat.zero_add]
    have htotal : c.descendants.toList.flatten.count d ≤ c.size := by
      rw [← hcount, tallied, ← reset_left {} c]
      exact (Ranking.start_between {} hs hnodup).progress.left_le hd
    rw [hcount]
    exact (hds.sublist.count_le d).trans htotal
  · have hsize : (tallied c.size ds).size = c.size := by
      rw [tallied, size_tally, Array.size_replicate]
    rw [Array.getD_eq_getD_getElem?, Array.getElem?_eq_none (by omega)]
    exact Nat.zero_le _

theorem start_settles {c : Collapsed} (hs : c.descendants.size = c.size)
    (hnodup : ∀ g, (c.next g).Nodup) (r : Ranker) :
    Ranking.Settles c.next c.size (r.reset c) [] (r.start c) := by
  have hstart := Ranking.start_between r hs hnodup
  refine ⟨hstart, ⟨rfl, rfl⟩, fun before after hcut => ?_⟩
  obtain ⟨rfl, rfl⟩ := List.append_eq_nil_iff.mp hcut
  exact ⟨_, hstart.progress.congr rfl rfl fun _ _ => Iff.rfl, by simp⟩

theorem counts {c : Collapsed} (hs : c.descendants.size = c.size)
    (hnext : ∀ g, ∀ d ∈ c.next g, d < c.size) (hnodup : ∀ g, (c.next g).Nodup) (r : Ranker) :
    Counts c r := by
  obtain ⟨done, h, hend⟩ : ∃ done, Ranking.Settles c.next c.size (r.reset c) done (r.run c) ∧
      (r.run c).ranker.wave = [] :=
    Ranking.run_induction (fun _ _ h hwave => h.advance hnext hnodup hwave)
      (start_settles hs hnodup r)
  have hturns := h.between.flatten_cohorts hend
  have hlinks : r.settledLinks c = linksFrom c.next done.flatten :=
    congrArg (linksFrom c.next) hturns
  constructor
  case starts => exact reset_left r c
  case tally => exact fun ds hds d => tally_le hs hnodup hds d
  case turns =>
    rw [hturns]
    exact h.between.nodup.of_append_left
  case links =>
    rw [hlinks]
    exact linksFrom_nodup hnodup h.between.nodup.of_append_left
  case ends =>
    obtain ⟨hwave, hreleased⟩ := settleAll_waves (r.reset c) (r.settledLinks c)
    have hcounts := h.counts
    rw [← hlinks] at hcounts
    exact hcounts.eq (hend.trans hwave.symm) (h.between.released.trans hreleased.symm)
  case counted =>
    intro before g d after hcut
    obtain ⟨seen, hseen, hhead⟩ := h.cuts before ((g, d) :: after) (hcut.trans hlinks)
    obtain ⟨hg, hd, hnew⟩ := hhead g d rfl
    exact left_pos hseen hg (hnext g d hd) hd hnew
  case ranks =>
    intro before after hcut g hg
    obtain ⟨seen, hseen, _⟩ := h.cuts before after (hcut.trans hlinks)
    exact hseen.rankAt_lt hg

end Ranker

end DepGraph.Cohort
