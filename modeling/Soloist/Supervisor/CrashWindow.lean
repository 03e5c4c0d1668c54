import Mathlib.Data.List.Induction
import Mathlib.Data.List.Sort
import Soloist.Supervisor.RestartPolicy

/-! The rate limit on automatic restarts, over whole crash histories: what the sliding window holds
of the grants made so far, and how many of them any interval of its length contains. -/
open List

namespace Soloist

/-- A process's crashes up to now: the window they left and what was decided on each. -/
structure CrashHistory where
  window : RestartWindow
  /-- Crash times are clock readings in nanoseconds. -/
  log : List (ℕ × RestartDecision)

namespace CrashHistory

def crash (h : CrashHistory) (now : ℕ) : CrashHistory where
  window := (h.window.onCrash now).1
  log := h.log ++ [(now, (h.window.onCrash now).2)]

def ofCrashes (crashes : List ℕ) : CrashHistory := crashes.foldl crash ⟨[], []⟩

theorem ofCrashes_append (past : List ℕ) (now : ℕ) :
    ofCrashes (past ++ [now]) = (ofCrashes past).crash now := by
  unfold ofCrashes
  rw [foldl_append]
  rfl

def isGrant (entry : ℕ × RestartDecision) : Bool := entry.2 ≠ .exhaust

def grants (h : CrashHistory) : List ℕ := (h.log.filter isGrant).map Prod.fst

def grantsWithin (h : CrashHistory) (start : ℕ) : List ℕ :=
  h.grants.filter fun t => start ≤ t ∧ t ≤ start + restartWindow

def recent (h : CrashHistory) (now : ℕ) : List ℕ :=
  h.grants.filter fun t => now ≤ t + restartWindow

/-- The policy's rule: a restart while fewer than the maximum were granted in the window. -/
def rule (n : ℕ) : RestartDecision := if n < maxRestarts then .restart (n + 1) else .exhaust

/-- The window holds the grants that are recent at the latest crash. -/
structure Tracks (h : CrashHistory) (last : ℕ) : Prop where
  window : h.window = h.recent last
  sorted : h.grants.Pairwise (· ≤ ·)
  past : ∀ t ∈ h.grants, t ≤ last

theorem tracks_empty : Tracks ⟨[], []⟩ 0 where
  window := rfl
  sorted := List.Pairwise.nil
  past t ht := by cases ht

/-- Pruning stops at the first restart young enough, and behind it none is older. -/
theorem dropWhile_eq_filter {w : List ℕ} (hw : w.Pairwise (· ≤ ·)) (cutoff : ℕ) :
    w.dropWhile (· < cutoff) = w.filter (cutoff ≤ ·) := by
  induction w with
  | nil => rfl
  | cons t rest ih =>
    obtain ⟨hhead, hrest⟩ := pairwise_cons.mp hw
    by_cases ht : t < cutoff
    · have hle : ¬cutoff ≤ t := by omega
      rw [dropWhile_cons_of_pos (by simpa using ht),
        filter_cons_of_neg (by simpa using hle)]
      exact ih hrest
    · rw [dropWhile_cons_of_neg (by simpa using ht)]
      symm
      apply filter_eq_self.mpr
      intro u hu
      have hcut : cutoff ≤ t := by omega
      rcases mem_cons.mp hu with rfl | hu
      · simpa using hcut
      · simpa using hcut.trans (hhead u hu)

variable {h : CrashHistory} {last now : ℕ}

variable (ht : h.Tracks last)
include ht

variable (hle : last ≤ now)
include hle

theorem Tracks.kept :
    (if restartWindow ≤ now then h.window.dropWhile (· < now - restartWindow) else h.window) =
      h.recent now := by
  have hsorted : h.window.Pairwise (· ≤ ·) := by
    rw [ht.window]
    exact ht.sorted.filter _
  split_ifs with hnow
  · rw [dropWhile_eq_filter hsorted, ht.window, recent, recent, filter_filter]
    apply filter_congr
    intro t _
    have hiff : (now - restartWindow ≤ t ∧ last ≤ t + restartWindow) ↔
        now ≤ t + restartWindow := by omega
    simpa using hiff
  · rw [ht.window, recent, recent]
    apply filter_congr
    intro t _
    have hiff : last ≤ t + restartWindow ↔ now ≤ t + restartWindow := by omega
    simpa using hiff

theorem Tracks.decision :
    (h.window.onCrash now).2 = rule (h.recent now).length := by
  have hkept := ht.kept hle
  simp only [RestartWindow.onCrash, hkept, rule]
  by_cases hfull : maxRestarts ≤ (h.recent now).length
  · rw [if_pos hfull, if_neg (by omega)]
  · rw [if_neg hfull, if_pos (by omega)]

theorem Tracks.window_crash :
    (h.crash now).window =
      if (h.recent now).length < maxRestarts then h.recent now ++ [now] else h.recent now := by
  have hkept := ht.kept hle
  simp only [crash, RestartWindow.onCrash, hkept]
  by_cases hfull : maxRestarts ≤ (h.recent now).length
  · rw [if_pos hfull, if_neg (by omega)]
  · rw [if_neg hfull, if_pos (by omega)]

theorem Tracks.grants_crash :
    (h.crash now).grants =
      if (h.recent now).length < maxRestarts then h.grants ++ [now] else h.grants := by
  have hdecision := ht.decision hle
  unfold grants crash
  rw [hdecision, filter_append, map_append]
  unfold rule
  split_ifs <;> simp [isGrant]

theorem Tracks.crash : (h.crash now).Tracks now := by
  have hgrants := ht.grants_crash hle
  have hwindow := ht.window_crash hle
  by_cases hgranted : (h.recent now).length < maxRestarts
  · rw [if_pos hgranted] at hgrants hwindow
    constructor
    · rw [hwindow]
      simp [recent, hgrants, filter_append]
    · rw [hgrants, pairwise_append]
      refine ⟨ht.sorted, pairwise_singleton _ _, fun t hmem u hu => ?_⟩
      have hpast := ht.past t hmem
      rw [mem_singleton.mp hu]
      omega
    · intro t hmem
      rw [hgrants] at hmem
      rcases mem_append.mp hmem with hmem | hmem
      · exact (ht.past t hmem).trans hle
      · rw [mem_singleton.mp hmem]
  · rw [if_neg hgranted] at hgrants hwindow
    constructor
    · rw [hwindow]
      simp only [recent, hgrants]
    · rw [hgrants]
      exact ht.sorted
    · intro t hmem
      rw [hgrants] at hmem
      exact (ht.past t hmem).trans hle

/-- A grant is allowed only while the window that ends with it has room, and an interval that
contains it looks back no further than that window. -/
theorem Tracks.crowd
    (hbound : ∀ start, (h.grantsWithin start).length ≤ maxRestarts) (start : ℕ) :
    ((h.crash now).grantsWithin start).length ≤ maxRestarts := by
  have hgrants := ht.grants_crash hle
  by_cases hgranted : (h.recent now).length < maxRestarts
  · rw [if_pos hgranted] at hgrants
    have hsplit : (h.crash now).grantsWithin start =
        h.grantsWithin start ++ [now].filter fun t => start ≤ t ∧ t ≤ start + restartWindow := by
      rw [grantsWithin, hgrants, filter_append, grantsWithin]
    by_cases hin : start ≤ now ∧ now ≤ start + restartWindow
    · have hsub : (h.grantsWithin start).length ≤ (h.recent now).length := by
        apply Sublist.length_le
        apply monotone_filter_right
        intro t ht
        have hlow : start ≤ t ∧ t ≤ start + restartWindow := by simpa using ht
        have hrecent : now ≤ t + restartWindow := by omega
        simpa using hrecent
      rw [hsplit, List.length_append, filter_cons_of_pos (by simpa using hin)]
      simp only [filter_nil, length_singleton]
      omega
    · rw [hsplit, filter_cons_of_neg (by simpa using hin)]
      simpa using hbound start
  · rw [if_neg hgranted] at hgrants
    rw [grantsWithin, hgrants]
    exact hbound start

omit hle

omit ht

variable {crashes : List ℕ}

/-- What the window tracks after any history of crashes that never goes backwards. -/
theorem tracks_ofCrashes (h : crashes.Pairwise (· ≤ ·)) :
    (ofCrashes crashes).Tracks (crashes.getLast?.getD 0) ∧
      ∀ start, ((ofCrashes crashes).grantsWithin start).length ≤ maxRestarts := by
  induction crashes using List.reverseRecOn with
  | nil => exact ⟨tracks_empty, fun start => Nat.zero_le _⟩
  | append_singleton past now ih =>
    obtain ⟨hpast, -, hle⟩ := pairwise_append.mp h
    obtain ⟨htracks, hbound⟩ := ih hpast
    have hlast : past.getLast?.getD 0 ≤ now := by
      cases hget : past.getLast? with
      | none => exact Nat.zero_le _
      | some t => exact hle t (mem_of_getLast? hget) now (mem_singleton_self now)
    rw [ofCrashes_append, getLast?_concat]
    exact ⟨htracks.crash hlast, htracks.crowd hlast hbound⟩

variable {past : List ℕ}

theorem tracks_before (h : (past ++ [now]).Pairwise (· ≤ ·)) :
    ∃ last ≤ now, (ofCrashes past).Tracks last := by
  obtain ⟨hpast, -, hle⟩ := pairwise_append.mp h
  refine ⟨past.getLast?.getD 0, ?_, (tracks_ofCrashes hpast).1⟩
  cases hget : past.getLast? with
  | none => exact Nat.zero_le _
  | some t => exact hle t (mem_of_getLast? hget) now (mem_singleton_self now)

theorem grants_sublist (h : crashes.Pairwise (· ≤ ·)) :
    (ofCrashes crashes).grants.Sublist crashes := by
  induction crashes using List.reverseRecOn with
  | nil => exact List.Sublist.refl _
  | append_singleton past now ih =>
    obtain ⟨last, hle, htracks⟩ := tracks_before h
    have hpast := ih (pairwise_append.mp h).1
    rw [ofCrashes_append, htracks.grants_crash hle]
    split_ifs
    · exact hpast.append (List.Sublist.refl _)
    · exact hpast.trans (sublist_append_left _ _)

/-- Any eleven crashes in a row span more than the window. -/
def Spaced (crashes : List ℕ) : Prop :=
  ∀ i t u, crashes[i]? = some t → crashes[i + maxRestarts]? = some u → t + restartWindow < u

/-- Of crashes spaced widely enough, the window that ends with the next one has room for it. -/
theorem recent_lt_of_spaced (h : (past ++ [now]).Pairwise (· ≤ ·))
    (hspaced : Spaced (past ++ [now])) : ((ofCrashes past).recent now).length < maxRestarts := by
  have hpast := (pairwise_append.mp h).1
  have hsub : ((ofCrashes past).recent now).length ≤
      (past.filter fun t => now ≤ t + restartWindow).length :=
    ((grants_sublist hpast).filter _).length_le
  have hmax : 0 < maxRestarts := by decide
  by_cases hlong : past.length < maxRestarts
  · have hlen := length_filter_le (fun t => now ≤ t + restartWindow) past
    omega
  -- everything up to the tenth crash before this one has aged out
  · set k := past.length - maxRestarts with hk
    have hklt : k < past.length := by omega
    have hgap : past[k] + restartWindow < now := by
      apply hspaced k
      · rw [getElem?_append_left hklt, getElem?_eq_getElem hklt]
      · have hend : k + maxRestarts = past.length := by omega
        rw [hend, getElem?_concat_length]
    have hold : (past.take (k + 1)).filter (fun t => now ≤ t + restartWindow) = [] := by
      apply filter_eq_nil_iff.mpr
      intro t hmem
      obtain ⟨i, hi, rfl⟩ := getElem_of_mem hmem
      rw [length_take] at hi
      rw [getElem_take]
      have hle : past[i] ≤ past[k] := by
        rcases Nat.lt_or_ge i k with hik | hik
        · exact pairwise_iff_getElem.mp hpast i k (by omega) hklt hik
        · have heq : i = k := by omega
          simp [heq]
      have haged : ¬now ≤ past[i] + restartWindow := by omega
      simpa using haged
    have hrest : (past.filter fun t => now ≤ t + restartWindow).length ≤
        (past.drop (k + 1)).length := by
      conv_lhs => rw [← take_append_drop (k + 1) past]
      rw [filter_append, hold, nil_append]
      exact length_filter_le _ _
    rw [length_drop] at hrest
    omega

theorem spaced_of_append (h : Spaced (past ++ [now])) : Spaced past := by
  intro i t u ht hu
  have hi : i < past.length := (List.getElem?_eq_some_iff.mp ht).1
  have hj : i + maxRestarts < past.length := (List.getElem?_eq_some_iff.mp hu).1
  apply h i t u
  · rw [getElem?_append_left hi, ht]
  · rw [getElem?_append_left hj, hu]

theorem log_granted_of_spaced (h : crashes.Pairwise (· ≤ ·)) (hspaced : Spaced crashes) :
    ∀ entry ∈ (ofCrashes crashes).log, entry.2 ≠ .exhaust := by
  induction crashes using List.reverseRecOn with
  | nil =>
    intro entry hmem
    cases hmem
  | append_singleton past now ih =>
    obtain ⟨last, hle, htracks⟩ := tracks_before h
    have hroom := recent_lt_of_spaced h hspaced
    have hdecision := htracks.decision hle
    intro entry hmem
    rw [ofCrashes_append] at hmem
    rcases mem_append.mp hmem with hmem | hmem
    · exact ih (pairwise_append.mp h).1 (spaced_of_append hspaced) entry hmem
    · rw [mem_singleton.mp hmem, hdecision, rule, if_pos hroom]
      exact RestartDecision.noConfusion

/-- No closed interval of the window's length holds more grants than the maximum. A crash is
refused exactly when that many grants are still in the window that ends with it, so the process is
granted again once enough have left; a grant reports how many the window then holds; and crashes
spaced widely enough are all granted. -/
theorem restarts_limited (crashes : List ℕ) (h : crashes.Pairwise (· ≤ ·)) :
    (∀ start, ((ofCrashes crashes).grantsWithin start).length ≤ maxRestarts) ∧
      (∀ past now future, crashes = past ++ now :: future →
        (((ofCrashes past).window.onCrash now).2 = .exhaust ↔
          maxRestarts ≤ ((ofCrashes past).recent now).length) ∧
        ∀ attempt, ((ofCrashes past).window.onCrash now).2 = .restart attempt →
          attempt = ((ofCrashes (past ++ [now])).recent now).length) ∧
      (Spaced crashes → ∀ entry ∈ (ofCrashes crashes).log, entry.2 ≠ .exhaust) := by
  refine ⟨(tracks_ofCrashes h).2, ?_, log_granted_of_spaced h⟩
  intro past now future heq
  have hupto : (past ++ [now]).Pairwise (· ≤ ·) := by
    rw [heq, List.append_cons] at h
    exact (List.pairwise_append.mp h).1
  obtain ⟨last, hle, htracks⟩ := tracks_before hupto
  have hgrants := htracks.grants_crash hle
  rw [htracks.decision hle, ofCrashes_append, rule]
  by_cases hroom : ((ofCrashes past).recent now).length < maxRestarts
  · rw [if_pos hroom]
    rw [if_pos hroom] at hgrants
    constructor
    · constructor
      · intro hexhaust
        cases hexhaust
      · intro hfull
        omega
    · intro attempt hattempt
      cases hattempt
      simp [recent, hgrants, List.filter_append]
  · rw [if_neg hroom]
    constructor
    · constructor
      · intro _
        omega
      · intro _
        rfl
    · intro attempt hattempt
      cases hattempt

/-- The eleventh crash at one moment is held. -/
theorem restarts_limited_burst :
    ((ofCrashes (List.replicate 10 0)).window.onCrash 0).2 = .exhaust :=
  ((restarts_limited (List.replicate 11 0) (by decide)).2.1 (List.replicate 10 0) 0 []
    (by decide)).1.mpr (by decide)

end CrashHistory
end Soloist
