import Soloist.Watch.Set

/-! What the surfaces are told after a re-sync: the outcome each project was given. -/
open List Option Slots

namespace Soloist.WatchStatus
variable {s : WatchStatus} {purpose other : WatchPurpose} {outcomes : List WatchOutcome}
  {project : ProjectId} {outcome : WatchOutcome}

theorem limited_resynced : (s.resynced purpose outcomes).limited =
    outcomes.foldl (answer purpose) fun project => (s.limited project).erase purpose := rfl

variable {limited : ProjectId → Limits}

theorem answer_of_ne (h : project ≠ outcome.project) :
    answer purpose limited outcome project = limited project := by
  unfold answer
  cases outcome.limit with
  | none => rfl
  | some limit => exact if_neg h

theorem answer_other (h : other ≠ purpose) :
    answer purpose limited outcome project other = limited project other := by
  by_cases hproject : project = outcome.project
  · unfold answer
    cases outcome.limit with
    | none => rfl
    | some limit =>
      dsimp only
      rw [if_pos hproject]
      exact put_of_ne h
  · rw [answer_of_ne hproject]

theorem answer_self (h : limited outcome.project purpose = none) :
    answer purpose limited outcome outcome.project purpose = outcome.limit := by
  unfold answer
  cases hlimit : outcome.limit with
  | none => exact h
  | some limit =>
    dsimp only
    rw [if_pos rfl, put_self]

theorem foldl_answer_of_not_mem (h : project ∉ outcomes.map WatchOutcome.project) :
    outcomes.foldl (answer purpose) limited project = limited project := by
  induction outcomes generalizing limited with
  | nil => rfl
  | cons outcome rest ih =>
    rw [map_cons, mem_cons, not_or] at h
    rw [foldl_cons, ih h.2, answer_of_ne h.1]

theorem foldl_answer (hnodup : (outcomes.map WatchOutcome.project).Nodup)
    (houtcome : outcome ∈ outcomes) (h : limited outcome.project purpose = none) :
    outcomes.foldl (answer purpose) limited outcome.project purpose = outcome.limit := by
  induction outcomes generalizing limited with
  | nil => cases houtcome
  | cons first rest ih =>
    rw [map_cons, nodup_cons] at hnodup
    rw [foldl_cons]
    obtain rfl | houtcome := mem_cons.mp houtcome
    · rw [foldl_answer_of_not_mem hnodup.1, answer_self h]
    · have hne : outcome.project ≠ first.project := by
        intro heq
        exact hnodup.1 (heq ▸ List.mem_map_of_mem houtcome)
      apply ih hnodup.2 houtcome
      rw [answer_of_ne hne]
      exact h

theorem erase_self (t : Limits) (purpose : WatchPurpose) : t.erase purpose purpose = none :=
  if_pos rfl

theorem limited_of_mem (hnodup : (outcomes.map WatchOutcome.project).Nodup)
    (houtcome : outcome ∈ outcomes) :
    (s.resynced purpose outcomes).limited outcome.project purpose = outcome.limit := by
  rw [limited_resynced]
  exact foldl_answer hnodup houtcome (erase_self _ _)

theorem limited_of_not_mem (h : project ∉ outcomes.map WatchOutcome.project) :
    (s.resynced purpose outcomes).limited project purpose = none := by
  rw [limited_resynced, foldl_answer_of_not_mem h]
  exact erase_self _ _

theorem limited_other (h : other ≠ purpose) :
    (s.resynced purpose outcomes).limited project other = s.limited project other := by
  have hother : ∀ limited : ProjectId → Limits,
      outcomes.foldl (answer purpose) limited project other = limited project other := by
    intro limited
    induction outcomes generalizing limited with
    | nil => rfl
    | cons outcome rest ih =>
      rw [foldl_cons, ih, answer_other h]
  rw [limited_resynced, hother]
  exact if_neg h

def Settled (s : WatchStatus) (project : ProjectId) : Prop :=
  s.announced project = s.limited project

theorem settled_of_mem (h : project ∈ outcomes.map WatchOutcome.project) :
    (s.resynced purpose outcomes).Settled project := if_pos (.inr h)

theorem Settled.resynced (h : s.Settled project) :
    (s.resynced purpose outcomes).Settled project := by
  by_cases htouched : (s.limited project purpose).isSome ∨
      project ∈ outcomes.map WatchOutcome.project
  · exact if_pos htouched
  · rw [not_or, not_isSome_iff_eq_none] at htouched
    have hsame : (s.resynced purpose outcomes).limited project = s.limited project := by
      rw [limited_resynced, foldl_answer_of_not_mem htouched.2]
      funext other
      by_cases hother : other = purpose
      · rw [hother, erase_self, htouched.1]
      · exact if_neg hother
    unfold Settled
    rw [hsame]
    refine Eq.trans (if_neg ?_) h
    rw [not_or, not_isSome_iff_eq_none]
    exact htouched

section Reported
variable {git restarts : List WatchOutcome}

/-- What is reported of a project after both purposes were answered. -/
theorem announced_resynced (hgit : (git.map WatchOutcome.project).Nodup)
    (hrestarts : (restarts.map WatchOutcome.project).Nodup) (houtcome : outcome ∈ git) :
    ((s.resynced .gitStatus git).resynced .restarts restarts).announced outcome.project .gitStatus =
        outcome.limit ∧
      (outcome.project ∉ restarts.map WatchOutcome.project →
        ((s.resynced .gitStatus git).resynced .restarts restarts).announced outcome.project
          .restarts = none) ∧
      ∀ restart ∈ restarts, restart.project = outcome.project →
        ((s.resynced .gitStatus git).resynced .restarts restarts).announced outcome.project
          .restarts = restart.limit := by
  have hsettled : ((s.resynced .gitStatus git).resynced .restarts restarts).Settled
      outcome.project := (settled_of_mem (List.mem_map_of_mem houtcome)).resynced
  rw [hsettled]
  refine ⟨?_, ?_, ?_⟩
  · rw [limited_other (by decide), limited_of_mem hgit houtcome]
  · intro hnot
    exact limited_of_not_mem hnot
  · intro restart hrestart heq
    rw [← heq]
    exact limited_of_mem hrestarts hrestart

end Reported

end Soloist.WatchStatus

/-! The status tracker as it keeps its maps, and what it publishes: replayed in order, the
announcements are the standing limits. -/
namespace Soloist

namespace Limits

def isEmpty (limits : Limits) : Bool := (limits .restarts).isNone && (limits .gitStatus).isNone

theorem isEmpty_iff {limits : Limits} : limits.isEmpty = true ↔ limits = Slots.empty := by
  unfold isEmpty
  rw [Bool.and_eq_true, isNone_iff_eq_none, isNone_iff_eq_none]
  constructor
  · rintro ⟨hrestarts, hgit⟩
    funext purpose
    cases purpose with
    | restarts => exact hrestarts
    | gitStatus => exact hgit
  · rintro rfl
    exact ⟨rfl, rfl⟩

instance : DecidableEq Limits := fun a b =>
  decidable_of_iff (a .restarts = b .restarts ∧ a .gitStatus = b .gitStatus) <| by
    constructor
    · rintro ⟨hrestarts, hgit⟩
      funext purpose
      cases purpose with
      | restarts => exact hrestarts
      | gitStatus => exact hgit
    · rintro rfl
      exact ⟨rfl, rfl⟩

end Limits

/-- A project and the whole set of limits it is now under. -/
structure WatchLimitChanged where
  project : ProjectId
  limits : Limits

/-- The tracker's state: what limits each project, and what the surfaces were last told. -/
structure LimitState where
  limited : Slots ProjectId Limits
  announced : Slots ProjectId Limits

namespace LimitState

def new : LimitState := ⟨Slots.empty, Slots.empty⟩

def held (limits : Slots ProjectId Limits) (project : ProjectId) : Limits :=
  (limits project).getD Slots.empty

def withdraw (purpose : WatchPurpose) (limited : Slots ProjectId Limits) :
    Slots ProjectId Limits :=
  fun project => ((limited project).map fun limits => limits.erase purpose).filter fun limits =>
    !limits.isEmpty

def answer (purpose : WatchPurpose) (limited : Slots ProjectId Limits) (outcome : WatchOutcome) :
    Slots ProjectId Limits :=
  match outcome.limit with
  | none => limited
  | some limit =>
    limited.put outcome.project ((held limited outcome.project).put purpose limit)

def settle (s : LimitState) (project : ProjectId) : LimitState × Option Limits :=
  let current := held s.limited project
  let previous := held s.announced project
  let announced :=
    if current.isEmpty then s.announced.erase project else s.announced.put project current
  ({ s with announced }, if previous ≠ current then some current else none)

def settleAll (s : LimitState) : List ProjectId → LimitState × List WatchLimitChanged
  | [] => (s, [])
  | project :: rest =>
    let (s, owed) := s.settle project
    let (s, announcements) := s.settleAll rest
    (s, (owed.map (WatchLimitChanged.mk project)).toList ++ announcements)

def answered (s : LimitState) (purpose : WatchPurpose) (outcomes : List WatchOutcome) :
    LimitState :=
  { s with limited := outcomes.foldl (answer purpose) (withdraw purpose s.limited) }

/-- Replaces a purpose's answers, and announces what every project it touched is now limited to.
`iterated` lists the projects that the purpose limited, in the order the map yields them. -/
def resynced (s : LimitState) (purpose : WatchPurpose) (outcomes : List WatchOutcome)
    (iterated : List ProjectId) : LimitState × List WatchLimitChanged :=
  let touched := iterated ++ outcomes.map WatchOutcome.project
  (s.answered purpose outcomes).settleAll touched

def replay (shown : ProjectId → Limits) (announcements : List WatchLimitChanged) :
    ProjectId → Limits :=
  announcements.foldl (fun shown a => Function.update shown a.project a.limits) shown

variable {s : LimitState} {purpose : WatchPurpose} {outcomes : List WatchOutcome}
variable {project : ProjectId} {iterated : List ProjectId}

@[simp] theorem limited_settle : (s.settle project).1.limited = s.limited := rfl

theorem limited_settleAll (touched : List ProjectId) :
    (s.settleAll touched).1.limited = s.limited := by
  induction touched generalizing s with
  | nil => rfl
  | cons project rest ih => exact ih

theorem announced_settle (p : ProjectId) :
    held (s.settle project).1.announced p =
      if p = project then held s.limited project else held s.announced p := by
  unfold settle held
  dsimp only
  split_ifs with hempty hp hp
  · rw [hp, Limits.isEmpty_iff.mp hempty]
    simp [Slots.erase]
  · simp [Slots.erase, hp]
  · rw [hp, put_self, getD_some]
  · rw [put_of_ne hp]

def Moving (shown : ProjectId → Limits) : List WatchLimitChanged → Prop
  | [] => True
  | a :: rest => shown a.project ≠ a.limits ∧ Moving (replay shown [a]) rest

theorem moving_append {shown : ProjectId → Limits} {xs ys : List WatchLimitChanged} :
    Moving shown (xs ++ ys) ↔ Moving shown xs ∧ Moving (replay shown xs) ys := by
  induction xs generalizing shown with
  | nil => simp [Moving, replay]
  | cons a rest ih =>
    rw [cons_append, Moving, Moving, ih, and_assoc]
    rfl

theorem settleAll_cons (project : ProjectId) (rest : List ProjectId) :
    s.settleAll (project :: rest) =
      (((s.settle project).1.settleAll rest).1,
        ((s.settle project).2.map (WatchLimitChanged.mk project)).toList ++
          ((s.settle project).1.settleAll rest).2) := rfl

/-- Settling announces the way from what was told to what is told, changes something at each
announcement, and leaves the untouched as they were. -/
theorem settleAll_spec (touched : List ProjectId) :
    replay (held s.announced) (s.settleAll touched).2 = held (s.settleAll touched).1.announced ∧
      Moving (held s.announced) (s.settleAll touched).2 ∧
      ∀ p, held (s.settleAll touched).1.announced p =
        if p ∈ touched then held s.limited p else held s.announced p := by
  induction touched generalizing s with
  | nil => exact ⟨rfl, trivial, fun p => rfl⟩
  | cons project rest ih =>
    obtain ⟨hreplay, hmoving, hheld⟩ := ih (s := (s.settle project).1)
    have hsettled : held (s.settle project).1.announced =
        Function.update (held s.announced) project (held s.limited project) := by
      funext p
      rw [announced_settle, Function.update_apply]
    have howed : (s.settle project).2 =
        if held s.announced project ≠ held s.limited project then some (held s.limited project)
        else none := rfl
    have hlast : ∀ p, held (s.settleAll (project :: rest)).1.announced p =
        if p ∈ project :: rest then held s.limited p else held s.announced p := by
      intro p
      refine (hheld p).trans ?_
      rw [limited_settle, announced_settle]
      by_cases hp : p = project
      · rw [hp, if_pos rfl, if_pos mem_cons_self, ite_self]
      · simp only [hp, mem_cons, false_or, if_false]
    rw [settleAll_cons]
    dsimp only
    by_cases hmoved : held s.announced project = held s.limited project
    · rw [← hmoved, Function.update_eq_self] at hsettled
      rw [hsettled] at hreplay hmoving
      rw [howed, if_neg (not_not.mpr hmoved)]
      exact ⟨hreplay, hmoving, hlast⟩
    · rw [hsettled] at hreplay hmoving
      rw [howed, if_pos hmoved]
      exact ⟨hreplay, ⟨hmoved, hmoving⟩, hlast⟩

theorem held_withdraw (limited : Slots ProjectId Limits) :
    held (withdraw purpose limited) = fun project => (held limited project).erase purpose := by
  funext project
  unfold held withdraw
  cases limited project with
  | none =>
    funext other
    simp [Slots.erase]
  | some limits =>
    rw [map_some, filter_some]
    split_ifs with hleft
    · rfl
    · rw [Bool.not_eq_true', Bool.not_eq_false] at hleft
      exact (Limits.isEmpty_iff.mp hleft).symm

theorem held_answer (limited : Slots ProjectId Limits) (outcome : WatchOutcome) :
    held (answer purpose limited outcome) =
      WatchStatus.answer purpose (held limited) outcome := by
  unfold answer WatchStatus.answer
  cases outcome.limit with
  | none => rfl
  | some limit =>
    funext project
    dsimp only
    split_ifs with hp
    · unfold held
      rw [hp, put_self, getD_some]
    · unfold held
      rw [put_of_ne hp]

theorem held_answers (limited : Slots ProjectId Limits) :
    held (outcomes.foldl (answer purpose) limited) =
      outcomes.foldl (WatchStatus.answer purpose) (held limited) := by
  induction outcomes generalizing limited with
  | nil => rfl
  | cons outcome rest ih => rw [foldl_cons, foldl_cons, ih, held_answer]

def Iterates (s : LimitState) (purpose : WatchPurpose) (iterated : List ProjectId) : Prop :=
  ∀ project, project ∈ iterated ↔ (held s.limited project purpose).isSome = true

/-- What the maps say, without their entries. -/
def view (s : LimitState) : WatchStatus := ⟨held s.limited, held s.announced⟩

theorem held_answered (s : LimitState) :
    held (s.answered purpose outcomes).limited = (s.view.resynced purpose outcomes).limited := by
  unfold answered
  dsimp only
  rw [held_answers, held_withdraw]
  rfl

/-- The tracker with its maps does what the tracker without them does. -/
theorem view_resynced (hiterated : s.Iterates purpose iterated) :
    (s.resynced purpose outcomes iterated).1.view = s.view.resynced purpose outcomes := by
  have hlimited : held (s.resynced purpose outcomes iterated).1.limited =
      (s.view.resynced purpose outcomes).limited := by
    unfold resynced
    rw [limited_settleAll, held_answered]
  have hannounced : held (s.resynced purpose outcomes iterated).1.announced =
      (s.view.resynced purpose outcomes).announced := by
    funext project
    have htouched : project ∈ iterated ++ outcomes.map WatchOutcome.project ↔
        (s.view.limited project purpose).isSome = true ∨
          project ∈ outcomes.map WatchOutcome.project := by
      rw [mem_append, hiterated project]
      rfl
    have hheld := (settleAll_spec (s := s.answered purpose outcomes)
      (iterated ++ outcomes.map WatchOutcome.project)).2.2 project
    exact hheld.trans (if_congr htouched (congrFun (held_answered s) project) rfl)
  exact congrArg₂ WatchStatus.mk hlimited hannounced

end LimitState

/-- One re-sync of a purpose, and the order in which the map yields the projects it limits. -/
structure LimitUpdate where
  purpose : WatchPurpose
  outcomes : List WatchOutcome
  iterated : List ProjectId

/-- The tracker, and everything it has published in order. -/
structure Announcing where
  state : LimitState
  published : List WatchLimitChanged

namespace Announcing

def new : Announcing := ⟨.new, []⟩

def step (s : Announcing) (u : LimitUpdate) : Option Announcing :=
  let (state, announcements) := s.state.resynced u.purpose u.outcomes u.iterated
  some ⟨state, s.published ++ announcements⟩

def Iterates (s : Announcing) (u : LimitUpdate) : Prop := s.state.Iterates u.purpose u.iterated

end Announcing

def announcing : Machine Announcing LimitUpdate := ⟨fun s => s = .new, Announcing.step⟩

namespace Announcing
open LimitState
variable {s t : Announcing}

/-- The surfaces hold the standing limits, from announcements that each changed something. -/
structure Told (s : Announcing) : Prop where
  settled : ∀ project, s.state.view.Settled project
  replayed : replay (fun _ => Slots.empty) s.published = held s.state.announced
  moving : Moving (fun _ => Slots.empty) s.published

theorem told_new : new.Told := ⟨fun _ => rfl, rfl, trivial⟩

theorem Told.step {u : LimitUpdate} (hs : s.Told) (hiterates : s.Iterates u)
    (h : s.step u = some t) : t.Told := by
  cases h
  obtain ⟨hreplay, hmoving, -⟩ := settleAll_spec (s := s.state.answered u.purpose u.outcomes)
    (u.iterated ++ u.outcomes.map WatchOutcome.project)
  refine ⟨fun project => ?_, ?_, moving_append.mpr ⟨hs.moving, ?_⟩⟩
  · have hsettled : (s.state.view.resynced u.purpose u.outcomes).Settled project :=
      (hs.settled project).resynced
    rw [← view_resynced hiterates] at hsettled
    exact hsettled
  · unfold replay
    rw [foldl_append]
    change replay (replay _ s.published) _ = _
    rw [hs.replayed]
    exact hreplay
  · rw [hs.replayed]
    exact hmoving

/-- Whatever the updates: the announcements in order, replayed from nothing, are the standing
limits of every project, and each of them changes what those before it show. -/
theorem announcements_replay {updates : List LimitUpdate}
    (hiterates : announcing.Along Iterates new updates)
    (hrun : announcing.run new updates = some s) :
    replay (fun _ => Slots.empty) s.published = held s.state.limited ∧
      ∀ before a after, s.published = before ++ a :: after →
        replay (fun _ => Slots.empty) before a.project ≠ a.limits := by
  have htold : s.Told := Machine.invariant_along (M := announcing) (P := Told)
    (fun _ _ _ hiterates hs hstep => hs.step hiterates hstep) told_new hiterates hrun
  refine ⟨htold.replayed.trans (funext htold.settled), fun before a after hsplit => ?_⟩
  have hmoving := htold.moving
  rw [hsplit, moving_append] at hmoving
  exact hmoving.2.1

def degradedThenWatched : List LimitUpdate :=
  [⟨.gitStatus, [⟨1, some .degraded⟩], []⟩, ⟨.gitStatus, [⟨1, none⟩], [1]⟩]

theorem iterates_degradedThenWatched : announcing.Along Iterates new degradedThenWatched := by
  refine ⟨fun p => ?_, fun t ht => ?_⟩
  · simp [new, LimitState.new, held]
  · cases ht
    refine ⟨fun p => ?_, fun _ _ => trivial⟩
    by_cases hp : p = 1
    · subst hp
      decide
    · refine iff_of_false (fun h => hp (mem_singleton.mp h)) ?_
      change ¬(held (Slots.put _ 1 _) p WatchPurpose.gitStatus).isSome = true
      unfold held
      rw [put_of_ne hp]
      simp [withdraw, new, LimitState.new]

theorem announcements_replay_withdrawn :
    ∃ s, announcing.run new degradedThenWatched = some s ∧ s.published.length = 2 ∧
      replay (fun _ => Slots.empty) s.published = held s.state.limited := by
  have hrun : announcing.run new degradedThenWatched = some _ := rfl
  exact ⟨_, hrun, rfl, (announcements_replay iterates_degradedThenWatched hrun).1⟩

end Announcing

end Soloist
