import Soloist.Git.StatusWatch

/-! The steps of the status reactor one by one, and what they keep: every burst is pending under the
reactor's window and ceiling, and a project that is due or read has none. -/
open List

namespace Soloist
namespace GitWatch
variable {s t : GitWatch} {e : GitWatchEvent} {p : ProjectId} {path : PathBuf} {route : Route}

inductive Turn (s : GitWatch) : GitWatchEvent → GitWatch → Prop
  | report (path : PathBuf) :
    Turn s (.report path) { s with changes := s.changes.publish fanoutCapacity path }
  | announce (e : RailEvent) :
    Turn s (.announce e) { s with bus := s.bus.publish s.busCapacity e }
  | close (h : s.Selecting) : Turn s .close { s with ended := true }
  | wait (d : ℕ) (h : s.Selecting) (hchanges : s.changes.recv = none)
    (hnext : ∀ next ∈ s.nextDue, s.now + d ≤ next) : Turn s (.wait d) { s with now := s.now + d }
  | busy (d : ℕ) (h : s.reading.isSome = true ∨ s.ended = true) :
    Turn s (.busy d) { s with now := s.now + d }
  | hear (e : Option RailEvent) (listing : Option (List (ProjectId × PathBuf)))
    (bus : Feed RailEvent) (h : s.Selecting) : Turn s (.hear e listing) ({ s with bus }.heard e listing)
  | change (path : Option PathBuf) (changes : Feed PathBuf) (h : s.Selecting)
    (hrecv : s.changes.recv = some (path, changes)) :
    Turn s (.change path) { s with
      changes
      debouncers := (s.armedBy path).foldl (fun ds p => arm ds s.now p) s.debouncers }
  | fire (order : List ProjectId) (h : s.Selecting) (horder : order.Perm s.dueNow) :
    Turn s (.fire order) { s with debouncers := s.untaken, due := order }
  | begin (project : ProjectId) (rest : List ProjectId) (hread : s.reading = none)
    (hdue : s.due = project :: rest) :
    Turn s (.begin project) { s with reading := some project, due := rest }
  | skip (project : ProjectId) (rest : List ProjectId) (hread : s.reading = none)
    (hdue : s.due = project :: rest) (hroute : s.routes.rootOf project = none) :
    Turn s (.skip project) { s with due := rest }
  | finish (project : ProjectId) (read : Except GitError Bool) (hread : s.reading = some project) :
    Turn s (.finish project read) (s.finished project read)

theorem turn_of_step (h : s.step e = some t) : s.Turn e t := by
  cases e with
  | report path =>
    cases h
    exact .report path
  | announce e =>
    cases h
    exact .announce e
  | close =>
    simp only [step] at h
    split_ifs at h with hselecting
    cases h
    exact .close hselecting
  | wait d =>
    simp only [step] at h
    split_ifs at h with hguard
    cases h
    exact .wait d hguard.1 hguard.2.2.1 hguard.2.2.2
  | busy d =>
    simp only [step] at h
    split_ifs at h with hguard
    cases h
    exact .busy d hguard
  | hear e listing =>
    simp only [step] at h
    split_ifs at h with hselecting
    split at h
    next read bus hrecv =>
      split_ifs at h with hread
      cases h
      exact .hear e listing bus hselecting
    · cases h
  | change path =>
    simp only [step] at h
    split_ifs at h with hselecting
    split at h
    next read changes hrecv =>
      split_ifs at h with hread
      subst hread
      cases h
      exact .change read changes hselecting hrecv
    · cases h
  | fire order =>
    simp only [step] at h
    split_ifs at h with hguard
    cases h
    exact .fire order hguard.1 hguard.2.2
  | begin project =>
    simp only [step] at h
    split_ifs at h with hguard
    obtain ⟨-, hread, hhead, -⟩ := hguard
    obtain ⟨rest, hdue⟩ := head?_eq_some_iff.mp hhead
    cases h
    rw [hdue, tail_cons]
    exact .begin project rest hread hdue
  | skip project =>
    simp only [step] at h
    split_ifs at h with hguard
    obtain ⟨-, hread, hhead, hroute⟩ := hguard
    obtain ⟨rest, hdue⟩ := head?_eq_some_iff.mp hhead
    cases h
    rw [hdue, tail_cons]
    exact .skip project rest hread hdue hroute
  | finish project read =>
    simp only [step] at h
    split_ifs at h with hguard
    cases h
    exact .finish project read hguard

theorem lookup_arm (ds : Dict ProjectId Debouncer) (now : Instant) (project i : ProjectId) :
    AList.lookup i (arm ds now project) =
      if i = project then
        some (((AList.lookup project ds).getD (.bounded quietWindow maxPostpone)).trigger now)
      else AList.lookup i ds :=
  Dict.lookup_insert ds project i _

theorem mem_dueNow :
    p ∈ s.dueNow ↔ ∃ d, AList.lookup p s.debouncers = some d ∧ (d.takeIfDue s.now).2 = true := by
  unfold dueNow
  simp only [mem_map, mem_filter]
  constructor
  · rintro ⟨⟨q, d⟩, ⟨hmem, hdue⟩, rfl⟩
    exact ⟨d, AList.mem_lookup_iff.mpr hmem, hdue⟩
  · rintro ⟨d, hlookup, hdue⟩
    exact ⟨⟨p, d⟩, ⟨AList.mem_lookup_iff.mp hlookup, hdue⟩, rfl⟩

theorem nextDue_le {d : Debouncer} {next : Instant} (hd : AList.lookup p s.debouncers = some d)
    (hnext : d.dueAt = some next) : ∃ least ∈ s.nextDue, least ≤ next := by
  have hmem : next ∈ s.debouncers.entries.filterMap fun entry => entry.2.dueAt :=
    mem_filterMap.mpr ⟨⟨p, d⟩, AList.mem_lookup_iff.mp hd, hnext⟩
  cases hleast : s.nextDue with
  | none =>
    unfold nextDue at hleast
    rw [min?_eq_none_iff] at hleast
    rw [hleast] at hmem
    cases hmem
  | some least =>
    exact ⟨least, rfl, (min?_eq_some_iff.mp hleast).2 next hmem⟩

theorem resync_frame (s : GitWatch) (listing : Option (List (ProjectId × PathBuf))) :
    (s.resync listing).now = s.now ∧ (s.resync listing).changes = s.changes ∧
      (s.resync listing).debouncers = s.debouncers ∧ (s.resync listing).due = s.due ∧
      (s.resync listing).reading = s.reading ∧ (s.resync listing).retried = s.retried := by
  unfold resync
  cases listing with
  | none => exact ⟨rfl, rfl, rfl, rfl, rfl, rfl⟩
  | some records => exact ⟨rfl, rfl, rfl, rfl, rfl, rfl⟩

theorem heard_frame (s : GitWatch) (e : Option RailEvent)
    (listing : Option (List (ProjectId × PathBuf))) :
    (s.heard e listing).now = s.now ∧ (s.heard e listing).changes = s.changes ∧
      (s.heard e listing).due = s.due ∧ (s.heard e listing).reading = s.reading := by
  unfold heard
  split
  · obtain ⟨hnow, hchanges, -, hdue, hreading, -⟩ := resync_frame s listing
    exact ⟨hnow, hchanges, hdue, hreading⟩
  · obtain ⟨hnow, hchanges, -, hdue, hreading, -⟩ := resync_frame s listing
    exact ⟨hnow, hchanges, hdue, hreading⟩
  · obtain ⟨hnow, hchanges, -, hdue, hreading, -⟩ := resync_frame _ listing
    exact ⟨hnow, hchanges, hdue, hreading⟩
  · exact ⟨rfl, rfl, rfl, rfl⟩

theorem lookup_heard (s : GitWatch) (e : Option RailEvent)
    (listing : Option (List (ProjectId × PathBuf))) (p : ProjectId) :
    AList.lookup p (s.heard e listing).debouncers =
      if e = some (.removed p) then none else AList.lookup p s.debouncers := by
  unfold heard
  split
  · rw [(resync_frame s listing).2.2.1]
    rfl
  · rw [(resync_frame s listing).2.2.1]
    rfl
  · rw [(resync_frame _ listing).2.2.1]
    dsimp only
    rw [Dict.lookup_erase]
    simp only [Option.some.injEq, RailEvent.removed.injEq]
    exact ite_congr (propext eq_comm) (fun _ => rfl) fun _ => rfl
  · rfl

/-- Every burst is pending under the window and the ceiling of the reactor. -/
def Bursts (ds : Dict ProjectId Debouncer) (now : Instant) : Prop :=
  ∀ p d, AList.lookup p ds = some d →
    ∃ began last, d.Bursting quietWindow maxPostpone began last ∧ began ≤ last ∧ last ≤ now

variable {ds : Dict ProjectId Debouncer} {now : Instant}

theorem bursts_arm (h : Bursts ds now) (project : ProjectId) : Bursts (arm ds now project) now := by
  intro i d hd
  rw [lookup_arm] at hd
  split_ifs at hd with hi
  · cases hd
    cases hold : AList.lookup project ds with
    | none =>
      rw [Option.getD_none]
      exact ⟨now, now, Debouncer.bursting_bounded _ _ now, le_rfl, le_rfl⟩
    | some old =>
      obtain ⟨began, last, hburst, hle, hlast⟩ := h project old hold
      rw [Option.getD_some]
      exact ⟨began, now, hburst.trigger now, hle.trans hlast, le_rfl⟩
  · exact h i d hd

theorem bursts_foldl (projects : List ProjectId) (h : Bursts ds now) :
    Bursts (projects.foldl (fun ds p => arm ds now p) ds) now := by
  induction projects generalizing ds with
  | nil => exact h
  | cons project projects ih => exact ih (bursts_arm h project)

theorem lookup_untaken (hbursts : Bursts s.debouncers s.now) (p : ProjectId) :
    AList.lookup p s.untaken = if p ∈ s.dueNow then none else AList.lookup p s.debouncers := by
  unfold untaken
  rw [Dict.lookup_retain]
  cases hd : AList.lookup p s.debouncers with
  | none => simp
  | some d =>
    obtain ⟨began, last, hburst, -⟩ := hbursts p d hd
    have hmem : p ∈ s.dueNow ↔ (d.takeIfDue s.now).2 = true := by
      rw [mem_dueNow]
      simp [hd]
    rw [Option.any_some]
    obtain ⟨-, htaken, hnone⟩ | ⟨-, hkept⟩ := hburst.takeIfDue s.now
    · rw [if_pos (hmem.mpr htaken), hnone]
      simp
    · have hnot : p ∉ s.dueNow := by
        rw [hmem, hkept]
        simp
      rw [if_neg hnot, hkept, hburst.dueAt]
      simp

/-- What is invariant of the reactor: its bursts are pending, and a project that is read or due has
none and is so once. -/
structure Sound (s : GitWatch) : Prop where
  bursts : Bursts s.debouncers s.now
  nodup : (s.reading.toList ++ s.due).Nodup
  apart : ∀ p ∈ s.reading.toList ++ s.due, AList.lookup p s.debouncers = none

theorem nodup_dueNow (s : GitWatch) : s.dueNow.Nodup := by
  unfold dueNow
  have hsub : ((s.debouncers.entries.filter fun entry => (entry.2.takeIfDue s.now).2).map
      fun entry => entry.1).Sublist (s.debouncers.entries.map fun entry => entry.1) :=
    filter_sublist.map _
  exact hsub.nodup s.debouncers.nodupKeys

theorem Selecting.idle (h : s.Selecting) : s.reading.toList ++ s.due = [] := by
  rw [h.2.1, h.2.2]
  rfl

theorem Sound.step (hs : s.Sound) (h : s.step e = some t) : t.Sound := by
  cases turn_of_step h with
  | report path => exact ⟨hs.bursts, hs.nodup, hs.apart⟩
  | announce e => exact ⟨hs.bursts, hs.nodup, hs.apart⟩
  | close h => exact ⟨hs.bursts, hs.nodup, hs.apart⟩
  | wait d _ _ _ | busy d _ =>
    refine ⟨?_, hs.nodup, hs.apart⟩
    intro p debouncer hd
    obtain ⟨began, last, hburst, hle, hlast⟩ := hs.bursts p debouncer hd
    exact ⟨began, last, hburst, hle, hlast.trans (Nat.le_add_right _ _)⟩
  | hear e listing bus hselecting =>
    obtain ⟨hnow, -, hdue, hreading⟩ := heard_frame { s with bus } e listing
    have hidle : ({ s with bus }.heard e listing).reading.toList ++
        ({ s with bus }.heard e listing).due = [] := by
      rw [hdue, hreading]
      exact hselecting.idle
    refine ⟨?_, by rw [hidle]; exact nodup_nil, by rw [hidle]; simp⟩
    intro p d hd
    rw [lookup_heard] at hd
    rw [hnow]
    split_ifs at hd
    exact hs.bursts p d hd
  | change path changes hselecting hrecv =>
    have hidle := hselecting.idle
    refine ⟨bursts_foldl _ hs.bursts, ?_, ?_⟩
    · show (s.reading.toList ++ s.due).Nodup
      exact hs.nodup
    · show ∀ p ∈ s.reading.toList ++ s.due, _
      rw [hidle]
      simp
  | fire order hselecting horder =>
    have hreading : s.reading.toList ++ order = order := by
      rw [hselecting.2.2]
      rfl
    refine ⟨?_, ?_, ?_⟩
    · intro p d hd
      rw [lookup_untaken hs.bursts] at hd
      split_ifs at hd
      exact hs.bursts p d hd
    · show (s.reading.toList ++ order).Nodup
      rw [hreading]
      exact horder.nodup_iff.mpr s.nodup_dueNow
    · show ∀ p ∈ s.reading.toList ++ order, AList.lookup p s.untaken = none
      rw [hreading]
      intro p hp
      rw [lookup_untaken hs.bursts, if_pos (horder.mem_iff.mp hp)]
  | begin project rest hread hdue =>
    have hsame : s.reading.toList ++ s.due = (some project).toList ++ rest := by
      rw [hread, hdue]
      rfl
    exact ⟨hs.bursts, hsame ▸ hs.nodup, hsame ▸ hs.apart⟩
  | skip project rest hread hdue hroute =>
    have hsame : s.reading.toList ++ s.due = project :: rest := by
      rw [hread, hdue]
      rfl
    have hrest : s.reading.toList ++ rest = rest := by
      rw [hread]
      rfl
    have hnodup := hs.nodup
    have hapart := hs.apart
    rw [hsame] at hnodup hapart
    refine ⟨hs.bursts, ?_, ?_⟩
    · show (s.reading.toList ++ rest).Nodup
      rw [hrest]
      exact (nodup_cons.mp hnodup).2
    · show ∀ p ∈ s.reading.toList ++ rest, _
      rw [hrest]
      exact fun p hp => hapart p (.tail _ hp)
  | finish project read hread =>
    have hsame : s.reading.toList ++ s.due = project :: s.due := by
      rw [hread]
      rfl
    have hnodup := hs.nodup
    have hapart := hs.apart
    rw [hsame] at hnodup hapart
    obtain ⟨hnot, hnodup⟩ := nodup_cons.mp hnodup
    have hkept : ∀ p ∈ s.due, AList.lookup p s.debouncers = none :=
      fun p hp => hapart p (.tail _ hp)
    unfold finished
    cases read with
    | ok changed => exact ⟨hs.bursts, hnodup, hkept⟩
    | error err =>
      dsimp only
      split_ifs
      · exact ⟨hs.bursts, hnodup, hkept⟩
      · refine ⟨bursts_arm hs.bursts project, hnodup, ?_⟩
        intro p hp
        have hne : p ≠ project := fun h => hnot (h ▸ hp)
        rw [lookup_arm, if_neg hne]
        exact hkept p hp

theorem sound_start (now : Instant) (busCapacity : ℕ)
    (listing : Option (List (ProjectId × PathBuf))) : (start now busCapacity listing).Sound := by
  obtain ⟨-, -, hdebouncers, hdue, hreading, -⟩ := resync_frame
    { now, busCapacity, bus := .empty, changes := .empty, routes := ∅, debouncers := ∅
      retried := [], due := [], reading := none, ended := false } listing
  unfold start
  constructor
  · rw [hdebouncers]
    intro p d hd
    cases hd
  · rw [hdue, hreading]
    exact nodup_nil
  · rw [hdue, hreading]
    simp

theorem sound_of_reachable (h : gitWatchMachine.Reachable s) : s.Sound := by
  refine h.invariant ?_ fun s e t hs ht => hs.step ht
  rintro s ⟨now, busCapacity, listing, rfl⟩
  exact sound_start now busCapacity listing

end GitWatch
end Soloist
