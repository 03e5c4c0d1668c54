import Soloist.Timer.System

/-! What one access can do to the timer system, and the invariant every access keeps. -/
open Option Slots

namespace Soloist

theorem Sample.observe_cases (current : Option AgentActivity) (x : Sample) :
    x.observe current = (current, none) ∨
      x.observe current = (some x.classified, some x.classified) := by
  unfold observe
  split_ifs
  · exact .inl rfl
  · exact .inl rfl
  · exact .inr rfl

def Sampler.announced : Sampler → ProcessId → Option AgentActivity
  | .announcing _ id state _, p => if id = p then some state else none
  | _, _ => none

/-- The loop is not up: before its start, or between a panicked pass and its restart. -/
def TimerScheduler.isDown : TimerScheduler → Bool
  | .down => true
  | .up .. => false

namespace TimerSystem

def listening (s : TimerSystem) : Prop := s.scheduler ≠ .down

def announced (s : TimerSystem) : ProcessId → Option AgentActivity := s.sampler.announced

def unread (s : TimerSystem) : List IdleEvent :=
  match s.scheduler with
  | .down => []
  | .up _ events _ => events.unread

/-- What the scheduler's record will hold once it has read everything published. -/
def view (s : TimerSystem) : Slots ProcessId AgentActivity :=
  match s.scheduler with
  | .down => Slots.empty
  | .up activity events _ => events.drain TimerScheduler.handle activity

def news (s : TimerSystem) (p : ProcessId) : Option AgentActivity := (s.announced p).or (s.view p)

/-- A process whose removal the scheduler has still to read, now or later. -/
def expects (s : TimerSystem) (p : ProcessId) : Prop :=
  s.inRegistry p ∨ p ∈ s.closing ∨ .processRemoved p ∈ s.unread

instance (s : TimerSystem) (p : ProcessId) : Decidable (s.expects p) :=
  inferInstanceAs (Decidable (_ ∨ _ ∨ _))

inductive Access (s : TimerSystem) : TimerEvent → TimerSystem → Prop
  | registered (agent : Bool) :
      Access s (.register agent) { s with
        registry := s.registry.put s.nextProcess .stopped
        nextProcess := s.nextProcess + 1
        launching := if agent then s.nextProcess :: s.launching else s.launching }
  | trackedOne (id : ProcessId) (h : id ∈ s.launching) :
      Access s (.track id)
        { s with launching := s.launching.erase id, tracker := s.tracker.put id none }
  | statusSet (id : ProcessId) (status : ProcStatus) (h : s.inRegistry id) :
      Access s (.setStatus id status) { s with registry := s.registry.put id status }
  | removed (id : ProcessId) (h : s.inRegistry id) :
      Access s (.remove id)
        { s with registry := s.registry.erase id, closing := id :: s.closing }
  | removalAnnounced (id : ProcessId) (h : id ∈ s.closing) :
      Access s (.announceRemoval id)
        ({ s with closing := s.closing.erase id }.publish (.processRemoved id))
  | published : Access s .publishOther (s.publish .other)
  | sampler {e : TimerEvent} (next : Sampler) (hs : s.announced = fun _ => none)
      (hnext : next.announced = fun _ => none)
      (hsnap : ∀ statuses tracked, next = .snapped statuses tracked → statuses = s.registry) :
      Access s e { s with sampler := next }
  | retained {signals : Option Sample} (statuses : Slots ProcessId ProcStatus)
      (tracked : List ProcessId) (h : s.sampler = .snapped statuses tracked) :
      Access s (.sample signals) { s with
        tracker := fun p => if (statuses p).isSome then s.tracker p else none
        sampler := .visiting statuses tracked }
  | reset {signals : Option Sample} (statuses : Slots ProcessId ProcStatus) (id : ProcessId)
      (rest : List ProcessId) (h : s.sampler = .visiting statuses (id :: rest))
      (hstatus : statuses id ≠ none) (hresting : statuses id ≠ some .running) :
      Access s (.sample signals) { s with
        tracker := s.tracker.modify id fun _ => none
        sampler := .visiting statuses rest }
  | observed {signals : Option Sample} (statuses : Slots ProcessId ProcStatus) (id : ProcessId)
      (x : Sample) (rest : List ProcessId) (current : Option AgentActivity)
      (h : s.sampler = .sampled statuses id x rest) (hcurrent : s.tracker id = some current) :
      Access s (.sample signals) { s with
        tracker := s.tracker.put id (some x.classified)
        sampler := .announcing statuses id x.classified rest }
  | activityAnnounced {signals : Option Sample} (statuses : Slots ProcessId ProcStatus)
      (id : ProcessId) (state : AgentActivity) (rest : List ProcessId)
      (h : s.sampler = .announcing statuses id state rest) :
      Access s (.sample signals)
        ({ s with sampler := .visiting statuses rest }.publish (.agentActivityChanged id state))
  | armed {e : TimerEvent} (timer : NewTimer) (fault : Option StoreError)
      (he : (∃ after now, e = .timerSet timer.project timer.owner timer.body after now fault) ∨
        ∃ watched mode maxWait now,
          e = .timerFireWhenIdle timer.project timer.owner timer.body watched mode maxWait now
            fault) :
      Access s e (s.arm timer fault)
  | stored {e : TimerEvent} (timers : TimerTable)
      (h : ∀ p, timers.ownedBy p → s.timers.ownedBy p) : Access s e { s with timers }
  | started (h : s.scheduler = .down) :
      Access s .start { s with scheduler := .up Slots.empty Feed.empty .woken }
  | panicked (h : s.listening) : Access s .panic { s with scheduler := .down }
  | passed {e : TimerEvent} (activity : Slots ProcessId AgentActivity) (events : Feed IdleEvent)
      (pass next : Pass) (h : s.scheduler = .up activity events pass) :
      Access s e { s with scheduler := .up activity events next }
  | fired {fault : Option StoreError} (activity : Slots ProcessId AgentActivity)
      (events : Feed IdleEvent) (now : UInt64) (timer claimed : StoredTimer)
      (rest : List StoredTimer) (turns : List (ProcessId × String))
      (h : s.scheduler = .up activity events (.evaluating now (timer :: rest)))
      (hclaim : s.claim activity now timer fault = some claimed) :
      Access s (.consider fault) ({ s with
        scheduler := .up activity events (.evaluating now rest)
        timers := (s.timers.takeIfArmed timer.id).1
        turns }.publish .other)
  | gapRead {fault : Option StoreError} (activity : Slots ProcessId AgentActivity)
      (events next : Feed IdleEvent) (h : s.scheduler = .up activity events .waiting)
      (hunread : next.unread = events.unread) :
      Access s (.recv fault) { s with scheduler := .up activity next .woken }
  | eventRead {fault : Option StoreError} (activity : Slots ProcessId AgentActivity)
      (events next : Feed IdleEvent) (x : IdleEvent)
      (h : s.scheduler = .up activity events .waiting) (hrecv : events.recv = some (some x, next))
      (timers : TimerTable) (hkept : ∀ p, timers.ownedBy p → s.timers.ownedBy p)
      (hreleased : fault = none → ∀ p, x = .processRemoved p → ¬ timers.ownedBy p) :
      Access s (.recv fault) { s with
        scheduler := .up (TimerScheduler.handle activity x) next .woken
        timers }

variable {s : TimerSystem} {e : TimerEvent} {fault : Option StoreError}

theorem access_store {timers : TimerTable} (h : ∀ p, timers.ownedBy p → s.timers.ownedBy p) :
    Access s e (s.store fault timers) := by
  unfold store
  split_ifs with hfault
  · exact .stored s.timers fun p hp => hp
  · exact .stored timers h

variable {t : TimerSystem}

theorem access_sampleNext {signals : Option Sample} (h : s.sampleNext signals = some t) :
    Access s (.sample signals) t := by
  unfold sampleNext at h
  cases hs : s.sampler with
  | asleep => simp [hs] at h
  | listed tracked =>
    simp only [hs, Option.some.injEq] at h
    subst h
    refine .sampler _ (by rw [announced, hs]; rfl) rfl fun statuses tracked heq => ?_
    cases heq
    rfl
  | snapped statuses tracked =>
    simp only [hs, Option.some.injEq] at h
    subst h
    exact .retained statuses tracked hs
  | visiting statuses rest =>
    have hquiet : s.announced = fun _ => none := by
      rw [announced, hs]
      rfl
    have hmove : ∀ next, next = .asleep ∨ (∃ rest, next = .visiting statuses rest) ∨
        (∃ id x rest, next = .sampled statuses id x rest) →
        Access s (.sample signals) { s with sampler := next } := by
      intro next hnext
      refine .sampler next hquiet ?_ fun statuses tracked heq => ?_
      · obtain rfl | ⟨rest, rfl⟩ | ⟨id, x, rest, rfl⟩ := hnext <;> rfl
      · obtain rfl | ⟨rest, rfl⟩ | ⟨id, x, rest, rfl⟩ := hnext <;> cases heq
    cases rest with
    | nil =>
      simp only [hs, Option.some.injEq] at h
      subst h
      exact hmove _ (.inl rfl)
    | cons id rest =>
      simp only [hs] at h
      cases hstatus : statuses id with
      | none =>
        rw [hstatus] at h
        cases h
        exact hmove _ (.inr (.inl ⟨_, rfl⟩))
      | some status =>
        rw [hstatus] at h
        by_cases hrunning : status = .running
        · subst hrunning
          cases signals with
          | none =>
            cases h
            exact hmove _ (.inr (.inl ⟨_, rfl⟩))
          | some x =>
            cases h
            exact hmove _ (.inr (.inr ⟨_, _, _, rfl⟩))
        · have ht : t = { s with
              tracker := s.tracker.modify id fun _ => none
              sampler := .visiting statuses rest } := by
            cases status <;> first | exact absurd rfl hrunning | exact (some.inj h).symm
          subst ht
          exact .reset statuses id rest hs (by simp [hstatus]) (by simpa [hstatus] using hrunning)
  | sampled statuses id x rest =>
    have hquiet : s.announced = fun _ => none := by
      rw [announced, hs]
      rfl
    have hmove : Access s (.sample signals) { s with sampler := .visiting statuses rest } :=
      .sampler _ hquiet rfl fun statuses tracked heq => by cases heq
    simp only [hs] at h
    cases hcurrent : s.tracker id with
    | none =>
      rw [hcurrent] at h
      cases h
      exact hmove
    | some current =>
      rw [hcurrent] at h
      obtain hheld | hedge := x.observe_cases current
      · simp only [hheld, put_of_get hcurrent, Option.some.injEq] at h
        subst h
        exact hmove
      · simp only [hedge, Option.some.injEq] at h
        subst h
        exact .observed statuses id x rest current hs hcurrent
  | announcing statuses id state rest =>
    simp only [hs, Option.some.injEq] at h
    subst h
    exact .activityAnnounced statuses id state rest hs

theorem access_consider (h : s.consider fault = some t) : Access s (.consider fault) t := by
  unfold consider at h
  split at h
  · next activity events now hs =>
    cases h
    exact .passed activity events _ _ hs
  · next activity events now timer rest hs =>
    simp only at h
    split at h
    · cases h
      exact .passed activity events _ _ hs
    · next claimed hclaim =>
      cases h
      exact .fired activity events now timer claimed rest _ hs hclaim
  · cases h

theorem access_recv (h : s.recv fault = some t) : Access s (.recv fault) t := by
  unfold recv at h
  split at h
  case h_2 => cases h
  next activity events hs =>
  cases hrecv : events.recv with
  | none => simp [hrecv] at h
  | some r =>
    obtain ⟨x, next⟩ := r
    rw [hrecv] at h
    obtain ⟨rfl, hunread⟩ | ⟨x, rfl, -⟩ := Feed.recv_eq_some hrecv
    · cases h
      exact .gapRead activity events next hs hunread
    · have hread : ∀ timers, (∀ p, TimerTable.ownedBy timers p → s.timers.ownedBy p) →
          (fault = none → ∀ p, x = .processRemoved p → ¬ TimerTable.ownedBy timers p) →
          Access s (.recv fault) { s with
            scheduler := .up (TimerScheduler.handle activity x) next .woken
            timers } :=
        fun timers => .eventRead activity events next x hs hrecv timers
      cases x with
      | processRemoved id =>
        cases h
        unfold store
        split_ifs with hfault
        · exact hread s.timers (fun p hp => hp) fun hnone => by simp [hnone] at hfault
        · refine hread _ (fun p hp => (TimerTable.ownedBy_releaseOwner.mp hp).1) ?_
          rintro - p ⟨⟩ hp
          exact (TimerTable.ownedBy_releaseOwner.mp hp).2 rfl
      | agentActivityChanged id state =>
        cases h
        exact hread s.timers (fun p hp => hp) fun _ p hp => by cases hp
      | other =>
        cases h
        exact hread s.timers (fun p hp => hp) fun _ p hp => by cases hp

theorem access_of_step (h : s.step e = some t) : Access s e t := by
  cases e with
  | register agent =>
    cases h
    exact .registered agent
  | track id =>
    simp only [step, ite_none_right_eq_some, Option.some.injEq] at h
    obtain ⟨hid, rfl⟩ := h
    exact .trackedOne id hid
  | setStatus id status =>
    simp only [step, ite_none_right_eq_some, Option.some.injEq] at h
    obtain ⟨hid, rfl⟩ := h
    exact .statusSet id status hid
  | remove id =>
    simp only [step, ite_none_right_eq_some, Option.some.injEq] at h
    obtain ⟨hid, rfl⟩ := h
    exact .removed id hid
  | announceRemoval id =>
    simp only [step, ite_none_right_eq_some, Option.some.injEq] at h
    obtain ⟨hid, rfl⟩ := h
    exact .removalAnnounced id hid
  | publishOther =>
    cases h
    exact .published
  | tick order =>
    simp only [step] at h
    split at h
    · next hs =>
      split_ifs at h with horder
      cases h
      refine .sampler _ (by rw [announced, hs]; rfl) rfl fun statuses tracked heq => ?_
      cases heq
    · cases h
  | skipTick =>
    simp only [step] at h
    split at h
    · next hs =>
      cases h
      refine .sampler _ (by rw [announced, hs]; rfl) rfl fun statuses tracked heq => ?_
      cases heq
    · cases h
  | sample signals => exact access_sampleNext h
  | timerSet project owner body after now fault =>
    cases h
    exact .armed _ fault (.inl ⟨after, now, rfl⟩)
  | timerFireWhenIdle project owner body watched mode maxWait now fault =>
    cases h
    exact .armed _ fault (.inr ⟨watched, mode, maxWait, now, rfl⟩)
  | timerCancel id owner fault =>
    cases h
    exact access_store fun p hp => TimerTable.ownedBy_of_delete hp
  | timerPause id owner now fault =>
    cases h
    exact access_store fun p hp =>
      TimerTable.ownedBy_of_update (f := TimerRow.pause now) (fun _ => rfl) hp
  | timerResume id owner now fault =>
    cases h
    exact access_store fun p hp =>
      TimerTable.ownedBy_of_update (f := TimerRow.resume now) (fun _ => rfl) hp
  | removeProject project =>
    cases h
    exact .stored _ fun p hp => TimerTable.ownedBy_of_delete hp
  | reconcileTimers fault =>
    cases h
    exact access_store fun p hp => TimerTable.ownedBy_of_delete hp
  | start =>
    simp only [step] at h
    split at h
    · next hs =>
      cases h
      exact .started hs
    · cases h
  | panic =>
    simp only [step] at h
    split at h
    · cases h
    · next activity events pass hs =>
      cases h
      exact .panicked fun hdown => by cases hs.symm.trans hdown
  | evaluate now fault =>
    simp only [step] at h
    split at h
    · next activity events hs =>
      cases h
      exact .passed activity events _ _ hs
    · cases h
  | consider fault => exact access_consider h
  | wake =>
    simp only [step] at h
    split at h
    · next activity events hs =>
      cases h
      exact .passed activity events _ _ hs
    · cases h
  | recv fault => exact access_recv h

/-- Everything published has been read. -/
def consumed (s : TimerSystem) : Prop := s.scheduler.isDown = false ∧ s.unread = []

instance (s : TimerSystem) : Decidable s.consumed := inferInstanceAs (Decidable (_ ∧ _))

/-- An event about the process is still to be published. -/
def underWay (s : TimerSystem) (p : ProcessId) : Prop := p ∈ s.closing ∨ s.announced p ≠ none

instance (s : TimerSystem) (p : ProcessId) : Decidable (s.underWay p) :=
  inferInstanceAs (Decidable (_ ∨ _))

/-- The agent's classifier stands at idle. -/
def restful (s : TimerSystem) (p : ProcessId) : Prop := s.tracker p = some (some .idle)

/-- Until the sampler's next tick, the tracker holds an activity of a process that is gone. -/
def lingers (s : TimerSystem) (p : ProcessId) : Prop :=
  s.registry p = none ∧ ∃ a ∈ (s.tracker p).join, a ≠ .idle

instance (s : TimerSystem) (p : ProcessId) : Decidable (s.lingers p) :=
  inferInstanceAs (Decidable (_ ∧ ∃ _ ∈ _, _))

/-- What holds of every reachable state, whatever the scheduler hears. -/
structure Grounded (s : TimerSystem) : Prop where
  fresh : ∀ p, s.nextProcess ≤ p → s.registry p = none ∧ s.tracker p = none
  closing : ∀ p ∈ s.closing, p < s.nextProcess ∧ s.registry p = none
  nodup : s.launching.Nodup
  launching : ∀ p ∈ s.launching, p < s.nextProcess ∧ s.tracker p = none
  announced : ∀ p a, s.announced p = some a → s.tracker p = some (some a)
  /-- A snapshot that is about to prune the tracker holds every registered process classified. -/
  snapped : ∀ statuses tracked, s.sampler = .snapped statuses tracked →
    ∀ p a, s.inRegistry p → s.tracker p = some (some a) → statuses p ≠ none

theorem Grounded.lt_of_inRegistry (hs : s.Grounded) {p : ProcessId} (h : s.inRegistry p) :
    p < s.nextProcess := by
  by_contra hp
  have hreg : (s.registry p).isSome := h
  simp [(hs.fresh p (Nat.not_lt.mp hp)).1] at hreg

@[simp] theorem announced_publish (s : TimerSystem) (e : IdleEvent) :
    (s.publish e).announced = s.announced := by
  unfold publish
  split <;> rfl

theorem publish_eq (s : TimerSystem) (e : IdleEvent) :
    ∃ scheduler, s.publish e = { s with scheduler } := by
  unfold publish
  split
  · exact ⟨_, rfl⟩
  · exact ⟨_, rfl⟩

section Publish
variable (s : TimerSystem) (e : IdleEvent)

@[simp] theorem registry_publish : (s.publish e).registry = s.registry := by
  obtain ⟨scheduler, heq⟩ := s.publish_eq e
  rw [heq]

@[simp] theorem nextProcess_publish : (s.publish e).nextProcess = s.nextProcess := by
  obtain ⟨scheduler, heq⟩ := s.publish_eq e
  rw [heq]

@[simp] theorem closing_publish : (s.publish e).closing = s.closing := by
  obtain ⟨scheduler, heq⟩ := s.publish_eq e
  rw [heq]

@[simp] theorem tracker_publish : (s.publish e).tracker = s.tracker := by
  obtain ⟨scheduler, heq⟩ := s.publish_eq e
  rw [heq]

@[simp] theorem timers_publish : (s.publish e).timers = s.timers := by
  obtain ⟨scheduler, heq⟩ := s.publish_eq e
  rw [heq]

@[simp] theorem inRegistry_publish (p : ProcessId) :
    (s.publish e).inRegistry p = s.inRegistry p := by
  rw [inRegistry, registry_publish]
  rfl

end Publish

theorem Grounded.publish (hs : s.Grounded) (e : IdleEvent) : (s.publish e).Grounded := by
  obtain ⟨scheduler, heq⟩ := s.publish_eq e
  rw [heq]
  exact ⟨hs.fresh, hs.closing, hs.nodup, hs.launching, hs.announced, hs.snapped⟩

theorem Grounded.init : Grounded .init where
  fresh _ _ := ⟨rfl, rfl⟩
  closing p hp := by cases hp
  nodup := List.nodup_nil
  launching p hp := by cases hp
  announced p a h := by cases h
  snapped statuses tracked h := by cases h

variable (hs : s.Grounded)
include hs

theorem Grounded.arm (timer : NewTimer) (fault : Option StoreError) :
    (s.arm timer fault).Grounded := by
  unfold TimerSystem.arm
  split_ifs
  · exact hs
  · exact ⟨hs.fresh, hs.closing, hs.nodup, hs.launching, hs.announced, hs.snapped⟩

theorem Grounded.register (agent : Bool) :
    Grounded { s with
      registry := s.registry.put s.nextProcess .stopped
      nextProcess := s.nextProcess + 1
      launching := if agent then s.nextProcess :: s.launching else s.launching } := by
  have hother : ∀ p, p ≠ s.nextProcess → s.registry.put s.nextProcess .stopped p = s.registry p :=
    fun p hp => put_of_ne hp
  have hold : ∀ p, p ∈ s.closing ∨ p ∈ s.launching → p ≠ s.nextProcess := by
    rintro p (hp | hp) rfl
    · exact Nat.lt_irrefl _ (hs.closing _ hp).1
    · exact Nat.lt_irrefl _ (hs.launching _ hp).1
  refine ⟨fun p hp => ?_, fun p hp => ?_, ?_, ?_, hs.announced, ?_⟩
  · have hne : p ≠ s.nextProcess := Nat.ne_of_gt hp
    obtain ⟨hreg, htrack⟩ := hs.fresh p (Nat.le_of_succ_le hp)
    exact ⟨(hother p hne).trans hreg, htrack⟩
  · obtain ⟨hlt, hreg⟩ := hs.closing p hp
    exact ⟨Nat.lt_succ_of_lt hlt, (hother p (hold p (.inl hp))).trans hreg⟩
  · cases agent with
    | false => exact hs.nodup
    | true => exact List.nodup_cons.mpr ⟨fun hmem => hold _ (.inr hmem) rfl, hs.nodup⟩
  · intro p hp
    have hcase : p = s.nextProcess ∨ p ∈ s.launching := by
      cases agent with
      | false => exact .inr hp
      | true => exact List.mem_cons.mp hp
    obtain rfl | hp := hcase
    · exact ⟨Nat.lt_succ_self _, (hs.fresh _ le_rfl).2⟩
    · exact ⟨Nat.lt_succ_of_lt (hs.launching p hp).1, (hs.launching p hp).2⟩
  · intro statuses tracked hsampler p a hp htrack
    by_cases hne : p = s.nextProcess
    · subst hne
      cases htrack.symm.trans (hs.fresh _ le_rfl).2
    · refine hs.snapped statuses tracked hsampler p a ?_ htrack
      unfold inRegistry at hp ⊢
      rwa [← hother p hne]

theorem Grounded.track {id : ProcessId} (hid : id ∈ s.launching) :
    Grounded { s with launching := s.launching.erase id, tracker := s.tracker.put id none } := by
  obtain ⟨hlt, hnone⟩ := hs.launching id hid
  refine ⟨fun p hp => ?_, hs.closing, hs.nodup.erase id, fun p hp => ?_, fun p a hp => ?_, ?_⟩
  · have hne : p ≠ id := Nat.ne_of_gt (Nat.lt_of_lt_of_le hlt hp)
    exact ⟨(hs.fresh p hp).1, (put_of_ne hne).trans (hs.fresh p hp).2⟩
  · obtain ⟨hne, hp⟩ := (List.Nodup.mem_erase_iff hs.nodup).mp hp
    exact ⟨(hs.launching p hp).1, (put_of_ne hne).trans (hs.launching p hp).2⟩
  · have htrack := hs.announced p a hp
    have hne : p ≠ id := by
      rintro rfl
      cases htrack.symm.trans hnone
    exact (put_of_ne hne).trans htrack
  · intro statuses tracked hsampler p a hp htrack
    obtain ⟨-, hcontra⟩ | ⟨-, hold⟩ := put_eq_some.mp htrack
    · cases hcontra
    · exact hs.snapped statuses tracked hsampler p a hp hold

theorem Grounded.depart {registry : Slots ProcessId ProcStatus}
    {closing : List ProcessId} (hnone : ∀ p, s.registry p = none → registry p = none)
    (hclosing : ∀ p ∈ closing, p < s.nextProcess ∧ registry p = none) :
    Grounded { s with registry, closing } := by
  refine ⟨fun p hp => ⟨hnone p (hs.fresh p hp).1, (hs.fresh p hp).2⟩, hclosing, hs.nodup,
    hs.launching, hs.announced, fun statuses tracked hsampler p a hp htrack => ?_⟩
  refine hs.snapped statuses tracked hsampler p a ?_ htrack
  by_contra hgone
  have hreg : (registry p).isSome := hp
  simp [hnone p (by simpa [inRegistry] using hgone)] at hreg

/-- A tick's access tracks no other process, and what it is about to publish it has recorded. -/
theorem Grounded.tick {tracker : Slots ProcessId (Option AgentActivity)}
    {next : Sampler} (hnone : ∀ p, s.tracker p = none → tracker p = none)
    (hannounced : ∀ p a, next.announced p = some a → tracker p = some (some a))
    (hsnap : ∀ statuses tracked, next = .snapped statuses tracked → statuses = s.registry) :
    Grounded { s with tracker, sampler := next } := by
  refine ⟨fun p hp => ⟨(hs.fresh p hp).1, hnone p (hs.fresh p hp).2⟩, hs.closing, hs.nodup,
    fun p hp => ⟨(hs.launching p hp).1, hnone p (hs.launching p hp).2⟩, hannounced, ?_⟩
  intro statuses tracked heq p a hp htrack hstatus
  rw [hsnap statuses tracked heq] at hstatus
  have hreg : (s.registry p).isSome := hp
  simp [hstatus] at hreg

omit hs

theorem Access.grounded (h : Access s e t) (hs : s.Grounded) : t.Grounded := by
  cases h with
  | registered agent => exact hs.register agent
  | trackedOne id hid => exact hs.track hid
  | statusSet id status hid =>
    have hsome : (s.registry id).isSome := hid
    have hnone : ∀ p, s.registry p = none → s.registry.put id status p = none := by
      intro p hp
      have hne : p ≠ id := by
        rintro rfl
        simp [hp] at hsome
      exact (put_of_ne hne).trans hp
    exact hs.depart hnone fun p hp => ⟨(hs.closing p hp).1, hnone p (hs.closing p hp).2⟩
  | removed id hid =>
    have hnone : ∀ p, s.registry p = none → s.registry.erase id p = none := by
      intro p hp
      unfold Slots.erase
      split_ifs
      · rfl
      · exact hp
    refine hs.depart hnone fun p hp => ?_
    obtain rfl | hp := List.mem_cons.mp hp
    · exact ⟨hs.lt_of_inRegistry hid, if_pos rfl⟩
    · exact ⟨(hs.closing p hp).1, hnone p (hs.closing p hp).2⟩
  | removalAnnounced id hid =>
    apply Grounded.publish
    exact hs.depart (fun p hp => hp) fun p hp => hs.closing p (List.mem_of_mem_erase hp)
  | published => exact hs.publish .other
  | sampler next hquiet hnext hsnap =>
    refine hs.tick (fun p hp => hp) (fun p a hp => ?_) hsnap
    rw [hnext] at hp
    cases hp
  | retained statuses tracked hsampler =>
    refine hs.tick (fun p hp => ?_) (fun p a hp => ?_) fun statuses tracked heq => ?_
    · rw [hp, ite_self]
    · cases hp
    · cases heq
  | reset statuses id rest hsampler hstatus hresting =>
    refine hs.tick (fun p hp => ?_) (fun p a hp => ?_) fun statuses tracked heq => ?_
    · unfold Slots.modify
      split_ifs <;> simp [hp]
    · cases hp
    · cases heq
  | observed statuses id x rest current hsampler hcurrent =>
    refine hs.tick (fun p hp => ?_) (fun p a hp => ?_) fun statuses tracked heq => ?_
    · have hne : p ≠ id := by
        rintro rfl
        cases hp.symm.trans hcurrent
      exact (put_of_ne hne).trans hp
    · have hedge : (if id = p then some x.classified else none) = some a := hp
      obtain ⟨rfl, ha⟩ := ite_none_right_eq_some.mp hedge
      exact ha ▸ put_self (t := s.tracker)
    · cases heq
  | activityAnnounced statuses id state rest hsampler =>
    apply Grounded.publish
    refine hs.tick (fun p hp => hp) (fun p a hp => ?_) fun statuses tracked heq => ?_
    · cases hp
    · cases heq
  | armed timer fault he => exact hs.arm timer fault
  | fired activity events now timer claimed rest turns hup hclaim =>
    apply Grounded.publish
    exact ⟨hs.fresh, hs.closing, hs.nodup, hs.launching, hs.announced, hs.snapped⟩
  | stored | started | panicked | passed | gapRead | eventRead =>
    exact ⟨hs.fresh, hs.closing, hs.nodup, hs.launching, hs.announced, hs.snapped⟩

end TimerSystem

end Soloist
