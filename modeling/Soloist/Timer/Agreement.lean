import Soloist.Timer.Access

/-! The scheduler's idle test against the façade's: what the scheduler's record will hold once it
has read everything, and what it takes to keep that in step with the tracker and the registry. -/
open Option Slots

namespace Soloist
namespace TimerSystem

/-- The scheduler's record, once it has read everything, gives the façade's answer for a registered
process and lets a departed one count as idle, and every owner's removal is still to be read. -/
structure Follows (s : TimerSystem) : Prop where
  live : ∀ p, s.inRegistry p → (s.news p = some .idle ↔ s.restful p)
  gone : ∀ p, s.registry p = none → p ∉ s.closing → ∀ a, s.view p = some a → a = .idle
  fresh : ∀ p, s.nextProcess ≤ p → s.view p = none
  owners : ∀ p, s.timers.ownedBy p → s.expects p

/-- Whether an event has no news of its own for the scheduler: the record already says so, or a
later event concerns the same process. -/
def repeated (activity : Slots ProcessId AgentActivity) (later : List IdleEvent) :
    IdleEvent → Prop
  | .agentActivityChanged p state =>
    activity p = some state ∨ ∃ x ∈ later, x.about = some p
  | .processRemoved p => activity p = none ∨ ∃ x ∈ later, x.about = some p
  | .other => True

instance (activity : Slots ProcessId AgentActivity) (later : List IdleEvent) :
    ∀ x, Decidable (repeated activity later x)
  | .agentActivityChanged _ _ => inferInstanceAs (Decidable (_ ∨ _))
  | .processRemoved _ => inferInstanceAs (Decidable (_ ∨ _))
  | .other => inferInstanceAs (Decidable True)

variable {activity : Slots ProcessId AgentActivity} {x : IdleEvent} {p : ProcessId}

theorem handle_of_about (h : x.about ≠ some p) :
    TimerScheduler.handle activity x p = activity p := by
  cases x with
  | agentActivityChanged id state => exact put_of_ne fun hp => h (congrArg some hp.symm)
  | processRemoved id => exact if_neg fun hp => h (congrArg some hp.symm)
  | other => rfl

variable {a b : Slots ProcessId AgentActivity}

theorem handle_congr (h : a p = b p ∨ x.about = some p) :
    TimerScheduler.handle a x p = TimerScheduler.handle b x p := by
  cases x with
  | agentActivityChanged id state =>
    by_cases hp : p = id
    · simp [TimerScheduler.handle, Slots.put, hp]
    · have hne : ¬ id = p := fun hid => hp hid.symm
      simpa [TimerScheduler.handle, Slots.put, IdleEvent.about, hp, hne] using h
  | processRemoved id =>
    by_cases hp : p = id
    · simp [TimerScheduler.handle, Slots.erase, hp]
    · have hne : ¬ id = p := fun hid => hp hid.symm
      simpa [TimerScheduler.handle, Slots.erase, IdleEvent.about, hp, hne] using h
  | other => simpa [TimerScheduler.handle, IdleEvent.about] using h

/-- What the record says of a process in the end depends on what it said at first only if no event
concerns the process. -/
theorem foldl_handle_congr {events : List IdleEvent}
    (h : a p = b p ∨ ∃ x ∈ events, x.about = some p) :
    events.foldl TimerScheduler.handle a p = events.foldl TimerScheduler.handle b p := by
  induction events generalizing a b with
  | nil => simpa using h
  | cons x rest ih =>
    apply ih
    obtain h | ⟨y, hy, hp⟩ := h
    · exact .inl (handle_congr (.inl h))
    · obtain rfl | hy := List.mem_cons.mp hy
      · exact .inl (handle_congr (.inr hp))
      · exact .inr ⟨y, hy, hp⟩

theorem foldl_handle_of_repeated {later : List IdleEvent} (h : repeated activity later x) :
    later.foldl TimerScheduler.handle activity =
      later.foldl TimerScheduler.handle (TimerScheduler.handle activity x) := by
  funext p
  apply foldl_handle_congr
  by_cases hp : x.about = some p
  · cases x with
    | agentActivityChanged id state =>
      cases hp
      exact h.imp_left fun h => h.trans (put_self (t := activity)).symm
    | processRemoved id =>
      cases hp
      exact h.imp_left fun h => h.trans (if_pos rfl).symm
    | other => cases hp
  · exact .inl (handle_of_about hp).symm

/-- A timer is left behind if the scheduler never reads `x`. -/
def strands (timers : TimerTable) : IdleEvent → Prop
  | .processRemoved p => timers.ownedBy p
  | _ => False

instance (timers : TimerTable) : ∀ x, Decidable (strands timers x)
  | .processRemoved p => inferInstanceAs (Decidable (timers.ownedBy p))
  | .agentActivityChanged _ _ => inferInstanceAs (Decidable False)
  | .other => inferInstanceAs (Decidable False)

/-- Publishing `e` pushes nothing out of the feed that the scheduler has still to hear. -/
def loses (timers : TimerTable) (e : IdleEvent) : TimerScheduler → Prop
  | .down => False
  | .up activity events _ =>
    ∃ x ∈ events.lost eventBuffer,
      ¬ repeated activity (events.unread.tail ++ [e]) x ∨ strands timers x

instance (timers : TimerTable) (e : IdleEvent) : ∀ c, Decidable (loses timers e c)
  | .down => inferInstanceAs (Decidable False)
  | .up _ _ _ => inferInstanceAs (Decidable (∃ _ ∈ _, _))

def keepsNews (s : TimerSystem) (e : IdleEvent) : Prop := ¬ loses s.timers e s.scheduler

instance (s : TimerSystem) (e : IdleEvent) : Decidable (s.keepsNews e) :=
  inferInstanceAs (Decidable (¬ _))

variable {s : TimerSystem} {e : IdleEvent}

theorem view_publish (hs : s.listening) (h : s.keepsNews e) :
    (s.publish e).view = TimerScheduler.handle s.view e := by
  unfold keepsNews at h
  unfold publish view
  cases hup : s.scheduler with
  | down => exact absurd hup hs
  | up activity events pass =>
    rw [hup] at h
    apply Feed.drain_publish
    intro x rest hlost hunread
    apply foldl_handle_of_repeated
    by_contra hnew
    exact h ⟨x, hlost, .inl (by rwa [hunread, List.tail_cons])⟩

theorem expects_publish (h : s.keepsNews e) (howned : s.timers.ownedBy p)
    (hp : s.expects p ∨ s.listening ∧ e = .processRemoved p) : (s.publish e).expects p := by
  unfold expects
  unfold keepsNews at h
  unfold expects unread at hp
  cases hup : s.scheduler with
  | down =>
    have hsame : s.publish e = s := by simp [publish, hup]
    rw [hsame]
    obtain hp | ⟨hlistening, -⟩ := hp
    · rw [hup] at hp
      simpa [unread, hup] using hp
    · exact absurd hup hlistening
  | up activity events pass =>
    rw [hup] at h hp
    have hfeed : (s.publish e).unread = (events.publish eventBuffer e).unread := by
      simp [publish, unread, hup]
    obtain (hp | hp | hp) | ⟨-, rfl⟩ := hp
    · exact .inl (by rwa [inRegistry_publish])
    · exact .inr (.inl (by simpa [publish, hup] using hp))
    · refine .inr (.inr (hfeed ▸ Feed.mem_publish_of_ne hp fun hlost => ?_))
      exact h ⟨_, hlost, .inr howned⟩
    · exact .inr (.inr (hfeed ▸ Feed.mem_publish_self))

theorem listening_publish : (s.publish e).listening ↔ s.listening := by
  unfold publish listening
  split
  · rfl
  · next hup => simp [hup]

/-- The tick's next access tells the scheduler what it has to hear: no activity of a process whose
removal it was told before, and no reset that takes an idle agent back without a word. -/
def tells (s : TimerSystem) : Sampler → Prop
  | .announcing _ id state _ =>
    s.keepsNews (.agentActivityChanged id state) ∧
      (s.inRegistry id ∨ id ∈ s.closing ∨ state = .idle)
  | .visiting statuses (id :: _) =>
    statuses id = none ∨ statuses id = some .running ∨ s.registry id = none ∨
      s.tracker id ≠ some (some .idle)
  | _ => True

instance (s : TimerSystem) : ∀ c, Decidable (s.tells c)
  | .announcing _ _ _ _ => inferInstanceAs (Decidable (_ ∧ _))
  | .visiting _ (_ :: _) => inferInstanceAs (Decidable (_ ∨ _))
  | .visiting _ [] => inferInstanceAs (Decidable True)
  | .asleep => inferInstanceAs (Decidable True)
  | .listed _ => inferInstanceAs (Decidable True)
  | .snapped _ _ => inferInstanceAs (Decidable True)
  | .sampled _ _ _ _ => inferInstanceAs (Decidable True)

/-- A timer the scheduler fires is announced without losing it anything. -/
def firesHeard (s : TimerSystem) (fault : Option StoreError) : TimerScheduler → Prop
  | .up activity _ (.evaluating now (timer :: _)) =>
    s.claim activity now timer fault = none ∨ s.keepsNews .other
  | _ => True

instance (s : TimerSystem) (fault : Option StoreError) : ∀ c, Decidable (s.firesHeard fault c)
  | .up _ _ (.evaluating _ (_ :: _)) => inferInstanceAs (Decidable (_ ∨ _))
  | .up _ _ (.evaluating _ []) => inferInstanceAs (Decidable True)
  | .up _ _ .woken => inferInstanceAs (Decidable True)
  | .up _ _ .waiting => inferInstanceAs (Decidable True)
  | .down => inferInstanceAs (Decidable True)

def nextRead (s : TimerSystem) : Option IdleEvent :=
  match s.scheduler with
  | .down => none
  | .up _ events _ => events.recv.bind Prod.fst

/-- An armed timer's owner has its removal still ahead, as far as the scheduler knows. -/
def armsHeard (s : TimerSystem) (owner : ProcessId) (body : String) (fault : Option StoreError) :
    Prop :=
  s.scheduler.isDown ∨ maxTimerBodyBytes < body.utf8ByteSize ∨ fault.isSome ∨ s.expects owner

/-- The condition on one access: the scheduler is told of every change of a registered process's
idleness and of every removal, in that order, loses no such news to the bounded bus, subscribes
before there is any, drops a removed owner's timers without a fault, and is handed none after. -/
def Heard (s : TimerSystem) : TimerEvent → Prop
  | .announceRemoval id => s.keepsNews (.processRemoved id)
  | .publishOther => s.keepsNews .other
  | .sample _ => s.tells s.sampler
  | .timerSet _ owner body _ _ fault => s.armsHeard owner body fault
  | .timerFireWhenIdle _ owner body _ _ _ _ fault => s.armsHeard owner body fault
  | .start =>
    (∀ p < s.nextProcess, s.inRegistry p → s.tracker p = some (some .idle) →
      s.announced p = some .idle) ∧
    ∀ r ∈ s.timers.rows, s.inRegistry r.owner ∨ r.owner ∈ s.closing
  | .consider fault => s.firesHeard fault s.scheduler
  | .recv fault => fault = none ∨ ∀ x ∈ s.nextRead, ¬ strands s.timers x
  | _ => True

variable {t : TimerSystem}

theorem Follows.environment (hs : s.Follows) (hg : s.Grounded) (hview : t.view = s.view)
    (hannounced : t.announced = s.announced) (hnext : s.nextProcess ≤ t.nextProcess)
    (hreg : ∀ p, t.inRegistry p → s.inRegistry p ∨ s.nextProcess ≤ p)
    (htracker : ∀ p, t.inRegistry p → (t.restful p ↔ s.restful p))
    (hgone : ∀ p, t.registry p = none → p ∉ t.closing → s.registry p = none ∧ p ∉ s.closing)
    (howners : ∀ p, t.timers.ownedBy p → t.expects p) : t.Follows where
  live p hp := by
    rw [htracker p hp, news, hview, hannounced]
    obtain hold | hfresh := hreg p hp
    · exact hs.live p hold
    · have htrack : s.tracker p = none := (hg.fresh p hfresh).2
      have hquiet : s.announced p = none := by
        by_contra hnone
        obtain ⟨a, ha⟩ := ne_none_iff_exists'.mp hnone
        cases htrack.symm.trans (hg.announced p a ha)
      simp [hquiet, hs.fresh p hfresh, restful, htrack]
  gone p hp hclosing a ha := by
    obtain ⟨hp, hclosing⟩ := hgone p hp hclosing
    exact hs.gone p hp hclosing a (hview ▸ ha)
  fresh p hp := hview ▸ hs.fresh p (hnext.trans hp)
  owners := howners

/-- A process whose removal is ahead keeps it ahead while no news is read. -/
theorem expects_of_gone (h : s.expects p) (hunread : t.unread = s.unread)
    (hgone : ∀ p, t.registry p = none → p ∉ t.closing → s.registry p = none ∧ p ∉ s.closing) :
    t.expects p := by
  by_contra hnot
  unfold expects at h hnot
  push Not at hnot
  obtain ⟨hreg, hclosing, hmem⟩ := hnot
  have hnone : t.registry p = none := by simpa [inRegistry] using hreg
  obtain ⟨hsreg, hsclosing⟩ := hgone p hnone hclosing
  obtain h | h | h := h
  · simp [inRegistry, hsreg] at h
  · exact hsclosing h
  · exact hmem (hunread ▸ h)

/-- The scheduler is told of one more event: what it says of a process follows from what the event
says of it. -/
theorem Follows.told (hs : s.Follows)
    (hview : t.view = TimerScheduler.handle s.view x) (hnext : t.nextProcess = s.nextProcess)
    (hreg : ∀ p, t.inRegistry p → s.inRegistry p)
    (hlive : ∀ p, t.inRegistry p → t.news p = s.news p ∧ t.tracker p = s.tracker p)
    (hgone : ∀ p, t.registry p = none → p ∉ t.closing →
      (s.registry p = none ∧ p ∉ s.closing ∧ x.about ≠ some p) ∨
        ∀ a, TimerScheduler.handle s.view x p = some a → a = .idle)
    (hfresh : ∀ p, s.nextProcess ≤ p → ∀ state, x ≠ .agentActivityChanged p state)
    (howners : ∀ p, t.timers.ownedBy p → t.expects p) : t.Follows where
  live p hp := by
    obtain ⟨hnews, htrack⟩ := hlive p hp
    rw [hnews, hs.live p (hreg p hp), restful, restful, htrack]
  gone p hp hclosing a ha := by
    rw [hview] at ha
    obtain ⟨hp, hclosing, habout⟩ | hidle := hgone p hp hclosing
    · rw [handle_of_about habout] at ha
      exact hs.gone p hp hclosing a ha
    · exact hidle a ha
  fresh p hp := by
    rw [hnext] at hp
    rw [hview]
    cases x with
    | agentActivityChanged id state =>
      have hne : p ≠ id := by
        rintro rfl
        exact hfresh p hp state rfl
      exact (put_of_ne hne).trans (hs.fresh p hp)
    | processRemoved id =>
      show s.view.erase id p = none
      unfold Slots.erase
      split_ifs
      · rfl
      · exact hs.fresh p hp
    | other => exact hs.fresh p hp
  owners := howners

theorem keepsNews_of_fewer (h : s.keepsNews e)
    (hfewer : ∀ p, t.timers.ownedBy p → s.timers.ownedBy p)
    (hsame : ∀ activity events pass, t.scheduler = .up activity events pass →
      ∃ pass, s.scheduler = .up activity events pass) : t.keepsNews e := by
  unfold keepsNews at h ⊢
  cases ht : t.scheduler with
  | down => exact fun hlost => hlost
  | up activity events pass =>
    obtain ⟨old, hold⟩ := hsame activity events pass ht
    rw [hold] at h
    rintro ⟨x, hx, hlost⟩
    refine h ⟨x, hx, hlost.imp_right fun hstrands => ?_⟩
    cases x with
    | processRemoved p => exact hfewer p hstrands
    | agentActivityChanged id state => exact hstrands
    | other => exact hstrands

variable {fault : Option StoreError}

theorem Access.follows_armed {timer : NewTimer} (hheard : s.armsHeard timer.owner timer.body fault)
    (hg : s.Grounded) (hs : s.Follows) (hlistening : s.listening) :
    (s.arm timer fault).Follows := by
  unfold arm
  split_ifs with hrefused
  · exact hs
  · refine hs.environment hg rfl rfl le_rfl (fun p hp => .inl hp) (fun p _ => Iff.rfl)
      (fun p hp hc => ⟨hp, hc⟩) fun p hp => ?_
    obtain hp | rfl := TimerTable.ownedBy_create.mp hp
    · exact hs.owners p hp
    · unfold armsHeard at hheard
      obtain hdown | hbody | hfault | hexpects := hheard
      · cases hup : s.scheduler with
        | down => exact absurd hup hlistening
        | up => simp [hup, TimerScheduler.isDown] at hdown
      · exact absurd (.inl hbody) hrefused
      · exact absurd (.inr hfault) hrefused
      · exact hexpects

theorem Follows.told_other (hs : s.Follows) (hlistening : s.listening) (h : s.keepsNews .other) :
    (s.publish .other).Follows := by
  have hview := view_publish hlistening h
  refine hs.told (x := .other) hview (by simp) (fun p hp => by simpa using hp) (fun p hp => ?_)
    (fun p hp hc => ?_) (fun p hp state => by simp) fun p hp => ?_
  · refine ⟨?_, by simp⟩
    rw [news, hview, announced_publish]
    rfl
  · exact .inl ⟨by simpa using hp, by simpa using hc, by rintro ⟨⟩⟩
  · have hp : s.timers.ownedBy p := by simpa using hp
    exact expects_publish h hp (.inl (hs.owners p hp))

theorem Follows.depart (hs : s.Follows) (hg : s.Grounded) {registry : Slots ProcessId ProcStatus}
    {closing : List ProcessId} (hreg : ∀ p, (registry p).isSome → s.inRegistry p)
    (hgone : ∀ p, registry p = none → p ∉ closing → s.registry p = none ∧ p ∉ s.closing) :
    Follows { s with registry, closing } :=
  hs.environment hg rfl rfl le_rfl (fun p hp => .inl (hreg p hp)) (fun _ _ => Iff.rfl) hgone
    fun p hp => expects_of_gone (hs.owners p hp) rfl hgone

theorem Follows.tick (hs : s.Follows) (hg : s.Grounded)
    {tracker : Slots ProcessId (Option AgentActivity)} {next : Sampler}
    (hquiet : s.announced = fun _ => none) (hnext : next.announced = fun _ => none)
    (hidle : ∀ p, s.inRegistry p → (tracker p = some (some .idle) ↔ s.restful p)) :
    Follows { s with tracker, sampler := next } :=
  hs.environment hg rfl (hnext.trans hquiet.symm) le_rfl (fun _ hp => .inl hp) hidle
    (fun _ hp hc => ⟨hp, hc⟩) hs.owners

variable {events : Feed IdleEvent} {timers : TimerTable}

/-- The loop moves on with its record, what it has to read adding up to the same. -/
theorem Follows.pass (hs : s.Follows) (hg : s.Grounded)
    {pass : Pass}
    {turns : List (ProcessId × String)}
    (hview : s.view = events.drain TimerScheduler.handle activity)
    (howners : ∀ p, timers.ownedBy p →
      s.timers.ownedBy p ∧ ∀ x, x = .processRemoved p → x ∈ s.unread → x ∈ events.unread) :
    Follows { s with scheduler := .up activity events pass, timers, turns } := by
  refine hs.environment hg hview.symm rfl le_rfl (fun p hp => .inl hp) (fun p _ => Iff.rfl)
    (fun p hp hc => ⟨hp, hc⟩) fun p hp => ?_
  obtain ⟨hold, hkept⟩ := howners p hp
  exact (hs.owners p hold).imp_right fun h => h.imp_right (hkept _ rfl)

theorem Follows.register (hs : s.Follows) (hg : s.Grounded) (agent : Bool) :
    Follows { s with
      registry := s.registry.put s.nextProcess .stopped
      nextProcess := s.nextProcess + 1
      launching := if agent then s.nextProcess :: s.launching else s.launching } := by
  have hgone : ∀ p, s.registry.put s.nextProcess .stopped p = none → p ∉ s.closing →
      s.registry p = none ∧ p ∉ s.closing := by
    intro p hp hc
    refine ⟨?_, hc⟩
    rwa [put_of_ne fun heq => by simp [heq] at hp] at hp
  refine hs.environment hg rfl rfl (Nat.le_succ _) (fun p hp => ?_) (fun p _ => Iff.rfl)
    hgone fun p hp => expects_of_gone (hs.owners p hp) rfl hgone
  by_cases heq : p = s.nextProcess
  · exact .inr heq.ge
  · left
    have hput : (s.registry.put s.nextProcess .stopped p).isSome := hp
    rwa [put_of_ne heq] at hput

variable {id : ProcessId}

theorem Follows.track (hs : s.Follows) (hg : s.Grounded) (hid : id ∈ s.launching) :
    Follows { s with launching := s.launching.erase id, tracker := s.tracker.put id none } := by
  refine hs.environment hg rfl rfl le_rfl (fun p hp => .inl hp) (fun p _ => ?_)
    (fun p hp hc => ⟨hp, hc⟩) hs.owners
  unfold restful
  by_cases heq : p = id
  · subst heq
    simp [(hg.launching p hid).2]
  · exact iff_of_eq (congrArg (· = _) (put_of_ne heq))

theorem Follows.announceRemoval (hs : s.Follows) (hg : s.Grounded) (hlistening : s.listening)
    (hid : id ∈ s.closing) (hheard : s.keepsNews (.processRemoved id)) :
    Follows ({ s with closing := s.closing.erase id }.publish (.processRemoved id)) := by
  have hreg : s.registry id = none := (hg.closing id hid).2
  have hview := view_publish (s := { s with closing := s.closing.erase id }) hlistening hheard
  refine hs.told (x := .processRemoved id) hview (by simp)
    (fun p hp => by rwa [inRegistry_publish] at hp) (fun p hp => ?_) (fun p hp hc => ?_)
    (fun p hp state => by simp) fun p hp => ?_
  · have hne : (IdleEvent.processRemoved id).about ≠ some p := by
      rintro ⟨⟩
      simp [inRegistry, hreg] at hp
    refine ⟨?_, by simp⟩
    rw [news, hview, announced_publish]
    exact congrArg _ (handle_of_about hne)
  · by_cases heq : p = id
    · right
      intro a ha
      subst heq
      cases ((if_pos rfl).symm.trans ha : none = some a)
    · left
      have hgone : s.registry p = none := by simpa using hp
      have hnotin : p ∉ s.closing.erase id := by simpa using hc
      refine ⟨hgone, fun hmem => hnotin ((List.mem_erase_of_ne heq).mpr hmem), ?_⟩
      rintro ⟨⟩
      exact heq rfl
  · have hp : s.timers.ownedBy p := by simpa using hp
    refine expects_publish (s := { s with closing := s.closing.erase id }) hheard hp ?_
    obtain hin | hmem | hread := hs.owners p hp
    · exact .inl (.inl hin)
    · by_cases heq : p = id
      · exact .inr ⟨hlistening, by rw [heq]⟩
      · exact .inl (.inr (.inl ((List.mem_erase_of_ne heq).mpr hmem)))
    · exact .inl (.inr (.inr hread))

variable {statuses : Slots ProcessId ProcStatus} {state : AgentActivity} {rest : List ProcessId}

theorem Follows.observe (hs : s.Follows) (hquiet : s.announced = fun _ => none) :
    Follows { s with
      tracker := s.tracker.put id (some state)
      sampler := .announcing statuses id state rest } := by
  refine ⟨fun p hp => ?_, hs.gone, hs.fresh, hs.owners⟩
  have hlive := hs.live p hp
  unfold news at hlive ⊢
  rw [hquiet] at hlive
  show (if id = p then some state else none).or (s.view p) = _ ↔
    s.tracker.put id (some state) p = some (some .idle)
  by_cases heq : p = id
  · subst heq
    simp
  · rw [if_neg fun h => heq h.symm, put_of_ne heq]
    exact hlive

theorem Follows.announceActivity (hs : s.Follows) (hg : s.Grounded) (hlistening : s.listening)
    (hsampler : s.sampler = .announcing statuses id state rest) (htells : s.tells s.sampler) :
    Follows
      ({ s with sampler := .visiting statuses rest }.publish (.agentActivityChanged id state)) := by
  rw [hsampler] at htells
  obtain ⟨hheard, htimely⟩ := htells
  have hview :=
    view_publish (s := { s with sampler := .visiting statuses rest }) hlistening hheard
  have hold : ∀ p, s.announced p = if id = p then some state else none := by
    intro p
    rw [announced, hsampler]
    rfl
  have htrack : s.tracker id = some (some state) :=
    hg.announced id state ((hold id).trans (if_pos rfl))
  refine hs.told (x := .agentActivityChanged id state) hview (by simp)
    (fun p hp => by rwa [inRegistry_publish] at hp) (fun p hp => ?_) (fun p hp hc => ?_)
    (fun p hp a heq => ?_) fun p hp => ?_
  · refine ⟨?_, by simp⟩
    rw [news, news, hview, announced_publish, hold p]
    show (none : Option AgentActivity).or (s.view.put id state p) = _
    by_cases heq : p = id
    · subst heq
      simp
    · rw [if_neg fun h => heq h.symm, put_of_ne heq]
  · have hgone : s.registry p = none := by simpa using hp
    have hnotin : p ∉ s.closing := by simpa using hc
    by_cases heq : p = id
    · right
      intro a ha
      subst heq
      have hstate : some state = some a := (put_self (t := s.view)).symm.trans ha
      obtain hreg | hmem | hidle := htimely
      · simp [inRegistry, hgone] at hreg
      · exact absurd hmem hnotin
      · exact (some.inj hstate).symm.trans hidle
    · left
      refine ⟨hgone, hnotin, ?_⟩
      rintro ⟨⟩
      exact heq rfl
  · cases heq
    cases htrack.symm.trans (hg.fresh _ hp).2
  · have hp : s.timers.ownedBy p := by simpa using hp
    exact expects_publish (s := { s with sampler := .visiting statuses rest }) hheard hp
      (.inl (hs.owners p hp))

theorem Follows.start (hg : s.Grounded) (hheard : s.Heard .start) :
    Follows { s with scheduler := .up Slots.empty Feed.empty .woken } := by
  obtain ⟨hidle, howners⟩ := hheard
  refine ⟨fun p hp => ?_, fun p hp hc a ha => ?_, fun p hp => rfl, ?_⟩
  · show (s.announced p).or none = _ ↔ _
    rw [or_none]
    constructor
    · exact hg.announced p .idle
    · exact hidle p (hg.lt_of_inRegistry hp) hp
  · cases ha
  · rintro p ⟨r, hr, rfl⟩
    exact (howners r hr).imp_right .inl

theorem Follows.read (hs : s.Follows) (hg : s.Grounded) {next : Feed IdleEvent}
    (hup : s.scheduler = .up activity events .waiting) (hrecv : events.recv = some (some x, next))
    (hkept : ∀ p, timers.ownedBy p → s.timers.ownedBy p)
    (hreleased : fault = none → ∀ p, x = .processRemoved p → ¬ timers.ownedBy p)
    (hheard : s.Heard (.recv fault)) :
    Follows { s with scheduler := .up (TimerScheduler.handle activity x) next .woken, timers } := by
  have hevents : events.unread = x :: next.unread := by
    obtain ⟨hnone, -⟩ | ⟨y, hy, hunread⟩ := Feed.recv_eq_some hrecv
    · cases hnone
    · cases hy
      exact hunread
  have hnext : s.nextRead = some x := by simp [nextRead, hup, hrecv]
  have hunread : s.unread = x :: next.unread := by simp [unread, hup, hevents]
  refine hs.pass hg (by simp [view, hup, Feed.drain, hevents]) fun p hp => ⟨hkept p hp, ?_⟩
  rintro y rfl hread
  rw [hunread, List.mem_cons] at hread
  obtain rfl | hread := hread
  · -- the removal just read took the owner's timers with it
    obtain hnone | hstrands := (hheard : _ ∨ _)
    · exact absurd hp (hreleased hnone p rfl)
    · exact absurd (hkept p hp) (hstrands _ hnext)
  · exact hread

theorem Access.follows {e : TimerEvent} (h : Access s e t) (hheard : s.Heard e) (hg : s.Grounded)
    (hs : s.listening → s.Follows) (ht : t.listening) : t.Follows := by
  have hup : ∀ {activity events pass}, s.scheduler = .up activity events pass → s.Follows := by
    intro activity events pass hup
    apply hs
    intro hdown
    cases hup.symm.trans hdown
  cases h with
  | registered agent => exact (hs ht).register hg agent
  | trackedOne id hid => exact (hs ht).track hg hid
  | statusSet id status hid =>
    refine (hs ht).depart hg (fun p hp => ?_) fun p hp hc => ⟨?_, hc⟩
    · by_cases heq : p = id
      · rwa [heq]
      · rwa [put_of_ne heq] at hp
    · rwa [put_of_ne fun heq => by simp [heq] at hp] at hp
  | removed id hid =>
    refine (hs ht).depart hg (fun p hp => ?_) fun p hp hc => ?_
    · obtain ⟨status, hstatus⟩ := isSome_iff_exists.mp hp
      exact isSome_iff_exists.mpr ⟨status, (erase_eq_some.mp hstatus).2⟩
    · obtain ⟨hne, hc⟩ := not_or.mp (mt List.mem_cons.mpr hc)
      exact ⟨(if_neg hne).symm.trans hp, hc⟩
  | removalAnnounced id hid =>
    rw [listening_publish] at ht
    exact (hs ht).announceRemoval hg ht hid hheard
  | published =>
    rw [listening_publish] at ht
    exact (hs ht).told_other ht hheard
  | sampler next hquiet hnext hsnap =>
    exact (hs ht).tick hg hquiet hnext fun p hp => Iff.rfl
  | retained statuses tracked hsampler =>
    refine (hs ht).tick hg (by rw [announced, hsampler]; rfl) rfl fun p hp => ?_
    constructor
    · intro hidle
      split_ifs at hidle
      exact hidle
    · intro hidle
      -- the snapshot holds every registered agent that is classified
      have hstatus := hg.snapped statuses tracked hsampler p .idle hp hidle
      rw [if_pos (isSome_iff_ne_none.mpr hstatus)]
      exact hidle
  | reset statuses id rest hsampler hstatus hresting =>
    refine (hs ht).tick hg (by rw [announced, hsampler]; rfl) rfl fun p hp => ?_
    by_cases heq : p = id
    · subst heq
      have htells : s.tells s.sampler := hheard
      rw [hsampler] at htells
      obtain hnone | hrunning | hgone | hbusy := htells
      · exact absurd hnone hstatus
      · exact absurd hrunning hresting
      · simp [inRegistry, hgone] at hp
      · constructor
        · intro hidle
          simp [Slots.modify] at hidle
        · exact fun hidle => absurd hidle hbusy
    · rw [modify_of_ne heq]
      rfl
  | observed statuses id x rest current hsampler hcurrent =>
    exact (hs ht).observe (by rw [announced, hsampler]; rfl)
  | activityAnnounced statuses id state rest hsampler =>
    rw [listening_publish] at ht
    exact (hs ht).announceActivity hg ht hsampler hheard
  | armed timer fault he =>
    have hlistening : s.listening := by
      unfold arm at ht
      split_ifs at ht <;> exact ht
    refine follows_armed ?_ hg (hs hlistening) hlistening
    obtain ⟨after, now, rfl⟩ | ⟨watched, mode, maxWait, now, rfl⟩ := he <;> exact hheard
  | stored timers hfewer =>
    exact (hs ht).environment hg rfl rfl le_rfl (fun p hp => .inl hp) (fun p _ => Iff.rfl)
      (fun p hp hc => ⟨hp, hc⟩) fun p hp => (hs ht).owners p (hfewer p hp)
  | started hdown => exact .start hg hheard
  | panicked _ => exact absurd rfl ht
  | passed activity events pass next hs =>
    refine (hup hs).pass hg (by simp [view, hs]) fun p hp => ⟨hp, ?_⟩
    rintro x rfl hread
    simpa [unread, hs] using hread
  | fired activity events now timer claimed rest turns hs hclaim =>
    have hfewer : ∀ p, TimerTable.ownedBy (s.timers.takeIfArmed timer.id).1 p →
        s.timers.ownedBy p := fun p hp => TimerTable.ownedBy_of_takeIfArmed hp
    have hnews : s.keepsNews .other := by
      have hfires : s.firesHeard _ s.scheduler := hheard
      rw [hs] at hfires
      exact hfires.resolve_left (by simp [hclaim])
    rw [listening_publish] at ht
    refine Follows.told_other ?_ ht (keepsNews_of_fewer hnews hfewer ?_)
    · refine (hup hs).pass hg (by simp [view, hs]) fun p hp => ⟨hfewer p hp, ?_⟩
      rintro x rfl hread
      simpa [unread, hs] using hread
    · intro a feed pass heq
      cases heq
      exact ⟨_, hs⟩
  | gapRead activity events next hs hunread =>
    refine (hup hs).pass hg (by simp [view, hs, Feed.drain, hunread]) fun p hp => ⟨hp, ?_⟩
    rintro x rfl hread
    simpa [unread, hs, hunread] using hread
  | eventRead activity events next x hs hrecv timers hkept hreleased =>
    exact (hup hs).read hg hs hrecv hkept hreleased hheard

instance (s : TimerSystem) (owner : ProcessId) (body : String) (fault : Option StoreError) :
    Decidable (s.armsHeard owner body fault) :=
  inferInstanceAs (Decidable (_ ∨ _))

instance (s : TimerSystem) : ∀ e, Decidable (s.Heard e)
  | .announceRemoval id => inferInstanceAs (Decidable (s.keepsNews (.processRemoved id)))
  | .publishOther => inferInstanceAs (Decidable (s.keepsNews .other))
  | .sample _ => inferInstanceAs (Decidable (s.tells s.sampler))
  | .timerSet _ owner body _ _ fault => inferInstanceAs (Decidable (s.armsHeard owner body fault))
  | .timerFireWhenIdle _ owner body _ _ _ _ fault =>
    inferInstanceAs (Decidable (s.armsHeard owner body fault))
  | .start => inferInstanceAs (Decidable ((∀ p < s.nextProcess, _) ∧ _))
  | .consider fault => inferInstanceAs (Decidable (s.firesHeard fault s.scheduler))
  | .recv fault => inferInstanceAs (Decidable (fault = none ∨ ∀ x ∈ s.nextRead, _))
  | .register _ | .track _ | .setStatus _ _ | .remove _ | .tick _ | .skipTick
  | .timerCancel _ _ _ | .timerPause _ _ _ _ | .timerResume _ _ _ _ | .removeProject _
  | .reconcileTimers _ | .panic | .evaluate _ _ | .wake => inferInstanceAs (Decidable True)

theorem follows_of_reachable (h : timerMachine.ReachableUnder Heard s) :
    s.Grounded ∧ (s.listening → s.Follows) := by
  refine h.invariant (P := fun s => s.Grounded ∧ (s.listening → s.Follows)) ?_ ?_
  · rintro s rfl
    exact ⟨.init, fun hup => absurd rfl hup⟩
  · rintro s e t hheard ⟨hg, hs⟩ hstep
    have haccess := access_of_step hstep
    exact ⟨haccess.grounded hg, haccess.follows hheard hg hs⟩

theorem view_of_consumed (h : s.consumed) : s.view = s.activity := by
  obtain ⟨hup, hunread⟩ := h
  unfold unread at hunread
  unfold view activity
  cases hs : s.scheduler with
  | down => rfl
  | up activity events pass =>
    simp only [hs] at hunread ⊢
    rw [Feed.drain, hunread]
    rfl

/-- With everything read, a registered process is idle to the scheduler exactly when its classifier
stands at idle, and a departed one always. -/
theorem Follows.isIdleToFire (hs : s.Follows) (hc : s.consumed) (hp : ¬ s.underWay p) :
    s.isIdleToFire p = true ↔ (s.inRegistry p → s.restful p) := by
  obtain ⟨hclosing, hquiet⟩ := not_or.mp hp
  have hquiet : s.announced p = none := not_not.mp hquiet
  unfold TimerSystem.isIdleToFire
  rw [← view_of_consumed hc]
  cases hreg : s.inRegistry p with
  | true =>
    have hlive := hs.live p hreg
    rw [news, hquiet, none_or] at hlive
    simp [hlive]
  | false =>
    have hgone : s.registry p = none := by simpa [inRegistry] using hreg
    simpa using hs.gone p hgone hclosing

theorem isIdleNow_iff :
    s.isIdleNow p = true ↔ if s.inRegistry p then s.restful p else ¬ s.lingers p := by
  unfold isIdleNow
  cases hreg : s.inRegistry p with
  | true =>
    rw [watchedIsIdle_true, join_eq_some_iff]
    rfl
  | false =>
    have hgone : s.registry p = none := by simpa [inRegistry] using hreg
    simp [lingers, hgone]

theorem Follows.agree (hs : s.Follows) (hc : s.consumed) (hp : ¬ s.underWay p) :
    s.isIdleToFire p = s.isIdleNow p ↔ ¬ s.lingers p := by
  rw [Bool.eq_iff_iff, hs.isIdleToFire hc hp, isIdleNow_iff]
  cases hreg : s.inRegistry p with
  | true =>
    have hlingers : ¬ s.lingers p := by
      rintro ⟨hgone, -⟩
      simp [inRegistry, hgone] at hreg
    simp [hlingers]
  | false => simp

end TimerSystem

/-- While the scheduler hears everything, its fire check and the façade's report answer alike once
it has read everything: for every process but one just closed that the tracker still holds, and for
every quorum of such processes. No closed process owns a timer then. -/
theorem idle_views_agree {s : TimerSystem} (h : timerMachine.ReachableUnder TimerSystem.Heard s)
    (hc : s.consumed) :
    (∀ p, ¬ s.underWay p →
      (s.isIdleToFire p = true ↔ (s.inRegistry p → s.restful p)) ∧
      (s.isIdleToFire p = s.isIdleNow p ↔ ¬ s.lingers p)) ∧
    (∀ mode watched, (∀ p ∈ watched, ¬ s.underWay p ∧ ¬ s.lingers p) →
      IdleMode.quorumMet mode watched s.isIdleToFire = (mode.idleReport watched s.isIdleNow).2) ∧
    ∀ r ∈ s.timers.rows, r.owner ∉ s.closing → s.inRegistry r.owner := by
  have hlistening : s.listening := by
    intro hdown
    have hup := hc.1
    rw [hdown] at hup
    cases hup
  have hs := (TimerSystem.follows_of_reachable h).2 hlistening
  refine ⟨fun p hp => ⟨hs.isIdleToFire hc hp, hs.agree hc hp⟩, ?_, ?_⟩
  · intro mode watched hwatched
    rw [IdleMode.idleReport_eq]
    refine IdleMode.quorumMet_congr fun p hp => ?_
    obtain ⟨hway, hlingers⟩ := hwatched p hp
    exact (hs.agree hc hway).mpr hlingers
  · intro r hr hclosing
    obtain hreg | hmem | hread := hs.owners r.owner ⟨r, hr, rfl⟩
    · exact hreg
    · exact absurd hmem hclosing
    · rw [hc.2] at hread
      cases hread

/-- An agent goes idle while another waits for it on a timer, and everything is read. -/
def watchedAgent : List TimerEvent :=
  [.register true, .setStatus 1 .running, .register false, .track 1, .start, .evaluate 0 none,
    .consider none, .timerFireWhenIdle 1 2 "go on" [1] .all none 0 none, .tick [1], .sample none,
    .sample none, .sample (some ⟨true, .working⟩), .sample none, .sample none, .recv none]

theorem idle_views_agree_watched : ∃ s : TimerSystem, s.consumed ∧ s.timers.ownedBy 2 ∧
    IdleMode.quorumMet .all [1] s.isIdleToFire = (IdleMode.idleReport .all [1] s.isIdleNow).2 := by
  obtain ⟨s, h, hc, howned, hwatched⟩ :=
    Machine.exists_reachableUnder_of_run (M := timerMachine) (G := TimerSystem.Heard) rfl
      watchedAgent (by decide)
      (fun s : TimerSystem => s.consumed ∧ s.timers.ownedBy 2 ∧
        ∀ p ∈ ([1] : List ProcessId), ¬ s.underWay p ∧ ¬ s.lingers p)
      (by decide)
  exact ⟨s, hc, howned, (idle_views_agree h hc).2.1 .all [1] hwatched⟩

/-- A tick has read the terminal of an agent that is then closed and announced; what it makes of
the terminal is published last. The next tick drops the agent from the tracker. -/
def lateActivity : List TimerEvent :=
  [.register true, .setStatus 1 .running, .track 1, .start, .evaluate 0 none, .consider none,
    .tick [1], .sample none, .sample none, .sample (some ⟨true, .working⟩), .remove 1,
    .announceRemoval 1, .sample none, .sample none, .recv none, .evaluate 0 none, .consider none,
    .recv none, .sample none, .tick [1], .sample none, .sample none, .sample none]

/-- The late activity puts the closed process back into the scheduler's record, where nothing
removes it: the scheduler waits for it, and the façade reports it idle. -/
theorem late_activity_resurrects : ∃ s, timerMachine.Reachable s ∧ s.consumed ∧
    s.registry 1 = none ∧ ¬ s.underWay 1 ∧ s.tracker 1 = none ∧
    IdleMode.quorumMet .all [1] s.isIdleToFire = false ∧
    (IdleMode.idleReport .all [1] s.isIdleNow).2 = true :=
  Machine.exists_reachable_of_run (M := timerMachine) rfl lateActivity
    (fun s : TimerSystem => s.consumed ∧ s.registry 1 = none ∧ ¬ s.underWay 1 ∧
      s.tracker 1 = none ∧ IdleMode.quorumMet .all [1] s.isIdleToFire = false ∧
      (IdleMode.idleReport .all [1] s.isIdleNow).2 = true) (by decide)

end Soloist
