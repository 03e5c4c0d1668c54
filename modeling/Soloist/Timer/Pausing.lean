import Soloist.Timer.Access

/-! A timer under pauses and resumes: what its calls and its claim report, in the order the store
takes them, and the countdown they amount to. -/
open List Option

namespace Soloist

/-- What happens to a timer, as the calls that succeed and the loop that claims it report it. -/
inductive TimerMark
  | set (delay : ℕ) (now : UInt64)
  | paused (now : UInt64)
  | resumed (now : UInt64)
  | fired
  | cancelled
  deriving DecidableEq, Repr

namespace TimerMark

def reading : TimerMark → Option ℕ
  | .set _ now | .paused now | .resumed now => some now.toNat
  | .fired | .cancelled => none

def apply : Option Countdown → TimerMark → Option Countdown
  | _, .set delay now => some (.start delay now.toNat)
  | c, .paused now => c.map fun c => c.halt now.toNat
  | c, .resumed now => c.map fun c => c.take now.toNat
  | _, .fired | _, .cancelled => none

def countdown (marks : List TimerMark) : Option Countdown := marks.foldl apply none

/-- The clock never went back between the calls, nor by `now`. -/
def Onward (marks : List TimerMark) (now : ℕ) : Prop :=
  (marks.filterMap reading ++ [now]).Pairwise (· ≤ ·)

/-- The delay on top of each reading is an instant the store's signed columns hold. -/
def Fits (marks : List TimerMark) : Prop :=
  ∀ delay now, .set delay now ∈ marks → ∀ t ∈ marks.filterMap reading, t + delay < 2 ^ 63

@[simp] theorem countdown_nil : countdown [] = none := rfl

@[simp] theorem countdown_snoc (marks : List TimerMark) (m : TimerMark) :
    countdown (marks ++ [m]) = apply (countdown marks) m := by
  simp [countdown]

variable {marks : List TimerMark}

variable {now t : ℕ}

theorem Onward.of_snoc {m : TimerMark} (h : Onward (marks ++ [m]) now) (ht : m.reading = some t) :
    Onward marks t := by
  rw [Onward, filterMap_append, filterMap_cons_some ht] at h
  exact (pairwise_append.mp h).1

theorem Onward.le_of_mem (h : Onward marks now) (ht : t ∈ marks.filterMap reading) : t ≤ now :=
  (pairwise_append.mp h).2.2 t ht now (mem_singleton_self now)

theorem Fits.of_append {more : List TimerMark} (h : Fits (marks ++ more)) : Fits marks := by
  intro delay now hset t ht
  apply h delay now (mem_append_left more hset) t
  rw [filterMap_append]
  exact mem_append_left _ ht

end TimerMark

def StoredTimer.left (t : StoredTimer) (now : ℕ) : ℕ :=
  match t.status with
  | .armed => t.deadlineUnixMillis.toNat - now
  | .paused => (t.remainingOnPauseMillis.getD 0).toNat

namespace TimerTable
variable {t : TimerTable} {id : TimerId}

variable {timer : StoredTimer}

theorem takeIfArmed_eq_some (h : (t.takeIfArmed id).2 = some timer) :
    ∃ r, t.get id = some r ∧ r.paused = false ∧ r.toTimer = some timer ∧
      (t.takeIfArmed id).1 = t.delete fun r => r.id = id := by
  unfold takeIfArmed at h ⊢
  cases hread : ((t.get id).filter fun r => !r.paused).bind TimerRow.toTimer with
  | none => simp [hread] at h
  | some read =>
    simp only [hread, Option.some.injEq] at h ⊢
    obtain ⟨r, hr, hread⟩ := Option.bind_eq_some_iff.mp hread
    obtain ⟨hget, harmed⟩ := Option.filter_eq_some_iff.mp hr
    rw [h] at hread
    exact ⟨r, hget, by simpa using harmed, hread, trivial⟩

theorem id_takeIfArmed (h : (t.takeIfArmed id).2 = some timer) : timer.id = id := by
  obtain ⟨r, hget, -, hread, -⟩ := takeIfArmed_eq_some h
  exact (TimerRow.id_of_toTimer hread).trans (Table.get_eq_some.mp hget).2

theorem any_held {owner : ProcessId} {paused : Bool} :
    t.rows.any (held id owner paused) ↔
      ∃ r, t.get id = some r ∧ held id owner paused r = true := by
  rw [List.any_eq_true]
  constructor
  · rintro ⟨r, hr, hheld⟩
    have hid : r.id = id := by
      simp only [held, decide_eq_true_eq] at hheld
      exact hheld.1
    exact ⟨r, Table.get_eq_some.mpr ⟨hr, hid⟩, hheld⟩
  · rintro ⟨r, hget, hheld⟩
    exact ⟨r, Table.get_mem hget, hheld⟩

/-- What one statement does to the timer `id`, with what it reports. -/
inductive Moves (id : TimerId) (a b : TimerTable) : Option TimerMark → Prop
  | still (hseq : a.seq ≤ b.seq) (hget : ∀ r, b.get id = some r → a.get id = some r) :
      Moves id a b none
  | armed (timer : NewTimer) (delay : ℕ) (now : UInt64) (ha : a.seq < id) (hb : b.seq ≥ id)
      (hget : b.get id = some (timer.toRow id))
      (hdue : timer.deadlineUnixMillis = saturatingAdd now (UInt64.ofNat delay)) :
      Moves id a b (some (.set delay now))
  | paused (r : TimerRow) (now : UInt64) (hseq : b.seq = a.seq) (ha : a.get id = some r)
      (harmed : r.paused = false) (hb : b.get id = some (r.pause now)) :
      Moves id a b (some (.paused now))
  | resumed (r : TimerRow) (now : UInt64) (hseq : b.seq = a.seq) (ha : a.get id = some r)
      (hpaused : r.paused = true) (hb : b.get id = some (r.resume now)) :
      Moves id a b (some (.resumed now))
  | fired (r : TimerRow) (hseq : b.seq = a.seq) (ha : a.get id = some r)
      (harmed : r.paused = false) (hb : b.get id = none) : Moves id a b (some .fired)
  | cancelled (r : TimerRow) (hseq : b.seq = a.seq) (ha : a.get id = some r)
      (hb : b.get id = none) : Moves id a b (some .cancelled)

theorem moves_delete (p : TimerRow → Bool) : Moves id t (t.delete p) none := by
  refine .still le_rfl fun r hr => ?_
  rw [AutoTable.get_delete, filter_eq_some_iff] at hr
  exact hr.1

theorem moves_refl : Moves id t t none := .still le_rfl fun _ hr => hr

variable {now : UInt64}

theorem moves_create (id : TimerId) (t : TimerTable) {timer : NewTimer} {delay : ℕ}
    (hdue : timer.deadlineUnixMillis = saturatingAdd now (UInt64.ofNat delay)) :
    Moves id t (t.create timer).1
      (if (t.create timer).2 = id then some (.set delay now) else none) := by
  have hget : (t.create timer).1.get id =
      if id = t.seq + 1 then some (timer.toRow (t.seq + 1)) else t.get id :=
    AutoTable.get_append t _ rfl id
  have hseq : (t.create timer).1.seq = t.seq + 1 := rfl
  split_ifs with hid
  · have hid : t.seq + 1 = id := hid
    rw [if_pos hid.symm, hid] at hget
    exact .armed timer delay now (by omega) (hseq.trans hid).ge hget hdue
  · have hid : ¬ id = t.seq + 1 := fun h => hid h.symm
    rw [if_neg hid] at hget
    exact .still (by omega) fun r hr => hget ▸ hr

/-- A pause or a resume moves the one row it holds, and reports whether there is one. -/
theorem held_update (id : TimerId) (t : TimerTable) (other owner : ℕ) (paused : Bool)
    (f : TimerRow → TimerRow) (hf : ∀ r, (f r).id = r.id) :
    (∃ r, other = id ∧ t.rows.any (held other owner paused) = true ∧ t.get id = some r ∧
        r.paused = paused ∧ (t.update (held other owner paused) f hf).get id = some (f r)) ∨
      ¬(other = id ∧ t.rows.any (held other owner paused) = true) ∧
        (t.update (held other owner paused) f hf).get id = t.get id := by
  rw [AutoTable.get_update]
  by_cases h : other = id ∧ t.rows.any (held other owner paused) = true
  · obtain ⟨rfl, hany⟩ := h
    obtain ⟨r, hget, hheld⟩ := any_held.mp hany
    have hpaused : r.paused = paused := by
      simp only [held, decide_eq_true_eq] at hheld
      exact hheld.2.2
    exact .inl ⟨r, rfl, hany, hget, hpaused, by rw [hget, map_some, if_pos hheld]⟩
  · refine .inr ⟨h, ?_⟩
    cases hget : t.get id with
    | none => rfl
    | some r =>
      rw [map_some, if_neg]
      intro hheld
      have hid : r.id = id := (Table.get_eq_some.mp hget).2
      have hother : r.id = other := by
        simp only [held, decide_eq_true_eq] at hheld
        exact hheld.1
      have heq : other = id := hother.symm.trans hid
      exact h ⟨heq, any_held.mpr ⟨r, heq ▸ hget, hheld⟩⟩

variable {other owner : ℕ}

/-- A pause or a resume is a move of the row it holds. -/
theorem moves_held {paused : Bool} {f : TimerRow → TimerRow} {hf : ∀ r, (f r).id = r.id}
    {m : TimerMark}
    (hmove : ∀ r u, u.seq = t.seq → t.get id = some r → r.paused = paused →
      u.get id = some (f r) → Moves id t u (some m)) :
    Moves id t (t.update (held other owner paused) f hf)
      (if other = id ∧ t.rows.any (held other owner paused) = true then some m else none) := by
  obtain ⟨r, hid, hany, hget, hpaused, hnext⟩ | ⟨hnot, hget⟩ :=
    held_update id t other owner paused f hf
  · rw [if_pos ⟨hid, hany⟩]
    exact hmove r _ rfl hget hpaused hnext
  · rw [if_neg hnot]
    exact .still le_rfl fun r hr => hget ▸ hr

theorem moves_pause :
    Moves id t (t.pause other owner now).1
      (if other = id ∧ (t.pause other owner now).2 = true then some (.paused now) else none) :=
  moves_held fun r _ => .paused r now

theorem moves_resume :
    Moves id t (t.resume other owner now).1
      (if other = id ∧ (t.resume other owner now).2 = true then some (.resumed now) else none) :=
  moves_held fun r _ => .resumed r now

theorem moves_cancel :
    Moves id t (t.cancel other owner).1
      (if other = id ∧ (t.cancel other owner).2 = true then some .cancelled else none) := by
  split_ifs with h
  · obtain ⟨rfl, hany⟩ := h
    obtain ⟨r, hr, hmine⟩ := List.any_eq_true.mp hany
    simp only [decide_eq_true_eq] at hmine
    obtain ⟨hid, howner⟩ := hmine
    refine .cancelled r rfl (Table.get_eq_some.mpr ⟨hr, hid⟩) ?_
    have hget : t.get other = some r := Table.get_eq_some.mpr ⟨hr, hid⟩
    rw [cancel, AutoTable.get_delete, hget]
    simp [Option.filter, hid, howner]
  · exact moves_delete _

theorem moves_takeIfArmed (id : TimerId) {other : TimerId}
    (h : (t.takeIfArmed other).2 = some timer) :
    Moves id t (t.takeIfArmed other).1 (if timer.id = id then some .fired else none) := by
  obtain ⟨r, hget, harmed, hread, hnext⟩ := takeIfArmed_eq_some h
  have hid : r.id = other := (Table.get_eq_some.mp hget).2
  rw [hnext, TimerRow.id_of_toTimer hread]
  split_ifs with hsame
  · obtain rfl : other = id := hid.symm.trans hsame
    refine .fired r rfl hget harmed ?_
    rw [AutoTable.get_delete, hget]
    simp [Option.filter, hid]
  · exact moves_delete _

end TimerTable

namespace TimerSystem

def delayMillis (after : Option Duration) : ℕ := min (after.getD 0) maxTimerDelay / 10 ^ 6

def backstopMillis (maxWait : Option Duration) : ℕ :=
  min (maxWait.getD defaultIdleMaxWait) maxIdleMaxWait / 10 ^ 6

def markArm (id : TimerId) (s : TimerSystem) (timer : NewTimer) (delay : ℕ) (now : UInt64)
    (fault : Option StoreError) : Option TimerMark :=
  if maxTimerBodyBytes < timer.body.utf8ByteSize ∨ fault.isSome then none
  else if (s.timers.create timer).2 = id then some (.set delay now)
  else none

variable {s : TimerSystem} {fault : Option StoreError}

variable {now : UInt64} {timer : StoredTimer}

theorem id_claim {activity : Slots ProcessId AgentActivity} {claimed : StoredTimer}
    (h : s.claim activity now timer fault = some claimed) : claimed.id = timer.id := by
  unfold claim at h
  split_ifs at h
  exact TimerTable.id_takeIfArmed h

def claims (s : TimerSystem) (fault : Option StoreError) : Option StoredTimer :=
  match s.scheduler with
  | .up activity _ (.evaluating now (timer :: _)) => s.claim activity now timer fault
  | _ => none

def mark (id : TimerId) (s : TimerSystem) : TimerEvent → Option TimerMark
  | .timerSet project owner body after now fault =>
    s.markArm id (Timers.scheduled project owner body after now) (delayMillis after) now fault
  | .timerFireWhenIdle project owner body watched mode maxWait now fault =>
    s.markArm id (Timers.whenIdle project owner body watched mode maxWait now)
      (backstopMillis maxWait) now fault
  | .timerCancel other owner fault =>
    if other = id ∧ fault = none ∧ (s.timers.cancel other owner).2 then some .cancelled else none
  | .timerPause other owner now fault =>
    if other = id ∧ fault = none ∧ (s.timers.pause other owner now).2 then some (.paused now)
    else none
  | .timerResume other owner now fault =>
    if other = id ∧ fault = none ∧ (s.timers.resume other owner now).2 then some (.resumed now)
    else none
  | .consider fault => if (s.claims fault).any (·.id = id) then some .fired else none
  | _ => none

def timersAfter (s : TimerSystem) : TimerEvent → TimerTable
  | .timerSet project owner body after now fault =>
    (s.arm (Timers.scheduled project owner body after now) fault).timers
  | .timerFireWhenIdle project owner body watched mode maxWait now fault =>
    (s.arm (Timers.whenIdle project owner body watched mode maxWait now) fault).timers
  | .timerCancel id owner fault => (s.store fault (s.timers.cancel id owner).1).timers
  | .timerPause id owner now fault => (s.store fault (s.timers.pause id owner now).1).timers
  | .timerResume id owner now fault => (s.store fault (s.timers.resume id owner now).1).timers
  | .consider fault =>
    match s.claims fault with
    | none => s.timers
    | some timer => (s.timers.takeIfArmed timer.id).1
  | .removeProject project => s.timers.dropProject project
  | .reconcileTimers fault => (s.store fault s.timers.clear.1).timers
  | .recv fault =>
    match s.scheduler with
    | .up _ events .waiting =>
      match events.recv with
      | some (some (.processRemoved id), _) => (s.store fault (s.timers.releaseOwner id).1).timers
      | _ => s.timers
    | _ => s.timers
  | _ => s.timers

theorem taken_of_claims (h : s.claims fault = some timer) :
    (s.timers.takeIfArmed timer.id).2 = some timer := by
  unfold claims at h
  split at h
  · next activity events now read rest hs =>
    have hid : timer.id = read.id := id_claim h
    unfold claim at h
    split_ifs at h
    rw [hid]
    exact h
  · cases h

variable {timers : TimerTable}

theorem timers_store :
    (s.store fault timers).timers = if fault.isSome then s.timers else timers := by
  unfold store
  split_ifs
  · rfl
  · rfl

variable {t : TimerSystem}

theorem timers_sampleNext {signals : Option Sample} (h : s.sampleNext signals = some t) :
    t.timers = s.timers := by
  unfold sampleNext at h
  split at h
  · cases h
  · cases h
    rfl
  · cases h
    rfl
  · cases h
    rfl
  · split at h <;> cases h <;> rfl
  · split at h <;> cases h <;> rfl
  · cases h
    exact timers_publish _ _

theorem timers_consider (h : s.consider fault = some t) :
    t.timers = s.timersAfter (.consider fault) := by
  unfold consider at h
  split at h
  · next activity events now hs =>
    cases h
    simp [timersAfter, claims, hs]
  · next activity events now timer rest hs =>
    simp only at h
    split at h
    · next hclaim =>
      cases h
      simp [timersAfter, claims, hs, hclaim]
    · next claimed hclaim =>
      cases h
      rw [timers_publish]
      simp [timersAfter, claims, hs, hclaim, id_claim hclaim]
  · cases h

theorem timers_recv (h : s.recv fault = some t) : t.timers = s.timersAfter (.recv fault) := by
  unfold recv at h
  split at h
  · next activity events hs =>
    split at h
    · cases h
    · next next hrecv =>
      cases h
      simp [timersAfter, hs, hrecv]
    · next id next hrecv =>
      cases h
      simp [timersAfter, hs, hrecv, timers_store]
    · next e next hother hrecv =>
      cases h
      simp only [timersAfter, hs, hrecv]
      split
      · next id next heq =>
        cases heq
        exact absurd rfl (hother id)
      · rfl
  · cases h

variable {e : TimerEvent}

theorem timers_step (h : s.step e = some t) : t.timers = s.timersAfter e := by
  cases e with
  | register agent =>
    cases h
    rfl
  | timerSet project owner body after now fault =>
    cases h
    rfl
  | timerFireWhenIdle project owner body watched mode maxWait now fault =>
    cases h
    rfl
  | timerCancel id owner fault =>
    cases h
    rfl
  | timerPause id owner now fault =>
    cases h
    rfl
  | timerResume id owner now fault =>
    cases h
    rfl
  | removeProject project =>
    cases h
    rfl
  | reconcileTimers fault =>
    cases h
    rfl
  | publishOther =>
    cases h
    exact timers_publish _ _
  | track id =>
    simp only [step, ite_none_right_eq_some, Option.some.injEq] at h
    obtain ⟨-, rfl⟩ := h
    rfl
  | setStatus id status =>
    simp only [step, ite_none_right_eq_some, Option.some.injEq] at h
    obtain ⟨-, rfl⟩ := h
    rfl
  | remove id =>
    simp only [step, ite_none_right_eq_some, Option.some.injEq] at h
    obtain ⟨-, rfl⟩ := h
    rfl
  | announceRemoval id =>
    simp only [step, ite_none_right_eq_some, Option.some.injEq] at h
    obtain ⟨-, rfl⟩ := h
    exact timers_publish _ _
  | tick order =>
    simp only [step] at h
    split at h
    · split_ifs at h
      cases h
      rfl
    · cases h
  | skipTick =>
    simp only [step] at h
    split at h
    · cases h
      rfl
    · cases h
  | sample signals => exact timers_sampleNext h
  | start =>
    simp only [step] at h
    split at h
    · cases h
      rfl
    · cases h
  | panic =>
    simp only [step] at h
    split at h
    · cases h
    · cases h
      rfl
  | evaluate now fault =>
    simp only [step] at h
    split at h
    · cases h
      rfl
    · cases h
  | wake =>
    simp only [step] at h
    split at h
    · cases h
      rfl
    · cases h
  | consider fault => exact timers_consider h
  | recv fault => exact timers_recv h

variable {id : TimerId}

theorem moves_arm {timer : NewTimer} {delay : ℕ}
    (hdue : timer.deadlineUnixMillis = saturatingAdd now (UInt64.ofNat delay)) :
    TimerTable.Moves id s.timers (s.arm timer fault).timers
      (s.markArm id timer delay now fault) := by
  unfold arm markArm
  split_ifs with hrefused hid
  · exact TimerTable.moves_refl
  · simpa only [if_pos hid] using TimerTable.moves_create id s.timers hdue
  · simpa only [if_neg hid] using TimerTable.moves_create id s.timers hdue

/-- A statement under a store fault does nothing and reports nothing. -/
theorem moves_store {other : TimerId} {done : Bool} {m : TimerMark}
    (h : TimerTable.Moves id s.timers timers (if other = id ∧ done = true then some m else none)) :
    TimerTable.Moves id s.timers (s.store fault timers).timers
      (if other = id ∧ fault = none ∧ done = true then some m else none) := by
  rw [timers_store]
  cases fault with
  | none => simpa using h
  | some error => simpa using TimerTable.moves_refl

theorem moves_step (h : s.step e = some t) :
    TimerTable.Moves id s.timers t.timers (s.mark id e) := by
  rw [timers_step h]
  cases e with
  | timerSet project owner body after now fault => exact moves_arm rfl
  | timerFireWhenIdle project owner body watched mode maxWait now fault => exact moves_arm rfl
  | timerCancel other owner fault => exact moves_store TimerTable.moves_cancel
  | timerPause other owner now fault => exact moves_store TimerTable.moves_pause
  | timerResume other owner now fault => exact moves_store TimerTable.moves_resume
  | removeProject project => exact TimerTable.moves_delete _
  | reconcileTimers fault =>
    simp only [timersAfter, timers_store]
    split_ifs
    · exact TimerTable.moves_refl
    · exact TimerTable.moves_delete _
  | consider fault =>
    simp only [timersAfter, mark]
    cases hclaims : s.claims fault with
    | none => exact TimerTable.moves_refl
    | some timer =>
      have htaken : (s.timers.takeIfArmed timer.id).2 = some timer := taken_of_claims hclaims
      simpa using TimerTable.moves_takeIfArmed id htaken
  | recv fault =>
    simp only [timersAfter]
    split
    · split
      · rw [timers_store]
        split_ifs
        · exact TimerTable.moves_refl
        · exact TimerTable.moves_delete _
      · exact TimerTable.moves_refl
    · exact TimerTable.moves_refl
  | register agent => exact TimerTable.moves_refl
  | track id => exact TimerTable.moves_refl
  | setStatus id status => exact TimerTable.moves_refl
  | remove id => exact TimerTable.moves_refl
  | announceRemoval id => exact TimerTable.moves_refl
  | publishOther => exact TimerTable.moves_refl
  | tick order => exact TimerTable.moves_refl
  | skipTick => exact TimerTable.moves_refl
  | sample signals => exact TimerTable.moves_refl
  | start => exact TimerTable.moves_refl
  | panic => exact TimerTable.moves_refl
  | evaluate now fault => exact TimerTable.moves_refl
  | wake => exact TimerTable.moves_refl

end TimerSystem

structure Counts (marks : List TimerMark) (r : TimerRow) (c : Countdown) : Prop where
  countdown : TimerMark.countdown marks = some c
  unfired : .fired ∉ marks
  uncancelled : .cancelled ∉ marks
  running : c.running ↔ r.paused = false
  set : ∃ now, .set c.total now ∈ marks
  since : ∀ t, c.since = some t → t ∈ marks.filterMap TimerMark.reading
  due : ∀ now, TimerMark.Onward marks now → TimerMark.Fits marks →
    ∃ d, r.deadlineUnixMillis = .integer d ∧
      ∀ t, c.since = some t → d.toInt = t + (c.total - c.spent : ℕ)
  kept : ∀ now, TimerMark.Onward marks now → TimerMark.Fits marks → c.since = none →
    ∃ x, r.remainingMillis = some (.integer x) ∧ x.toInt = (c.total - c.spent : ℕ)
  blank : r.paused = false → r.remainingMillis = none

namespace Counts
open TimerMark
variable {marks : List TimerMark} {r : TimerRow} {c : Countdown} {now : UInt64}

theorem start {timer : NewTimer} {id : TimerId} {delay : ℕ}
    (hdue : timer.deadlineUnixMillis = saturatingAdd now (UInt64.ofNat delay)) :
    Counts [.set delay now] (timer.toRow id) (.start delay now.toNat) where
  countdown := rfl
  unfired := by simp
  uncancelled := by simp
  running := by simp [Countdown.running, Countdown.start, NewTimer.toRow]
  set := ⟨now, mem_singleton_self _⟩
  since := by
    intro t ht
    cases ht
    exact mem_singleton_self _
  due := by
    intro later _ hfits
    refine ⟨timer.deadlineUnixMillis.toInt64, rfl, fun t ht => ?_⟩
    cases ht
    have hsum : now.toNat + delay < 2 ^ 63 :=
      hfits delay now (mem_singleton_self _) now.toNat (mem_singleton_self _)
    change timer.deadlineUnixMillis.toInt64.toInt = now.toNat + (delay - 0 : ℕ)
    rw [hdue, toInt_saturatingAdd hsum, Nat.sub_zero]
  kept := by
    intro later _ _ hsince
    cases hsince
  blank _ := rfl

variable (h : Counts marks r c)
include h

theorem now_lt {m : TimerMark} (hm : m.reading = some now.toNat)
    (hfits : TimerMark.Fits (marks ++ [m])) : now.toNat + c.total < 2 ^ 63 := by
  obtain ⟨first, hset⟩ := h.set
  apply hfits c.total first (mem_append_left _ hset)
  rw [filterMap_append, filterMap_cons_some hm]
  exact mem_append_right _ (mem_singleton_self _)

theorem pause (harmed : r.paused = false) :
    Counts (marks ++ [.paused now]) (r.pause now) (c.halt now.toNat) where
  countdown := by simp [h.countdown, apply]
  unfired := by simpa using h.unfired
  uncancelled := by simpa using h.uncancelled
  running := by simp [Countdown.running, Countdown.halt, TimerRow.pause]
  set := by
    obtain ⟨first, hset⟩ := h.set
    exact ⟨first, mem_append_left _ hset⟩
  since := by
    intro t ht
    cases ht
  due := by
    intro later honward hfits
    obtain ⟨d, hd, -⟩ := h.due now.toNat (honward.of_snoc rfl) hfits.of_append
    refine ⟨d, hd, fun t ht => ?_⟩
    cases ht
  kept := by
    intro later honward hfits _
    obtain ⟨t, hsince⟩ := isSome_iff_exists.mp (h.running.mpr harmed)
    have hbefore : Onward marks now.toNat := honward.of_snoc rfl
    have hle : t ≤ now.toNat := hbefore.le_of_mem (h.since t hsince)
    have hlt := h.now_lt rfl hfits
    obtain ⟨d, hd, hdue⟩ := h.due now.toNat hbefore hfits.of_append
    have hdue := hdue t hsince
    have hnow : now.toInt64.toInt = now.toNat := toInt_toInt64 (by omega)
    have hspent : (c.halt now.toNat).spent = c.spent + (now.toNat - t) := by
      simp [Countdown.halt, Countdown.ran, hsince]
    have htotal : (c.halt now.toNat).total = c.total := rfl
    have hremains : d.toInt - now.toInt64.toInt = t + (c.total - c.spent : ℕ) - now.toNat := by
      rw [hdue, hnow]
    refine ⟨Int64.ofInt (max 0 (t + (c.total - c.spent : ℕ) - now.toNat)), ?_, ?_⟩
    · change some (SqlNumber.stored _) = _
      rw [hd, SqlNumber.arith_integer hremains (by omega) (by omega),
        SqlNumber.atLeastZero_integer (by omega) (by omega)]
      rfl
    · rw [hspent, htotal, Int64.toInt_ofInt_of_le (by omega) (by omega)]
      omega
  blank hp := by cases hp

theorem resume (hpaused : r.paused = true) :
    Counts (marks ++ [.resumed now]) (r.resume now) (c.take now.toNat) where
  countdown := by simp [h.countdown, apply]
  unfired := by simpa using h.unfired
  uncancelled := by simpa using h.uncancelled
  running := by simp [Countdown.running, Countdown.take, TimerRow.resume]
  set := by
    obtain ⟨first, hset⟩ := h.set
    exact ⟨first, mem_append_left _ hset⟩
  since := by
    intro t ht
    cases ht
    rw [filterMap_append]
    exact mem_append_right _ (mem_singleton_self _)
  due := by
    intro later honward hfits
    have hsince : c.since = none := by
      rw [← not_isSome_iff_eq_none]
      intro hrunning
      rw [h.running.mp hrunning] at hpaused
      cases hpaused
    have hlt := h.now_lt rfl hfits
    obtain ⟨x, hx, hleft⟩ := h.kept now.toNat (honward.of_snoc rfl) hfits.of_append hsince
    have hnow : now.toInt64.toInt = now.toNat := toInt_toInt64 (by omega)
    have hsum : now.toInt64.toInt + x.toInt = now.toNat + (c.total - c.spent : ℕ) := by
      rw [hleft, hnow]
    refine ⟨Int64.ofInt (now.toNat + (c.total - c.spent : ℕ)), ?_, fun t ht => ?_⟩
    · change SqlNumber.stored _ = _
      rw [hx, getD_some, SqlNumber.arith_integer hsum (by omega) (by omega)]
      rfl
    · cases ht
      exact Int64.toInt_ofInt_of_le (by omega) (by omega)
  kept := by
    intro later _ _ hsince
    cases hsince
  blank _ := rfl

theorem left {now : ℕ} (honward : Onward marks now) (hfits : TimerMark.Fits marks) :
    ∃ timer, r.toTimer = some timer ∧ timer.left now = c.left now := by
  obtain ⟨d, hd, hdue⟩ := h.due now honward hfits
  cases hsince : c.since with
  | none =>
    have hpaused : r.paused = true := by
      cases hp : r.paused with
      | true => rfl
      | false => simpa [Countdown.running, hsince] using h.running.mpr hp
    obtain ⟨x, hx, hleft⟩ := h.kept now honward hfits hsince
    have hread := toNat_toUInt64 (x := x) (by omega)
    refine ⟨_, by simp only [TimerRow.toTimer, hd, hx]; rfl, ?_⟩
    rw [Countdown.left_halted hsince]
    simp only [StoredTimer.left, hpaused, if_true, map_some, getD_some]
    omega
  | some t =>
    have harmed : r.paused = false := h.running.mp (by simp [Countdown.running, hsince])
    have hdue := hdue t hsince
    have hread := toNat_toUInt64 (x := d) (by omega)
    have hle : t ≤ now := honward.le_of_mem (h.since t hsince)
    refine ⟨_, by simp only [TimerRow.toTimer, hd, h.blank harmed]; rfl, ?_⟩
    rw [Countdown.left_running hsince]
    simp only [StoredTimer.left, harmed, if_false, Bool.false_eq_true]
    omega

omit h

end Counts

namespace TimerSystem
open TimerMark

/-- What any run leaves of a timer: nothing before it is set, the countdown of its row while it has
one, and a claim only as its last mark, of a running timer that nobody cancelled. -/
structure Told (id : TimerId) (s : TimerSystem) (marks : List TimerMark) : Prop where
  unused : s.timers.seq < id → marks = []
  live : ∀ r, s.timers.get id = some r → ∃ c, Counts marks r c
  last : ∀ before after, marks = before ++ .fired :: after →
    after = [] ∧ .cancelled ∉ before ∧ ∃ c, countdown before = some c ∧ c.running

variable {marks : List TimerMark}

variable {m : TimerMark}

/-- Marks without a claim have their first one at the end. -/
theorem snoc_eq_fired {before after : List TimerMark} (hunfired : .fired ∉ marks)
    (h : marks ++ [m] = before ++ .fired :: after) : m = .fired ∧ before = marks ∧ after = [] := by
  obtain ⟨rest, rfl, hrest⟩ | ⟨rest, rfl, hrest⟩ := append_eq_append_iff.mp h
  · cases rest with
    | nil =>
      rw [nil_append, List.cons.injEq] at hrest
      exact ⟨hrest.1, append_nil _, hrest.2.symm⟩
    | cons m' rest => simp at hrest
  · cases rest with
    | nil =>
      rw [nil_append, List.cons.injEq] at hrest
      exact ⟨hrest.1.symm, (append_nil _).symm, hrest.2⟩
    | cons m' rest =>
      rw [cons_append, List.cons.injEq] at hrest
      rw [← hrest.1] at hunfired
      exact absurd (mem_append_right before (.head _)) hunfired

variable {id : TimerId} {t : TimerSystem}

theorem Told.noted {r : TimerRow} {c : Countdown} (hm : m ≠ .fired) (hc : Counts marks r c)
    (hid : id ≤ t.timers.seq)
    (hlive : ∀ r', t.timers.get id = some r' → ∃ c', Counts (marks ++ [m]) r' c') :
    Told id t (marks ++ [m]) where
  unused hlt := absurd hlt (Nat.not_lt.mpr hid)
  live := hlive
  last _ _ heq := absurd (snoc_eq_fired hc.unfired heq).1 hm

variable {s : TimerSystem}

theorem Told.step {m : Option TimerMark} (h : Told id s marks)
    (hmoves : TimerTable.Moves id s.timers t.timers m) : Told id t (marks ++ m.toList) := by
  have hused : ∀ r, s.timers.get id = some r → s.timers.seq ≥ id :=
    fun r hr => AutoTable.get_le_seq hr
  cases hmoves with
  | still hseq hget =>
    rw [toList_none, append_nil]
    exact ⟨fun hid => h.unused (by omega), fun r hr => h.live r (hget r hr), h.last⟩
  | armed timer delay now ha hb hget hdue =>
    obtain rfl := h.unused ha
    refine ⟨fun hid => absurd hid (by omega), fun r hr => ?_, fun before after heq => ?_⟩
    · cases hget.symm.trans hr
      exact ⟨_, Counts.start hdue⟩
    · have hm := snoc_eq_fired not_mem_nil heq
      cases hm.1
  | paused r now hseq ha harmed hb =>
    obtain ⟨c, hc⟩ := h.live r ha
    refine Told.noted TimerMark.noConfusion hc (hseq ▸ hused r ha) fun r' hr' => ?_
    cases hb.symm.trans hr'
    exact ⟨_, hc.pause harmed⟩
  | resumed r now hseq ha hpaused hb =>
    obtain ⟨c, hc⟩ := h.live r ha
    refine Told.noted TimerMark.noConfusion hc (hseq ▸ hused r ha) fun r' hr' => ?_
    cases hb.symm.trans hr'
    exact ⟨_, hc.resume hpaused⟩
  | fired r hseq ha harmed hb =>
    obtain ⟨c, hc⟩ := h.live r ha
    have hid := hused r ha
    refine ⟨fun hlt => absurd hlt (by omega), fun r' hr' => ?_, fun before after heq => ?_⟩
    · cases hb.symm.trans hr'
    · obtain ⟨-, rfl, rfl⟩ := snoc_eq_fired hc.unfired heq
      exact ⟨rfl, hc.uncancelled, c, hc.countdown, hc.running.mpr harmed⟩
  | cancelled r hseq ha hb =>
    obtain ⟨c, hc⟩ := h.live r ha
    refine Told.noted TimerMark.noConfusion hc (hseq ▸ hused r ha) fun r' hr' => ?_
    cases hb.symm.trans hr'

theorem told_run (id : TimerId) {es : List TimerEvent} (hrun : timerMachine.run .init es = some s) :
    Told id s (timerMachine.trace (mark id) .init es) := by
  have hinit : Told id .init [] := by
    refine ⟨fun _ => rfl, fun r hr => ?_, fun before after heq => ?_⟩
    · cases hr
    · simp at heq
  have hstep : ∀ u log e v, True → Told id u log → timerMachine.step u e = some v →
      Told id v (log ++ (mark id u e).toList) :=
    fun u log e v _ hu hv => hu.step (moves_step hv)
  have htold := Machine.invariant_trace (G := fun _ _ => True) hstep hinit
    (Machine.along_of_forall (fun _ _ => trivial) _ _) hrun
  simpa using htold

/-- Pausing conserves time: while the clock does not go back and the instants fit the store's
columns, the time left is the delay less the time spent running. A paused timer is not claimed, and
a timer is claimed at most once, while it runs and nobody has cancelled it. -/
theorem pausing_conserves_time {es : List TimerEvent} {s : TimerSystem}
    (hrun : timerMachine.run .init es = some s) (id : TimerId) :
    (∀ r now, s.timers.get id = some r →
      Onward (timerMachine.trace (mark id) .init es) now →
      TimerMark.Fits (timerMachine.trace (mark id) .init es) →
      ∃ c timer, countdown (timerMachine.trace (mark id) .init es) = some c ∧
        r.toTimer = some timer ∧ timer.left now = c.total - c.ran now) ∧
    (∀ r fault timer, s.timers.get id = some r → r.paused = true →
      s.claims fault = some timer → timer.id ≠ id) ∧
    (timerMachine.trace (mark id) .init es).count .fired ≤ 1 ∧
    ∀ before after, timerMachine.trace (mark id) .init es = before ++ .fired :: after →
      .cancelled ∉ before ∧ ∃ c, countdown before = some c ∧ c.running := by
  have htold := told_run id hrun
  refine ⟨fun r now hr honward hfits => ?_, fun r fault timer hr hpaused hclaim hid => ?_, ?_,
    fun before after heq => (htold.last before after heq).2⟩
  · obtain ⟨c, hc⟩ := htold.live r hr
    obtain ⟨timer, hread, hleft⟩ := hc.left honward hfits
    exact ⟨c, timer, hc.countdown, hread, hleft⟩
  · obtain ⟨r', hr', harmed, -⟩ := TimerTable.takeIfArmed_eq_some (taken_of_claims hclaim)
    rw [hid] at hr'
    cases hr.symm.trans hr'
    rw [hpaused] at harmed
    cases harmed
  · by_cases hmem : .fired ∈ timerMachine.trace (mark id) .init es
    · obtain ⟨before, after, heq, hbefore⟩ := List.eq_append_cons_of_mem hmem
      obtain ⟨rfl, -, -⟩ := htold.last before after heq
      simp [heq, List.count_eq_zero.mpr hbefore]
    · rw [List.count_eq_zero.mpr hmem]
      omega

/-- A timer of ten milliseconds that ran from 100 to 103 and from 200 on. -/
def pausedOnce : List TimerEvent :=
  [.timerSet 1 1 "" (some 10000000) 100 none, .timerPause 1 1 103 none, .timerResume 1 1 200 none]

instance (marks : List TimerMark) (now : ℕ) : Decidable (Onward marks now) :=
  inferInstanceAs (Decidable (List.Pairwise _ _))

theorem pausing_conserves_time_once :
    ∃ s r timer, timerMachine.run .init pausedOnce = some s ∧ s.timers.get 1 = some r ∧
      r.toTimer = some timer ∧ timer.left 204 = 3 := by
  obtain ⟨s, hs, hget⟩ := (Option.any_eq_true
    (fun s : TimerSystem => (s.timers.get 1).isSome) (timerMachine.run .init pausedOnce)).mp
      (by decide)
  obtain ⟨r, hr⟩ := Option.isSome_iff_exists.mp hget
  have hmarks : timerMachine.trace (mark 1) .init pausedOnce =
      [.set 10 100, .paused 103, .resumed 200] := by decide
  have hfits : TimerMark.Fits (timerMachine.trace (mark 1) .init pausedOnce) := by
    rw [hmarks]
    intro delay now hset t ht
    have hdelay : delay = 10 ∧ now = 100 := by simpa using hset
    have ht : t = 100 ∨ t = 103 ∨ t = 200 := by simpa [reading] using ht
    omega
  obtain ⟨c, timer, hc, hread, hleft⟩ :=
    (pausing_conserves_time hs 1).1 r 204 hr (by decide) hfits
  refine ⟨s, r, timer, hs, hr, hread, ?_⟩
  rw [hmarks] at hc
  cases hc
  rw [hleft]
  decide

/-- Just below the largest instant of the signed columns, a pause right after setting a timer finds
no time left of it. -/
theorem unheld_instant_loses_time :
    ∃ es s r timer c, timerMachine.run .init es = some s ∧ s.timers.get 1 = some r ∧
      Onward (timerMachine.trace (mark 1) .init es) (2 ^ 63 - 5) ∧
      countdown (timerMachine.trace (mark 1) .init es) = some c ∧
      c.left (2 ^ 63 - 5) = 10 ∧ r.toTimer = some timer ∧ timer.left (2 ^ 63 - 5) = 0 := by
  obtain ⟨s, hs, hlost⟩ := (Option.any_eq_true
    (fun s : TimerSystem =>
      ((s.timers.get 1).bind TimerRow.toTimer).any fun timer => timer.left (2 ^ 63 - 5) = 0)
    (timerMachine.run .init
      [.timerSet 1 1 "" (some 10000000) 9223372036854775803 none,
        .timerPause 1 1 9223372036854775803 none])).mp (by decide +kernel)
  obtain ⟨timer, htimer, hleft⟩ := (Option.any_eq_true _ _).mp hlost
  obtain ⟨r, hr, hread⟩ := Option.bind_eq_some_iff.mp htimer
  exact ⟨_, s, r, timer, ⟨10, 0, none⟩, hs, hr, by decide, by decide, by decide, hread,
    of_decide_eq_true hleft⟩

end TimerSystem

end Soloist
