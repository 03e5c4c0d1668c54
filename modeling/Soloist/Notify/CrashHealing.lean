import Soloist.Notify.CrashPolicy

/-! What the notification reactor makes of the crashes it is told of, and the runs in which each
crash is healed or announced. -/
open List Option

namespace Soloist.Notify
namespace CrashWatch
variable {s t : CrashWatch} {e : NoticeStep} {n : NotificationReactor} {a : ActorId}
  {r r' : CrashRecord} {id : ProcessId} {kind : AttentionKind} {fault : Bool}

/-- The reactor reads what the supervisor's registry declares. -/
theorem entries_any (s : CrashWatch) (id : ProcessId) :
    (s.entries id).any NoticeEntry.autoRestart = s.autoRestarts id := by
  unfold entries autoRestarts
  cases s.core.fleet.registry id with
  | none => rfl
  | some m => rfl

theorem entries_eq_none (h : s.entries id = none) : s.core.fleet.registry id = none :=
  map_eq_none_iff.mp h

/-- What the reactor's next access makes of a signal it is on. -/
inductive Heard (s : CrashWatch) (kind : AttentionKind) (id : ProcessId) (stage : Stage) : Prop
  | on (htells : stage.Tells kind id) (hnone : s.notifier.stage.concludes stage = none)
      (hsurvived : s.notifier.stage.survived = true → stage.survived = true)
      (hviewed : s.notifier.stage.process ≠ none → stage.process ≠ none)
  | spared (hidle : stage = .idle) (hspared : s.notifier.stage.concludes stage = some .spared)
      (hkind : kind = .crashed) (hearly : s.notifier.stage.survived = false)
      (hauto : s.autoRestarts id = true)
  | missed (hidle : stage = .idle) (hmissed : s.notifier.stage.concludes stage = some .missed)
      (hearly : s.notifier.stage.process = none) (hgone : s.core.fleet.registry id = none)
  | alerted (hidle : stage = .idle) (halerted : s.notifier.stage.concludes stage = some .alerted)

variable {stage : Stage}

theorem Heard.goes_on {before : Stage} (hstage : s.notifier.stage = before)
    (htells : stage.Tells kind id) (hnone : before.concludes stage = none)
    (hsurvived : before.survived = true → stage.survived = true)
    (hviewed : before.process ≠ none → stage.process ≠ none) : s.Heard kind id stage := by
  subst hstage
  exact .on htells hnone hsurvived hviewed

theorem route_all (kind : AttentionKind) {presence : Presence}
    (haway : presence.focused = true → presence.viewing ≠ some id) :
    route id kind presence .all ≠ .suppressed := by
  unfold route
  have hadmits : NotificationLevel.all.admits kind.severity = true := rfl
  rw [hadmits]
  cases hfocused : presence.focused with
  | false =>
    intro h
    cases h
  | true =>
    intro h
    have h : (if presence.viewing = some id then Delivery.suppressed else .toast) = .suppressed := h
    rw [if_neg (haway hfocused)] at h
    cases h

/-- A signal of a crash goes on until it is alerted, unless the process is gone or restarts
itself. -/
theorem heard_advance (htells : s.notifier.stage.Tells kind id)
    (hkind : kind = .crashed ∨ kind = .restartExhausted)
    (hattentive : s.Attentive (.notice (.advance fault))) (h : s.reads.advance fault = some n) :
    s.Heard kind id n.stage := by
  have hreads : s.reads.stage = s.notifier.stage := rfl
  unfold NotificationReactor.advance at h
  rw [hreads] at h
  have hattentive : s.Heeds fault s.notifier.stage := hattentive
  cases hstage : s.notifier.stage with
  | idle =>
    rw [hstage] at htells
    cases htells
  | classified i trigger =>
    rw [hstage] at h htells hattentive
    obtain ⟨rfl, rfl⟩ := htells
    cases h
    have henabled : (if fault then Notifications.default else s.reads.notifications).enabled = true := by
      cases fault with
      | true => rfl
      | false => exact hattentive rfl
    rw [henabled]
    exact .goes_on hstage ⟨rfl, rfl⟩ rfl id (fun hne => absurd rfl hne)
  | admitted i trigger notifications =>
    rw [hstage] at h htells
    obtain ⟨rfl, rfl⟩ := htells
    dsimp only at h
    split at h
    next view hview =>
      cases h
      exact .goes_on hstage ⟨rfl, rfl⟩ rfl id (fun _ => some_ne_none _)
    next hnone =>
      cases h
      refine .missed rfl ?_ ?_ (entries_eq_none hnone)
      · rw [hstage]
        rfl
      · rw [hstage]
        rfl
  | viewed i trigger notifications view =>
    rw [hstage] at h htells
    obtain ⟨rfl, rfl⟩ := htells
    have hauto : (s.reads.registered i).any NoticeEntry.autoRestart = s.autoRestarts i :=
      s.entries_any i
    dsimp only at h
    rw [hauto] at h
    by_cases hsurvives : survivesRetryPolicy kind (s.autoRestarts i) = true
    · have htrigger : (Trigger.recognised kind).kind = kind := rfl
      rw [htrigger, if_pos hsurvives] at h
      cases h
      exact .goes_on hstage ⟨rfl, rfl⟩ rfl (fun _ => rfl) (fun _ => some_ne_none _)
    · have htrigger : (Trigger.recognised kind).kind = kind := rfl
      rw [htrigger, if_neg hsurvives] at h
      cases h
      rcases hkind with rfl | rfl
      · refine .spared rfl ?_ rfl ?_ ?_
        · rw [hstage]
          rfl
        · rw [hstage]
          rfl
        · have hnot : (!s.autoRestarts i) = false := Bool.eq_false_iff.mpr hsurvives
          simpa using hnot
      · exact absurd rfl hsurvives
  | surviving i trigger notifications view =>
    rw [hstage] at h htells hattentive
    obtain ⟨rfl, rfl⟩ := htells
    cases h
    have hlevel : (if fault then ProjectSettings.default
        else s.reads.projectSettings view.project).effectiveLevelFor view.label = .all := by
      cases fault with
      | true => rfl
      | false => exact hattentive rfl
    exact .goes_on hstage ⟨rfl, rfl, hlevel⟩ rfl (fun _ => rfl) (fun _ => some_ne_none _)
  | leveled i trigger notifications view level =>
    rw [hstage] at h htells hattentive
    obtain ⟨rfl, rfl, rfl⟩ := htells
    have haway : s.notifier.presence.focused = true → s.notifier.presence.viewing ≠ some i :=
      hattentive
    dsimp only at h
    split at h
    next notification hnotification =>
      cases h
      exact .goes_on hstage ⟨rfl, rfl, route_all kind haway⟩ rfl (fun _ => rfl)
        (fun _ => some_ne_none _)
    next hnone =>
      rcases hkind with rfl | rfl
      · cases hnone
      · cases hnone
  | decided alert =>
    rw [hstage] at h htells
    obtain ⟨rfl, rfl, hdelivery⟩ := htells
    cases h
    unfold NotificationReactor.deliver
    split
    next hsuppressed => exact absurd hsuppressed hdelivery
    · exact .goes_on hstage ⟨rfl, rfl⟩ rfl (fun _ => rfl) (fun _ => some_ne_none _)
    · exact .goes_on hstage ⟨rfl, rfl⟩ rfl (fun _ => rfl) (fun _ => some_ne_none _)
  | raising i k =>
    rw [hstage] at h
    cases h
    refine .alerted rfl ?_
    rw [hstage]
    rfl

theorem Stage.process_of_survived (h : stage.survived = true) : stage.process ≠ none := by
  cases stage with
  | surviving | leveled | decided | raising => exact some_ne_none _
  | idle | classified | admitted | viewed => cases h

/-- What the other steps of the reactor, the user or anyone else leave: the stage, the records, and
what was there to be received. -/
structure Aside (s t : CrashWatch) : Prop where
  core : t.core = s.core
  policyOn : t.policyOn = s.policyOn
  holding : t.holding = s.holding
  crashes : t.crashes = s.crashes
  telling : t.telling = s.telling
  stage : t.notifier.stage = s.notifier.stage
  flushed : t.notifier.events = []
  kept : s.notices ⊆ t.notices
  fresh : ∀ event a, (event, some a) ∈ t.notices → (event, some a) ∈ s.notices

theorem Followed.aside (hf : s.Followed a r) (h : s.Aside t) : t.Followed a r := by
  obtain ⟨hcore, hpolicy, hholding, -, htelling, hstage, -, hkept, -⟩ := h
  have hauto : t.autoRestarts r.process = s.autoRestarts r.process := by
    unfold autoRestarts
    rw [hcore]
  constructor
  · rw [hcore]
    exact hf.ended
  · rw [hcore]
    exact hf.left
  · unfold Unpublished Heralded
    rw [hcore, hpolicy]
    exact hf.pursued
  · exact hf.carried
  · rw [hpolicy]
    exact hf.retrying
  · unfold Unpublished
    rw [hcore, htelling, hstage]
    intro hpending
    rcases hf.known hpending with hunpublished | hnotice | htold
    · exact .inl hunpublished
    · exact .inr (.inl (hkept hnotice))
    · exact .inr (.inr htold)
  · unfold Survived Viewed
    rw [hcore, htelling, hstage, hauto]
    exact hf.declined
  · rw [hauto]
    exact hf.spared
  · exact hf.present
  · unfold Viewed
    rw [hcore, htelling, hstage, hholding]
    intro hheld
    rcases hf.exhausted hheld with halerted | hviewed | ⟨hregistered, hheld | hnotice | htold⟩
    · exact .inl halerted
    · exact .inr (.inl hviewed)
    · exact .inr (.inr ⟨hregistered, .inl hheld⟩)
    · exact .inr (.inr ⟨hregistered, .inr (.inl (hkept hnotice))⟩)
    · exact .inr (.inr ⟨hregistered, .inr (.inr htold)⟩)

theorem Watching.aside (hs : s.Watching) (h : s.Aside t) : t.Watching where
  held := h.core ▸ hs.held
  sole := h.core ▸ hs.sole
  ordered := h.core ▸ hs.ordered
  flushed := h.flushed
  mail := h.core ▸ hs.mail
  recorded := by
    rw [h.core, h.crashes]
    exact hs.recorded
  policy := by
    rw [h.core, h.crashes, h.policyOn]
    exact hs.policy
  holding := by
    rw [h.core, h.crashes, h.holding]
    exact hs.holding
  tells event a hmem := by
    rw [h.crashes]
    exact hs.tells event a (h.fresh event a hmem)
  told := by
    rw [h.crashes, h.telling, h.stage]
    exact hs.told
  followed a r hr := by
    rw [h.crashes] at hr
    exact (hs.followed a r hr).aside h

theorem aside_flush (hstage : n.stage = s.notifier.stage) : s.Aside (s.flush n) where
  core := rfl
  policyOn := rfl
  holding := rfl
  crashes := rfl
  telling := rfl
  stage := hstage
  flushed := rfl
  kept := subset_append_left _ _
  fresh event a hmem := by
    rcases mem_append.mp hmem with hold | hnew
    · exact hold
    · obtain ⟨event', -, heq⟩ := List.mem_map.mp hnew
      cases heq

theorem clearUnread_stage (n : NotificationReactor) (id : ProcessId) :
    (n.clearUnread id).stage = n.stage := by
  unfold NotificationReactor.clearUnread
  split
  · rfl
  · rfl

theorem aside_step (hflushed : s.notifier.events = []) (hrecv : e ≠ .recv)
    (hadvance : ∀ fault, e ≠ .advance fault) (h : s.noticeStep e = some t) : s.Aside t := by
  cases e with
  | recv => exact absurd rfl hrecv
  | advance fault => exact absurd rfl (hadvance fault)
  | register entry | update i entry | remove i | announceRemoval i | lag dropped => cases h
  | publish event =>
    simp only [noticeStep] at h
    split_ifs at h
    cases h
    refine ⟨rfl, rfl, rfl, rfl, rfl, rfl, hflushed, subset_append_left _ _, ?_⟩
    intro event' a hmem
    rcases mem_append.mp hmem with hold | hnew
    · exact hold
    · cases mem_singleton.mp hnew
  | setNotifications notifications | setProjectSettings project settings | setPresence presence =>
    cases h
    exact aside_flush rfl
  | see i =>
    obtain ⟨n, hn, rfl⟩ := map_eq_some_iff.mp h
    simp only [NotificationReactor.step] at hn
    split_ifs at hn
    cases hn
    exact aside_flush (clearUnread_stage s.reads i)
  | clearAttention i =>
    cases h
    exact aside_flush (clearUnread_stage s.reads i)
  | clearAllAttention =>
    obtain ⟨n, hn, rfl⟩ := map_eq_some_iff.mp h
    simp only [NotificationReactor.step] at hn
    split at hn
    · cases hn
      exact aside_flush rfl
    · cases hn
      exact aside_flush rfl

theorem recv_eq_some (h : s.noticeStep .recv = some t) : s.notifier.stage = .idle ∧
    ∃ event telling notices, s.notices = (event, telling) :: notices ∧
      t = ({ s with notices, telling }.flush (s.reads.react event)) := by
  simp only [noticeStep] at h
  split at h
  next event telling notices hidle hnotices =>
    cases h
    exact ⟨hidle, event, telling, notices, hnotices, rfl⟩
  next => cases h

theorem react_tells {event : NoticeEvent}
    (h : event = .processStatusChanged id .crashed ∧ kind = .crashed ∨
      event = .restartExhausted id ∧ kind = .restartExhausted) :
    (s.reads.react event).stage.Tells kind id := by
  rcases h with ⟨rfl, rfl⟩ | ⟨rfl, rfl⟩
  · exact ⟨rfl, rfl⟩
  · exact ⟨rfl, rfl⟩

theorem watching_recv (hs : s.Watching) (h : s.noticeStep .recv = some t) : t.Watching := by
  obtain ⟨hidle, event, telling, notices, hnotices, rfl⟩ := recv_eq_some h
  have hhead : (event, telling) ∈ s.notices := by
    rw [hnotices]
    exact .head _
  have hrest : ∀ p ∈ notices, p ∈ s.notices := by
    intro p hp
    rw [hnotices]
    exact .tail _ hp
  have hunseen : ∀ a, ¬s.Viewed a := by
    intro a hviewed
    apply hviewed.2
    rw [hidle]
    rfl
  have hunsurvived : ∀ a, ¬s.Survived a := by
    intro a hsurvived
    have hstage := hsurvived.2
    rw [hidle] at hstage
    cases hstage
  have huntold : ∀ kind id, ¬s.notifier.stage.Tells kind id := by
    intro kind id htells
    rw [hidle] at htells
    exact htells
  refine
    { held := hs.held, sole := hs.sole, ordered := hs.ordered, flushed := rfl, mail := hs.mail,
      recorded := hs.recorded, policy := hs.policy, holding := hs.holding,
      tells := ?_, told := ?_, followed := ?_ }
  · intro event' a hmem
    rcases mem_append.mp hmem with hold | hnew
    · exact hs.tells event' a (hrest _ hold)
    · obtain ⟨event₀, -, heq⟩ := List.mem_map.mp hnew
      cases heq
  · intro a ha hstage
    obtain rfl : telling = some a := ha
    obtain ⟨r, hr, hevent⟩ := hs.tells event a hhead
    rcases hevent with rfl | ⟨rfl, hheld⟩
    · exact ⟨r, .crashed, hr, react_tells (.inl ⟨rfl, rfl⟩), .inl rfl⟩
    · exact ⟨r, .restartExhausted, hr, react_tells (.inr ⟨rfl, rfl⟩), .inr ⟨rfl, hheld⟩⟩
  · intro a r hr
    have hf := hs.followed a r hr
    refine
      { ended := hf.ended, left := hf.left, pursued := hf.pursued, carried := hf.carried,
        retrying := hf.retrying, known := ?_, declined := ?_, spared := hf.spared,
        present := hf.present, exhausted := ?_ }
    · intro hpending
      rcases hf.known hpending with hunpublished | hnotice | ⟨-, htells⟩
      · exact .inl hunpublished
      · rw [hnotices] at hnotice
        rcases mem_cons.mp hnotice with heq | hold
        · cases heq
          exact .inr (.inr ⟨rfl, react_tells (.inl ⟨rfl, rfl⟩)⟩)
        · exact .inr (.inl (mem_append_left _ hold))
      · exact absurd htells (huntold _ _)
    · intro hstanding hdeclined
      rcases hf.declined hstanding hdeclined with halerted | ⟨hpending, hsurvived | ⟨hauto, hseen⟩⟩
      · exact .inl halerted
      · exact absurd hsurvived (hunsurvived a)
      · rcases hseen with hviewed | hregistered
        · exact absurd hviewed (hunseen a)
        · exact .inr ⟨hpending, .inr ⟨hauto, .inr hregistered⟩⟩
    · intro hheld
      rcases hf.exhausted hheld with halerted | hviewed | ⟨hregistered, hnews⟩
      · exact .inl halerted
      · exact absurd hviewed.1 (hunseen a)
      refine .inr (.inr ⟨hregistered, ?_⟩)
      rcases hnews with hholding | hnotice | ⟨-, htells⟩
      · exact .inl hholding
      · rw [hnotices] at hnotice
        rcases mem_cons.mp hnotice with heq | hold
        · cases heq
          exact .inr (.inr ⟨rfl, react_tells (.inr ⟨rfl, rfl⟩)⟩)
        · exact .inr (.inl (mem_append_left _ hold))
      · exact absurd htells (huntold _ _)

theorem conclude_cases (s : CrashWatch) (stage : Stage) :
    (∃ b notice, s.telling = some b ∧ s.notifier.stage.concludes stage = some notice ∧
      s.conclude stage = s.crashes.modify b fun r =>
        if r.notice = .alerted then r else { r with notice }) ∨
    (s.telling = none ∨ s.notifier.stage.concludes stage = none) ∧
      s.conclude stage = s.crashes := by
  unfold conclude
  cases s.telling with
  | none => exact .inr ⟨.inl rfl, rfl⟩
  | some b =>
    cases s.notifier.stage.concludes stage with
    | none => exact .inr ⟨.inr rfl, rfl⟩
    | some notice => exact .inl ⟨b, notice, rfl, rfl, rfl⟩

/-- What an access of the reactor records of a crash. -/
inductive Concluded (s : CrashWatch) (stage : Stage) (a : ActorId) (r : CrashRecord) :
    CrashRecord → Prop
  | same (h : s.telling = some a → r.notice ≠ .alerted →
      s.notifier.stage.concludes stage = none) : Concluded s stage a r r
  | noted (notice : NoticeOutcome) (htelling : s.telling = some a)
      (hbefore : r.notice ≠ .alerted)
      (hconcludes : s.notifier.stage.concludes stage = some notice) :
    Concluded s stage a r { r with notice }

theorem concluded_of_crashes (hr : s.crashes a = some r) :
    ∃ r', s.conclude stage a = some r' ∧ s.Concluded stage a r r' := by
  rcases s.conclude_cases stage with ⟨b, notice, hb, hnotice, hconclude⟩ | ⟨hnone, hconclude⟩
  · rw [hconclude]
    by_cases hab : a = b
    · subst hab
      rw [Slots.modify_self hr]
      split_ifs with halerted
      · exact ⟨r, rfl, .same fun _ hne => absurd halerted hne⟩
      · exact ⟨_, rfl, .noted notice hb halerted hnotice⟩
    · rw [Slots.modify_of_ne hab]
      refine ⟨r, hr, .same fun ha => ?_⟩
      rw [hb] at ha
      exact absurd (some.inj ha).symm hab
  · rw [hconclude]
    refine ⟨r, hr, .same fun ha _ => ?_⟩
    rcases hnone with hnone | hnone
    · rw [ha] at hnone
      cases hnone
    · exact hnone

theorem concluded_back (hr' : s.conclude stage a = some r') :
    ∃ r, s.crashes a = some r ∧ s.Concluded stage a r r' := by
  have hr : ∃ r, s.crashes a = some r := by
    rcases s.conclude_cases stage with ⟨b, notice, -, -, hconclude⟩ | ⟨-, hconclude⟩
    · rw [hconclude] at hr'
      obtain ⟨r, hr, -⟩ := Slots.modify_eq_some.mp hr'
      exact ⟨r, hr⟩
    · rw [hconclude] at hr'
      exact ⟨r', hr'⟩
  obtain ⟨r, hr⟩ := hr
  obtain ⟨r'', hr'', hconcluded⟩ : ∃ r'', s.conclude stage a = some r'' ∧ _ :=
    concluded_of_crashes hr
  obtain rfl : r' = r'' := some.inj (hr'.symm.trans hr'')
  exact ⟨r, hr, hconcluded⟩

theorem Concluded.frame (h : s.Concluded stage a r r') :
    r'.process = r.process ∧ r'.outcome = r.outcome ∧ r'.verdict = r.verdict := by
  cases h with
  | same | noted => exact ⟨rfl, rfl, rfl⟩

theorem advance_eq_some (h : s.noticeStep (.advance fault) = some t) :
    ∃ n, s.reads.advance fault = some n ∧ s.notifier.stage ≠ .idle ∧
      t = { s.flush n with crashes := s.conclude n.stage } := by
  obtain ⟨n, hn, rfl⟩ := map_eq_some_iff.mp h
  refine ⟨n, hn, fun hidle => ?_, rfl⟩
  have hreads : s.reads.stage = .idle := hidle
  unfold NotificationReactor.advance at hn
  rw [hreads] at hn
  cases hn

/-- What is to come of a crash, with the reactor at a stage and a notice of its own. -/
structure Announced (s : CrashWatch) (stage : Stage) (a : ActorId) (r : CrashRecord)
    (notice : NoticeOutcome) : Prop where
  known : notice = .pending → s.Unpublished a r.process ∨
    (.processStatusChanged r.process .crashed, some a) ∈ s.notices ∨
      s.telling = some a ∧ stage.Tells .crashed r.process
  declined : r.outcome = .standing → r.verdict = .declined → notice = .alerted ∨
    notice = .pending ∧ (s.telling = some a ∧ stage.survived = true ∨
      s.autoRestarts r.process = false ∧ (s.telling = some a ∧ stage.process ≠ none ∨
        s.core.fleet.registry r.process ≠ none))
  spared : r.outcome = .standing → r.verdict = .waiting → notice = .spared →
    s.autoRestarts r.process = true
  present : r.outcome = .standing → r.verdict.undecided = true → notice ≠ .missed
  exhausted : r.outcome = .held → notice = .alerted ∨
    (s.telling = some a ∧ stage.process ≠ none) ∧ stage.kind = some .restartExhausted ∨
      s.core.fleet.registry r.process ≠ none ∧ (s.holding = some a ∨
        (.restartExhausted r.process, some a) ∈ s.notices ∨
          s.telling = some a ∧ stage.Tells .restartExhausted r.process)

theorem announced_alerted : s.Announced stage a r .alerted where
  known h := by cases h
  declined _ _ := .inl rfl
  spared _ _ h := by cases h
  present _ _ h := by cases h
  exhausted _ := .inl rfl

variable (hf : s.Followed a r)
include hf

theorem Followed.announced_apart (hapart : s.telling ≠ some a) :
    s.Announced stage a r r.notice where
  known hpending := by
    rcases hf.known hpending with hunpublished | hnotice | ⟨htelling, -⟩
    · exact .inl hunpublished
    · exact .inr (.inl hnotice)
    · exact absurd htelling hapart
  declined hstanding hdeclined := by
    rcases hf.declined hstanding hdeclined with halerted | ⟨hpending, hsurvived | ⟨hauto, hseen⟩⟩
    · exact .inl halerted
    · exact absurd hsurvived.1 hapart
    · rcases hseen with hviewed | hregistered
      · exact absurd hviewed.1 hapart
      · exact .inr ⟨hpending, .inr ⟨hauto, .inr hregistered⟩⟩
  spared := hf.spared
  present := hf.present
  exhausted hheld := by
    rcases hf.exhausted hheld with halerted | hviewed | ⟨hregistered, hnews⟩
    · exact .inl halerted
    · exact absurd hviewed.1.1 hapart
    refine .inr (.inr ⟨hregistered, ?_⟩)
    rcases hnews with hholding | hnotice | ⟨htelling, -⟩
    · exact .inl hholding
    · exact .inr (.inl hnotice)
    · exact absurd htelling hapart

theorem Followed.announced_on
    (hbefore : s.notifier.stage.Tells kind r.process) (htells : stage.Tells kind r.process)
    (hsurvived : s.notifier.stage.survived = true → stage.survived = true)
    (hviewed : s.notifier.stage.process ≠ none → stage.process ≠ none) :
    s.Announced stage a r r.notice where
  known hpending := by
    rcases hf.known hpending with hunpublished | hnotice | ⟨htelling, hcrashed⟩
    · exact .inl hunpublished
    · exact .inr (.inl hnotice)
    · obtain rfl : kind = .crashed := some.inj (hbefore.kind.symm.trans hcrashed.kind)
      exact .inr (.inr ⟨htelling, htells⟩)
  declined hstanding hdeclined := by
    rcases hf.declined hstanding hdeclined with halerted | ⟨hpending, hearly | ⟨hauto, hseen⟩⟩
    · exact .inl halerted
    · exact .inr ⟨hpending, .inl ⟨hearly.1, hsurvived hearly.2⟩⟩
    · rcases hseen with hseen | hregistered
      · exact .inr ⟨hpending, .inr ⟨hauto, .inl ⟨hseen.1, hviewed hseen.2⟩⟩⟩
      · exact .inr ⟨hpending, .inr ⟨hauto, .inr hregistered⟩⟩
  spared := hf.spared
  present := hf.present
  exhausted hheld := by
    rcases hf.exhausted hheld with halerted | ⟨hseen, hexhausted⟩ | ⟨hregistered, hnews⟩
    · exact .inl halerted
    · refine .inr (.inl ⟨⟨hseen.1, hviewed hseen.2⟩, ?_⟩)
      rw [htells.kind, ← hbefore.kind]
      exact hexhausted
    refine .inr (.inr ⟨hregistered, ?_⟩)
    rcases hnews with hholding | hnotice | ⟨htelling, hexhausted⟩
    · exact .inl hholding
    · exact .inr (.inl hnotice)
    · obtain rfl : kind = .restartExhausted :=
        some.inj (hbefore.kind.symm.trans hexhausted.kind)
      exact .inr (.inr ⟨htelling, htells⟩)

theorem Followed.announced_spared
    (hbefore : s.notifier.stage.Tells .crashed r.process) (halert : r.notice ≠ .alerted)
    (hearly : s.notifier.stage.survived = false) (hauto : s.autoRestarts r.process = true) :
    s.Announced stage a r .spared where
  known h := by cases h
  declined hstanding hdeclined := by
    rcases hf.declined hstanding hdeclined with halerted | ⟨-, ⟨-, hsurvived⟩ | ⟨hplain, -⟩⟩
    · exact absurd halerted halert
    · rw [hearly] at hsurvived
      cases hsurvived
    · rw [hauto] at hplain
      cases hplain
  spared _ _ _ := hauto
  present _ _ h := by cases h
  exhausted hheld := by
    rcases hf.exhausted hheld with halerted | ⟨-, hexhausted⟩ | ⟨hregistered, hnews⟩
    · exact absurd halerted halert
    · rw [hbefore.kind] at hexhausted
      cases hexhausted
    refine .inr (.inr ⟨hregistered, ?_⟩)
    rcases hnews with hholding | hnotice | ⟨-, hexhausted⟩
    · exact .inl hholding
    · exact .inr (.inl hnotice)
    · have hkind := hbefore.kind.symm.trans hexhausted.kind
      cases hkind

/-- A crash whose process is gone when the reactor looks for it. -/
theorem Followed.announced_missed (halert : r.notice ≠ .alerted)
    (hearly : s.notifier.stage.process = none) (hgone : s.core.fleet.registry r.process = none) :
    s.Announced stage a r .missed where
  known h := by cases h
  declined hstanding hdeclined := by
    rcases hf.declined hstanding hdeclined with halerted | ⟨-, ⟨-, hsurvived⟩ | ⟨-, hseen⟩⟩
    · exact absurd halerted halert
    · exact absurd hearly (Stage.process_of_survived hsurvived)
    · rcases hseen with ⟨-, hviewed⟩ | hregistered
      · exact absurd hearly hviewed
      · exact absurd hgone hregistered
  spared _ _ h := by cases h
  present hstanding hundecided := by
    obtain ⟨hcrash, -⟩ := hf.pursued hstanding hundecided
    obtain ⟨m, join, hm, -⟩ := Fleet.crash_eq_some.mp hcrash
    rw [hgone] at hm
    cases hm
  exhausted hheld := by
    rcases hf.exhausted hheld with halerted | ⟨⟨-, hviewed⟩, -⟩ | ⟨hregistered, -⟩
    · exact absurd halerted halert
    · exact absurd hearly hviewed
    · exact absurd hgone hregistered

omit hf

/-- What the reactor's next access makes of a crash. -/
theorem announced_advance (hs : s.Watching) (hattentive : s.Attentive (.notice (.advance fault)))
    (hn : s.reads.advance fault = some n) (hbusy : s.notifier.stage ≠ .idle)
    (hr : s.crashes a = some r) (hconcluded : s.Concluded n.stage a r r') :
    s.Announced n.stage a r r'.notice := by
  have hf := hs.followed a r hr
  by_cases htelling : s.telling = some a
  · obtain ⟨r₀, kind, hr₀, htells, hkind⟩ := hs.told a htelling hbusy
    obtain rfl : r = r₀ := some.inj (hr.symm.trans hr₀)
    have hsignal : kind = .crashed ∨ kind = .restartExhausted := by
      rcases hkind with hcrashed | ⟨hexhausted, -⟩
      · exact .inl hcrashed
      · exact .inr hexhausted
    by_cases halerted : r'.notice = .alerted
    · rw [halerted]
      exact announced_alerted
    cases heard_advance htells hsignal hattentive hn with
    | on htells' hnone hsurvived hviewed =>
      cases hconcluded with
      | same => exact hf.announced_on htells htells' hsurvived hviewed
      | noted notice _ hbefore hconcludes =>
        rw [hnone] at hconcludes
        cases hconcludes
    | spared hidle hspared hcrashed hearly hauto =>
      subst hcrashed
      cases hconcluded with
      | same hsame =>
        rw [hsame htelling halerted] at hspared
        cases hspared
      | noted notice _ hbefore hconcludes =>
        rw [hspared] at hconcludes
        cases hconcludes
        exact hf.announced_spared htells hbefore hearly hauto
    | missed hidle hmissed hearly hgone =>
      cases hconcluded with
      | same hsame =>
        rw [hsame htelling halerted] at hmissed
        cases hmissed
      | noted notice _ hbefore hconcludes =>
        rw [hmissed] at hconcludes
        cases hconcludes
        exact hf.announced_missed hbefore hearly hgone
    | alerted hidle halert =>
      cases hconcluded with
      | same hsame =>
        rw [hsame htelling halerted] at halert
        cases halert
      | noted notice _ hbefore hconcludes =>
        rw [halert] at hconcludes
        cases hconcludes
        exact announced_alerted
  · cases hconcluded with
    | same => exact hf.announced_apart htelling
    | noted notice ha => exact absurd ha htelling

theorem watching_advance (hs : s.Watching) (hattentive : s.Attentive (.notice (.advance fault)))
    (h : s.noticeStep (.advance fault) = some t) : t.Watching := by
  obtain ⟨n, hn, hbusy, rfl⟩ := advance_eq_some h
  have hback : ∀ a r, s.crashes a = some r → ∃ r', s.conclude n.stage a = some r' ∧
      r'.process = r.process ∧ r'.outcome = r.outcome ∧ r'.verdict = r.verdict := by
    intro a r hr
    obtain ⟨r', hr', hconcluded⟩ := concluded_of_crashes hr
    exact ⟨r', hr', hconcluded.frame⟩
  refine
    { held := hs.held, sole := hs.sole, ordered := hs.ordered, flushed := rfl, mail := hs.mail,
      recorded := ?_, policy := ?_, holding := ?_, tells := ?_, told := ?_, followed := ?_ }
  · intro id a hcrash
    obtain ⟨r, hr, hprocess⟩ := hs.recorded id a hcrash
    obtain ⟨r', hr', hsame, -⟩ := hback a r hr
    exact ⟨r', hr', hsame.trans hprocess⟩
  · intro a ha
    obtain ⟨r, c, rest, call, hr, hreactor, hc, hat⟩ := hs.policy a ha
    obtain ⟨r', hr', hprocess, houtcome, hverdict⟩ := hback a r hr
    refine ⟨r', c, rest, call, hr', hreactor, hc, At.mono hat hprocess hverdict fun hstanding => ?_⟩
    exact houtcome.symm.trans hstanding
  · intro a ha
    obtain ⟨r, c, rest, hr, hheld, hreactor, hc⟩ := hs.holding a ha
    obtain ⟨r', hr', hprocess, houtcome, -⟩ := hback a r hr
    refine ⟨r', c, rest, hr', houtcome.trans hheld, hreactor, ?_⟩
    rw [hprocess]
    exact hc
  · intro event a hmem
    have hold : (event, some a) ∈ s.notices := by
      rcases mem_append.mp hmem with hold | hnew
      · exact hold
      · obtain ⟨event', -, heq⟩ := List.mem_map.mp hnew
        cases heq
    obtain ⟨r, hr, hevent⟩ := hs.tells event a hold
    obtain ⟨r', hr', hprocess, houtcome, -⟩ := hback a r hr
    refine ⟨r', hr', ?_⟩
    rw [hprocess, houtcome]
    exact hevent
  · intro a ha hstage
    obtain ⟨r, kind, hr, htells, hkind⟩ := hs.told a ha hbusy
    obtain ⟨r', hr', hprocess, houtcome, -⟩ := hback a r hr
    have hsignal : kind = .crashed ∨ kind = .restartExhausted := by
      rcases hkind with hcrashed | ⟨hexhausted, -⟩
      · exact .inl hcrashed
      · exact .inr hexhausted
    refine ⟨r', kind, hr', ?_, ?_⟩
    · rw [hprocess]
      cases heard_advance htells hsignal hattentive hn with
      | on htells' => exact htells'
      | spared hidle | missed hidle | alerted hidle => exact absurd hidle hstage
    · rw [houtcome]
      exact hkind
  · intro a r' hr'
    obtain ⟨r, hr, hconcluded⟩ := concluded_back hr'
    have hf := hs.followed a r hr
    have hnews := announced_advance hs hattentive hn hbusy hr hconcluded
    obtain ⟨hprocess, houtcome, hverdict⟩ := hconcluded.frame
    constructor
    · rw [hprocess]
      exact hf.ended
    · rw [hprocess, houtcome]
      exact hf.left
    · rw [hprocess, houtcome, hverdict]
      exact hf.pursued
    · rw [houtcome, hverdict]
      exact hf.carried
    · rw [hverdict]
      exact hf.retrying
    · rw [hprocess]
      intro hpending
      rcases hnews.known hpending with hunpublished | hnotice | htold
      · exact .inl hunpublished
      · exact .inr (.inl (mem_append_left _ hnotice))
      · exact .inr (.inr htold)
    · rw [hprocess, houtcome, hverdict]
      exact hnews.declined
    · rw [hprocess, houtcome, hverdict]
      exact hnews.spared
    · rw [houtcome, hverdict]
      exact hnews.present
    · rw [hprocess, houtcome]
      intro hheld
      rcases hnews.exhausted hheld with halerted | hviewed | ⟨hregistered, hholding | hnotice | htold⟩
      · exact .inl halerted
      · exact .inr (.inl hviewed)
      · exact .inr (.inr ⟨hregistered, .inl hholding⟩)
      · exact .inr (.inr ⟨hregistered, .inr (.inl (mem_append_left _ hnotice))⟩)
      · exact .inr (.inr ⟨hregistered, .inr (.inr htold)⟩)

theorem watching_step [Sha256] {e : WatchStep} (hs : s.Watching) (hattentive : s.Attentive e)
    (hguard : s.Guarded e) (h : s.step e = some t) : t.Watching := by
  cases e with
  | core e =>
    obtain ⟨core, hcore, hoverflow, rfl⟩ := coreStep_eq_some h
    exact watching_core hs hguard hcore hoverflow
  | notice e =>
    by_cases hrecv : e = .recv
    · subst hrecv
      exact watching_recv hs h
    by_cases hadvance : ∃ fault, e = .advance fault
    · obtain ⟨fault, rfl⟩ := hadvance
      exact watching_advance hs hattentive h
    · exact hs.aside (aside_step hs.flushed hrecv (fun fault heq => hadvance ⟨fault, heq⟩) h)

end CrashWatch

/-- Once both reactors have consumed all there is, each crash has been relaunched, ended by a user
before the policy decided on it, or alerted, as long as the policy lets go of no crash of a command
that restarts itself and what the reactors decide by stays between their decisions. -/
theorem crash_healed_or_announced [Sha256] {s : CrashWatch}
    (hs : crashWatch.ReachableUnder (fun s e => s.Attentive e ∧ s.Guarded e) s)
    (hsettled : s.Settled) : ∀ a r, s.crashes a = some r →
      r.outcome = .relaunched ∨ r.outcome = .intervened ∨ r.notice = .alerted := by
  have hwatching : s.Watching := by
    refine hs.invariant ?_ ?_
    · rintro s ⟨labels, rfl⟩
      exact CrashWatch.watching_new labels
    · intro s e t hguards hs hstep
      exact CrashWatch.watching_step hs hguards.1 hguards.2 hstep
  intro a r hr
  have hf := hwatching.followed a r hr
  have hunpublished : ¬s.Unpublished a r.process := by
    rintro ⟨x, source, code, hx, hout⟩
    have hlt := hwatching.held.owned.actor_lt a x hx
    rw [hsettled.published a hlt x hx] at hout
    cases hout
  have hnotice : ∀ event, (event, some a) ∉ s.notices := by
    intro event hmem
    rw [hsettled.notices] at hmem
    cases hmem
  have htells : ∀ kind, ¬s.notifier.stage.Tells kind r.process := by
    intro kind h
    rw [hsettled.stage] at h
    exact h
  have hunknown : r.notice ≠ .pending := by
    intro hpending
    rcases hf.known hpending with h | h | ⟨-, h⟩
    · exact hunpublished h
    · exact hnotice _ h
    · exact htells _ h
  cases houtcome : r.outcome with
  | relaunched => exact .inl rfl
  | intervened => exact .inr (.inl rfl)
  | standing =>
    by_cases hundecided : r.verdict.undecided = true
    · obtain ⟨-, hon | h | ⟨source, code, hmem⟩⟩ := hf.pursued houtcome hundecided
      · obtain ⟨r', c, rest, call, -, hreactor, -⟩ := hwatching.policy a hon
        rw [hsettled.reactor] at hreactor
        cases hreactor
      · exact absurd h hunpublished
      · rw [hsettled.bus] at hmem
        cases hmem
    cases hverdict : r.verdict with
    | waiting | retrying =>
      rw [hverdict] at hundecided
      exact absurd rfl hundecided
    | «over» => exact absurd houtcome (hf.carried hverdict)
    | declined =>
      rcases hf.declined houtcome hverdict with halerted | ⟨hpending, -⟩
      · exact .inr (.inr halerted)
      · exact absurd hpending hunknown
  | held =>
    rcases hf.exhausted houtcome with halerted | ⟨⟨-, hviewed⟩, -⟩ | ⟨-, hholding | h | ⟨-, h⟩⟩
    · exact .inr (.inr halerted)
    · rw [hsettled.stage] at hviewed
      exact absurd rfl hviewed
    · obtain ⟨r', c, rest, -, -, hreactor, -⟩ := hwatching.holding a hholding
      rw [hsettled.reactor] at hreactor
      cases hreactor
    · exact absurd h (hnotice _)
    · exact absurd h (htells _)

/-- A trusted `auto_restart` command crashes. -/
def crashedCommand [Sha256] : List SupervisorEvent :=
  [.register (.command 1 [.rootDir] ⟨"npm start", none, false, true, [], []⟩),
    .setTrusted 1 (ProcessSpec.variantHash ⟨"npm start", none, false, true, [], []⟩) true,
    .launch .start 1, .proceed 0 0 none, .proceed 0 0 none, .proceed 0 0 none, .publish 0,
    .reactorRecv [], .move 0 .spawnTask, .attachJoin 0, .move 0 .poll, .move 0 .tryRecv,
    .move 0 (.spawn []), .advance 0, .publish 0, .reactorRecv [],
    .move 0 (.childExit ⟨some 1, none⟩), .move 0 .exit, .advance 0, .publish 0]

/-- The notification reactor hears of the start and of the crash, and decides on the crash. -/
def crashHeard : List WatchStep :=
  List.replicate 3 (.notice .recv) ++ List.replicate 3 (.notice (.advance false))

def policyRelaunch : List SupervisorEvent :=
  .reactorRecv [] :: List.replicate 6 (.proceed 1 0 none) ++
    [.reactorNext, .publish 1, .reactorRecv [], .reactorRecv []]

/-- Trust in the command is revoked before the policy checks it. -/
def policyRefusal [Sha256] : List SupervisorEvent :=
  .setTrusted 1 (ProcessSpec.variantHash ⟨"npm start", none, false, true, [], []⟩) false ::
    .reactorRecv [] :: List.replicate 3 (.proceed 1 0 none) ++ [.reactorNext]

def healedCrash [Sha256] : List WatchStep :=
  (crashedCommand ++ policyRelaunch).map .core ++ crashHeard ++
    List.replicate 2 (.notice .recv)

def distrustedCrash [Sha256] : List WatchStep :=
  (crashedCommand ++ policyRefusal).map .core ++ crashHeard

theorem crash_healed_or_announced_relaunched :
    letI := zeroSha
    ∃ s : CrashWatch, s.Settled ∧ (s.crashes 0).any (fun r => r.outcome = .relaunched) = true ∧
      ∀ a r, s.crashes a = some r →
        r.outcome = .relaunched ∨ r.outcome = .intervened ∨ r.notice = .alerted := by
  let _ := zeroSha
  obtain ⟨s, hs, hsettled, hrelaunched⟩ := Machine.exists_reachableUnder_of_run (M := crashWatch)
    (G := fun s e => s.Attentive e ∧ s.Guarded e) ⟨fun _ => "web", rfl⟩ healedCrash (by decide)
    (fun s => s.Settled ∧ (s.crashes 0).any (fun r => r.outcome = .relaunched) = true) (by decide)
  exact ⟨s, hsettled, hrelaunched, crash_healed_or_announced hs hsettled⟩

/-- The policy refuses to relaunch a command that is no longer trusted, and the crash is suppressed
as one that the policy retries. -/
theorem distrusted_crash_silent :
    letI := zeroSha
    ¬∀ s : CrashWatch, crashWatch.ReachableUnder CrashWatch.Attentive s → s.Settled →
      ∀ a r, s.crashes a = some r →
        r.outcome = .relaunched ∨ r.outcome = .intervened ∨ r.notice = .alerted := by
  let _ := zeroSha
  intro hclaim
  obtain ⟨s, hs, hsettled, hsilent⟩ := Machine.exists_reachableUnder_of_run (M := crashWatch)
    (G := CrashWatch.Attentive) ⟨fun _ => "web", rfl⟩ distrustedCrash (by decide)
    (fun s => s.Settled ∧ s.crashes 0 = some ⟨1, .over, .standing, .spared⟩) (by decide)
  rcases hclaim s hs hsettled 0 _ hsilent with h | h | h
  · cases h
  · cases h
  · cases h

end Soloist.Notify
