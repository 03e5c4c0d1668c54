import Soloist.Mailbox.Outcomes
import Soloist.Mailbox.Presence

/-! The completion notices of one task. A report looks for the record of an earlier notice, sends
one if there is none, and records it, each under the mailbox lock by itself. -/
open List Slots

namespace Soloist

/-- How far a call has come with the notice of a task. -/
inductive NoticePhase
  | idle
  /-- It found no record of a notice, and has yet to queue one. -/
  | owing
  /-- It queued the notice, and has yet to record it. -/
  | sending (notice : AgentMessage)
  /-- It recorded the notice, and so accepted the report. -/
  | accepted (notice : AgentMessage)
  deriving DecidableEq, Repr

/-- Between the look for a record and the record itself. -/
def NoticePhase.isOpen : NoticePhase → Bool
  | owing | sending _ => true
  | _ => false

def NoticeReceipt.key (x : NoticeReceipt) : TodoCompletionKey := ⟨x.reporter, x.taskMessage⟩

namespace MailCall

def phase (k : TodoCompletionKey) : MailCall → NoticePhase
  | .notifying r => if r.key = k then .owing else .idle
  | .rostering d _ | .rostered d _ => if d.report.map Report.key = some k then .owing else .idle
  | .dispatching d =>
    if d.draft.report.map Report.key = some k then .sending d.head.message else .idle
  | .noticing r d => if r.key = k then .sending d.message else .idle
  | .flagging r d => if r.key = k then .accepted d.message else .idle
  | .returned (.reported r result) =>
    match result.notification with
    | .enqueued d => if r.key = k then .accepted d.message else .idle
    | _ => .idle
  | _ => .idle

/-- A notice is addressed to the parent, and is the only message of its send. -/
def Sound : MailCall → Prop
  | .rostering d _ | .rostered d _ => ∀ r, d.report = some r → d.addressee = .one r.parent
  | .dispatching d => ∀ r, d.draft.report = some r → d.rest = []
  | _ => True

end MailCall

namespace Facade
variable {s t : Facade} {c : Nat} {env : Surroundings} {call call' : MailCall}
  {k : TodoCompletionKey}

/-- The notices queued for the task `k`, oldest first. -/
def noticesOf (k : TodoCompletionKey) (s : Facade) : List AgentMessage :=
  (s.notices.filter fun n => n.1 = k).map Prod.snd

def phaseAt (k : TodoCompletionKey) (s : Facade) (c : Nat) : NoticePhase :=
  (s.calls c).elim .idle (MailCall.phase k)

/-- A report of `k` finds neither a record of a notice nor the durable flag. -/
def owes (k : TodoCompletionKey) (s : Facade) : FacadeEvent → Bool
  | .proceed c _ =>
    match s.calls c with
    | some (.checking r) =>
      r.key = k ∧ (s.room.state.completionNotice r.reporter r.task).isNone ∧
        ¬ (r.outcome.any fun o => o.notice = .alreadyQueued)
    | _ => false
  | _ => false

/-- The record that the bounded ring drops for another. -/
def evicted (s : Facade) : FacadeEvent → Option NoticeReceipt
  | .proceed c _ =>
    match s.calls c with
    | some (.noticing _ _) =>
      if s.room.state.completionNotices.length = maxCompletionNotices then
        s.room.state.completionNotices.head?
      else none
    | _ => none
  | _ => none

/-- A report of `k` that finds no record is the only one between its look and its record, and the
ring does not drop a record of `k`. -/
def ReportsApart (k : TodoCompletionKey) (s : Facade) (e : FacadeEvent) : Prop :=
  (s.owes k e = true → ∀ c < s.nextCall, (s.phaseAt k c).isOpen = false) ∧
    ∀ x ∈ s.evicted e, x.key ≠ k

instance (k : TodoCompletionKey) (s : Facade) (e : FacadeEvent) : Decidable (ReportsApart k s e) :=
  inferInstanceAs (Decidable ((s.owes k e = true → ∀ c < s.nextCall,
    (s.phaseAt k c).isOpen = false) ∧ ∀ x ∈ s.evicted e, x.key ≠ k))

def Recorded (k : TodoCompletionKey) (s : Facade) (m : AgentMessage) : Prop :=
  ⟨k.reporter, k.taskMessage, m.id, m.recipient⟩ ∈ s.room.state.completionNotices ∨
    s.Gone k.reporter ∨ s.Gone m.recipient

/-- A call about to send a notice that will be refused: a party is gone. -/
def Barred (s : Facade) : MailCall → Prop
  | .notifying r => s.Gone r.reporter ∨ s.Gone r.parent
  | .rostering d point => ∀ p, d.addressee = .one p →
    match point with
    | .identify | .list _ _ => s.Gone p
    | .root _ live => p ∉ live
    | .sift _ live members => p ∉ live ∧ p ∉ members
  | .rostered d members => ∀ p, d.addressee = .one p → p ∉ members
  | _ => False

/-! ### Calls -/

theorem phase_returned {reply : MailReply} (h : reply.isReport = false) :
    (MailCall.returned reply).phase k = .idle := by
  cases reply with
  | reported => cases h
  | _ => rfl

theorem phase_refused (d : Draft) (e : AgentMailboxError) :
    (MailCall.returned (d.refused e)).phase k = .idle := by
  unfold Draft.refused
  split <;> rfl

theorem Opens.notice (h : Opens s call) : call.Sound ∧ call.phase k = .idle := by
  cases h with
  | refused reply hreply => exact ⟨trivial, phase_returned hreply⟩
  | sends draft hlive hreport =>
    refine ⟨fun r hr => ?_, ?_⟩
    · rw [hreport] at hr
      cases hr
    · simp [MailCall.phase, hreport]
  | _ => exact ⟨trivial, rfl⟩

variable {project : ProjectId}

theorem not_gone_of_isAgentIn {p : ProcessId} (h : s.isAgentIn project p = true) : ¬ s.Gone p := by
  rintro ⟨-, hnone⟩
  simp [isAgentIn, hnone] at h

/-- How an access of a call that queues no message moves the notice of `k` in it. -/
inductive Handles (k : TodoCompletionKey) (s : Facade) (call call' : MailCall) : Prop
  | same (hphase : call'.phase k = call.phase k)
      (hbarred : call.phase k = .owing → s.Barred call → s.Barred call')
  | looked (r : Report) (hkey : r.key = k) (hcall : call = .checking r)
      (hcall' : call' = .notifying r)
      (hnone : s.room.state.completionNotice r.reporter r.task = none)
      (hflag : ∀ o, r.outcome = some o → o.notice ≠ .alreadyQueued)
  | refused (howing : call.phase k = .owing) (hidle : call'.phase k = .idle)

theorem Handles.of_idle (h : call.phase k = .idle) (h' : call'.phase k = .idle) :
    Handles k s call call' := by
  refine .same (h'.trans h.symm) fun howing => ?_
  rw [h] at howing
  cases howing

/-- A call with a notice still to queue is refused, or was about something else. -/
theorem Handles.of_refused (h : call.phase k = .owing ∨ call.phase k = .idle)
    (h' : call'.phase k = .idle) : Handles k s call call' := by
  rcases h with h | h
  · exact .refused h h'
  · exact .of_idle h h'

theorem phase_of_draft (d : Draft) (point : RosterPoint) (members : List ProcessId) :
    ((MailCall.rostering d point).phase k = .owing ∨ (MailCall.rostering d point).phase k = .idle) ∧
      ((MailCall.rostered d members).phase k = .owing ∨
        (MailCall.rostered d members).phase k = .idle) := by
  unfold MailCall.phase
  constructor
  · exact ite_eq_or_eq _ _ _
  · exact ite_eq_or_eq _ _ _

theorem Silent.handles (h : Silent s call call') : Handles k s call call' := by
  cases h with
  | identified d project sender => exact .same rfl fun _ h => h
  | listed d project sender live hlive =>
    refine .same rfl fun _ h p hp hmem => ?_
    exact not_gone_of_isAgentIn (hlive p hmem) (h p hp)
  | rooted d sender root live => exact .same rfl fun _ h p hp => ⟨h p hp, not_mem_nil⟩
  | kept d root id live members =>
    refine .same rfl fun _ h p hp => ?_
    obtain ⟨hlive, hmembers⟩ := h p hp
    obtain ⟨hid, hlive⟩ := not_or.mp (mem_cons.not.mp hlive)
    refine ⟨hlive, fun hmem => ?_⟩
    rcases mem_append.mp hmem with hmem | hmem
    · exact hmembers hmem
    · exact hid (mem_singleton.mp hmem)
  | dropped d root id live members =>
    refine .same rfl fun _ h p hp => ?_
    obtain ⟨hlive, hmembers⟩ := h p hp
    exact ⟨fun hmem => hlive (.tail _ hmem), hmembers⟩
  | sifted d root members => exact .same rfl fun _ h p hp => (h p hp).2
  | rosterRefused d point e => exact .of_refused (phase_of_draft d point []).1 (phase_refused d e)
  | sendRefused d members e =>
    exact .of_refused (phase_of_draft d .identify members).2 (phase_refused d e)
  | staged d stage hold hnew => exact .same rfl fun _ h => h
  | noticeFound r state hfound =>
    refine .of_idle rfl ?_
    cases state <;> rfl
  | noticeFlagged r o ho hflag => exact .of_idle rfl rfl
  | noticeOwed r hnone hflag =>
    by_cases hkey : r.key = k
    · exact .looked r hkey rfl rfl hnone hflag
    · exact .of_idle rfl (if_neg hkey)
  | notifyRefused r =>
    refine .of_refused ?_ rfl
    unfold MailCall.phase
    exact ite_eq_or_eq _ _ _
  | notified r project hlive =>
    refine .same ?_ fun _ h p hp => ?_
    · simp [MailCall.phase]
    · cases hp
      exact h.resolve_left (not_gone_of_isAgentIn hlive)
  | launchRefused l reply hreply => exact .of_idle rfl (phase_returned hreply)
  | startRefused l id reply hreply => exact .of_idle rfl (phase_returned hreply)
  | _ => exact .of_idle rfl rfl

theorem Announces.handles {e : MailEvent} (hsound : call.Sound) (h : Announces call e call') :
    Handles k s call call' := by
  cases h with
  | delivered d hstage e he =>
    refine .same ?_ fun _ h => h.elim
    unfold Dispatch.next
    cases hrest : d.rest with
    | cons head rest =>
      have hnone : d.draft.report = none := by
        cases hreport : d.draft.report with
        | none => rfl
        | some r =>
          rw [hsound r hreport] at hrest
          cases hrest
      simp [MailCall.phase, hnone]
    | nil =>
      dsimp only
      split
      next r haddressee hreport => simp [MailCall.phase, hreport]
      next hreport haddressee => simp [MailCall.phase, hreport]
      next hreport haddressee => simp [MailCall.phase, hreport]
  | _ => exact .of_idle rfl rfl

variable {tracker : Dict ProcessId (Option AgentActivity)} {parents : Dict ProcessId ProcessId}
  {board : Board}

theorem Arranges.handles (h : Arranges s call tracker parents board call') :
    Handles k s call call' := by
  cases h with
  | completed r outcome board call' hprojects hcall =>
    rcases hcall with rfl | rfl
    · exact .of_idle rfl rfl
    · exact .of_idle rfl rfl
  | flagged r d board hprojects =>
    exact .same rfl fun _ h => h.elim
  | started l id tracker reply hreply => exact .of_idle rfl (phase_returned hreply)
  | nested spawn worker parents call' hcall =>
    rcases hcall with rfl | rfl
    · exact .of_idle rfl rfl
    · exact .of_idle rfl rfl
  | _ => exact .of_idle rfl rfl

variable {op : MailboxOp}

theorem Performs.handles (h : Performs s c env call op call') :
    Handles k s call call' ∨
      ∃ r d, r.key = k ∧ call = .noticing r d ∧ call' = .flagging r d ∧
        op = .recordCompletionNotice r.reporter r.task d.message := by
  cases h with
  | claimed d hstage hclaim => exact .inl (.same rfl fun _ h => h)
  | submitted d hstage haccepted => exact .inl (.same rfl fun _ h => h)
  | released d hstage => exact .inl (.same rfl fun _ h => h)
  | recorded d now hstage => exact .inl (.same rfl fun _ h => h)
  | noticed r d =>
    by_cases hkey : r.key = k
    · exact .inr ⟨r, d, hkey, rfl, rfl, rfl⟩
    · exact .inl (.of_idle (if_neg hkey) (if_neg hkey))
  | placeRefused spawn worker first e reply hreply hfirst hrefused =>
    exact .inl (.of_idle rfl (phase_returned hreply))
  | cancelled e reply hreply => exact .inl (.of_idle rfl (phase_returned hreply))
  | _ => exact .inl (.of_idle rfl rfl)

theorem Silent.sound (hsound : call.Sound) (h : Silent s call call') : call'.Sound := by
  cases h with
  | identified | listed | rooted | kept | dropped | sifted | staged => exact hsound
  | notified r project hlive =>
    intro r' hr'
    cases hr'
    rfl
  | _ => trivial

theorem Performs.sound (hsound : call.Sound) (h : Performs s c env call op call') :
    call'.Sound := by
  cases h with
  | claimed | submitted | released | recorded => exact hsound
  | _ => trivial

theorem Announces.sound {e : MailEvent} (hsound : call.Sound) (h : Announces call e call') :
    call'.Sound := by
  cases h with
  | delivered d hstage e he =>
    unfold Dispatch.next
    split
    next head rest hrest =>
      intro r hr
      rw [hsound r hr] at hrest
      cases hrest
    · split <;> trivial
  | _ => trivial

theorem Arranges.sound (h : Arranges s call tracker parents board call') : call'.Sound := by
  cases h with
  | completed r outcome board call' hprojects hcall => rcases hcall with rfl | rfl <;> trivial
  | nested spawn worker parents call' hcall => rcases hcall with rfl | rfl <;> trivial
  | _ => trivial

theorem delivery_of_enqueue {m : MailboxState} {now : UInt64} {sender recipient : ProcessId}
    {kind : AgentMessageKind} {body : String} {todoId : Option TodoId} {d : AgentMessageDelivery}
    (h : (m.enqueue now project sender recipient kind body todoId).2 = .ok d) :
    d = ⟨⟨m.nextMessage, project, sender, recipient, kind, body, todoId⟩, .queued⟩ := by
  rcases m.enqueue_cases now project sender recipient kind body todoId with
    ⟨e, he⟩ | ⟨-, -, -, -, -, he⟩
  · rw [he] at h
    cases h
  · rw [he] at h
    cases h
    rfl

theorem noticesOf_queued (s : Facade) (c : Nat) (draft : Draft) (d : AgentMessageDelivery) :
    (s.queued c draft d).noticesOf k =
      s.noticesOf k ++ if draft.report.map Report.key = some k then [d.message] else [] := by
  unfold noticesOf queued
  rw [filter_append, map_append]
  congr 1
  cases draft.report with
  | none => simp
  | some r =>
    by_cases hkey : r.key = k
    · simp [hkey]
    · simp [hkey]

inductive NoticeTurn (k : TodoCompletionKey) (s t : Facade) (call call' : MailCall) : Prop
  | handles (h : Handles k s call call') (hnotices : t.noticesOf k = s.noticesOf k)
  | queued (r : Report) (d : AgentMessageDelivery) (op : MailboxOp) (hkey : r.key = k)
      (howing : call.phase k = .owing) (hsending : call'.phase k = .sending d.message)
      (hreport : call.report = some r) (hopen : ¬ s.Barred call)
      (hrecipient : d.message.recipient = r.parent) (hroom : s.room.step op = some t.room)
      (hposted : op.posted s.room = [d]) (hnotices : t.noticesOf k = s.noticesOf k ++ [d.message])
  | recorded (m : AgentMessage) (hsending : call.phase k = .sending m)
      (haccepted : call'.phase k = .accepted m)
      (hrecord : ⟨k.reporter, k.taskMessage, m.id, m.recipient⟩ ∈ t.room.state.completionNotices)
      (hnotices : t.noticesOf k = s.noticesOf k)

theorem Turn.notice (hsound : call.Sound) (h : Turn s c env call t) :
    ∃ call', t.calls = s.calls.put c call' ∧ call'.Sound ∧ NoticeTurn k s t call call' := by
  cases h with
  | silent h => exact ⟨_, rfl, h.sound hsound, .handles h.handles rfl⟩
  | announces h => exact ⟨_, rfl, h.sound hsound, .handles (h.handles hsound) rfl⟩
  | arranges h => exact ⟨_, rfl, h.sound, .handles h.handles rfl⟩
  | performs hroom h =>
    refine ⟨_, rfl, h.sound hsound, ?_⟩
    rcases h.handles with h | ⟨r, d, hkey, rfl, rfl, rfl⟩
    · exact .handles h rfl
    · refine .recorded d.message (if_pos hkey) (if_pos hkey) ?_ rfl
      cases hroom
      cases hkey
      exact mem_append_right _ (mem_singleton_self _)
  | queued draft members recipient d room haddressee hmember hok hroom =>
    refine ⟨_, rfl, fun r hr => rfl, ?_⟩
    have hnotices := noticesOf_queued (k := k) ({ s with room } : Facade) c draft d
    by_cases hkey : draft.report.map Report.key = some k
    · obtain ⟨r, hr, hrk⟩ := Option.map_eq_some_iff.mp hkey
      have hparent := hsound r hr
      rw [haddressee] at hparent
      cases hparent
      rw [if_pos hkey] at hnotices
      refine .queued r d _ hrk (if_pos hkey) (if_pos hkey) hr (fun hbarred => ?_) ?_ hroom
        (MailboxOp.posted_enqueue hok) hnotices
      · exact hbarred _ haddressee hmember
      · rw [delivery_of_enqueue hok]
    · rw [if_neg hkey, append_nil] at hnotices
      exact .handles (.of_idle (if_neg hkey) (if_neg hkey)) hnotices
  | queuedAll draft members ds room call' haddressee hok hroom hcall' =>
    have hnone : draft.report = none := by
      cases hreport : draft.report with
      | none => rfl
      | some r =>
        have hparent := hsound r hreport
        rw [haddressee] at hparent
        cases hparent
    refine ⟨_, rfl, ?_, .handles (.of_idle ?_ ?_) rfl⟩
    · rcases hcall' with ⟨-, rfl⟩ | ⟨d, rest, -, rfl⟩
      · trivial
      · intro r hr
        rw [hnone] at hr
        cases hr
    · simp [MailCall.phase, hnone]
    · rcases hcall' with ⟨-, rfl⟩ | ⟨d, rest, -, rfl⟩
      · rfl
      · simp [MailCall.phase, hnone]
  | _ => exact ⟨_, rfl, trivial, .handles (.of_idle rfl rfl) rfl⟩

/-! ### Records -/

/-- What a step does to the records of notices: one more, at the cost of the oldest of a full ring,
or none of a process that is gone. -/
inductive Renotes (s : Facade) (e : FacadeEvent) (t : Facade) : Prop
  | same (h : t.room.state.completionNotices = s.room.state.completionNotices)
  | records (c : Nat) (env : Surroundings) (r : Report) (d : AgentMessageDelivery)
      (he : e = .proceed c env) (hcall : s.calls c = some (.noticing r d))
      (h : t.room.state.completionNotices =
        MailboxState.pushRing maxCompletionNotices s.room.state.completionNotices
          ⟨r.reporter, r.task, d.message.id, d.message.recipient⟩)
  | forgets (p : ProcessId) (hgone : s.Gone p)
      (h : t.room.state.completionNotices = s.room.state.completionNotices.filter fun x =>
        x.reporter ≠ p ∧ x.recipient ≠ p)

theorem Turn.renotes (hcall : s.calls c = some call) (h : Turn s c env call t) :
    Renotes s (.proceed c env) t := by
  cases h with
  | performs hroom hop =>
    have hrenote := Mailroom.completionNotices_step hroom
    cases hop with
    | noticed r d => exact .records c env r d rfl hcall hrenote
    | _ => exact .same hrenote
  | queued draft members recipient d room haddressee hmember hok hroom =>
    exact .same (Mailroom.completionNotices_step hroom)
  | queuedAll draft members ds room call' haddressee hok hroom hcall' =>
    exact .same (Mailroom.completionNotices_step hroom)
  | acknowledged recipient id now d room hok hroom =>
    exact .same (Mailroom.completionNotices_step hroom)
  | _ => exact .same rfl

variable {e : FacadeEvent}

theorem Step.renotes (hrostered : Rostered s) (h : Step s e t) : Renotes s e t := by
  cases h with
  | proceeds hcall hturn => exact hturn.renotes hcall
  | errands hnext hturn =>
    cases hturn with
    | performs new he hnew hop hroom =>
      have hrenote := Mailroom.completionNotices_step hroom
      cases hop <;> exact .same hrenote
    | removes p hroom =>
      have howed : s.Owed (.processRemoved p) := by
        refine .inr (.inr ?_)
        rw [hnext]
        exact .head _
      exact .forgets p (hrostered.leaving p howed) (Mailroom.completionNotices_step hroom)
    | forgets q hroom => exact .same (Mailroom.completionNotices_step hroom)
    | _ => exact .same rfl
  | _ => exact .same rfl

theorem Recorded.step {m : AgentMessage} (hm : s.Recorded k m) (hrostered : Rostered s)
    (hapart : ReportsApart k s e) (h : Step s e t) : t.Recorded k m := by
  have hgone : ∀ {p}, s.Gone p → t.Gone p := h.registryEffect.gone
  rcases hm with hrecord | hreporter | hrecipient
  · cases h.renotes hrostered with
    | same hsame =>
      refine .inl ?_
      rw [hsame]
      exact hrecord
    | records c env r d he hcall hring =>
      have hkept : ∀ x ∈ s.room.state.completionNotices, x.key = k →
          x ∈ t.room.state.completionNotices := by
        intro x hx hkey
        rw [hring]
        refine mem_append_left _ ?_
        split_ifs with hfull
        · cases hqueue : s.room.state.completionNotices with
          | nil =>
            rw [hqueue] at hx
            cases hx
          | cons y rest =>
            rw [hqueue] at hx
            rcases mem_cons.mp hx with hx | hx
            · have hevicted : s.evicted e = some x := by
                rw [he]
                simp only [evicted, hcall, if_pos hfull]
                rw [hqueue, hx]
                rfl
              exact absurd hkey (hapart.2 x hevicted)
            · exact hx
        · exact hx
      exact .inl (hkept _ hrecord rfl)
    | forgets p hp hring =>
      by_cases hreporter : k.reporter = p
      · exact .inr (.inl (hgone (hreporter ▸ hp)))
      · by_cases hrecipient : m.recipient = p
        · exact .inr (.inr (hgone (hrecipient ▸ hp)))
        · refine .inl ?_
          rw [hring]
          exact mem_filter.mpr ⟨hrecord, decide_eq_true ⟨hreporter, hrecipient⟩⟩
  · exact .inr (.inl (hgone hreporter))
  · exact .inr (.inr (hgone hrecipient))

theorem Barred.mono (hgone : ∀ p, s.Gone p → t.Gone p) (h : s.Barred call) : t.Barred call := by
  cases call with
  | notifying r =>
    rcases h with h | h
    · exact .inl (hgone _ h)
    · exact .inr (hgone _ h)
  | rostering d point =>
    intro p hp
    cases point with
    | identify | list => exact hgone p (h p hp)
    | root | sift => exact h p hp
  | rostered d members => exact h
  | _ => exact h.elim

/-! ### One notice -/

/-- The reports of `k` never queue a second notice: who has yet to queue one while one is queued is
barred, and a notice queued is being recorded or on record. -/
structure Notified (k : TodoCompletionKey) (s : Facade) : Prop where
  sound : ∀ c call, s.calls c = some call → call.Sound
  sole : ∀ c c', (s.phaseAt k c).isOpen = true → (s.phaseAt k c').isOpen = true → c = c'
  one : (s.noticesOf k).length ≤ 1
  barred : ∀ c call, s.calls c = some call → call.phase k = .owing → s.noticesOf k ≠ [] →
    s.Barred call
  kept : ∀ m ∈ s.noticesOf k, (∃ c, s.phaseAt k c = .sending m) ∨ s.Recorded k m
  sending : ∀ c m, s.phaseAt k c = .sending m → m ∈ s.noticesOf k
  accepted : ∀ c m, s.phaseAt k c = .accepted m → m ∈ s.noticesOf k ∧ s.Recorded k m
  records : ∀ x ∈ s.room.state.completionNotices, x.key = k →
    ∃ m ∈ s.noticesOf k, x.notice = m.id ∧ x.recipient = m.recipient
  task : ∀ m ∈ s.noticesOf k, k.taskMessage < s.room.state.nextMessage ∧
    ∀ x, s.Knows x → x.id = k.taskMessage → x.sender = m.recipient
  whole : ∀ m ∈ s.noticesOf k, m.id < s.room.state.nextMessage ∧
    ∀ r, ∀ p ∈ s.room.state.inbox r, p.message.id = m.id → p.message = m

theorem notified_init : Notified k .init where
  sound c call hcall := by cases hcall
  sole c c' hc := by cases hc
  one := Nat.zero_le _
  barred c call hcall := by cases hcall
  kept m hm := by cases hm
  sending c m hc := by cases hc
  accepted c m hc := by cases hc
  records x hx := by cases hx
  task m hm := by cases hm
  whole m hm := by cases hm

theorem phaseAt_of_call (hcall : s.calls c = some call) : s.phaseAt k c = call.phase k := by
  simp [phaseAt, hcall]

/-- What a step keeps of the background of a notice: its record, the parties gone, the task and the
message behind it. -/
structure Keeps (k : TodoCompletionKey) (s t : Facade) : Prop where
  gone : ∀ p, s.Gone p → t.Gone p
  recorded : ∀ m, s.Recorded k m → t.Recorded k m
  task : ∀ m : AgentMessage, k.taskMessage < s.room.state.nextMessage ∧
    (∀ x, s.Knows x → x.id = k.taskMessage → x.sender = m.recipient) →
    k.taskMessage < t.room.state.nextMessage ∧
      ∀ x, t.Knows x → x.id = k.taskMessage → x.sender = m.recipient
  whole : ∀ m : AgentMessage, m.id < s.room.state.nextMessage ∧
    (∀ r, ∀ p ∈ s.room.state.inbox r, p.message.id = m.id → p.message = m) →
    m.id < t.room.state.nextMessage ∧
      ∀ r, ∀ p ∈ t.room.state.inbox r, p.message.id = m.id → p.message = m

theorem Step.keeps (hcorr : Corresponds s) (hrostered : Rostered s) (hapart : ReportsApart k s e)
    (h : Step s e t) : Keeps k s t := by
  obtain ⟨c, ds, filed, heffect⟩ := h.effect hcorr.placed
  have hle := heffect.room.mints.le
  refine ⟨fun p hp => h.registryEffect.gone hp, fun m hm => hm.step hrostered hapart h, ?_, ?_⟩
  · rintro m ⟨hlt, htask⟩
    refine ⟨Nat.lt_of_lt_of_le hlt hle, fun x hx hid => ?_⟩
    rcases heffect.knows hcorr.filed hx with hx | ⟨d, hd, hxd⟩
    · exact htask x hx hid
    · have hnew := (heffect.room.mints.new d hd).1
      have hxid : d.message.id = k.taskMessage := by
        rw [← hid, hxd]
        rfl
      rw [hxid] at hnew
      exact absurd hlt (Nat.not_lt.mpr hnew)
  · rintro m ⟨hlt, hwhole⟩
    refine ⟨Nat.lt_of_lt_of_le hlt hle, fun r p hp hid => ?_⟩
    rcases heffect.room.inbox r p hp with ⟨q, hq, hpq⟩ | ⟨d, hd, -, hpd⟩
    · rw [hpq] at hid ⊢
      exact hwhole r q hq hid
    · have hnew := (heffect.room.mints.new d hd).1
      rw [hpd] at hid
      rw [hid] at hnew
      exact absurd hlt (Nat.not_lt.mpr hnew)

theorem phaseAt_put (hcalls : t.calls = s.calls.put c call') (i : Nat) :
    t.phaseAt k i = if i = c then call'.phase k else s.phaseAt k i := by
  unfold phaseAt
  rw [hcalls]
  split_ifs with hi
  · rw [hi, put_self]
    rfl
  · rw [put_of_ne hi]

section Notified

theorem Notified.records_step {e : FacadeEvent} (hs : Notified k s) (hrostered : Rostered s)
    (h : Step s e t) : ∀ x ∈ t.room.state.completionNotices, x.key = k →
      ∃ m ∈ s.noticesOf k, x.notice = m.id ∧ x.recipient = m.recipient := by
  intro x hx hkey
  cases h.renotes hrostered with
  | same hsame =>
    rw [hsame] at hx
    exact hs.records x hx hkey
  | records c env r d he hcall hring =>
    rw [hring] at hx
    rcases MailboxState.mem_pushRing hx with hx | hx
    · exact hs.records x hx hkey
    · have hrkey : r.key = k := by
        rw [← hkey, hx]
        rfl
      have hphase : s.phaseAt k c = .sending d.message := by
        rw [phaseAt_of_call hcall]
        exact if_pos hrkey
      exact ⟨d.message, hs.sending c _ hphase, by rw [hx], by rw [hx]⟩
  | forgets p hgone hring =>
    rw [hring] at hx
    exact hs.records x (mem_filter.mp hx).1 hkey

theorem Notified.of_unmoved (hs : Notified k s) (hkeeps : Keeps k s t)
    (hphase : ∀ i, t.phaseAt k i = s.phaseAt k i) (hnotices : t.noticesOf k = s.noticesOf k)
    (hsound : ∀ i call, t.calls i = some call → call.Sound)
    (hbarred : ∀ i call', t.calls i = some call' → call'.phase k = .owing →
      ∃ call, s.calls i = some call ∧ call.phase k = .owing ∧ (s.Barred call → t.Barred call'))
    (hrecords : ∀ x ∈ t.room.state.completionNotices, x.key = k →
      ∃ m ∈ s.noticesOf k, x.notice = m.id ∧ x.recipient = m.recipient) : Notified k t where
  sound := hsound
  sole c c' hc hc' := by
    rw [hphase] at hc hc'
    exact hs.sole c c' hc hc'
  one := by
    rw [hnotices]
    exact hs.one
  barred c call' hcall' howing hsome := by
    rw [hnotices] at hsome
    obtain ⟨call, hcall, howing, hstill⟩ := hbarred c call' hcall' howing
    exact hstill (hs.barred c call hcall howing hsome)
  kept m hm := by
    rw [hnotices] at hm
    rcases hs.kept m hm with ⟨c, hc⟩ | hrecorded
    · exact .inl ⟨c, (hphase c).trans hc⟩
    · exact .inr (hkeeps.recorded m hrecorded)
  sending c m hc := by
    rw [hphase] at hc
    rw [hnotices]
    exact hs.sending c m hc
  accepted c m hc := by
    rw [hphase] at hc
    rw [hnotices]
    exact ⟨(hs.accepted c m hc).1, hkeeps.recorded m (hs.accepted c m hc).2⟩
  records := by
    rw [hnotices]
    exact hrecords
  task m hm := by
    rw [hnotices] at hm
    exact hkeeps.task m (hs.task m hm)
  whole m hm := by
    rw [hnotices] at hm
    exact hkeeps.whole m (hs.whole m hm)

theorem Notified.of_moved (hs : Notified k s) (hkeeps : Keeps k s t)
    (hcall : s.calls c = some call) (hcalls : t.calls = s.calls.put c call')
    (hsound : call'.Sound) (hnotices : t.noticesOf k = s.noticesOf k)
    (hrecords : ∀ x ∈ t.room.state.completionNotices, x.key = k →
      ∃ m ∈ s.noticesOf k, x.notice = m.id ∧ x.recipient = m.recipient)
    (hopen : (call'.phase k).isOpen = true → (call.phase k).isOpen = true ∨
      ∀ i, (s.phaseAt k i).isOpen = false)
    (hbarred : call'.phase k = .owing → s.noticesOf k ≠ [] → t.Barred call')
    (hkept : ∀ m, call.phase k = .sending m → call'.phase k = .sending m ∨ t.Recorded k m)
    (hsending : ∀ m, call'.phase k = .sending m → call.phase k = .sending m)
    (haccepted : ∀ m, call'.phase k = .accepted m → m ∈ s.noticesOf k ∧ t.Recorded k m) :
    Notified k t := by
  have hphase := phaseAt_put (k := k) hcalls
  have hself : s.phaseAt k c = call.phase k := phaseAt_of_call hcall
  have hother : ∀ {i y}, i ≠ c → t.calls i = some y → s.calls i = some y := by
    intro i y hi hy
    rw [hcalls, put_of_ne hi] at hy
    exact hy
  constructor
  · intro i y hy
    by_cases hi : i = c
    · rw [hi, hcalls, put_self] at hy
      cases hy
      exact hsound
    · exact hs.sound i y (hother hi hy)
  · intro i j hi hj
    have hone : ∀ {i : Nat}, i ≠ c → (s.phaseAt k i).isOpen = true →
        (call'.phase k).isOpen = true → False := by
      intro i hne hi hc
      rcases hopen hc with hc | hnone
      · exact hne (hs.sole i c hi (hself ▸ hc))
      · rw [hnone i] at hi
        cases hi
    rw [hphase] at hi hj
    split_ifs at hi hj with hic hjc hjc
    · exact hic.trans hjc.symm
    · exact (hone hjc hj hi).elim
    · exact (hone hic hi hj).elim
    · exact hs.sole i j hi hj
  · rw [hnotices]
    exact hs.one
  · intro i y hy howing hsome
    rw [hnotices] at hsome
    by_cases hi : i = c
    · rw [hi, hcalls, put_self] at hy
      cases hy
      exact hbarred howing hsome
    · exact (hs.barred i y (hother hi hy) howing hsome).mono hkeeps.gone
  · intro m hm
    rw [hnotices] at hm
    rcases hs.kept m hm with ⟨i, hi⟩ | hrecorded
    · by_cases hic : i = c
      · rw [hic, hself] at hi
        rcases hkept m hi with hstill | hrecorded
        · exact .inl ⟨c, (hphase c).trans ((if_pos rfl).trans hstill)⟩
        · exact .inr hrecorded
      · exact .inl ⟨i, (hphase i).trans ((if_neg hic).trans hi)⟩
    · exact .inr (hkeeps.recorded m hrecorded)
  · intro i m hi
    rw [hnotices]
    rw [hphase] at hi
    split_ifs at hi with hic
    · exact hs.sending c m (hself.trans (hsending m hi))
    · exact hs.sending i m hi
  · intro i m hi
    rw [hnotices]
    rw [hphase] at hi
    split_ifs at hi with hic
    · exact haccepted m hi
    · exact ⟨(hs.accepted i m hi).1, hkeeps.recorded m (hs.accepted i m hi).2⟩
  · rw [hnotices]
    exact hrecords
  · intro m hm
    rw [hnotices] at hm
    exact hkeeps.task m (hs.task m hm)
  · intro m hm
    rw [hnotices] at hm
    exact hkeeps.whole m (hs.whole m hm)

variable {r : Report}

theorem knows_of_report (hcall : s.calls c = some call) (hreport : call.report = some r) :
    s.Knows r.header := by
  refine .inr ⟨c, ?_⟩
  simp [headersAt, hcall, MailCall.headers, hreport]

variable (hs : Notified k s)
include hs

variable (hcorr : Corresponds s)
include hcorr

variable (hkeeps : Keeps k s t)
include hkeeps

theorem Notified.of_looked
    (hapart : ReportsApart k s (.proceed c env)) (hkey : r.key = k)
    (hcall : s.calls c = some (.checking r))
    (hcalls : t.calls = s.calls.put c (.notifying r))
    (hnone : s.room.state.completionNotice r.reporter r.task = none)
    (hflag : ∀ o, r.outcome = some o → o.notice ≠ .alreadyQueued)
    (hnotices : t.noticesOf k = s.noticesOf k)
    (hrecords : ∀ x ∈ t.room.state.completionNotices, x.key = k →
      ∃ m ∈ s.noticesOf k, x.notice = m.id ∧ x.recipient = m.recipient) : Notified k t := by
  have howes : s.owes k (.proceed c env) = true := by
    cases houtcome : r.outcome with
    | none => simp [owes, hcall, hkey, hnone, houtcome]
    | some o => simp [owes, hcall, hkey, hnone, houtcome, hflag o houtcome]
  have hclosed : ∀ i, (s.phaseAt k i).isOpen = false := by
    intro i
    by_cases hi : i < s.nextCall
    · exact hapart.1 howes i hi
    · have hfree := hcorr.fresh i (Nat.not_lt.mp hi)
      simp [phaseAt, hfree, NoticePhase.isOpen]
  have howing : (MailCall.notifying r).phase k = .owing := if_pos hkey
  have hidle : (MailCall.checking r).phase k = .idle := rfl
  refine hs.of_moved hkeeps hcall hcalls trivial hnotices hrecords (fun _ => .inr hclosed)
    (fun _ hsome => ?_) (fun m hm => ?_) (fun m hm => ?_) (fun m hm => ?_)
  · obtain ⟨m, hm⟩ := exists_mem_of_ne_nil _ hsome
    rcases hs.kept m hm with ⟨i, hi⟩ | hrecord | hreporter | hrecipient
    · have hopen := hclosed i
      rw [hi] at hopen
      cases hopen
    · have hfound := find?_eq_none.mp (Option.map_eq_none_iff.mp hnone) _ hrecord
      rw [← hkey] at hfound
      simp [Report.key] at hfound
    · refine .inl (hkeeps.gone _ ?_)
      rw [← hkey] at hreporter
      exact hreporter
    · have hparent : r.parent = m.recipient :=
        (hs.task m hm).2 r.header (knows_of_report hcall rfl)
          (congrArg TodoCompletionKey.taskMessage hkey)
      exact .inr (hkeeps.gone _ (hparent ▸ hrecipient))
  · rw [hidle] at hm
    cases hm
  · rw [howing] at hm
    cases hm
  · rw [howing] at hm
    cases hm

theorem Notified.of_queued
    (hcall : s.calls c = some call) (hcalls : t.calls = s.calls.put c call')
    (hsound : call'.Sound) {d : AgentMessageDelivery} {op : MailboxOp}
    (hkey : r.key = k) (howing : call.phase k = .owing)
    (hsending : call'.phase k = .sending d.message) (hreport : call.report = some r)
    (hopen : ¬ s.Barred call) (hrecipient : d.message.recipient = r.parent)
    (hroom : s.room.step op = some t.room) (hposted : op.posted s.room = [d])
    (hnotices : t.noticesOf k = s.noticesOf k ++ [d.message])
    (hrecords : ∀ x ∈ t.room.state.completionNotices, x.key = k →
      ∃ m ∈ s.noticesOf k, x.notice = m.id ∧ x.recipient = m.recipient) : Notified k t := by
  have hfirst : s.noticesOf k = [] := by
    by_contra hsome
    exact hopen (hs.barred c call hcall howing hsome)
  rw [hfirst, nil_append] at hnotices
  have hphase := phaseAt_put (k := k) hcalls
  have hself : (s.phaseAt k c).isOpen = true := by
    rw [phaseAt_of_call hcall, howing]
    rfl
  have hother : ∀ {i}, i ≠ c → (s.phaseAt k i).isOpen = false := fun hi =>
    Bool.eq_false_iff.mpr fun h => hi (hs.sole _ c h hself)
  have hknows := knows_of_report hcall hreport
  have htask : r.header.id = k.taskMessage := congrArg TodoCompletionKey.taskMessage hkey
  constructor
  · intro i y hy
    rw [hcalls] at hy
    rcases put_eq_some.mp hy with ⟨-, hy⟩ | ⟨-, hy⟩
    · exact hy ▸ hsound
    · exact hs.sound i y hy
  · intro i j hi hj
    have hat : ∀ {i : Nat}, (t.phaseAt k i).isOpen = true → i = c := by
      intro i hi
      by_contra hne
      rw [hphase, if_neg hne, hother hne] at hi
      cases hi
    exact (hat hi).trans (hat hj).symm
  · rw [hnotices]
    exact le_rfl
  · intro i y hy hyowing _
    rw [hcalls] at hy
    rcases put_eq_some.mp hy with ⟨-, hy⟩ | ⟨hi, hy⟩
    · rw [← hy, hsending] at hyowing
      cases hyowing
    · have hclosed := hother hi
      rw [phaseAt_of_call hy, hyowing] at hclosed
      cases hclosed
  · intro m hm
    rw [hnotices] at hm
    refine .inl ⟨c, ?_⟩
    rw [hphase, if_pos rfl, hsending, mem_singleton.mp hm]
  · intro i m hi
    rw [hnotices]
    rw [hphase] at hi
    split_ifs at hi with hic
    · rw [hsending] at hi
      cases hi
      exact mem_singleton_self _
    · have hclosed := hother hic
      rw [hi] at hclosed
      cases hclosed
  · intro i m hi
    rw [hphase] at hi
    split_ifs at hi with hic
    · rw [hsending] at hi
      cases hi
    · have hmem := (hs.accepted i m hi).1
      rw [hfirst] at hmem
      cases hmem
  · intro x hx hxkey
    obtain ⟨m, hm, -⟩ := hrecords x hx hxkey
    rw [hfirst] at hm
    cases hm
  · intro m hm
    rw [hnotices] at hm
    rw [mem_singleton.mp hm]
    refine hkeeps.task d.message ⟨?_, fun x hx hid => ?_⟩
    · rw [← htask]
      exact hcorr.minted _ hknows
    · rw [hcorr.agree x r.header hx hknows (hid.trans htask.symm), hrecipient]
      rfl
  · intro m hm
    rw [hnotices] at hm
    rw [mem_singleton.mp hm]
    have hmints := Mailroom.mints hroom
    rw [hposted] at hmints
    obtain ⟨hlow, hhigh⟩ := hmints.new d (mem_singleton_self d)
    refine ⟨hhigh, fun i p hp hid => ?_⟩
    rcases Mailroom.inbox_source hroom hp with ⟨q, hq, hpq⟩ | ⟨d', hd', -, hpd⟩
    · have hlt := hcorr.minted _ (.inl (.pending hq))
      have hqid : q.message.id = d.message.id := by
        rw [← hid, hpq, MailboxOp.touch_message]
      rw [show q.message.header.id = d.message.id from hqid] at hlt
      exact absurd hlt (Nat.not_lt.mpr hlow)
    · rw [hposted] at hd'
      rw [hpd, mem_singleton.mp hd']

theorem Notified.turn
    (hapart : ReportsApart k s (.proceed c env)) (hcall : s.calls c = some call)
    (hrecords : ∀ x ∈ t.room.state.completionNotices, x.key = k →
      ∃ m ∈ s.noticesOf k, x.notice = m.id ∧ x.recipient = m.recipient)
    (hturn : Turn s c env call t) : Notified k t := by
  have hself : s.phaseAt k c = call.phase k := phaseAt_of_call hcall
  obtain ⟨call', hcalls, hsound, hnotice⟩ := hturn.notice (k := k) (hs.sound c call hcall)
  cases hnotice with
  | handles h hnotices =>
    cases h with
    | same hphase hbarred =>
      refine hs.of_moved hkeeps hcall hcalls hsound hnotices hrecords (fun hopen => ?_)
        (fun howing hsome => ?_) (fun m hm => ?_) (fun m hm => ?_) (fun m hm => ?_)
      · exact .inl (hphase ▸ hopen)
      · rw [hphase] at howing
        exact (hbarred howing (hs.barred c call hcall howing hsome)).mono hkeeps.gone
      · exact .inl (hphase.trans hm)
      · exact hphase.symm.trans hm
      · obtain ⟨hmem, hrecorded⟩ := hs.accepted c m (hself.trans (hphase.symm.trans hm))
        exact ⟨hmem, hkeeps.recorded m hrecorded⟩
    | looked r hkey hcalleq hcalleq' hnone hflag =>
      subst hcalleq
      subst hcalleq'
      exact hs.of_looked hcorr hkeeps hapart hkey hcall hcalls hnone hflag hnotices hrecords
    | refused howing hidle =>
      refine hs.of_moved hkeeps hcall hcalls hsound hnotices hrecords (fun hopen => ?_)
        (fun howing' _ => ?_) (fun m hm => ?_) (fun m hm => ?_) (fun m hm => ?_)
      · rw [hidle] at hopen
        cases hopen
      · rw [hidle] at howing'
        cases howing'
      · rw [howing] at hm
        cases hm
      · rw [hidle] at hm
        cases hm
      · rw [hidle] at hm
        cases hm
  | queued r d op hkey howing hsending hreport hopen hrecipient hroom hposted hnotices =>
    exact hs.of_queued hcorr hkeeps hcall hcalls hsound hkey howing hsending hreport hopen hrecipient
      hroom hposted hnotices hrecords
  | recorded m hsending haccepted hrecord hnotices =>
    refine hs.of_moved hkeeps hcall hcalls hsound hnotices hrecords (fun hopen => ?_)
      (fun howing _ => ?_) (fun m' hm => ?_) (fun m' hm => ?_) (fun m' hm => ?_)
    · rw [haccepted] at hopen
      cases hopen
    · rw [haccepted] at howing
      cases howing
    · rw [hsending] at hm
      cases hm
      exact .inr (.inl hrecord)
    · rw [haccepted] at hm
      cases hm
    · rw [haccepted] at hm
      cases hm
      exact ⟨hs.sending c m (hself.trans hsending), .inl hrecord⟩

theorem Notified.of_begun
    (hcalls : t.calls = s.calls.put s.nextCall call) (hcall : call.Sound ∧ call.phase k = .idle)
    (hnotices : t.noticesOf k = s.noticesOf k)
    (hrecords : ∀ x ∈ t.room.state.completionNotices, x.key = k →
      ∃ m ∈ s.noticesOf k, x.notice = m.id ∧ x.recipient = m.recipient) : Notified k t := by
  have hfree := hcorr.fresh _ (Nat.le_refl s.nextCall)
  refine hs.of_unmoved hkeeps (fun i => ?_) hnotices (fun i y hy => ?_) (fun i y hy howing => ?_)
    hrecords
  · rw [phaseAt_put hcalls]
    split_ifs with hi
    · rw [hcall.2, hi]
      simp [phaseAt, hfree]
    · rfl
  · rw [hcalls] at hy
    rcases put_eq_some.mp hy with ⟨-, hy⟩ | ⟨-, hy⟩
    · exact hy ▸ hcall.1
    · exact hs.sound i y hy
  · rw [hcalls] at hy
    rcases put_eq_some.mp hy with ⟨-, hy⟩ | ⟨-, hy⟩
    · rw [← hy, hcall.2] at howing
      cases howing
    · exact ⟨y, hy, howing, fun h => h.mono hkeeps.gone⟩

omit hkeeps

omit hcorr

theorem Notified.of_same (hkeeps : Keeps k s t) (hcalls : t.calls = s.calls)
    (hnotices : t.notices = s.notices)
    (hrecords : ∀ x ∈ t.room.state.completionNotices, x.key = k →
      ∃ m ∈ s.noticesOf k, x.notice = m.id ∧ x.recipient = m.recipient) : Notified k t := by
  refine hs.of_unmoved hkeeps (fun i => ?_) ?_ (fun i y hy => ?_) (fun i y hy howing => ?_) hrecords
  · unfold phaseAt
    rw [hcalls]
  · unfold noticesOf
    rw [hnotices]
  · exact hs.sound i y (hcalls ▸ hy)
  · exact ⟨y, hcalls ▸ hy, howing, fun h => h.mono hkeeps.gone⟩

theorem Notified.step {e : FacadeEvent} (hcorr : Corresponds s)
    (hrostered : Rostered s) (hapart : ReportsApart k s e) (h : Step s e t) : Notified k t := by
  have hkeeps := h.keeps hcorr hrostered hapart
  have hrecords := hs.records_step hrostered h
  cases h with
  | opens hopens => exact hs.of_begun hcorr hkeeps rfl hopens.notice rfl hrecords
  | closes id hlive => exact hs.of_begun hcorr hkeeps rfl ⟨trivial, rfl⟩ rfl hrecords
  | proceeds hcall hturn => exact hs.turn hcorr hkeeps hapart hcall hrecords hturn
  | errands hnext hturn => cases hturn <;> exact hs.of_same hkeeps rfl rfl hrecords
  | _ => exact hs.of_same hkeeps rfl rfl hrecords

/-- A notice on record is what a later look finds: unread in its inbox, or taken from it. -/
theorem Notified.completionNotice {m : AgentMessage} (hm : m ∈ s.noticesOf k)
    (hrecord : ⟨k.reporter, k.taskMessage, m.id, m.recipient⟩ ∈ s.room.state.completionNotices) :
    s.room.state.completionNotice k.reporter k.taskMessage =
      some (match s.room.state.find m.recipient m.id with
        | some p => .pending ⟨m, p.outcome⟩
        | none => .acknowledged) := by
  have hfound : ∃ x, s.room.state.findNotice k.reporter k.taskMessage = some x := by
    rw [← Option.isSome_iff_exists]
    exact find?_isSome.mpr ⟨_, hrecord, by simp⟩
  obtain ⟨x, hx⟩ := hfound
  have hxkey : x.reporter = k.reporter ∧ x.taskMessage = k.taskMessage := by
    simpa using find?_some hx
  have hkey : x.key = k := by
    unfold NoticeReceipt.key
    rw [hxkey.1, hxkey.2]
  obtain ⟨m', hm', hid, hrecipient⟩ := hs.records x (mem_of_find?_eq_some hx) hkey
  have hsame : m' = m := by
    obtain ⟨a, ha⟩ := length_eq_one_iff.mp
      (Nat.le_antisymm hs.one (length_pos_of_mem hm))
    rw [ha] at hm hm'
    rw [mem_singleton.mp hm, mem_singleton.mp hm']
  rw [hsame] at hid hrecipient
  unfold MailboxState.completionNotice
  rw [hx, Option.map_some, hid, hrecipient]
  cases hfind : s.room.state.find m.recipient m.id with
  | none => rfl
  | some p =>
    have hpid : p.message.id = m.id := by simpa using find?_some hfind
    have hbox : p ∈ s.room.state.inbox m.recipient := mem_of_find?_eq_some hfind
    dsimp only
    rw [(hs.whole m hm).2 _ p hbox hpid]

omit hs

end Notified

theorem Notified.reachable (h : facadeMachine.ReachableUnder (ReportsApart k) s) :
    Corresponds s ∧ Rostered s ∧ Notified k s := by
  refine h.invariant (P := fun s => Corresponds s ∧ Rostered s ∧ Notified k s) ?_ ?_
  · intro u hu
    rw [hu]
    exact ⟨corresponds_init, rostered_init, notified_init⟩
  · rintro u e v hapart ⟨hcorr, hrostered, hs⟩ hstep
    have h := step_cases hstep
    exact ⟨hcorr.step hstep, hrostered.step h, hs.step hcorr hrostered hapart h⟩

/-- In a run whose reports of `k` do not overlap, one notice is queued at most. Once a report was
accepted, and as long as both parties are registered, a report that looks for a notice returns that
one and queues no other. -/
theorem one_notice (hs : facadeMachine.ReachableUnder (ReportsApart k) s) :
    (s.noticesOf k).length ≤ 1 ∧
      ∀ c r d, s.calls c = some (.returned (.reported r (r.reply (.enqueued d)))) → r.key = k →
        (s.processView r.reporter).isSome = true →
        (s.processView d.message.recipient).isSome = true →
        ∀ c' r' env t, s.calls c' = some (.checking r') → r'.key = k →
          s.step (.proceed c' env) = some t → t.notices = s.notices ∧
            t.calls c' = some (.returned (.reported r' (r'.reply
              (match s.room.state.find d.message.recipient d.message.id with
                | some p => .pending ⟨d.message, p.outcome⟩
                | none => .alreadyQueued)))) := by
  obtain ⟨-, -, hinv⟩ := Notified.reachable hs
  refine ⟨hinv.one, ?_⟩
  intro c r d hcall hkey hreporter hrecipient c' r' env t hcall' hkey' ht
  have hphase : s.phaseAt k c = .accepted d.message := by
    rw [phaseAt_of_call hcall]
    exact if_pos hkey
  obtain ⟨hmem, hrecorded⟩ := hinv.accepted c _ hphase
  have hlive : ∀ {p}, (s.processView p).isSome = true → ¬ s.Gone p := by
    rintro p hp ⟨-, hnone⟩
    rw [hnone] at hp
    cases hp
  have hk : r.reporter = k.reporter := congrArg TodoCompletionKey.reporter hkey
  have hrecord := hrecorded.resolve_right (not_or.mpr ⟨hk ▸ hlive hreporter, hlive hrecipient⟩)
  have hfound := hinv.completionNotice hmem hrecord
  have hchecked : s.room.state.completionNotice r'.reporter r'.task =
      s.room.state.completionNotice k.reporter k.taskMessage := by
    rw [← hkey']
    rfl
  have hstep : s.step (.proceed c' env) = some (s.check c' r') := by
    simp only [step, proceed, hcall']
  rw [hstep] at ht
  cases ht
  unfold check
  rw [hchecked, hfound]
  cases s.room.state.find d.message.recipient d.message.id with
  | none => exact ⟨rfl, Slots.put_self⟩
  | some p => exact ⟨rfl, Slots.put_self⟩

/-! ### Runs -/

/-- A report of the worker on its task, up to the look for a notice. -/
def reports (c : Nat) : List FacadeEvent := [.report worker 1 none "done"] ++ proceeds c 2

/-- From a look that finds none to the reply. -/
def notifies (c : Nat) : List FacadeEvent :=
  proceeds c 2 { project := some 1 } ++ proceeds c 1 { order := [2, 1] } ++ proceeds c 10

def firstNotice : AgentMessageDelivery := ⟨⟨2, 1, 2, 1, .completion, "done", none⟩, .queued⟩

def answeredQueued : MailCall → Bool
  | .returned (.reported r result) => result = r.reply (.enqueued firstNotice) ∧ r.key = ⟨2, 1⟩
  | _ => false

def looksForNotice : MailCall → Bool
  | .checking r => r.key = ⟨2, 1⟩
  | _ => false

theorem one_notice_repeated : ∃ s t : Facade, ∃ r, s.step (.proceed 3 {}) = some t ∧
    t.notices = s.notices ∧ t.noticesOf ⟨2, 1⟩ = [firstNotice.message] ∧
    t.calls 3 = some (.returned (.reported r (r.reply (.pending firstNotice)))) := by
  obtain ⟨s, hs, haccepted, hlooking, hworker, hlead, hunread, hnotices⟩ :=
    facadeMachine.exists_reachableUnder_of_run (G := ReportsApart ⟨2, 1⟩) rfl
      (spawned ++ reports 2 ++ proceeds 2 1 ++ notifies 2 ++ reports 3) (by decide)
      (fun s => (s.calls 2).any answeredQueued = true ∧ (s.calls 3).any looksForNotice = true ∧
        (s.processView 2).isSome = true ∧ (s.processView 1).isSome = true ∧
        s.room.state.find 1 2 = some ⟨firstNotice.message, .queued⟩ ∧
        s.noticesOf ⟨2, 1⟩ = [firstNotice.message]) (by decide)
  obtain ⟨call, hcall, hreply⟩ := Option.any_eq_true _ _ |>.mp haccepted
  obtain ⟨call', hcall', hkey'⟩ := Option.any_eq_true _ _ |>.mp hlooking
  unfold answeredQueued at hreply
  unfold looksForNotice at hkey'
  split at hreply
  next r result =>
    obtain ⟨hresult, hkey⟩ := of_decide_eq_true hreply
    split at hkey'
    next r' =>
      have hstep : s.step (.proceed 3 {}) = some (s.check 3 r') := by
        simp only [step, proceed, hcall']
      have hreporter : r.reporter = 2 := congrArg TodoCompletionKey.reporter hkey
      subst hresult
      obtain ⟨hsame, hreplied⟩ := (one_notice hs).2 2 r firstNotice hcall hkey
        (hreporter ▸ hworker) hlead 3 r' {} _ hcall' (of_decide_eq_true hkey') hstep
      refine ⟨s, _, r', hstep, hsame, ?_, ?_⟩
      · unfold noticesOf at hnotices ⊢
        rw [hsame]
        exact hnotices
      · rw [hreplied]
        have hfind : s.room.state.find firstNotice.message.recipient firstNotice.message.id =
            some ⟨firstNotice.message, .queued⟩ := hunread
        rw [hfind]
        rfl
    · cases hkey'
  · cases hreply

/-- Two reports look before either has recorded its notice: both queue one. -/
theorem two_notices :
    ∃ s, facadeMachine.Reachable s ∧ s.Settled ∧ (s.noticesOf ⟨2, 1⟩).length = 2 ∧
      (s.room.state.inbox 1).length = 2 :=
  facadeMachine.exists_reachable_of_run rfl
    (spawned ++ reports 2 ++ proceeds 2 1 ++ reports 3 ++ proceeds 3 1 ++ notifies 2 ++ notifies 3 ++
      drains 3) _ (by decide)

end Facade

end Soloist
