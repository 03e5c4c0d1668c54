import Soloist.Mailbox.Provenance
import Soloist.Mailbox.Turns
import Soloist.Mailbox.WakeRuns

/-! What the façade's calls and its mailbox hold about one message agrees: an id is given once, a
message lies where it is addressed, and each delivery that is to be recorded is recorded once. -/
open List Slots

namespace Soloist

/-- What identifies a message, and does not change on its way. -/
structure Header where
  id : AgentMessageId
  project : ProjectId
  sender : ProcessId
  recipient : ProcessId
  deriving DecidableEq, Repr

def AgentMessage.header (m : AgentMessage) : Header := ⟨m.id, m.project, m.sender, m.recipient⟩

structure Mints (low high : Nat) (ds : List AgentMessageDelivery) : Prop where
  le : low ≤ high
  new : ∀ d ∈ ds, low ≤ d.message.id ∧ d.message.id < high
  distinct : (ds.map fun d => d.message.id).Nodup

variable {high low : Nat}

theorem Mints.none (h : low ≤ high) : Mints low high [] :=
  ⟨h, by simp, nodup_nil⟩

theorem Mints.eq_of_id {ds : List AgentMessageDelivery} (h : Mints low high ds)
    {d e : AgentMessageDelivery} (hd : d ∈ ds) (he : e ∈ ds) (hid : d.message.id = e.message.id) :
    d = e := inj_on_of_nodup_map h.distinct hd he hid

namespace MailboxState

/-- The mailbox holds something of a message with this header. -/
inductive Knows (s : MailboxState) : Header → Prop
  | pending {r : ProcessId} {p : Pending} (h : p ∈ s.inbox r) : Knows s p.message.header
  | receipt {x : TaskReceipt} (h : x ∈ s.taskReceipts) :
    Knows s ⟨x.id, x.project, x.sender, x.recipient⟩
  | entry {q : ProjectId} {e : AgentMessageRecord} (h : e ∈ s.transcript.queue q) :
    Knows s e.delivery.message.header

variable {s : MailboxState}

theorem knows_of_taskForCompletion {project : ProjectId} {recipient : ProcessId}
    {task : AgentMessageId} {parent : ProcessId} {todoId : Option TodoId}
    (hplaced : ∀ r, ∀ p ∈ s.inbox r, p.message.recipient = r)
    (h : s.taskForCompletion project recipient task = some (parent, todoId)) :
    s.Knows ⟨task, project, parent, recipient⟩ := by
  unfold taskForCompletion at h
  dsimp only at h
  split at h
  next p hp =>
    cases h
    have hmem : p ∈ s.inbox recipient := mem_of_find?_eq_some hp
    have hfound : p.message.id = task ∧ p.message.project = project ∧ p.message.kind = .task := by
      simpa using find?_some hp
    have hknown := Knows.pending hmem
    rw [AgentMessage.header, hfound.1, hfound.2.1, hplaced recipient p hmem] at hknown
    exact hknown
  next =>
    obtain ⟨x, hx, hparent⟩ := Option.map_eq_some_iff.mp h
    cases hparent
    have hfound : x.id = task ∧ x.project = project ∧ x.recipient = recipient := by
      simpa using find?_some hx
    have hknown := Knows.receipt (mem_of_find?_eq_some hx)
    rw [hfound.1, hfound.2.1, hfound.2.2] at hknown
    exact hknown

theorem mem_of_acknowledge {now : UInt64} {r : ProcessId} {id : AgentMessageId}
    {d : AgentMessageDelivery} (h : (s.acknowledge now r id).2 = some d) :
    ∃ p, (p ∈ s.inbox r ∧ p.message.id = id) ∧ d = ⟨p.message, .acknowledged⟩ := by
  cases hfind : s.find r id with
  | none =>
    rw [acknowledge_of_find_none hfind] at h
    cases h
  | some p =>
    have hid : p.message.id = id := by simpa using find?_some hfind
    rw [acknowledge_of_find hfind] at h
    cases h
    exact ⟨p, ⟨mem_of_find?_eq_some hfind, hid⟩, rfl⟩

end MailboxState

namespace Mailroom
variable {m m' : Mailroom} {op : MailboxOp}

theorem posted_of_unposted (hpost : op.isPost = false) : op.posted m = [] := by
  cases op with
  | enqueue | enqueueMany | enqueueReserved => cases hpost
  | _ => rfl

theorem mints (h : m.step op = some m') :
    Mints m.state.nextMessage m'.state.nextMessage (op.posted m) := by
  cases hpost : op.isPost with
  | true =>
    have hposts := posts_of_isPost h hpost
    refine ⟨nextMessage_le h, fun d hd => hposts.minted hd, ?_⟩
    rw [hposts.ids]
    exact nodup_range'
  | false =>
    rw [posted_of_unposted hpost]
    exact .none (nextMessage_le h)

end Mailroom

namespace MailboxOp

def recorded : MailboxOp → Option AgentMessageDelivery
  | .record _ d => some d
  | _ => none

end MailboxOp

/-- What a step of the mailbox may do to the messages it holds, when it posts `ds` and records
`filed`. -/
structure RoomEffect (m m' : Mailroom) (ds : List AgentMessageDelivery)
    (filed : Option AgentMessageDelivery) : Prop where
  numbered : m.Numbered → m'.Numbered
  mints : Mints m.state.nextMessage m'.state.nextMessage ds
  inbox : ∀ r, ∀ p ∈ m'.state.inbox r, (∃ q ∈ m.state.inbox r, p.message = q.message) ∨
    ∃ d ∈ ds, d.message.recipient = r ∧ p.message = d.message
  receipts : ∀ x ∈ m'.state.taskReceipts, x ∈ m.state.taskReceipts ∨
    ∃ r, ∃ p ∈ m.state.inbox r, x = p.message.receipt
  entries : m.state.FiledOnce → ∀ q, ∀ e ∈ m'.state.transcript.queue q,
    (∃ r ∈ m.state.transcript.queue q, e.delivery.message = r.delivery.message) ∨
      ∃ d ∈ filed, q = d.message.project ∧ e.delivery.message.header = d.message.header
  filed : m.state.FiledOnce →
    (∀ d ∈ filed, ∀ r ∈ m.state.transcript.queue d.message.project, r.id ≠ d.message.id) →
    m'.state.FiledOnce

namespace RoomEffect
variable {m m' : Mailroom} {ds : List AgentMessageDelivery} {filed : Option AgentMessageDelivery}

theorem refl (m : Mailroom) : RoomEffect m m [] none where
  numbered hm := hm
  mints := .none le_rfl
  inbox _ p hp := .inl ⟨p, hp, rfl⟩
  receipts _ hx := .inl hx
  entries _ _ e he := .inl ⟨e, he, rfl⟩
  filed hm _ := hm

theorem of_step {op : MailboxOp} (h : m.step op = some m') :
    RoomEffect m m' (op.posted m) op.recorded where
  numbered hm := hm.step h
  mints := Mailroom.mints h
  inbox r p hp := by
    rcases Mailroom.inbox_source h hp with ⟨q, hq, hpq⟩ | ⟨d, hd, hr, hpd⟩
    · exact .inl ⟨q, hq, by rw [hpq, MailboxOp.touch_message]⟩
    · exact .inr ⟨d, hd, hr, by rw [hpd]⟩
  receipts _ hx := Mailroom.receipts_source h hx
  entries hfiled q e he := by
    rcases Mailroom.transcript_source hfiled h he with ⟨r, hr, her⟩ | ⟨now, d, hop, hq, hed⟩
    · exact .inl ⟨r, hr, by rw [her, MailboxOp.refile_message]⟩
    · rw [hop, hed]
      exact .inr ⟨d, rfl, hq, rfl⟩
  filed hfiled hfresh := by
    refine Mailroom.FiledOnce.step hfiled h fun now d hop => ?_
    rw [hop] at hfresh
    exact hfresh d rfl

/-- What the mailbox knows after a step, it knew, or the step posted or recorded it. -/
theorem knows (h : RoomEffect m m' ds filed) (hfiled : m.state.FiledOnce) {x : Header}
    (hx : m'.state.Knows x) :
    m.state.Knows x ∨ (∃ d ∈ ds, x = d.message.header) ∨ ∃ d ∈ filed, x = d.message.header := by
  cases hx with
  | @pending r p hp =>
    rcases h.inbox r p hp with ⟨q, hq, hpq⟩ | ⟨d, hd, -, hpd⟩
    · rw [hpq]
      exact .inl (.pending hq)
    · rw [hpd]
      exact .inr (.inl ⟨d, hd, rfl⟩)
  | @receipt x hx =>
    rcases h.receipts x hx with hx | ⟨r, p, hp, hxp⟩
    · exact .inl (.receipt hx)
    · rw [hxp]
      exact .inl (.pending hp)
  | @entry q e he =>
    rcases h.entries hfiled q e he with ⟨r, hr, her⟩ | ⟨d, hd, -, hed⟩
    · rw [her]
      exact .inl (.entry hr)
    · exact .inr (.inr ⟨d, hd, hed⟩)

end RoomEffect

/-! ### What a call holds -/

def Report.header (r : Report) : Header := ⟨r.task, r.project, r.parent, r.reporter⟩

def Dispatch.deliveries (d : Dispatch) : List AgentMessageDelivery := d.done ++ d.head :: d.rest

namespace MailCall

def deliveries : MailCall → List AgentMessageDelivery
  | .dispatching d => d.deliveries
  | .acknowledged d | .announcing d | .noticing _ d | .flagging _ d | .recording _ d
  | .announcingTask _ d => [d]
  | _ => []

def report : MailCall → Option Report
  | .rostering d _ | .rostered d _ => d.report
  | .dispatching d => d.draft.report
  | .completing r | .announcingTodo r | .checking r | .notifying r | .noticing r _
  | .flagging r _ => some r
  | _ => none

def headers (call : MailCall) : List Header :=
  call.deliveries.map (fun d => d.message.header) ++ (call.report.map Report.header).toList

def toRecord : MailCall → List AgentMessageDelivery
  | .dispatching d => if d.stage = .recorded then d.rest else d.head :: d.rest
  | .recording _ d => [d]
  | _ => []

def idsToRecord (call : MailCall) : List AgentMessageId :=
  call.toRecord.map fun d => d.message.id

theorem mem_deliveries_of_toRecord (call : MailCall) {d : AgentMessageDelivery}
    (hd : d ∈ call.toRecord) : d ∈ call.deliveries := by
  cases call with
  | dispatching x =>
    unfold toRecord at hd
    dsimp only at hd
    split_ifs at hd
    · exact mem_append_right _ (.tail _ hd)
    · exact mem_append_right _ hd
  | recording worker x => exact hd
  | _ => cases hd

end MailCall

namespace Facade
variable {s t : Facade} {c : Nat} {env : Surroundings} {call call' : MailCall}

/-- A call goes on with messages that it spoke of, that the mailbox knows, or that were just posted;
and with deliveries to record that it had, or that were just posted. -/
structure Carries (s : Facade) (call call' : MailCall) (ds : List AgentMessageDelivery) : Prop where
  headers : ∀ x ∈ call'.headers,
    x ∈ call.headers ∨ s.room.state.Knows x ∨ ∃ d ∈ ds, x = d.message.header
  toRecord : call'.idsToRecord.Sublist call.idsToRecord ∨
    call.idsToRecord = [] ∧ call'.idsToRecord.Sublist (ds.map fun d => d.message.id)

variable {ds : List AgentMessageDelivery}

theorem Carries.of_subset
    (hdeliveries : call'.deliveries.map (fun d => d.message.header) ⊆
      call.deliveries.map fun d => d.message.header)
    (hreport : call'.report = none ∨ call'.report.map Report.header = call.report.map Report.header)
    (hids : call'.idsToRecord.Sublist call.idsToRecord) : Carries s call call' ds := by
  refine ⟨fun x hx => .inl ?_, .inl hids⟩
  unfold MailCall.headers at hx ⊢
  rcases mem_append.mp hx with hx | hx
  · exact mem_append_left _ (hdeliveries hx)
  · rcases hreport with hreport | hreport
    · simp [hreport] at hx
    · rw [hreport] at hx
      exact mem_append_right _ hx

def Placed (s : MailboxState) : Prop := ∀ r, ∀ p ∈ s.inbox r, p.message.recipient = r

theorem Silent.carries (hplaced : Placed s.room.state) (h : Silent s call call') :
    Carries s call call' [] := by
  cases h with
  | taskFound project reporter task todoId summary parent htask =>
    refine ⟨fun x hx => ?_, .inl (List.Sublist.refl _)⟩
    have hreport : x = ⟨task, project, parent, reporter⟩ := by
      simpa [MailCall.headers, MailCall.deliveries, MailCall.report, Report.header] using hx
    rw [hreport]
    exact .inr (.inl (MailboxState.knows_of_taskForCompletion hplaced htask))
  | staged d stage hold hnew =>
    have hids : (MailCall.dispatching { d with stage }).idsToRecord =
        (MailCall.dispatching d).idsToRecord := by
      rcases hold with hold | hold <;> rcases hnew with hnew | hnew <;>
        simp [MailCall.idsToRecord, MailCall.toRecord, hold, hnew]
    refine .of_subset (List.Subset.refl _) (.inr rfl) ?_
    rw [hids]
  | _ =>
    refine .of_subset ?_ ?_ ?_
    · simp [MailCall.deliveries]
    · simp [MailCall.report]
    · simp [MailCall.idsToRecord, MailCall.toRecord]

/-- What an operation of a call leaves it with. -/
structure Performed (s : Facade) (op : MailboxOp) (call call' : MailCall) : Prop where
  carries : Carries s call call' (op.posted s.room)
  recorded : ∀ d ∈ op.recorded,
    d.message.header ∈ call.headers ∧ call.idsToRecord = d.message.id :: call'.idsToRecord

theorem Performs.performed {op : MailboxOp} (h : Performs s c env call op call') :
    Performed s op call call' := by
  cases h with
  | recorded d now hstage =>
    refine ⟨.of_subset (List.Subset.refl _) (.inr rfl) ?_, ?_⟩
    · simp [MailCall.idsToRecord, MailCall.toRecord, hstage]
    · intro d' hop
      cases hop
      simp [MailCall.idsToRecord, MailCall.toRecord, hstage, MailCall.headers, MailCall.deliveries,
        Dispatch.deliveries]
  | taskRecorded worker d now =>
    refine ⟨.of_subset (List.Subset.refl _) (.inr rfl) ?_, ?_⟩
    · simp [MailCall.idsToRecord, MailCall.toRecord]
    · intro d' hop
      cases hop
      simp [MailCall.idsToRecord, MailCall.toRecord, MailCall.headers, MailCall.deliveries]
  | placed spawn worker first d hfirst hplaced =>
    have hposted := MailboxOp.posted_enqueueReserved hfirst hplaced
    refine ⟨⟨fun x hx => .inr (.inr ⟨d, ?_, ?_⟩), .inr ⟨rfl, ?_⟩⟩, fun d hop => by cases hop⟩
    · rw [hposted]
      exact mem_singleton_self d
    · simpa [MailCall.headers, MailCall.deliveries, MailCall.report] using hx
    · rw [hposted]
      exact List.Sublist.refl _
  | placeRefused spawn worker first e reply hreply hfirst hrefused =>
    refine ⟨⟨fun x hx => ?_, .inl (List.Sublist.refl _)⟩, fun d hop => by cases hop⟩
    simp [MailCall.headers, MailCall.deliveries, MailCall.report] at hx
  | submitted d hstage =>
    refine ⟨.of_subset ?_ (.inr rfl) ?_, fun d hop => by cases hop⟩
    · simp [MailCall.deliveries, Dispatch.deliveries]
    · simp [MailCall.idsToRecord, MailCall.toRecord, hstage]
  | claimed d hstage hclaim =>
    refine ⟨.of_subset (List.Subset.refl _) (.inr rfl) ?_, fun d hop => by cases hop⟩
    simp [MailCall.idsToRecord, MailCall.toRecord, hstage]
  | released d hstage =>
    refine ⟨.of_subset (List.Subset.refl _) (.inr rfl) ?_, fun d hop => by cases hop⟩
    simp [MailCall.idsToRecord, MailCall.toRecord, hstage]
  | _ =>
    refine ⟨.of_subset ?_ ?_ ?_, fun d hop => by cases hop⟩
    · simp [MailCall.deliveries]
    · simp [MailCall.report]
    · simp [MailCall.idsToRecord, MailCall.toRecord]

theorem Announces.carries {e : MailEvent} (h : Announces call e call') : Carries s call call' [] := by
  cases h with
  | delivered d hstage e he =>
    obtain ⟨draft, done, head, rest, stage⟩ := d
    cases hstage
    unfold Dispatch.next
    cases rest with
    | cons next rest =>
      refine .of_subset ?_ (.inr rfl) ?_
      · simp [MailCall.deliveries, Dispatch.deliveries]
      · simp [MailCall.idsToRecord, MailCall.toRecord]
    | nil =>
      dsimp only
      split
      next r haddressee hreport =>
        refine .of_subset ?_ (.inr ?_) ?_
        · simp [MailCall.deliveries, Dispatch.deliveries]
        · simp [MailCall.report, hreport]
        · simp [MailCall.idsToRecord, MailCall.toRecord]
      all_goals
        refine .of_subset ?_ (.inl rfl) ?_
        · simp [MailCall.deliveries]
        · simp [MailCall.idsToRecord, MailCall.toRecord]
  | _ =>
    refine .of_subset ?_ ?_ ?_
    · simp [MailCall.deliveries]
    · simp [MailCall.report]
    · simp [MailCall.idsToRecord, MailCall.toRecord]

theorem Arranges.carries {tracker : Dict ProcessId (Option AgentActivity)}
    {parents : Dict ProcessId ProcessId} {board : Board}
    (h : Arranges s call tracker parents board call') : Carries s call call' [] := by
  cases h with
  | completed r outcome board call' hprojects hcall =>
    rcases hcall with rfl | rfl <;> exact .of_subset (by simp [MailCall.deliveries]) (.inr rfl) (List.Sublist.refl _)
  | nested spawn worker parents call' hcall =>
    rcases hcall with rfl | rfl <;> exact .of_subset (by simp [MailCall.deliveries]) (.inr rfl) (List.Sublist.refl _)
  | _ =>
    refine .of_subset ?_ ?_ ?_
    · simp [MailCall.deliveries]
    · simp [MailCall.report]
    · simp [MailCall.idsToRecord, MailCall.toRecord]

/-- What an access of a call comes to: the operation of the mailbox it makes, if any, and what the
call goes on with. -/
inductive TurnEffect (s : Facade) (c : Nat) (call : MailCall) (t : Facade) : Prop
  | still (call' : MailCall) (hcalls : t.calls = s.calls.put c call')
      (hnext : t.nextCall = s.nextCall) (hroom : t.room = s.room) (hcarries : Carries s call call' [])
  | performs (call' : MailCall) (op : MailboxOp) (hcalls : t.calls = s.calls.put c call')
      (hnext : t.nextCall = s.nextCall) (hroom : s.room.step op = some t.room)
      (h : Performed s op call call')

theorem Turn.effect (hplaced : Placed s.room.state) (h : Turn s c env call t) :
    TurnEffect s c call t := by
  cases h with
  | silent h => exact .still _ rfl rfl rfl (h.carries hplaced)
  | performs hroom h => exact .performs _ _ rfl rfl hroom h.performed
  | announces h => exact .still _ rfl rfl rfl h.carries
  | arranges h => exact .still _ rfl rfl rfl h.carries
  | queued draft members recipient d room haddressee hmember hok hroom =>
    have hposted := MailboxOp.posted_enqueue hok
    refine .performs _ _ rfl rfl hroom ⟨⟨fun x hx => ?_, .inr ⟨rfl, ?_⟩⟩, fun d hop => by cases hop⟩
    · rw [hposted]
      simp only [MailCall.headers, MailCall.deliveries, Dispatch.deliveries, MailCall.report,
        nil_append, map_cons, map_nil, cons_append, mem_cons] at hx ⊢
      rcases hx with hx | hx
      · exact .inr (.inr ⟨d, .inl rfl, hx⟩)
      · exact .inl hx
    · rw [hposted]
      exact List.Sublist.refl _
  | queuedAll draft members ds room call' haddressee hok hroom hcall =>
    have hposted := MailboxOp.posted_enqueueMany hok
    refine .performs _ _ rfl rfl hroom ⟨⟨fun x hx => ?_, .inr ⟨rfl, ?_⟩⟩, fun d hop => by cases hop⟩
    · rw [hposted]
      rcases hcall with ⟨hds, hcall⟩ | ⟨d, rest, hds, hcall⟩
      · simp [hcall, MailCall.headers, MailCall.deliveries, MailCall.report] at hx
      · rw [hcall] at hx
        rcases mem_append.mp hx with hx | hx
        · obtain ⟨d', hd', hxd⟩ := mem_map.mp hx
          rw [hds]
          exact .inr (.inr ⟨d', hd', hxd.symm⟩)
        · exact .inl (mem_append_right _ hx)
    · rw [hposted]
      rcases hcall with ⟨hds, hcall⟩ | ⟨d, rest, hds, hcall⟩
      · rw [hcall]
        exact nil_sublist _
      · rw [hcall, hds]
        exact List.Sublist.refl _
  | acknowledged recipient id now d room hok hroom =>
    obtain ⟨p, hp, hd⟩ := MailboxState.mem_of_acknowledge hok
    refine .performs _ _ rfl rfl hroom ⟨⟨fun x hx => ?_, .inl (List.Sublist.refl _)⟩,
      fun d hop => by cases hop⟩
    have hx : x = p.message.header := by
      simpa [MailCall.headers, MailCall.deliveries, MailCall.report, hd] using hx
    rw [hx]
    exact .inr (.inl (.pending hp.1))
  | registered l =>
    exact .still _ rfl rfl rfl (.of_subset (List.Subset.refl _) (.inr rfl) (List.Sublist.refl _))
  | unregistered project id ids hlive =>
    exact .still _ rfl rfl rfl (.of_subset (List.Subset.refl _) (.inr rfl) (List.Sublist.refl _))

def headersAt (s : Facade) (c : Nat) : List Header := (s.calls c).elim [] MailCall.headers

def idsAt (s : Facade) (c : Nat) : List AgentMessageId := (s.calls c).elim [] MailCall.idsToRecord

/-- The mailbox or a call under way holds something of a message with this header. -/
def Knows (s : Facade) (x : Header) : Prop := s.room.state.Knows x ∨ ∃ c, x ∈ s.headersAt c

/-- The slots of the calls to come are free. -/
def Fresh (s : Facade) : Prop := ∀ c, s.nextCall ≤ c → s.calls c = none

/-- What a step may do to the messages held, when it moves the call in slot `c`, posts `ds` and
records `filed`. -/
structure Effect (s t : Facade) (c : Nat) (ds : List AgentMessageDelivery)
    (filed : Option AgentMessageDelivery) : Prop where
  room : RoomEffect s.room t.room ds filed
  others : ∀ i, i ≠ c → t.calls i = s.calls i
  headers : ∀ x ∈ t.headersAt c,
    x ∈ s.headersAt c ∨ s.room.state.Knows x ∨ ∃ d ∈ ds, x = d.message.header
  ids : (t.idsAt c).Sublist (s.idsAt c) ∨
    s.idsAt c = [] ∧ (t.idsAt c).Sublist (ds.map fun d => d.message.id)
  recorded : ∀ d ∈ filed, d.message.header ∈ s.headersAt c ∧ s.idsAt c = d.message.id :: t.idsAt c
  fresh : s.Fresh → t.Fresh

theorem Effect.of_unmoved {c : Nat} (hroom : RoomEffect s.room t.room ds none)
    (hcalls : t.calls = s.calls) (hnext : t.nextCall = s.nextCall) : Effect s t c ds none where
  room := hroom
  fresh hs i hi := by
    rw [hcalls]
    exact hs i (hnext ▸ hi)
  others i _ := by rw [hcalls]
  headers x hx := by
    unfold headersAt at hx ⊢
    rw [hcalls] at hx
    exact .inl hx
  ids := by
    unfold idsAt
    rw [hcalls]
    exact .inl (List.Sublist.refl _)
  recorded d hd := by cases hd

theorem Effect.of_begun (call : MailCall) (hroom : t.room = s.room)
    (hcalls : t.calls = s.calls.put s.nextCall call) (hnext : t.nextCall = s.nextCall + 1)
    (hheaders : call.headers = []) (hids : call.idsToRecord = []) :
    Effect s t s.nextCall [] none where
  fresh hs i hi := by
    rw [hnext] at hi
    rw [hcalls, put_of_ne (Nat.ne_of_gt hi)]
    exact hs i (Nat.le_of_succ_le hi)
  room := by
    rw [hroom]
    exact .refl _
  others i hi := by rw [hcalls, put_of_ne hi]
  headers x hx := by
    unfold headersAt at hx
    rw [hcalls, put_self, Option.elim_some, hheaders] at hx
    cases hx
  ids := by
    unfold idsAt
    rw [hcalls, put_self, Option.elim_some, hids]
    exact .inl (nil_sublist _)
  recorded d hd := by cases hd

variable {filed : Option AgentMessageDelivery}

theorem Effect.of_moved {c : Nat} {call call' : MailCall}
    (hroom : RoomEffect s.room t.room ds filed)
    (hcall : s.calls c = some call) (hcalls : t.calls = s.calls.put c call')
    (hnext : t.nextCall = s.nextCall) (hcarries : Carries s call call' ds)
    (hrecorded : ∀ d ∈ filed, d.message.header ∈ call.headers ∧
      call.idsToRecord = d.message.id :: call'.idsToRecord) : Effect s t c ds filed := by
  have hheaders : s.headersAt c = call.headers := by simp [headersAt, hcall]
  have hids : s.idsAt c = call.idsToRecord := by simp [idsAt, hcall]
  have hheaders' : t.headersAt c = call'.headers := by simp [headersAt, hcalls]
  have hids' : t.idsAt c = call'.idsToRecord := by simp [idsAt, hcalls]
  refine ⟨hroom, fun i hi => ?_, ?_, ?_, ?_, fun hs i hi => ?_⟩
  · rw [hcalls, put_of_ne hi]
  · rw [hheaders, hheaders']
    exact hcarries.headers
  · rw [hids, hids']
    exact hcarries.toRecord
  · rw [hheaders, hids, hids']
    exact hrecorded
  · rw [hnext] at hi
    have hne : i ≠ c := by
      rintro rfl
      rw [hs i hi] at hcall
      cases hcall
    rw [hcalls, put_of_ne hne]
    exact hs i hi

theorem Turn.toEffect (hplaced : Placed s.room.state) (hcall : s.calls c = some call)
    (h : Turn s c env call t) : ∃ ds filed, Effect s t c ds filed := by
  rcases h.effect hplaced with
    ⟨call', hcalls, hnext, hroom, hcarries⟩ | ⟨call', op, hcalls, hnext, hroom, hop⟩
  · refine ⟨[], none, .of_moved ?_ hcall hcalls hnext hcarries fun d hd => by cases hd⟩
    rw [hroom]
    exact .refl _
  · exact ⟨_, _, .of_moved (.of_step hroom) hcall hcalls hnext hop.carries hop.recorded⟩

/-- What an access of the reactor does to the mailbox: nothing is posted and nothing recorded. -/
theorem ErrandTurn.roomEffect {rest : List Errand} {e : Errand} (h : ErrandTurn s env rest e t) :
    RoomEffect s.room t.room [] none ∧ t.calls = s.calls ∧ t.nextCall = s.nextCall := by
  have hquiet : ∀ {op : MailboxOp} {room : Mailroom}, s.room.step op = some room →
      op.isPost = false → op.recorded = none → RoomEffect s.room room [] none := by
    intro op room hroom hpost hrecorded
    have h := RoomEffect.of_step hroom
    rw [Mailroom.posted_of_unposted hpost, hrecorded] at h
    exact h
  cases h with
  | plans => exact ⟨.refl _, rfl, rfl⟩
  | performs new he hnew hop hroom =>
    cases hop <;> exact ⟨hquiet hroom rfl rfl, rfl, rfl⟩
  | announces => exact ⟨.refl _, rfl, rfl⟩
  | removes id hroom => exact ⟨hquiet hroom rfl rfl, rfl, rfl⟩
  | forgets id hroom => exact ⟨hquiet hroom rfl rfl, rfl, rfl⟩

theorem Opens.holds_nothing (h : Opens s call) : call.headers = [] ∧ call.idsToRecord = [] := by
  cases h with
  | sends draft hlive hreport =>
    simp [MailCall.headers, MailCall.deliveries, MailCall.report, hreport, MailCall.idsToRecord,
      MailCall.toRecord]
  | _ => exact ⟨rfl, rfl⟩

variable {e : FacadeEvent}

theorem Step.effect (hplaced : Placed s.room.state) (h : Step s e t) :
    ∃ c ds filed, Effect s t c ds filed := by
  cases h with
  | opens h =>
    exact ⟨_, _, _, .of_begun _ rfl rfl rfl h.holds_nothing.1 h.holds_nothing.2⟩
  | closes id hlive => exact ⟨_, _, _, .of_begun _ rfl rfl rfl rfl rfl⟩
  | proceeds hcall h =>
    obtain ⟨ds, filed, heffect⟩ := h.toEffect hplaced hcall
    exact ⟨_, ds, filed, heffect⟩
  | errands hnext h =>
    obtain ⟨hroom, hcalls, hnextCall⟩ := h.roomEffect
    exact ⟨0, [], none, .of_unmoved hroom hcalls hnextCall⟩
  | _ => exact ⟨0, [], none, .of_unmoved (.refl _) rfl rfl⟩

/-- The calls and the mailbox agree on every message. -/
structure Corresponds (s : Facade) : Prop where
  fresh : s.Fresh
  numbered : s.room.Numbered
  filed : s.room.state.FiledOnce
  placed : Placed s.room.state
  shelved : ∀ q, ∀ e ∈ s.room.state.transcript.queue q, e.delivery.message.project = q
  minted : ∀ x, s.Knows x → x.id < s.room.state.nextMessage
  agree : ∀ x y, s.Knows x → s.Knows y → x.id = y.id → x = y
  once : ∀ c, (s.idsAt c).Nodup
  apart : ∀ c c' i, i ∈ s.idsAt c → i ∈ s.idsAt c' → c = c'
  unfiled : ∀ c, ∀ i ∈ s.idsAt c, ∀ q, ∀ e ∈ s.room.state.transcript.queue q, e.id ≠ i

theorem corresponds_init : Corresponds .init where
  fresh _ _ := rfl
  numbered := Mailroom.numbered_empty
  filed _ := nodup_nil
  placed r p hp := by cases hp
  shelved q e he := by cases he
  minted x hx := by
    rcases hx with hx | ⟨c, hx⟩
    · cases hx with
      | pending h | receipt h | entry h => cases h
    · cases hx
  agree x y hx := by
    rcases hx with hx | ⟨c, hx⟩
    · cases hx with
      | pending h | receipt h | entry h => cases h
    · cases hx
  once c := nodup_nil
  apart c c' i hi := by cases hi
  unfiled c i hi := by cases hi

theorem exists_header_of_idsAt {i : AgentMessageId} (h : i ∈ s.idsAt c) :
    ∃ x ∈ s.headersAt c, x.id = i := by
  unfold idsAt at h
  unfold headersAt
  cases hcall : s.calls c with
  | none =>
    rw [hcall] at h
    cases h
  | some call =>
    rw [hcall] at h
    obtain ⟨d, hd, hi⟩ := mem_map.mp h
    refine ⟨d.message.header, ?_, hi⟩
    exact mem_append_left _ (mem_map_of_mem (call.mem_deliveries_of_toRecord hd))

namespace Effect
variable {ds : List AgentMessageDelivery} {filed : Option AgentMessageDelivery}

variable {i : Nat}

theorem idsAt_of_ne (h : Effect s t c ds filed) (hi : i ≠ c) : t.idsAt i = s.idsAt i := by
  unfold idsAt
  rw [h.others i hi]

theorem knows (h : Effect s t c ds filed) (hfiled : s.room.state.FiledOnce) {x : Header}
    (hx : t.Knows x) : s.Knows x ∨ ∃ d ∈ ds, x = d.message.header := by
  rcases hx with hx | ⟨i, hx⟩
  · rcases h.room.knows hfiled hx with hx | hx | ⟨d, hd, hxd⟩
    · exact .inl (.inl hx)
    · exact .inr hx
    · rw [hxd]
      exact .inl (.inr ⟨c, (h.recorded d hd).1⟩)
  · by_cases hi : i = c
    · rw [hi] at hx
      rcases h.headers x hx with hx | hx | hx
      · exact .inl (.inr ⟨c, hx⟩)
      · exact .inl (.inl hx)
      · exact .inr hx
    · unfold headersAt at hx
      rw [h.others i hi] at hx
      exact .inl (.inr ⟨i, hx⟩)

/-- An id still to be recorded was so before, in the same slot, or has just been posted in the slot
that moved. -/
theorem idsAt_source (h : Effect s t c ds filed) {id : AgentMessageId} (hid : id ∈ t.idsAt i) :
    id ∈ s.idsAt i ∨ i = c ∧ ∃ d ∈ ds, d.message.id = id := by
  by_cases hi : i = c
  · subst hi
    rcases h.ids with hsub | ⟨-, hsub⟩
    · exact .inl (hsub.subset hid)
    · exact .inr ⟨rfl, mem_map.mp (hsub.subset hid)⟩
  · rw [h.idsAt_of_ne hi] at hid
    exact .inl hid

end Effect

theorem Effect.corresponds (h : Effect s t c ds filed) (hs : Corresponds s) : Corresponds t := by
  have hnew : ∀ {d : AgentMessageDelivery} {x : Header}, d ∈ ds → s.Knows x →
      x.id ≠ d.message.id := by
    intro d x hd hx hid
    have hlow := (h.room.mints.new d hd).1
    have hlt := hs.minted x hx
    rw [hid] at hlt
    exact absurd hlt (Nat.not_lt.mpr hlow)
  constructor
  · exact h.fresh hs.fresh
  · exact h.room.numbered hs.numbered
  · refine h.room.filed hs.filed fun d hd r hr => ?_
    have hmem : d.message.id ∈ s.idsAt c := by
      rw [(h.recorded d hd).2]
      exact .head _
    exact hs.unfiled c _ hmem _ r hr
  · intro r p hp
    rcases h.room.inbox r p hp with ⟨q, hq, hpq⟩ | ⟨d, -, hr, hpd⟩
    · rw [hpq]
      exact hs.placed r q hq
    · rw [hpd]
      exact hr
  · intro q e he
    rcases h.room.entries hs.filed q e he with ⟨r, hr, her⟩ | ⟨d, -, hq, hed⟩
    · rw [her]
      exact hs.shelved q r hr
    · rw [hq]
      exact congrArg Header.project hed
  · intro x hx
    rcases h.knows hs.filed hx with hx | ⟨d, hd, hxd⟩
    · exact (hs.minted x hx).trans_le h.room.mints.le
    · rw [hxd]
      exact (h.room.mints.new d hd).2
  · intro x y hx hy hid
    rcases h.knows hs.filed hx with hx | ⟨d, hd, hxd⟩
    · rcases h.knows hs.filed hy with hy | ⟨d, hd, hyd⟩
      · exact hs.agree x y hx hy hid
      · rw [hyd] at hid
        exact absurd hid (hnew hd hx)
    · rcases h.knows hs.filed hy with hy | ⟨e, he, hye⟩
      · rw [hxd] at hid
        exact absurd hid.symm (hnew hd hy)
      · rw [hxd, hye] at hid ⊢
        rw [h.room.mints.eq_of_id hd he hid]
  · intro i
    by_cases hi : i = c
    · subst hi
      rcases h.ids with hsub | ⟨-, hsub⟩
      · exact (hs.once i).sublist hsub
      · exact h.room.mints.distinct.sublist hsub
    · rw [h.idsAt_of_ne hi]
      exact hs.once i
  · intro i j id hi hj
    have hclash : ∀ {k : Nat} {d : AgentMessageDelivery}, id ∈ s.idsAt k → d ∈ ds →
        d.message.id ≠ id := by
      intro k d hk hd hdid
      obtain ⟨x, hx, hxid⟩ := exists_header_of_idsAt hk
      exact hnew hd (.inr ⟨k, hx⟩) (hxid.trans hdid.symm)
    rcases h.idsAt_source hi with hi | ⟨hic, d, hd, hdid⟩
    · rcases h.idsAt_source hj with hj | ⟨hjc, d, hd, hdid⟩
      · exact hs.apart i j id hi hj
      · exact absurd hdid (hclash hi hd)
    · rcases h.idsAt_source hj with hj | ⟨hjc, -⟩
      · exact absurd hdid (hclash hj hd)
      · rw [hic, hjc]
  · intro i id hi q e he heid
    rcases h.room.entries hs.filed q e he with ⟨r, hr, her⟩ | ⟨d, hd, hq, hed⟩
    · have hrid : r.id = id := by
        rw [← heid]
        exact congrArg AgentMessage.id her.symm
      rcases h.idsAt_source hi with hi | ⟨-, d, hd, hdid⟩
      · exact hs.unfiled i id hi q r hr hrid
      · exact hnew hd (.inl (.entry hr)) (hrid.trans hdid.symm)
    · -- the entry just made is of the one delivery that is recorded no more
      obtain ⟨-, hids⟩ := h.recorded d hd
      have hdid : d.message.id = id := by
        rw [← heid]
        exact (congrArg Header.id hed).symm
      have hold : d.message.id ∈ s.idsAt c := by
        rw [hids]
        exact .head _
      by_cases hic : i = c
      · have hnodup := hs.once c
        rw [hids] at hnodup
        rw [hic, ← hdid] at hi
        exact (nodup_cons.mp hnodup).1 hi
      · rw [h.idsAt_of_ne hic, ← hdid] at hi
        exact hic (hs.apart i c _ hi hold)

theorem Corresponds.step (hs : Corresponds s) (h : s.step e = some t) : Corresponds t := by
  obtain ⟨c, ds, filed, heffect⟩ := (step_cases h).effect hs.placed
  exact heffect.corresponds hs

end Facade

end Soloist
