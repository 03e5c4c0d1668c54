import Soloist.Trust.Book

/-! Deciding a trust request: an approval reads the request, writes the grant and resolves the
request in three steps, while denials, withdrawals and expiry come in between. -/
open List Slots

namespace Soloist

/-- A row of the trust store, with its provenance. -/
structure TrustGrant where
  command : String
  requestedBy : ProcessId
  reason : String
  grantedAtUnixMillis : ℕ
  deriving DecidableEq

inductive ResolveTrustRequestError
  | notPending
  | changedSinceReview
  | store
  deriving DecidableEq, Repr

def decisionNotice (review : TrustReviewCommand) : TrustRequestState → String
  | .granted =>
    "Your trust request was approved: `" ++ review.command ++
      "` is now trusted in this project and can be started."
  | _ =>
    "Your trust request for `" ++ review.command ++
      "` was declined. It is still untrusted; do not ask again for the same command without new reason to."

structure DecisionNotice where
  recipient : ProcessId
  id : TrustRequestId
  outcome : TrustRequestState
  body : String
  deriving DecidableEq

/-- How far an approval has come: it has read the request, written its grant, or resolved it. -/
inductive ApprovalPhase
  | peeked
  | granted
  | settled
  deriving DecidableEq, Repr

structure Approval where
  pinned : PendingTrustRequest
  phase : ApprovalPhase

/-- The trust requests, the calls deciding them, the durable grants and the notices delivered. -/
structure TrustDesk where
  book : RequestBook
  approvals : Slots ℕ Approval
  /-- The denials that have resolved a request and have still to tell its requester. -/
  denials : Slots ℕ TrustRequest
  grants : Slots (ProjectId × Hash) TrustGrant
  /-- The requests for which a grant was written. -/
  written : List TrustRequestId
  notices : List DecisionNotice
  replies : List (ℕ × Except ResolveTrustRequestError Unit)

inductive DeskEvent
  /-- Any other operation on the requests, or the announcement of one. -/
  | book (event : BookEvent)
  | approve (call : ℕ) (id : TrustRequestId) (reviewedVariant : Option Hash) (now : ℕ)
  | writeGrant (call : ℕ) (fault : Bool) (now : ℕ)
  | settleGrant (call : ℕ) (now : ℕ)
  | notifyGranted (call : ℕ) (delivered : Bool)
  | deny (call : ℕ) (id : TrustRequestId) (now : ℕ)
  | notifyDenied (call : ℕ) (delivered : Bool)

namespace TrustDesk
variable [Sha256]

def new : TrustDesk := ⟨RequestBook.new, Slots.empty, Slots.empty, Slots.empty, [], [], []⟩

def reply (s : TrustDesk) (call : ℕ) (result : Except ResolveTrustRequestError Unit) : TrustDesk :=
  { s with replies := s.replies ++ [(call, result)] }

def afterOp (s : TrustDesk) (op : RequestOp) : TrustDesk :=
  { s with book := s.book.after (op.apply s.book.requests) }

def notifyRequester (s : TrustDesk) (request : TrustRequest) (outcome : TrustRequestState)
    (delivered : Bool) : TrustDesk :=
  if delivered then
    { s with
      notices := s.notices ++
        [⟨request.requestedBy, request.id, outcome, decisionNotice request.review outcome⟩] }
  else s

def step (s : TrustDesk) : DeskEvent → Option TrustDesk
  | .book (.op (.resolve _ _ _)) => none
  | .book (.op op) => some (s.afterOp op)
  | .book (.publish index) => (s.book.step (.publish index)).map fun book => { s with book }
  | .approve call id reviewedVariant now =>
    if (s.approvals call).isSome then none
    else
      let t := s.afterOp (.peek id now)
      match (s.book.requests.peek id now).2.1 with
      | none => some (t.reply call (.error .notPending))
      | some pinned =>
        let variant := pinned.spec.variantHash
        if variant ≠ pinned.request.review.variantHash ∨ reviewedVariant ≠ some variant then
          some (t.reply call (.error .changedSinceReview))
        else some { t with approvals := t.approvals.put call ⟨pinned, .peeked⟩ }
  | .writeGrant call fault now =>
    match s.approvals call with
    | some ⟨pinned, .peeked⟩ =>
      if fault then some ({ s with approvals := s.approvals.erase call }.reply call (.error .store))
      else
        some { s with
          grants := s.grants.put (pinned.request.project, pinned.spec.variantHash)
            ⟨pinned.spec.command, pinned.request.requestedBy, pinned.request.reason, now⟩
          written := pinned.request.id :: s.written
          approvals := s.approvals.put call ⟨pinned, .granted⟩ }
    | _ => none
  | .settleGrant call now =>
    match s.approvals call with
    | some ⟨pinned, .granted⟩ =>
      let t := s.afterOp (.resolve pinned.request.id true now)
      some { t with approvals := t.approvals.put call ⟨pinned, .settled⟩ }
    | _ => none
  | .notifyGranted call delivered =>
    match s.approvals call with
    | some ⟨pinned, .settled⟩ =>
      let t := s.notifyRequester pinned.request .granted delivered
      some ({ t with approvals := t.approvals.erase call }.reply call (.ok ()))
    | _ => none
  | .deny call id now =>
    if (s.denials call).isSome then none
    else
      let t := s.afterOp (.resolve id false now)
      match (s.book.requests.resolve id .denied now).2.1 with
      | none => some (t.reply call (.error .notPending))
      | some request => some { t with denials := t.denials.put call request }
  | .notifyDenied call delivered =>
    match s.denials call with
    | some request =>
      let t := s.notifyRequester request .denied delivered
      some ({ t with denials := s.denials.erase call }.reply call (.ok ()))
    | none => none

def op (s : TrustDesk) : DeskEvent → Option RequestOp
  | .book (.op (.resolve _ _ _)) => none
  | .book (.op op) => some op
  | .book (.publish _) => none
  | .approve call id _ now => if (s.approvals call).isSome then none else some (.peek id now)
  | .writeGrant _ _ _ => none
  | .settleGrant call now =>
    match s.approvals call with
    | some ⟨pinned, .granted⟩ => some (.resolve pinned.request.id true now)
    | _ => none
  | .notifyGranted _ _ => none
  | .deny call id now => if (s.denials call).isSome then none else some (.resolve id false now)
  | .notifyDenied _ _ => none

end TrustDesk

def trustMachine [Sha256] : Machine TrustDesk DeskEvent where
  init s := s = TrustDesk.new
  step := TrustDesk.step

namespace RequestOp

/-- An operation lets a pending request go without granting it. -/
def Releases (op : RequestOp) (held : PendingTrustRequest) : Prop :=
  match op with
  | .record submission now =>
    submission.reason.utf8ByteSize ≤ maxTrustRequestReasonBytes ∧
      held.request.expiresUnixMillis ≤ now
  | .resolve id granted now =>
    held.request.expiresUnixMillis ≤ now ∨ held.request.id = id ∧ granted = false
  | .withdraw process now =>
    held.request.expiresUnixMillis ≤ now ∨ held.request.requestedBy = process
  | .status _ _ now | .pending _ now | .peek _ now => held.request.expiresUnixMillis ≤ now

instance (held : PendingTrustRequest) : ∀ op : RequestOp, Decidable (op.Releases held)
  | .record _ _ => inferInstanceAs (Decidable (_ ∧ _))
  | .resolve _ _ _ => inferInstanceAs (Decidable (_ ∨ _))
  | .withdraw _ _ => inferInstanceAs (Decidable (_ ∨ _))
  | .status _ _ _ => inferInstanceAs (Decidable (_ ≤ _))
  | .pending _ _ => inferInstanceAs (Decidable (_ ≤ _))
  | .peek _ _ => inferInstanceAs (Decidable (_ ≤ _))

end RequestOp

namespace TrustRequests
variable {r : TrustRequests} {held : PendingTrustRequest} {now : ℕ} {log : List TrustEvent}

theorem decided_pruned (hheld : held ∈ r.state.pending)
    (hexpired : held.request.expiresUnixMillis ≤ now) :
    (held.request.id, .expired) ∈ decisions (r.pruned now).2 := by
  show _ ∈ decisions (announceResolved (r.state.pending.filter _) .expired)
  rw [decisions_announceResolved]
  exact mem_map_of_mem
    (f := fun held : PendingTrustRequest => (held.request.id, TrustRequestState.expired))
    (mem_filter.mpr ⟨hheld, by simpa using hexpired⟩)

theorem mem_pendingIds (hheld : held ∈ r.state.pending) : held.request.id ∈ r.pendingIds :=
  mem_map_of_mem (f := fun held : PendingTrustRequest => held.request.id) hheld

theorem Sound.find_id (h : r.Sound log) (hheld : held ∈ r.state.pending) :
    r.state.pending.find? (fun other => other.request.id = held.request.id) = some held := by
  have hids : (r.state.pending.map fun held => held.request.id).Nodup :=
    (nodup_append.mp h.once).1
  cases hfind : r.state.pending.find? fun other => other.request.id = held.request.id with
  | none =>
    have hnone := find?_eq_none.mp hfind held hheld
    simp at hnone
  | some other =>
    have hid := find?_some hfind
    rw [decide_eq_true_eq] at hid
    rw [inj_on_of_nodup_map hids (mem_of_find?_eq_some hfind) hheld hid]

/-- What a resolution decides, once the aged requests are gone. -/
theorem Sound.resolve_live (h : r.Sound log) (hheld : held ∈ r.state.pending)
    (hlive : now < held.request.expiresUnixMillis) (outcome : TrustRequestState) :
    (r.resolve held.request.id outcome now).2 =
      (some held.request, (r.pruned now).2 ++ announceResolved [held] outcome) := by
  unfold TrustRequests.resolve
  dsimp only
  rw [(h.pruned now).find_id (mem_pruned hheld hlive)]

variable (hheld : held ∈ r.state.pending)
include hheld

variable (hlive : now < held.request.expiresUnixMillis)
include hlive

theorem mem_resolve_of_ne {id : TrustRequestId} {outcome : TrustRequestState}
    (hne : held.request.id ≠ id) :
    held ∈ (r.resolve id outcome now).1.state.pending := by
  have hkept := mem_pruned hheld hlive
  unfold TrustRequests.resolve
  dsimp only
  split
  · exact hkept
  · exact (mem_eraseP_of_neg (by simpa using hne)).mpr hkept

theorem mem_withdraw_of_ne {process : ProcessId}
    (hne : held.request.requestedBy ≠ process) :
    held ∈ (r.withdrawRequestsOf process now).1.state.pending := by
  have hkept := mem_pruned hheld hlive
  show held ∈ ((r.pruned now).1.state.part _ _).1.pending
  unfold RequestState.part
  dsimp only
  rw [RequestState.pending_recordAll]
  exact mem_filter.mpr ⟨hkept, by simpa using hne⟩

theorem decided_withdraw
    :
    (held.request.id, .withdrawn) ∈
      decisions (r.withdrawRequestsOf held.request.requestedBy now).2 := by
  show _ ∈ decisions ((r.pruned now).2 ++ announceResolved ((r.pruned now).1.state.pending.filter _)
    .withdrawn)
  rw [decisions_append, decisions_announceResolved]
  apply mem_append_right
  exact mem_map_of_mem
    (f := fun held : PendingTrustRequest => (held.request.id, TrustRequestState.withdrawn))
    (mem_filter.mpr ⟨mem_pruned hheld hlive, by simp⟩)

omit hlive

omit hheld

variable [Sha256]

variable {op : RequestOp}

theorem Sound.kept (h : r.Sound log) (hheld : held ∈ r.state.pending) (hkept : ¬op.Releases held) :
    held.request.id ∈ (op.apply r).1.pendingIds ∨
      (held.request.id, .granted) ∈ decisions (op.apply r).2 := by
  cases op with
  | record submission now =>
    left
    apply mem_pendingIds
    by_cases hreason : maxTrustRequestReasonBytes < submission.reason.utf8ByteSize
    · show held ∈ (r.record submission now).1.state.pending
      unfold TrustRequests.record
      rw [if_pos hreason]
      exact hheld
    · apply mem_record submission hheld
      by_contra hexpired
      exact hkept ⟨Nat.le_of_not_lt hreason, Nat.le_of_not_lt hexpired⟩
  | resolve id granted now =>
    rw [RequestOp.Releases, not_or, Nat.not_le] at hkept
    by_cases hid : held.request.id = id
    · right
      have hgranted : granted = true := by
        by_contra hdenied
        exact hkept.2 ⟨hid, Bool.eq_false_iff.mpr hdenied⟩
      subst hid hgranted
      show _ ∈ decisions (r.resolve held.request.id .granted now).2.2
      rw [h.resolve_live hheld hkept.1, decisions_append]
      exact mem_append_right _ (mem_singleton_self _)
    · left
      exact mem_pendingIds (mem_resolve_of_ne hheld hkept.1 hid)
  | withdraw process now =>
    left
    rw [RequestOp.Releases, not_or, Nat.not_le] at hkept
    exact mem_pendingIds (mem_withdraw_of_ne hheld hkept.1 hkept.2)
  | status project id now => exact .inl (mem_pendingIds (mem_pruned hheld (Nat.lt_of_not_le hkept)))
  | pending project now => exact .inl (mem_pendingIds (mem_pruned hheld (Nat.lt_of_not_le hkept)))
  | peek id now => exact .inl (mem_pendingIds (mem_pruned hheld (Nat.lt_of_not_le hkept)))

theorem decided_expired (hheld : held ∈ r.state.pending)
    (hreason : ∀ submission now, op = .record submission now →
      submission.reason.utf8ByteSize ≤ maxTrustRequestReasonBytes)
    (hexpired : held.request.expiresUnixMillis ≤ op.now) :
    (held.request.id, .expired) ∈ decisions (op.apply r).2 := by
  have hdecided : (held.request.id, TrustRequestState.expired) ∈ decisions (r.pruned op.now).2 :=
    decided_pruned hheld hexpired
  cases op with
  | record submission now =>
    show _ ∈ decisions (r.record submission now).2.2
    unfold TrustRequests.record
    rw [if_neg (Nat.not_lt.mpr (hreason submission now rfl))]
    dsimp only
    split
    · exact hdecided
    · split_ifs
      · exact hdecided
      · exact hdecided
      · rw [decisions_append]
        exact mem_append_left _ hdecided
  | resolve id granted now =>
    show _ ∈ decisions (r.resolve id (userDecision granted) now).2.2
    unfold TrustRequests.resolve
    dsimp only
    split
    · exact hdecided
    · rw [decisions_append]
      exact mem_append_left _ hdecided
  | withdraw process now =>
    show _ ∈ decisions ((r.pruned now).2 ++ _)
    rw [decisions_append]
    exact mem_append_left _ hdecided
  | status project id now => exact hdecided
  | pending project now => exact hdecided
  | peek id now => exact hdecided

theorem Sound.released (h : r.Sound log) (hheld : held ∈ r.state.pending)
    (hreleased : op.Releases held) :
    ∃ outcome, outcome ≠ .granted ∧ (held.request.id, outcome) ∈ decisions (op.apply r).2 := by
  by_cases hexpired : held.request.expiresUnixMillis ≤ op.now ∧
      ∀ submission now, op = .record submission now →
        submission.reason.utf8ByteSize ≤ maxTrustRequestReasonBytes
  · exact ⟨.expired, by decide, decided_expired hheld hexpired.2 hexpired.1⟩
  · cases op with
    | record submission now =>
      exfalso
      apply hexpired
      refine ⟨hreleased.2, ?_⟩
      intro submission' now' heq
      obtain ⟨rfl, -⟩ := RequestOp.record.inj heq
      exact hreleased.1
    | resolve id granted now =>
      obtain hage | ⟨rfl, rfl⟩ := hreleased
      · exact absurd ⟨hage, fun _ _ heq => by cases heq⟩ hexpired
      · have hlive : now < held.request.expiresUnixMillis := by
          by_contra hage
          exact hexpired ⟨Nat.le_of_not_lt hage, fun _ _ heq => by cases heq⟩
        refine ⟨.denied, by decide, ?_⟩
        show _ ∈ decisions (r.resolve held.request.id .denied now).2.2
        rw [h.resolve_live hheld hlive, decisions_append]
        exact mem_append_right _ (mem_singleton_self _)
    | withdraw process now =>
      obtain hage | rfl := hreleased
      · exact absurd ⟨hage, fun _ _ heq => by cases heq⟩ hexpired
      · have hlive : now < held.request.expiresUnixMillis := by
          by_contra hage
          exact hexpired ⟨Nat.le_of_not_lt hage, fun _ _ heq => by cases heq⟩
        exact ⟨.withdrawn, by decide, decided_withdraw hheld hlive⟩
    | status project id now => exact absurd ⟨hreleased, fun _ _ heq => by cases heq⟩ hexpired
    | pending project now => exact absurd ⟨hreleased, fun _ _ heq => by cases heq⟩ hexpired
    | peek id now => exact absurd ⟨hreleased, fun _ _ heq => by cases heq⟩ hexpired

end TrustRequests

namespace TrustDesk
variable {s t : TrustDesk} {e : DeskEvent} {o : RequestOp}

def decided (s : TrustDesk) : List (TrustRequestId × TrustRequestState) := decisions s.book.log

/-- What every interleaving keeps: a denial that has still to tell its requester is the one that
decided the request, and nobody was told of it yet. -/
structure WellKept (s : TrustDesk) : Prop where
  sound : s.book.requests.Sound s.book.log
  denied : ∀ call request, s.denials call = some request → (request.id, .denied) ∈ s.decided
  untold : ∀ call request, s.denials call = some request →
    ∀ notice ∈ s.notices, notice.id = request.id → notice.outcome ≠ .denied
  distinct : ∀ call other request again, s.denials call = some request →
    s.denials other = some again → request.id = again.id → call = other
  told : ∀ notice ∈ s.notices, notice.outcome = .denied → (notice.id, .denied) ∈ s.decided

/-- Grants, outcomes and notices agree: no request is decided twice, a grant was written for
requests that are granted or still being decided only, and each requester was told at most once,
and what was decided. -/
@[mk_iff]
structure Consistent (s : TrustDesk) : Prop where
  once : (s.decided.map Prod.fst).Nodup
  granted : ∀ id ∈ s.written, id ∈ s.book.requests.pendingIds ∨ (id, .granted) ∈ s.decided
  agree : ∀ notice ∈ s.notices, (notice.id, notice.outcome) ∈ s.decided
  single : (s.notices.map DecisionNotice.id).Nodup

theorem wellKept_new : new.WellKept where
  sound := TrustRequests.sound_new
  denied := by
    intro call request h
    cases h
  untold := by
    intro call request h
    cases h
  distinct := by
    intro call other request again h
    cases h
  told := by
    intro notice h
    cases h

theorem consistent_new : new.Consistent where
  once := nodup_nil
  granted := by
    intro id h
    cases h
  agree := by
    intro notice h
    cases h
  single := nodup_nil

theorem WellKept.once (h : s.WellKept) : (s.decided.map Prod.fst).Nodup :=
  (nodup_append.mp h.sound.once).2.1

variable {id : TrustRequestId}

theorem WellKept.outcome_unique (h : s.WellKept) {a b : TrustRequestState}
    (ha : (id, a) ∈ s.decided) (hb : (id, b) ∈ s.decided) : a = b :=
  congrArg Prod.snd (inj_on_of_nodup_map h.once ha hb rfl)

theorem WellKept.congr (h : s.WellKept) (hbook : t.book = s.book) (hdenials : t.denials = s.denials)
    (hnotices : t.notices = s.notices) : t.WellKept := by
  have hdecided : t.decided = s.decided := by
    unfold decided
    rw [hbook]
  constructor
  · rw [hbook]
    exact h.sound
  · rw [hdenials, hdecided]
    exact h.denied
  · rw [hdenials, hnotices]
    exact h.untold
  · rw [hdenials]
    exact h.distinct
  · rw [hnotices, hdecided]
    exact h.told

variable {now : ℕ} {request : TrustRequest}

variable {outcome : TrustRequestState}

theorem resolve_found {r : TrustRequests} (h : (r.resolve id outcome now).2.1 = some request) :
    request.id = id ∧ id ∈ r.pendingIds ∧ (id, outcome) ∈ decisions (r.resolve id outcome now).2.2 := by
  unfold TrustRequests.resolve at h ⊢
  dsimp only at h ⊢
  cases hfind : (r.pruned now).1.state.pending.find? fun held => held.request.id = id with
  | none =>
    rw [hfind] at h
    cases h
  | some held =>
    rw [hfind] at h
    cases h
    have hid := find?_some hfind
    rw [decide_eq_true_eq] at hid
    have hbefore := (TrustRequests.settles_pruned r now).kept.subset (mem_of_find?_eq_some hfind)
    refine ⟨hid, hid ▸ TrustRequests.mem_pendingIds hbefore, ?_⟩
    dsimp only
    rw [decisions_append, ← hid]
    exact mem_append_right _ (mem_singleton_self _)

variable {call : ℕ}

theorem WellKept.notifyDenied (h : s.WellKept) (hcall : s.denials call = some request)
    (delivered : Bool) :
    ({ s.notifyRequester request .denied delivered with
      denials := s.denials.erase call } : TrustDesk).WellKept := by
  have hbook : (s.notifyRequester request .denied delivered).book = s.book := by
    unfold notifyRequester
    split_ifs
    · rfl
    · rfl
  have hnotices : ∀ notice ∈ (s.notifyRequester request .denied delivered).notices,
      notice ∈ s.notices ∨ notice.id = request.id ∧ notice.outcome = .denied := by
    intro notice hnotice
    unfold notifyRequester at hnotice
    split_ifs at hnotice
    · obtain hold | hnew := mem_append.mp hnotice
      · exact .inl hold
      · rw [mem_singleton.mp hnew]
        exact .inr ⟨rfl, rfl⟩
    · exact .inl hnotice
  have hdecided : (s.notifyRequester request .denied delivered).decided = s.decided := by
    unfold decided
    rw [hbook]
  constructor
  · show (s.notifyRequester request .denied delivered).book.requests.Sound _
    rw [hbook]
    exact h.sound
  · intro other again hother
    show _ ∈ (s.notifyRequester request .denied delivered).decided
    rw [hdecided]
    exact h.denied other again (erase_eq_some.mp hother).2
  · intro other again hother notice hnotice hid houtcome
    obtain ⟨hne, hother⟩ := erase_eq_some.mp hother
    obtain hold | ⟨hnoticed, -⟩ := hnotices notice hnotice
    · exact h.untold other again hother notice hold hid houtcome
    · exact hne (h.distinct other call again request hother hcall (hid.symm.trans hnoticed))
  · intro first second request' again hfirst hsecond hid
    exact h.distinct first second request' again (erase_eq_some.mp hfirst).2
      (erase_eq_some.mp hsecond).2 hid
  · intro notice hnotice houtcome
    show _ ∈ (s.notifyRequester request .denied delivered).decided
    rw [hdecided]
    obtain hold | ⟨hid, -⟩ := hnotices notice hnotice
    · exact h.told notice hold houtcome
    · rw [hid]
      exact h.denied call request hcall

theorem WellKept.notifyGranted (h : s.WellKept) (request : TrustRequest) (delivered : Bool) :
    (s.notifyRequester request .granted delivered).WellKept := by
  unfold notifyRequester
  split_ifs
  · refine ⟨h.sound, h.denied, ?_, h.distinct, ?_⟩
    · intro call denied hcall notice hnotice hid houtcome
      obtain hold | hnew := mem_append.mp hnotice
      · exact h.untold call denied hcall notice hold hid houtcome
      · rw [mem_singleton.mp hnew] at houtcome
        cases houtcome
    · intro notice hnotice houtcome
      obtain hold | hnew := mem_append.mp hnotice
      · exact h.told notice hold houtcome
      · rw [mem_singleton.mp hnew] at houtcome
        cases houtcome
  · exact h

/-- Steps that leave the requests, what was written and the notices as some state has them. -/
theorem consistent_congr (hbook : t.book = s.book) (hwritten : t.written = s.written)
    (hnotices : t.notices = s.notices) : t.Consistent ↔ s.Consistent := by
  have hdecided : t.decided = s.decided := by
    unfold decided
    rw [hbook]
  rw [consistent_iff, consistent_iff, hbook, hwritten, hnotices, hdecided]

theorem consistent_notify (h : s.Consistent) :
    (s.notifyRequester request outcome true).Consistent ↔
      (request.id, outcome) ∈ s.decided ∧ request.id ∉ s.notices.map DecisionNotice.id := by
  have hnotices : (s.notifyRequester request outcome true).notices.map DecisionNotice.id =
      s.notices.map DecisionNotice.id ++ [request.id] := by
    unfold notifyRequester
    rw [if_pos rfl, map_append, map_singleton]
  constructor
  · intro ht
    have hsingle := ht.single
    rw [hnotices, nodup_append_comm, singleton_append, nodup_cons] at hsingle
    exact ⟨ht.agree _ (mem_append_right _ (mem_singleton_self _)), hsingle.1⟩
  · rintro ⟨hdecided, hnew⟩
    refine ⟨h.once, h.granted, ?_, ?_⟩
    · intro notice hnotice
      obtain hold | hnotice := mem_append.mp hnotice
      · exact h.agree notice hold
      · rw [mem_singleton.mp hnotice]
        exact hdecided
    · rw [hnotices, nodup_append_comm, singleton_append, nodup_cons]
      exact ⟨hnew, h.single⟩

theorem consistent_written (h : s.Consistent) (hbook : t.book = s.book)
    (hwritten : t.written = id :: s.written) (hnotices : t.notices = s.notices) :
    t.Consistent ↔ id ∈ s.book.requests.pendingIds ∨ (id, .granted) ∈ s.decided := by
  have hdecided : t.decided = s.decided := by
    unfold decided
    rw [hbook]
  rw [consistent_iff, hbook, hwritten, hnotices, hdecided, forall_mem_cons]
  constructor
  · rintro ⟨-, ⟨hgrant, -⟩, -⟩
    exact hgrant
  · intro hgrant
    exact ⟨h.once, ⟨hgrant, h.granted⟩, h.agree, h.single⟩

/-- An interleaving does not contest an approval: no operation lets a request go ungranted once its
grant is written, a grant is written only while its request is undecided or granted (it was not
refused since the approval read it), and an approval's notice reaches a requester only if the request
is granted and nobody has told it (no second approval of it was under way). -/
def Uncontested (s : TrustDesk) (e : DeskEvent) : Prop :=
  (∀ op, s.op e = some op → ∀ held ∈ s.book.requests.state.pending,
    held.request.id ∈ s.written → ¬op.Releases held) ∧
  match e with
  | .writeGrant call false _ => ∀ pinned, s.approvals call = some ⟨pinned, .peeked⟩ →
      pinned.request.id ∈ s.book.requests.pendingIds ∨ (pinned.request.id, .granted) ∈ s.decided
  | .notifyGranted call true => ∀ pinned, s.approvals call = some ⟨pinned, .settled⟩ →
      (pinned.request.id, .granted) ∈ s.decided ∧
        pinned.request.id ∉ s.notices.map DecisionNotice.id
  | _ => True

/-- A step that runs an operation contests an approval only through that operation. -/
theorem uncontested_op (hop : s.op e = some o) :
    s.Uncontested e ↔ ∀ held ∈ s.book.requests.state.pending,
      held.request.id ∈ s.written → ¬o.Releases held := by
  unfold Uncontested
  rw [hop]
  cases e with
  | writeGrant call fault now => cases hop
  | notifyGranted call delivered => cases hop
  | book event => simp
  | approve call id reviewedVariant now => simp
  | settleGrant call now => simp
  | deny call id now => simp
  | notifyDenied call delivered => simp

/-- A denial's notice says what it decided, to a requester nobody told. -/
theorem consistent_notifyDenied (hkept : s.WellKept) (h : s.Consistent)
    (hcall : s.denials call = some request) (delivered : Bool) :
    (s.notifyRequester request .denied delivered).Consistent := by
  cases delivered with
  | false => exact h
  | true =>
    apply (consistent_notify h).mpr
    have hdenied := hkept.denied call request hcall
    refine ⟨hdenied, ?_⟩
    intro hmem
    obtain ⟨notice, hnotice, hid⟩ := mem_map.mp hmem
    have hagree := h.agree notice hnotice
    rw [hid] at hagree
    exact hkept.untold call request hcall notice hnotice hid (hkept.outcome_unique hagree hdenied)

variable [Sha256]

theorem decided_afterOp (s : TrustDesk) (op : RequestOp) :
    (s.afterOp op).decided = s.decided ++ decisions (op.apply s.book.requests).2 := by
  unfold decided afterOp
  rw [RequestBook.log_after, decisions_append]

/-- A step that runs an operation does only that to the requests, and writes and tells nothing. -/
theorem step_op (hop : s.op e = some o) :
    ∃ t, s.step e = some t ∧ t.book = (s.afterOp o).book ∧ t.written = s.written ∧
      t.notices = s.notices := by
  cases e with
  | book event =>
    cases event with
    | publish index => cases hop
    | op op =>
      cases op with
      | resolve id granted now => cases hop
      | record submission now =>
        cases hop
        exact ⟨_, rfl, rfl, rfl, rfl⟩
      | status project id now =>
        cases hop
        exact ⟨_, rfl, rfl, rfl, rfl⟩
      | pending project now =>
        cases hop
        exact ⟨_, rfl, rfl, rfl, rfl⟩
      | peek id now =>
        cases hop
        exact ⟨_, rfl, rfl, rfl, rfl⟩
      | withdraw process now =>
        cases hop
        exact ⟨_, rfl, rfl, rfl, rfl⟩
  | approve call id reviewedVariant now =>
    unfold op at hop
    unfold step
    dsimp only at hop ⊢
    split_ifs at hop ⊢ with hbusy
    cases hop
    split
    · exact ⟨_, rfl, rfl, rfl, rfl⟩
    · split_ifs
      · exact ⟨_, rfl, rfl, rfl, rfl⟩
      · exact ⟨_, rfl, rfl, rfl, rfl⟩
  | writeGrant call fault now => cases hop
  | settleGrant call now =>
    unfold op at hop
    unfold step
    dsimp only at hop ⊢
    split at hop
    · cases hop
      exact ⟨_, rfl, rfl, rfl, rfl⟩
    · cases hop
  | notifyGranted call delivered => cases hop
  | deny call id now =>
    unfold op at hop
    unfold step
    dsimp only at hop ⊢
    split_ifs at hop ⊢ with hbusy
    cases hop
    split
    · exact ⟨_, rfl, rfl, rfl, rfl⟩
    · exact ⟨_, rfl, rfl, rfl, rfl⟩
  | notifyDenied call delivered => cases hop

theorem consistent_op (hkept : s.WellKept) (h : s.Consistent) {op : RequestOp}
    (hbook : t.book = (s.afterOp op).book) (hwritten : t.written = s.written)
    (hnotices : t.notices = s.notices) (hnext : t.WellKept) :
    t.Consistent ↔ ∀ held ∈ s.book.requests.state.pending,
      held.request.id ∈ s.written → ¬op.Releases held := by
  have hdecided : t.decided = s.decided ++ decisions (op.apply s.book.requests).2 := by
    rw [← decided_afterOp]
    unfold decided
    rw [hbook]
  have hpending : t.book.requests = (op.apply s.book.requests).1 := by
    rw [hbook]
    rfl
  constructor
  · intro ht held hheld hgranted hreleased
    obtain ⟨outcome, hne, hmem⟩ := hkept.sound.released hheld hreleased
    have hdone : (held.request.id, outcome) ∈ t.decided := by
      rw [hdecided]
      exact mem_append_right _ hmem
    obtain hstill | hgrant := ht.granted held.request.id (by rw [hwritten]; exact hgranted)
    · exact disjoint_of_nodup_append hnext.sound.once hstill
        (mem_map_of_mem (f := Prod.fst) hdone)
    · exact hne (hnext.outcome_unique hdone hgrant)
  · intro hspared
    refine ⟨hnext.once, ?_, ?_, ?_⟩
    · intro id hid
      rw [hwritten] at hid
      rw [hpending, hdecided]
      obtain hpendingId | hgrant := h.granted id hid
      · obtain ⟨held, hheld, rfl⟩ := mem_map.mp hpendingId
        obtain hstill | hgrant := hkept.sound.kept hheld (hspared held hheld hid)
        · exact .inl hstill
        · exact .inr (mem_append_right _ hgrant)
      · exact .inr (mem_append_left _ hgrant)
    · intro notice hnotice
      rw [hnotices] at hnotice
      rw [hdecided]
      exact mem_append_left _ (h.agree notice hnotice)
    · rw [hnotices]
      exact h.single

theorem WellKept.afterOp (h : s.WellKept) (op : RequestOp) : (s.afterOp op).WellKept where
  sound := by
    show ((op.apply s.book.requests).1).Sound (s.book.after _).log
    rw [RequestBook.log_after]
    exact h.sound.apply op
  denied := by
    intro call request hcall
    rw [decided_afterOp]
    exact mem_append_left _ (h.denied call request hcall)
  untold := h.untold
  distinct := h.distinct
  told := by
    intro notice hnotice houtcome
    rw [decided_afterOp]
    exact mem_append_left _ (h.told notice hnotice houtcome)

theorem WellKept.deny (h : s.WellKept) (hfree : s.denials call = none)
    (hfound : (s.book.requests.resolve id .denied now).2.1 = some request) :
    ({ s.afterOp (.resolve id false now) with
      denials := s.denials.put call request } : TrustDesk).WellKept := by
  obtain ⟨rfl, hpending, hdecided⟩ := resolve_found hfound
  have hundecided : ∀ outcome, (request.id, outcome) ∉ s.decided := fun outcome hmem =>
    disjoint_of_nodup_append h.sound.once hpending (mem_map_of_mem (f := Prod.fst) hmem)
  have hnext := h.afterOp (.resolve request.id false now)
  have hnew : (request.id, .denied) ∈ (s.afterOp (.resolve request.id false now)).decided := by
    rw [decided_afterOp]
    exact mem_append_right _ hdecided
  constructor
  · exact hnext.sound
  · intro other again hother
    obtain ⟨-, rfl⟩ | ⟨-, hold⟩ := put_eq_some.mp hother
    · exact hnew
    · exact hnext.denied other again hold
  · intro other again hother notice hnotice hid houtcome
    obtain ⟨-, rfl⟩ | ⟨-, hold⟩ := put_eq_some.mp hother
    · exact hundecided .denied (hid ▸ h.told notice hnotice houtcome)
    · exact h.untold other again hold notice hnotice hid houtcome
  · intro first second request' again hfirst hsecond hid
    obtain ⟨rfl, rfl⟩ | ⟨-, hfirstOld⟩ := put_eq_some.mp hfirst
    · obtain ⟨rfl, -⟩ | ⟨-, hsecondOld⟩ := put_eq_some.mp hsecond
      · rfl
      · exact absurd (hid ▸ h.denied second again hsecondOld) (hundecided .denied)
    · obtain ⟨rfl, rfl⟩ | ⟨-, hsecondOld⟩ := put_eq_some.mp hsecond
      · exact absurd (hid ▸ h.denied first request' hfirstOld) (hundecided .denied)
      · exact h.distinct first second request' again hfirstOld hsecondOld hid
  · exact hnext.told

theorem WellKept.publish (h : s.WellKept) {index : ℕ} {book : RequestBook}
    (hbook : s.book.step (.publish index) = some book) :
    ({ s with book } : TrustDesk).WellKept ∧
      ({ s with book } : TrustDesk).decided.Perm s.decided ∧ book.requests = s.book.requests := by
  obtain ⟨hsame, hperm⟩ := RequestBook.log_publish hbook
  have hdecided : ({ s with book } : TrustDesk).decided.Perm s.decided := hperm.filterMap _
  refine ⟨⟨RequestBook.sound_step h.sound hbook, ?_, h.untold, h.distinct, ?_⟩, hdecided, hsame⟩
  · intro call request hcall
    exact hdecided.mem_iff.mpr (h.denied call request hcall)
  · intro notice hnotice houtcome
    exact hdecided.mem_iff.mpr (h.told notice hnotice houtcome)

theorem wellKept_step (h : s.WellKept) (hstep : s.step e = some t) : t.WellKept := by
  cases e with
  | book event =>
    cases event with
    | publish index =>
      obtain ⟨book, hbook, rfl⟩ := Option.map_eq_some_iff.mp hstep
      exact (h.publish hbook).1
    | op op =>
      cases op with
      | resolve id granted now => cases hstep
      | record submission now =>
        cases hstep
        exact h.afterOp _
      | status project id now =>
        cases hstep
        exact h.afterOp _
      | pending project now =>
        cases hstep
        exact h.afterOp _
      | peek id now =>
        cases hstep
        exact h.afterOp _
      | withdraw process now =>
        cases hstep
        exact h.afterOp _
  | approve call id reviewedVariant now =>
    unfold step at hstep
    dsimp only at hstep
    split_ifs at hstep
    have hnext := h.afterOp (.peek id now)
    split at hstep
    · cases hstep
      exact hnext.congr rfl rfl rfl
    · split_ifs at hstep
      · cases hstep
        exact hnext.congr rfl rfl rfl
      · cases hstep
        exact hnext.congr rfl rfl rfl
  | writeGrant call fault now =>
    unfold step at hstep
    dsimp only at hstep
    split at hstep
    · split_ifs at hstep
      · cases hstep
        exact h.congr rfl rfl rfl
      · cases hstep
        exact h.congr rfl rfl rfl
    · cases hstep
  | settleGrant call now =>
    unfold step at hstep
    dsimp only at hstep
    split at hstep
    · rename_i pinned _
      cases hstep
      exact (h.afterOp (.resolve pinned.request.id true now)).congr rfl rfl rfl
    · cases hstep
  | notifyGranted call delivered =>
    unfold step at hstep
    dsimp only at hstep
    split at hstep
    · rename_i pinned _
      cases hstep
      exact (h.notifyGranted pinned.request delivered).congr rfl rfl rfl
    · cases hstep
  | deny call id now =>
    unfold step at hstep
    dsimp only at hstep
    split_ifs at hstep with hbusy
    rw [Option.not_isSome_iff_eq_none] at hbusy
    split at hstep
    · cases hstep
      exact (h.afterOp (.resolve id false now)).congr rfl rfl rfl
    · rename_i request hfound
      cases hstep
      exact h.deny hbusy hfound
  | notifyDenied call delivered =>
    unfold step at hstep
    dsimp only at hstep
    split at hstep
    · rename_i request hcall
      cases hstep
      exact (h.notifyDenied hcall delivered).congr rfl rfl rfl
    · cases hstep

variable {pinned : PendingTrustRequest}

theorem step_writeGrant (now : ℕ) (happroval : s.approvals call = some ⟨pinned, .peeked⟩) :
    ∃ t, s.step (.writeGrant call false now) = some t ∧ t.book = s.book ∧
      t.written = pinned.request.id :: s.written ∧ t.notices = s.notices := by
  unfold step
  simp only [happroval, Bool.false_eq_true, if_false]
  exact ⟨_, rfl, rfl, rfl, rfl⟩

theorem writeGrant_cases {fault : Bool} (hstep : s.step (.writeGrant call fault now) = some t) :
    ∃ pinned, s.approvals call = some ⟨pinned, .peeked⟩ ∧
      (fault = true ∧ t.book = s.book ∧ t.written = s.written ∧ t.notices = s.notices ∨
        fault = false ∧ t.book = s.book ∧ t.written = pinned.request.id :: s.written ∧
          t.notices = s.notices) := by
  unfold step at hstep
  dsimp only at hstep
  split at hstep
  · rename_i pinned happroval
    refine ⟨pinned, happroval, ?_⟩
    cases fault with
    | true =>
      cases hstep
      exact .inl ⟨rfl, rfl, rfl, rfl⟩
    | false =>
      cases hstep
      exact .inr ⟨rfl, rfl, rfl, rfl⟩
  · cases hstep

theorem step_notifyGranted (delivered : Bool)
    (happroval : s.approvals call = some ⟨pinned, .settled⟩) :
    ∃ t, s.step (.notifyGranted call delivered) = some t ∧
      t.book = (s.notifyRequester pinned.request .granted delivered).book ∧
      t.written = (s.notifyRequester pinned.request .granted delivered).written ∧
      t.notices = (s.notifyRequester pinned.request .granted delivered).notices := by
  unfold step
  simp only [happroval]
  exact ⟨_, rfl, rfl, rfl, rfl⟩

theorem notifyGranted_cases {delivered : Bool}
    (hstep : s.step (.notifyGranted call delivered) = some t) :
    ∃ pinned, s.approvals call = some ⟨pinned, .settled⟩ ∧
      t.book = (s.notifyRequester pinned.request .granted delivered).book ∧
      t.written = (s.notifyRequester pinned.request .granted delivered).written ∧
      t.notices = (s.notifyRequester pinned.request .granted delivered).notices := by
  unfold step at hstep
  dsimp only at hstep
  split at hstep
  · rename_i pinned happroval
    cases hstep
    exact ⟨pinned, happroval, rfl, rfl, rfl⟩
  · cases hstep

theorem consistent_step (hkept : s.WellKept) (h : s.Consistent) (e : DeskEvent) :
    (∀ t, s.step e = some t → t.Consistent) ↔ s.Uncontested e := by
  cases hop : s.op e with
  | some o =>
    obtain ⟨t, hstep, hbook, hwritten, hnotices⟩ := step_op hop
    rw [uncontested_op hop,
      ← consistent_op hkept h hbook hwritten hnotices (wellKept_step hkept hstep)]
    constructor
    · intro hall
      exact hall t hstep
    · intro ht u hu
      rw [hstep] at hu
      cases hu
      exact ht
  | none =>
    have hquiet : ∀ o, s.op e = some o → ∀ held ∈ s.book.requests.state.pending,
        held.request.id ∈ s.written → ¬o.Releases held := by
      intro o ho
      rw [hop] at ho
      cases ho
    cases e with
    | book event =>
      refine ⟨fun _ => ⟨hquiet, trivial⟩, fun _ t ht => ?_⟩
      cases event with
      | op op =>
        cases op with
        | resolve id granted now => cases ht
        | record submission now => cases hop
        | status project id now => cases hop
        | pending project now => cases hop
        | peek id now => cases hop
        | withdraw process now => cases hop
      | publish index =>
        obtain ⟨book, hbook, rfl⟩ := Option.map_eq_some_iff.mp ht
        obtain ⟨hnext, hdecided, hsame⟩ := hkept.publish hbook
        refine ⟨hnext.once, ?_, ?_, h.single⟩
        · intro id hid
          rw [hsame]
          exact (h.granted id hid).imp_right hdecided.mem_iff.mpr
        · intro notice hnotice
          exact hdecided.mem_iff.mpr (h.agree notice hnotice)
    | approve call id reviewedVariant now =>
      refine ⟨fun _ => ⟨hquiet, trivial⟩, fun _ t ht => ?_⟩
      unfold op at hop
      unfold step at ht
      dsimp only at hop ht
      split_ifs at hop ht
    | settleGrant call now =>
      refine ⟨fun _ => ⟨hquiet, trivial⟩, fun _ t ht => ?_⟩
      unfold op at hop
      unfold step at ht
      dsimp only at hop ht
      split at ht
      · rename_i pinned happroval
        rw [happroval] at hop
        cases hop
      · cases ht
    | deny call id now =>
      refine ⟨fun _ => ⟨hquiet, trivial⟩, fun _ t ht => ?_⟩
      unfold op at hop
      unfold step at ht
      dsimp only at hop ht
      split_ifs at hop ht
    | notifyDenied call delivered =>
      refine ⟨fun _ => ⟨hquiet, trivial⟩, fun _ t ht => ?_⟩
      unfold step at ht
      dsimp only at ht
      split at ht
      · rename_i request hcall
        cases ht
        refine (consistent_congr (s := s.notifyRequester request .denied delivered) ?_ ?_ ?_).mpr
          (consistent_notifyDenied hkept h hcall delivered)
        · rfl
        · rfl
        · rfl
      · cases ht
    | writeGrant call fault now =>
      constructor
      · intro hall
        refine ⟨hquiet, ?_⟩
        cases fault with
        | true => trivial
        | false =>
          intro pinned happroval
          obtain ⟨t, ht, hbook, hwritten, hnotices⟩ := step_writeGrant now happroval
          exact (consistent_written h hbook hwritten hnotices).mp (hall t ht)
      · intro hcontest t ht
        obtain ⟨pinned, happroval, ⟨-, hbook, hwritten, hnotices⟩ | ⟨rfl, hbook, hwritten, hnotices⟩⟩ :=
          writeGrant_cases ht
        · exact (consistent_congr hbook hwritten hnotices).mpr h
        · exact (consistent_written h hbook hwritten hnotices).mpr (hcontest.2 pinned happroval)
    | notifyGranted call delivered =>
      constructor
      · intro hall
        refine ⟨hquiet, ?_⟩
        cases delivered with
        | false => trivial
        | true =>
          intro pinned happroval
          obtain ⟨t, ht, hbook, hwritten, hnotices⟩ := step_notifyGranted true happroval
          exact (consistent_notify h).mp ((consistent_congr hbook hwritten hnotices).mp (hall t ht))
      · intro hcontest t ht
        obtain ⟨pinned, happroval, hbook, hwritten, hnotices⟩ := notifyGranted_cases ht
        apply (consistent_congr hbook hwritten hnotices).mpr
        cases delivered with
        | false => exact h
        | true => exact (consistent_notify h).mpr (hcontest.2 pinned happroval)

end TrustDesk

/-- Throughout a run, grants, outcomes and notices agree exactly when no step of it contests an
approval. -/
theorem decisions_consistent [Sha256] (es : List DeskEvent) :
    trustMachine.Throughout TrustDesk.Consistent TrustDesk.new es ↔
      trustMachine.Along TrustDesk.Uncontested TrustDesk.new es := by
  apply Machine.throughout_iff_along (I := TrustDesk.WellKept)
  · intro s e t hs ht
    exact TrustDesk.wellKept_step hs ht
  · intro s e hkept h
    exact TrustDesk.consistent_step hkept h e
  · exact TrustDesk.wellKept_new
  · exact TrustDesk.consistent_new

/-- A request is denied between the approval's reading of it and its resolution. -/
def deniedMidway [Sha256] : List DeskEvent :=
  [.book (.op (.record startSubmission 0)), .approve 0 1 (some startSpec.variantHash) 5,
    .deny 0 1 6, .notifyDenied 0 true, .writeGrant 0 false 7, .settleGrant 0 8,
    .notifyGranted 0 true]

/-- The request is denied and its requester told so; the grant is written all the same, and the
requester told that too. -/
theorem denied_leaves_grant :
    letI := editSha
    (∃ s, trustMachine.run TrustDesk.new deniedMidway = some s ∧
      s.decided = [(1, .denied)] ∧ (s.grants (1, startSpec.variantHash)).isSome ∧
      s.notices.map DecisionNotice.outcome = [.denied, .granted]) ∧
    ¬trustMachine.Throughout TrustDesk.Consistent TrustDesk.new deniedMidway := by
  let _ := editSha
  refine ⟨⟨_, rfl, by decide, by decide, by decide⟩, ?_⟩
  rintro ⟨-, -, h1⟩
  have h5 := (((((h1 _ rfl).2 _ rfl).2 _ rfl).2 _ rfl).1 _ rfl).granted 1 (by decide)
  revert h5
  decide

end Soloist
