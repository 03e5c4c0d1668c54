import Soloist.Config.Engine
import Soloist.Supervisor.TrustedSpec

/-! The pending trust requests: what processes have asked the user to approve, and what became of
what they asked. -/
open List

namespace Soloist

def maxTrustRequestReasonBytes : ℕ := 4 * 1024

def maxPendingTrustRequestsPerProject : ℕ := 16

def maxPendingTrustRequests : ℕ := 64

def trustRequestTtl : ℕ := 10 * 60 * 1000

inductive TrustRequestState
  | pending
  | granted
  | denied
  | expired
  | withdrawn
  deriving DecidableEq, Repr

inductive TrustRequestCapacityError
  | reasonTooLarge
  | projectQueueFull
  | globalQueueFull
  deriving DecidableEq, Repr

structure TrustRequest where
  id : TrustRequestId
  project : ProjectId
  requestedBy : ProcessId
  requestedByLabel : String
  review : TrustReviewCommand
  reason : String
  expiresUnixMillis : ℕ
  deriving DecidableEq

/-- A request still awaiting a decision, with the spec its review was built from. -/
structure PendingTrustRequest where
  request : TrustRequest
  spec : ProcessSpec
  deriving DecidableEq

structure TrustRequestSubmission where
  project : ProjectId
  requestedBy : ProcessId
  requestedByLabel : String
  name : String
  spec : ProcessSpec
  reason : String

inductive TrustEvent
  | requested (request : TrustRequest)
  | resolved (project : ProjectId) (id : TrustRequestId) (state : TrustRequestState)
  deriving DecidableEq

structure Receipt where
  id : TrustRequestId
  project : ProjectId
  outcome : TrustRequestState
  deriving DecidableEq

structure RequestState where
  pending : List PendingTrustRequest
  resolved : List Receipt

namespace RequestState

/-- Files an outcome a later poll reads back, dropping the oldest receipt when the ring is full. -/
def recordReceipt (outcome : TrustRequestState) (s : RequestState) (held : PendingTrustRequest) :
    RequestState :=
  let kept := if maxPendingTrustRequests ≤ s.resolved.length then s.resolved.tail else s.resolved
  { s with resolved := kept ++ [⟨held.request.id, held.request.project, outcome⟩] }

def part (s : RequestState) (leave : PendingTrustRequest → Bool) (outcome : TrustRequestState) :
    RequestState × List PendingTrustRequest :=
  let leaving := s.pending.filter leave
  let staying := s.pending.filter fun held => !leave held
  (leaving.foldl (recordReceipt outcome) { s with pending := staying }, leaving)

def pruneExpired (s : RequestState) (now : ℕ) : RequestState × List PendingTrustRequest :=
  s.part (fun held => held.request.expiresUnixMillis ≤ now) .expired

def projectCount (s : RequestState) (project : ProjectId) : ℕ :=
  s.pending.countP fun held => held.request.project = project

end RequestState

def announceResolved (leaving : List PendingTrustRequest) (outcome : TrustRequestState) :
    List TrustEvent :=
  leaving.map fun held => .resolved held.request.project held.request.id outcome

/-- The aggregate, and the next request id of the run. -/
structure TrustRequests where
  state : RequestState
  nextId : TrustRequestId

namespace TrustRequests

def new : TrustRequests := ⟨⟨[], []⟩, 1⟩

/-- Every operation first lets the requests that aged out go. -/
def pruned (r : TrustRequests) (now : ℕ) : TrustRequests × List TrustEvent :=
  let (state, aged) := r.state.pruneExpired now
  ({ r with state }, announceResolved aged .expired)

/-- Records a submission, or finds an identical request already awaiting a decision. -/
def record [Sha256] (r : TrustRequests) (submission : TrustRequestSubmission) (now : ℕ) :
    TrustRequests × Except TrustRequestCapacityError TrustRequestId × List TrustEvent :=
  if maxTrustRequestReasonBytes < submission.reason.utf8ByteSize then
    (r, .error .reasonTooLarge, [])
  else
    let review := TrustReviewCommand.fromSpec submission.name submission.spec
    let (r, expired) := r.pruned now
    let duplicate := r.state.pending.find? fun held =>
      held.request.project = submission.project ∧
        held.request.review.variantHash = review.variantHash
    match duplicate with
    | some held => (r, .ok held.request.id, expired)
    | none =>
      if maxPendingTrustRequests ≤ r.state.pending.length then
        (r, .error .globalQueueFull, expired)
      else if maxPendingTrustRequestsPerProject ≤ r.state.projectCount submission.project then
        (r, .error .projectQueueFull, expired)
      else
        let request :=
          { id := r.nextId
            project := submission.project
            requestedBy := submission.requestedBy
            requestedByLabel := submission.requestedByLabel
            review
            reason := submission.reason
            expiresUnixMillis := min (now + trustRequestTtl) (2 ^ 64 - 1) }
        ({ state :=
             { r.state with pending := r.state.pending ++ [⟨request, submission.spec⟩] }
           nextId := r.nextId + 1 },
          .ok request.id, expired ++ [.requested request])

def status (r : TrustRequests) (project : ProjectId) (id : TrustRequestId) (now : ℕ) :
    TrustRequests × Option TrustRequestState × List TrustEvent :=
  let (r, expired) := r.pruned now
  let found :=
    if r.state.pending.any fun held => held.request.id = id ∧ held.request.project = project then
      some .pending
    else
      (r.state.resolved.find? fun receipt => receipt.id = id ∧ receipt.project = project).map
        Receipt.outcome
  (r, found, expired)

/-- Every request of a project still awaiting a decision, oldest first. -/
def pending (r : TrustRequests) (project : ProjectId) (now : ℕ) :
    TrustRequests × List TrustRequest × List TrustEvent :=
  let (r, expired) := r.pruned now
  let openRequests := r.state.pending.filter fun held => held.request.project = project
  (r, openRequests.map PendingTrustRequest.request, expired)

/-- A copy of the pinned request; reading does not remove it. -/
def peek (r : TrustRequests) (id : TrustRequestId) (now : ℕ) :
    TrustRequests × Option PendingTrustRequest × List TrustEvent :=
  let (r, expired) := r.pruned now
  (r, r.state.pending.find? fun held => held.request.id = id, expired)

def resolve (r : TrustRequests) (id : TrustRequestId) (outcome : TrustRequestState) (now : ℕ) :
    TrustRequests × Option TrustRequest × List TrustEvent :=
  let (r, expired) := r.pruned now
  match r.state.pending.find? fun held => held.request.id = id with
  | none => (r, none, expired)
  | some held =>
    let remaining := r.state.pending.eraseP fun held => held.request.id = id
    ({ r with state := { r.state with pending := remaining }.recordReceipt outcome held },
      some held.request, expired ++ announceResolved [held] outcome)

def withdrawRequestsOf (r : TrustRequests) (process : ProcessId) (now : ℕ) :
    TrustRequests × List TrustEvent :=
  let (r, expired) := r.pruned now
  let (state, leaving) := r.state.part (fun held => held.request.requestedBy = process) .withdrawn
  ({ r with state }, expired ++ announceResolved leaving .withdrawn)

end TrustRequests

namespace RequestState
variable {s t : RequestState} {outcome : TrustRequestState} {held : PendingTrustRequest}
  {leaving : List PendingTrustRequest} {leave : PendingTrustRequest → Bool}

/-- The requests that left, each with a receipt of the outcome; the others stay in their order. -/
structure Settles (s t : RequestState) (leaving : List PendingTrustRequest)
    (outcome : TrustRequestState) : Prop where
  kept : t.pending.Sublist s.pending
  parted : (t.pending ++ leaving).Perm s.pending
  receipts : ∀ receipt ∈ t.resolved, receipt ∈ s.resolved ∨
    ∃ held ∈ leaving, receipt = ⟨held.request.id, held.request.project, outcome⟩
  ring : s.resolved.length ≤ maxPendingTrustRequests →
    t.resolved.length ≤ maxPendingTrustRequests

theorem pending_recordReceipt : (s.recordReceipt outcome held).pending = s.pending := rfl

variable {receipt : Receipt}

theorem mem_recordReceipt (h : receipt ∈ (s.recordReceipt outcome held).resolved) :
    receipt ∈ s.resolved ∨ receipt = ⟨held.request.id, held.request.project, outcome⟩ := by
  unfold recordReceipt at h
  obtain h | h := mem_append.mp h
  · left
    split_ifs at h
    · exact mem_of_mem_tail h
    · exact h
  · exact .inr (mem_singleton.mp h)

theorem length_recordReceipt (h : s.resolved.length ≤ maxPendingTrustRequests) :
    (s.recordReceipt outcome held).resolved.length ≤ maxPendingTrustRequests := by
  unfold recordReceipt
  dsimp only
  rw [List.length_append, length_singleton]
  split_ifs with hfull
  · rw [length_tail]
    have hpositive : 0 < maxPendingTrustRequests := by decide
    omega
  · omega

theorem pending_recordAll (leaving : List PendingTrustRequest) :
    (leaving.foldl (recordReceipt outcome) s).pending = s.pending := by
  induction leaving generalizing s with
  | nil => rfl
  | cons held rest ih => rw [foldl_cons, ih, pending_recordReceipt]

theorem mem_recordAll (h : receipt ∈ (leaving.foldl (recordReceipt outcome) s).resolved) :
    receipt ∈ s.resolved ∨
      ∃ held ∈ leaving, receipt = ⟨held.request.id, held.request.project, outcome⟩ := by
  induction leaving generalizing s with
  | nil => exact .inl h
  | cons held rest ih =>
    rw [foldl_cons] at h
    obtain h | ⟨other, hother, rfl⟩ := ih h
    · obtain h | rfl := mem_recordReceipt h
      · exact .inl h
      · exact .inr ⟨held, (.head _), rfl⟩
    · exact .inr ⟨other, .tail _ hother, rfl⟩

theorem length_recordAll (leaving : List PendingTrustRequest)
    (h : s.resolved.length ≤ maxPendingTrustRequests) :
    (leaving.foldl (recordReceipt outcome) s).resolved.length ≤ maxPendingTrustRequests :=
  Loop.invariant (I := fun s : RequestState => s.resolved.length ≤ maxPendingTrustRequests)
    (fun _ _ _ hs => length_recordReceipt hs) h

theorem settles_part (s : RequestState) (leave : PendingTrustRequest → Bool)
    (outcome : TrustRequestState) :
    s.Settles (s.part leave outcome).1 (s.part leave outcome).2 outcome where
  kept := by
    unfold part
    dsimp only
    rw [pending_recordAll]
    exact filter_sublist
  parted := by
    unfold part
    dsimp only
    rw [pending_recordAll]
    exact perm_append_comm.trans (filter_append_perm leave s.pending)
  receipts := by
    intro receipt hreceipt
    exact mem_recordAll (s := { s with pending := s.pending.filter fun held => !leave held }) hreceipt
  ring := by
    intro hring
    exact length_recordAll (s := { s with pending := s.pending.filter fun held => !leave held }) _
      hring

theorem settles_eraseP {q : PendingTrustRequest → Bool} (h : s.pending.find? q = some held) :
    s.Settles (({ s with pending := s.pending.eraseP q } : RequestState).recordReceipt outcome held)
      [held] outcome where
  kept := eraseP_sublist
  parted := by
    obtain ⟨hq, before, after, heq, hbefore⟩ := find?_eq_some_iff_append.mp h
    have herased : s.pending.eraseP q = before ++ after := by
      rw [heq, eraseP_append_right _ (by simpa using hbefore), eraseP_cons_of_pos hq]
    show (s.pending.eraseP q ++ [held]).Perm s.pending
    rw [herased, heq, append_assoc]
    exact (perm_append_comm.append_left before)
  receipts := by
    intro receipt hreceipt
    obtain hreceipt | rfl := mem_recordReceipt hreceipt
    · exact .inl hreceipt
    · exact .inr ⟨held, mem_singleton_self held, rfl⟩
  ring := length_recordReceipt

end RequestState

end Soloist

/-! Every order of operations on the trust requests, with what they announce once unlocked. -/
namespace Soloist

namespace TrustEvent

def decision : TrustEvent → Option (TrustRequestId × TrustRequestState)
  | .requested _ => none
  | .resolved _ id state => some (id, state)

def opened : TrustEvent → Option TrustRequestId
  | .requested request => some request.id
  | .resolved _ _ _ => none

end TrustEvent

def decisions (events : List TrustEvent) : List (TrustRequestId × TrustRequestState) :=
  events.filterMap TrustEvent.decision

def openedIds (events : List TrustEvent) : List TrustRequestId := events.filterMap TrustEvent.opened

def decidedIds (events : List TrustEvent) : List TrustRequestId := (decisions events).map Prod.fst

/-- The aggregate, what its operations have still to announce and what they have announced. -/
structure RequestBook where
  requests : TrustRequests
  owed : List TrustEvent
  announced : List TrustEvent

inductive RequestOp
  | record (submission : TrustRequestSubmission) (now : ℕ)
  | status (project : ProjectId) (id : TrustRequestId) (now : ℕ)
  | pending (project : ProjectId) (now : ℕ)
  | peek (id : TrustRequestId) (now : ℕ)
  /-- The user's decision: a request is resolved as granted or as denied. -/
  | resolve (id : TrustRequestId) (granted : Bool) (now : ℕ)
  | withdraw (process : ProcessId) (now : ℕ)

def userDecision (granted : Bool) : TrustRequestState := if granted then .granted else .denied

namespace RequestOp

def now : RequestOp → ℕ
  | .record _ now | .status _ _ now | .pending _ now | .peek _ now | .resolve _ _ now
  | .withdraw _ now => now

def apply [Sha256] (r : TrustRequests) : RequestOp → TrustRequests × List TrustEvent
  | .record submission now => ((r.record submission now).1, (r.record submission now).2.2)
  | .status project id now => ((r.status project id now).1, (r.status project id now).2.2)
  | .pending project now => ((r.pending project now).1, (r.pending project now).2.2)
  | .peek id now => ((r.peek id now).1, (r.peek id now).2.2)
  | .resolve id granted now =>
    ((r.resolve id (userDecision granted) now).1, (r.resolve id (userDecision granted) now).2.2)
  | .withdraw process now => r.withdrawRequestsOf process now

end RequestOp

inductive BookEvent
  | op (op : RequestOp)
  /-- Some operation that has unlocked publishes what it owes. -/
  | publish (index : ℕ)

namespace RequestBook

def new : RequestBook := ⟨TrustRequests.new, [], []⟩

def log (b : RequestBook) : List TrustEvent := b.announced ++ b.owed

def after (b : RequestBook) (done : TrustRequests × List TrustEvent) : RequestBook :=
  { b with requests := done.1, owed := b.owed ++ done.2 }

def step [Sha256] (b : RequestBook) : BookEvent → Option RequestBook
  | .op op => some (b.after (op.apply b.requests))
  | .publish index =>
    match b.owed[index]? with
    | none => none
    | some event =>
      some { b with owed := b.owed.eraseIdx index, announced := b.announced ++ [event] }

end RequestBook

def requestMachine [Sha256] : Machine RequestBook BookEvent where
  init b := b = RequestBook.new
  step := RequestBook.step

section Decisions
variable {events more : List TrustEvent} {leaving : List PendingTrustRequest}
  {outcome : TrustRequestState}

theorem decisions_append : decisions (events ++ more) = decisions events ++ decisions more :=
  filterMap_append

theorem openedIds_append : openedIds (events ++ more) = openedIds events ++ openedIds more :=
  filterMap_append

theorem decidedIds_append : decidedIds (events ++ more) = decidedIds events ++ decidedIds more := by
  unfold decidedIds
  rw [decisions_append, map_append]

theorem decisions_announceResolved : decisions (announceResolved leaving outcome) =
    leaving.map fun held => (held.request.id, outcome) := by
  unfold decisions announceResolved
  rw [filterMap_map]
  exact filterMap_eq_map.symm ▸ rfl

theorem decidedIds_announceResolved : decidedIds (announceResolved leaving outcome) =
    leaving.map fun held => held.request.id := by
  unfold decidedIds
  rw [decisions_announceResolved, map_map]
  rfl

theorem openedIds_announceResolved : openedIds (announceResolved leaving outcome) = [] := by
  unfold openedIds announceResolved
  rw [filterMap_map]
  exact filterMap_eq_nil_iff.mpr fun _ _ => rfl

end Decisions

namespace TrustRequests
variable {r : TrustRequests} {log events : List TrustEvent} {t : RequestState}
  {leaving : List PendingTrustRequest} {outcome : TrustRequestState} {now : ℕ}

def pendingIds (r : TrustRequests) : List TrustRequestId :=
  r.state.pending.map fun held => held.request.id

def key (held : PendingTrustRequest) : ProjectId × Hash :=
  (held.request.project, held.request.review.variantHash)

/-- What every order of operations keeps, over everything announced. -/
structure Sound (r : TrustRequests) (log : List TrustEvent) : Prop where
  once : (r.pendingIds ++ decidedIds log).Nodup
  opened : (openedIds log).Nodup
  known : ∀ id ∈ r.pendingIds ++ decidedIds log, id ∈ openedIds log
  fresh : ∀ id ∈ openedIds log, id < r.nextId
  keys : (r.state.pending.map key).Nodup
  bounded : r.state.pending.length ≤ maxPendingTrustRequests
  shared : ∀ project, r.state.projectCount project ≤ maxPendingTrustRequestsPerProject
  ring : r.state.resolved.length ≤ maxPendingTrustRequests
  receipts : ∀ receipt ∈ r.state.resolved, receipt.id ∈ decidedIds log ∧ receipt.outcome ≠ .pending

theorem sound_new : new.Sound [] where
  once := nodup_nil
  opened := nodup_nil
  known := by
    intro id hid
    cases hid
  fresh := by
    intro id hid
    cases hid
  keys := nodup_nil
  bounded := Nat.zero_le _
  shared := by
    intro project
    exact Nat.zero_le _
  ring := Nat.zero_le _
  receipts := by
    intro receipt hreceipt
    cases hreceipt

theorem Sound.settles (h : r.Sound log) (hsettles : r.state.Settles t leaving outcome)
    (houtcome : outcome ≠ .pending) :
    Sound { r with state := t } (log ++ announceResolved leaving outcome) := by
  have hids : (t.pending.map (fun held => held.request.id) ++
      (decidedIds log ++ leaving.map fun held => held.request.id)).Perm
        (r.pendingIds ++ decidedIds log) := by
    have hparted := hsettles.parted.map fun held : PendingTrustRequest => held.request.id
    rw [map_append] at hparted
    have hswap : (decidedIds log ++ leaving.map fun held => held.request.id).Perm
        ((leaving.map fun held => held.request.id) ++ decidedIds log) := perm_append_comm
    refine (hswap.append_left _).trans ?_
    rw [← append_assoc]
    exact hparted.append_right _
  have hlog : decidedIds (log ++ announceResolved leaving outcome) =
      decidedIds log ++ leaving.map fun held => held.request.id := by
    rw [decidedIds_append, decidedIds_announceResolved]
  have hopened : openedIds (log ++ announceResolved leaving outcome) = openedIds log := by
    rw [openedIds_append, openedIds_announceResolved, append_nil]
  constructor
  · rw [hlog]
    exact hids.nodup_iff.mpr h.once
  · rw [hopened]
    exact h.opened
  · intro id hid
    rw [hlog] at hid
    rw [hopened]
    exact h.known id (hids.mem_iff.mp hid)
  · rw [hopened]
    exact h.fresh
  · exact h.keys.sublist (hsettles.kept.map key)
  · exact hsettles.kept.length_le.trans h.bounded
  · intro project
    exact (hsettles.kept.countP_le).trans (h.shared project)
  · exact hsettles.ring h.ring
  · intro receipt hreceipt
    rw [hlog]
    obtain hold | ⟨held, hheld, rfl⟩ := hsettles.receipts receipt hreceipt
    · exact ⟨mem_append_left _ (h.receipts receipt hold).1, (h.receipts receipt hold).2⟩
    · exact ⟨mem_append_right _ (mem_map_of_mem hheld), houtcome⟩

theorem Sound.opens (h : r.Sound log) {request : TrustRequest} {spec : ProcessSpec}
    (hid : request.id = r.nextId)
    (hkey : key ⟨request, spec⟩ ∉ r.state.pending.map key)
    (hbounded : r.state.pending.length < maxPendingTrustRequests)
    (hshared : r.state.projectCount request.project < maxPendingTrustRequestsPerProject) :
    Sound
      { state := { r.state with pending := r.state.pending ++ [⟨request, spec⟩] }
        nextId := r.nextId + 1 }
      (log ++ [.requested request]) := by
  have hlog : decidedIds (log ++ [.requested request]) = decidedIds log := by
    rw [decidedIds_append]
    exact append_nil _
  have hopened : openedIds (log ++ [.requested request]) = openedIds log ++ [request.id] := by
    rw [openedIds_append]
    rfl
  have hnew : request.id ∉ openedIds log := by
    intro hmem
    have hlt := h.fresh _ hmem
    rw [hid] at hlt
    exact absurd hlt (lt_irrefl _)
  have hids : ((r.state.pending ++ [PendingTrustRequest.mk request spec]).map
      (fun held => held.request.id) ++ decidedIds log).Perm
        (request.id :: (r.pendingIds ++ decidedIds log)) := by
    rw [map_append, map_singleton, append_assoc]
    exact perm_middle
  constructor
  · rw [hlog]
    apply hids.nodup_iff.mpr
    rw [nodup_cons]
    exact ⟨fun hmem => hnew (h.known _ hmem), h.once⟩
  · rw [hopened, nodup_append_comm, singleton_append, nodup_cons]
    exact ⟨hnew, h.opened⟩
  · intro id hmem
    rw [hlog] at hmem
    rw [hopened, mem_append, mem_singleton]
    obtain rfl | hmem := mem_cons.mp (hids.mem_iff.mp hmem)
    · exact .inr rfl
    · exact .inl (h.known id hmem)
  · intro id hmem
    rw [hopened, mem_append, mem_singleton] at hmem
    show id < r.nextId + 1
    obtain hmem | rfl := hmem
    · exact Nat.lt_succ_of_lt (h.fresh id hmem)
    · rw [hid]
      exact Nat.lt_succ_self _
  · show ((r.state.pending ++ [_]).map key).Nodup
    rw [map_append, map_singleton, nodup_append_comm, singleton_append,
      nodup_cons]
    exact ⟨hkey, h.keys⟩
  · show (r.state.pending ++ [_]).length ≤ _
    rw [List.length_append]
    exact hbounded
  · intro project
    show (r.state.pending ++ [_]).countP _ ≤ _
    rw [countP_append, countP_singleton]
    split_ifs with hproject
    · rw [decide_eq_true_eq] at hproject
      rw [← hproject]
      exact hshared
    · exact h.shared project
  · exact h.ring
  · rw [hlog]
    exact h.receipts

theorem settles_pruned (r : TrustRequests) (now : ℕ) :
    r.state.Settles (r.pruned now).1.state (r.state.pruneExpired now).2 .expired :=
  RequestState.settles_part r.state _ .expired

variable (h : r.Sound log)
include h

theorem Sound.pruned (now : ℕ) :
    (r.pruned now).1.Sound (log ++ (r.pruned now).2) :=
  h.settles (settles_pruned r now) (by decide)

theorem Sound.resolve (id : TrustRequestId) (houtcome : outcome ≠ .pending) :
    (r.resolve id outcome now).1.Sound (log ++ (r.resolve id outcome now).2.2) := by
  have hpruned := h.pruned now
  unfold TrustRequests.resolve
  dsimp only
  cases hfind : (r.pruned now).1.state.pending.find? fun held => held.request.id = id with
  | none => exact hpruned
  | some held =>
    have hsettled := hpruned.settles (RequestState.settles_eraseP hfind) houtcome
    rw [append_assoc] at hsettled
    exact hsettled

theorem Sound.withdrawRequestsOf (process : ProcessId) :
    (r.withdrawRequestsOf process now).1.Sound (log ++ (r.withdrawRequestsOf process now).2) := by
  have hsettled := (h.pruned now).settles
    (RequestState.settles_part (r.pruned now).1.state
      (fun held => held.request.requestedBy = process) .withdrawn) (by decide)
  rw [append_assoc] at hsettled
  exact hsettled

theorem Sound.record [Sha256] (submission : TrustRequestSubmission) :
    (r.record submission now).1.Sound (log ++ (r.record submission now).2.2) := by
  have hpruned := h.pruned now
  unfold TrustRequests.record
  by_cases hreason : maxTrustRequestReasonBytes < submission.reason.utf8ByteSize
  · rw [if_pos hreason, append_nil]
    exact h
  · rw [if_neg hreason]
    dsimp only
    split
    · exact hpruned
    · rename_i hduplicate
      split_ifs with hbounded hshared
      · exact hpruned
      · exact hpruned
      · rw [← append_assoc]
        apply hpruned.opens rfl
        · intro hmem
          obtain ⟨held, hheld, hkey⟩ := mem_map.mp hmem
          have hnone := find?_eq_none.mp hduplicate held hheld
          rw [decide_eq_true_eq] at hnone
          exact hnone ⟨congrArg Prod.fst hkey, congrArg Prod.snd hkey⟩
        · exact Nat.lt_of_not_le hbounded
        · exact Nat.lt_of_not_le hshared

theorem Sound.apply [Sha256] (op : RequestOp) :
    (op.apply r).1.Sound (log ++ (op.apply r).2) := by
  cases op with
  | record submission now => exact h.record submission
  | status project id now => exact h.pruned now
  | pending project now => exact h.pruned now
  | peek id now => exact h.pruned now
  | resolve id granted now =>
    apply h.resolve id
    cases granted with
    | true => decide
    | false => decide
  | withdraw process now => exact h.withdrawRequestsOf process

/-- Announcing in another order changes nothing. -/
theorem Sound.perm (hperm : events.Perm log) : r.Sound events where
  once := (((hperm.filterMap _).map _).append_left _).nodup_iff.mpr h.once
  opened := (hperm.filterMap _).nodup_iff.mpr h.opened
  known := by
    intro id hid
    exact (hperm.filterMap _).mem_iff.mpr
      (h.known id ((((hperm.filterMap _).map _).append_left _).mem_iff.mp hid))
  fresh := by
    intro id hid
    exact h.fresh id ((hperm.filterMap _).mem_iff.mp hid)
  keys := h.keys
  bounded := h.bounded
  shared := h.shared
  ring := h.ring
  receipts := by
    intro receipt hreceipt
    obtain ⟨hdecided, houtcome⟩ := h.receipts receipt hreceipt
    exact ⟨((hperm.filterMap _).map _).mem_iff.mpr hdecided, houtcome⟩

omit h

end TrustRequests

namespace RequestBook
variable {b c : RequestBook} {events : List TrustEvent} {requests : TrustRequests}

theorem log_after (b : RequestBook) (done : TrustRequests × List TrustEvent) :
    (b.after done).log = b.log ++ done.2 := (append_assoc _ _ _).symm

theorem log_publish [Sha256] {index : ℕ} (h : b.step (.publish index) = some c) :
    c.requests = b.requests ∧ c.log.Perm b.log := by
  unfold step at h
  dsimp only at h
  cases hevent : b.owed[index]? with
  | none =>
    rw [hevent] at h
    cases h
  | some event =>
    rw [hevent] at h
    cases h
    obtain ⟨hindex, hget⟩ := List.getElem?_eq_some_iff.mp hevent
    refine ⟨rfl, ?_⟩
    have hperm := getElem_cons_eraseIdx_perm hindex
    rw [hget] at hperm
    show ((b.announced ++ [event]) ++ b.owed.eraseIdx index).Perm (b.announced ++ b.owed)
    rw [append_assoc]
    exact hperm.append_left _

variable {e : BookEvent}

theorem sound_step [Sha256] (h : b.requests.Sound b.log) (hstep : b.step e = some c) :
    c.requests.Sound c.log := by
  cases e with
  | op op =>
    cases hstep
    rw [log_after]
    exact h.apply op
  | publish index =>
    obtain ⟨hsame, hperm⟩ := log_publish hstep
    rw [hsame]
    exact h.perm hperm

theorem decidedIds_step [Sha256] (hstep : b.step e = some c) :
    decidedIds b.log ⊆ decidedIds c.log := by
  cases e with
  | op op =>
    cases hstep
    rw [log_after, decidedIds_append]
    exact subset_append_left _ _
  | publish index =>
    obtain ⟨-, hperm⟩ := log_publish hstep
    exact ((hperm.filterMap _).map _).symm.subset

theorem sound_of_reachable [Sha256] (h : requestMachine.Reachable b) : b.requests.Sound b.log := by
  apply h.invariant (P := fun b : RequestBook => b.requests.Sound b.log)
  · rintro b rfl
    exact TrustRequests.sound_new
  · intro b e c hb hc
    exact sound_step hb hc

end RequestBook

namespace TrustRequests
variable {r : TrustRequests} {log : List TrustEvent} {held : PendingTrustRequest} {now : ℕ}

theorem Sound.status_ne_pending (h : r.Sound log) {id : TrustRequestId} (hid : id ∈ decidedIds log)
    (project : ProjectId) (now : ℕ) : (r.status project id now).2.1 ≠ some .pending := by
  have hpruned := h.pruned now
  have hdecided : id ∈ decidedIds (log ++ (r.pruned now).2) := by
    rw [decidedIds_append]
    exact mem_append_left _ hid
  unfold status
  dsimp only
  split_ifs with hany
  · exfalso
    obtain ⟨held, hheld, hmatch⟩ := any_eq_true.mp hany
    rw [decide_eq_true_eq] at hmatch
    have hpending : id ∈ (r.pruned now).1.pendingIds := by
      rw [← hmatch.1]
      exact mem_map_of_mem hheld
    exact disjoint_of_nodup_append hpruned.once hpending hdecided
  · intro hreported
    obtain ⟨receipt, hreceipt, houtcome⟩ := Option.map_eq_some_iff.mp hreported
    exact (hpruned.receipts receipt (mem_of_find?_eq_some hreceipt)).2 houtcome

/-- A request that has not expired is still pending once the aged ones are gone. -/
theorem mem_pruned (hheld : held ∈ r.state.pending) (hlive : now < held.request.expiresUnixMillis) :
    held ∈ (r.pruned now).1.state.pending := by
  unfold pruned RequestState.pruneExpired RequestState.part
  dsimp only
  rw [RequestState.pending_recordAll]
  refine mem_filter.mpr ⟨hheld, ?_⟩
  simpa using hlive

theorem mem_record [Sha256] (submission : TrustRequestSubmission) (hheld : held ∈ r.state.pending)
    (hlive : now < held.request.expiresUnixMillis) :
    held ∈ (r.record submission now).1.state.pending := by
  have hkept := mem_pruned hheld hlive
  unfold record
  by_cases hreason : maxTrustRequestReasonBytes < submission.reason.utf8ByteSize
  · rw [if_pos hreason]
    exact hheld
  · rw [if_neg hreason]
    dsimp only
    split
    · exact hkept
    · split_ifs
      · exact hkept
      · exact hkept
      · exact mem_append_left _ hkept

end TrustRequests

/-- Over every order of operations and announcements: pending requests share no project and variant,
the ceilings hold and displace no pending request, an announced request is followed by at most one
resolution, none is reported as pending again once it is resolved, and the receipts are bounded. -/
theorem trust_requests_kept [Sha256] {b : RequestBook} (h : requestMachine.Reachable b) :
    (b.requests.state.pending.map TrustRequests.key).Nodup ∧
    b.requests.state.pending.length ≤ maxPendingTrustRequests ∧
    (∀ project, b.requests.state.projectCount project ≤ maxPendingTrustRequestsPerProject) ∧
    (∀ submission now, ∀ held ∈ b.requests.state.pending, now < held.request.expiresUnixMillis →
      held ∈ (b.requests.record submission now).1.state.pending) ∧
    (∀ before request after, b.announced = before ++ .requested request :: after →
      (decidedIds after).count request.id ≤ 1) ∧
    (∀ id ∈ decidedIds b.log, ∀ es c, requestMachine.run b es = some c →
      ∀ project now, (c.requests.status project id now).2.1 ≠ some .pending) ∧
    b.requests.state.resolved.length ≤ maxPendingTrustRequests := by
  have hsound := RequestBook.sound_of_reachable h
  refine ⟨hsound.keys, hsound.bounded, hsound.shared, ?_, ?_, ?_, hsound.ring⟩
  · intro submission now held hheld hlive
    exact TrustRequests.mem_record submission hheld hlive
  · intro before request after hannounced
    have hdecided : (decidedIds b.log).Nodup := (List.nodup_append.mp hsound.once).2.1
    have hsublist : (decidedIds after).Sublist (decidedIds b.log) := by
      apply List.Sublist.map
      apply List.Sublist.filterMap
      unfold RequestBook.log
      rw [hannounced, List.append_assoc, List.cons_append]
      exact ((List.sublist_append_left after b.owed).cons _).trans
        (List.sublist_append_right before _)
    exact List.nodup_iff_count_le_one.mp (hdecided.sublist hsublist) request.id
  · intro id hid es c hrun project now
    have hpair : c.requests.Sound c.log ∧ id ∈ decidedIds c.log := by
      refine Machine.invariant_run (P := fun c : RequestBook => c.requests.Sound c.log ∧
        id ∈ decidedIds c.log) ?_ ⟨hsound, hid⟩ hrun
      intro b e c hb hc
      exact ⟨RequestBook.sound_step hb.1 hc, RequestBook.decidedIds_step hc hb.2⟩
    exact hpair.1.status_ne_pending hpair.2 project now

def startSubmission : TrustRequestSubmission :=
  ⟨1, 1, "agent", "start", startSpec, "to run the app"⟩

/-- It is asked for, announced, granted and announced as such. -/
def grantedRun : List BookEvent :=
  [.op (.record startSubmission 0), .publish 0, .op (.resolve 1 true 5), .publish 0]

theorem trust_requests_kept_granted :
    letI := editSha
    ∃ b, requestMachine.run RequestBook.new grantedRun = some b ∧ 1 ∈ decidedIds b.log ∧
      ∀ project now, (b.requests.status project 1 now).2.1 ≠ some .pending := by
  let _ := editSha
  refine ⟨_, rfl, by decide, ?_⟩
  intro project now
  have hreached : requestMachine.Reachable _ := ⟨RequestBook.new, grantedRun, rfl, rfl⟩
  exact (trust_requests_kept hreached).2.2.2.2.2.1 1 (by decide) [] _ rfl project now

end Soloist
