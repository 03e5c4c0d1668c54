import Soloist.Ids
import Soloist.Machine

/-! The client of the app's socket: one connection for every call, opened when needed, on which the
session is bound and the facts it had established are replayed. Frames name no request, so a reply
belongs to a request only because nothing else is left on the connection. -/
open List Option

namespace Soloist.Mcp

/-- The requests that the client tells apart, and any other. -/
inductive IpcRequest (A : Type*)
  | bindSessionProcess (process : ProcessId)
  | registerAgent (label : String)
  | selectProject (project : ProjectId)
  | selectProcess (process : ProcessId)
  | other (request : A)
  deriving DecidableEq, Repr

inductive IpcResponse (R : Type*)
  | acked
  | other (response : R)
  deriving DecidableEq, Repr

abbrev IpcResult (R E : Type*) := Except E (IpcResponse R)

/-- What the session has established with the app beyond the bind. -/
structure Established where
  registered : Option String
  project : Option ProjectId
  process : Option ProcessId
  deriving DecidableEq, Repr

/-- A call of `request`, `request_reporting` or `establishing`. -/
structure Call (A : Type*) where
  request : IpcRequest A
  establishing : Bool
  reporting : Bool
  deriving DecidableEq, Repr

/-- What an exchange is for: the bind, the replay of a fact, or the caller's own request. -/
inductive Stage
  | bind
  | registered
  | project
  | process
  | request
  deriving DecidableEq, Repr

abbrev Tag := ℕ

structure Exchange (A : Type*) where
  stage : Stage
  tag : Tag
  request : IpcRequest A
  /-- The request has been written, and its answer is awaited. -/
  sent : Bool
  deriving DecidableEq, Repr

/-- A frame on its way to the client, with the request it is about, which the client cannot see. -/
inductive Frame (R E : Type*)
  | progress (tag : Tag)
  | done (tag : Tag) (reply : IpcResult R E)
  deriving DecidableEq

structure Wire (R E : Type*) where
  /-- The requests that the app has received and not answered, in order. -/
  unserved : List Tag
  frames : List (Frame R E)
  /-- A request was written in part, and nothing after it can be understood. -/
  torn : Bool
  failed : Bool
  deriving DecidableEq

/-- What a reply was taken for. -/
inductive Use
  | returned
  | recorded
  | forgotten (fact : Stage)
  deriving DecidableEq, Repr

structure Taken (A R E : Type*) where
  use : Use
  /-- The request that it was taken to answer. -/
  request : IpcRequest A
  sent : Tag
  /-- The request that the app answered with it. -/
  answered : Tag
  reply : IpcResult R E
  deriving DecidableEq

structure AppClient (A R E : Type*) where
  bound : Option ProcessId
  wire : Option (Wire R E)
  established : Established
  /-- The call that holds the lock, and its exchange. -/
  serving : Option (Call A × Exchange A)
  requests : List (IpcRequest A)
  answers : List (Tag × IpcResult R E)
  taken : List (Taken A R E)

inductive ClientEvent (A R E : Type*)
  /-- A call takes the lock and connects if it has to. -/
  | call (call : Call A) (reached : Bool)
  | write
  | refuse
  | timeout (torn : Bool)
  | read
  /-- The stream ends, or fails to be read. -/
  | lose
  | remark
  | answer (reply : IpcResult R E)
  | fail

variable {A R E : Type*}

def IpcResult.isAcked : IpcResult R E → Bool
  | .ok .acked => true
  | .ok (.other _) | .error _ => false

namespace Established

def new : Established := ⟨none, none, none⟩

/-- Records `request` if it is one of the facts that the session tracks. -/
def record (established : Established) : IpcRequest A → Established
  | .registerAgent label => { established with registered := some label }
  | .selectProject project => { established with project := some project }
  | .selectProcess process => { established with process := some process }
  | .bindSessionProcess _ | .other _ => established

def forget (established : Established) : Stage → Established
  | .registered => { established with registered := none }
  | .project => { established with project := none }
  | .process => { established with process := none }
  | .bind | .request => established

end Established

def Stage.Replays : Stage → IpcRequest A → Prop
  | .registered, .registerAgent _ | .project, .selectProject _ | .process, .selectProcess _ => True
  | _, _ => False

namespace Wire

def new : Wire R E := ⟨[], [], false, false⟩

/-- Nothing is left to be answered, or to be read. -/
def Quiet (wire : Wire R E) : Prop := wire.unserved = [] ∧ wire.frames = []

instance (wire : Wire R E) : Decidable wire.Quiet :=
  decidable_of_iff (wire.unserved = [] ∧ wire.frames.isEmpty = true)
    (and_congr_right' List.isEmpty_iff)

/-- If a remark is read next, nothing is left after it. -/
def LastRemark (wire : Wire R E) : Prop :=
  match wire.frames with
  | .progress _ :: rest => wire.unserved = [] ∧ rest = []
  | .done _ _ :: _ | [] => True

instance : ∀ wire : Wire R E, Decidable wire.LastRemark
  | ⟨unserved, .progress _ :: rest, _, _⟩ =>
    decidable_of_iff (unserved = [] ∧ rest.isEmpty = true) (and_congr_right' List.isEmpty_iff)
  | ⟨_, .done _ _ :: _, _, _⟩ | ⟨_, [], _, _⟩ => isTrue trivial

def write (wire : Wire R E) (tag : Tag) : Wire R E :=
  if wire.torn ∨ wire.failed then wire else { wire with unserved := wire.unserved ++ [tag] }

end Wire

namespace AppClient

def new (bound : Option ProcessId) : AppClient A R E where
  bound
  wire := none
  established := .new
  serving := none
  requests := []
  answers := []
  taken := []

def exchange (s : AppClient A R E) (call : Call A) (stage : Stage) (request : IpcRequest A) :
    AppClient A R E :=
  { s with
    serving := some (call, ⟨stage, s.requests.length, request, false⟩)
    requests := s.requests ++ [request] }

def exchangeOn (s : AppClient A R E) (call : Call A) : AppClient A R E :=
  s.exchange call .request call.request

def replayProcess (s : AppClient A R E) (call : Call A) : AppClient A R E :=
  match s.established.process with
  | some process => s.exchange call .process (.selectProcess process)
  | none => s.exchangeOn call

def replayProject (s : AppClient A R E) (call : Call A) : AppClient A R E :=
  match s.established.project with
  | some project => s.exchange call .project (.selectProject project)
  | none => s.replayProcess call

def replay (s : AppClient A R E) (call : Call A) : AppClient A R E :=
  match s.established.registered with
  | some label => s.exchange call .registered (.registerAgent label)
  | none => s.replayProject call

def connect (s : AppClient A R E) (call : Call A) : AppClient A R E :=
  let opened := { s with wire := some .new }
  match s.bound with
  | some process => opened.exchange call .bind (.bindSessionProcess process)
  | none => opened.replay call

def replayed (s : AppClient A R E) (exchange : Exchange A) :
    Option (Tag × IpcResult R E) → AppClient A R E
  | some (tag, reply) =>
    if reply.isAcked then s
    else { s with
      established := s.established.forget exchange.stage
      taken := s.taken ++
        [⟨.forgotten exchange.stage, exchange.request, exchange.tag, tag, reply⟩] }
  | none => s

def answered (s : AppClient A R E) (call : Call A) (exchange : Exchange A) (tag : Tag)
    (reply : IpcResult R E) : AppClient A R E :=
  let recorded :=
    if call.establishing ∧ reply.isAcked = true then
      { s with
        established := s.established.record call.request
        taken := s.taken ++ [⟨.recorded, call.request, exchange.tag, tag, reply⟩] }
    else s
  { recorded with
    serving := none
    taken := recorded.taken ++ [⟨.returned, call.request, exchange.tag, tag, reply⟩] }

/-- An exchange ends with a reply, or with none because of a time-out or of the transport. -/
def finish (s : AppClient A R E) (call : Call A) (exchange : Exchange A)
    (outcome : Option (Tag × IpcResult R E)) : AppClient A R E :=
  match exchange.stage, outcome with
  -- a bind failure must not fail the connection
  | .bind, _ => s.replay call
  | .registered, _ => (s.replayed exchange outcome).replayProject call
  | .project, _ => (s.replayed exchange outcome).replayProcess call
  | .process, _ => (s.replayed exchange outcome).exchangeOn call
  | .request, some (tag, reply) => s.answered call exchange tag reply
  -- drops the broken connection so that the next call reconnects
  | .request, none => { s with wire := none, serving := none }

def step (s : AppClient A R E) : ClientEvent A R E → Option (AppClient A R E)
  | .call call reached =>
    match s.serving, s.wire with
    | some _, _ => none
    | none, some _ => some (s.exchangeOn call)
    | none, none => if reached then some (s.connect call) else some s
  | .write =>
    match s.serving, s.wire with
    | some (call, exchange), some wire =>
      if exchange.sent then none
      else some { s with
        wire := some (wire.write exchange.tag)
        serving := some (call, { exchange with sent := true }) }
    | _, _ => none
  | .refuse =>
    match s.serving, s.wire with
    | some (call, exchange), some wire =>
      if exchange.sent = false ∧ wire.failed = true then some (s.finish call exchange none)
      else none
    | _, _ => none
  | .timeout torn =>
    match s.serving, s.wire with
    | some (call, exchange), some wire =>
      let torn := wire.torn || (torn && !exchange.sent)
      some ({ s with wire := some { wire with torn } }.finish call exchange none)
    | _, _ => none
  | .read =>
    match s.serving, s.wire with
    | some (call, exchange), some ⟨unserved, frame :: frames, torn, failed⟩ =>
      if exchange.sent then
        let s := { s with wire := some ⟨unserved, frames, torn, failed⟩ }
        match frame with
        | .done tag reply => some (s.finish call exchange (some (tag, reply)))
        | .progress _ =>
          if exchange.stage = .request ∧ call.reporting then some s
          else some (s.finish call exchange none)
      else none
    | _, _ => none
  | .lose =>
    match s.serving, s.wire with
    | some (call, exchange), some wire =>
      if exchange.sent = true ∧ wire.failed = true then
        let wire := { wire with unserved := [], frames := [] }
        some ({ s with wire := some wire }.finish call exchange none)
      else none
    | _, _ => none
  | .remark =>
    match s.wire with
    | some ⟨tag :: unserved, frames, torn, false⟩ =>
      some { s with wire := some ⟨tag :: unserved, frames ++ [.progress tag], torn, false⟩ }
    | _ => none
  | .answer reply =>
    match s.wire with
    | some ⟨tag :: unserved, frames, torn, false⟩ =>
      some { s with
        wire := some ⟨unserved, frames ++ [.done tag reply], torn, false⟩
        answers := s.answers ++ [(tag, reply)] }
    | _ => none
  | .fail =>
    match s.wire with
    | some wire => some { s with wire := some { wire with unserved := [], failed := true } }
    | none => none

/-- A step at which no bind and no replay gives up an answer that may still be read. -/
def Consumes (s : AppClient A R E) : ClientEvent A R E → Prop
  | .timeout _ => ∀ serving ∈ s.serving, serving.2.stage ≠ .request → ∀ wire ∈ s.wire, wire.Quiet
  | .read => ∀ serving ∈ s.serving, serving.2.stage ≠ .request → ∀ wire ∈ s.wire, wire.LastRemark
  | .call _ _ | .write | .refuse | .lose | .remark | .answer _ | .fail => True

instance (s : AppClient A R E) : ∀ e, Decidable (s.Consumes e)
  | .timeout _ => inferInstanceAs (Decidable (∀ serving ∈ s.serving, _ → ∀ wire ∈ s.wire, _))
  | .read => inferInstanceAs (Decidable (∀ serving ∈ s.serving, _ → ∀ wire ∈ s.wire, _))
  | .call _ _ | .write | .refuse | .lose | .remark | .answer _ | .fail => isTrue trivial

structure Sound (s : AppClient A R E) (taken : Taken A R E) : Prop where
  same : taken.answered = taken.sent
  request : s.requests[taken.sent]? = some taken.request
  reply : (taken.sent, taken.reply) ∈ s.answers
  recorded : taken.use = .recorded → taken.reply.isAcked = true
  forgotten : ∀ fact, taken.use = .forgotten fact →
    taken.reply.isAcked = false ∧ fact.Replays taken.request

end AppClient

def Taken.apply (established : Established) (taken : Taken A R E) : Established :=
  match taken.use with
  | .returned => established
  | .recorded => established.record taken.request
  | .forgotten fact => established.forget fact

def Stage.Fits (call : Call A) : Stage → IpcRequest A → Prop
  | .bind, _ => True
  | .registered, sent => Stage.registered.Replays sent
  | .project, sent => Stage.project.Replays sent
  | .process, sent => Stage.process.Replays sent
  | .request, sent => sent = call.request

/-- Whatever is on the wire is about one request, whose answer comes last. -/
def Wire.About (answers : List (Tag × IpcResult R E)) (tag : Tag) (wire : Wire R E) : Prop :=
  ∃ n, wire.frames = List.replicate n (.progress tag) ∧
      (wire.unserved = [tag] ∨ wire.unserved = []) ∨
    ∃ reply, wire.frames = List.replicate n (.progress tag) ++ [.done tag reply] ∧
      wire.unserved = [] ∧ (tag, reply) ∈ answers

namespace AppClient

/-- What the replies have done so far. -/
structure Kept (s : AppClient A R E) : Prop where
  sound : ∀ taken ∈ s.taken, s.Sound taken
  established : s.established = s.taken.foldl Taken.apply .new

structure Underway (s : AppClient A R E) (call : Call A) (exchange : Exchange A) (wire : Wire R E) :
    Prop where
  request : s.requests[exchange.tag]? = some exchange.request
  fits : exchange.stage.Fits call exchange.request
  quiet : exchange.sent = false → wire.Quiet
  about : exchange.sent = true → wire.About s.answers exchange.tag

structure Matched (s : AppClient A R E) : Prop where
  kept : s.Kept
  idle : s.serving = none → ∀ wire, s.wire = some wire → wire.Quiet
  serving : ∀ call exchange, s.serving = some (call, exchange) →
    ∃ wire, s.wire = some wire ∧ s.Underway call exchange wire

variable {s t : AppClient A R E} {call : Call A} {exchange : Exchange A} {wire : Wire R E}
  {taken : Taken A R E}

theorem Sound.mono (h : s.Sound taken) (hrequests : s.requests <+: t.requests)
    (hanswers : s.answers ⊆ t.answers) : t.Sound taken := by
  refine ⟨h.same, ?_, hanswers h.reply, h.recorded, h.forgotten⟩
  obtain ⟨rest, hrest⟩ := hrequests
  rw [← hrest, getElem?_append_left (List.getElem?_eq_some_iff.mp h.request).1]
  exact h.request

theorem Kept.mono (h : s.Kept) (htaken : t.taken = s.taken)
    (hestablished : t.established = s.established) (hrequests : s.requests <+: t.requests)
    (hanswers : s.answers ⊆ t.answers) : t.Kept := by
  refine ⟨fun taken h' => ?_, ?_⟩
  · rw [htaken] at h'
    exact (h.sound taken h').mono hrequests hanswers
  · rw [htaken, hestablished]
    exact h.established

theorem Kept.snoc (h : s.Kept) (hsound : s.Sound taken) (htaken : t.taken = s.taken ++ [taken])
    (hestablished : t.established = taken.apply s.established) (hrequests : t.requests = s.requests)
    (hanswers : t.answers = s.answers) : t.Kept := by
  have hmono : ∀ taken, s.Sound taken → t.Sound taken := by
    intro taken h
    exact h.mono (hrequests ▸ prefix_rfl) (hanswers ▸ List.Subset.refl _)
  refine ⟨fun other hother => ?_, ?_⟩
  · rw [htaken] at hother
    rcases mem_append.mp hother with hother | hother
    · exact hmono other (h.sound other hother)
    · cases mem_singleton.mp hother
      exact hmono _ hsound
  · rw [htaken, hestablished, foldl_append, h.established]
    rfl

variable (hs : s.Kept)
include hs

variable (hwire : s.wire = some wire)
include hwire

variable (hquiet : wire.Quiet)
include hquiet

theorem matched_exchange
    {stage : Stage} {request : IpcRequest A} (hfits : stage.Fits call request) :
    (s.exchange call stage request).Matched := by
  refine ⟨hs.mono rfl rfl ⟨[request], rfl⟩ (List.Subset.refl _), fun hnone => ?_,
    fun other exchange hserving => ?_⟩
  · cases hnone
  · obtain ⟨rfl, rfl⟩ := Prod.mk.inj (some.inj hserving)
    refine ⟨wire, hwire, getElem?_concat_length, hfits, fun _ => hquiet, fun hsent => ?_⟩
    cases hsent

theorem matched_exchangeOn :
    (s.exchangeOn call).Matched := matched_exchange hs hwire hquiet rfl

theorem matched_replayProcess :
    (s.replayProcess call).Matched := by
  unfold replayProcess
  split
  · exact matched_exchange hs hwire hquiet trivial
  · exact matched_exchangeOn hs hwire hquiet

theorem matched_replayProject :
    (s.replayProject call).Matched := by
  unfold replayProject
  split
  · exact matched_exchange hs hwire hquiet trivial
  · exact matched_replayProcess hs hwire hquiet

theorem matched_replay :
    (s.replay call).Matched := by
  unfold replay
  split
  · exact matched_exchange hs hwire hquiet trivial
  · exact matched_replayProject hs hwire hquiet

omit hquiet

omit hwire

theorem matched_connect : (s.connect call).Matched := by
  have hopened : Kept { s with wire := some .new } :=
    hs.mono rfl rfl prefix_rfl (List.Subset.refl _)
  unfold connect
  split
  · exact matched_exchange hopened rfl ⟨rfl, rfl⟩ trivial
  · exact matched_replay hopened rfl ⟨rfl, rfl⟩

omit hs

variable {outcome : Option (Tag × IpcResult R E)}

theorem kept_replayed (hs : s.Kept)
    (hrequest : s.requests[exchange.tag]? = some exchange.request)
    (hfits : exchange.stage.Replays exchange.request)
    (houtcome : ∀ tag reply, outcome = some (tag, reply) →
      tag = exchange.tag ∧ (tag, reply) ∈ s.answers) :
    (s.replayed exchange outcome).Kept ∧ (s.replayed exchange outcome).wire = s.wire := by
  unfold replayed
  split
  · rename_i tag reply
    obtain ⟨rfl, hanswered⟩ := houtcome tag reply rfl
    split_ifs with hacked
    · exact ⟨hs, rfl⟩
    · refine ⟨hs.snoc ⟨rfl, hrequest, hanswered, fun huse => ?_, fun fact huse => ?_⟩ rfl rfl rfl
        rfl, rfl⟩
      · cases huse
      · obtain rfl := Use.forgotten.inj huse
        exact ⟨(Bool.not_eq_true _).mp hacked, hfits⟩
  · exact ⟨hs, rfl⟩

theorem matched_answered {reply : IpcResult R E} (hs : s.Kept)
    (hrequest : s.requests[exchange.tag]? = some call.request) (hwire : s.wire = some wire)
    (hquiet : wire.Quiet) (hanswered : (exchange.tag, reply) ∈ s.answers) :
    (s.answered call exchange exchange.tag reply).Matched := by
  have hreturned : ∀ t : AppClient A R E, t.Kept → t.requests = s.requests →
      t.answers = s.answers → t.wire = s.wire →
      Matched { t with
        serving := none
        taken := t.taken ++ [⟨.returned, call.request, exchange.tag, exchange.tag, reply⟩] } := by
    intro t ht hrequests hanswers hwires
    have hsound : t.Sound ⟨.returned, call.request, exchange.tag, exchange.tag, reply⟩ := by
      refine ⟨rfl, hrequests ▸ hrequest, hanswers ▸ hanswered, fun huse => ?_, fun fact huse => ?_⟩
      · cases huse
      · cases huse
    refine ⟨ht.snoc hsound rfl rfl rfl rfl, fun _ other hother => ?_, fun _ _ hserving => ?_⟩
    · obtain rfl := some.inj (hwire.symm.trans (hwires.symm.trans hother))
      exact hquiet
    · cases hserving
  unfold answered
  split_ifs with hrecord
  · refine hreturned _ (hs.snoc ⟨rfl, hrequest, hanswered, fun _ => hrecord.2, fun fact huse => ?_⟩
      rfl rfl rfl rfl) rfl rfl rfl
    cases huse
  · exact hreturned s hs rfl rfl rfl

theorem matched_finish (hs : s.Kept)
    (hrequest : s.requests[exchange.tag]? = some exchange.request)
    (hfits : exchange.stage.Fits call exchange.request) (hwire : s.wire = some wire)
    (hquiet : wire.Quiet)
    (houtcome : ∀ tag reply, outcome = some (tag, reply) →
      tag = exchange.tag ∧ (tag, reply) ∈ s.answers) :
    (s.finish call exchange outcome).Matched := by
  obtain ⟨stage, tag, request, sent⟩ := exchange
  cases stage with
  | bind => exact matched_replay hs hwire hquiet
  | registered =>
    obtain ⟨hkept, hsame⟩ := kept_replayed hs hrequest hfits houtcome
    exact matched_replayProject hkept (hsame.trans hwire) hquiet
  | project =>
    obtain ⟨hkept, hsame⟩ := kept_replayed hs hrequest hfits houtcome
    exact matched_replayProcess hkept (hsame.trans hwire) hquiet
  | process =>
    obtain ⟨hkept, hsame⟩ := kept_replayed hs hrequest hfits houtcome
    exact matched_exchangeOn hkept (hsame.trans hwire) hquiet
  | request =>
    cases outcome with
    | none =>
      refine ⟨hs.mono rfl rfl prefix_rfl (List.Subset.refl _), fun _ _ hnone => ?_,
        fun _ _ hserving => ?_⟩
      · cases hnone
      · cases hserving
    | some answer =>
      obtain ⟨other, reply⟩ := answer
      obtain ⟨rfl, hanswered⟩ := houtcome other reply rfl
      have hown : request = call.request := hfits
      subst hown
      exact matched_answered hs hrequest hwire hquiet hanswered

theorem matched_drop (hs : s.Kept) (hstage : exchange.stage = .request) :
    (s.finish call exchange none).Matched := by
  obtain ⟨stage, tag, request, sent⟩ := exchange
  obtain rfl : stage = .request := hstage
  refine ⟨hs.mono rfl rfl prefix_rfl (List.Subset.refl _), fun _ _ hnone => ?_,
    fun _ _ hserving => ?_⟩
  · cases hnone
  · cases hserving

variable {answers : List (Tag × IpcResult R E)}

theorem matched_wire (hs : s.Matched) (hserving : s.serving = some (call, exchange))
    (hsent : exchange.sent = true) (hanswers : s.answers ⊆ answers)
    (habout : wire.About answers exchange.tag) : Matched { s with wire := some wire, answers } := by
  refine ⟨hs.kept.mono rfl rfl prefix_rfl hanswers, fun hnone => ?_,
    fun other exchange' hother => ?_⟩
  · rw [hserving] at hnone
    cases hnone
  · obtain ⟨rfl, rfl⟩ := Prod.mk.inj (some.inj (hserving.symm.trans hother))
    obtain ⟨_, -, hunderway⟩ := hs.serving call exchange hserving
    refine ⟨wire, rfl, hunderway.request, hunderway.fits, fun hunsent => ?_, fun _ => habout⟩
    rw [hsent] at hunsent
    cases hunsent

variable {tag : Tag} {unserved : List Tag}

theorem matched_unserved (hs : s.Matched) (hwire : s.wire = some wire)
    (hunserved : wire.unserved = tag :: unserved) :
    ∃ call exchange, s.serving = some (call, exchange) ∧ exchange.sent = true ∧
      tag = exchange.tag ∧ unserved = [] ∧
      ∃ n, wire.frames = List.replicate n (.progress exchange.tag) := by
  cases hserving : s.serving with
  | none =>
    have hquiet := hs.idle hserving wire hwire
    rw [hquiet.1] at hunserved
    cases hunserved
  | some serving =>
    obtain ⟨call, exchange⟩ := serving
    obtain ⟨_, hsame, hunderway⟩ := hs.serving call exchange hserving
    obtain rfl := some.inj (hwire.symm.trans hsame)
    cases hsent : exchange.sent with
    | false =>
      have hquiet := hunderway.quiet hsent
      rw [hquiet.1] at hunserved
      cases hunserved
    | true =>
      obtain ⟨n, ⟨hframes, hone | hnone⟩ | ⟨reply, -, hnone, -⟩⟩ := hunderway.about hsent
      · rw [hone] at hunserved
        obtain ⟨rfl, rfl⟩ := List.cons.inj hunserved
        exact ⟨call, exchange, rfl, hsent, rfl, rfl, n, hframes⟩
      · rw [hnone] at hunserved
        cases hunserved
      · rw [hnone] at hunserved
        cases hunserved

/-- The frame that is read is a remark on the request under way, or its answer and the last. -/
theorem about_read {frame : Frame R E} {frames : List (Frame R E)} {torn failed : Bool}
    (h : Wire.About answers tag ⟨unserved, frame :: frames, torn, failed⟩) :
    frame = .progress tag ∧ Wire.About answers tag ⟨unserved, frames, torn, failed⟩ ∨
      ∃ reply, frame = .done tag reply ∧ frames = [] ∧ unserved = [] ∧ (tag, reply) ∈ answers := by
  obtain ⟨n, ⟨hframes, hunserved⟩ | ⟨reply, hframes, hunserved, hanswer⟩⟩ := h
  · cases n with
    | zero => cases hframes
    | succ n =>
      obtain ⟨rfl, rfl⟩ := List.cons.inj hframes
      exact .inl ⟨rfl, n, .inl ⟨rfl, hunserved⟩⟩
  · cases n with
    | zero =>
      obtain ⟨rfl, rfl⟩ := List.cons.inj hframes
      exact .inr ⟨reply, rfl, rfl, hunserved, hanswer⟩
    | succ n =>
      obtain ⟨rfl, rfl⟩ := List.cons.inj hframes
      exact .inl ⟨rfl, n, .inr ⟨reply, rfl, hunserved, hanswer⟩⟩

theorem matched_read (hconsumes : s.Consumes .read) (hs : s.Matched)
    (h : s.step .read = some t) : t.Matched := by
  simp only [step] at h
  split at h
  · rename_i call exchange unserved frame frames torn failed hserving hwire
    by_cases hsent : exchange.sent = true
    swap
    · rw [if_neg hsent] at h
      cases h
    rw [if_pos hsent] at h
    obtain ⟨_, hsame, hunderway⟩ := hs.serving call exchange hserving
    obtain rfl := some.inj (hwire.symm.trans hsame)
    have hkept : Kept { s with wire := some ⟨unserved, frames, torn, failed⟩ } :=
      hs.kept.mono rfl rfl prefix_rfl (List.Subset.refl _)
    rcases about_read (hunderway.about hsent) with ⟨rfl, habout⟩ | ⟨reply, rfl, rfl, rfl, hanswer⟩
    · dsimp only at h
      split_ifs at h with hreporting
      · cases h
        exact matched_wire hs hserving hsent (List.Subset.refl _) habout
      · cases h
        by_cases hstage : exchange.stage = .request
        · exact matched_drop hkept hstage
        · obtain ⟨hunserved, hframes⟩ := hconsumes _ hserving hstage _ hwire
          refine matched_finish hkept hunderway.request hunderway.fits rfl ⟨hunserved, hframes⟩
            fun tag reply houtcome => ?_
          cases houtcome
    · cases h
      refine matched_finish hkept hunderway.request hunderway.fits rfl ⟨rfl, rfl⟩
        fun tag other houtcome => ?_
      obtain ⟨rfl, rfl⟩ := Prod.mk.inj (some.inj houtcome)
      exact ⟨rfl, hanswer⟩
  · cases h

theorem matched_step {e : ClientEvent A R E} (hconsumes : s.Consumes e) (hs : s.Matched)
    (h : s.step e = some t) : t.Matched := by
  cases e with
  | call call reached =>
    simp only [step] at h
    split at h
    · cases h
    · rename_i hserving hwire
      cases h
      exact matched_exchangeOn hs.kept hwire (hs.idle hserving _ hwire)
    · split_ifs at h
      · cases h
        exact matched_connect hs.kept
      · cases h
        exact hs
  | write =>
    simp only [step] at h
    split at h
    · rename_i call exchange wire hserving hwire
      split_ifs at h with hsent
      cases h
      obtain ⟨_, hsame, hunderway⟩ := hs.serving call exchange hserving
      obtain rfl := some.inj (hwire.symm.trans hsame)
      obtain ⟨hunserved, hframes⟩ := hunderway.quiet ((Bool.not_eq_true _).mp hsent)
      refine ⟨hs.kept.mono rfl rfl prefix_rfl (List.Subset.refl _), fun hnone => ?_,
        fun other exchange' hother => ?_⟩
      · cases hnone
      · obtain ⟨rfl, rfl⟩ := Prod.mk.inj (some.inj hother)
        refine ⟨_, rfl, hunderway.request, hunderway.fits, fun hunsent => ?_,
          fun _ => ⟨0, .inl ?_⟩⟩
        · cases hunsent
        · unfold Wire.write
          split_ifs
          · exact ⟨hframes, .inr hunserved⟩
          · simp only [hunserved]
            exact ⟨hframes, .inl rfl⟩
    · cases h
  | refuse =>
    simp only [step] at h
    split at h
    · rename_i call exchange wire hserving hwire
      split_ifs at h with hrefused
      cases h
      obtain ⟨_, hsame, hunderway⟩ := hs.serving call exchange hserving
      obtain rfl := some.inj (hwire.symm.trans hsame)
      refine matched_finish hs.kept hunderway.request hunderway.fits hwire
        (hunderway.quiet hrefused.1) fun tag reply houtcome => ?_
      cases houtcome
    · cases h
  | timeout torn =>
    simp only [step] at h
    split at h
    · rename_i call exchange wire hserving hwire
      cases h
      obtain ⟨_, hsame, hunderway⟩ := hs.serving call exchange hserving
      obtain rfl := some.inj (hwire.symm.trans hsame)
      have hkept := hs.kept.mono (t := { s with wire := some { wire with
        torn := wire.torn || (torn && !exchange.sent) } }) rfl rfl prefix_rfl
        (List.Subset.refl _)
      by_cases hstage : exchange.stage = .request
      · exact matched_drop hkept hstage
      · obtain ⟨hunserved, hframes⟩ := hconsumes _ hserving hstage _ hwire
        refine matched_finish hkept hunderway.request hunderway.fits rfl ⟨hunserved, hframes⟩
          fun tag reply houtcome => ?_
        cases houtcome
    · cases h
  | read => exact matched_read hconsumes hs h
  | lose =>
    simp only [step] at h
    split at h
    · rename_i call exchange wire hserving hwire
      split_ifs at h with hlost
      cases h
      obtain ⟨_, hsame, hunderway⟩ := hs.serving call exchange hserving
      have hkept : Kept { s with wire := some { wire with unserved := [], frames := [] } } :=
        hs.kept.mono rfl rfl prefix_rfl (List.Subset.refl _)
      refine matched_finish hkept hunderway.request hunderway.fits rfl ⟨rfl, rfl⟩
        fun tag reply houtcome => ?_
      cases houtcome
    · cases h
  | remark =>
    simp only [step] at h
    split at h
    · rename_i tag unserved frames torn hwire
      cases h
      obtain ⟨call, exchange, hserving, hsent, rfl, rfl, n, hframes⟩ :=
        matched_unserved hs hwire rfl
      refine matched_wire hs hserving hsent (List.Subset.refl _)
        ⟨n + 1, .inl ⟨?_, .inl rfl⟩⟩
      rw [replicate_succ', ← hframes]
    · cases h
  | answer reply =>
    simp only [step] at h
    split at h
    · rename_i tag unserved frames torn hwire
      cases h
      obtain ⟨call, exchange, hserving, hsent, rfl, rfl, n, hframes⟩ :=
        matched_unserved hs hwire rfl
      refine matched_wire hs hserving hsent (subset_append_left _ _)
        ⟨n, .inr ⟨reply, ?_, rfl, mem_append_right _ (mem_singleton_self _)⟩⟩
      rw [← hframes]
    · cases h
  | fail =>
    simp only [step] at h
    split at h
    · rename_i wire hwire
      cases h
      refine ⟨hs.kept.mono rfl rfl prefix_rfl (List.Subset.refl _),
        fun hnone other hother => ?_, fun call exchange hserving => ?_⟩
      · cases hother
        exact ⟨rfl, (hs.idle hnone wire hwire).2⟩
      · obtain ⟨_, hsame, hunderway⟩ := hs.serving call exchange hserving
        obtain rfl := some.inj (hwire.symm.trans hsame)
        refine ⟨_, rfl, hunderway.request, hunderway.fits,
          fun hunsent => ⟨rfl, (hunderway.quiet hunsent).2⟩, fun hsent => ?_⟩
        obtain ⟨n, ⟨hframes, -⟩ | ⟨reply, hframes, -, hanswer⟩⟩ := hunderway.about hsent
        · exact ⟨n, .inl ⟨hframes, .inr rfl⟩⟩
        · exact ⟨n, .inr ⟨reply, hframes, rfl, hanswer⟩⟩
    · cases h

end AppClient

def client (bound : Option ProcessId) : Machine (AppClient A R E) (ClientEvent A R E) where
  init s := s = .new bound
  step := AppClient.step

namespace AppClient
variable {s : AppClient A R E}

/-- Replies never cross in any run in which no bind and no replay gives up an answer: each reply was
taken for what the app answered to the very request, and the established facts are those that such
replies recorded and did not forget. -/
theorem replies_matched {bound : Option ProcessId}
    (hs : (client (A := A) (R := R) (E := E) bound).ReachableUnder Consumes s) :
    (∀ taken ∈ s.taken, s.Sound taken) ∧
      s.established = s.taken.foldl Taken.apply .new := by
  have hmatched : s.Matched := by
    refine hs.invariant ?_ ?_
    · rintro _ rfl
      refine ⟨⟨fun taken htaken => absurd htaken List.not_mem_nil, rfl⟩, fun _ wire hwire => ?_,
        fun call exchange hserving => ?_⟩
      · cases hwire
      · cases hserving
    · intro s e t hconsumes hs hstep
      exact matched_step hconsumes hs hstep
  exact ⟨hmatched.kept.sound, hmatched.kept.established⟩

/-- A selection is recorded and replayed when the connection is lost. -/
theorem replies_matched_replayed :
    ∃ s, (client (A := ℕ) (R := ℕ) (E := String) (some 7)).ReachableUnder Consumes s ∧
      s.taken.map Taken.use = [.recorded, .returned, .returned] ∧
      s.requests = [.bindSessionProcess 7, .selectProject 2, .other 0, .bindSessionProcess 7,
        .selectProject 2, .other 1] ∧ ∀ taken ∈ s.taken, s.Sound taken := by
  obtain ⟨s, hs, huse, hrequests⟩ := Machine.exists_reachableUnder_of_run
    (M := client (A := ℕ) (R := ℕ) (E := String) (some 7)) (G := Consumes) rfl
    [.call ⟨.selectProject 2, true, false⟩ true, .write, .answer (.ok .acked), .read,
      .write, .answer (.ok .acked), .read,
      .call ⟨.other 0, false, false⟩ true, .write, .timeout false,
      .call ⟨.other 1, false, true⟩ true, .write, .answer (.ok .acked), .read,
      .write, .answer (.ok .acked), .read, .write, .remark, .read, .answer (.ok (.other 5)), .read]
    (by decide) (fun s => s.taken.map Taken.use = [.recorded, .returned, .returned] ∧
      s.requests = [.bindSessionProcess 7, .selectProject 2, .other 0, .bindSessionProcess 7,
        .selectProject 2, .other 1])
    (by decide)
  exact ⟨s, hs, huse, hrequests, (replies_matched hs).1⟩

/-- The bind times out, and its answer is read as that of the request that follows. -/
theorem replies_crossed :
    ∃ s, (client (A := ℕ) (R := ℕ) (E := String) (some 7)).Reachable s ∧
      s.requests = [.bindSessionProcess 7, .other 0] ∧
      s.taken = [⟨.returned, .other 0, 1, 0, .ok .acked⟩] :=
  Machine.exists_reachable_of_run
    (M := client (A := ℕ) (R := ℕ) (E := String) (some 7)) rfl
    [.call ⟨.other 0, false, false⟩ true, .write, .timeout false, .write, .answer (.ok .acked),
      .read]
    (fun s => s.requests = [.bindSessionProcess 7, .other 0] ∧
      s.taken = [⟨.returned, .other 0, 1, 0, .ok .acked⟩])
    (by decide)

end AppClient
end Soloist.Mcp
