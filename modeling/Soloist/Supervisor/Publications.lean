import Soloist.Supervisor.Windows

/-! What each step of the supervisor publishes, and what it leaves of an actor that has ended, of the
policy's call and of the fields a reload may change. -/
open Option

namespace Soloist
namespace Supervisor
variable {s t : Supervisor} {e : SupervisorEvent} {c : CallId} {call : Call} {id : ProcessId}
  {a : ActorId} {now : Instant} {fault : Option StoreError} {order : List ProcessId}

/-- The events that the next access of a call publishes. -/
def tells : Call → List DomainEvent
  | .scheduled id _ attempt => [.restartScheduled id attempt maxRestarts]
  | .exhausted id =>
    [.processStatusChanged id .crashed .restartExhausted none, .restartExhausted id]
  | .removed id _ => [.processRemoved id]
  | _ => []

def published (s : Supervisor) : SupervisorEvent → List DomainEvent
  | .proceed c _ _ => (s.calls c).elim [] tells
  | .publish a => ((s.fleet.actors a).bind Actor.outbox).toList
  | _ => []

theorem quiet (hbus : t.bus = s.bus) (hlagged : t.lagged = s.lagged) :
    t.bus = s.bus ++ [] ∧ t.lagged = s.lagged := by
  rw [List.append_nil]
  exact ⟨hbus, hlagged⟩

theorem proceed_bus [Sha256] (h : s.proceed c now fault = some t) (hc : s.calls c = some call) :
    t.bus = s.bus ++ tells call ∧ t.lagged = s.lagged := by
  unfold proceed at h
  rw [hc] at h
  cases call with
  | described kind i info =>
    cases h
    unfold guardTrust
    split
    · exact quiet rfl rfl
    · exact quiet rfl rfl
    · split_ifs
      · exact quiet rfl rfl
      · exact quiet rfl rfl
  | trusted kind i info =>
    cases h
    unfold afterTrusted
    split
    · split
      · exact quiet rfl rfl
      · exact quiet rfl rfl
    · exact quiet rfl rfl
  | ready kind i info =>
    cases h
    unfold accept launch
    split_ifs
    · exact quiet rfl rfl
    · split
      · exact quiet rfl rfl
      · exact quiet rfl rfl
  | policyBegun i =>
    dsimp only at h
    split_ifs at h
    · cases h
      exact quiet rfl rfl
    · cases h
      exact quiet rfl rfl
  | policyOpen i | stopping i | reloading i project root spec =>
    cases h
    exact quiet rfl rfl
  | scheduled i info attempt | exhausted i | removed i reply =>
    cases h
    exact ⟨rfl, rfl⟩
  | relaunching i info attempt =>
    cases h
    unfold launch
    split
    · exact quiet rfl rfl
    · exact quiet rfl rfl
  | exhausting i =>
    dsimp only at h
    split at h
    · cases h
      exact quiet rfl rfl
    · cases h
      exact quiet rfl rfl
  | closing i handle =>
    cases h
    cases handle with
    | none => exact quiet rfl rfl
    | some k => exact quiet rfl rfl
  | reaping i join =>
    dsimp only at h
    split_ifs at h
    cases h
    exact quiet rfl rfl
  | returned reply => cases h

theorem offer_bus : (s.offer order).bus = s.bus := by
  cases order with
  | nil => rfl
  | cons i rest => rfl

theorem handle_bus (event : DomainEvent) : (s.handle event).bus = s.bus := by
  unfold handle
  split
  · exact offer_bus
  · rfl
  · rfl
  · rfl

theorem offer_lagged : (s.offer order).lagged = s.lagged := by
  cases order with
  | nil => rfl
  | cons i rest => rfl

theorem handle_lagged (event : DomainEvent) : (s.handle event).lagged = s.lagged := by
  unfold handle
  split
  · exact offer_lagged
  · rfl
  · rfl
  · rfl

theorem reactorRecv_ordered (h : s.reactorRecv order = some t) (hordered : s.lagged = false) :
    s.reactor = .idle ∧ ∃ event rest, s.bus = event :: rest ∧
      t = { s with bus := rest }.handle event := by
  unfold reactorRecv at h
  simp only [hordered, Bool.false_eq_true, if_false] at h
  split_ifs at h with hidle
  refine ⟨hidle, ?_⟩
  split at h
  next => cases h
  next event rest hbus =>
    cases h
    exact ⟨event, rest, hbus, by rw [hordered]⟩

theorem published_proceed (hc : s.calls c = some call) :
    s.published (.proceed c now fault) = tells call := by
  rw [published, hc]
  rfl

theorem step_bus [Sha256] (h : s.step e = some t) (hoverflow : e ≠ .overflow)
    (hrecv : ∀ order, e ≠ .reactorRecv order) :
    t.bus = s.bus ++ s.published e ∧ t.lagged = s.lagged := by
  cases e with
  | proceed c now fault =>
    obtain ⟨call, -, hc, -⟩ := proceed_cases h
    rw [published_proceed hc]
    exact proceed_bus h hc
  | publish a =>
    obtain ⟨⟨event, fleet⟩, hpublish, rfl⟩ := map_eq_some_iff.mp h
    obtain ⟨x, hx, hout, -⟩ := Fleet.publish_eq_some.mp hpublish
    have hpublished : s.published (.publish a) = [event] := by
      rw [published, hx, bind_some, hout]
      rfl
    rw [hpublished]
    exact ⟨rfl, rfl⟩
  | overflow => exact absurd rfl hoverflow
  | reactorRecv order => exact absurd rfl (hrecv order)
  | reactorNext =>
    simp only [step, reactorNext] at h
    split at h
    next => cases h
    next =>
      split at h
      next =>
        cases h
        exact quiet offer_bus offer_lagged
      next => cases h
  | register r | setTrusted project variant trusted | beginShutdown | stop i =>
    cases h
    exact quiet rfl rfl
  | reload i project root spec =>
    simp only [step] at h
    split_ifs at h
    cases h
    exact quiet rfl rfl
  | deregister i | close i =>
    simp only [step] at h
    split at h
    · cases h
      exact quiet rfl rfl
    · cases h
      exact quiet rfl rfl
  | launch kind i =>
    obtain ⟨call, -, rfl⟩ := map_eq_some_iff.mp h
    exact quiet rfl rfl
  | attachJoin a | advance a | move a mv =>
    obtain ⟨fleet, -, rfl⟩ := map_eq_some_iff.mp h
    exact quiet rfl rfl

theorem lagged_step [Sha256] (h : s.step e = some t) (hoverflow : e ≠ .overflow)
    (hordered : s.lagged = false) : t.lagged = false := by
  by_cases hrecv : ∃ order, e = .reactorRecv order
  · obtain ⟨order, rfl⟩ := hrecv
    obtain ⟨-, event, rest, -, rfl⟩ := reactorRecv_ordered h hordered
    exact (handle_lagged event).trans hordered
  · have hunread : ∀ order, e ≠ .reactorRecv order := fun order heq => hrecv ⟨order, heq⟩
    exact (step_bus h hoverflow hunread).2.trans hordered

theorem ended_outbox [Sha256] (hs : s.Held) (h : s.step e = some t) {x : Actor}
    (hx : s.fleet.actors a = some x) (hended : ¬x.Live) :
    ∃ y, t.fleet.actors a = some y ∧ y.process = x.process ∧ ¬y.Live ∧
      (y.outbox = x.outbox ∨ e = .publish a ∧ y.outbox = none) := by
  obtain ⟨y, hy, rfl | ⟨act, -, hissues, hevolves⟩⟩ := step_evolves hs.owned h hx
  · exact ⟨y, hy, rfl, hended, .inl rfl⟩
  · refine ⟨y, hy, hevolves.process, fun hlive => hended (hevolves.live hlive), ?_⟩
    cases hevolves with
    | same | attached pc hpc => exact .inl rfl
    | toldStop i hprocess hbox | toldRestart r hprocess hbox | closed k ha =>
      exact .inl Actor.trySend_outbox
    | advanced target code next hout hpending =>
      exact absurd (Pc.pending_spec hpending).1 hended
    | published event hout =>
      cases hissues with
      | direct e act hacts =>
        cases hacts with
        | publish b => exact .inr ⟨rfl, rfl⟩
    | moved mv x' hmoves => exact .inl hmoves.outbox

theorem policy_kept [Sha256] {rest : List ProcessId} (hs : s.Held) (h : s.step e = some t)
    (hreactor : s.reactor = .handling c rest) (hc : s.calls c = some call)
    (hcall : ∀ reply, call ≠ .returned reply) (hapart : ∀ now fault, e ≠ .proceed c now fault) :
    t.reactor = s.reactor ∧ t.calls c = some call := by
  by_cases hproceed : ∃ c' now fault, e = .proceed c' now fault
  · obtain ⟨c', now, fault, rfl⟩ := hproceed
    obtain ⟨call₀, call', -, haccessed⟩ := proceed_accessed h
    have hne : c ≠ c' := by
      rintro rfl
      exact hapart now fault rfl
    refine ⟨haccessed.reactor, ?_⟩
    rw [haccessed.calls, Slots.put_of_ne hne]
    exact hc
  · have hother : ∀ c' now fault, e ≠ .proceed c' now fault :=
      fun c' now fault heq => hproceed ⟨c', now, fault, heq⟩
    have hunread : ∀ order, e ≠ .reactorRecv order := by
      rintro order rfl
      simp [step, reactorRecv, hreactor] at h
    have hnext : e ≠ .reactorNext := by
      rintro rfl
      simp only [step, reactorNext, hreactor, hc] at h
      split at h
      next reply heq => exact hcall reply (some.inj heq)
      next => cases h
    obtain ⟨hsame, hcalls, -⟩ := step_apart h hother hunread hnext
    refine ⟨hsame, ?_⟩
    rcases hcalls with hcalls | ⟨call₀, hcalls, -⟩
    · rw [hcalls]
      exact hc
    · rw [hcalls, Slots.put_of_ne (Nat.ne_of_lt (hs.call_lt c call hc))]
      exact hc

theorem sole_step [Sha256] (hs : s.Sole) (h : s.step e = some t) (hoverflow : e ≠ .overflow) :
    t.Sole := by
  by_cases hproceed : ∃ c now fault, e = .proceed c now fault
  · obtain ⟨c, now, fault, rfl⟩ := hproceed
    obtain ⟨call, call', hc, haccessed⟩ := proceed_accessed h
    exact haccessed.sole hs hc
  · have hother : ∀ c now fault, e ≠ .proceed c now fault :=
      fun c now fault heq => hproceed ⟨c, now, fault, heq⟩
    have hkeeps : s.KeepsRemovals e := by
      cases e with
      | overflow => exact absurd rfl hoverflow
      | _ => trivial
    exact (aside_step hs hkeeps h hother).sole

theorem step_autoRestart [Sha256] {m m' : Managed} (hs : s.Held) (h : s.step e = some t)
    (hm : s.fleet.registry id = some m) (hm' : t.fleet.registry id = some m') :
    m'.autoRestart = m.autoRestart ∨ ∃ c now fault project root spec, e = .proceed c now fault ∧
      s.calls c = some (.reloading id project root spec) ∧ m'.autoRestart = spec.autoRestart := by
  rcases step_fleet h with hsame | ⟨act, hact, hissues⟩
  · rw [hsame] at hm'
    obtain rfl : m = m' := some.inj (hm.symm.trans hm')
    exact .inl rfl
  · rcases Fleet.step_entry hs.owned.manned hact hm' with ⟨m₀, hm₀, hevolves⟩ | ⟨r, -, hid, -⟩
    · obtain rfl : m = m₀ := some.inj (hm.symm.trans hm₀)
      cases hevolves with
      | same | exhausted | claimed | attached | advanced => exact .inl rfl
      | updated r =>
        cases hissues with
        | direct e act hacts => cases hacts
        | reload c now fault i project root spec hc =>
          exact .inr ⟨c, now, fault, project, root, spec, rfl, hc, rfl⟩
    · have hlt := hs.owned.entry_lt id m hm
      rw [hid] at hlt
      exact absurd hlt (Nat.lt_irrefl _)

end Supervisor
end Soloist
