import Soloist.Supervisor.ReloadedSpec
import Soloist.Supervisor.Windows

/-! What a removal leaves behind. The registry entry and its actor slot go at once; the channel, the
locks and the crash window each go with a later step that may not come. -/
open Option Slots

namespace Soloist

namespace Actor

theorem Evolves.started {f : Fleet} {x y : Actor} {a : ActorId} {act : FleetAct}
    (h : x.Evolves f a act y) (hx : x.Started) : y.Started := by
  obtain ⟨hlaunching, hscheduled, hran⟩ := hx
  have hkept : ∀ z : Actor, z.pc = x.pc → z.status = x.status → z.Started := by
    intro z hpc hstatus
    rw [Started, Aborted, hpc, hstatus]
    exact ⟨hlaunching, hscheduled, hran⟩
  have hwent : ∀ z : Actor, z.pc ≠ .launching → z.pc ≠ .scheduled → z.pc ≠ .done → z.Started :=
    fun z hz hz' hdone => ⟨hz, hz', fun haborted => hdone haborted.1⟩
  cases h with
  | same | published => exact hkept _ rfl rfl
  | toldStop | toldRestart | closed => exact hkept _ trySend_pc (alike_trySend _ _).status
  | attached pc hpc =>
    rcases hpc with rfl | ⟨hbefore, -⟩
    · exact hkept _ rfl rfl
    · exact absurd hbefore hscheduled
  | advanced target code next hout hpending =>
    have hrest := (Pc.pending_spec hpending).2.2.2.1
    refine ⟨?_, ?_, ?_⟩
    · rintro rfl
      generalize x.pc = pc at hpending
      cases pc <;> cases hpending
    · rintro rfl
      generalize x.pc = pc at hpending
      cases pc <;> cases hpending
    · rintro ⟨rfl, rfl⟩
      cases hrest rfl
  | moved mv _ hmoves =>
    cases hmoves with
    | childExit | drainRestart => exact hkept _ rfl rfl
    | spawnTask hout hpc => exact absurd hpc hlaunching
    | poll hout hpc => exact absurd hpc hscheduled
    | drained hout hpc hbox =>
      apply hwent
      all_goals
        dsimp only
        split_ifs <;> exact Pc.noConfusion
    | drainStop | spawn | spawnFailed | exit | recvRestart | recvStop | disconnected | reap
    | cycle => exact hwent _ Pc.noConfusion Pc.noConfusion Pc.noConfusion

end Actor

namespace Call

def frees : Call → Option ProcessId
  | .closing id _ | .reaping id _ | .removed id (.done _) => some id
  | _ => none

/-- Past the point where a close frees the channel. -/
def closed : Call → Bool
  | .removed _ (.done _) | .returned _ => true
  | _ => false

end Call

def Reply.removed : Reply → Bool
  | .done (.ok ()) | .updated true => true
  | _ => false

def Call.tookOut : Call → Bool
  | .returned reply => reply.removed
  | _ => false

namespace Removal

def FreeOwed (s : Removal) (id : ProcessId) : Prop :=
  ∃ c < s.sup.nextCall, ∃ call ∈ s.sup.calls c, call.frees = some id ∧ c ∉ s.freed

instance (s : Removal) (id : ProcessId) : Decidable (s.FreeOwed id) :=
  inferInstanceAs (Decidable (∃ c < s.sup.nextCall, ∃ call ∈ s.sup.calls c, _))

def ReleaseOwed (s : Removal) (id : ProcessId) (besides : Option ActorId) : Prop :=
  ∃ a < s.sup.fleet.nextActor, ∃ x ∈ s.sup.fleet.actors a,
    x.process = id ∧ x.Started ∧ a ∉ s.released ∧ some a ≠ besides

instance (s : Removal) (id : ProcessId) (besides : Option ActorId) :
    Decidable (s.ReleaseOwed id besides) :=
  inferInstanceAs (Decidable (∃ a < s.sup.fleet.nextActor, ∃ x ∈ s.sup.fleet.actors a, _))

/-- What a step must not meet for a removal to leave nothing behind. -/
def Tidy (s : Removal) : RemovalEvent → Prop
  | .core (.deregister id) =>
    ((s.sup.fleet.registry.status id).any (fun status => !status.isActive) = true →
      s.terminals.channels id = none) ∧ (id ∈ s.locks → s.ReleaseOwed id none)
  | .core (.close id) => id ∈ s.locks → s.ReleaseOwed id none
  | .core e => s.sup.KeepsRemovals e
  | .openTerminal a => ∀ x ∈ s.sup.fleet.actors a,
      s.sup.fleet.registry x.process ≠ none ∨ s.FreeOwed x.process
  | .acquire id => s.sup.fleet.registry id ≠ none ∨ s.ReleaseOwed id none
  | .releaseAll a true => ∀ x ∈ s.sup.fleet.actors a, x.process ∈ s.locks →
      s.sup.fleet.registry x.process ≠ none ∨ s.ReleaseOwed x.process (some a)
  | .releaseAll _ false | .freeTerminal _ | .terminal _ => True

instance (s : Removal) : DecidablePred s.Tidy := fun e =>
  match e with
  | .core (.deregister _) => inferInstanceAs (Decidable (_ ∧ _))
  | .core (.close _) => inferInstanceAs (Decidable (_ → _))
  | .core (.register r) => inferInstanceAs (Decidable (s.sup.KeepsRemovals (.register r)))
  | .core .overflow => inferInstanceAs (Decidable (s.sup.KeepsRemovals .overflow))
  | .core (.reload ..) | .core (.launch ..) | .core (.stop _) | .core (.proceed ..)
  | .core (.setTrusted ..) | .core .beginShutdown | .core (.attachJoin _) | .core (.advance _)
  | .core (.publish _) | .core (.move ..) | .core (.reactorRecv _) | .core .reactorNext =>
    isTrue trivial
  | .openTerminal a => inferInstanceAs (Decidable (∀ x ∈ s.sup.fleet.actors a, _))
  | .acquire _ => inferInstanceAs (Decidable (_ ∨ _))
  | .releaseAll a true => inferInstanceAs (Decidable (∀ x ∈ s.sup.fleet.actors a, _ → _))
  | .releaseAll _ false | .freeTerminal _ | .terminal _ => isTrue trivial

/-- What a process has outside the registry still has someone to take it away. -/
structure Swept (s : Removal) : Prop where
  tracked : s.sup.Tracked
  channel : ∀ id, s.terminals.channels id ≠ none →
    s.sup.fleet.registry id ≠ none ∨ s.FreeOwed id
  freed : ∀ c ∈ s.freed, ∃ call, s.sup.calls c = some call ∧ call.closed = true
  locks : ∀ id ∈ s.locks, s.sup.fleet.registry id ≠ none ∨ s.ReleaseOwed id none

theorem swept_init : Swept .init := by
  constructor
  · exact Supervisor.tracked_init
  · intro id hid
    exact absurd rfl hid
  · intro c hc
    cases hc
  · intro id hid
    cases hid

variable {s t : Removal} {e : RemovalEvent} {sup : Supervisor} {id : ProcessId} {c : CallId}
  {call call' : Call}

theorem releaseOwed_step [Sha256] {e : SupervisorEvent} (hs : s.sup.Held)
    (h : s.sup.step e = some sup)
    (howed : s.ReleaseOwed id none) : ({ s with sup } : Removal).ReleaseOwed id none := by
  obtain ⟨a, -, x, hx, hid, hstarted, hreleased, hbesides⟩ := howed
  have hheld := Supervisor.held_step hs h
  obtain ⟨y, hy, hevolves⟩ := Supervisor.step_evolves hs.owned h hx
  refine ⟨a, hheld.owned.actor_lt a y hy, y, hy, ?_, ?_, hreleased, hbesides⟩
  · rcases hevolves with rfl | ⟨act, -, -, hact⟩
    · exact hid
    · exact hact.process.trans hid
  · rcases hevolves with rfl | ⟨act, -, -, hact⟩
    · exact hstarted
    · exact hact.started hstarted

variable {now : Instant} {fault : Option StoreError}

/-- A close goes on to free the channel until it says that the process is gone. -/
theorem frees_proceed [Sha256] {s t : Supervisor} (h : s.proceed c now fault = some t)
    (hc : s.calls c = some call) (hfrees : call.frees = some id) :
    (∃ call', t.calls c = some call' ∧ call'.frees = some id) ∨
      ∃ i result, call = .removed i (.done result) := by
  cases call with
  | closing i handle =>
    simp only [Supervisor.proceed, hc, Option.some.injEq] at h
    subst h
    cases handle with
    | none => exact .inl ⟨_, put_self, hfrees⟩
    | some k => exact .inl ⟨_, put_self, hfrees⟩
  | reaping i join =>
    simp only [Supervisor.proceed, hc] at h
    split_ifs at h
    cases h
    exact .inl ⟨_, put_self, hfrees⟩
  | removed i reply =>
    cases reply with
    | done result => exact .inr ⟨i, result, rfl⟩
    | _ => cases hfrees
  | _ => cases hfrees

theorem closed_proceed [Sha256] {s t : Supervisor} (h : s.proceed c now fault = some t)
    (hc : s.calls c = some call) (hclosed : call.closed = true) :
    ∃ call', t.calls c = some call' ∧ call'.closed = true := by
  cases call with
  | removed i reply =>
    simp only [Supervisor.proceed, hc, Option.some.injEq] at h
    subst h
    exact ⟨_, put_self, rfl⟩
  | returned reply => simp [Supervisor.proceed, hc] at h
  | _ => cases hclosed

theorem call_stays [Sha256] {s t : Supervisor} {e : SupervisorEvent} (hs : s.Held)
    (h : s.step e = some t) (hc : s.calls c = some call) :
    (∃ now fault, e = .proceed c now fault) ∨ t.calls c = some call := by
  rcases Supervisor.step_cases h with ⟨c', now, fault, -, call', rfl, -, hcalls, -⟩ | hoccurs
  · by_cases hcc : c = c'
    · exact .inl ⟨now, fault, by rw [hcc]⟩
    · rw [hcalls]
      exact .inr ((put_of_ne hcc).trans hc)
  · rcases hoccurs.calls with ⟨hcalls, -⟩ | ⟨call', hcalls, -⟩
    · exact .inr (hcalls ▸ hc)
    · have hlt := hs.call_lt c _ hc
      rw [hcalls]
      exact .inr ((put_of_ne (Nat.ne_of_lt hlt)).trans hc)

theorem freeOwed_step [Sha256] {e : SupervisorEvent} (hs : s.sup.Held) (hdue : s.Due e)
    (h : s.sup.step e = some sup) (howed : s.FreeOwed id) :
    ({ s with sup } : Removal).FreeOwed id := by
  obtain ⟨c, -, call, hcall, hfrees, hfreed⟩ := howed
  have hc : s.sup.calls c = some call := hcall
  have hheld := Supervisor.held_step hs h
  suffices hsuffices : ∃ call', sup.calls c = some call' ∧ call'.frees = some id by
    obtain ⟨call', hc', hfrees'⟩ := hsuffices
    exact ⟨c, hheld.call_lt c call' hc', call', hc', hfrees', hfreed⟩
  rcases call_stays hs h hc with ⟨now, fault, rfl⟩ | hstays
  · rcases frees_proceed h hc hfrees with hnext | ⟨i, result, rfl⟩
    · exact hnext
    · simp only [Due, hc] at hdue
      exact absurd hdue hfreed
  · exact ⟨call, hstays, hfrees⟩

theorem keepsRemovals_of_tidy {e : SupervisorEvent} (h : s.Tidy (.core e)) :
    s.sup.KeepsRemovals e := by
  cases e with
  | deregister i | close i => trivial
  | _ => exact h

theorem Swept.core [Sha256] {e : SupervisorEvent} (hs : s.Swept) (htidy : s.Tidy (.core e))
    (hdue : s.Due e) (h : s.sup.step e = some sup) : ({ s with sup } : Removal).Swept where
  tracked := Supervisor.tracked_step hs.tracked (keepsRemovals_of_tidy htidy) h
  channel := by
    intro id hid
    rcases hs.channel id hid with hregistered | howed
    · obtain ⟨m, hm⟩ := ne_none_iff_exists'.mp hregistered
      rcases hs.tracked.held.step_gone h hm with ⟨m', hm'⟩ | ⟨rfl, hclosing⟩ | ⟨rfl, hrest, -⟩
      · refine .inl ?_
        show sup.fleet.registry id ≠ none
        rw [hm']
        exact some_ne_none m'
      · have hlt := (Supervisor.held_step hs.tracked.held h).call_lt _ _ hclosing
        refine .inr ⟨s.sup.nextCall, hlt, _, hclosing, rfl, fun hfreed => ?_⟩
        obtain ⟨call, hc, -⟩ := hs.freed _ hfreed
        exact absurd (hs.tracked.held.call_lt _ _ hc) (Nat.lt_irrefl _)
      · refine absurd (htidy.1 ?_) hid
        rw [Registry.status_eq_some hm, any_some, hrest]
        rfl
    · exact .inr (freeOwed_step hs.tracked.held hdue h howed)
  freed := by
    intro c hc
    obtain ⟨call, hcall, hclosed⟩ := hs.freed c hc
    rcases call_stays hs.tracked.held h hcall with ⟨now, fault, rfl⟩ | hstays
    · exact closed_proceed h hcall hclosed
    · exact ⟨call, hstays, hclosed⟩
  locks := by
    intro id hid
    rcases hs.locks id hid with hregistered | howed
    · obtain ⟨m, hm⟩ := ne_none_iff_exists'.mp hregistered
      rcases hs.tracked.held.step_gone h hm with ⟨m', hm'⟩ | ⟨rfl, -⟩ | ⟨rfl, -⟩
      · refine .inl ?_
        show sup.fleet.registry id ≠ none
        rw [hm']
        exact some_ne_none m'
      · exact .inr (releaseOwed_step hs.tracked.held h (htidy hid))
      · exact .inr (releaseOwed_step hs.tracked.held h (htidy.2 hid))
    · exact .inr (releaseOwed_step hs.tracked.held h howed)

theorem channels_leaves {s t : Terminals} {e : TerminalEvent} (hleaves : leavesChannels e = true)
    (h : s.step e = some t) : t.channels = s.channels := by
  cases e with
  | «open» i actor | remove i => cases hleaves
  | record actor data signals overflow =>
    obtain ⟨k, -, rfl⟩ := map_eq_some_iff.mp h
    rfl
  | markRestart actor signals overflow =>
    obtain ⟨k, -, hmap⟩ := bind_eq_some_iff.mp h
    obtain ⟨stream, -, rfl⟩ := map_eq_some_iff.mp hmap
    unfold Terminals.markRestart
    split_ifs <;> rfl
  | clear i =>
    cases h
    unfold Terminals.clear
    split <;> rfl
  | attach i viewer =>
    simp only [Terminals.step, ite_none_right_eq_some, Option.some.injEq] at h
    obtain ⟨-, rfl⟩ := h
    unfold Terminals.attach
    split <;> rfl
  | recv viewer =>
    obtain ⟨w, -, hmap⟩ := bind_eq_some_iff.mp h
    obtain ⟨read, -, rfl⟩ := map_eq_some_iff.mp hmap
    rfl

theorem channels_open {s : Terminals} {i : ProcessId} {a : ActorId}
    (h : (s.open i a).channels id ≠ none) : s.channels id ≠ none ∨ id = i := by
  unfold Terminals.open at h
  split at h
  · exact .inl h
  · by_cases hid : id = i
    · exact .inr hid
    · left
      intro hnone
      exact h ((put_of_ne hid).trans hnone)

theorem swept_step [Sha256] (hs : s.Swept) (htidy : s.Tidy e) (h : s.step e = some t) :
    t.Swept := by
  cases turn_of_step h with
  | core e sup hdue hsup => exact hs.core htidy hdue hsup
  | openTerminal a x hx hpc =>
    refine ⟨hs.tracked, fun id hid => ?_, hs.freed, hs.locks⟩
    rcases channels_open hid with hold | rfl
    · exact hs.channel id hold
    · exact htidy x hx
  | freeTerminal c i result hc =>
    refine ⟨hs.tracked, fun id hid => ?_, fun c' hc' => ?_, hs.locks⟩
    · obtain ⟨k, hk⟩ := ne_none_iff_exists'.mp hid
      obtain ⟨hne, hold⟩ := erase_eq_some.mp hk
      have hthere : s.terminals.channels id ≠ none := by
        rw [hold]
        exact some_ne_none k
      rcases hs.channel id hthere with hregistered | ⟨c', hlt, call, hcall, hfrees, hfreed⟩
      · exact .inl hregistered
      · refine .inr ⟨c', hlt, call, hcall, hfrees, ?_⟩
        intro hmem
        rcases List.mem_cons.mp hmem with rfl | hmem
        · rw [hc] at hcall
          cases hcall
          cases hfrees
          exact hne rfl
        · exact hfreed hmem
    · rcases List.mem_cons.mp hc' with rfl | hmem
      · exact ⟨_, hc, rfl⟩
      · exact hs.freed c' hmem
  | terminal e terminals hleaves hterminals =>
    refine ⟨hs.tracked, fun id hid => ?_, hs.freed, hs.locks⟩
    have hsame := channels_leaves hleaves hterminals
    rw [hsame] at hid
    exact hs.channel id hid
  | acquire i =>
    refine ⟨hs.tracked, hs.channel, hs.freed, fun id hid => ?_⟩
    rcases List.mem_cons.mp hid with rfl | hold
    · exact htidy
    · exact hs.locks id hold
  | releaseAll a fault x hx hfinished =>
    refine ⟨hs.tracked, hs.channel, hs.freed, fun id hid => ?_⟩
    have hstill : ∀ b y, b < s.sup.fleet.nextActor → s.sup.fleet.actors b = some y → b ≠ a →
        y.process = id → y.Started → b ∉ s.released →
        ({ s with
          locks := if fault then s.locks else s.locks.filter fun id => id ≠ x.process
          released := a :: s.released } : Removal).ReleaseOwed id none := by
      intro b y hlt hy hne hprocess hstarted hreleased
      refine ⟨b, hlt, y, hy, hprocess, hstarted, ?_, some_ne_none b⟩
      intro hmem
      rcases List.mem_cons.mp hmem with heq | hmem
      · exact hne heq
      · exact hreleased hmem
    by_cases hid' : id = x.process
    · subst hid'
      cases fault with
      | false => simp at hid
      | true =>
        rcases htidy x hx hid with hregistered | ⟨b, hlt, y, hy, hprocess, hstarted, hb, hne⟩
        · exact .inl hregistered
        · exact .inr (hstill b y hlt hy (fun heq => hne (congrArg some heq)) hprocess hstarted hb)
    · have hold : id ∈ s.locks := by
        cases fault with
        | false => exact List.mem_of_mem_filter hid
        | true => exact hid
      rcases hs.locks id hold with hregistered | ⟨b, hlt, y, hy, hprocess, hstarted, hb, -⟩
      · exact .inl hregistered
      · refine .inr (hstill b y hlt hy ?_ hprocess hstarted hb)
        rintro rfl
        rw [hx] at hy
        cases hy
        exact hid' hprocess.symm

theorem swept_of_reachableUnder [Sha256] (h : removalMachine.ReachableUnder Tidy s) : s.Swept := by
  refine h.invariant ?_ ?_
  · rintro s rfl
    exact swept_init
  · intro s e t htidy hs hstep
    exact swept_step hs htidy hstep

def Removes (id : ProcessId) (e : SupervisorEvent) : Prop := e = .close id ∨ e = .deregister id

/-- No call on the process and no actor of it is under way, and the reactor has heard that it is
gone. -/
structure Quiet (s : Removal) (id : ProcessId) : Prop where
  calls : ∀ c < s.sup.nextCall, ∀ call ∈ s.sup.calls c, call.target ≠ some id
  actors : ∀ a < s.sup.fleet.nextActor, ∀ x ∈ s.sup.fleet.actors a, x.process = id → s.Over a
  heard : .processRemoved id ∉ s.sup.bus

instance (s : Removal) (id : ProcessId) : Decidable (s.Quiet id) :=
  decidable_of_iff
    ((∀ c < s.sup.nextCall, ∀ call ∈ s.sup.calls c, call.target ≠ some id) ∧
      (∀ a < s.sup.fleet.nextActor, ∀ x ∈ s.sup.fleet.actors a, x.process = id → s.Over a) ∧
      .processRemoved id ∉ s.sup.bus)
    ⟨fun ⟨hcalls, hactors, hheard⟩ => ⟨hcalls, hactors, hheard⟩,
      fun h => ⟨h.calls, h.actors, h.heard⟩⟩

/-- Nothing is kept for the process: no entry, and with it no actor slot, no crash window, no lock
and no channel. -/
structure Forgotten (s : Removal) (id : ProcessId) : Prop where
  entry : s.sup.fleet.registry id = none
  window : s.sup.policy.windows id = none
  lock : id ∉ s.locks
  channel : s.terminals.channels id = none

theorem frees_target (h : call.frees = some id) : call.target = some id := by
  cases call with
  | closing i handle | reaping i join => exact h
  | removed i reply =>
    cases reply with
    | done result => exact h
    | _ => cases h
  | _ => cases h

theorem removing_target (h : call.removing = some id) : call.target = some id := by
  cases call with
  | closing i handle | reaping i join | removed i reply => exact h
  | _ => cases h

theorem Swept.forgotten (hs : s.Swept) (hgone : s.sup.fleet.registry id = none)
    (hquiet : s.Quiet id) : s.Forgotten id where
  entry := hgone
  window := by
    by_contra hwindow
    rcases hs.tracked.counted id (.inl hwindow) with hregistered | hsaid | ⟨c, call, hc, hremoving⟩
    · exact hregistered hgone
    · exact hquiet.heard hsaid
    · have hlt := hs.tracked.held.call_lt c call hc
      exact hquiet.calls c hlt call hc (removing_target hremoving)
  lock := by
    intro hid
    rcases hs.locks id hid with hregistered | ⟨a, hlt, x, hx, hprocess, hstarted, hreleased, -⟩
    · exact hregistered hgone
    · obtain ⟨-, hover | haborted⟩ := hquiet.actors a hlt x hx hprocess x hx
      · exact hreleased hover
      · exact hstarted.2.2 haborted
  channel := by
    by_contra hchannel
    rcases hs.channel id hchannel with hregistered | ⟨c, hlt, call, hc, hfrees, -⟩
    · exact hregistered hgone
    · exact hquiet.calls c hlt call hc (frees_target hfrees)

theorem gone_of_removes [Sha256] {s t : Supervisor} {e : SupervisorEvent} (hs : s.Held)
    (he : Removes id e) (h : s.step e = some t) :
    (id < t.fleet.nextProcess ∧ t.fleet.registry id = none) ∨
      ∃ reply, t.calls s.nextCall = some (.returned reply) ∧ reply.removed = false := by
  rcases he with rfl | rfl
  · rcases Supervisor.close_step h with ⟨m, hm, hfleet, -⟩ | ⟨-, -, hcalls⟩
    · refine .inl ?_
      rw [hfleet]
      exact ⟨hs.owned.entry_lt id m hm, if_pos rfl⟩
    · refine .inr ⟨.done (.error (.notFound id)), ?_, rfl⟩
      rw [hcalls]
      exact put_self
  · simp only [Supervisor.step] at h
    split at h
    next registry hremove =>
      cases h
      rcases s.fleet.registry.removeIfResting_cases id with he | ⟨m, hm, -, he⟩
      · rw [he] at hremove
        cases hremove
      · rw [he] at hremove
        cases hremove
        exact .inl ⟨hs.owned.entry_lt id m hm, if_pos rfl⟩
    next =>
      cases h
      exact .inr ⟨.updated false, put_self, rfl⟩

theorem returned_stays [Sha256] {reply : Reply} (hs : s.sup.Held) (h : s.step e = some t)
    (hc : s.sup.calls c = some (.returned reply)) : t.sup.calls c = some (.returned reply) := by
  cases turn_of_step h with
  | core e sup hdue hsup =>
    rcases call_stays hs hsup hc with ⟨now, fault, rfl⟩ | hstays
    · simp [Supervisor.step, Supervisor.proceed, hc] at hsup
    · exact hstays
  | openTerminal | freeTerminal | terminal | acquire | releaseAll => exact hc

theorem sup_step [Sha256] {e : SupervisorEvent} (h : removalMachine.step s (.core e) = some t) :
    s.sup.step e = some t.sup := by
  cases turn_of_step (e := .core e) h with
  | core e sup hdue hsup => exact hsup

theorem held_step [Sha256] (hs : s.sup.Held) (h : s.step e = some t) : t.sup.Held := by
  cases turn_of_step h with
  | core e sup hdue hsup => exact Supervisor.held_step hs hsup
  | openTerminal | freeTerminal | terminal | acquire | releaseAll => exact hs

theorem gone_stays [Sha256] (hs : s.sup.Held) (h : s.step e = some t)
    (hgone : id < s.sup.fleet.nextProcess ∧ s.sup.fleet.registry id = none) :
    id < t.sup.fleet.nextProcess ∧ t.sup.fleet.registry id = none := by
  cases turn_of_step h with
  | core e sup hdue hsup =>
    have hnext := (Supervisor.step_next hs.owned hsup).1
    exact ⟨Nat.lt_of_lt_of_le hgone.1 hnext,
      Supervisor.step_forgotten hs.owned hsup hgone.1 hgone.2⟩
  | openTerminal | freeTerminal | terminal | acquire | releaseAll => exact hgone

end Removal

/-- Once a removal has returned and all is quiet, nothing of the process is left, as long as no step
was one that leaves its channel, its locks or its crash window to nobody. -/
theorem removal_leaves_nothing [Sha256] {s t : Removal} {e : SupervisorEvent}
    {es : List RemovalEvent} {id : ProcessId} (hs : removalMachine.ReachableUnder Removal.Tidy s)
    (he : Removal.Removes id e) (hrun : removalMachine.run s (.core e :: es) = some t)
    (hes : removalMachine.Along Removal.Tidy s (.core e :: es))
    (hreturned : (t.sup.calls s.sup.nextCall).any Call.tookOut = true) (hquiet : t.Quiet id) :
    t.Forgotten id := by
  have hswept := Removal.swept_of_reachableUnder (hs.run hes hrun)
  refine hswept.forgotten ?_ hquiet
  obtain ⟨u, hu, hrest⟩ := Machine.run_cons_eq_some.mp hrun
  have hheld := (Removal.swept_of_reachableUnder hs).tracked.held
  have hstep : s.sup.step e = some u.sup := Removal.sup_step hu
  have hheld' := Supervisor.held_step hheld hstep
  rcases Removal.gone_of_removes hheld he hstep with hgone | ⟨failed, hfailed, hnot⟩
  · have hkept := Machine.invariant_run
      (P := fun v => v.sup.Held ∧ id < v.sup.fleet.nextProcess ∧ v.sup.fleet.registry id = none)
      (fun v e w hv hw => ⟨Removal.held_step hv.1 hw, Removal.gone_stays hv.1 hw hv.2⟩)
      ⟨hheld', hgone⟩ hrest
    exact hkept.2.2
  · have hkept := Machine.invariant_run
      (P := fun v => v.sup.Held ∧ v.sup.calls s.sup.nextCall = some (.returned failed))
      (fun v e w hv hw => ⟨Removal.held_step hv.1 hw, Removal.returned_stays hv.1 hw hv.2⟩)
      ⟨hheld', hfailed⟩ hrest
    rw [hkept.2, Option.any_some, Call.tookOut, hnot] at hreturned
    cases hreturned

/-- A terminal runs, holds a lock and writes. -/
def busyTerminal : List RemovalEvent :=
  claimTerminal.map .core ++ [.openTerminal 0, .core (.publish 0), .core (.move 0 .spawnTask),
    .core (.attachJoin 0), .core (.move 0 .poll), .core (.move 0 .tryRecv),
    .core (.move 0 (.spawn [])), .core (.advance 0), .core (.publish 0), .acquire 1,
    .terminal (.record 0 [65] [] 0)]

def closeBusy : List RemovalEvent :=
  [.core (.proceed 1 0 none), .core (.move 0 .recv), .core (.advance 0), .core (.publish 0),
    .core (.move 0 .reap), .core (.advance 0), .core (.publish 0), .releaseAll 0 false,
    .core (.proceed 1 0 none), .freeTerminal 1, .core (.proceed 1 0 none)] ++
    List.replicate 5 (.core (.reactorRecv []))

theorem removal_leaves_nothing_closed :
    letI := zeroSha
    ∃ s t, removalMachine.ReachableUnder Removal.Tidy s ∧ 1 ∈ s.locks ∧
      s.terminals.channels 1 ≠ none ∧
      removalMachine.run s (.core (.close 1) :: closeBusy) = some t ∧ t.Forgotten 1 := by
  let _ := zeroSha
  obtain ⟨s, hs, hlocks, hchannel, htidy, hquiet⟩ :=
    Machine.exists_reachableUnder_of_run (G := Removal.Tidy) (M := removalMachine) rfl
      busyTerminal (by decide)
      (fun s => 1 ∈ s.locks ∧ s.terminals.channels 1 ≠ none ∧
        removalMachine.Along Removal.Tidy s (.core (.close 1) :: closeBusy) ∧
        (removalMachine.run s (.core (.close 1) :: closeBusy)).any (fun t =>
          (t.sup.calls s.sup.nextCall).any Call.tookOut = true ∧ t.Quiet 1) = true) (by decide)
  obtain ⟨t, ht, hend⟩ := Option.any_eq_true _ _ |>.mp hquiet
  obtain ⟨hreturned, hquiet⟩ := of_decide_eq_true hend
  exact ⟨s, t, hs, hlocks, hchannel, ht,
    removal_leaves_nothing hs (.inl rfl) ht htidy hreturned hquiet⟩

/-- A trusted command runs, writes and exits. -/
def ranCommand [Sha256] : List RemovalEvent :=
  (startCommand.take 6).map .core ++ [.openTerminal 0] ++ (startCommand.drop 6).map .core ++
    [.terminal (.record 0 [65] [] 0), .core (.move 0 (.childExit ⟨some 0, none⟩)),
      .core (.move 0 .exit), .core (.advance 0), .core (.publish 0), .releaseAll 0 false]

/-- A reload removes it, and the reactor reads of its exit and its removal. -/
def deregisterCommand : List RemovalEvent :=
  [.core (.deregister 1), .core (.proceed 1 0 none)] ++ List.replicate 4 (.core (.reactorRecv []))

/-- A terminal is closed between the claim of its launch and the opening of its channel, and the
launch is aborted. -/
def closeInLaunch : List RemovalEvent :=
  claimTerminal.map .core ++ .core (.close 1) ::
    List.replicate 2 (.core (.proceed 1 0 none)) ++
    [.freeTerminal 1, .core (.proceed 1 0 none), .openTerminal 0, .core (.publish 0),
      .core (.move 0 .spawnTask), .core (.attachJoin 0)] ++
    List.replicate 2 (.core (.reactorRecv []))

/-- A reload's removal frees no channel, and a close may free it before the launch has opened it:
both have returned, all is quiet, and the channel with its scrollback is there. -/
theorem removal_leaves_channel :
    letI := editSha
    (∃ s, removalMachine.run .init (ranCommand ++ deregisterCommand) = some s ∧
        (s.sup.calls 1).any Call.tookOut = true ∧ s.Quiet 1 ∧
        ∃ k, s.terminals.channels 1 = some k ∧
          (s.terminals.streams k).any (fun stream => stream.buffers.raw.bytes = [65]) = true) ∧
      ∃ s, removalMachine.run .init closeInLaunch = some s ∧
        (s.sup.calls 1).any Call.tookOut = true ∧ s.Quiet 1 ∧ s.terminals.channels 1 ≠ none := by
  let _ := editSha
  constructor
  · have hrun : (removalMachine.run .init (ranCommand ++ deregisterCommand)).any (fun s =>
        (s.sup.calls 1).any Call.tookOut = true ∧ s.Quiet 1 ∧
          ∃ k ∈ s.terminals.channels 1,
            (s.terminals.streams k).any (fun stream => stream.buffers.raw.bytes = [65]) = true) =
        true := by
      decide
    obtain ⟨s, hs, hend⟩ := Option.any_eq_true _ _ |>.mp hrun
    exact ⟨s, hs, of_decide_eq_true hend⟩
  · have hrun : (removalMachine.run .init closeInLaunch).any (fun s =>
        (s.sup.calls 1).any Call.tookOut = true ∧ s.Quiet 1 ∧ s.terminals.channels 1 ≠ none) =
        true := by
      decide
    obtain ⟨s, hs, hend⟩ := Option.any_eq_true _ _ |>.mp hrun
    exact ⟨s, hs, of_decide_eq_true hend⟩

end Soloist
