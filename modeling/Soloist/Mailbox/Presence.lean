import Soloist.Mailbox.Correspondence

/-! Processes out of the registry, and the removals that are still to be answered: an event is owed
while a call has yet to publish it, while it waits on the bus, and while the reactor is about to
handle it. -/
open List

namespace Soloist

def MailCall.owes : MailCall → Option MailEvent
  | .closing id _ => some (.processRemoved id)
  | .removing project => some (.projectRemoved project)
  | _ => none

namespace Facade
variable {s t : Facade} {c : Nat} {env : Surroundings} {call call' : MailCall}

def Gone (s : Facade) (p : ProcessId) : Prop := p < s.nextProcess ∧ s.processView p = none

instance (s : Facade) (p : ProcessId) : Decidable (s.Gone p) :=
  inferInstanceAs (Decidable (p < s.nextProcess ∧ s.processView p = none))

def Owed (s : Facade) (e : MailEvent) : Prop :=
  (∃ c call, s.calls c = some call ∧ call.owes = some e) ∨ e ∈ s.bus.queue ∨
    Errand.handle e ∈ s.errands

def publishes (s : Facade) : FacadeEvent → Bool
  | .publish _ => true
  | .proceed c _ =>
    match s.calls c with
    | some (.dispatching d) => d.stage = .recorded
    | some (.announcing _) | some (.announcingTodo _) | some (.announcingTask _ _)
    | some (.closing _ _) | some (.removing _) => true
    | _ => false
  | .errand _ =>
    match s.errands with
    | .announce _ _ :: _ => true
    | _ => false
  | _ => false

def dropped (s : Facade) (e : FacadeEvent) : Option MailEvent :=
  if s.publishes e ∧ eventBuffer ≤ s.bus.queue.length then s.bus.queue.head? else none

/-! ### The bus -/

theorem mem_publish_self (b : EventBus) (e : MailEvent) : e ∈ (b.publish e).queue := by
  unfold EventBus.publish
  split_ifs
  · exact mem_append_right _ (mem_singleton_self e)
  · exact mem_append_right _ (mem_singleton_self e)

variable {e : MailEvent}

variable {b : EventBus} {x : MailEvent}

theorem mem_of_mem_publish (h : x ∈ (b.publish e).queue) : x ∈ b.queue ∨ x = e := by
  unfold EventBus.publish at h
  split_ifs at h
  · rcases mem_append.mp h with h | h
    · exact .inl h
    · exact .inr (mem_singleton.mp h)
  · rcases mem_append.mp h with h | h
    · exact .inl (mem_of_mem_tail h)
    · exact .inr (mem_singleton.mp h)

/-- Publishing keeps what is unread, but for the oldest event of a full bus. -/
theorem mem_publish_of_mem (h : x ∈ b.queue)
    (hfull : eventBuffer ≤ b.queue.length → b.queue.head? ≠ some x) : x ∈ (b.publish e).queue := by
  unfold EventBus.publish
  split_ifs with hroom
  · exact mem_append_left _ h
  · cases hqueue : b.queue with
    | nil =>
      rw [hqueue] at h
      cases h
    | cons y rest =>
      rw [hqueue] at h
      have hhead := hfull (Nat.not_lt.mp hroom)
      rw [hqueue] at hhead
      rcases mem_cons.mp h with h | h
      · exact absurd (congrArg some h.symm) hhead
      · exact mem_append_left _ h

/-! ### What is owed -/

theorem Silent.owes (h : Silent s call call') : call.owes = none ∧ call'.owes = none := by
  cases h <;> exact ⟨rfl, rfl⟩

theorem Performs.owes {op : MailboxOp} (h : Performs s c env call op call') :
    call.owes = none ∧ call'.owes = none := by
  cases h <;> exact ⟨rfl, rfl⟩

theorem Dispatch.owes_next (d : Dispatch) : d.next.owes = none := by
  unfold Dispatch.next
  split
  · rfl
  · split <;> rfl

theorem Announces.owes (h : Announces call e call') :
    call'.owes = none ∧ (call.owes = none ∨ call.owes = some e) ∧
      (e.isRemoval = true → call.owes = some e) := by
  cases h with
  | delivered d hstage e he =>
    exact ⟨Dispatch.owes_next d, .inl rfl, fun h => by rw [he] at h; cases h⟩
  | acknowledged d e he | todo r e he | task worker d e he =>
    exact ⟨rfl, .inl rfl, fun h => by rw [he] at h; cases h⟩
  | _ => exact ⟨rfl, .inr rfl, fun _ => rfl⟩

theorem publishes_of_announces (hcall : s.calls c = some call) (h : Announces call e call') :
    s.publishes (.proceed c env) = true := by
  cases h with
  | delivered d hstage => simp [publishes, hcall, hstage]
  | _ => simp [publishes, hcall]

def answer : MailEvent → Option MailboxOp
  | .processRemoved id => some (.removeProcess id)
  | .projectRemoved project => some (.forgetProject project)
  | _ => none

section Owed
variable {x : MailEvent}

/-- A call that owes nothing moves; nothing else on the way is lost. -/
theorem Owed.of_moved (h : s.Owed x) (hcall : ∀ y, s.calls c = some y → y.owes = none)
    (hcalls : t.calls = s.calls.put c call') (hbus : t.bus = s.bus) (herrands : t.errands = s.errands) :
    t.Owed x := by
  rcases h with ⟨i, y, hy, howes⟩ | h | h
  · have hi : i ≠ c := by
      rintro rfl
      rw [hcall y hy] at howes
      cases howes
    refine .inl ⟨i, y, ?_, howes⟩
    rw [hcalls, Slots.put_of_ne hi]
    exact hy
  · exact .inr (.inl (hbus ▸ h))
  · exact .inr (.inr (herrands ▸ h))

theorem Owed.of_begun (h : s.Owed x) (hfresh : s.Fresh)
    (hcalls : t.calls = s.calls.put s.nextCall call) (hbus : t.bus = s.bus)
    (herrands : t.errands = s.errands) : t.Owed x := by
  refine h.of_moved (fun y hy => ?_) hcalls hbus herrands
  rw [hfresh _ le_rfl] at hy
  cases hy

variable {e : FacadeEvent}

/-- An event published while another is on its way; the oldest of a full bus is lost. -/
theorem Owed.of_published {event : MailEvent} (h : s.Owed x) (hpublishes : s.publishes e = true)
    (hkept : s.dropped e ≠ some x)
    (hcalls : ∀ i y, s.calls i = some y → y.owes = some x → event = x ∨ t.calls i = some y)
    (hbus : t.bus = s.bus.publish event)
    (herrands : Errand.handle x ∈ s.errands → Errand.handle x ∈ t.errands) : t.Owed x := by
  rcases h with ⟨i, y, hy, howes⟩ | h | h
  · rcases hcalls i y hy howes with hevent | hstill
    · refine .inr (.inl ?_)
      rw [hbus, hevent]
      exact mem_publish_self _ _
    · exact .inl ⟨i, y, hstill, howes⟩
  · refine .inr (.inl ?_)
    rw [hbus]
    refine mem_publish_of_mem h fun hfull hhead => hkept ?_
    rw [dropped, if_pos ⟨hpublishes, hfull⟩, hhead]
  · exact .inr (.inr (herrands h))

theorem Owed.turn (h : s.Owed x) (he : e = .proceed c env) (hkept : s.dropped e ≠ some x)
    (hcall : s.calls c = some call) (hturn : Turn s c env call t) : t.Owed x := by
  have hquiet : call.owes = none → ∀ y, s.calls c = some y → y.owes = none := by
    intro howes y hy
    rw [hcall] at hy
    cases hy
    exact howes
  cases hturn with
  | silent hsilent => exact h.of_moved (hquiet hsilent.owes.1) rfl rfl rfl
  | performs hroom hop => exact h.of_moved (hquiet hop.owes.1) rfl rfl rfl
  | @announces _ call' event hannounces =>
    have hpublishes : s.publishes e = true := he ▸ publishes_of_announces hcall hannounces
    refine h.of_published hpublishes hkept (fun i y hy howes => ?_) rfl fun hx => hx
    by_cases hi : i = c
    · rw [hi, hcall] at hy
      cases hy
      rcases hannounces.owes.2.1 with hnone | hevent
      · rw [hnone] at howes
        cases howes
      · rw [hevent] at howes
        exact .inl (Option.some.inj howes)
    · refine .inr ?_
      exact (Slots.put_of_ne hi).trans hy
  | arranges harranges =>
    refine h.of_moved (hquiet ?_) rfl rfl rfl
    cases harranges <;> rfl
  | _ => exact h.of_moved (hquiet rfl) rfl rfl rfl

theorem Owed.errand {action : Errand} {rest : List Errand} (h : s.Owed x) (he : e = .errand env)
    (hremoval : x.isRemoval = true) (hkept : s.dropped e ≠ some x)
    (hnext : s.errands = action :: rest) (hturn : ErrandTurn s env rest action t) :
    t.Owed x ∨ ∃ op, answer x = some op ∧ s.room.step op = some t.room := by
  have hmem : Errand.handle x ∈ s.errands → action = .handle x ∨ Errand.handle x ∈ rest := by
    intro hx
    rw [hnext] at hx
    rcases mem_cons.mp hx with hx | hx
    · exact .inl hx.symm
    · exact .inr hx
  have hplanned : ∀ {new : List Errand}, action.isRemoval = false → t.calls = s.calls →
      t.bus = s.bus → t.errands = new ++ rest → t.Owed x := by
    intro new haction hcalls hbus herrands
    rcases h with ⟨i, y, hy, howes⟩ | h | h
    · exact .inl ⟨i, y, hcalls ▸ hy, howes⟩
    · exact .inr (.inl (hbus ▸ h))
    · refine .inr (.inr ?_)
      rw [herrands]
      rcases hmem h with hx | hx
      · rw [hx] at haction
        rw [show (Errand.handle x).isRemoval = x.isRemoval from rfl, hremoval] at haction
        cases haction
      · exact mem_append_right _ hx
  have hanswered : ∀ {event : MailEvent}, action = .handle event → t.calls = s.calls →
      t.bus = s.bus → t.errands = rest → event = x ∨ t.Owed x := by
    intro event haction hcalls hbus herrands
    rcases h with ⟨i, y, hy, howes⟩ | h | h
    · exact .inr (.inl ⟨i, y, hcalls ▸ hy, howes⟩)
    · exact .inr (.inr (.inl (hbus ▸ h)))
    · rcases hmem h with hx | hx
      · rw [haction] at hx
        cases hx
        exact .inl rfl
      · exact .inr (.inr (.inr (herrands ▸ hx)))
  cases hturn with
  | plans new haction => exact .inl (hplanned haction rfl rfl rfl)
  | performs new haction => exact .inl (hplanned haction rfl rfl rfl)
  | announces project id =>
    have hpublishes : s.publishes e = true := by
      rw [he]
      simp [publishes, hnext]
    refine .inl (h.of_published hpublishes hkept (fun i y hy _ => .inr hy) rfl fun hx => ?_)
    rcases hmem hx with hx | hx
    · cases hx
    · exact hx
  | removes id hroom =>
    rcases hanswered rfl rfl rfl rfl with hx | hx
    · exact .inr ⟨.removeProcess id, by rw [← hx]; rfl, hroom⟩
    · exact .inl hx
  | forgets id hroom =>
    rcases hanswered rfl rfl rfl rfl with hx | hx
    · exact .inr ⟨.forgetProject id, by rw [← hx]; rfl, hroom⟩
    · exact .inl hx

/-- A removal on its way stays on its way until it is dropped or answered. -/
theorem Owed.step (h : s.Owed x) (hfresh : s.Fresh) (hremoval : x.isRemoval = true)
    (hkept : s.dropped e ≠ some x) (hstep : Step s e t) :
    t.Owed x ∨ ∃ op, answer x = some op ∧ s.room.step op = some t.room := by
  cases hstep with
  | opens hopens => exact .inl (h.of_begun hfresh rfl rfl rfl)
  | closes id hlive => exact .inl (h.of_begun hfresh rfl rfl rfl)
  | proceeds hcall hturn => exact .inl (h.turn rfl hkept hcall hturn)
  | stores | classifies => exact .inl h
  | publishes event hevent =>
    exact .inl (h.of_published rfl hkept (fun i y hy _ => .inr hy) rfl fun hx => hx)
  | receives event rest hidle hlag hqueue =>
    refine .inl ?_
    rcases h with hcall | h | h
    · exact .inl hcall
    · rw [hqueue] at h
      rcases mem_cons.mp h with h | h
      · rw [h]
        exact .inr (.inr (mem_singleton_self _))
      · exact .inr (.inl h)
    · rw [hidle] at h
      cases h
  | lags hidle | ticks hidle =>
    refine .inl ?_
    rcases h with hcall | h | h
    · exact .inl hcall
    · exact .inr (.inl h)
    · rw [hidle] at h
      cases h
  | errands hnext hturn => exact h.errand rfl hremoval hkept hnext hturn

end Owed

/-! ### The registry -/

/-- What a step does to the registry: nothing, one process less, whose removal is then owed, or the
next process. -/
inductive RegistryEffect (s t : Facade) : Prop
  | same (hregistry : t.registry = s.registry) (hnext : t.nextProcess = s.nextProcess)
  | erased (id : ProcessId) (hlive : (s.processView id).isSome = true)
      (hregistry : t.registry = s.registry.erase id) (hnext : t.nextProcess = s.nextProcess)
      (howed : t.Owed (.processRemoved id))
  | inserted (view : Soloist.ProcessView)
      (hregistry : t.registry = AList.insert s.nextProcess view s.registry)
      (hnext : t.nextProcess = s.nextProcess + 1)

theorem Turn.registryEffect (h : Turn s c env call t) : RegistryEffect s t := by
  cases h with
  | registered l => exact .inserted _ rfl rfl
  | unregistered project id ids hlive =>
    exact .erased id hlive rfl rfl (.inl ⟨c, _, Slots.put_self, rfl⟩)
  | _ => exact .same rfl rfl

theorem Step.registryEffect {e : FacadeEvent} (h : Step s e t) : RegistryEffect s t := by
  cases h with
  | closes id hlive => exact .erased id hlive rfl rfl (.inl ⟨s.nextCall, _, Slots.put_self, rfl⟩)
  | proceeds hcall hturn => exact hturn.registryEffect
  | errands hnext hturn => cases hturn <;> exact .same rfl rfl
  | _ => exact .same rfl rfl

namespace RegistryEffect
variable {p : ProcessId}

theorem processView_of_erased {id : ProcessId} (h : t.registry = s.registry.erase id) :
    t.processView p = if p = id then none else s.processView p := by
  unfold processView
  rw [h, Dict.lookup_erase]

theorem processView_of_inserted {view : Soloist.ProcessView}
    (h : t.registry = AList.insert s.nextProcess view s.registry) :
    t.processView p = if p = s.nextProcess then some view else s.processView p := by
  unfold processView
  rw [h, Dict.lookup_insert]

theorem gone (h : RegistryEffect s t) (hp : s.Gone p) : t.Gone p := by
  obtain ⟨hlt, hnone⟩ := hp
  cases h with
  | same hregistry hnext =>
    refine ⟨hnext ▸ hlt, ?_⟩
    unfold processView at hnone ⊢
    rw [hregistry]
    exact hnone
  | erased id hlive hregistry hnext howed =>
    refine ⟨hnext ▸ hlt, ?_⟩
    rw [processView_of_erased hregistry, hnone, ite_self]
  | inserted view hregistry hnext =>
    refine ⟨?_, ?_⟩
    · rw [hnext]
      exact Nat.lt_succ_of_lt hlt
    · rw [processView_of_inserted hregistry, if_neg (Nat.ne_of_lt hlt)]
      exact hnone

theorem gone_source (h : RegistryEffect s t) (hp : t.Gone p) :
    s.Gone p ∨ t.Owed (.processRemoved p) := by
  obtain ⟨hlt, hnone⟩ := hp
  cases h with
  | same hregistry hnext =>
    refine .inl ⟨hnext ▸ hlt, ?_⟩
    unfold processView at hnone ⊢
    rw [← hregistry]
    exact hnone
  | erased id hlive hregistry hnext howed =>
    by_cases hp : p = id
    · rw [hp]
      exact .inr howed
    · rw [processView_of_erased hregistry, if_neg hp] at hnone
      exact .inl ⟨hnext ▸ hlt, hnone⟩
  | inserted view hregistry hnext =>
    rw [processView_of_inserted hregistry] at hnone
    split_ifs at hnone with hp
    rw [hnext] at hlt
    exact .inl ⟨Nat.lt_of_le_of_ne (Nat.le_of_lt_succ hlt) hp, hnone⟩

end RegistryEffect

/-- Registered processes have ids given out, and a removal on its way is of a process gone. -/
structure Rostered (s : Facade) : Prop where
  minted : ∀ p, (s.processView p).isSome = true → p < s.nextProcess
  leaving : ∀ p, s.Owed (.processRemoved p) → s.Gone p

theorem rostered_init : Rostered .init where
  minted p hp := by
    simp [init, processView] at hp
  leaving p hp := by
    rcases hp with ⟨c, call, hcall, -⟩ | hp | hp
    · cases hcall
    · cases hp
    · cases hp

section Source
variable {x : MailEvent} {p : ProcessId}

theorem owed_of_moved {R : Prop} (h : t.Owed x) (hcalls : t.calls = s.calls.put c call')
    (howes : call'.owes = some x → R) (hbus : x ∈ t.bus.queue → s.Owed x)
    (herrands : t.errands = s.errands) : s.Owed x ∨ R := by
  rcases h with ⟨i, y, hy, hyx⟩ | h | h
  · rw [hcalls] at hy
    rcases Slots.put_eq_some.mp hy with ⟨-, hy⟩ | ⟨-, hy⟩
    · rw [← hy] at hyx
      exact .inr (howes hyx)
    · exact .inl (.inl ⟨i, y, hy, hyx⟩)
  · exact .inl (hbus h)
  · exact .inl (.inr (.inr (herrands ▸ h)))

theorem Turn.owed_source (hcall : s.calls c = some call) (h : Turn s c env call t)
    (hp : t.Owed (.processRemoved p)) :
    s.Owed (.processRemoved p) ∨
      (s.processView p).isSome = true ∧ t.registry = s.registry.erase p := by
  cases h with
  | silent hsilent =>
    refine owed_of_moved hp rfl (fun hx => ?_) (fun hx => .inr (.inl hx)) rfl
    rw [hsilent.owes.2] at hx
    cases hx
  | performs hroom hop =>
    refine owed_of_moved hp rfl (fun hx => ?_) (fun hx => .inr (.inl hx)) rfl
    rw [hop.owes.2] at hx
    cases hx
  | announces hannounces =>
    refine owed_of_moved hp rfl (fun hx => ?_) (fun hx => ?_) rfl
    · rw [hannounces.owes.1] at hx
      cases hx
    · rcases mem_of_mem_publish hx with hx | hx
      · exact .inr (.inl hx)
      · rw [← hx] at hannounces
        exact .inl ⟨c, call, hcall, hannounces.owes.2.2 rfl⟩
  | arranges harranges =>
    refine owed_of_moved hp rfl (fun hx => ?_) (fun hx => .inr (.inl hx)) rfl
    cases harranges with
    | completed r outcome board call' hprojects hcall' =>
      rcases hcall' with hcall' | hcall' <;> rw [hcall'] at hx <;> cases hx
    | nested spawn worker parents call' hcall' =>
      rcases hcall' with hcall' | hcall' <;> rw [hcall'] at hx <;> cases hx
    | _ => cases hx
  | queuedAll draft members ds room call' haddressee hok hroom hcall' =>
    refine owed_of_moved hp rfl (fun hx => ?_) (fun hx => .inr (.inl hx)) rfl
    rcases hcall' with ⟨-, hcall'⟩ | ⟨d, rest, -, hcall'⟩ <;> rw [hcall'] at hx <;> cases hx
  | unregistered project id ids hlive =>
    refine owed_of_moved hp rfl (fun hx => ?_) (fun hx => .inr (.inl hx)) rfl
    cases hx
    exact ⟨hlive, rfl⟩
  | _ =>
    refine owed_of_moved hp rfl (fun hx => ?_) (fun hx => .inr (.inl hx)) rfl
    cases hx

theorem ErrandTurn.owed_source {action : Errand} {rest : List Errand}
    (hnext : s.errands = action :: rest) (h : ErrandTurn s env rest action t) (hp : t.Owed x)
    (hx : x.isRemoval = true) : s.Owed x := by
  have hrest : Errand.handle x ∈ rest → s.Owed x := by
    intro h
    refine .inr (.inr ?_)
    rw [hnext]
    exact .tail _ h
  have hplanned : ∀ {new : List Errand}, (∀ y ∈ new, y.isRemoval = false) →
      Errand.handle x ∈ new ++ rest → s.Owed x := by
    intro new hnew h
    rcases mem_append.mp h with h | h
    · have hnot := hnew _ h
      rw [show (Errand.handle x).isRemoval = x.isRemoval from rfl, hx] at hnot
      cases hnot
    · exact hrest h
  cases h with
  | plans new haction hnew =>
    rcases hp with hp | hp | hp
    · exact .inl hp
    · exact .inr (.inl hp)
    · exact hplanned hnew hp
  | performs new haction hnew =>
    rcases hp with hp | hp | hp
    · exact .inl hp
    · exact .inr (.inl hp)
    · exact hplanned hnew hp
  | announces project id =>
    rcases hp with hp | hp | hp
    · exact .inl hp
    · rcases mem_of_mem_publish hp with hp | hp
      · exact .inr (.inl hp)
      · rw [hp] at hx
        cases hx
    · exact hrest hp
  | removes | forgets =>
    rcases hp with hp | hp | hp
    · exact .inl hp
    · exact .inr (.inl hp)
    · exact hrest hp

theorem Step.owed_source {e : FacadeEvent} (h : Step s e t) (hp : t.Owed (.processRemoved p)) :
    s.Owed (.processRemoved p) ∨
      (s.processView p).isSome = true ∧ t.registry = s.registry.erase p := by
  cases h with
  | opens hopens =>
    refine owed_of_moved hp rfl (fun hx => ?_) (fun hx => .inr (.inl hx)) rfl
    cases hopens <;> cases hx
  | closes id hlive =>
    refine owed_of_moved hp rfl (fun hx => ?_) (fun hx => .inr (.inl hx)) rfl
    cases hx
    exact ⟨hlive, rfl⟩
  | proceeds hcall hturn => exact hturn.owed_source hcall hp
  | stores | classifies => exact .inl hp
  | publishes event hevent =>
    refine .inl ?_
    rcases hp with hp | hp | hp
    · exact .inl hp
    · rcases mem_of_mem_publish hp with hp | hp
      · exact .inr (.inl hp)
      · rw [← hp] at hevent
        cases hevent
    · exact .inr (.inr hp)
  | receives event rest hidle hlag hqueue =>
    refine .inl ?_
    rcases hp with hp | hp | hp
    · exact .inl hp
    · refine .inr (.inl ?_)
      rw [hqueue]
      exact .tail _ hp
    · refine .inr (.inl ?_)
      rw [hqueue]
      cases mem_singleton.mp hp
      exact .head _
  | lags hidle hlag =>
    rcases hp with hp | hp | hp
    · exact .inl (.inl hp)
    · exact .inl (.inr (.inl hp))
    · cases mem_singleton.mp hp
  | ticks hidle =>
    rcases hp with hp | hp | hp
    · exact .inl (.inl hp)
    · exact .inl (.inr (.inl hp))
    · simp at hp
  | errands hnext hturn => exact .inl (hturn.owed_source hnext hp rfl)

end Source

theorem Rostered.step {e : FacadeEvent} (hs : Rostered s) (h : Step s e t) : Rostered t := by
  have heffect := h.registryEffect
  constructor
  · intro p hp
    cases heffect with
    | same hregistry hnext =>
      rw [hnext]
      refine hs.minted p ?_
      unfold processView at hp ⊢
      rwa [hregistry] at hp
    | erased id hlive hregistry hnext howed =>
      rw [hnext]
      rw [RegistryEffect.processView_of_erased hregistry] at hp
      split_ifs at hp
      · cases hp
      · exact hs.minted p hp
    | inserted view hregistry hnext =>
      rw [hnext]
      rw [RegistryEffect.processView_of_inserted hregistry] at hp
      split_ifs at hp with hnew
      · rw [hnew]
        exact Nat.lt_succ_self _
      · exact Nat.lt_succ_of_lt (hs.minted p hp)
  · intro p hp
    rcases h.owed_source hp with howed | ⟨hlive, hregistry⟩
    · exact heffect.gone (hs.leaving p howed)
    · have hview : t.processView p = none := by
        rw [RegistryEffect.processView_of_erased hregistry, if_pos rfl]
      have hlt := hs.minted p hlive
      refine ⟨?_, hview⟩
      cases heffect with
      | same _ hnext | erased _ _ _ hnext => exact hnext ▸ hlt
      | inserted _ _ hnext =>
        rw [hnext]
        exact Nat.lt_succ_of_lt hlt

end Facade

end Soloist
