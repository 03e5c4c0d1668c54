import Soloist.Supervisor.Evolution

/-! Which spec a child runs: the requests an actor has taken, and how they relate to the launch it
was created for. -/
open List

namespace Soloist

namespace Actor
variable {x y : Actor} {r : Request}

/-- A request the actor was created for, has taken, or will read from its mailbox. -/
def Mentions (x : Actor) (r : Request) : Prop :=
  r = x.origin ∨ r ∈ x.causes ∨ .restart r ∈ x.mailbox

theorem mentions_trySend {msg : ActorMsg} (h : (x.trySend msg).Mentions r) :
    x.Mentions r ∨ msg = .restart r := by
  obtain ⟨box, hbox⟩ := x.trySend_eq msg
  rcases h with horigin | hcause | hmail
  · rw [hbox] at horigin
    exact .inl (.inl horigin)
  · rw [hbox] at hcause
    exact .inl (.inr (.inl hcause))
  · rcases mem_trySend hmail with hmail | hsent
    · exact .inl (.inr (.inr hmail))
    · exact .inr hsent.symm

theorem Moves.mentions {mv : ActorMove} (h : x.Moves mv y) (hr : y.Mentions r) :
    x.Mentions r := by
  have htail : ∀ head rest, x.mailbox = head :: rest → ActorMsg.restart r ∈ rest →
      x.Mentions r := by
    intro head rest hbox hmem
    right; right
    rw [hbox]
    exact .tail _ hmem
  have htaken : ∀ q rest, x.mailbox = .restart q :: rest →
      (r = x.origin ∨ r ∈ x.causes ++ [q] ∨ ActorMsg.restart r ∈ rest) → x.Mentions r := by
    intro q rest hbox hmention
    rcases hmention with horigin | hcause | hmem
    · exact .inl horigin
    · rcases mem_append.mp hcause with hcause | hq
      · exact .inr (.inl hcause)
      · rw [mem_singleton] at hq
        right; right
        rw [hbox, hq]
        exact .head _
    · exact htail _ rest hbox hmem
  cases h with
  | childExit | spawnTask | poll | drained | spawnFailed | exit | disconnected | reap | cycle =>
    exact hr
  | spawn captured hout hpc =>
    rcases hr with horigin | hcause | hmem
    · exact .inl horigin
    · cases hcause
    · exact .inr (.inr hmem)
  | drainStop rest hout hpc hbox | recvStop rest hout hpc hbox =>
    rcases hr with horigin | hcause | hmem
    · exact .inl horigin
    · exact .inr (.inl hcause)
    · exact htail _ rest hbox hmem
  | drainRestart q rest hout hpc hbox | recvRestart q rest hout hpc hbox =>
    exact htaken q rest hbox hr

/-- Outside a restart's own message, a step mentions no new request. -/
theorem Evolves.mentions {f : Fleet} {a : ActorId} {act : FleetAct} (h : x.Evolves f a act y)
    (hr : y.Mentions r) : x.Mentions r ∨ act = .restart r ∧ f.mailboxOf r.process = some a := by
  cases h with
  | same | attached | advanced | published => exact .inl hr
  | toldStop id hprocess hbox =>
    rcases mentions_trySend hr with hr | hmsg
    · exact .inl hr
    · cases hmsg
  | toldRestart q hprocess hbox =>
    rcases mentions_trySend hr with hr | hmsg
    · exact .inl hr
    · cases hmsg
      exact .inr ⟨rfl, hbox⟩
  | closed k ha =>
    have hsent : (x.trySend .stop).Mentions r := hr
    rcases mentions_trySend hsent with hr | hmsg
    · exact .inl hr
    · cases hmsg
  | moved mv x' hmoves => exact .inl (hmoves.mentions hr)

end Actor

theorem Pc.pending_spawning {pc next : Pc} {target : ProcStatus} {code : Option Int}
    (h : pc.pending = some (target, code, next)) : next.spawning = pc.spawning := by
  cases pc with
  | exiting st =>
    cases h
    rfl
  | halting | halted | failed | spawned | stopping | restarting | cycled =>
    cases h
    rfl
  | launching | scheduled | top | resolving | selecting | reaping | cycling | done => cases h

/-- An actor runs the spec of its origin, and every request it has taken is related to that. -/
structure Actor.Matched (R : Request → Request → Prop) (x : Actor) : Prop where
  launch : x.launch = x.origin.launch
  process : x.process = x.origin.process
  causes : ∀ r ∈ x.causes, R x.origin r ∧ r.process = x.process
  mailbox : ∀ r, .restart r ∈ x.mailbox → r.process = x.process
  asked : x.pc.spawning = true → x.causes ≠ []

structure Spawn.Matched (R : Request → Request → Prop) (sp : Spawn) : Prop where
  launch : sp.launch = sp.origin.launch
  process : sp.process = sp.origin.process
  spec : ∃ captured, sp.spec = sp.launch.child sp.process captured
  causes : ∀ r ∈ sp.causes, R sp.origin r ∧ r.process = sp.process
  asked : sp.causes ≠ []

namespace Actor
variable {R : Request → Request → Prop} {x y : Actor}

variable (h : x.Matched R)
include h

theorem Matched.trySend {msg : ActorMsg}
    (hmsg : ∀ r, msg = .restart r → x.process = r.process) : (x.trySend msg).Matched R := by
  have hmail : ∀ r, .restart r ∈ (x.trySend msg).mailbox → r.process = x.process := by
    intro r hr
    rcases mem_trySend hr with hr | hsent
    · exact h.mailbox r hr
    · exact (hmsg r hsent.symm).symm
  obtain ⟨box, hbox⟩ := x.trySend_eq msg
  rw [hbox] at hmail ⊢
  exact ⟨h.launch, h.process, h.causes, hmail, h.asked⟩

theorem Matched.take {r : Request} {rest : List ActorMsg} (pc : Pc)
    (hbox : x.mailbox = .restart r :: rest) (hr : R x.origin r) :
    Matched R { x with mailbox := rest, pc, causes := x.causes ++ [r] } where
  launch := h.launch
  process := h.process
  causes q hq := by
    rcases mem_append.mp hq with hq | hq
    · exact h.causes q hq
    · obtain rfl := mem_singleton.mp hq
      exact ⟨hr, h.mailbox q (hbox ▸ (.head _))⟩
  mailbox q hq := h.mailbox q (hbox ▸ .tail _ hq)
  asked _ := by simp

theorem Matched.of_pc (hlaunch : y.launch = x.launch)
    (hprocess : y.process = x.process) (horigin : y.origin = x.origin)
    (hcauses : y.causes = x.causes) (hmail : y.mailbox ⊆ x.mailbox)
    (hpc : y.pc.spawning = true → x.pc.spawning = true) : y.Matched R where
  launch := by rw [hlaunch, horigin, h.launch]
  process := by rw [hprocess, horigin, h.process]
  causes := by
    rw [hcauses, hprocess, horigin]
    exact h.causes
  mailbox r hr := by
    rw [hprocess]
    exact h.mailbox r (hmail hr)
  asked hy := by
    rw [hcauses]
    exact h.asked (hpc hy)

theorem Matched.moves {mv : ActorMove} (hmoves : x.Moves mv y)
    (htakes : ∀ r rest, mv = .tryRecv ∨ mv = .recv → x.mailbox = .restart r :: rest →
      R x.origin r) : y.Matched R := by
  cases hmoves with
  | drainRestart r rest hout hpc hbox =>
    exact h.take x.pc hbox (htakes r rest (.inl rfl) hbox)
  | recvRestart r rest hout hpc hbox =>
    exact h.take .restarting hbox (htakes r rest (.inr rfl) hbox)
  | spawn captured hout hpc =>
    refine ⟨h.launch, h.process, ?_, h.mailbox, Bool.noConfusion⟩
    intro r hr
    cases hr
  | drainStop rest hout hpc hbox | recvStop rest hout hpc hbox =>
    refine h.of_pc rfl rfl rfl rfl ?_ Bool.noConfusion
    intro msg hmem
    rw [hbox]
    exact .tail _ hmem
  | childExit st hlive => exact h.of_pc rfl rfl rfl rfl (List.Subset.refl _) id
  | drained hout hpc hbox =>
    refine h.of_pc rfl rfl rfl rfl (List.Subset.refl _) fun _ => ?_
    rw [hpc]
    rfl
  | spawnTask hout hpc | poll hout hpc | spawnFailed hout hpc | exit st hout hpc hchild
  | disconnected hout hpc hbox hopen | reap hout hpc | cycle hout hpc =>
    refine h.of_pc rfl rfl rfl rfl (List.Subset.refl _) ?_
    simp [hpc, Pc.spawning]

theorem Matched.evolves {f : Fleet} {a : ActorId} {act : FleetAct}
    (hevolves : x.Evolves f a act y)
    (htakes : ∀ r rest, act = .move a .tryRecv ∨ act = .move a .recv →
      x.mailbox = .restart r :: rest → R x.origin r) : y.Matched R := by
  cases hevolves with
  | same => exact h
  | toldStop id hprocess hbox => exact h.trySend fun r hr => by cases hr
  | toldRestart r hprocess hbox =>
    refine h.trySend fun q hq => ?_
    cases hq
    exact hprocess
  | closed k ha =>
    have hsent : (x.trySend .stop).Matched R := h.trySend fun r hr => by cases hr
    exact hsent.of_pc rfl rfl rfl rfl (List.Subset.refl _) id
  | attached pc hpc =>
    refine h.of_pc rfl rfl rfl rfl (List.Subset.refl _) ?_
    rcases hpc with rfl | ⟨-, rfl, -⟩
    · exact id
    · exact Bool.noConfusion
  | advanced target code next hout hpending =>
    refine h.of_pc rfl rfl rfl rfl (List.Subset.refl _) ?_
    rw [← Pc.pending_spawning hpending]
    exact id
  | published event hout => exact h.of_pc rfl rfl rfl rfl (List.Subset.refl _) id
  | moved mv x' hmoves =>
    refine h.moves hmoves ?_
    rintro r rest (rfl | rfl) hbox
    · exact htakes r rest (.inl rfl) hbox
    · exact htakes r rest (.inr rfl) hbox

omit h

end Actor

namespace Fleet
variable {f g : Fleet} {act : FleetAct} {r : Request}

def Mentions (f : Fleet) (r : Request) : Prop :=
  (∃ a x, f.actors a = some x ∧ x.Mentions r) ∨ ∃ sp ∈ f.spawns, r = sp.origin ∨ r ∈ sp.causes

def Accepts (f : Fleet) (act : FleetAct) (r : Request) : Prop :=
  (act = .launch r ∨ act = .restart r) ∧ ∃ m, f.registry r.process = some m

theorem step_mentions [Sha256] (h : f.Owned) (hstep : f.step act = some g) (hr : g.Mentions r) :
    f.Mentions r ∨ f.Accepts act r := by
  rcases hr with ⟨a, y, hy, hr⟩ | ⟨sp, hsp, hr⟩
  · rcases step_actor h.manned hstep hy with ⟨x, hx, hevolves⟩ | ⟨q, source, rfl, rfl, rfl⟩
    · rcases hevolves.mentions hr with hr | ⟨hact, hbox⟩
      · exact .inl (.inl ⟨a, x, hx, hr⟩)
      · obtain ⟨m, -, hm, -⟩ := mailboxOf_eq_some.mp hbox
        exact .inr ⟨.inr hact, m, hm⟩
    · obtain ⟨claim, hclaim, -⟩ := Option.map_eq_some_iff.mp hstep
      obtain ⟨m, hm, -⟩ := Registry.beginLaunch_eq_some.mp hclaim
      rcases hr with rfl | hcause | hmem
      · exact .inr ⟨.inl rfl, m, hm⟩
      · cases mem_singleton.mp hcause
        exact .inr ⟨.inl rfl, m, hm⟩
      · cases hmem
  · rcases step_spawns h hstep with hsame | ⟨b, captured, x, -, hx, -, hspawns⟩
    · rw [hsame] at hsp
      exact .inl (.inr ⟨sp, hsp, hr⟩)
    · rw [hspawns] at hsp
      rcases mem_append.mp hsp with hsp | hsp
      · exact .inl (.inr ⟨sp, hsp, hr⟩)
      · cases mem_singleton.mp hsp
        rcases hr with horigin | hcause
        · exact .inl (.inl ⟨b, x, hx, .inl horigin⟩)
        · exact .inl (.inl ⟨b, x, hx, .inr (.inl hcause)⟩)

structure Matched (R : Request → Request → Prop) (f : Fleet) : Prop where
  actors : ∀ a x, f.actors a = some x → x.Matched R
  spawns : ∀ sp ∈ f.spawns, sp.Matched R

/-- What a step must meet: a claim is related to itself, and a restart taken off a mailbox to the
origin of the actor that takes it. -/
structure Admits (R : Request → Request → Prop) (f : Fleet) (act : FleetAct) : Prop where
  claim : ∀ r, act = .launch r → (∃ g, f.launchActor r = some g) → R r r
  take : ∀ a x r rest, act = .move a .tryRecv ∨ act = .move a .recv → f.actors a = some x →
    x.mailbox = .restart r :: rest → R x.origin r

theorem Matched.step [Sha256] {R : Request → Request → Prop} (hm : f.Matched R) (h : f.Owned)
    (hadmits : f.Admits R act) (hstep : f.step act = some g) : g.Matched R := by
  constructor
  · intro a y hy
    rcases step_actor h.manned hstep hy with ⟨x, hx, hevolves⟩ | ⟨r, source, rfl, rfl, rfl⟩
    · exact (hm.actors a x hx).evolves hevolves
        fun r rest hact hbox => hadmits.take a x r rest hact hx hbox
    · have hr : R r r := hadmits.claim r rfl ⟨g, hstep⟩
      refine ⟨rfl, rfl, ?_, ?_, ?_⟩
      · intro q hq
        cases mem_singleton.mp hq
        exact ⟨hr, rfl⟩
      · intro q hq
        cases hq
      · intro _
        exact cons_ne_nil r []
  · intro sp hsp
    rcases step_spawns h hstep with hsame | ⟨b, captured, x, -, hx, hpc, hspawns⟩
    · rw [hsame] at hsp
      exact hm.spawns sp hsp
    · rw [hspawns] at hsp
      rcases mem_append.mp hsp with hsp | hsp
      · exact hm.spawns sp hsp
      · cases mem_singleton.mp hsp
        have hx := hm.actors b x hx
        refine ⟨hx.launch, hx.process, ⟨captured, rfl⟩, hx.causes, hx.asked ?_⟩
        rw [hpc]
        rfl

end Fleet

namespace Supervisor

def takes (s : Supervisor) : SupervisorEvent → Option (Actor × Request)
  | .move a .tryRecv | .move a .recv =>
    match s.fleet.actors a with
    | none => none
    | some x =>
      match x.mailbox with
      | .restart r :: _ => some (x, r)
      | _ => none
  | _ => none

variable {s t : Supervisor} {e : SupervisorEvent}

variable {x : Actor} {r : Request}

theorem takes_of_move {a : ActorId} {rest : List ActorMsg} {mv : ActorMove}
    (hmv : mv = .tryRecv ∨ mv = .recv) (hx : s.fleet.actors a = some x)
    (hbox : x.mailbox = .restart r :: rest) : s.takes (.move a mv) = some (x, r) := by
  rcases hmv with rfl | rfl <;> simp only [takes, hx, hbox]

theorem takes_actor (h : s.takes e = some (x, r)) : ∃ a, s.fleet.actors a = some x := by
  unfold takes at h
  split at h
  all_goals try cases h
  all_goals
    split at h
    · cases h
    · next y hy =>
      split at h
      · cases h
        exact ⟨_, hy⟩
      · cases h

theorem owned_step [Sha256] (h : s.fleet.Owned) (hstep : s.step e = some t) :
    t.fleet.Owned := by
  rcases step_fleet hstep with hsame | ⟨act, hact, -⟩
  · rw [hsame]
    exact h
  · exact Fleet.owned_step h hact

variable {R : Request → Request → Prop}

/-- The fleet's step meets `R` when the claim and the take of the event do. -/
theorem admits_of_issues [Sha256] {act : FleetAct}
    (hact : s.Issues e act)
    (hclaims : ∀ c now fault kind id info, e = .proceed c now fault →
      s.claims c = some (kind, id, info) →
      (∃ f, s.fleet.launchActor (s.request c kind id info) = some f) →
      R (s.request c kind id info) (s.request c kind id info))
    (htakes : ∀ x r, s.takes e = some (x, r) → R x.origin r) : s.fleet.Admits R act := by
  cases hact with
  | launch c now fault kind id info hclaim =>
    constructor
    · intro r hr hlaunch
      cases hr
      exact hclaims c now fault kind id info rfl hclaim hlaunch
    · rintro a x r rest (hmv | hmv) <;> cases hmv
  | direct _ _ hacts =>
    constructor
    · intro r hr
      subst hr
      cases hacts
    · intro a x r rest hmv hx hbox
      rcases hmv with rfl | rfl <;> cases hacts
      · exact htakes x r (takes_of_move (.inl rfl) hx hbox)
      · exact htakes x r (takes_of_move (.inr rfl) hx hbox)
  | restart | exhaust | stop | signalStop | reload =>
    constructor
    · intro r hr
      cases hr
    · rintro a x r rest (hmv | hmv) <;> cases hmv

theorem matched_of_reachableUnder [Sha256] {G : Supervisor → SupervisorEvent → Prop}
    (hG : ∀ s e act, s.fleet.Matched R → G s e → s.Issues e act → s.fleet.Admits R act)
    (h : supervisorMachine.ReachableUnder G s) : s.fleet.Matched R := by
  have hboth : s.fleet.Owned ∧ s.fleet.Matched R := by
    refine h.invariant (P := fun s => s.fleet.Owned ∧ s.fleet.Matched R) ?_ ?_
    · intro s hs
      have hfleet : s.fleet = .empty := by
        rw [hs]
        rfl
      rw [hfleet]
      refine ⟨Fleet.owned_empty, ?_, ?_⟩
      · intro a x hx
        cases hx
      · intro sp hsp
        cases hsp
    · intro s e t hguard hs hstep
      refine ⟨owned_step hs.1 hstep, ?_⟩
      rcases step_fleet hstep with hsame | ⟨act, hact, hissues⟩
      · rw [hsame]
        exact hs.2
      · exact hs.2.step hs.1 (hG s e act hs.2 hguard hissues) hact
  exact hboth.2

end Supervisor
end Soloist
