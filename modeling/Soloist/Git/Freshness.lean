import Soloist.Git.WatchTurns

/-! Every change that a routed project's status depends on is read. The change is carried by the
channel, by the project's burst or by the list of what is due; the time spent waiting meanwhile is
bounded by the ceiling on the burst. -/
open List Option

namespace Soloist
namespace GitWatch
variable {s t : GitWatch} {e : GitWatchEvent} {p : ProjectId} {path : PathBuf} {route : Route}

variable {now : Instant}

variable {ds : Dict ProjectId Debouncer}

theorem lookup_foldl_arm (projects : List ProjectId) {d : Debouncer} {began last : Instant}
    (hd : AList.lookup p ds = some d) (hburst : d.Bursting quietWindow maxPostpone began last) :
    ∃ d' last', AList.lookup p (projects.foldl (fun ds q => arm ds now q) ds) = some d' ∧
      d'.Bursting quietWindow maxPostpone began last' := by
  induction projects generalizing ds d last with
  | nil => exact ⟨d, last, hd, hburst⟩
  | cons q projects ih =>
    rw [foldl_cons]
    by_cases hq : p = q
    · subst hq
      refine ih ?_ (hburst.trigger now)
      rw [lookup_arm, if_pos rfl, hd, getD_some]
    · refine ih ?_ hburst
      rw [lookup_arm, if_neg hq, hd]

variable {projects : List ProjectId}

theorem lookup_foldl_arm_of_notMem (hp : p ∉ projects) (ds : Dict ProjectId Debouncer) :
    AList.lookup p (projects.foldl (fun ds q => arm ds now q) ds) = AList.lookup p ds := by
  induction projects generalizing ds with
  | nil => rfl
  | cons q projects ih =>
    rw [mem_cons, not_or] at hp
    rw [foldl_cons, ih hp.2, lookup_arm, if_neg hp.1]

theorem exists_lookup_foldl_arm (hp : p ∈ projects) (ds : Dict ProjectId Debouncer) :
    ∃ d, AList.lookup p (projects.foldl (fun ds q => arm ds now q) ds) = some d := by
  induction projects generalizing ds with
  | nil => cases hp
  | cons q projects ih =>
    rw [foldl_cons]
    obtain rfl | hp := mem_cons.mp hp
    · by_cases hrest : p ∈ projects
      · exact ih hrest _
      · rw [lookup_foldl_arm_of_notMem hrest, lookup_arm, if_pos rfl]
        exact ⟨_, rfl⟩
    · exact ih hp _

/-- The time a step spends waiting at the select. -/
def waited : GitWatchEvent → ℕ
  | .wait d => d
  | _ => 0

def elapsed : GitWatchEvent → ℕ
  | .wait d | .busy d => d
  | _ => 0

def hearsRemoval (p : ProjectId) : GitWatchEvent → Bool
  | .hear (some (.removed id)) _ => id = p
  | _ => false

/-- The project stays routed where it is, and the reactor running. -/
def Keeps (p : ProjectId) (route : Route) (s : GitWatch) (e : GitWatchEvent) : Prop :=
  hearsRemoval p e = false ∧
    ∀ t ∈ s.step e, t.ended = false ∧ AList.lookup p t.routes = some route

instance (p : ProjectId) (route : Route) (s : GitWatch) (e : GitWatchEvent) :
    Decidable (Keeps p route s e) :=
  inferInstanceAs (Decidable (_ ∧ ∀ t ∈ s.step e, _))

/-- A read of the project is coming, after `k` spent waiting for it. -/
inductive Pending (p : ProjectId) (s : GitWatch) (k : ℕ) : Prop
  | armed {d : Debouncer} {began last : Instant} (hd : AList.lookup p s.debouncers = some d)
    (hburst : d.Bursting quietWindow maxPostpone began last) (hk : k + began ≤ s.now)
    (hle : k ≤ maxPostpone)
  | due (hdue : p ∈ s.due) (hle : k ≤ maxPostpone)

variable {k : ℕ}

theorem Pending.le (h : Pending p s k) : k ≤ maxPostpone := by
  cases h with
  | armed _ _ _ hle => exact hle
  | due _ hle => exact hle

theorem Selecting.notMem_due (h : s.Selecting) : p ∉ s.due := by
  rw [h.2.1]
  exact not_mem_nil

/-- A coming read stays so, and only waiting is charged to it, until it begins. -/
theorem Pending.step (hp : Pending p s k) (hs : s.Sound)
    (hroute : AList.lookup p s.routes = some route) (hkeeps : Keeps p route s e)
    (h : s.step e = some t) (hbegin : e ≠ .begin p) : Pending p t (k + waited e) := by
  cases turn_of_step h with
  | report path | announce e | close _ =>
    cases hp with
    | armed hd hburst hk hle => exact .armed hd hburst hk hle
    | due hdue hle => exact .due hdue hle
  | wait d hselecting hchanges hnext =>
    cases hp with
    | @armed debouncer began last hd hburst hk hle =>
      obtain ⟨least, hleast, hsoon⟩ := nextDue_le hd hburst.dueAt
      have hceiling := hnext least hleast
      have hmin := hsoon.trans (Nat.min_le_right _ _)
      refine .armed hd hburst ?_ ?_
      · show k + d + _ ≤ s.now + d
        omega
      · show k + d ≤ maxPostpone
        have hsum : k + began + d ≤ began + maxPostpone :=
          (Nat.add_le_add_right hk d).trans (hceiling.trans hmin)
        omega
    | due hdue hle => exact absurd hdue hselecting.notMem_due
  | busy d _ =>
    cases hp with
    | armed hd hburst hk hle =>
      exact .armed hd hburst (hk.trans (Nat.le_add_right _ _)) hle
    | due hdue hle => exact .due hdue hle
  | hear e listing bus hselecting =>
    cases hp with
    | armed hd hburst hk hle =>
      obtain ⟨hnow, -⟩ := heard_frame { s with bus } e listing
      have hother : e ≠ some (.removed p) := by
        rintro rfl
        exact absurd hkeeps.1 (by simp [hearsRemoval])
      refine .armed ?_ hburst (by rw [hnow]; exact hk) hle
      rw [lookup_heard, if_neg hother]
      exact hd
    | due hdue hle => exact absurd hdue hselecting.notMem_due
  | change path changes hselecting hrecv =>
    cases hp with
    | armed hd hburst hk hle =>
      obtain ⟨d', last', hd', hburst'⟩ := lookup_foldl_arm (s.armedBy path) hd hburst
      exact .armed hd' hburst' hk hle
    | due hdue hle => exact absurd hdue hselecting.notMem_due
  | fire order hselecting horder =>
    cases hp with
    | armed hd hburst hk hle =>
      by_cases hdue : p ∈ s.dueNow
      · exact .due (horder.mem_iff.mpr hdue) hle
      · refine .armed ?_ hburst hk hle
        rw [lookup_untaken hs.bursts, if_neg hdue]
        exact hd
    | due hdue hle => exact absurd hdue hselecting.notMem_due
  | begin project rest hread hdue =>
    cases hp with
    | armed hd hburst hk hle => exact .armed hd hburst hk hle
    | due hmem hle =>
      rw [hdue, mem_cons] at hmem
      obtain rfl | hrest := hmem
      · exact absurd rfl hbegin
      · exact .due hrest hle
  | skip project rest hread hdue hunrouted =>
    cases hp with
    | armed hd hburst hk hle => exact .armed hd hburst hk hle
    | due hmem hle =>
      rw [hdue, mem_cons] at hmem
      obtain rfl | hrest := hmem
      · unfold Routes.rootOf at hunrouted
        rw [hroute] at hunrouted
        cases hunrouted
      · exact .due hrest hle
  | finish project read hread =>
    unfold finished
    cases hp with
    | armed hd hburst hk hle =>
      cases read with
      | ok changed => exact .armed hd hburst hk hle
      | error err =>
        dsimp only
        split_ifs
        · exact .armed hd hburst hk hle
        · obtain ⟨d', last', hd', hburst'⟩ := lookup_foldl_arm [project] hd hburst
          exact .armed hd' hburst' hk hle
    | due hdue hle =>
      cases read with
      | ok changed => exact .due hdue hle
      | error err =>
        dsimp only
        split_ifs
        · exact .due hdue hle
        · exact .due hdue hle

/-- A change is in the channel or was lost from it, or the read it asks for is coming. -/
inductive Owed (p : ProjectId) (path : PathBuf) (s : GitWatch) (k : ℕ) : Prop
  | unread (h : path ∈ s.changes.unread) (hk : k = 0)
  | lost (h : s.changes.lagged = true) (hk : k = 0)
  | pending (h : Pending p s k)

theorem pending_of_armed (hs : s.Sound) {heard : Option PathBuf} {changes : Feed PathBuf}
    (hp : p ∈ s.armedBy heard) :
    Pending p { s with
      changes
      debouncers := (s.armedBy heard).foldl (fun ds q => arm ds s.now q) s.debouncers } 0 := by
  obtain ⟨d, hd⟩ := @exists_lookup_foldl_arm p s.now _ hp s.debouncers
  obtain ⟨began, last, hburst, hle, hlast⟩ := bursts_foldl (s.armedBy heard) hs.bursts p d hd
  refine .armed hd hburst ?_ (Nat.zero_le _)
  rw [Nat.zero_add]
  exact hle.trans hlast

theorem Owed.step (ho : Owed p path s k) (hs : s.Sound)
    (hroute : AList.lookup p s.routes = some route) (hcovers : route.covers path = true)
    (hlock : isLock path = false) (hkeeps : Keeps p route s e) (h : s.step e = some t)
    (hbegin : e ≠ .begin p) : Owed p path t (k + waited e) := by
  cases ho with
  | pending hp => exact .pending (hp.step hs hroute hkeeps h hbegin)
  | unread hmem hk =>
    cases turn_of_step h with
    | report other =>
      obtain hkept | hlagged := Feed.mem_publish_or_lagged hmem
      · exact .unread hkept hk
      · exact .lost hlagged hk
    | announce _ | close _ | busy _ _ | fire _ _ _ | begin _ _ _ _ | skip _ _ _ _ _ =>
      exact .unread hmem hk
    | wait d hselecting hchanges hnext =>
      rw [(Feed.recv_eq_none hchanges).1] at hmem
      cases hmem
    | hear e listing bus hselecting =>
      obtain ⟨-, hchanges, -⟩ := heard_frame { s with bus } e listing
      exact .unread (by rw [hchanges]; exact hmem) hk
    | change heard changes hselecting hrecv =>
      obtain ⟨-, hunread⟩ | ⟨first, rfl, hunread⟩ := Feed.recv_eq_some hrecv
      · exact .unread (by rw [hunread]; exact hmem) hk
      · rw [hunread, mem_cons] at hmem
        obtain rfl | hrest := hmem
        · have harmed : p ∈ s.armedBy (some path) := by
            unfold armedBy
            dsimp only
            rw [hlock]
            exact Routes.mem_projectsOf.mpr ⟨route, hroute, hcovers⟩
          subst hk
          exact .pending (pending_of_armed hs harmed)
        · exact .unread hrest hk
    | finish project read hread =>
      refine .unread ?_ hk
      unfold finished
      cases read with
      | ok changed => exact hmem
      | error err =>
        dsimp only
        split_ifs
        · exact hmem
        · exact hmem
  | lost hlagged hk =>
    cases turn_of_step h with
    | report other => exact .lost (Feed.lagged_publish hlagged) hk
    | announce _ | close _ | busy _ _ | fire _ _ _ | begin _ _ _ _ | skip _ _ _ _ _ =>
      exact .lost hlagged hk
    | wait d hselecting hchanges hnext =>
      rw [(Feed.recv_eq_none hchanges).2] at hlagged
      cases hlagged
    | hear e listing bus hselecting =>
      obtain ⟨-, hchanges, -⟩ := heard_frame { s with bus } e listing
      exact .lost (by rw [hchanges]; exact hlagged) hk
    | change heard changes hselecting hrecv =>
      rw [Feed.recv_of_lagged hlagged] at hrecv
      obtain ⟨rfl, -⟩ := Prod.mk.inj (some.inj hrecv)
      subst hk
      exact .pending (pending_of_armed hs (Routes.mem_routed hroute))
    | finish project read hread =>
      refine .lost ?_ hk
      unfold finished
      cases read with
      | ok changed => exact hlagged
      | error err =>
        dsimp only
        split_ifs
        · exact hlagged
        · exact hlagged

/-- No read of the project begins before `T`, which is no more than a quiet window away. -/
structure Rested (p : ProjectId) (T : Instant) (s : GitWatch) : Prop where
  within : T ≤ s.now + quietWindow
  rest : T ≤ s.now ∨ (p ∉ s.due ∧ ∀ d next, AList.lookup p s.debouncers = some d →
    d.dueAt = some next → T ≤ next)

variable {T : Instant}

theorem Rested.lookup_foldl (projects : List ProjectId) (hT : T ≤ now + quietWindow)
    (hbursts : Bursts ds now)
    (h : ∀ d next, AList.lookup p ds = some d → d.dueAt = some next → T ≤ next) :
    ∀ d next, AList.lookup p (projects.foldl (fun ds q => arm ds now q) ds) = some d →
      d.dueAt = some next → T ≤ next := by
  induction projects generalizing ds with
  | nil => exact h
  | cons q projects ih =>
    rw [foldl_cons]
    refine ih (bursts_arm hbursts q) ?_
    intro d next hd hnext
    rw [lookup_arm] at hd
    split_ifs at hd with hq
    · obtain rfl := some.inj hd
      have hwindow : quietWindow ≤ maxPostpone := by decide
      cases hold : AList.lookup q ds with
      | none =>
        rw [hold, getD_none, (Debouncer.bursting_bounded _ _ now).dueAt] at hnext
        obtain rfl := some.inj hnext
        exact le_min hT (hT.trans (Nat.add_le_add_left hwindow now))
      | some old =>
        obtain ⟨began, last, hburst, -⟩ := hbursts q old hold
        have hbefore := h old _ (hq ▸ hold) hburst.dueAt
        rw [hold, getD_some, (hburst.trigger now).dueAt] at hnext
        obtain rfl := some.inj hnext
        exact le_min hT (hbefore.trans (Nat.min_le_right _ _))
    · exact h d next hd hnext

theorem Rested.step (hr : Rested p T s) (hs : s.Sound) (h : s.step e = some t) : Rested p T t := by
  obtain ⟨hwithin, hrest⟩ := hr
  cases turn_of_step h with
  | report path | announce e | close _ => exact ⟨hwithin, hrest⟩
  | wait d _ _ _ | busy d _ =>
    have hlater : s.now ≤ s.now + d := Nat.le_add_right _ _
    exact ⟨hwithin.trans (Nat.add_le_add_right hlater _), hrest.imp_left fun h => h.trans hlater⟩
  | hear e listing bus hselecting =>
    obtain ⟨hnow, -, hdue, -⟩ := heard_frame { s with bus } e listing
    refine ⟨by rw [hnow]; exact hwithin, ?_⟩
    rw [hnow, hdue]
    refine hrest.imp_right fun hnot => ⟨hnot.1, ?_⟩
    intro d next hd hnext
    rw [lookup_heard] at hd
    split_ifs at hd
    exact hnot.2 d next hd hnext
  | change path changes hselecting hrecv =>
    exact ⟨hwithin, hrest.imp_right fun hnot =>
      ⟨hnot.1, Rested.lookup_foldl _ hwithin hs.bursts hnot.2⟩⟩
  | fire order hselecting horder =>
    refine ⟨hwithin, ?_⟩
    obtain hnow | ⟨-, hlater⟩ := hrest
    · exact .inl hnow
    · by_cases hdue : p ∈ s.dueNow
      · obtain ⟨d, hd, htaken⟩ := mem_dueNow.mp hdue
        obtain ⟨began, last, hburst, -⟩ := hs.bursts p d hd
        obtain ⟨hle, -⟩ | ⟨-, hkept⟩ := hburst.takeIfDue s.now
        · exact .inl ((hlater d _ hd hburst.dueAt).trans hle)
        · rw [hkept] at htaken
          cases htaken
      · refine .inr ⟨fun hmem => hdue (horder.mem_iff.mp hmem), ?_⟩
        intro d next hd hnext
        rw [lookup_untaken hs.bursts, if_neg hdue] at hd
        exact hlater d next hd hnext
  | begin project rest hread hdue =>
    refine ⟨hwithin, hrest.imp_right fun hnot => ⟨fun hmem => hnot.1 ?_, hnot.2⟩⟩
    rw [hdue]
    exact .tail _ hmem
  | skip project rest hread hdue hroute =>
    refine ⟨hwithin, hrest.imp_right fun hnot => ⟨fun hmem => hnot.1 ?_, hnot.2⟩⟩
    rw [hdue]
    exact .tail _ hmem
  | finish project read hread =>
    unfold finished
    cases read with
    | ok changed => exact ⟨hwithin, hrest⟩
    | error err =>
      dsimp only
      split_ifs
      · exact ⟨hwithin, hrest⟩
      · exact ⟨hwithin, hrest.imp_right fun hnot =>
          ⟨hnot.1, Rested.lookup_foldl [project] hwithin hs.bursts hnot.2⟩⟩

theorem now_step (h : s.step e = some t) : t.now = s.now + elapsed e := by
  cases turn_of_step h with
  | hear e listing bus hselecting => exact (heard_frame { s with bus } e listing).1
  | finish project read hread =>
    unfold finished
    cases read with
    | ok changed => rfl
    | error err =>
      dsimp only
      split_ifs
      · rfl
      · rfl
  | _ => rfl

theorem now_run {es : List GitWatchEvent} (hr : gitWatchMachine.run s es = some t) :
    t.now = s.now + Machine.cost elapsed es := by
  induction es generalizing s with
  | nil =>
    cases hr
    rfl
  | cons e es ih =>
    obtain ⟨u, hu, hr⟩ := Machine.run_cons_eq_some.mp hr
    rw [ih hr, now_step hu, Machine.cost_cons, Nat.add_assoc]

/-- A read that is under way stays so until it is finished, and nothing is retried meanwhile. -/
theorem reading_run {m : List GitWatchEvent} (hr : gitWatchMachine.run s m = some t)
    (hread : s.reading = some p) (hends : s.ended = false)
    (hunfinished : ∀ e ∈ m, ∀ read, e ≠ .finish p read) :
    t.reading = some p ∧ t.ended = false ∧ t.retried = s.retried := by
  induction m generalizing s with
  | nil =>
    cases hr
    exact ⟨hread, hends, rfl⟩
  | cons e m ih =>
    obtain ⟨u, hu, hr⟩ := Machine.run_cons_eq_some.mp hr
    have hunselecting : ¬s.Selecting := by
      intro h
      rw [h.2.2] at hread
      cases hread
    have hrest := fun hread hends =>
      @ih u hr hread hends fun e he => hunfinished e (.tail _ he)
    cases turn_of_step hu with
    | report _ | announce _ | busy _ _ => exact hrest hread hends
    | close h | wait _ h _ _ | hear _ _ _ h | change _ _ h _ | fire _ h _ =>
      exact absurd h hunselecting
    | begin _ _ hnone _ | skip _ _ hnone _ _ =>
      rw [hnone] at hread
      cases hread
    | finish project read hsame =>
      obtain rfl := some.inj (hread.symm.trans hsame)
      exact absurd rfl (hunfinished _ (.head _) read)

/-- A read of the project begins before more than the ceiling was spent waiting for it; the steps
have not come that far, or one of them begins it. -/
def ReadInTime (p : ProjectId) (es : List GitWatchEvent) : Prop :=
  (∀ e ∈ es, e ≠ .begin p) ∧ Machine.cost waited es ≤ maxPostpone ∨
    ∃ a b, es = a ++ .begin p :: b ∧ (∀ e ∈ a, e ≠ .begin p) ∧ Machine.cost waited a ≤ maxPostpone

/-- The first read of the project among the steps fails, and `d` are the steps after it. -/
def FirstReadFails (p : ProjectId) (es a d : List GitWatchEvent) : Prop :=
  (∀ e ∈ a, e ≠ .begin p) ∧ ∃ m err, es = a ++ .begin p :: (m ++ .finish p (.error err) :: d) ∧
    ∀ e ∈ m, ∀ read, e ≠ .finish p read

/-- What a change is owed by the steps after it: a read in time and, if that read fails, another in
time that does not begin before a quiet window has passed. -/
structure Fresh (p : ProjectId) (es : List GitWatchEvent) : Prop where
  read : ReadInTime p es
  retry : ∀ a d, FirstReadFails p es a d → ReadInTime p d ∧
    ∀ x y, d = x ++ .begin p :: y → quietWindow ≤ Machine.cost elapsed x

/-- The first read of the project among the steps from `s`, if it fails, is not itself a retry. -/
def FreshlyRead (p : ProjectId) (s : GitWatch) (es : List GitWatchEvent) : Prop :=
  ∀ a d u, FirstReadFails p es a d → gitWatchMachine.run s a = some u → p ∉ u.retried

/-- What is owed at every step of a watched project is paid in time. -/
theorem readInTime_of_steps {es : List GitWatchEvent} {Owes : GitWatch → ℕ → Prop}
    (hle : ∀ s k, Owes s k → k ≤ maxPostpone)
    (hsteps : ∀ s e t k, s.Sound → AList.lookup p s.routes = some route → Keeps p route s e →
      s.step e = some t → e ≠ .begin p → Owes s k → Owes t (k + waited e))
    (ho : Owes s 0) (hs : s.Sound) (hroute : AList.lookup p s.routes = some route)
    (hkeeps : gitWatchMachine.Along (Keeps p route) s es)
    (hr : gitWatchMachine.run s es = some t) : ReadInTime p es := by
  have hstep : ∀ s e t k, Keeps p route s e →
      (s.Sound ∧ AList.lookup p s.routes = some route ∧ Owes s k) →
      gitWatchMachine.step s e = some t → ¬e = .begin p →
      (t.Sound ∧ AList.lookup p t.routes = some route ∧ Owes t (k + waited e)) := by
    rintro s e t k hkeeps ⟨hs, hroute, ho⟩ hstep hbegin
    exact ⟨hs.step hstep, (hkeeps.2 t hstep).2, hsteps s e t k hs hroute hkeeps hstep hbegin ho⟩
  obtain ⟨hnone, -, -, howes⟩ | ⟨a, e, b, u, rfl, rfl, hfirst, -, -, -, howes⟩ :=
    Machine.response_run hstep ⟨hs, hroute, ho⟩ hkeeps hr
  · have hcost := hle _ _ howes
    rw [Nat.zero_add] at hcost
    exact .inl ⟨hnone, hcost⟩
  · have hcost := hle _ _ howes
    rw [Nat.zero_add] at hcost
    exact .inr ⟨a, b, rfl, hfirst, hcost⟩

theorem Owed.le (h : Owed p path s k) : k ≤ maxPostpone := by
  cases h with
  | unread _ hk | lost _ hk => omega
  | pending hp => exact hp.le

theorem sound_run {es : List GitWatchEvent} (hs : s.Sound)
    (hr : gitWatchMachine.run s es = some t) : t.Sound :=
  Machine.invariant_run (fun _ _ _ hs hstep => hs.step hstep) hs hr

theorem Owed.readInTime {es : List GitWatchEvent} (ho : Owed p path s 0) (hs : s.Sound)
    (hroute : AList.lookup p s.routes = some route) (hcovers : route.covers path = true)
    (hlock : isLock path = false) (hkeeps : gitWatchMachine.Along (Keeps p route) s es)
    (hr : gitWatchMachine.run s es = some t) : ReadInTime p es := by
  apply readInTime_of_steps _ _ ho hs hroute hkeeps hr
  · exact fun _ _ h => h.le
  · intro s e t k hs hroute hkeeps hstep hbegin ho
    exact ho.step hs hroute hcovers hlock hkeeps hstep hbegin

theorem Pending.readInTime {es : List GitWatchEvent} (hp : Pending p s 0) (hs : s.Sound)
    (hroute : AList.lookup p s.routes = some route)
    (hkeeps : gitWatchMachine.Along (Keeps p route) s es)
    (hr : gitWatchMachine.run s es = some t) : ReadInTime p es := by
  apply readInTime_of_steps _ _ hp hs hroute hkeeps hr
  · exact fun _ _ h => h.le
  · intro s e t k hs hroute hkeeps hstep hbegin hp
    exact hp.step hs hroute hkeeps hstep hbegin

theorem Rested.elapsed {x : List GitWatchEvent} {u v : GitWatch} (hr : Rested p T s) (hs : s.Sound)
    (hx : gitWatchMachine.run s x = some u) (hbegin : u.step (.begin p) = some v) : T ≤ u.now := by
  have hrun := Machine.invariant_run (M := gitWatchMachine)
    (P := fun s => s.Sound ∧ Rested p T s)
    (fun _ _ _ h hstep => ⟨h.1.step hstep, h.2.step h.1 hstep⟩) ⟨hs, hr⟩ hx
  obtain hnow | ⟨hnot, -⟩ := hrun.2.rest
  · exact hnow
  · cases turn_of_step hbegin with
    | begin project rest hread hdue =>
      rw [hdue] at hnot
      exact absurd (.head _) hnot

/-- A first failure arms another read, and holds it back for a quiet window. -/
theorem rearmed (hs : s.Sound) (hread : s.reading = some p) (hretried : p ∉ s.retried)
    (err : GitError) :
    Pending p (s.finished p (.error err)) 0 ∧
      Rested p (s.now + quietWindow) (s.finished p (.error err)) := by
  have hmem : p ∈ s.reading.toList ++ s.due := by
    rw [hread]
    exact .head _
  have hnone : AList.lookup p s.debouncers = none := hs.apart p hmem
  have hnot : p ∉ s.due := by
    have hnodup := hs.nodup
    rw [hread] at hnodup
    exact (nodup_cons.mp hnodup).1
  have hburst := Debouncer.bursting_bounded quietWindow maxPostpone s.now
  have hlookup : AList.lookup p (arm s.debouncers s.now p) =
      some ((Debouncer.bounded quietWindow maxPostpone).trigger s.now) := by
    rw [lookup_arm, if_pos rfl, hnone, getD_none]
  unfold finished
  dsimp only
  rw [if_neg hretried]
  refine ⟨.armed hlookup hburst (Nat.le_of_eq (Nat.zero_add _)) (Nat.zero_le _), le_rfl, ?_⟩
  refine .inr ⟨hnot, ?_⟩
  intro d next hd hnext
  obtain rfl := some.inj (hlookup.symm.trans hd)
  rw [hburst.dueAt] at hnext
  obtain rfl := some.inj hnext
  have hwindow : quietWindow ≤ maxPostpone := by decide
  exact le_min le_rfl (Nat.add_le_add_left hwindow _)

theorem retried_in_time (hs : s.Sound) (hread : s.reading = some p) (hretried : p ∉ s.retried)
    {err : GitError} {failed : GitWatch} (hfail : s.step (.finish p (.error err)) = some failed)
    (hroute : AList.lookup p failed.routes = some route) {d : List GitWatchEvent}
    (hkeeps : gitWatchMachine.Along (Keeps p route) failed d)
    (hrun : gitWatchMachine.run failed d = some t) :
    ReadInTime p d ∧ ∀ x y, d = x ++ .begin p :: y → quietWindow ≤ Machine.cost elapsed x := by
  have hfailed : failed = s.finished p (.error err) := by
    cases turn_of_step hfail with
    | finish project read hread => rfl
  obtain ⟨hpending, hrested⟩ := rearmed hs hread hretried err
  rw [← hfailed] at hpending hrested
  have hsound := hs.step hfail
  refine ⟨hpending.readInTime hsound hroute hkeeps hrun, ?_⟩
  rintro x y rfl
  obtain ⟨u, hu, hrun⟩ := Machine.run_append.mp hrun
  obtain ⟨v, hv, -⟩ := Machine.run_cons_eq_some.mp hrun
  have hrest := hrested.elapsed hsound hu hv
  have hnow : u.now = s.now + Machine.cost elapsed x := by
    rw [now_run hu, now_step hfail]
    rfl
  rw [hnow] at hrest
  exact Nat.le_of_add_le_add_left hrest

/-- Every reported change that a routed project's status depends on, and that is no lock file, is
followed by a read of the project in time; and where that read fails, and is not itself a retry, by
another one after a quiet window. -/
theorem status_follows_change (hs : gitWatchMachine.Reachable s)
    (hroute : AList.lookup p s.routes = some route) (hdepends : route.DependsOn path)
    (hlock : isLock path = false) {reported : GitWatch}
    (hreport : s.step (.report path) = some reported) {es : List GitWatchEvent}
    (hkeeps : gitWatchMachine.Along (Keeps p route) reported es)
    (hrun : gitWatchMachine.run reported es = some t) :
    ReadInTime p es ∧ (FreshlyRead p reported es → Fresh p es) := by
  have hsound := (sound_of_reachable hs).step hreport
  have howed : Owed p path reported 0 := by
    cases hreport
    exact .unread Feed.mem_publish_self rfl
  have hrouted : AList.lookup p reported.routes = some route := by
    cases hreport
    exact hroute
  have hread := howed.readInTime hsound hrouted hdepends.1 hlock hkeeps hrun
  refine ⟨hread, fun hfreshly => ⟨hread, ?_⟩⟩
  rintro a d ⟨hfirst, m, err, rfl, hunfinished⟩
  -- the read begins at `u` and fails at `w`
  obtain ⟨u, hu, hrest⟩ := Machine.run_append.mp hrun
  obtain ⟨v, hv, hrest⟩ := Machine.run_cons_eq_some.mp hrest
  obtain ⟨w, hw, hrest⟩ := Machine.run_append.mp hrest
  obtain ⟨x, hx, hrest⟩ := Machine.run_cons_eq_some.mp hrest
  have hunretried := hfreshly a d u ⟨hfirst, m, err, rfl, hunfinished⟩ hu
  have hbegin : u.step (.begin p) = some v := hv
  have hfail : w.step (.finish p (.error err)) = some x := hx
  obtain ⟨hreading, hsame⟩ : v.reading = some p ∧ v.retried = u.retried := by
    cases turn_of_step hbegin with
    | begin project rest hread hdue => exact ⟨rfl, rfl⟩
  obtain ⟨⟨-, hlive⟩, hkeeps⟩ := hkeeps.of_append hu
  obtain ⟨hwreading, -, hwretried⟩ := reading_run hw hreading (hlive v hv).1 hunfinished
  obtain ⟨⟨-, hkept⟩, hkeeps⟩ := (hkeeps v hv).of_append hw
  have hwsound := sound_run ((sound_run hsound hu).step hbegin) hw
  have hpw : p ∉ w.retried := by
    rw [hwretried, hsame]
    exact hunretried
  exact retried_in_time hwsound hwreading hpw hfail (hkept x hx).2 (hkeeps x hx) hrest

/-- A project that is neither being read nor retried when a change is reported is not being retried
where it is next read. -/
theorem freshlyRead_of_unretried {es : List GitWatchEvent} (hread : s.reading ≠ some p)
    (hretried : p ∉ s.retried) : FreshlyRead p s es := by
  rintro a d u ⟨hfirst, -⟩ hu
  clear d es
  induction a generalizing s with
  | nil =>
    cases hu
    exact hretried
  | cons e a ih =>
    obtain ⟨v, hv, hu⟩ := Machine.run_cons_eq_some.mp hu
    obtain ⟨hread, hretried⟩ : v.reading ≠ some p ∧ p ∉ v.retried := by
      have hbegin := hfirst e (.head _)
      cases turn_of_step hv with
      | report _ | announce _ | close _ | wait _ _ _ _ | busy _ _ | change _ _ _ _ | fire _ _ _
      | skip _ _ _ _ _ => exact ⟨hread, hretried⟩
      | hear e listing bus hselecting =>
        obtain ⟨-, -, -, hreading⟩ := heard_frame { s with bus } e listing
        rw [hreading]
        refine ⟨hread, ?_⟩
        unfold heard
        split
        · rwa [(resync_frame _ _).2.2.2.2.2]
        · rwa [(resync_frame _ _).2.2.2.2.2]
        · rw [(resync_frame _ _).2.2.2.2.2]
          exact fun hmem => hretried (mem_filter.mp hmem).1
        · exact hretried
      | begin project rest hnone hdue =>
        refine ⟨?_, hretried⟩
        intro hsame
        exact hbegin (by rw [some.inj hsame])
      | finish project read hsame =>
        have hne : p ≠ project := by
          rintro rfl
          exact hread hsame
        unfold finished
        cases read with
        | ok changed => exact ⟨by simp, fun hmem => hretried (mem_filter.mp hmem).1⟩
        | error err =>
          dsimp only
          split_ifs
          · exact ⟨by simp, fun hmem => hretried (mem_filter.mp hmem).1⟩
          · refine ⟨by simp, fun hmem => ?_⟩
            exact (mem_cons.mp hmem).elim hne hretried
    exact ih hread hretried (fun e he => hfirst e (.tail _ he)) hu

def railStart : GitWatch := .start 0 16 (some [(1, [.rootDir, .normal "app"])])

def railRoute : Route := .new [.rootDir, .normal "app"]

theorem reachable_railStart : gitWatchMachine.Reachable railStart :=
  Machine.reachable_of_init ⟨0, 16, some [(1, [.rootDir, .normal "app"])], rfl⟩

def reporting (path : PathBuf) : GitWatch :=
  { railStart with changes := railStart.changes.publish fanoutCapacity path }

def mainFile : PathBuf := [.rootDir, .normal "app", .normal "main.rs"]

/-- The read after a change fails, and the project is read again. -/
def failedOnce : List GitWatchEvent :=
  [.change (some mainFile), .wait quietWindow, .fire [1], .begin 1, .busy 5,
    .finish 1 (.error .timeout), .wait quietWindow, .fire [1], .begin 1]

theorem status_follows_change_failed : Fresh 1 failedOnce := by
  have hdepends : railRoute.DependsOn mainFile := ⟨by decide, by decide⟩
  have hlock : isLock mainFile = false := by decide
  have hreport : railStart.step (.report mainFile) = some (reporting mainFile) := rfl
  have hkeeps : gitWatchMachine.Along (Keeps 1 railRoute) (reporting mainFile) failedOnce := by
    decide
  have hfreshly : FreshlyRead 1 (reporting mainFile) failedOnce :=
    freshlyRead_of_unretried (by decide) (by decide)
  obtain ⟨t, hrun⟩ : ∃ t, gitWatchMachine.run (reporting mainFile) failedOnce = some t :=
    Option.isSome_iff_exists.mp (by decide)
  exact (status_follows_change reachable_railStart rfl hdepends hlock hreport hkeeps hrun).2
    hfreshly

def cargoLock : PathBuf := [.rootDir, .normal "app", .normal "Cargo.lock"]

/-- The change is dropped, and the reactor waits for longer than a burst may be postponed. -/
def swallowed : List GitWatchEvent := [.change (some cargoLock), .wait 2000000000]

theorem lock_change_unread :
    railRoute.DependsOn cargoLock ∧ AList.lookup 1 railStart.routes = some railRoute ∧
      railStart.step (.report cargoLock) = some (reporting cargoLock) ∧
      gitWatchMachine.Along (Keeps 1 railRoute) (reporting cargoLock) swallowed ∧
      (gitWatchMachine.run (reporting cargoLock) swallowed).isSome = true ∧
      FreshlyRead 1 (reporting cargoLock) swallowed ∧ ¬Fresh 1 swallowed := by
  refine ⟨⟨by decide, by decide⟩, rfl, rfl, by decide, by decide,
    freshlyRead_of_unretried (by decide) (by decide), ?_⟩
  intro h
  obtain ⟨-, hcost⟩ | ⟨a, b, hsplit, -⟩ := h.read
  · exact absurd hcost (by decide)
  · have hmem : GitWatchEvent.begin 1 ∈ swallowed := by
      rw [hsplit]
      exact List.mem_append_right _ (.head _)
    simp [swallowed] at hmem

end GitWatch
end Soloist
