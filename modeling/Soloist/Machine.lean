import Mathlib.Data.List.Induction
import Mathlib.Data.Option.Basic

/-! Loops over a list that carry a state: what every turn keeps, and what one element's own turn
establishes and the others keep. -/

open List

namespace Loop
variable {σ α : Type*} {f : σ → α → σ} {G : σ → α → Prop} {I P : σ → Prop}

/-- Every turn meets `G`, read in the state before the turn. -/
def Along (f : σ → α → σ) (G : σ → α → Prop) : σ → List α → Prop
  | _, [] => True
  | s, a :: rest => G s a ∧ Along f G (f s a) rest

instance decidableAlong (f : σ → α → σ) (G : σ → α → Prop) [∀ s a, Decidable (G s a)] :
    ∀ s xs, Decidable (Along f G s xs)
  | _, [] => isTrue trivial
  | s, a :: rest =>
    have := decidableAlong f G (f s a) rest
    inferInstanceAs (Decidable (G s a ∧ Along f G (f s a) rest))

variable {s : σ} {xs : List α}

/-- What one turn keeps, the loop keeps. -/
theorem invariant (hstep : ∀ s, ∀ a ∈ xs, I s → I (f s a)) (hs : I s) : I (xs.foldl f s) := by
  induction xs generalizing s with
  | nil => exact hs
  | cons a rest ih =>
    rw [foldl_cons]
    exact ih (fun s b hb => hstep s b (.tail _ hb)) (hstep s a (.head _) hs)

theorem invariant_along (hstep : ∀ s, ∀ a ∈ xs, G s a → I s → I (f s a)) (hG : Along f G s xs)
    (hs : I s) : I (xs.foldl f s) := by
  induction xs generalizing s with
  | nil => exact hs
  | cons a rest ih =>
    rw [foldl_cons]
    exact ih (fun s b hb => hstep s b (.tail _ hb)) hG.2
      (hstep s a (.head _) hG.1 hs)

/-- What an element's turn establishes and every turn keeps holds after the loop. -/
theorem reached {a : α} (hturn : ∀ s, G s a → P (f s a)) (hkeep : ∀ s b, P s → P (f s b))
    (ha : a ∈ xs) (hG : Along f G s xs) : P (xs.foldl f s) := by
  induction xs generalizing s with
  | nil => cases ha
  | cons b rest ih =>
    rw [foldl_cons]
    obtain rfl | ha := mem_cons.mp ha
    · exact invariant (fun s b _ hs => hkeep s b hs) (hturn s hG.1)
    · exact ih ha hG.2

/-- What an element's turn establishes holds after the loop, when no turn of another element undoes
it. -/
theorem reached_along {a : α} (hkeep : ∀ s, ∀ b ∈ xs, G s b → I s → I (f s b))
    (hturn : ∀ s, G s a → I s → P (f s a))
    (hstay : ∀ s, ∀ b ∈ xs, b ≠ a → G s b → I s → P s → P (f s b)) (ha : a ∈ xs) (hnodup : xs.Nodup)
    (hG : Along f G s xs) (hs : I s) : P (xs.foldl f s) := by
  induction xs generalizing s with
  | nil => cases ha
  | cons b rest ih =>
    obtain ⟨hfirst, hrest⟩ := hG
    obtain ⟨hnotin, hnodup⟩ := nodup_cons.mp hnodup
    have hI := hkeep s b (.head _) hfirst hs
    rw [foldl_cons]
    obtain rfl | ha := mem_cons.mp ha
    · have hpair : I (f s a) ∧ P (f s a) := ⟨hI, hturn s hfirst hs⟩
      have hall : I (rest.foldl f (f s a)) ∧ P (rest.foldl f (f s a)) := by
        refine invariant_along (I := fun s => I s ∧ P s) (fun s b hb hg hs => ?_) hrest hpair
        have hne : b ≠ a := by
          rintro rfl
          exact hnotin hb
        exact ⟨hkeep s b (.tail _ hb) hg hs.1,
          hstay s b (.tail _ hb) hne hg hs.1 hs.2⟩
      exact hall.2
    · exact ih (fun s c hc => hkeep s c (.tail _ hc))
        (fun s c hc => hstay s c (.tail _ hc)) ha hnodup hrest hI

end Loop

/-! Guarded executable transition systems. A step is enabled when it returns a state; runs replay
a list of events, and the rules below lift a fact about one step to every run. -/

/-- Initial states and a guarded step function. -/
structure Machine (σ ε : Type*) where
  init : σ → Prop
  step : σ → ε → Option σ

namespace Machine
variable {σ ε : Type*} (M : Machine σ ε)

/-- Replay events from a state; `none` when one of them is disabled. -/
def run : σ → List ε → Option σ
  | s, [] => some s
  | s, e :: es => (M.step s e).bind fun t => run t es

/-- Every step of the replay satisfies `G`, read in the state before the step. -/
def Along (G : σ → ε → Prop) : σ → List ε → Prop
  | _, [] => True
  | s, e :: es => G s e ∧ ∀ t ∈ M.step s e, Along G t es

/-- Every state of the replay satisfies `P`. -/
def Throughout (P : σ → Prop) (s : σ) (es : List ε) : Prop :=
  P s ∧ M.Along (fun s e => ∀ t, M.step s e = some t → P t) s es

def Reachable (s : σ) : Prop := ∃ s₀ es, M.init s₀ ∧ M.run s₀ es = some s

/-- Reachable through steps that all satisfy `G`. -/
def ReachableUnder (G : σ → ε → Prop) (s : σ) : Prop :=
  ∃ s₀ es, M.init s₀ ∧ M.Along G s₀ es ∧ M.run s₀ es = some s

@[simp] theorem run_nil (s : σ) : M.run s [] = some s := rfl

theorem run_cons (s : σ) (e : ε) (es : List ε) :
    M.run s (e :: es) = (M.step s e).bind fun t => M.run t es := rfl

variable {M}

variable {s u : σ} {e : ε} {es : List ε}

theorem run_cons_eq_some :
    M.run s (e :: es) = some u ↔ ∃ t, M.step s e = some t ∧ M.run t es = some u := by
  rw [run_cons, Option.bind_eq_some_iff]

variable {fs : List ε}

theorem run_append :
    M.run s (es ++ fs) = some u ↔ ∃ t, M.run s es = some t ∧ M.run t fs = some u := by
  induction es generalizing s with
  | nil => simp
  | cons e es ih =>
    simp only [cons_append, run_cons_eq_some, ih]
    constructor
    · rintro ⟨t, ht, v, hv, hu⟩
      exact ⟨v, ⟨t, ht, hv⟩, hu⟩
    · rintro ⟨v, ⟨t, ht, hv⟩, hu⟩
      exact ⟨t, ht, v, hv, hu⟩

@[simp] theorem along_nil (G : σ → ε → Prop) (s : σ) : M.Along G s [] := trivial

variable {G : σ → ε → Prop} {t : σ}

theorem along_append (hes : M.Along G s es) (ht : M.run s es = some t) (hfs : M.Along G t fs) :
    M.Along G s (es ++ fs) := by
  induction es generalizing s with
  | nil =>
    cases ht
    exact hfs
  | cons e es ih =>
    refine ⟨hes.1, fun u hu => ih (hes.2 u hu) ?_⟩
    obtain ⟨v, hv, hrun⟩ := run_cons_eq_some.mp ht
    cases hu.symm.trans hv
    exact hrun

theorem Along.of_append (h : M.Along G s (es ++ fs)) (ht : M.run s es = some t) :
    M.Along G t fs := by
  induction es generalizing s with
  | nil =>
    cases ht
    exact h
  | cons e es ih =>
    obtain ⟨u, hu, hrun⟩ := run_cons_eq_some.mp ht
    exact ih (h.2 u hu) hrun

theorem Along.left (h : M.Along G s (es ++ fs)) : M.Along G s es := by
  induction es generalizing s with
  | nil => exact along_nil G s
  | cons e es ih => exact ⟨h.1, fun t ht => ih (h.2 t ht)⟩

instance decidableAlong (G : σ → ε → Prop) [∀ s e, Decidable (G s e)] :
    ∀ s es, Decidable (M.Along G s es)
  | _, [] => isTrue trivial
  | s, e :: es =>
    have : DecidablePred fun t => M.Along G t es := fun t => decidableAlong G t es
    inferInstanceAs (Decidable (G s e ∧ ∀ t ∈ M.step s e, M.Along G t es))

theorem along_of_forall (h : ∀ s e, G s e) (s : σ) (es : List ε) : M.Along G s es := by
  induction es generalizing s with
  | nil => exact along_nil G s
  | cons e es ih => exact ⟨h s e, fun t _ => ih t⟩

variable {H : σ → ε → Prop}

theorem Along.mono (hGH : ∀ s e, G s e → H s e) (h : M.Along G s es) : M.Along H s es := by
  induction es generalizing s with
  | nil => exact along_nil H s
  | cons e es ih => exact ⟨hGH s e h.1, fun t ht => ih (h.2 t ht)⟩

theorem Along.and (hG : M.Along G s es) (hH : M.Along H s es) :
    M.Along (fun s e => G s e ∧ H s e) s es := by
  induction es generalizing s with
  | nil => exact along_nil _ s
  | cons e es ih => exact ⟨⟨hG.1, hH.1⟩, fun t ht => ih (hG.2 t ht) (hH.2 t ht)⟩

variable {P : σ → Prop}

/-- The rule for a run: what one guarded step preserves, a guarded run preserves. -/
theorem invariant_along (hstep : ∀ s e t, G s e → P s → M.step s e = some t → P t) (hs : P s)
    (hG : M.Along G s es) (hr : M.run s es = some t) : P t := by
  induction es generalizing s with
  | nil => exact Option.some.inj hr ▸ hs
  | cons e es ih =>
    obtain ⟨u, hu, hr⟩ := run_cons_eq_some.mp hr
    exact ih (hstep s e u hG.1 hs hu) (hG.2 u hu) hr

theorem invariant_run (hstep : ∀ s e t, P s → M.step s e = some t → P t) (hs : P s)
    (hr : M.run s es = some t) : P t :=
  invariant_along (G := fun _ _ => True) (fun s e t _ => hstep s e t) hs
    (along_of_forall (fun _ _ => trivial) s es) hr

theorem Throughout.run (h : M.Throughout P s es) (hr : M.run s es = some t) : P t :=
  invariant_along (fun _ _ _ hkeeps _ hst => hkeeps _ hst) h.1 h.2 hr

/-- A fact about each step that follows from an invariant holds along every guarded run. -/
theorem along_of_invariant {Q : σ → ε → Prop}
    (hstep : ∀ s e t, G s e → P s → M.step s e = some t → P t) (hQ : ∀ s e, G s e → P s → Q s e)
    (hs : P s) (hG : M.Along G s es) : M.Along Q s es := by
  induction es generalizing s with
  | nil => exact along_nil Q s
  | cons e es ih =>
    exact ⟨hQ s e hG.1 hs, fun t ht => ih (hstep s e t hG.1 hs ht) (hG.2 t ht)⟩

variable {I : σ → Prop}

/-- A property that a step keeps exactly when the step meets `G` holds throughout exactly the runs
along which `G` holds. -/
theorem throughout_iff_along (hI : ∀ s e t, I s → M.step s e = some t → I t)
    (hstep : ∀ s e, I s → P s → ((∀ t, M.step s e = some t → P t) ↔ G s e)) (hs : I s) (hP : P s) :
    M.Throughout P s es ↔ M.Along G s es := by
  induction es generalizing s with
  | nil => exact ⟨fun _ => along_nil G s, fun _ => ⟨hP, along_nil _ s⟩⟩
  | cons e es ih =>
    constructor
    · intro h
      refine ⟨(hstep s e hs hP).mp h.2.1, fun t ht => ?_⟩
      exact (ih (hI s e t hs ht) (h.2.1 t ht)).mp ⟨h.2.1 t ht, h.2.2 t ht⟩
    · intro h
      have hnext := (hstep s e hs hP).mpr h.1
      exact ⟨hP, hnext, fun t ht => ((ih (hI s e t hs ht) (hnext t ht)).mpr (h.2 t ht)).2⟩

/-- In some state of a replay `P` held, and every event since then satisfies `Q`. -/
def Since (M : Machine σ ε) (Q : ε → Prop) (P : σ → Prop) (s : σ) (es : List ε) : Prop :=
  ∃ first next u, es = first ++ next ∧ M.run s first = some u ∧ P u ∧ ∀ e ∈ next, Q e

/-- In some state of a replay `P` held. -/
def Earlier (M : Machine σ ε) (P : σ → Prop) (s : σ) (es : List ε) : Prop :=
  M.Since (fun _ => True) P s es

variable {Q : ε → Prop}

theorem since_now (hu : M.run s es = some u) (hP : P u) : M.Since Q P s es :=
  ⟨es, [], u, (append_nil es).symm, hu, hP, fun _ he => absurd he not_mem_nil⟩

theorem Since.snoc (h : M.Since Q P s es) (he : Q e) : M.Since Q P s (es ++ [e]) := by
  obtain ⟨first, next, u, hes, hu, hP, hnext⟩ := h
  refine ⟨first, next ++ [e], u, ?_, hu, hP, fun f hf => ?_⟩
  · rw [hes, append_assoc]
  · rcases mem_append.mp hf with hf | hf
    · exact hnext f hf
    · cases mem_singleton.mp hf
      exact he

theorem Since.mono {R : ε → Prop} {T : σ → Prop} (h : M.Since Q P s es) (hQ : ∀ e, Q e → R e)
    (hP : ∀ u, P u → T u) : M.Since R T s es := by
  obtain ⟨first, next, u, hes, hu, hPu, hnext⟩ := h
  exact ⟨first, next, u, hes, hu, hP u hPu, fun e he => hQ e (hnext e he)⟩

theorem Earlier.snoc (h : M.Earlier P s es) (e : ε) :
    M.Earlier P s (es ++ [e]) := Since.snoc h trivial

/-- The rule for a run and what lies behind it: an invariant of the state and of the events that led
there. -/
theorem invariant_history {I : List ε → σ → Prop} (hs : I [] s)
    (hstep : ∀ es t e u, M.run s es = some t → I es t → M.step t e = some u → I (es ++ [e]) u)
    (hr : M.run s es = some t) : I es t := by
  induction es using List.reverseRecOn generalizing t with
  | nil => exact Option.some.inj hr ▸ hs
  | append_singleton es e ih =>
    obtain ⟨v, hv, hlast⟩ := run_append.mp hr
    obtain ⟨w, hw, hnil⟩ := run_cons_eq_some.mp hlast
    obtain rfl := Option.some.inj hnil
    exact hstep es v e w hv (ih hv) hw

theorem invariant_history_along {I : List ε → σ → Prop} (hs : I [] s)
    (hstep : ∀ es t e u, M.run s es = some t → G t e → I es t → M.step t e = some u →
      I (es ++ [e]) u)
    (hG : M.Along G s es) (hr : M.run s es = some t) : I es t := by
  have hguarded : M.Along G s es → I es t := by
    refine invariant_history (I := fun es t => M.Along G s es → I es t) (fun _ => hs) ?_ hr
    intro es t e u ht ih hu halong
    exact hstep es t e u ht (halong.of_append ht).1 (ih halong.left) hu
  exact hguarded hG

/-- Whatever holds of a later state and an earlier one of the replay. -/
def Lasting (M : Machine σ ε) (R : σ → σ → Prop) (s : σ) (es : List ε) : Prop :=
  ∀ first next t u, first ++ next <+: es → M.run s first = some t → M.run t next = some u → R t u

/-- A relation that composes holds between all earlier and later states of exactly the runs whose
every step keeps it. -/
theorem lasting_iff_along {R : σ → σ → Prop} (hI : ∀ s e t, I s → M.step s e = some t → I t)
    (hrefl : ∀ s, R s s)
    (htrans : ∀ s e t es u, I s → M.step s e = some t → M.run t es = some u → R s t → R t u → R s u)
    (hstep : ∀ s e, I s → ((∀ t, M.step s e = some t → R s t) ↔ G s e)) (hs : I s) :
    M.Lasting R s es ↔ M.Along G s es := by
  induction es generalizing s with
  | nil =>
    refine ⟨fun _ => along_nil G s, fun _ => ?_⟩
    intro first next t u hsplit ht hu
    obtain ⟨rfl, rfl⟩ := append_eq_nil_iff.mp (prefix_nil.mp hsplit)
    cases ht
    cases hu
    exact hrefl s
  | cons e es ih =>
    constructor
    · intro h
      refine ⟨(hstep s e hs).mp fun t ht => ?_, fun t ht => (ih (hI s e t hs ht)).mp ?_⟩
      · exact h [] [e] s t ⟨es, rfl⟩ rfl (run_cons_eq_some.mpr ⟨t, ht, rfl⟩)
      · intro first next t' u hsplit ht' hu
        refine h (e :: first) next t' u ?_ (run_cons_eq_some.mpr ⟨t, ht, ht'⟩) hu
        exact cons_prefix_cons.mpr ⟨rfl, hsplit⟩
    · intro h first next t u hsplit ht hu
      cases first with
      | cons e' first =>
        obtain ⟨rfl, hrest⟩ := cons_prefix_cons.mp hsplit
        obtain ⟨v, hv, ht⟩ := run_cons_eq_some.mp ht
        exact (ih (hI s e' v hs hv)).mpr (h.2 v hv) first next t u hrest ht hu
      | nil =>
        cases ht
        cases next with
        | nil =>
          cases hu
          exact hrefl s
        | cons e' next =>
          obtain ⟨rfl, hrest⟩ := cons_prefix_cons.mp hsplit
          obtain ⟨v, hv, hu⟩ := run_cons_eq_some.mp hu
          have hlasting := (ih (hI s e' v hs hv)).mpr (h.2 v hv)
          exact htrans s e' v next u hs hv hu ((hstep s e' hs).mpr h.1 v hv)
            (hlasting [] next v u hrest rfl hu)

def trace {α : Type*} (M : Machine σ ε) (emit : σ → ε → Option α) : σ → List ε → List α
  | _, [] => []
  | s, e :: es => (emit s e).toList ++ (M.step s e).elim [] fun t => trace M emit t es

/-- The rule for what a run emits: an invariant of the state and of everything emitted so far. -/
theorem invariant_trace {α : Type*} {emit : σ → ε → Option α} {I : σ → List α → Prop}
    (hstep : ∀ s log e t, G s e → I s log → M.step s e = some t → I t (log ++ (emit s e).toList))
    {log : List α} (hs : I s log) (hG : M.Along G s es) (hr : M.run s es = some t) :
    I t (log ++ M.trace emit s es) := by
  induction es generalizing s log with
  | nil =>
    cases hr
    rw [trace, append_nil]
    exact hs
  | cons e es ih =>
    obtain ⟨u, hu, hr⟩ := run_cons_eq_some.mp hr
    have hnext := ih (hstep s log e u hG.1 hs hu) (hG.2 u hu) hr
    rw [trace, hu, Option.elim_some, ← append_assoc]
    exact hnext

theorem reachable_of_init (h : M.init s) : M.Reachable s := ⟨s, [], h, rfl⟩

variable {s₀ : σ}

/-- A run whose last state is checked. -/
theorem exists_reachable_of_run (h0 : M.init s₀) (es : List ε) (P : σ → Prop) [DecidablePred P]
    (h : (M.run s₀ es).any (fun s => P s) = true) : ∃ s, M.Reachable s ∧ P s := by
  obtain ⟨s, hs, hP⟩ := Option.any_eq_true _ _ |>.mp h
  exact ⟨s, ⟨s₀, es, h0, hs⟩, of_decide_eq_true hP⟩

theorem exists_reachableUnder_of_run (h0 : M.init s₀) (es : List ε) (hG : M.Along G s₀ es)
    (P : σ → Prop) [DecidablePred P] (h : (M.run s₀ es).any (fun s => P s) = true) :
    ∃ s, M.ReachableUnder G s ∧ P s := by
  obtain ⟨s, hs, hP⟩ := Option.any_eq_true _ _ |>.mp h
  exact ⟨s, ⟨s₀, es, h0, hG, hs⟩, of_decide_eq_true hP⟩

theorem Reachable.run (h : M.Reachable s) (hr : M.run s es = some t) : M.Reachable t := by
  obtain ⟨s₀, fs, h0, hs⟩ := h
  exact ⟨s₀, fs ++ es, h0, run_append.mpr ⟨s, hs, hr⟩⟩

theorem Reachable.step (h : M.Reachable s) (hs : M.step s e = some t) : M.Reachable t := by
  have hr : M.run s [e] = some t := run_cons_eq_some.mpr ⟨t, hs, rfl⟩
  exact h.run hr

theorem Reachable.invariant (hinit : ∀ s, M.init s → P s)
    (hstep : ∀ s e t, P s → M.step s e = some t → P t) (h : M.Reachable s) : P s := by
  obtain ⟨s₀, es, h0, hr⟩ := h
  exact invariant_run hstep (hinit s₀ h0) hr

theorem Reachable.map {τ δ : Type*} {N : Machine τ δ} {f : σ → τ}
    (hinit : ∀ s, M.init s → N.init (f s))
    (hstep : ∀ s e t, M.step s e = some t → f t = f s ∨ ∃ a, N.step (f s) a = some (f t))
    (h : M.Reachable s) : N.Reachable (f s) := by
  refine h.invariant (P := fun s => N.Reachable (f s)) ?_ ?_
  · intro s hs
    exact reachable_of_init (hinit s hs)
  · intro s e t hs ht
    rcases hstep s e t ht with hsame | ⟨a, ha⟩
    · rw [hsame]
      exact hs
    · exact hs.step ha

theorem ReachableUnder.reachable (h : M.ReachableUnder G s) : M.Reachable s := by
  obtain ⟨s₀, es, h0, -, hr⟩ := h
  exact ⟨s₀, es, h0, hr⟩

theorem ReachableUnder.run (h : M.ReachableUnder G s) (hG : M.Along G s es)
    (hr : M.run s es = some t) : M.ReachableUnder G t := by
  obtain ⟨s₀, fs, h0, hfs, hs⟩ := h
  exact ⟨s₀, fs ++ es, h0, along_append hfs hs hG, run_append.mpr ⟨s, hs, hr⟩⟩

theorem ReachableUnder.mono (hGH : ∀ s e, G s e → H s e) (h : M.ReachableUnder G s) :
    M.ReachableUnder H s := by
  obtain ⟨s₀, es, h0, hG, hr⟩ := h
  exact ⟨s₀, es, h0, hG.mono hGH, hr⟩

/-- Invariants of the guarded steps hold in every state reached under the guard. -/
theorem ReachableUnder.invariant (hinit : ∀ s, M.init s → P s)
    (hstep : ∀ s e t, G s e → P s → M.step s e = some t → P t) (h : M.ReachableUnder G s) :
    P s := by
  obtain ⟨s₀, es, h0, hG, hr⟩ := h
  exact invariant_along hstep (hinit s₀ h0) hG hr

end Machine

/-! Bounded response over runs. Steps have a cost; what is owed keeps an account of the cost so far
until a step answers it, so that a run longer than the account allows holds an answer. -/
namespace Machine
variable {σ ε : Type*} {M : Machine σ ε}

def cost (c : ε → ℕ) : List ε → ℕ
  | [] => 0
  | e :: es => c e + cost c es

@[simp] theorem cost_nil (c : ε → ℕ) : cost c [] = 0 := rfl

@[simp] theorem cost_cons (c : ε → ℕ) (e : ε) (es : List ε) : cost c (e :: es) = c e + cost c es :=
  rfl

/-- Along a run nothing answers, and the account grows by the cost of the run; or some step is the
first to answer, and the account is what it was before it. -/
theorem response_run {G : σ → ε → Prop} {Owed : σ → ℕ → Prop} {Answer : ε → Prop} {c : ε → ℕ}
    [DecidablePred Answer]
    (hstep : ∀ s e t k, G s e → Owed s k → M.step s e = some t → ¬Answer e → Owed t (k + c e))
    {s t : σ} {es : List ε} {k : ℕ} (hs : Owed s k) (hG : M.Along G s es)
    (hr : M.run s es = some t) :
    (∀ e ∈ es, ¬Answer e) ∧ Owed t (k + cost c es) ∨
      ∃ a e b u, es = a ++ e :: b ∧ Answer e ∧ (∀ e ∈ a, ¬Answer e) ∧ M.run s a = some u ∧
        Owed u (k + cost c a) := by
  induction es generalizing s k with
  | nil =>
    cases hr
    exact .inl ⟨by simp, hs⟩
  | cons e es ih =>
    by_cases hanswer : Answer e
    · exact .inr ⟨[], e, es, s, rfl, hanswer, by simp, rfl, hs⟩
    · obtain ⟨u, hu, hr⟩ := run_cons_eq_some.mp hr
      have hnext := hstep s e u k hG.1 hs hu hanswer
      obtain ⟨hnone, howed⟩ | ⟨a, e', b, v, rfl, he', hfirst, hv, howed⟩ := ih hnext (hG.2 u hu) hr
      · refine .inl ⟨?_, by rwa [cost_cons, ← Nat.add_assoc]⟩
        intro e' he'
        obtain rfl | he' := mem_cons.mp he'
        · exact hanswer
        · exact hnone e' he'
      · refine .inr ⟨e :: a, e', b, v, rfl, he', ?_, run_cons_eq_some.mpr ⟨u, hu, hv⟩,
          by rwa [cost_cons, ← Nat.add_assoc]⟩
        intro e'' he''
        obtain rfl | he'' := mem_cons.mp he''
        · exact hanswer
        · exact hfirst e'' he''

end Machine
