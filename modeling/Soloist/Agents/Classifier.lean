import Soloist.Mailbox.Calls
import Soloist.Terminal.Scrollback

/-! What an agent is doing, as its terminal shows it: one idle rule for each provider, and the
classifier that carries a rule's memory from sample to sample. -/
open List Option

namespace Soloist

inductive AgentKind
  | claude
  | codex
  | amp
  | gemini
  | openCode
  | copilot
  | kimi
  | generic
  deriving DecidableEq, Repr

def idleAfterQuietSamples : ℕ := 3

def thinkingCues : List String := ["thinking", "reasoning", "planning"]

def workingCues : List String := ["working", "running", "executing", "generating", "editing"]

def errorCues : List String := ["error", "failed", "failure"]

def scanLines : ℕ := 3

/-- The strong cues that a CLI asks the user to approve or answer. -/
def promptCues : List String :=
  ["(y/n)", "[y/n]", "(yes/no)", "do you want to proceed", "do you want to continue",
    "do you want to allow", "allow this action", "grant access", "approve this"]

def containsCue (cues : List String) (text : String) : Bool :=
  let lower := text.toList.map Char.toLower
  cues.any fun cue => cue.toList <:+: lower

/-- Whether one of the last non-empty lines asks the user something. -/
def looksLikePermissionPrompt (tail : List String) : Bool :=
  ((tail.reverse.filter fun line => !isBlank line).take scanLines).any (containsCue promptCues)

/-- The rolling state a rule carries between samples. -/
structure AgentMemory where
  lastOutputSeq : ℕ
  lastTitle : Option String
  /-- The samples without a change in a row, in a saturating `u32`. -/
  quietSamples : ℕ
  deriving DecidableEq, Repr

namespace AgentMemory

def default : AgentMemory := ⟨0, none, 0⟩

def noteQuiet (m : AgentMemory) : AgentMemory × Bool :=
  let quiet := min (m.quietSamples + 1) (2 ^ 32 - 1)
  ({ m with quietSamples := quiet }, idleAfterQuietSamples ≤ quiet)

def settle (m : AgentMemory) (current : AgentActivity) : AgentMemory × AgentActivity :=
  let (m, idle) := m.noteQuiet
  (m, if idle then .idle else current)

end AgentMemory

inductive IdleStrategy
  | outputDelta
  | titleStability
  | titleStatus
  deriving DecidableEq, Repr

def strategyFor : AgentKind → IdleStrategy
  | .claude | .openCode | .copilot | .kimi | .generic => .outputDelta
  | .codex | .amp => .titleStability
  | .gemini => .titleStatus

def titleKeyword (title : String) : Option AgentActivity :=
  if containsCue errorCues title then some .error
  else if containsCue thinkingCues title then some .thinking
  else if containsCue workingCues title then some .working
  else none

namespace IdleStrategy

def hasEvidence (signals : TerminalActivity) : IdleStrategy → Bool
  | .outputDelta => 0 < signals.outputSeq
  | .titleStability | .titleStatus => signals.title.isSome

def classify (m : AgentMemory) (signals : TerminalActivity) (current : AgentActivity) :
    IdleStrategy → AgentMemory × AgentActivity
  | .outputDelta =>
    let produced := signals.outputSeq ≠ m.lastOutputSeq
    let m := { m with lastOutputSeq := signals.outputSeq }
    if produced then ({ m with quietSamples := 0 }, .working)
    else if looksLikePermissionPrompt signals.tail then
      ({ m with quietSamples := 0 }, .permission)
    else m.settle current
  | .titleStability =>
    let changed := signals.title ≠ m.lastTitle
    let m := { m with lastTitle := signals.title }
    if changed then ({ m with quietSamples := 0 }, .working) else m.settle current
  | .titleStatus =>
    let changed := signals.title ≠ m.lastTitle
    let m := { m with lastTitle := signals.title }
    match signals.title.bind titleKeyword with
    | some activity => ({ m with quietSamples := 0 }, activity)
    | none => if changed then ({ m with quietSamples := 0 }, .working) else m.settle current

end IdleStrategy

structure Classifier where
  strategy : IdleStrategy
  memory : AgentMemory
  current : Option AgentActivity
  deriving DecidableEq, Repr

namespace Classifier

def new (kind : AgentKind) : Classifier := ⟨strategyFor kind, .default, none⟩

/-- Feeds one sample; answers with the edge to emit when the classification changed. -/
def observe (c : Classifier) (signals : TerminalActivity) : Classifier × Option AgentActivity :=
  if c.current = none ∧ c.strategy.hasEvidence signals = false then (c, none)
  else
    let (memory, next) := c.strategy.classify c.memory signals (c.current.getD .working)
    if c.current = some next then ({ c with memory }, none)
    else ({ c with memory, current := some next }, some next)

def reset (c : Classifier) : Classifier := { c with memory := .default, current := none }

variable {c : Classifier} {signals : TerminalActivity}

@[simp] theorem strategy_observe : (c.observe signals).1.strategy = c.strategy := by
  unfold observe
  split_ifs
  · rfl
  · dsimp only
    split_ifs <;> rfl

/-- A classifier that reads an activity had one or was shown its evidence. -/
theorem current_observe (h : (c.observe signals).1.current ≠ none) :
    c.current ≠ none ∨ c.strategy.hasEvidence signals = true := by
  unfold observe at h
  split_ifs at h with hnone
  · exact absurd hnone.1 h
  · rw [not_and_or, Bool.not_eq_false] at hnone
    exact hnone

/-- Evidence shown to a classifier makes it read some activity. -/
theorem current_observe_of_evidence (h : c.strategy.hasEvidence signals = true) :
    (c.observe signals).1.current ≠ none := by
  unfold observe
  rw [if_neg (by simp [h])]
  dsimp only
  split_ifs with hsame
  · rw [hsame]
    simp
  · simp

end Classifier

end Soloist

/-! What the samples since a reset let a classifier read: idle needs a row of quiet samples, output
reads as working, and a prompt reads as permission for as long as it stays. -/
namespace Soloist

def TerminalActivity.blank : TerminalActivity := ⟨0, none, []⟩

namespace IdleStrategy
variable {st : IdleStrategy} {m : AgentMemory} {prev s : TerminalActivity}
variable {current : AgentActivity}

/-- The watched signal differs from the sample before. -/
def Changes (prev s : TerminalActivity) : IdleStrategy → Prop
  | .outputDelta => s.outputSeq ≠ prev.outputSeq
  | .titleStability | .titleStatus => s.title ≠ prev.title

/-- The memory holds what the rule watches in the sample. -/
def Watches (m : AgentMemory) (s : TerminalActivity) : IdleStrategy → Prop
  | .outputDelta => m.lastOutputSeq = s.outputSeq
  | .titleStability | .titleStatus => m.lastTitle = s.title

/-- No change, and nothing on the screen that the rule reads as anything but quiet. -/
structure Quiet (st : IdleStrategy) (prev s : TerminalActivity) : Prop where
  unchanged : ¬st.Changes prev s
  unprompted : st = .outputDelta → looksLikePermissionPrompt s.tail = false
  unspoken : st = .titleStatus → s.title.bind titleKeyword = none

def QuietFor (st : IdleStrategy) : ℕ → List TerminalActivity → Prop
  | 0, _ => True
  | n + 1, samples =>
    ∃ before s, samples = before ++ [s] ∧ st.Quiet (before.getLastD .blank) s ∧ st.QuietFor n before

theorem QuietFor.mono {samples : List TerminalActivity} {n k : ℕ} (h : st.QuietFor n samples)
    (hk : k ≤ n) : st.QuietFor k samples := by
  induction k generalizing n samples with
  | zero => trivial
  | succ k ih =>
    cases n with
    | zero => omega
    | succ n =>
      obtain ⟨before, s, hsamples, hquiet, hrest⟩ := h
      exact ⟨before, s, hsamples, hquiet, ih hrest (by omega)⟩

theorem titleKeyword_ne_idle {title : String} {a : AgentActivity}
    (h : titleKeyword title = some a) : a ≠ .idle := by
  unfold titleKeyword at h
  split_ifs at h <;> (cases h; decide)

/-- A sample either breaks the quiet, and does not read as idle, or extends it. -/
inductive Read (st : IdleStrategy) (m : AgentMemory) (prev s : TerminalActivity)
    (current : AgentActivity) (m' : AgentMemory) (next : AgentActivity) : Prop
  | broken (hquiet : m'.quietSamples = 0) (hnext : next ≠ .idle)
  | extended (hquiet : st.Quiet prev s)
    (hsamples : m'.quietSamples = min (m.quietSamples + 1) (2 ^ 32 - 1))
    (hnext : next = if idleAfterQuietSamples ≤ m'.quietSamples then .idle else current)

theorem settle_read {m₁ : AgentMemory} (hquiet : st.Quiet prev s)
    (hm : m₁.quietSamples = m.quietSamples) :
    st.Read m prev s current (m₁.settle current).1 (m₁.settle current).2 := by
  refine .extended hquiet ?_ ?_
  · rw [← hm]
    rfl
  · simp [AgentMemory.settle, AgentMemory.noteQuiet]

theorem classify_read (hm : st.Watches m prev) :
    st.Read m prev s current (st.classify m s current).1 (st.classify m s current).2 := by
  cases st with
  | outputDelta =>
    have hm : m.lastOutputSeq = prev.outputSeq := hm
    simp only [classify, ne_eq, ite_not]
    split_ifs with hsame hprompt
    · exact .broken rfl AgentActivity.noConfusion
    · refine settle_read ⟨?_, fun _ => Bool.eq_false_iff.mpr hprompt, IdleStrategy.noConfusion⟩ rfl
      exact not_not.mpr (hsame.trans hm)
    · exact .broken rfl AgentActivity.noConfusion
  | titleStability =>
    have hm : m.lastTitle = prev.title := hm
    simp only [classify, ne_eq, ite_not]
    split_ifs with hsame
    · refine settle_read ⟨?_, IdleStrategy.noConfusion, IdleStrategy.noConfusion⟩ rfl
      exact not_not.mpr (hsame.trans hm)
    · exact .broken rfl AgentActivity.noConfusion
  | titleStatus =>
    have hm : m.lastTitle = prev.title := hm
    simp only [classify, ne_eq, ite_not]
    cases hkeyword : s.title.bind titleKeyword with
    | some activity =>
      obtain ⟨title, _, htitle⟩ := bind_eq_some_iff.mp hkeyword
      exact .broken rfl (titleKeyword_ne_idle htitle)
    | none =>
      dsimp only
      split_ifs with hsame
      · refine settle_read ⟨?_, IdleStrategy.noConfusion, fun _ => hkeyword⟩ rfl
        exact not_not.mpr (hsame.trans hm)
      · exact .broken rfl AgentActivity.noConfusion

theorem watches_classify : st.Watches (st.classify m s current).1 s := by
  cases st with
  | outputDelta =>
    simp only [classify]
    split_ifs <;> rfl
  | titleStability =>
    simp only [classify]
    split_ifs <;> rfl
  | titleStatus =>
    simp only [classify]
    cases s.title.bind titleKeyword with
    | some activity => rfl
    | none =>
      dsimp only
      split_ifs <;> rfl

theorem watches_of_hasEvidence (h : st.hasEvidence s = false) : st.Watches .default s := by
  cases st with
  | outputDelta => exact (Nat.eq_zero_of_not_pos (of_decide_eq_false h)).symm
  | titleStability => exact (not_isSome_iff_eq_none.mp (Bool.eq_false_iff.mp h)).symm
  | titleStatus => exact (not_isSome_iff_eq_none.mp (Bool.eq_false_iff.mp h)).symm

end IdleStrategy

namespace Classifier
variable {c : Classifier} {s : TerminalActivity} {samples : List TerminalActivity}
variable {emitted : List AgentActivity}

/-- What the classifier makes of a sample: nothing until it is shown some evidence. -/
def reading (c : Classifier) (signals : TerminalActivity) : Option AgentActivity :=
  if c.current = none ∧ c.strategy.hasEvidence signals = false then none
  else some (c.strategy.classify c.memory signals (c.current.getD .working)).2

def observeAll (c : Classifier) (samples : List TerminalActivity) :
    Classifier × List AgentActivity :=
  samples.foldl (fun r s => ((r.1.observe s).1, r.2 ++ (r.1.observe s).2.toList)) (c, [])

theorem observeAll_concat (c : Classifier) (samples : List TerminalActivity)
    (s : TerminalActivity) :
    c.observeAll (samples ++ [s]) =
      (((c.observeAll samples).1.observe s).1,
        (c.observeAll samples).2 ++ ((c.observeAll samples).1.observe s).2.toList) := by
  simp [observeAll, foldl_append]

theorem observe_emits (c : Classifier) (s : TerminalActivity) :
    (c.observe s).2 = (c.reading s).filter fun a => c.current ≠ some a := by
  unfold observe reading
  split_ifs with hnone
  · rfl
  · cases c.strategy.classify c.memory s (c.current.getD .working) with
    | mk m next =>
      dsimp only
      split_ifs with hsame <;> simp [filter_some, hsame]

theorem current_observe_eq (c : Classifier) (s : TerminalActivity) :
    (c.observe s).1.current = (c.reading s).or c.current := by
  unfold observe reading
  split_ifs with hnone
  · rfl
  · cases c.strategy.classify c.memory s (c.current.getD .working) with
    | mk m next =>
      dsimp only
      split_ifs with hsame <;> simp [hsame]

/-- What a classifier knows of the samples since it was reset. -/
structure Observed (c : Classifier) (samples : List TerminalActivity)
    (emitted : List AgentActivity) : Prop where
  current : c.current = emitted.getLast?
  watches : c.strategy.Watches c.memory (samples.getLastD .blank)
  unseen : c.current = none →
    c.memory = .default ∧ ∀ x ∈ samples, c.strategy.hasEvidence x = false
  quiet : c.strategy.QuietFor c.memory.quietSamples samples
  idle : c.current = some .idle → idleAfterQuietSamples ≤ c.memory.quietSamples

theorem observed_reset (c : Classifier) : c.reset.Observed [] [] where
  current := rfl
  watches := by
    unfold reset
    cases c.strategy <;> rfl
  unseen _ := ⟨rfl, fun x hx => absurd hx not_mem_nil⟩
  quiet := trivial
  idle h := absurd h.symm (some_ne_none _)

variable (hc : c.Observed samples emitted)
include hc

theorem Observed.skip (hnone : c.current = none)
    (hs : c.strategy.hasEvidence s = false) : c.Observed (samples ++ [s]) emitted where
  current := hc.current
  watches := by
    rw [(hc.unseen hnone).1, getLastD_concat]
    exact IdleStrategy.watches_of_hasEvidence hs
  unseen _ := by
    refine ⟨(hc.unseen hnone).1, fun x hx => ?_⟩
    rcases mem_append.mp hx with hx | hx
    · exact (hc.unseen hnone).2 x hx
    · cases mem_singleton.mp hx
      exact hs
  quiet := by
    rw [(hc.unseen hnone).1]
    trivial
  idle h := absurd (hnone.symm.trans h).symm (some_ne_none _)

theorem Observed.take {m : AgentMemory} {next : AgentActivity}
    (hclassify : c.strategy.classify c.memory s (c.current.getD .working) = (m, next)) :
    ({ c with memory := m, current := some next } : Classifier).Observed (samples ++ [s])
      (emitted ++ if c.current = some next then [] else [next]) := by
  have hread : c.strategy.Read c.memory _ s (c.current.getD .working) _ _ :=
    IdleStrategy.classify_read hc.watches
  have hwatches : c.strategy.Watches
      (c.strategy.classify c.memory s (c.current.getD .working)).1 s :=
    IdleStrategy.watches_classify
  rw [hclassify] at hread hwatches
  refine ⟨?_, ?_, fun h => absurd h (some_ne_none _), ?_, fun h => ?_⟩
  · split_ifs with hsame
    · rw [append_nil, ← hc.current]
      exact hsame.symm
    · rw [getLast?_concat]
  · rw [getLastD_concat]
    exact hwatches
  · cases hread with
    | broken hquiet hnext =>
      have hquiet : m.quietSamples = 0 := hquiet
      rw [hquiet]
      trivial
    | extended hquiet hsamples hnext =>
      have hsamples : m.quietSamples = min (c.memory.quietSamples + 1) (2 ^ 32 - 1) := hsamples
      have hall : c.strategy.QuietFor (c.memory.quietSamples + 1) (samples ++ [s]) :=
        ⟨samples, s, rfl, hquiet, hc.quiet⟩
      exact hall.mono (by rw [hsamples]; exact Nat.min_le_left _ _)
  · cases hread with
    | broken hquiet hnext => exact absurd (some.inj h) hnext
    | extended hquiet hsamples hnext =>
      have hsamples : m.quietSamples = min (c.memory.quietSamples + 1) (2 ^ 32 - 1) := hsamples
      by_contra hfew
      have hnext : next = c.current.getD .working := hnext.trans (if_neg hfew)
      cases hcurrent : c.current with
      | none =>
        rw [hcurrent, some.inj h] at hnext
        cases hnext
      | some a =>
        rw [hcurrent, some.inj h] at hnext
        have hidle := hc.idle (hcurrent.trans (congrArg some hnext.symm))
        have hfew : ¬idleAfterQuietSamples ≤ m.quietSamples := hfew
        unfold idleAfterQuietSamples at hidle hfew
        omega

theorem Observed.observe (s : TerminalActivity) :
    (c.observe s).1.Observed (samples ++ [s]) (emitted ++ (c.observe s).2.toList) := by
  unfold Classifier.observe
  split_ifs with hnone
  · rw [toList_none, append_nil]
    exact hc.skip hnone.1 hnone.2
  · cases hclassify : c.strategy.classify c.memory s (c.current.getD .working) with
    | mk m next =>
      have htaken := hc.take hclassify
      dsimp only
      split_ifs with hsame
      · rw [if_pos hsame, ← hsame] at htaken
        exact htaken
      · rw [if_neg hsame] at htaken
        exact htaken

omit hc

def after (c : Classifier) (samples : List TerminalActivity) : Classifier :=
  (c.reset.observeAll samples).1

def emissions (c : Classifier) (samples : List TerminalActivity) : List AgentActivity :=
  (c.reset.observeAll samples).2

theorem after_concat (c : Classifier) (samples : List TerminalActivity) (s : TerminalActivity) :
    c.after (samples ++ [s]) = ((c.after samples).observe s).1 :=
  congrArg Prod.fst (observeAll_concat c.reset samples s)

theorem observed_after (c : Classifier) (samples : List TerminalActivity) :
    (c.after samples).Observed samples (c.emissions samples) := by
  induction samples using List.reverseRecOn with
  | nil => exact observed_reset c
  | append_singleton samples s ih =>
    rw [after_concat]
    have hnext := ih.observe s
    have hemissions : c.emissions (samples ++ [s]) =
        c.emissions samples ++ ((c.after samples).observe s).2.toList :=
      congrArg Prod.snd (observeAll_concat c.reset samples s)
    rw [hemissions]
    exact hnext

@[simp] theorem strategy_after (c : Classifier) (samples : List TerminalActivity) :
    (c.after samples).strategy = c.strategy := by
  induction samples using List.reverseRecOn with
  | nil => rfl
  | append_singleton samples s ih => rw [after_concat, strategy_observe, ih]

theorem quietFor_of_idle (h : (c.after samples).current = some .idle) :
    c.strategy.QuietFor idleAfterQuietSamples samples := by
  have hobserved := observed_after c samples
  have hquiet := hobserved.quiet.mono (hobserved.idle h)
  rwa [strategy_after] at hquiet

theorem reading_working (hstrategy : c.strategy = .outputDelta)
    (hnew : s.outputSeq ≠ (samples.getLastD .blank).outputSeq) :
    (c.after samples).reading s = some .working := by
  have hobserved := observed_after c samples
  have hst : (c.after samples).strategy = .outputDelta := (strategy_after c samples).trans hstrategy
  have hwatches : (c.after samples).memory.lastOutputSeq = _ := hst ▸ hobserved.watches
  have hproduced : s.outputSeq ≠ (c.after samples).memory.lastOutputSeq := hwatches ▸ hnew
  have hseen : ¬((c.after samples).current = none ∧
      (c.after samples).strategy.hasEvidence s = false) := by
    rintro ⟨hnone, hevidence⟩
    rw [hst] at hevidence
    have hzero : s.outputSeq = 0 := Nat.eq_zero_of_not_pos (of_decide_eq_false hevidence)
    rw [(hobserved.unseen hnone).1] at hproduced
    exact hproduced hzero
  unfold reading
  rw [if_neg hseen, hst]
  simp [IdleStrategy.classify, hproduced]

theorem reading_permission (hstrategy : c.strategy = .outputDelta)
    (hsettled : s.outputSeq = (samples.getLastD .blank).outputSeq)
    (hshown : ∃ x ∈ samples, 0 < x.outputSeq) (hprompt : looksLikePermissionPrompt s.tail = true) :
    (c.after samples).reading s = some .permission := by
  have hobserved := observed_after c samples
  have hst : (c.after samples).strategy = .outputDelta := (strategy_after c samples).trans hstrategy
  have hwatches : (c.after samples).memory.lastOutputSeq = _ := hst ▸ hobserved.watches
  have hsame : s.outputSeq = (c.after samples).memory.lastOutputSeq := hsettled.trans hwatches.symm
  have hseen : (c.after samples).current ≠ none := by
    intro hnone
    obtain ⟨x, hx, hpos⟩ := hshown
    have hevidence := (hobserved.unseen hnone).2 x hx
    rw [hst] at hevidence
    exact of_decide_eq_false hevidence hpos
  unfold reading
  rw [if_neg (fun h => hseen h.1), hst]
  simp [IdleStrategy.classify, hsame, hprompt]

/-- For the samples since any reset and the next one: it is emitted exactly when it reads as
something else than the last emission; what is read or current is idle only after a row of quiet
samples; and under visible output new output reads as working, and a prompt on settled output as
permission. -/
theorem idle_law (c : Classifier) (samples : List TerminalActivity) (s : TerminalActivity) :
    ((c.after samples).observe s).2 =
      ((c.after samples).reading s).filter (fun a => (c.emissions samples).getLast? ≠ some a) ∧
    (c.after samples).current = (c.emissions samples).getLast? ∧
    ((c.after samples).reading s = some .idle →
      c.strategy.QuietFor idleAfterQuietSamples (samples ++ [s])) ∧
    ((c.after samples).current = some .idle →
      c.strategy.QuietFor idleAfterQuietSamples samples) ∧
    (c.strategy = .outputDelta →
      (s.outputSeq ≠ (samples.getLastD .blank).outputSeq →
        (c.after samples).reading s = some .working) ∧
      (s.outputSeq = (samples.getLastD .blank).outputSeq → (∃ x ∈ samples, 0 < x.outputSeq) →
        looksLikePermissionPrompt s.tail = true →
          (c.after samples).reading s = some .permission)) := by
  have hcurrent := (observed_after c samples).current
  refine ⟨?_, hcurrent, fun hidle => ?_, quietFor_of_idle, fun hstrategy => ⟨?_, ?_⟩⟩
  · rw [observe_emits, hcurrent]
  · apply quietFor_of_idle
    rw [after_concat, current_observe_eq, hidle]
    rfl
  · exact reading_working hstrategy
  · exact reading_permission hstrategy

end Classifier

end Soloist
