import Soloist.Machine
import Soloist.Mailbox.State

/-! The transcript keeps a suffix of what is recorded for each project, within both ceilings. -/
open List

namespace Soloist

namespace AgentMessageRecord

@[simp] theorem length_advance (id : AgentMessageId) (outcome : AgentMessageOutcome)
    (entries : List AgentMessageRecord) : (advance id outcome entries).length = entries.length := by
  induction entries with
  | nil => rfl
  | cons r rest ih =>
    rw [advance]
    split_ifs
    · rfl
    · rw [length_cons, length_cons, ih]

theorem advance_of_notMem {id : AgentMessageId} {outcome : AgentMessageOutcome}
    {entries : List AgentMessageRecord} (h : entries.any (fun r => r.id = id) = false) :
    advance id outcome entries = entries := by
  induction entries with
  | nil => rfl
  | cons r rest ih =>
    rw [any_cons, Bool.or_eq_false_iff] at h
    rw [advance, if_neg (of_decide_eq_false h.1), ih h.2]

/-- Everything recorded for a project, of which the last `kept` entries are retained: an outcome
moves the first of these that holds the message. -/
def advanceKept (kept : ℕ) (id : AgentMessageId) (outcome : AgentMessageOutcome)
    (log : List AgentMessageRecord) : List AgentMessageRecord :=
  log.take (log.length - kept) ++ advance id outcome (log.drop (log.length - kept))

theorem suffix_advanceKept (id : AgentMessageId) (outcome : AgentMessageOutcome)
    {entries log : List AgentMessageRecord} (h : entries <:+ log) :
    advance id outcome entries <:+ advanceKept entries.length id outcome log := by
  obtain ⟨old, rfl⟩ := h
  unfold advanceKept
  rw [List.length_append, Nat.add_sub_cancel, drop_left]
  exact List.suffix_append _ _

end AgentMessageRecord

namespace MailboxState
variable {s t : MailboxState} {project : ProjectId}

def recorded (now : UInt64) (delivery : AgentMessageDelivery) : AgentMessageRecord :=
  let (body, truncated) := truncateBody delivery.message.body
  ⟨⟨{ delivery.message with body }, delivery.outcome⟩, now, truncated⟩

def pushed (s : MailboxState) (record : AgentMessageRecord) : MailboxState :=
  let project := record.delivery.message.project
  let entries := s.transcript.queue project
  let replaced := decide (maxTranscriptEntriesPerProject ≤ entries.length)
  { s with
    transcript :=
      AList.insert project ((if replaced then entries.tail else entries) ++ [record]) s.transcript
    transcriptCount := if replaced then s.transcriptCount else s.transcriptCount + 1 }

def EvictionTurn (s t : MailboxState) : Prop :=
  maxTranscriptEntries < s.transcriptCount ∧ s.evictFromFullest = some t

def retained (s : MailboxState) : ℕ := s.transcript.contents.length

theorem retained_eq (s : MailboxState) : s.retained = s.transcript.weigh fun _ => 1 := by
  rw [Queues.weigh_eq_contents, map_const', sum_replicate_nat, Nat.mul_one]
  rfl

theorem retained_insert (s : MailboxState) (project : ProjectId) (xs : List AgentMessageRecord) :
    ({ s with transcript := AList.insert project xs s.transcript } : MailboxState).retained +
      (s.transcript.queue project).length = s.retained + xs.length := by
  have h := Queues.weigh_insert (fun _ => 1) s.transcript project xs
  rw [map_const', sum_replicate_nat, map_const', sum_replicate_nat,
    Nat.mul_one, Nat.mul_one] at h
  rw [retained_eq, retained_eq]
  exact h

/-- A longest queue among the entries, by its project and length. -/
def Fullest (best : Option (ProjectId × ℕ))
    (entries : List (Σ _ : ProjectId, List AgentMessageRecord)) : Prop :=
  match best with
  | none => entries = []
  | some (p, n) => (∃ xs, ⟨p, xs⟩ ∈ entries ∧ xs.length = n) ∧ ∀ e ∈ entries, e.2.length ≤ n

theorem fullest_eq (transcript : Queues ProjectId AgentMessageRecord) :
    ∃ best, Fullest best transcript.entries ∧ fullest transcript = best.map Prod.fst := by
  refine ⟨_, ?_, rfl⟩
  unfold AList.foldl
  generalize transcript.entries = entries
  induction entries using List.reverseRecOn with
  | nil => rfl
  | append_singleton entries e ih =>
    rw [foldl_append, foldl_cons, foldl_nil]
    revert ih
    generalize List.foldl _ none entries = best
    intro hbest
    have hlast : e ∈ entries ++ [e] := mem_append_right _ (mem_singleton_self e)
    cases best with
    | none =>
      obtain rfl : entries = [] := hbest
      exact ⟨⟨e.2, hlast, rfl⟩, fun x hx => by rw [mem_singleton.mp hx]⟩
    | some pn =>
      obtain ⟨p, n⟩ := pn
      obtain ⟨⟨xs, hxs, hn⟩, hle⟩ := hbest
      dsimp only
      split_ifs with hbetter
      · refine ⟨⟨e.2, hlast, rfl⟩, fun x hx => ?_⟩
        rcases mem_append.mp hx with hx | hx
        · have hx := hle x hx
          change x.2.length ≤ e.2.length
          omega
        · rw [mem_singleton.mp hx]
      · refine ⟨⟨xs, mem_append_left _ hxs, hn⟩, fun x hx => ?_⟩
        rcases mem_append.mp hx with hx | hx
        · exact hle x hx
        · rw [mem_singleton.mp hx]
          omega

/-- While anything is retained, some project holds as much as any. -/
theorem evictFromFullest_of_retained (h : 0 < s.retained) :
    ∃ victim r rest, s.transcript.queue victim = r :: rest ∧
      s.evictFromFullest = some { s with
        transcript := s.transcript.keep victim rest
        transcriptCount := s.transcriptCount - 1 } := by
  obtain ⟨best, hbest, hfullest⟩ := fullest_eq s.transcript
  cases best with
  | none =>
    have hnone : s.transcript.entries = [] := hbest
    simp [retained, Queues.contents, hnone] at h
  | some pn =>
    obtain ⟨p, n⟩ := pn
    obtain ⟨⟨xs, hxs, hn⟩, hle⟩ := hbest
    have hqueue : s.transcript.queue p = xs := by
      unfold Queues.queue
      rw [AList.mem_lookup_iff.mpr hxs]
      rfl
    -- a longest queue of a transcript that retains something is not empty
    obtain ⟨r, hr⟩ := exists_mem_of_length_pos h
    obtain ⟨e, he, hre⟩ := mem_flatMap.mp hr
    have hpos : 0 < e.2.length := length_pos_of_mem hre
    have hlong : e.2.length ≤ n := hle e he
    cases xs with
    | nil =>
      rw [length_nil] at hn
      omega
    | cons r rest =>
      refine ⟨p, r, rest, hqueue, ?_⟩
      unfold evictFromFullest
      rw [hfullest, Option.map_some]
      dsimp only
      rw [hqueue]

/-- The counts are exact, no project is over its ceiling, and what it keeps are the last of its
entries in `log`. -/
structure Retains (s : MailboxState) (log : ProjectId → List AgentMessageRecord) : Prop where
  counted : s.transcriptCount = s.retained
  few : ∀ p, (s.transcript.queue p).length ≤ maxTranscriptEntriesPerProject
  suffix : ∀ p, s.transcript.queue p <:+ log p

variable {log : ProjectId → List AgentMessageRecord}

theorem Retains.evict (hs : s.Retains log) (h : 0 < s.transcriptCount) :
    ∃ t, s.evictFromFullest = some t ∧ t.Retains log ∧
      t.transcriptCount + 1 = s.transcriptCount := by
  obtain ⟨victim, r, rest, hvictim, hevict⟩ := evictFromFullest_of_retained (hs.counted ▸ h)
  refine ⟨_, hevict, ⟨?_, fun p => ?_, fun p => ?_⟩, Nat.sub_add_cancel h⟩
  · have hkeep := Queues.weigh_keep (fun _ => 1) s.transcript victim rest
    rw [hvictim, map_cons, sum_cons] at hkeep
    have hcounted := hs.counted
    rw [retained_eq] at hcounted ⊢
    change s.transcriptCount - 1 = (s.transcript.keep victim rest).weigh fun _ => 1
    omega
  · rw [Queues.queue_keep]
    split_ifs with hp
    · have hfew := hs.few victim
      rw [hvictim, length_cons] at hfew
      omega
    · exact hs.few p
  · rw [Queues.queue_keep]
    split_ifs with hp
    · rw [hp]
      exact (suffix_cons r rest).trans (hvictim ▸ hs.suffix victim)
    · exact hs.suffix p

theorem Retains.evictWhileOver {fuel : ℕ} (hs : s.Retains log) (hfuel : s.transcriptCount ≤ fuel) :
    (evictWhileOver fuel s).Retains log ∧
      (evictWhileOver fuel s).transcriptCount ≤ maxTranscriptEntries ∧
      Relation.ReflTransGen EvictionTurn s (evictWhileOver fuel s) := by
  induction fuel generalizing s with
  | zero => exact ⟨hs, hfuel.trans (Nat.zero_le _), .refl⟩
  | succ fuel ih =>
    unfold MailboxState.evictWhileOver
    split_ifs with hover
    · obtain ⟨t, ht, hkept, hcount⟩ := hs.evict (Nat.zero_lt_of_lt hover)
      rw [ht]
      obtain ⟨hretains, hunder, hturns⟩ := ih hkept (by omega)
      exact ⟨hretains, hunder, .head ⟨hover, ht⟩ hturns⟩
    · exact ⟨hs, Nat.le_of_not_lt hover, .refl⟩

theorem pushed_eq (s : MailboxState) (r : AgentMessageRecord)
    (hfew : (s.transcript.queue r.delivery.message.project).length ≤
      maxTranscriptEntriesPerProject) :
    ∃ kept count, s.pushed r =
        { s with
          transcript := AList.insert r.delivery.message.project (kept ++ [r]) s.transcript
          transcriptCount := count } ∧
      kept <:+ s.transcript.queue r.delivery.message.project ∧
      kept.length < maxTranscriptEntriesPerProject ∧
      count + (s.transcript.queue r.delivery.message.project).length =
        s.transcriptCount + kept.length + 1 := by
  have hfull : 0 < maxTranscriptEntriesPerProject := by decide
  by_cases h : maxTranscriptEntriesPerProject ≤
      (s.transcript.queue r.delivery.message.project).length
  · have hlength := length_tail (l := s.transcript.queue r.delivery.message.project)
    refine ⟨_, s.transcriptCount, ?_, tail_suffix _, ?_, ?_⟩
    · simp only [pushed, h, decide_true, if_true]
    · omega
    · omega
  · refine ⟨_, s.transcriptCount + 1, ?_, suffix_rfl, Nat.lt_of_not_le h, by omega⟩
    simp only [pushed, h, decide_false, Bool.false_eq_true, if_false]

theorem Retains.pushed (hs : s.Retains log) (r : AgentMessageRecord) :
    (s.pushed r).Retains (Function.update log r.delivery.message.project
      (log r.delivery.message.project ++ [r])) := by
  obtain ⟨kept, count, hpushed, hkept, hroom, hcount⟩ :=
    pushed_eq s r (hs.few r.delivery.message.project)
  rw [hpushed]
  refine ⟨?_, fun p => ?_, fun p => ?_⟩
  · have hinsert := retained_insert s r.delivery.message.project (kept ++ [r])
    rw [List.length_append, length_singleton] at hinsert
    have hcounted := hs.counted
    change count =
      ({ s with transcript := AList.insert _ (kept ++ [r]) _ } : MailboxState).retained
    omega
  · rw [Queues.queue_insert]
    split_ifs with hp
    · rw [List.length_append, length_singleton]
      exact hroom
    · exact hs.few p
  · rw [Queues.queue_insert]
    split_ifs with hp
    · obtain ⟨old, hold⟩ := hkept.trans (hs.suffix r.delivery.message.project)
      rw [hp, Function.update_self, ← hold, append_assoc]
      exact List.suffix_append old _
    · rw [Function.update_of_ne hp]
      exact hs.suffix p

theorem Retains.pushRecord (hs : s.Retains log) (r : AgentMessageRecord) :
    (s.pushRecord r).Retains (Function.update log r.delivery.message.project
        (log r.delivery.message.project ++ [r])) ∧
      (s.pushRecord r).transcriptCount ≤ maxTranscriptEntries ∧
      Relation.ReflTransGen EvictionTurn (s.pushed r) (s.pushRecord r) :=
  (hs.pushed r).evictWhileOver le_rfl

theorem Retains.recordOutcome (hs : s.Retains log) (project : ProjectId) (id : AgentMessageId)
    (outcome : AgentMessageOutcome) :
    (s.recordOutcome project id outcome).Retains
        (Function.update log project (AgentMessageRecord.advanceKept
          (s.transcript.queue project).length id outcome (log project))) ∧
      (s.recordOutcome project id outcome).transcriptCount = s.transcriptCount := by
  -- whether an entry holds the message or not, the queue is the advanced one
  have hadvanced := AgentMessageRecord.suffix_advanceKept id outcome (hs.suffix project)
  have hsame : (∀ p, Queues.queue (s.recordOutcome project id outcome).transcript p =
        if p = project then AgentMessageRecord.advance id outcome (s.transcript.queue project)
        else s.transcript.queue p) ∧
      (s.recordOutcome project id outcome).transcriptCount = s.transcriptCount ∧
      (s.recordOutcome project id outcome).retained = s.retained := by
    unfold MailboxState.recordOutcome advanceRecordedOutcome
    cases hentries : AList.lookup project s.transcript with
    | none =>
      refine ⟨fun p => ?_, rfl, rfl⟩
      have hqueue : s.transcript.queue project = [] := by
        unfold Queues.queue
        rw [hentries]
        rfl
      split_ifs with hp
      · rw [hp, hqueue]
        rfl
      · rfl
    | some entries =>
      have hqueue : s.transcript.queue project = entries := by
        unfold Queues.queue
        rw [hentries]
        rfl
      dsimp only
      split_ifs with hany
      · refine ⟨fun p => ?_, rfl, ?_⟩
        · rw [hqueue]
          exact Queues.queue_insert s.transcript project p _
        · have hinsert := retained_insert s project
            (AgentMessageRecord.advance id outcome entries)
          rw [hqueue, AgentMessageRecord.length_advance] at hinsert
          exact Nat.add_right_cancel hinsert
      · refine ⟨fun p => ?_, rfl, rfl⟩
        rw [hqueue, AgentMessageRecord.advance_of_notMem (Bool.eq_false_iff.mpr hany)]
        split_ifs with hp
        · rw [hp, hqueue]
        · rfl
  obtain ⟨hqueue, hcount, hretained⟩ := hsame
  refine ⟨⟨?_, fun p => ?_, fun p => ?_⟩, hcount⟩
  · rw [hcount, hretained]
    exact hs.counted
  · rw [hqueue]
    split_ifs with hp
    · rw [AgentMessageRecord.length_advance]
      exact hs.few project
    · exact hs.few p
  · rw [hqueue]
    split_ifs with hp
    · rw [hp, Function.update_self]
      exact hadvanced
    · rw [Function.update_of_ne hp]
      exact hs.suffix p

theorem Retains.forgetProject (hs : s.Retains log) (project : ProjectId) :
    (s.forgetProject project).Retains (Function.update log project []) ∧
      (s.forgetProject project).transcriptCount ≤ s.transcriptCount := by
  unfold MailboxState.forgetProject
  cases hentries : AList.lookup project s.transcript with
  | none =>
    refine ⟨⟨hs.counted, hs.few, fun p => ?_⟩, le_rfl⟩
    by_cases hp : p = project
    · have hqueue : s.transcript.queue p = [] := by
        unfold Queues.queue
        rw [hp, hentries]
        rfl
      rw [hqueue]
      exact nil_suffix
    · rw [Function.update_of_ne hp]
      exact hs.suffix p
  | some entries =>
    have hqueue : s.transcript.queue project = entries := by
      unfold Queues.queue
      rw [hentries]
      rfl
    refine ⟨⟨?_, fun p => ?_, fun p => ?_⟩, Nat.sub_le _ _⟩
    · have herase := Queues.weigh_erase (fun _ => 1) s.transcript project
      rw [hqueue, map_const', sum_replicate_nat, Nat.mul_one] at herase
      have hcounted := hs.counted
      rw [retained_eq] at hcounted ⊢
      change s.transcriptCount - entries.length =
        Queues.weigh (fun _ => 1) (AList.erase project s.transcript)
      omega
    · rw [Queues.queue_erase]
      split_ifs with hp
      · exact Nat.zero_le _
      · exact hs.few p
    · rw [Queues.queue_erase]
      split_ifs with hp
      · exact nil_suffix
      · rw [Function.update_of_ne hp]
        exact hs.suffix p

end MailboxState

inductive TranscriptEvent
  | record (now : UInt64) (delivery : AgentMessageDelivery)
  | outcome (project : ProjectId) (id : AgentMessageId) (outcome : AgentMessageOutcome)
  | forget (project : ProjectId)

/-- The transcript, and beside it everything recorded for each project since it was last
forgotten. -/
structure Transcribed where
  mailbox : MailboxState
  log : ProjectId → List AgentMessageRecord

namespace Transcribed

def empty : Transcribed := ⟨.empty, fun _ => []⟩

def step (s : Transcribed) : TranscriptEvent → Option Transcribed
  | .record now delivery =>
    let r := MailboxState.recorded now delivery
    let project := delivery.message.project
    some ⟨s.mailbox.record now delivery, Function.update s.log project (s.log project ++ [r])⟩
  | .outcome project id outcome =>
    let kept := (s.mailbox.transcript.queue project).length
    some ⟨s.mailbox.recordOutcome project id outcome,
      Function.update s.log project
        (AgentMessageRecord.advanceKept kept id outcome (s.log project))⟩
  | .forget project =>
    some ⟨s.mailbox.forgetProject project, Function.update s.log project []⟩

end Transcribed

def transcribed : Machine Transcribed TranscriptEvent := ⟨fun s => s = .empty, Transcribed.step⟩

namespace Transcribed
variable {s t : Transcribed}

theorem Retains.step {e : TranscriptEvent} (hs : s.mailbox.Retains s.log)
    (hcount : s.mailbox.transcriptCount ≤ maxTranscriptEntries) (h : s.step e = some t) :
    t.mailbox.Retains t.log ∧ t.mailbox.transcriptCount ≤ maxTranscriptEntries := by
  cases e with
  | record now delivery =>
    cases h
    have hpushed := hs.pushRecord (MailboxState.recorded now delivery)
    exact ⟨hpushed.1, hpushed.2.1⟩
  | outcome project id outcome =>
    cases h
    have houtcome := hs.recordOutcome project id outcome
    exact ⟨houtcome.1, houtcome.2.trans_le hcount⟩
  | forget project =>
    cases h
    have hforgotten := hs.forgetProject project
    exact ⟨hforgotten.1, hforgotten.2.trans hcount⟩

/-- Whatever is recorded, moved and forgotten in whatever order: each project keeps the last of its
entries, in order, within its ceiling; the count is exact and within the ceiling over all; and the
next push ends its evictions by the loop's own condition. -/
theorem transcript_keeps_suffixes {es : List TranscriptEvent}
    (hrun : transcribed.run empty es = some s) :
    (∀ project, s.mailbox.transcript.queue project <:+ s.log project ∧
      (s.mailbox.transcript.queue project).length ≤ maxTranscriptEntriesPerProject) ∧
    s.mailbox.transcriptCount = s.mailbox.transcript.contents.length ∧
    s.mailbox.transcriptCount ≤ maxTranscriptEntries ∧
    ∀ r, Relation.ReflTransGen MailboxState.EvictionTurn (s.mailbox.pushed r)
        (s.mailbox.pushRecord r) ∧
      ¬maxTranscriptEntries < (s.mailbox.pushRecord r).transcriptCount := by
  have hkept : s.mailbox.Retains s.log ∧ s.mailbox.transcriptCount ≤ maxTranscriptEntries := by
    refine Machine.invariant_run (M := transcribed)
      (P := fun s => s.mailbox.Retains s.log ∧ s.mailbox.transcriptCount ≤ maxTranscriptEntries)
      (fun s e t hs hstep => Retains.step hs.1 hs.2 hstep) ?_ hrun
    exact ⟨⟨rfl, fun p => Nat.zero_le _, fun p => List.nil_suffix⟩, Nat.zero_le _⟩
  obtain ⟨hretains, hcount⟩ := hkept
  refine ⟨fun project => ⟨hretains.suffix project, hretains.few project⟩, hretains.counted, hcount,
    fun r => ?_⟩
  have hpushed := hretains.pushRecord r
  exact ⟨hpushed.2.2, Nat.not_lt_of_le hpushed.2.1⟩

/-- A message is recorded and answered, and its project forgotten before it is recorded again. -/
theorem transcript_keeps_suffixes_forgotten :
    ∃ s, transcribed.run empty
        [.record 1 ⟨⟨7, 1, 2, 3, .direct, "hi", none⟩, .queued⟩, .outcome 1 7 .acknowledged,
          .forget 1, .record 2 ⟨⟨7, 1, 2, 3, .direct, "hi", none⟩, .queued⟩] = some s ∧
      s.mailbox.transcript.queue 1 <:+ s.log 1 := by
  have hrun : transcribed.run empty
      [.record 1 ⟨⟨7, 1, 2, 3, .direct, "hi", none⟩, .queued⟩, .outcome 1 7 .acknowledged,
        .forget 1, .record 2 ⟨⟨7, 1, 2, 3, .direct, "hi", none⟩, .queued⟩] = some _ := rfl
  exact ⟨_, hrun, ((transcript_keeps_suffixes hrun).1 1).1⟩

end Transcribed

end Soloist
