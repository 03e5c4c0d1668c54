import Soloist.Todo.Machine

/-! The completion record: what it proves about its todo in every reachable board, and that it is
never changed again. -/
open List Option

namespace Soloist

variable {comments : List Comment}

variable {c : Comment}

theorem lt_nextCommentId (h : c ∈ comments) : c.id < nextCommentId comments := by
  induction comments with
  | nil => exact absurd h not_mem_nil
  | cons d ds ih =>
    unfold nextCommentId at ih ⊢
    rw [map_cons, foldr_cons]
    rcases mem_cons.mp h with rfl | hmem
    · omega
    · have := ih hmem
      omega

theorem map_id_updateComment (comment : Nat) (body : String) (comments : List Comment) :
    (updateComment comment body comments).map Comment.id = comments.map Comment.id := by
  induction comments with
  | nil => rfl
  | cons c cs ih =>
    unfold updateComment
    split_ifs
    · rfl
    · rw [map_cons, map_cons, ih]

theorem mem_updateComment_of_ne {comment : Nat} {body : String} (h : c ∈ comments)
    (hne : c.id ≠ comment) : c ∈ updateComment comment body comments := by
  induction comments with
  | nil => exact absurd h not_mem_nil
  | cons d ds ih =>
    unfold updateComment
    rcases mem_cons.mp h with rfl | hmem
    · rw [if_neg hne]
      exact .head _
    · split_ifs
      · exact .tail _ hmem
      · exact .tail _ (ih hmem)

/-- The row's comment ids are distinct, and a completion it carries is proved by its status and its
result comment. -/
structure CompletionIntact (r : StoredTodo) : Prop where
  distinct : (r.comments.map Comment.id).Nodup
  done : ∀ c ∈ r.completion, r.doc.status = .done
  result : ∀ c ∈ r.completion, ∃ m ∈ r.comments, m.id = c.comment ∧ m.body = c.summary

theorem CompletionIntact.fresh (id : TodoId) (project : ProjectId) (doc : TodoDoc)
    (scratchpad : Option ScratchpadId) :
    CompletionIntact (.fresh id project doc scratchpad) where
  distinct := nodup_nil
  done c hc := absurd hc (by simp [StoredTodo.fresh])
  result c hc := absurd hc (by simp [StoredTodo.fresh])

theorem nodup_ids_append (h : (comments.map Comment.id).Nodup) (body : String)
    (author : Option CommentAuthor) :
    ((comments ++ [Comment.mk (nextCommentId comments) body author]).map Comment.id).Nodup := by
  rw [map_append, nodup_append]
  refine ⟨h, nodup_singleton _, ?_⟩
  rintro a ha b hb rfl
  obtain ⟨c, hc, hid⟩ := List.mem_map.mp ha
  have hlt := lt_nextCommentId hc
  have hnext : a = nextCommentId comments := mem_singleton.mp hb
  omega

variable {b : Board} {r r' : StoredTodo}

variable {op : TodoOp}

theorem CompletionIntact.step (h : CompletionIntact r) (hstep : RowStep b op r r') :
    CompletionIntact r' := by
  cases hstep with
  | kept => exact h
  | live change => exact ⟨h.distinct, h.done, h.result⟩
  | docWritten doc link hopen hgate =>
    refine ⟨h.distinct, ?_, h.result⟩
    intro c hc
    have hnone : (r.withDoc doc link).completion = none := hopen
    rw [hnone] at hc
    exact absurd hc (by simp)
  | commented body author =>
    refine ⟨nodup_ids_append h.distinct body author, h.done, ?_⟩
    intro c hc
    obtain ⟨m, hm, hresult⟩ := h.result c hc
    exact ⟨m, mem_append_left _ hm, hresult⟩
  | commentUpdated comment body hfree =>
    refine ⟨?_, h.done, ?_⟩
    · show ((updateComment comment body r.comments).map Comment.id).Nodup
      rw [map_id_updateComment]
      exact h.distinct
    · intro c hc
      obtain ⟨m, hm, hid, hbody⟩ := h.result c hc
      have hne : m.id ≠ comment := by
        intro heq
        have hcompletion : r.completion = some c := hc
        rw [hcompletion, map_some] at hfree
        exact hfree (congrArg some (hid.symm.trans heq))
      exact ⟨m, mem_updateComment_of_ne hm hne, hid, hbody⟩
  | commentDeleted comment hfree =>
    refine ⟨h.distinct.sublist (filter_sublist.map Comment.id), h.done, ?_⟩
    intro c hc
    obtain ⟨m, hm, hid, hbody⟩ := h.result c hc
    have hne : m.id ≠ comment := by
      intro heq
      have hcompletion : r.completion = some c := hc
      rw [hcompletion, map_some] at hfree
      exact hfree (congrArg some (hid.symm.trans heq))
    refine ⟨m, ?_, hid, hbody⟩
    exact mem_filter.mpr ⟨hm, decide_eq_true hne⟩
  | recorded key summary author hop hopen hgate =>
    refine ⟨nodup_ids_append h.distinct summary (some author), ?_, ?_⟩
    · intro c hc
      exact TodoDoc.status_complete r.doc
    · intro c hc
      cases hc
      exact ⟨_, mem_append_right _ (mem_singleton_self _), rfl, rfl⟩
  | noticed completion hrecorded =>
    have hmem : completion ∈ r.completion := hrecorded
    refine ⟨h.distinct, fun c hc => h.done completion hmem, ?_⟩
    intro c hc
    obtain rfl : completion.withNoticeQueued = c := some.inj hc
    exact h.result completion hmem

/-- Once a row carries a completion, its document stays and so does the record, up to the flag that
its notice was queued. -/
def Frozen (r r' : StoredTodo) : Prop :=
  ∀ c ∈ r.completion, r'.doc = r.doc ∧
    ∃ queued, r'.completion = some { c with noticeQueued := queued }

theorem Frozen.refl (r : StoredTodo) : Frozen r r :=
  fun c hc => ⟨rfl, c.noticeQueued, hc⟩

theorem Frozen.trans {s u : StoredTodo} (h₁ : Frozen r s) (h₂ : Frozen s u) : Frozen r u := by
  intro c hc
  obtain ⟨hdoc₁, queued, hs⟩ := h₁ c hc
  obtain ⟨hdoc₂, queued', hu⟩ := h₂ _ hs
  exact ⟨hdoc₂.trans hdoc₁, queued', hu⟩

theorem Frozen.of_step (hstep : RowStep b op r r') : Frozen r r' := by
  intro c hc
  have hsome : r.completion = some c := hc
  cases hstep with
  | docWritten doc link hopen hgate =>
    rw [hopen] at hsome
    exact absurd hsome (by simp)
  | recorded key summary author hop hopen hgate =>
    rw [hopen] at hsome
    exact absurd hsome (by simp)
  | noticed completion hrecorded =>
    obtain rfl : completion = c := some.inj (hrecorded.symm.trans hsome)
    exact ⟨rfl, true, rfl⟩
  | kept | live | commented | commentUpdated | commentDeleted =>
    exact ⟨rfl, c.noticeQueued, hsome⟩

variable {i : TodoId}

theorem completionIntact_of_reachable (hb : boardMachine.Reachable b)
    (hr : b.todos.get i = some r) : CompletionIntact r := by
  suffices h : ∀ i r, b.todos.get i = some r → CompletionIntact r from h i r hr
  refine hb.invariant (P := fun b => ∀ i r, b.todos.get i = some r → CompletionIntact r) ?_ ?_
  · rintro b rfl i r hr
    exact absurd hr (by simp [Board.empty])
  · intro b op b' hintact hstep i r' hr'
    obtain rfl : op.apply b = b' := some.inj hstep
    rcases op.rowsStep.rows i r' hr' with ⟨r, hr, hrow⟩ | ⟨-, project, doc, scratchpad, rfl⟩
    · exact (hintact i r hr).step hrow
    · exact .fresh i project doc scratchpad

/-- The run lemma: a row of an id handed out before comes, frozen, from the row under it then. -/
theorem frozen_after {ops : List TodoOp} (hi : i ≤ b.todos.seq)
    (hr' : (b.after ops).todos.get i = some r') : ∃ r, b.todos.get i = some r ∧ Frozen r r' := by
  induction ops generalizing b with
  | nil => exact ⟨r', hr', .refl r'⟩
  | cons op ops ih =>
    have hstep : b.RowsStep op (op.apply b) := op.rowsStep
    obtain ⟨s, hs, hfrozen⟩ := ih (hi.trans hstep.seq_le) hr'
    rcases hstep.rows i s hs with ⟨r, hr, hrow⟩ | ⟨hnew, -⟩
    · exact ⟨r, hr, (Frozen.of_step hrow).trans hfrozen⟩
    · exact absurd hi (Nat.not_le.mpr hnew)

/-- What the todo's row says of a completion it carries: the todo is done, and the comment the
completion names is there exactly once, with the summary as its body. -/
def CompletionProved (r : StoredTodo) : Prop :=
  (r.comments.map Comment.id).Nodup ∧
    ∀ c ∈ r.completion, r.doc.status = .done ∧ (r.comments.map Comment.id).count c.comment = 1 ∧
      ∀ m ∈ r.comments, m.id = c.comment → m.body = c.summary

theorem CompletionIntact.proved (h : CompletionIntact r) : CompletionProved r := by
  refine ⟨h.distinct, fun c hc => ⟨h.done c hc, ?_⟩⟩
  obtain ⟨m, hm, hid, hbody⟩ := h.result c hc
  constructor
  · apply count_eq_one_of_mem h.distinct
    exact List.mem_map.mpr ⟨m, hm, hid⟩
  · intro m' hm' hid'
    have hsame : m' = m := inj_on_of_nodup_map h.distinct hm' hm (hid'.trans hid.symm)
    rw [hsame, hbody]

/-- In every reachable board each completion is proved by its todo, and whatever follows, as long as
the todo exists its document and its completion stay. -/
theorem completion_record_kept {b : Board} (hb : boardMachine.Reachable b) (ops : List TodoOp)
    {r : StoredTodo} (hr : r ∈ b.todos.rows) :
    CompletionProved r ∧ ∀ r', (b.after ops).todos.get r.id = some r' → Frozen r r' := by
  have hget : b.todos.get r.id = some r := Table.get_of_mem hr
  refine ⟨(completionIntact_of_reachable hb hget).proved, fun r' hr' => ?_⟩
  obtain ⟨s, hs, hfrozen⟩ := frozen_after (AutoTable.get_le_seq hget) hr'
  obtain rfl : r = s := Option.some.inj (hget.symm.trans hs)
  exact hfrozen

def reportedTodo : List TodoOp :=
  [.addProject, .create 1 ⟨"ship", "", .open⟩ none,
    .reportCompletion 1 1 ⟨4, 7⟩ "shipped" (.external "lead")]

theorem completion_record_kept_reopened :
    CompletionProved ((StoredTodo.fresh 1 1 ⟨"ship", "", .open⟩ none).withRecord
        ⟨"ship", "", .done⟩ ⟨1, "shipped", some (.external "lead")⟩ ⟨1, ⟨4, 7⟩, "shipped", 1, false⟩) ∧
      ∀ r', ((Board.empty.after reportedTodo).after
          [.update 1 1 ⟨"ship", "", .open⟩ .unchanged 2]).todos.get 1 = some r' →
        Frozen ((StoredTodo.fresh 1 1 ⟨"ship", "", .open⟩ none).withRecord
          ⟨"ship", "", .done⟩ ⟨1, "shipped", some (.external "lead")⟩
          ⟨1, ⟨4, 7⟩, "shipped", 1, false⟩) r' :=
  completion_record_kept (reachable_after reportedTodo)
    [.update 1 1 ⟨"ship", "", .open⟩ .unchanged 2] (by decide)

end Soloist

/-! Completion reports over any number of application runs. Process and message ids are minted from
1 in each run, while the completions written under them persist. -/
namespace Soloist

/-- One addressed task message naming a todo, as it was delivered in one run. -/
structure Delivery where
  run : Nat
  message : AgentMessageId
  recipient : ProcessId
  project : ProjectId
  todo : TodoId
  deriving DecidableEq, Repr

def Delivery.key (d : Delivery) : TodoCompletionKey := ⟨d.recipient, d.message⟩

/-- The store, and what one run of the application keeps in memory. `writer` is history: the
delivery whose report wrote a todo's completion. -/
structure Application where
  board : Board
  run : Nat
  processes : Nat
  messages : Nat
  issued : List Delivery
  writer : TodoId → Option Delivery

inductive AppEvent
  | restart
  | spawn
  | message
  | deliver (recipient : ProcessId) (project : ProjectId) (todo : TodoId)
  | store (op : TodoOp)
  | report (d : Delivery) (summary : String) (author : CommentAuthor)

def TodoOp.isReport : TodoOp → Bool
  | .reportCompletion .. => true
  | _ => false

namespace Application

def initial : Application := ⟨.empty, 1, 0, 0, [], fun _ => none⟩

/-- The answer `complete` gives to the recipient of a delivery. -/
def answer (s : Application) (d : Delivery) (summary : String) (author : CommentAuthor) :
    Except TodoError TodoCompletionOutcome :=
  (Todos.reportCompletion s.board d.project d.todo d.key summary author).2

def isRecorded : Except TodoError TodoCompletionOutcome → Bool
  | .ok outcome => outcome.occurrence = .recorded
  | .error _ => false

def mint (s : Application) (recipient : ProcessId) (project : ProjectId) (todo : TodoId) :
    Delivery where
  run := s.run
  message := s.messages + 1
  recipient := recipient
  project := project
  todo := todo

/-- A restart resets the counters and clears the process-owned locks; a report needs a delivery of
the current run. -/
def step (s : Application) : AppEvent → Option Application
  | .restart =>
    some { s with
      board := s.board.clearLocks, run := s.run + 1, processes := 0, messages := 0, issued := [] }
  | .spawn => some { s with processes := s.processes + 1 }
  | .message => some { s with messages := s.messages + 1 }
  | .deliver recipient project todo =>
    if 1 ≤ recipient ∧ recipient ≤ s.processes then
      some { s with
        messages := s.messages + 1, issued := s.mint recipient project todo :: s.issued }
    else none
  | .store op => if op.isReport then none else some { s with board := op.apply s.board }
  | .report d summary author =>
    if d ∈ s.issued then
      some { s with
        board := (Todos.reportCompletion s.board d.project d.todo d.key summary author).1
        writer := fun i =>
          if isRecorded (s.answer d summary author) ∧ i = d.todo then some d else s.writer i }
    else none

end Application

def appMachine : Machine Application AppEvent where
  init s := s = .initial
  step := Application.step

section Answers
variable {b : Board} {project : ProjectId} {id : TodoId} {key : TodoCompletionKey}
  {summary : String} {author : CommentAuthor} {r : StoredTodo}

/-- A todo that carries a completion answers `Existing` to its key and a conflict to any other. -/
theorem reportCompletion_of_completed {c : TodoCompletion} (hread : b.readOne project id = some r)
    (hc : r.completion = some c) :
    (Todos.reportCompletion b project id key summary author).2 =
      if c.key = key then
        .ok ⟨c, .existing, if c.noticeQueued then .alreadyQueued else .required⟩
      else .error .completionConflict := by
  unfold Todos.reportCompletion Board.applyCompletion
  simp only [hread, completionDecision, hc]
  split_ifs <;> simp_all

theorem reportCompletion_cases (b : Board) (project : ProjectId) (id : TodoId)
    (key : TodoCompletionKey) (summary : String) (author : CommentAuthor) :
    (Todos.reportCompletion b project id key summary author).1 = b ∧
        Application.isRecorded (Todos.reportCompletion b project id key summary author).2 = false ∨
      Application.isRecorded (Todos.reportCompletion b project id key summary author).2 = true ∧
        ∃ r, b.readOne project id = some r ∧ r.completion = none := by
  unfold Todos.reportCompletion Board.applyCompletion
  cases hread : b.readOne project id with
  | none => exact .inl ⟨rfl, rfl⟩
  | some r =>
    cases hc : r.completion with
    | some existing =>
      left
      simp only [completionDecision, hc]
      split_ifs <;> simp [Application.isRecorded, hc]
    | none =>
      simp only [completionDecision, hc]
      split_ifs with hblocked
      · exact .inl ⟨rfl, rfl⟩
      · exact .inr ⟨rfl, r, rfl, hc⟩

/-- `Existing` is answered only from a completion on record, under the caller's key. -/
theorem reportCompletion_existing {o : TodoCompletionOutcome}
    (ho : (Todos.reportCompletion b project id key summary author).2 = .ok o)
    (hexisting : o.occurrence = .existing) :
    ∃ r c, b.readOne project id = some r ∧ r.completion = some c ∧ c.key = key := by
  cases hread : b.readOne project id with
  | none =>
    unfold Todos.reportCompletion Board.applyCompletion at ho
    simp [hread] at ho
  | some r =>
    cases hc : r.completion with
    | some c =>
      rw [reportCompletion_of_completed hread hc] at ho
      refine ⟨r, c, rfl, hc, ?_⟩
      by_contra hkey
      rw [if_neg hkey] at ho
      exact absurd ho (by simp)
    | none =>
      unfold Todos.reportCompletion Board.applyCompletion at ho
      simp only [hread, completionDecision, hc] at ho
      split_ifs at ho with hblocked
      have heq := Except.ok.inj (show Except.ok _ = Except.ok o from ho)
      rw [← heq] at hexisting
      exact TodoCompletionOccurrence.noConfusion hexisting

end Answers

variable {op : TodoOp} {r : StoredTodo} {c : TodoCompletion}

theorem RowStep.completion_cases {b : Board} {r' : StoredTodo} (h : RowStep b op r r')
    (hc : r'.completion = some c) :
    (∃ c₀, r.completion = some c₀ ∧ c₀.key = c.key) ∨
      r.completion = none ∧ ∃ summary author,
        op = .reportCompletion r.project r.id c.key summary author := by
  cases h with
  | docWritten doc link hopen hgate =>
    have hnone : (r.withDoc doc link).completion = none := hopen
    rw [hnone] at hc
    exact absurd hc (by simp)
  | recorded key summary author hop hopen hgate =>
    cases hc
    exact .inr ⟨hopen, summary, author, hop⟩
  | noticed completion hrecorded =>
    obtain rfl : completion.withNoticeQueued = c := some.inj hc
    exact .inl ⟨completion, hrecorded, rfl⟩
  | kept | live | commented | commentUpdated | commentDeleted => exact .inl ⟨c, hc, rfl⟩

/-- Message ids are unique within the current run, and each completion was written under the key of
its writer. -/
structure Consistent (s : Application) : Prop where
  issued_run : ∀ d ∈ s.issued, d.run = s.run
  issued_bound : ∀ d ∈ s.issued, d.message ≤ s.messages
  issued_unique : ∀ d ∈ s.issued, ∀ d' ∈ s.issued, d.message = d'.message → d = d'
  writer_run : ∀ i w, s.writer i = some w → w.run ≤ s.run
  writer_issued : ∀ i w, s.writer i = some w → w.run = s.run → w ∈ s.issued
  written : ∀ i r c, s.board.todos.get i = some r → r.completion = some c →
    ∃ w, s.writer i = some w ∧ w.key = c.key

theorem Consistent.initial : Consistent .initial where
  issued_run d hd := absurd hd not_mem_nil
  issued_bound d hd := absurd hd not_mem_nil
  issued_unique d hd := absurd hd not_mem_nil
  writer_run i w hw := absurd hw (by simp [Application.initial])
  writer_issued i w hw := absurd hw (by simp [Application.initial])
  written i r c hr := absurd hr (by simp [Application.initial, Board.empty])

variable {s : Application}

theorem Consistent.written_store (h : Consistent s) (hop : op.isReport = false) {i : TodoId}
    (hr : (op.apply s.board).todos.get i = some r) (hc : r.completion = some c) :
    ∃ w, s.writer i = some w ∧ w.key = c.key := by
  rcases op.rowsStep.rows i r hr with ⟨r₀, hr₀, hrow⟩ | ⟨-, project, doc, scratchpad, rfl⟩
  · rcases hrow.completion_cases hc with ⟨c₀, hc₀, hkey⟩ | ⟨-, summary, author, rfl⟩
    · obtain ⟨w, hw, hwkey⟩ := h.written i r₀ c₀ hr₀ hc₀
      exact ⟨w, hw, hwkey.trans hkey⟩
    · exact Bool.noConfusion hop
  · exact absurd hc (by simp [StoredTodo.fresh])

theorem Consistent.step {t : Application} {e : AppEvent} (h : Consistent s)
    (hstep : s.step e = some t) : Consistent t := by
  cases e with
  | restart =>
    cases hstep
    refine ⟨?_, ?_, ?_, ?_, ?_, ?_⟩
    · intro d hd
      exact absurd hd not_mem_nil
    · intro d hd
      exact absurd hd not_mem_nil
    · intro d hd
      exact absurd hd not_mem_nil
    · intro i w hw
      have := h.writer_run i w hw
      dsimp only
      omega
    · intro i w hw hrun
      have := h.writer_run i w hw
      dsimp only at hrun
      omega
    · intro i r c hr hc
      exact Consistent.written_store h (rfl : TodoOp.clearLocks.isReport = false) hr hc
  | spawn =>
    cases hstep
    exact ⟨h.issued_run, h.issued_bound, h.issued_unique, h.writer_run, h.writer_issued, h.written⟩
  | message =>
    cases hstep
    refine ⟨h.issued_run, ?_, h.issued_unique, h.writer_run, h.writer_issued, h.written⟩
    intro d hd
    exact Nat.le_succ_of_le (h.issued_bound d hd)
  | deliver recipient project todo =>
    simp only [Application.step] at hstep
    split_ifs at hstep
    cases hstep
    refine ⟨?_, ?_, ?_, h.writer_run, ?_, h.written⟩
    · intro d hd
      rcases mem_cons.mp hd with rfl | hd
      · rfl
      · exact h.issued_run d hd
    · intro d hd
      rcases mem_cons.mp hd with rfl | hd
      · exact le_refl _
      · exact Nat.le_succ_of_le (h.issued_bound d hd)
    · intro d hd d' hd' hmessage
      -- the minted id is above every id issued in this run
      have hnew : ∀ d₀ ∈ s.issued, d₀.message ≠ (s.mint recipient project todo).message := by
        intro d₀ hd₀ heq
        have hle := h.issued_bound d₀ hd₀
        rw [heq] at hle
        exact Nat.not_succ_le_self s.messages hle
      rcases mem_cons.mp hd with rfl | hd <;> rcases mem_cons.mp hd' with rfl | hd'
      · rfl
      · exact absurd hmessage.symm (hnew d' hd')
      · exact absurd hmessage (hnew d hd)
      · exact h.issued_unique d hd d' hd' hmessage
    · intro i w hw hrun
      exact .tail _ (h.writer_issued i w hw hrun)
  | store op =>
    simp only [Application.step] at hstep
    split_ifs at hstep with hop
    cases hstep
    refine ⟨h.issued_run, h.issued_bound, h.issued_unique, h.writer_run, h.writer_issued, ?_⟩
    intro i r c hr hc
    exact h.written_store (by simpa using hop) hr hc
  | report d summary author =>
    simp only [Application.step] at hstep
    split_ifs at hstep with hd
    cases hstep
    refine ⟨h.issued_run, h.issued_bound, h.issued_unique, ?_, ?_, ?_⟩
    · intro i w hw
      dsimp only at hw ⊢
      split_ifs at hw
      · cases hw
        exact (h.issued_run _ hd).le
      · exact h.writer_run i w hw
    · intro i w hw hrun
      dsimp only at hw ⊢
      split_ifs at hw
      · cases hw
        exact hd
      · exact h.writer_issued i w hw hrun
    · intro i r c hr hc
      have hrow : s.board.RowsStep
          (.reportCompletion d.project d.todo d.key summary author) _ :=
        Todos.rowsStep_reportCompletion d.key summary author
      rcases reportCompletion_cases s.board d.project d.todo d.key summary author with
        ⟨hsame, hquiet⟩ | ⟨hrecorded, r₁, hread, hopen⟩
      · dsimp only at hr ⊢
        rw [hsame] at hr
        simp only [Application.answer, hquiet, Bool.false_eq_true, false_and, if_false]
        exact h.written i r c hr hc
      · dsimp only at hr ⊢
        simp only [Application.answer, hrecorded, true_and]
        rcases hrow.rows i r hr with ⟨r₀, hr₀, hrow⟩ | ⟨-, project, doc, scratchpad, rfl⟩
        · have hid : r₀.id = i := Table.get_key hr₀
          rcases hrow.completion_cases hc with ⟨c₀, hc₀, hkey⟩ | ⟨hnone, summary', author', hop⟩
          · have hne : i ≠ d.todo := by
              rintro rfl
              have hsame : r₁ = r₀ :=
                some.inj ((Board.readOne_eq_some.mp hread).1.symm.trans hr₀)
              rw [hsame, hc₀] at hopen
              exact absurd hopen (by simp)
            obtain ⟨w, hw, hwkey⟩ := h.written i r₀ c₀ hr₀ hc₀
            exact ⟨w, (if_neg hne).trans hw, hwkey.trans hkey⟩
          · obtain ⟨-, htodo, hkey, -, -⟩ := TodoOp.reportCompletion.inj hop
            exact ⟨d, if_pos (hid.symm.trans htodo.symm), hkey⟩
        · exact absurd hc (by simp [StoredTodo.fresh])

theorem Consistent.of_reachable (hs : appMachine.Reachable s) : Consistent s := by
  apply hs.invariant
  · rintro s rfl
    exact .initial
  · intro s e t h hstep
    exact h.step hstep

def Application.WrittenBy (s : Application) (d w : Delivery) : Prop :=
  (∃ r, s.board.readOne d.project d.todo = some r ∧ r.completion.isSome) ∧
    s.writer d.todo = some w

/-- `Existing` answers only the very delivery that wrote the completion, and any other one gets the
conflict. -/
def Application.AnswersHonestly (s : Application) (d : Delivery) (summary : String)
    (author : CommentAuthor) : Prop :=
  (∀ o, s.answer d summary author = .ok o → o.occurrence = .existing → s.WrittenBy d d) ∧
    ∀ w, s.WrittenBy d w → w ≠ d → s.answer d summary author = .error .completionConflict

/-- In every reachable state the report of a delivery is answered honestly exactly when no earlier
run wrote the todo's completion under the delivery's own pair of ids. -/
theorem answersHonestly_iff {s : Application} (hs : appMachine.Reachable s) {d : Delivery}
    (hd : d ∈ s.issued) (summary : String) (author : CommentAuthor) :
    s.AnswersHonestly d summary author ↔
      ∀ w, s.WrittenBy d w → w.run ≠ d.run → w.key ≠ d.key := by
  have hinv := Consistent.of_reachable hs
  constructor
  · rintro ⟨hexisting, -⟩ w ⟨⟨r, hread, hsome⟩, hw⟩ hrun hkey
    obtain ⟨c, hc⟩ := Option.isSome_iff_exists.mp hsome
    obtain ⟨w', hw', hkey'⟩ :=
      hinv.written d.todo r c (Board.readOne_eq_some.mp hread).1 hc
    obtain rfl : w = w' := Option.some.inj (hw.symm.trans hw')
    have hanswer : s.answer d summary author = _ := reportCompletion_of_completed hread hc
    rw [if_pos (hkey'.symm.trans hkey)] at hanswer
    obtain ⟨-, hself⟩ := hexisting _ hanswer rfl
    have hsame : w = d := Option.some.inj (hw.symm.trans hself)
    exact hrun (congrArg Delivery.run hsame)
  · intro hdistinct
    -- a completion under the key of `d` was written by `d` itself
    have hown : ∀ r c w, s.board.readOne d.project d.todo = some r → r.completion = some c →
        s.writer d.todo = some w → c.key = d.key → w = d := by
      intro r c w hread hc hw hkey
      obtain ⟨w', hw', hkey'⟩ :=
        hinv.written d.todo r c (Board.readOne_eq_some.mp hread).1 hc
      obtain rfl : w = w' := Option.some.inj (hw.symm.trans hw')
      have hwkey : w.key = d.key := hkey'.trans hkey
      have hwritten : s.WrittenBy d w := ⟨⟨r, hread, by simp [hc]⟩, hw⟩
      have hrun : w.run = d.run := by
        by_contra hrun
        exact hdistinct w hwritten hrun hwkey
      have hissued := hinv.writer_issued d.todo w hw (hrun.trans (hinv.issued_run d hd))
      exact hinv.issued_unique w hissued d hd (congrArg TodoCompletionKey.taskMessage hwkey)
    constructor
    · intro o ho hexisting
      obtain ⟨r, c, hread, hc, hkey⟩ := reportCompletion_existing ho hexisting
      obtain ⟨w, hw, -⟩ := hinv.written d.todo r c (Board.readOne_eq_some.mp hread).1 hc
      refine ⟨⟨r, hread, by simp [hc]⟩, ?_⟩
      rw [hw, hown r c w hread hc hw hkey]
    · rintro w ⟨⟨r, hread, hsome⟩, hw⟩ hne
      obtain ⟨c, hc⟩ := Option.isSome_iff_exists.mp hsome
      have hanswer : s.answer d summary author = _ := reportCompletion_of_completed hread hc
      rw [hanswer, if_neg]
      intro hkey
      exact hne (hown r c w hread hc hw hkey)

/-- A todo is reported complete in one run; in the next, its first task message to the process of
the same number names the same todo. -/
def reissuedEvents : List AppEvent :=
  [.store .addProject, .store (.create 1 ⟨"ship", "", .open⟩ none), .spawn, .spawn, .deliver 2 1 1,
    .report ⟨1, 1, 2, 1, 1⟩ "shipped" (.process 2 "worker"), .restart, .spawn, .spawn,
    .deliver 2 1 1]

def reissued : Application :=
  (reissuedEvents.foldl (fun s e => s.bind (Application.step · e)) (some .initial)).getD .initial

theorem reissued_reachable : appMachine.Reachable reissued :=
  ⟨.initial, reissuedEvents, rfl, rfl⟩

theorem answersHonestly_iff_reissued :
    reissued.AnswersHonestly ⟨2, 1, 2, 1, 1⟩ "again" (.process 2 "worker") ↔
      ∀ w, reissued.WrittenBy ⟨2, 1, 2, 1, 1⟩ w → w.run ≠ 2 → w.key ≠ ⟨2, 1⟩ :=
  answersHonestly_iff reissued_reachable (by decide) "again" (.process 2 "worker")

/-- The new task is answered with the completion of the earlier run. -/
theorem existing_for_reissued_delivery :
    ¬ ∀ (s : Application), appMachine.Reachable s → ∀ d ∈ s.issued,
      ∀ (summary : String) (author : CommentAuthor), s.AnswersHonestly d summary author := by
  intro h
  obtain ⟨hexisting, -⟩ := h reissued reissued_reachable ⟨2, 1, 2, 1, 1⟩ (by decide) "again"
    (.process 2 "worker")
  obtain ⟨-, hself⟩ := hexisting ⟨⟨1, ⟨2, 1⟩, "shipped", 1, false⟩, .existing, .required⟩ (by decide) rfl
  exact absurd hself (by decide)

end Soloist
