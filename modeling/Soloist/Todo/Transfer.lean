import Soloist.Todo.Machine

/-! A scratchpad's transfer statement by statement, each of which the store may refuse, inside the
one transaction that takes the derived todos along. -/
open List

namespace Soloist

inductive TransferStatement
  | begin
  | taken
  | read
  | rekey
  | derived
  | decode (id : TodoId)
  | encode (id : TodoId)
  | move (id : TodoId)
  | readBack
  | commit
  deriving DecidableEq, Repr

abbrev TransferFaults := TransferStatement → Option StoreError

def TransferFaults.run (faults : TransferFaults) (statement : TransferStatement) :
    Except StoreError Unit :=
  match faults statement with
  | some e => .error e
  | none => .ok ()

variable {α β ε : Type}

/-- What a step that answers went through. -/
theorem exists_of_bind_ok {x : Except ε α} {f : α → Except ε β} {y : β} (h : x >>= f = .ok y) :
    ∃ a, x = .ok a ∧ f a = .ok y := by
  cases x with
  | error e => cases h
  | ok a => exact ⟨a, rfl, h⟩

theorem ok_bind (a : α) (f : α → Except ε β) : (Except.ok a >>= f) = f a := rfl

namespace Board

def relocated (target : ProjectId) (kept : List TodoId) (r : StoredTodo) : StoredTodo.Live :=
  { r.live with project := target, blockers := kept, lockedBy := none }

def moveDerived (faults : TransferFaults) (source target : ProjectId) (moved : List TodoId)
    (b : Board) (derived : TodoId × List TodoId) : Except StoreError Board := do
  faults.run (.decode derived.1)
  let kept := derived.2.filter (· ∈ moved)
  faults.run (.encode derived.1)
  faults.run (.move derived.1)
  if ProjectTable.contains b.projects target then
    .ok (b.update (addressed source derived.1) (.withLive (relocated target kept))
      (StoredTodo.id_withLive (relocated target kept)))
  else .error .foreignKey

def derivedRows (b : Board) (source : ProjectId) (scratchpad : ScratchpadId) :
    List (TodoId × List TodoId) :=
  ((b.todos.rows.filter (derivedFrom source scratchpad)).mergeSort fun r s => r.id ≤ s.id).map
    fun r => (r.id, r.blockers)

def transferDerivedWith (faults : TransferFaults) (b : Board) (source target : ProjectId)
    (scratchpad : ScratchpadId) : Except StoreError (Board × List TodoId) := do
  faults.run .derived
  let derived := derivedRows b source scratchpad
  let moved := derived.map Prod.fst
  let b' ← derived.foldlM (moveDerived faults source target moved) b
  .ok (b', moved)

def transferBody (faults : TransferFaults) (b : Board) (source : ProjectId) (name : String)
    (target : ProjectId) : Except StoreError (Board × DocTransfer × List TodoId) := do
  faults.run .begin
  faults.run .taken
  match h : DocTable.currentRevision b.scratchpads target name with
  | some _ => .ok (b, .nameTaken, [])
  | none =>
    faults.run .read
    match DocTable.readOne b.scratchpads source name with
    | none => .ok (b, .notFound, [])
    | some stored =>
      faults.run .rekey
      if ProjectTable.contains b.projects target then
        let rekeyed :=
          { b with scratchpads := DocTable.updateProject b.scratchpads source name target h }
        let (b', todos) ← transferDerivedWith faults rekeyed source target stored.id
        faults.run .readBack
        match DocTable.readOne b'.scratchpads target name with
        | none => .error (vanished "scratchpad" "transfer")
        | some scratchpad =>
          faults.run .commit
          .ok (b', .transferred scratchpad, todos)
      else .error .foreignKey

/-- A transaction that is dropped before its commit is rolled back. -/
def scratchpadTransferWith (faults : TransferFaults) (b : Board) (source : ProjectId)
    (name : String) (target : ProjectId) : Board × Except StoreError (DocTransfer × List TodoId) :=
  match transferBody faults b source name target with
  | .ok (b', result) => (b', .ok result)
  | .error e => (b, .error e)

section Moved
variable {faults : TransferFaults} {b b' : Board} {source target : ProjectId}
  {moved : List TodoId} {scratchpad : ScratchpadId} {r : StoredTodo}

def carried (source target : ProjectId) (moved : List TodoId)
    (derived : List (TodoId × List TodoId)) (r : StoredTodo) : StoredTodo :=
  derived.foldl (fun r d => if addressed source d.1 r then
    r.withLive (relocated target (d.2.filter (· ∈ moved))) else r) r

variable {d : TodoId × List TodoId}

theorem moveDerived_ok (h : moveDerived faults source target moved b d = .ok b') :
    b'.scratchpads = b.scratchpads ∧ b'.todos.rows = b.todos.rows.map fun r =>
      if addressed source d.1 r then
        r.withLive (relocated target (d.2.filter (· ∈ moved))) else r := by
  unfold moveDerived at h
  obtain ⟨_, -, h⟩ := exists_of_bind_ok h
  obtain ⟨_, -, h⟩ := exists_of_bind_ok h
  obtain ⟨_, -, h⟩ := exists_of_bind_ok h
  split_ifs at h
  cases h
  exact ⟨rfl, rfl⟩

variable {derived : List (TodoId × List TodoId)}

theorem moveDerived_fold (h : derived.foldlM (moveDerived faults source target moved) b = .ok b') :
    b'.scratchpads = b.scratchpads ∧
      b'.todos.rows = b.todos.rows.map (carried source target moved derived) := by
  induction derived generalizing b with
  | nil =>
    cases h
    exact ⟨rfl, (map_id _).symm⟩
  | cons d derived ih =>
    rw [foldlM_cons] at h
    cases hturn : moveDerived faults source target moved b d with
    | error e =>
      rw [hturn] at h
      cases h
    | ok next =>
      rw [hturn] at h
      obtain ⟨hdocs, hrows⟩ := moveDerived_ok hturn
      obtain ⟨hdocs', hrows'⟩ := ih h
      refine ⟨hdocs'.trans hdocs, ?_⟩
      rw [hrows', hrows, map_map]
      rfl

theorem carried_of_not_mem (h : r.id ∉ derived.map Prod.fst) :
    carried source target moved derived r = r := by
  induction derived with
  | nil => rfl
  | cons d derived ih =>
    rw [map_cons, mem_cons, not_or] at h
    have hother : addressed source d.1 r = false := by
      rw [Bool.eq_false_iff, Ne, addressed_iff]
      exact fun haddressed => h.1 haddressed.2
    rw [carried, foldl_cons, hother, if_neg Bool.false_ne_true]
    exact ih h.2

theorem carried_of_mem {blockers : List TodoId} (hnodup : (derived.map Prod.fst).Nodup)
    (hmem : (r.id, blockers) ∈ derived) (hsource : r.project = source) :
    carried source target moved derived r =
      r.withLive (relocated target (blockers.filter (· ∈ moved))) := by
  induction derived with
  | nil => exact absurd hmem not_mem_nil
  | cons d derived ih =>
    rw [map_cons, nodup_cons] at hnodup
    rw [carried, foldl_cons]
    rcases mem_cons.mp hmem with rfl | hmem
    · rw [if_pos (addressed_iff.mpr ⟨hsource, rfl⟩)]
      exact carried_of_not_mem hnodup.1
    · have hne : r.id ≠ d.1 := by
        intro hsame
        exact hnodup.1 (hsame ▸ mem_map_of_mem hmem)
      have hother : addressed source d.1 r = false := by
        rw [Bool.eq_false_iff, Ne, addressed_iff]
        exact fun haddressed => hne haddressed.2
      rw [hother, if_neg Bool.false_ne_true]
      exact ih hnodup.2 hmem

theorem derivedFrom_iff : derivedFrom source scratchpad r = true ↔
    r.project = source ∧ r.scratchpad = some scratchpad := by
  rw [derivedFrom, decide_eq_true_eq]

theorem mem_derivedRows : d ∈ derivedRows b source scratchpad ↔
    ∃ r ∈ b.todos.rows, derivedFrom source scratchpad r = true ∧ (r.id, r.blockers) = d := by
  simp [derivedRows, mem_mergeSort, and_assoc]

theorem map_derivedRows : (derivedRows b source scratchpad).map Prod.fst =
    ((b.todos.rows.filter (derivedFrom source scratchpad)).map
      StoredTodo.id).mergeSort (· ≤ ·) := by
  unfold derivedRows
  rw [map_map]
  exact map_mergeSort fun _ _ _ _ => rfl

theorem nodup_derivedRows : ((derivedRows b source scratchpad).map Prod.fst).Nodup := by
  rw [map_derivedRows]
  refine (mergeSort_perm _ _).nodup_iff.mpr (b.todos.nodup.sublist ?_)
  exact filter_sublist.map StoredTodo.id

/-- What the updates leave of a row is what one update of every derived row leaves of it. -/
theorem carried_derivedRows (hr : r ∈ b.todos.rows) :
    carried source target moved (derivedRows b source scratchpad) r =
      if derivedFrom source scratchpad r then
        r.withLive (relocated target (r.blockers.filter (· ∈ moved))) else r := by
  split_ifs with hderived
  · have hmem : (r.id, r.blockers) ∈ derivedRows b source scratchpad :=
      mem_derivedRows.mpr ⟨r, hr, hderived, rfl⟩
    exact carried_of_mem nodup_derivedRows hmem (derivedFrom_iff.mp hderived).1
  · refine carried_of_not_mem fun hid => hderived ?_
    obtain ⟨d, hd, hsame⟩ := mem_map.mp hid
    obtain ⟨s, hs, hderived, rfl⟩ := mem_derivedRows.mp hd
    have hrow : s = r := Table.eq_of_key_eq (t := b.todos.toTable) hs hr hsame
    rwa [← hrow]

theorem rows_transferDerived (b : Board) (source target : ProjectId) (scratchpad : ScratchpadId) :
    (b.transferDerived source target scratchpad).1.todos.rows = b.todos.rows.map fun r =>
      if derivedFrom source scratchpad r then r.withLive (relocated target
        (r.blockers.filter (· ∈ (b.transferDerived source target scratchpad).2))) else r := rfl

/-- The statements together are the one step the board's machine takes. -/
theorem transferDerivedWith_ok
    (h : transferDerivedWith faults b source target scratchpad = .ok (b', moved)) :
    b'.scratchpads = b.scratchpads ∧
      b'.todos.rows = (b.transferDerived source target scratchpad).1.todos.rows ∧
      moved = (b.transferDerived source target scratchpad).2 := by
  unfold transferDerivedWith at h
  obtain ⟨_, -, h⟩ := exists_of_bind_ok h
  obtain ⟨last, hfold, h⟩ := exists_of_bind_ok h
  cases h
  obtain ⟨hdocs, hrows⟩ := moveDerived_fold hfold
  have hmoved : (derivedRows b source scratchpad).map Prod.fst =
      (b.transferDerived source target scratchpad).2 := map_derivedRows
  refine ⟨hdocs, ?_, hmoved⟩
  rw [hrows, rows_transferDerived, ← hmoved]
  exact map_congr_left fun r hr => carried_derivedRows hr

end Moved

/-- What a transfer leaves of the links between todos. -/
structure LinksKept (b b' : Board) (source target : ProjectId) (scratchpad : ScratchpadId)
    (moved : List TodoId) : Prop where
  derived : ∀ id, id ∈ moved ↔
    ∃ r ∈ b.todos.rows, r.id = id ∧ r.project = source ∧ r.scratchpad = some scratchpad
  rows : b'.todos.rows = b.todos.rows.map fun r => if r.id ∈ moved then
    { r with project := target, blockers := r.blockers.filter (· ∈ moved), lockedBy := none } else r
  /-- A moved todo has no blocker in another project. -/
  within : ∀ r ∈ b'.todos.rows, r.id ∈ moved → ∀ blocker ∈ r.blockers,
    ∃ s ∈ b'.todos.rows, s.id = blocker ∧ s.project = target
  /-- A blocker that moved away from a todo counts as met. -/
  left : ∀ r ∈ b'.todos.rows, r.project = source → b'.unmetBlockers source r.blockers =
    (b.unmetBlockers source r.blockers).filter (· ∉ moved)

variable {b b' : Board} {source target : ProjectId} {moved : List TodoId}

theorem readOne_moved
    (hne : source ≠ target)
    (hrows : b'.todos.rows = b.todos.rows.map fun r => if r.id ∈ moved then
      { r with project := target, blockers := r.blockers.filter (· ∈ moved), lockedBy := none }
      else r) (id : TodoId) :
    b'.readOne source id = if id ∈ moved then none else b.readOne source id := by
  have hfound : ∀ {b : Board} {r : StoredTodo}, b.readOne source id = some r ↔
      r ∈ b.todos.rows ∧ r.id = id ∧ r.project = source := by
    intro b r
    rw [readOne_eq_some, Table.get_eq_some, and_assoc]
  refine Option.ext fun r => ?_
  rw [hfound, Option.ite_none_left_eq_some, hfound, hrows, mem_map]
  constructor
  · rintro ⟨⟨s, hs, rfl⟩, hid, hproject⟩
    split_ifs at hid hproject ⊢ with hmoved
    · exact absurd hproject.symm hne
    · exact ⟨hid ▸ hmoved, hs, hid, hproject⟩
  · rintro ⟨hmoved, hr, rfl, hproject⟩
    exact ⟨⟨r, hr, if_neg hmoved⟩, rfl, hproject⟩

theorem linksKept {scratchpad : ScratchpadId} (hne : source ≠ target)
    (h : b'.todos.rows = (b.transferDerived source target scratchpad).1.todos.rows) :
    LinksKept b b' source target scratchpad (b.transferDerived source target scratchpad).2 := by
  have hids : ∀ id, id ∈ (b.transferDerived source target scratchpad).2 ↔
      ∃ r ∈ b.todos.rows, r.id = id ∧ r.project = source ∧ r.scratchpad = some scratchpad := by
    intro id
    simp only [transferDerived, mem_mergeSort, mem_map, mem_filter, derivedFrom_iff]
    constructor
    · rintro ⟨r, ⟨hr, hderived⟩, rfl⟩
      exact ⟨r, hr, rfl, hderived⟩
    · rintro ⟨r, hr, rfl, hderived⟩
      exact ⟨r, ⟨hr, hderived⟩, rfl⟩
  have hderived : ∀ r ∈ b.todos.rows, (derivedFrom source scratchpad r = true ↔
      r.id ∈ (b.transferDerived source target scratchpad).2) := by
    intro r hr
    rw [hids, derivedFrom_iff]
    constructor
    · exact fun hderived => ⟨r, hr, rfl, hderived⟩
    · rintro ⟨s, hs, hsame, hderived⟩
      rwa [← Table.eq_of_key_eq (t := b.todos.toTable) hs hr hsame]
  have hrows : b'.todos.rows = b.todos.rows.map fun r =>
      if r.id ∈ (b.transferDerived source target scratchpad).2 then
        { r with
          project := target
          blockers := r.blockers.filter (· ∈ (b.transferDerived source target scratchpad).2)
          lockedBy := none } else r := by
    rw [h, rows_transferDerived]
    refine map_congr_left fun r hr => ?_
    by_cases hmoved : derivedFrom source scratchpad r = true
    · rw [if_pos hmoved, if_pos ((hderived r hr).mp hmoved)]
      rfl
    · rw [if_neg hmoved, if_neg (mt (hderived r hr).mpr hmoved)]
  refine ⟨hids, hrows, ?_, ?_⟩
  · intro r hr hmoved blocker hblocker
    rw [hrows] at hr ⊢
    obtain ⟨s, hs, rfl⟩ := mem_map.mp hr
    have hsame : s.id ∈ (b.transferDerived source target scratchpad).2 := by
      split_ifs at hmoved with hs' <;> exact hmoved
    rw [if_pos hsame] at hblocker
    have hkept := of_decide_eq_true (mem_filter.mp hblocker).2
    obtain ⟨q, hq, rfl, -⟩ := (hids blocker).mp hkept
    exact ⟨_, mem_map_of_mem hq, by rw [if_pos hkept], by rw [if_pos hkept]⟩
  · intro r _ _
    unfold unmetBlockers
    rw [filter_filter]
    refine filter_congr fun blocker _ => ?_
    rw [readOne_moved hne hrows]
    by_cases hmoved : blocker ∈ (b.transferDerived source target scratchpad).2
    · simp [hmoved]
    · simp [hmoved]

variable {faults : TransferFaults}

variable {name : String}

theorem transferBody_ok {outcome : DocTransfer}
    (h : transferBody faults b source name target = .ok (b', outcome, moved)) :
    (b' = b ∧ ∀ stored, outcome ≠ .transferred stored) ∨
      ∃ stored, outcome = .transferred stored ∧ LinksKept b b' source target stored.id moved := by
  unfold transferBody at h
  obtain ⟨_, -, h⟩ := exists_of_bind_ok h
  obtain ⟨_, -, h⟩ := exists_of_bind_ok h
  split at h
  next =>
    cases h
    exact .inl ⟨rfl, fun stored => DocTransfer.noConfusion⟩
  next hfree =>
    obtain ⟨_, -, h⟩ := exists_of_bind_ok h
    split at h
    next =>
      cases h
      exact .inl ⟨rfl, fun stored => DocTransfer.noConfusion⟩
    next stored hstored =>
      right
      obtain ⟨_, -, h⟩ := exists_of_bind_ok h
      split_ifs at h
      obtain ⟨⟨last, todos⟩, htodos, h⟩ := exists_of_bind_ok h
      obtain ⟨_, -, h⟩ := exists_of_bind_ok h
      split at h
      next => cases h
      next scratchpad hback =>
        obtain ⟨_, -, h⟩ := exists_of_bind_ok h
        cases h
        obtain ⟨hdocs, hrows, rfl⟩ := transferDerivedWith_ok htodos
        have hne : source ≠ target := by
          rintro rfl
          unfold DocTable.currentRevision at hfree
          rw [hstored] at hfree
          cases hfree
        have hread : DocTable.readOne
            (DocTable.updateProject b.scratchpads source name target hfree) target name =
              some (stored.withProject target) :=
          DocTable.find_updateProject hfree hstored
        have hid : scratchpad.id = stored.id := by
          rw [hdocs, hread] at hback
          cases hback
          rfl
        refine ⟨scratchpad, rfl, ?_⟩
        rw [hid]
        exact linksKept hne hrows

theorem moveDerived_done (hfaults : ∀ statement, faults statement = none)
    (derived : List (TodoId × List TodoId))
    (htarget : ProjectTable.contains b.projects target = true) :
    ∃ b', derived.foldlM (moveDerived faults source target moved) b = .ok b' := by
  induction derived generalizing b with
  | nil => exact ⟨b, rfl⟩
  | cons d derived ih =>
    have hturn : moveDerived faults source target moved b d =
        .ok (b.update (addressed source d.1) (.withLive (relocated target (d.2.filter (· ∈ moved))))
          (StoredTodo.id_withLive _)) := by
      simp only [moveDerived, TransferFaults.run, hfaults]
      exact if_pos htarget
    rw [foldlM_cons, hturn]
    exact ih htarget

theorem transferBody_done (hfaults : ∀ statement, faults statement = none) {stored : StoredDoc}
    (hfree : DocTable.currentRevision b.scratchpads target name = none)
    (hread : DocTable.readOne b.scratchpads source name = some stored)
    (htarget : ProjectTable.contains b.projects target = true) :
    ∃ b' moved, transferBody faults b source name target =
      .ok (b', .transferred (stored.withProject target), moved) := by
  have hrun : ∀ statement, faults.run statement = .ok () := by
    intro statement
    rw [TransferFaults.run, hfaults]
  let rekeyed : Board :=
    { b with scratchpads := DocTable.updateProject b.scratchpads source name target hfree }
  obtain ⟨b', hfold⟩ : ∃ b', (derivedRows rekeyed source stored.id).foldlM (moveDerived faults
      source target ((derivedRows rekeyed source stored.id).map Prod.fst)) rekeyed = .ok b' :=
    moveDerived_done hfaults _ htarget
  have hmoves : transferDerivedWith faults rekeyed source target stored.id =
      .ok (b', (derivedRows rekeyed source stored.id).map Prod.fst) := by
    unfold transferDerivedWith
    rw [hrun, ok_bind]
    dsimp only
    rw [hfold, ok_bind]
  have hback : DocTable.readOne b'.scratchpads target name = some (stored.withProject target) := by
    rw [(moveDerived_fold hfold).1]
    exact DocTable.find_updateProject hfree hread
  refine ⟨b', (derivedRows rekeyed source stored.id).map Prod.fst, ?_⟩
  unfold transferBody
  rw [hrun, ok_bind, hrun, ok_bind]
  split
  next revision htaken =>
    rw [hfree] at htaken
    cases htaken
  next =>
    rw [hrun, ok_bind, hread]
    dsimp only
    rw [hrun, ok_bind, if_pos htarget, hmoves, ok_bind]
    dsimp only
    rw [hrun, ok_bind, hback]
    dsimp only
    rw [hrun, ok_bind]

/-- A transfer that fails changes nothing, and one that is done moves the derived todos with the
blockers among them; of the todos that stay, a blocker that moved away counts as met. -/
theorem scratchpadTransfer_links (faults : TransferFaults) (b : Board) (source : ProjectId)
    (name : String) (target : ProjectId) :
    let transfer := b.scratchpadTransferWith faults source name target
    (∃ stored moved, transfer.2 = .ok (.transferred stored, moved) ∧
      LinksKept b transfer.1 source target stored.id moved) ∨
    transfer.1 = b ∧ ∀ stored moved, transfer.2 ≠ .ok (.transferred stored, moved) := by
  dsimp only
  unfold scratchpadTransferWith
  cases hbody : transferBody faults b source name target with
  | error e => exact .inr ⟨rfl, fun stored moved he => by cases he⟩
  | ok done =>
    obtain ⟨b', outcome, moved⟩ := done
    rcases transferBody_ok hbody with ⟨rfl, hnot⟩ | ⟨stored, rfl, hlinks⟩
    · refine .inr ⟨rfl, fun stored moved he => ?_⟩
      exact hnot stored (Prod.mk.inj (Except.ok.inj he)).1
    · exact .inl ⟨stored, moved, rfl, hlinks⟩

end Board

def blockedByDerived : List TodoOp :=
  [.addProject, .addProject, .scratchpadWrite 1 "plan" "" none 0,
    .create 1 ⟨"task", "body", .open⟩ (some 1), .create 1 ⟨"next", "body", .open⟩ none,
    .addBlocker 1 2 1]

/-- The todo that stays is still blocked by id by the one that has gone. -/
theorem blocker_left_behind :
    ∃ b, boardMachine.Reachable b ∧
      let transfer := b.scratchpadTransferWith (fun _ => none) 1 "plan" 2
      (∃ stored moved, transfer.2 = .ok (.transferred stored, moved)) ∧
      ∃ r ∈ transfer.1.todos.rows, r.project = 1 ∧
        ∃ s ∈ transfer.1.todos.rows, s.id ∈ r.blockers ∧ s.project = 2 := by
  refine ⟨_, reachable_after blockedByDerived, ?_⟩
  have hread : DocTable.readOne (Board.empty.after blockedByDerived).scratchpads 1 "plan" =
      some ⟨1, 1, "plan", "", [], false, 1, 0⟩ := by decide
  have hfree : DocTable.currentRevision (Board.empty.after blockedByDerived).scratchpads 2 "plan" =
      none := by decide
  have htarget : ProjectTable.contains (Board.empty.after blockedByDerived).projects 2 = true := by
    decide
  have hrows : (Board.empty.after blockedByDerived).todos.rows =
      [⟨1, 1, ⟨"task", "body", .open⟩, [], [], [], none, none, some 1, 1⟩,
        ⟨2, 1, ⟨"next", "body", .open⟩, [], [1], [], none, none, none, 1⟩] := by decide
  generalize Board.empty.after blockedByDerived = b at hread hfree htarget hrows
  obtain ⟨b', moved, hbody⟩ := Board.transferBody_done (fun _ => rfl) hfree hread htarget
  have hdone : b.scratchpadTransferWith (fun _ => none) 1 "plan" 2 =
      (b', .ok (.transferred (StoredDoc.withProject 2 ⟨1, 1, "plan", "", [], false, 1, 0⟩),
        moved)) := by
    unfold Board.scratchpadTransferWith
    rw [hbody]
  rw [hdone]
  refine ⟨⟨_, _, rfl⟩, ?_⟩
  rcases Board.transferBody_ok hbody with ⟨-, hnot⟩ | ⟨stored, hstored, hlinks⟩
  · exact absurd rfl (hnot _)
  · cases hstored
    have hmoved : ∀ id, id ∈ moved ↔ id = 1 := by
      intro id
      rw [hlinks.derived, hrows]
      simp [StoredDoc.withProject, eq_comm]
    dsimp only
    rw [hlinks.rows, hrows]
    simp [hmoved]

end Soloist
