import Mathlib.Data.List.Sort
import Soloist.Doc.DocTable
import Soloist.Text

/-! The placeholder tokenizer: literal text interleaved with `{{name}}` markers, of which
a backslash suppresses one. -/
open List Option

namespace Soloist

/-- One piece of a scanned body. -/
inductive Token
  | literal (text : List Char)
  /-- `name` is the trimmed inner text and `raw` the whole span. -/
  | placeholder (name raw : List Char)
  /-- An escaped marker: its backslash is consumed. -/
  | escapedOpen
  deriving DecidableEq, Repr

/-- The text before the first two adjacent `brace`, and the text after them. -/
def splitAtPair (brace : Char) : List Char → Option (List Char × List Char)
  | [] => none
  | c :: rest =>
    if c = brace ∧ rest.head? = some brace then some ([], rest.tail)
    else (splitAtPair brace rest).map fun split => (c :: split.1, split.2)

theorem splitAtPair_append {brace : Char} {text before after : List Char}
    (h : splitAtPair brace text = some (before, after)) :
    text = before ++ brace :: brace :: after := by
  induction text generalizing before with
  | nil => cases h
  | cons c rest ih =>
    rw [splitAtPair] at h
    split_ifs at h with hpair
    · obtain ⟨rfl, rfl⟩ := Prod.mk.inj (some.inj h)
      obtain ⟨rfl, hhead⟩ := hpair
      cases rest with
      | nil => cases hhead
      | cons d rest =>
        cases hhead
        rfl
    · obtain ⟨⟨first, last⟩, hrest, hsplit⟩ := map_eq_some_iff.mp h
      obtain ⟨rfl, rfl⟩ := Prod.mk.inj hsplit
      rw [ih hrest, cons_append]

/-- What follows an unescaped opening: a candidate up to the first closing, whose name must be a
plain one. -/
def scanMarker (kept inner : List Char) : List Char × Token × List Char :=
  match splitAtPair '}' inner with
  | none => (kept, .literal ('{' :: '{' :: inner), [])
  | some (body, remaining) =>
    let raw := '{' :: '{' :: body ++ ['}', '}']
    let name := (trim (String.ofList body)).toList
    (kept, if name = [] || name.any (fun c => c = '{' || c = '}' || c = '\n') then .literal raw
      else .placeholder name raw, remaining)

def scanStep (rest : List Char) : List Char × Token × List Char :=
  match splitAtPair '{' rest with
  | none => ([], .literal rest, [])
  | some (before, inner) =>
    let escapes := (before.reverse.takeWhile (· = '\\')).length
    -- each pair of backslashes is one literal backslash
    let kept := before.take (before.length - escapes + escapes / 2)
    if escapes % 2 = 1 then (kept, .escapedOpen, inner) else scanMarker kept inner

def scanFrom : ℕ → List Char → List Token
  | 0, _ | _ + 1, [] => []
  | fuel + 1, c :: rest =>
    let next := scanStep (c :: rest)
    (if next.1 = [] then [] else [.literal next.1]) ++ next.2.1 :: scanFrom fuel next.2.2

def scan (body : String) : List Token := scanFrom body.toList.length body.toList

theorem scanMarker_le (kept inner : List Char) :
    (scanMarker kept inner).2.2.length ≤ inner.length := by
  unfold scanMarker
  cases hclose : splitAtPair '}' inner with
  | none => exact Nat.zero_le _
  | some split =>
    obtain ⟨body, remaining⟩ := split
    have hinner := congrArg List.length (splitAtPair_append hclose)
    simp only [List.length_append, length_cons] at hinner
    show remaining.length ≤ inner.length
    omega

theorem scanStep_lt {rest : List Char} (h : rest ≠ []) :
    (scanStep rest).2.2.length < rest.length := by
  unfold scanStep
  cases hopen : splitAtPair '{' rest with
  | none => exact length_pos_of_ne_nil h
  | some split =>
    obtain ⟨before, inner⟩ := split
    have hrest := congrArg List.length (splitAtPair_append hopen)
    simp only [List.length_append, length_cons] at hrest
    dsimp only
    split_ifs
    · show inner.length < rest.length
      omega
    · have hmarker := scanMarker_le (before.take (before.length -
        (before.reverse.takeWhile (· = '\\')).length +
        (before.reverse.takeWhile (· = '\\')).length / 2)) inner
      omega

def placeholders (body : String) : List String :=
  (scan body).foldl (fun names token =>
    match token with
    | .placeholder name _ =>
      if String.ofList name ∈ names then names else names ++ [String.ofList name]
    | _ => names) []

/-- The count stops at the first name past the limit. -/
def declaresMorePlaceholdersThan (body : String) (limit : ℕ) : Bool :=
  limit < (placeholders body).length

end Soloist

/-! Templates and their durable rows. The global scope is a null project, which the scope clause
compares as 0. -/
namespace Soloist

abbrev TemplateId := ℕ

inductive TemplateKind
  | prompt
  | scratchpad
  | todo
  | pr
  deriving DecidableEq, Repr

inductive TemplateScope
  | global
  | project
  deriving DecidableEq, Repr

structure StoredTemplate where
  id : TemplateId
  kind : TemplateKind
  /-- The owning project, or the global scope. -/
  project : Option ProjectId
  name : String
  description : Option String
  body : String
  revision : ℕ
  deriving DecidableEq, Repr

inductive TemplateWriteResult
  | written (stored : StoredTemplate)
  | conflict (actual : Option ℕ)
  deriving DecidableEq, Repr

/-- The rows one listing reads, under the null-safe comparison of the scope. -/
abbrev TemplateGroup := TemplateKind × ℕ

def scopeParam (project : Option ProjectId) : ℕ := project.getD 0

namespace StoredTemplate

def group (r : StoredTemplate) : TemplateGroup := (r.kind, scopeParam r.project)

def slot (r : StoredTemplate) : TemplateGroup × String := (r.group, r.name)

def withBody (description : Option String) (body : String) (revision : ℕ) (r : StoredTemplate) :
    StoredTemplate :=
  { r with description, body, revision }

end StoredTemplate

abbrev TemplateTable := SlotTable StoredTemplate.id StoredTemplate.slot

/-- What the statements of one store call meet: a failure that leaves the row as it was, or, for a
write, one of reading the row back behind it. -/
structure TemplateFaults where
  statement : Option StoreError
  readBack : Option StoreError
  deriving DecidableEq, Repr

namespace TemplateTable
variable (t : TemplateTable) (projects : ProjectTable) (kind : TemplateKind)
  (project : Option ProjectId) (name : String)

def readOne : Option StoredTemplate := t.find ((kind, scopeParam project), name)

def currentRevision : Option ℕ := (readOne t kind project name).map StoredTemplate.revision

def rowsOf (g : TemplateGroup) : List StoredTemplate :=
  (t.rows.filter fun r => r.group = g).insertionSort fun a b => a.name ≤ b.name

def list : List StoredTemplate := rowsOf t (kind, scopeParam project)

def count : ℕ := (t.rows.filter fun r => r.group = (kind, scopeParam project)).length

theorem slot_ne_of_absent {t : TemplateTable} {kind : TemplateKind} {project : Option ProjectId}
    {name : String} (h : currentRevision t kind project name = none) :
    ∀ r ∈ t.rows, r.slot ≠ ((kind, scopeParam project), name) :=
  SlotTable.find_eq_none.mp (map_eq_none_iff.mp h)

def updateBody (description : Option String) (body : String) (revision : ℕ) : TemplateTable :=
  SlotTable.update t (fun r => r.slot = ((kind, scopeParam project), name))
    (.withBody description body revision) (fun _ => rfl) (fun _ => rfl)

def insert (description : Option String) (body : String)
    (h : currentRevision t kind project name = none) : TemplateTable :=
  SlotTable.append t ⟨t.seq + 1, kind, project, name, description, body, 1⟩ rfl (slot_ne_of_absent h)

/-- The row just written, as the call reports it. -/
def readBack (step : String) (fault : Option StoreError) :
    Except StoreError TemplateWriteResult :=
  match fault, readOne t kind project name with
  | some e, _ => .error e
  | none, some stored => .ok (.written stored)
  | none, none => .error (vanished "template" step)

def write (description : Option String) (body : String) (expected : Option ℕ)
    (faults : TemplateFaults) : TemplateTable × Except StoreError TemplateWriteResult :=
  match faults.statement with
  | some e => (t, .error e)
  | none =>
    match h : currentRevision t kind project name, expected with
    | some revision, some expected =>
      if revision = expected then
        let t' := updateBody t kind project name description body (revision + 1)
        (t', readBack t' kind project name "write" faults.readBack)
      else (t, .ok (.conflict (some revision)))
    | none, none =>
      if project.all (ProjectTable.contains projects) then
        let t' := insert t kind project name description body h
        (t', readBack t' kind project name "create" faults.readBack)
      else (t, .error .foreignKey)
    | actual, _ => (t, .ok (.conflict actual))

def delete (fault : Option StoreError) : TemplateTable × Except StoreError Bool :=
  match fault with
  | some e => (t, .error e)
  | none =>
    (SlotTable.delete t fun r => r.slot = ((kind, scopeParam project), name),
      .ok (readOne t kind project name).isSome)

/-- The foreign key cascade of a project's removal. -/
def dropProject (p : ProjectId) : TemplateTable := SlotTable.delete t fun r => r.project = some p

section Groups
variable {t projects kind project name}

variable {g : TemplateGroup}

theorem rowsOf_congr {t u : TemplateTable}
    (h : t.rows.filter (fun r => r.group = g) = u.rows.filter fun r => r.group = g) :
    rowsOf t g = rowsOf u g := by
  rw [rowsOf, rowsOf, h]

theorem rowsOf_updateBody (description : Option String) (body : String) (revision : ℕ)
    (hg : g ≠ (kind, scopeParam project)) :
    rowsOf (updateBody t kind project name description body revision) g = rowsOf t g := by
  apply rowsOf_congr
  show (t.rows.map _).filter _ = _
  have hgroup : ((fun r : StoredTemplate => decide (r.group = g)) ∘ fun r =>
      if decide (r.slot = ((kind, scopeParam project), name)) = true then
        r.withBody description body revision else r) = fun r => decide (r.group = g) := by
    funext r
    show decide (StoredTemplate.group (if _ then _ else _) = g) = decide (r.group = g)
    split_ifs
    · rfl
    · rfl
  rw [List.filter_map, hgroup]
  have hkeep : ∀ r ∈ t.rows.filter (fun r => r.group = g),
      (if decide (r.slot = ((kind, scopeParam project), name)) = true then
        r.withBody description body revision else r) = r := by
    intro r hr
    have hrg : r.group = g := of_decide_eq_true (mem_filter.mp hr).2
    have hne : r.slot ≠ ((kind, scopeParam project), name) :=
      fun hslot => hg (hrg.symm.trans (congrArg Prod.fst hslot))
    simp [hne]
  exact (map_congr_left hkeep).trans (List.map_id _)

theorem rowsOf_insert (description : Option String) (body : String)
    (h : currentRevision t kind project name = none) (hg : g ≠ (kind, scopeParam project)) :
    rowsOf (insert t kind project name description body h) g = rowsOf t g := by
  apply rowsOf_congr
  show (t.rows ++ [_]).filter _ = _
  have hne : ¬StoredTemplate.group ⟨t.seq + 1, kind, project, name, description, body, 1⟩ = g :=
    fun heq => hg heq.symm
  simp [filter_append, hne]

theorem rowsOf_filter (p : StoredTemplate → Bool) (hp : ∀ r, r.group = g → p r = false) :
    rowsOf (SlotTable.delete t p) g = rowsOf t g := by
  apply rowsOf_congr
  show (t.rows.filter _).filter _ = _
  rw [List.filter_filter]
  apply filter_congr
  intro r _
  by_cases hr : r.group = g
  · simp [hr, hp r hr]
  · simp [hr]

theorem rowsOf_delete (fault : Option StoreError) (hg : g ≠ (kind, scopeParam project)) :
    rowsOf (delete t kind project name fault).1 g = rowsOf t g := by
  unfold delete
  cases fault with
  | some e => rfl
  | none =>
    apply rowsOf_filter
    intro r hr
    rw [decide_eq_false_iff_not]
    exact fun hslot => hg (hr.symm.trans (congrArg Prod.fst hslot))

theorem rowsOf_dropProject {p : ProjectId} (hg : g.2 ≠ p) :
    rowsOf (dropProject t p) g = rowsOf t g := by
  apply rowsOf_filter
  rintro r rfl
  rw [decide_eq_false_iff_not]
  intro hproject
  apply hg
  show scopeParam r.project = p
  rw [hproject]
  rfl

theorem rowsOf_delete_absent {fault : Option StoreError} (g : TemplateGroup)
    (h : ∀ removed, (delete t kind project name fault).2 = .ok removed → removed = false) :
    rowsOf (delete t kind project name fault).1 g = rowsOf t g := by
  unfold delete at h ⊢
  cases fault with
  | some e => rfl
  | none =>
    have habsent : t.find ((kind, scopeParam project), name) = none := by
      have hnone := h _ rfl
      rwa [readOne, isSome_eq_false_iff, isNone_iff_eq_none] at hnone
    apply congrArg (List.insertionSort _)
    show (t.rows.filter _).filter _ = _
    rw [List.filter_filter]
    apply filter_congr
    intro r hr
    simp [SlotTable.find_eq_none.mp habsent r hr]

theorem readOne_updateBody {r : StoredTemplate} (hr : readOne t kind project name = some r)
    (description : Option String) (body : String) (revision : ℕ) :
    readOne (updateBody t kind project name description body revision) kind project name =
      some (r.withBody description body revision) := by
  have hfind := SlotTable.find_update t (fun r => r.slot = ((kind, scopeParam project), name))
    (.withBody description body revision) (fun _ => rfl) (fun _ => rfl)
    ((kind, scopeParam project), name)
  rw [readOne] at hr
  have hslot := (SlotTable.find_eq_some.mp hr).2
  rw [hr, map_some, if_pos (decide_eq_true hslot)] at hfind
  exact hfind

theorem readOne_insert (description : Option String) (body : String)
    (h : currentRevision t kind project name = none) :
    readOne (insert t kind project name description body h) kind project name =
      some ⟨t.seq + 1, kind, project, name, description, body, 1⟩ := by
  have hfind := SlotTable.find_append t ⟨t.seq + 1, kind, project, name, description, body, 1⟩ rfl
    (slot_ne_of_absent h) ((kind, scopeParam project), name)
  exact hfind.trans (if_pos rfl)

theorem readBack_of_readOne {stored : StoredTemplate} (h : readOne t kind project name = some stored)
    (step : String) : readBack t kind project name step none = .ok (.written stored) := by
  simp [readBack, h]

/-- Unless reading the row back fails, a write reports the row it stored, or leaves the table as it
was. -/
theorem write_cases (description : Option String) (body : String) (expected : Option ℕ)
    {faults : TemplateFaults} (hread : faults.readBack = none) :
    (∃ stored, (write t projects kind project name description body expected faults).2 =
      .ok (.written stored)) ∨
    (write t projects kind project name description body expected faults).1 = t := by
  unfold write
  cases faults.statement with
  | some e => exact .inr rfl
  | none =>
    dsimp only
    split
    next revision expected' hcur =>
      split_ifs with hrev
      · obtain ⟨r, hr, -⟩ := map_eq_some_iff.mp hcur
        left
        rw [hread]
        exact ⟨_, readBack_of_readOne (readOne_updateBody hr description body (revision + 1)) _⟩
      · exact .inr rfl
    next hcur =>
      split_ifs with hp
      · left
        rw [hread]
        exact ⟨_, readBack_of_readOne (readOne_insert description body hcur) _⟩
      · exact .inr rfl
    next => exact .inr rfl

theorem rowsOf_write (description : Option String) (body : String) (expected : Option ℕ)
    (faults : TemplateFaults) (hg : g ≠ (kind, scopeParam project)) :
    rowsOf (write t projects kind project name description body expected faults).1 g =
      rowsOf t g := by
  unfold write
  cases faults.statement with
  | some e => rfl
  | none =>
    dsimp only
    split
    next =>
      split_ifs
      · exact rowsOf_updateBody description body _ hg
      · rfl
    next hcur =>
      split_ifs
      · exact rowsOf_insert description body hcur hg
      · rfl
    next => rfl

end Groups

end TemplateTable
end Soloist
