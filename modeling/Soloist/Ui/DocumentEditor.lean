import Soloist.Doc.Revisions
import Soloist.Machine

/-! The document editors: a scratchpad, diagram, template or to-do open at a time, whose body is
saved guarded by the revision it was read at. Reads carry a number and are dropped when superseded;
the answers to saves, creations and renames are not. -/
namespace Soloist.Ui

inductive EditorKind
  | scratchpad
  | diagram
  | template
  | todo
  deriving DecidableEq, Repr

namespace EditorKind

/-- A document is read when it is opened; a to-do comes with the board. -/
def reads : EditorKind → Bool
  | scratchpad | diagram | template => true
  | todo => false

def renames : EditorKind → Bool
  | scratchpad | diagram => true
  | template | todo => false

/-- A new name is a new key for the body of a scratchpad. -/
def remounts : EditorKind → Bool
  | scratchpad => true
  | diagram | template | todo => false

def expects : EditorKind → Option ℕ → Option (Option ℕ)
  | scratchpad, guard | diagram, guard => some guard
  | template, guard => guard.map some
  | todo, guard => some (some (guard.getD 0))

def closedGuard : EditorKind → Option ℕ → Option ℕ
  | scratchpad, _ | diagram, _ | todo, _ => none
  | template, guard => guard

end EditorKind

/-- A body in the editor: the handle that its saves go to, what it was loaded as, and what it was
loaded or last saved as. -/
structure Mount (κ β : Type*) where
  handle : κ
  seed : Revised β
  base : Revised β

structure LoadRequest (κ β : Type*) where
  request : ℕ
  target : κ
  answer : Option (Option (Revised β))

structure SaveRequest (κ β : Type*) where
  /-- The body that is saved, and what it was based on when the save was issued. -/
  mount : ℕ
  base : Revised β
  target : κ
  expected : Option ℕ
  body : β
  answer : Option (Option (Revised β))

structure RenameRequest (κ : Type*) where
  opening : ℕ
  /-- The document that was open. -/
  document : ℕ
  source : κ
  target : κ
  answer : Option Bool

structure CreateRequest (β : Type*) where
  opening : ℕ
  body : β
  answer : Option Bool

structure AcceptedSave (β : Type*) where
  base : Revised β
  expected : Option ℕ
  overwritten : Option (Revised β)

/-- An editor, the documents in the core, and the requests between them. -/
structure DocumentEditor (κ β : Type*) where
  stored : Revisions κ β
  /-- The handle of the open document. -/
  name : Option κ
  baseRevision : Option ℕ
  loadRequest : ℕ
  /-- The form for a new to-do is open. -/
  creating : Bool
  /-- The bodies mounted so far, by mount key, and the one in the editor. -/
  mounts : List (Mount κ β)
  mounted : Option ℕ
  /-- How often a document was opened or closed, and which one the open editor has had. -/
  opening : ℕ
  document : Option ℕ
  /-- The to-dos that the board has shown. -/
  board : List (κ × Revised β)
  loads : List (LoadRequest κ β)
  saves : List (SaveRequest κ β)
  renames : List (RenameRequest κ)
  creates : List (CreateRequest β)
  accepted : List (AcceptedSave β)

inductive EditorEvent (κ β : Type*)
  /-- Another writer creates or replaces a document. -/
  | write (handle : κ) (body : β) (expected : Option ℕ)
  | show (handle : κ)
  | open (handle : κ)
  | edit (shown : ℕ)
  | startCreate
  | reload
  | close
  | serveLoad (load : ℕ) (fails : Bool)
  | respondLoad (load : ℕ)
  | save (mount : ℕ) (body : β)
  | serveSave (save : ℕ) (refused : Bool)
  | respondSave (save : ℕ)
  | rename (target : κ)
  | serveRename (rename : ℕ)
  | respondRename (rename : ℕ)
  | create (body : β)
  | serveCreate (create : ℕ) (handle : κ) (refused : Bool)
  | respondCreate (create : ℕ)

namespace DocumentEditor
variable {κ β : Type*}

def new (stored : Revisions κ β) : DocumentEditor κ β where
  stored
  name := none
  baseRevision := none
  loadRequest := 0
  creating := false
  mounts := []
  mounted := none
  opening := 0
  document := none
  board := []
  loads := []
  saves := []
  renames := []
  creates := []
  accepted := []

def load (s : DocumentEditor κ β) (target : κ) : DocumentEditor κ β :=
  { s with
    loadRequest := s.loadRequest + 1
    loads := s.loads ++ [⟨s.loadRequest + 1, target, none⟩] }

def close (kind : EditorKind) (s : DocumentEditor κ β) : DocumentEditor κ β :=
  { s with
    name := none
    baseRevision := kind.closedGuard s.baseRevision
    loadRequest := s.loadRequest + 1
    creating := false
    mounted := none
    opening := s.opening + 1
    document := none }

def mount (s : DocumentEditor κ β) (handle : κ) (view : Revised β) : DocumentEditor κ β :=
  { s with
    baseRevision := some view.revision
    mounts := s.mounts ++ [⟨handle, view, view⟩]
    mounted := some s.mounts.length
    document := some view.id }

def seedEdit (s : DocumentEditor κ β) (handle : κ) (view : Revised β) : DocumentEditor κ β :=
  { s with name := some handle, creating := false, opening := s.opening + 1 }.mount handle view

/-- The answer to the latest read seeds the editor, or leaves it empty. -/
def loaded (s : DocumentEditor κ β) : Option (Revised β) → DocumentEditor κ β
  | some view =>
    match s.name with
    | some name => s.mount name view
    | none => { s with baseRevision := some view.revision }
  | none => { s with mounted := none }

/-- The editor under a new handle. A scratchpad is mounted again under it, as it was loaded; the
other bodies go on. -/
def repoint [DecidableEq κ] (kind : EditorKind) (s : DocumentEditor κ β) (target : κ) :
    DocumentEditor κ β :=
  match s.mounted with
  | none => { s with name := some target }
  | some k =>
    if kind.remounts ∧ s.name ≠ some target then
      { s with
        name := some target
        mounts := s.mounts ++ (s.mounts[k]?.map fun mount => ⟨target, mount.seed, mount.seed⟩).toList
        mounted := some s.mounts.length }
    else
      { s with
        name := some target
        mounts := s.mounts.modify k fun mount => { mount with handle := target } }

/-- Where a save goes: the handle of the render it was made in, or the to-do that is open. -/
def addressee (kind : EditorKind) (s : DocumentEditor κ β) (mount : Mount κ β) : Option κ :=
  if kind.reads then some mount.handle else s.name

def step [DecidableEq κ] (kind : EditorKind) (s : DocumentEditor κ β) :
    EditorEvent κ β → Option (DocumentEditor κ β)
  | .write handle body expected =>
    match s.stored.write handle body expected with
    | some (stored, _) => some { s with stored }
    | none => some s
  | .show handle =>
    match kind.reads, s.stored.docs handle with
    | false, some view => some { s with board := s.board ++ [(handle, view)] }
    | false, none | true, _ => none
  | .open handle =>
    if kind.reads then
      let opened := { s with
        name := some handle
        baseRevision := none
        mounted := none
        opening := s.opening + 1
        document := none }
      some (opened.load handle)
    else none
  | .edit shown =>
    match kind.reads, s.board[shown]? with
    | false, some (handle, view) => some (s.seedEdit handle view)
    | false, none | true, _ => none
  | .startCreate =>
    if kind.reads then none else some { s.close kind with creating := true }
  | .reload =>
    match kind.reads, s.name with
    | true, some name => some (s.load name)
    | true, none | false, _ => none
  | .close => some (s.close kind)
  | .serveLoad i fails =>
    match s.loads[i]? with
    | some ⟨request, target, none⟩ =>
      let answer := if fails then none else s.stored.docs target
      some { s with loads := s.loads.set i ⟨request, target, some answer⟩ }
    | some ⟨_, _, some _⟩ | none => none
  | .respondLoad i =>
    match s.loads[i]? with
    | some ⟨request, _, some answer⟩ =>
      let answered := { s with loads := s.loads.eraseIdx i }
      some (if request = s.loadRequest then answered.loaded answer else answered)
    | some ⟨_, _, none⟩ | none => none
  | .save k body =>
    match s.mounts[k]? with
    | some mount =>
      match s.addressee kind mount, kind.expects s.baseRevision with
      | some target, some expected =>
        some { s with saves := s.saves ++ [⟨k, mount.base, target, expected, body, none⟩] }
      | some _, none => some s
      -- without a to-do to save to, it is posted as a new one
      | none, _ => some { s with creates := s.creates ++ [⟨s.opening, body, none⟩] }
    | none => none
  | .serveSave i refused =>
    match s.saves[i]? with
    | some ⟨mount, base, target, expected, body, none⟩ =>
      match refused, s.stored.write target body expected with
      | false, some (stored, view) =>
        some { s with
          stored
          saves := s.saves.set i ⟨mount, base, target, expected, body, some (some view)⟩
          accepted := s.accepted ++ [⟨base, expected, s.stored.docs target⟩] }
      | false, none | true, _ => some { s with
          saves := s.saves.set i ⟨mount, base, target, expected, body, some none⟩ }
    | some ⟨_, _, _, _, _, some _⟩ | none => none
  | .respondSave i =>
    match s.saves[i]? with
    | some ⟨k, _, _, _, _, some (some view)⟩ =>
      some { s with
        baseRevision := some view.revision
        mounts := s.mounts.modify k fun mount => { mount with base := view }
        saves := s.saves.eraseIdx i }
    | some ⟨_, _, _, _, _, some none⟩ => some { s with saves := s.saves.eraseIdx i }
    | some ⟨_, _, _, _, _, none⟩ | none => none
  | .rename target =>
    match kind.renames, s.mounted, s.name, s.document with
    | true, some _, some name, some document =>
      some { s with renames := s.renames ++ [⟨s.opening, document, name, target, none⟩] }
    | _, _, _, _ => none
  | .serveRename i =>
    match s.renames[i]? with
    | some ⟨opening, document, source, target, none⟩ =>
      match s.stored.rename source target with
      | some stored => some { s with
          stored
          renames := s.renames.set i ⟨opening, document, source, target, some true⟩ }
      | none => some { s with
          renames := s.renames.set i ⟨opening, document, source, target, some false⟩ }
    | some ⟨_, _, _, _, some _⟩ | none => none
  | .respondRename i =>
    match s.renames[i]? with
    | some ⟨_, _, _, target, some true⟩ =>
      some ({ s with renames := s.renames.eraseIdx i }.repoint kind target)
    | some ⟨_, _, _, _, some false⟩ => some { s with renames := s.renames.eraseIdx i }
    | some ⟨_, _, _, _, none⟩ | none => none
  | .create body =>
    if s.creating then some { s with creates := s.creates ++ [⟨s.opening, body, none⟩] } else none
  | .serveCreate i handle refused =>
    match s.creates[i]? with
    | some ⟨opening, body, none⟩ =>
      match refused, s.stored.write handle body none with
      | false, some (stored, _) =>
        some { s with stored, creates := s.creates.set i ⟨opening, body, some true⟩ }
      -- a new to-do has a handle of its own
      | false, none => none
      | true, _ => some { s with creates := s.creates.set i ⟨opening, body, some false⟩ }
    | some ⟨_, _, some _⟩ | none => none
  | .respondCreate i =>
    match s.creates[i]? with
    | some ⟨_, _, some true⟩ => some ({ s with creates := s.creates.eraseIdx i }.close kind)
    | some ⟨_, _, some false⟩ => some { s with creates := s.creates.eraseIdx i }
    | some ⟨_, _, none⟩ | none => none

def namings (s : DocumentEditor κ β) : List (κ × ℕ) :=
  (s.name.toList.flatMap fun name => s.document.toList.map fun document => (name, document)) ++
  (s.saves.filterMap fun save =>
    if save.answer.isNone then some (save.target, save.base.id) else none) ++
  (s.renames.filterMap fun rename =>
    match rename.answer with
    | none => some (rename.source, rename.document)
    | some true => some (rename.target, rename.document)
    | some false => none) ++
  (s.loads.filterMap fun load =>
    if load.request = s.loadRequest ∧ s.document = none then
      load.answer.join.map fun view => (load.target, view.id)
    else none) ++
  s.board.map fun shown => (shown.1, shown.2.id)

/-- A step at which every answer is to the document that is open, only the body that the guard
belongs to is saved, no body is mounted again that was saved since it was loaded, and no handle
comes to mean another document while it is still meant. -/
def Guarded (kind : EditorKind) (s : DocumentEditor κ β) : EditorEvent κ β → Prop
  | .write handle _ expected =>
    expected = none → s.stored.docs handle = none → ∀ naming ∈ s.namings, naming.1 ≠ handle
  | .respondLoad i => ∀ load ∈ s.loads[i]?, load.request = s.loadRequest →
      ∀ answer ∈ load.answer, ∀ view ∈ answer, ∀ document ∈ s.document, document = view.id
  | .save k _ => ∀ mount ∈ s.mounts[k]?, s.mounted = some k ∨
      (kind.reads ∨ s.name = none ∨ s.name = some mount.handle) ∧
        s.baseRevision = some mount.base.revision ∧
        ∀ doc ∈ s.stored.docs mount.handle, doc.id = mount.base.id
  | .respondSave i => ∀ save ∈ s.saves[i]?, ∀ answer ∈ save.answer, ∀ view ∈ answer,
      s.mounted = some save.mount ∨ s.name = none ∨ s.baseRevision = some view.revision
  | .serveRename i => ∀ rename ∈ s.renames[i]?, s.stored.docs rename.target = none →
      ∀ naming ∈ s.namings, naming.1 = rename.target → naming.2 = rename.document
  | .respondRename i => ∀ rename ∈ s.renames[i]?, rename.answer = some true →
      (rename.opening = s.opening ∨ s.name = none ∨ s.name = some rename.target) ∧
        (kind.remounts → s.name ≠ some rename.target → ∀ k ∈ s.mounted, ∀ mount ∈ s.mounts[k]?,
          mount.seed.revision = mount.base.revision)
  | .serveCreate _ handle _ => ∀ naming ∈ s.namings, naming.1 ≠ handle
  | .respondCreate i => ∀ create ∈ s.creates[i]?, create.answer = some true →
      create.opening = s.opening ∨ s.name = none ∧ s.creating = false
  | _ => True

/-- The invariant of an editor: what is meant is what is there, the body in the editor and its guard
belong together, and whatever was read of a document is dated. -/
structure Sane (s : DocumentEditor κ β) : Prop where
  named : ∀ handle document, (handle, document) ∈ s.namings →
    ∀ doc, s.stored.docs handle = some doc → doc.id = document
  based : ∀ mount ∈ s.mounts, s.stored.Dated mount.base ∧ s.stored.Dated mount.seed ∧
    mount.seed.id = mount.base.id
  loads : ∀ load ∈ s.loads, load.request ≤ s.loadRequest ∧
    ∀ view, load.answer = some (some view) → s.stored.Dated view
  saves : ∀ save ∈ s.saves, s.stored.Dated save.base ∧
    (save.answer = none → save.expected = some save.base.revision) ∧
    (∀ view, save.answer = some (some view) → s.stored.Dated view ∧ view.id = save.base.id) ∧
    ∃ mount, s.mounts[save.mount]? = some mount ∧ mount.base.id = save.base.id
  board : ∀ shown ∈ s.board, s.stored.Dated shown.2
  mounted : ∀ k, s.mounted = some k → ∃ mount, s.mounts[k]? = some mount ∧
    s.name = some mount.handle ∧ s.baseRevision = some mount.base.revision ∧
    s.document = some mount.base.id
  closed : s.name = none → s.document = none
  reading : s.document = none → ∀ load ∈ s.loads, load.request = s.loadRequest →
    s.name = some load.target
  renames : ∀ rename ∈ s.renames, rename.opening ≤ s.opening ∧
    (rename.opening = s.opening → s.document = some rename.document)
  accepted : ∀ save ∈ s.accepted, save.expected = some save.base.revision ∧
    save.overwritten = some save.base

variable {kind : EditorKind} {s t : DocumentEditor κ β} {handle : κ} {document : ℕ}

theorem mem_namings : (handle, document) ∈ s.namings ↔
    (s.name = some handle ∧ s.document = some document) ∨
    (∃ save ∈ s.saves, save.answer = none ∧ save.target = handle ∧ save.base.id = document) ∨
    (∃ rename ∈ s.renames, rename.document = document ∧
      (rename.answer = none ∧ rename.source = handle ∨
        rename.answer = some true ∧ rename.target = handle)) ∨
    (∃ load ∈ s.loads, load.request = s.loadRequest ∧ s.document = none ∧ load.target = handle ∧
      ∃ view, load.answer = some (some view) ∧ view.id = document) ∨
    ∃ shown ∈ s.board, shown.1 = handle ∧ shown.2.id = document := by
  unfold namings
  simp only [List.mem_append, List.mem_flatMap, List.mem_filterMap, List.mem_map, Prod.mk.injEq,
    Option.mem_toList, or_assoc]
  refine or_congr ?_ (or_congr ?_ (or_congr ?_ (or_congr ?_ Iff.rfl)))
  · constructor
    · rintro ⟨name, hname, id, hid, rfl, rfl⟩
      exact ⟨hname, hid⟩
    · rintro ⟨hname, hid⟩
      exact ⟨handle, hname, document, hid, rfl, rfl⟩
  · refine exists_congr fun save => and_congr_right fun _ => ?_
    cases save.answer with
    | none => simp
    | some answer => simp
  · refine exists_congr fun rename => and_congr_right fun _ => ?_
    rcases rename.answer with - | - | -
    · simp [and_comm]
    · simp
    · simp [and_comm]
  · refine exists_congr fun load => and_congr_right fun _ => ?_
    by_cases hcurrent : load.request = s.loadRequest ∧ s.document = none
    · rw [if_pos hcurrent, Option.map_eq_some_iff]
      simp only [Option.join_eq_some_iff, Prod.mk.injEq, hcurrent, true_and]
      constructor
      · rintro ⟨view, hview, htarget, hid⟩
        exact ⟨htarget, view, hview, hid⟩
      · rintro ⟨htarget, view, hview, hid⟩
        exact ⟨view, hview, htarget, hid⟩
    · rw [if_neg hcurrent]
      constructor
      · intro h
        cases h
      · rintro ⟨hrequest, hdocument, -⟩
        exact absurd ⟨hrequest, hdocument⟩ hcurrent

/-- Each handle that an editor means, with the document meant, is as described. -/
structure Means (s : DocumentEditor κ β) (N : κ → ℕ → Prop) : Prop where
  shown : ∀ name document, s.name = some name → s.document = some document → N name document
  saves : ∀ save ∈ s.saves, save.answer = none → N save.target save.base.id
  renames : ∀ rename ∈ s.renames,
    (rename.answer = none → N rename.source rename.document) ∧
    (rename.answer = some true → N rename.target rename.document)
  loads : s.document = none → ∀ load ∈ s.loads, load.request = s.loadRequest →
    ∀ view, load.answer = some (some view) → N load.target view.id
  board : ∀ shown ∈ s.board, N shown.1 shown.2.id

theorem means_iff {N : κ → ℕ → Prop} :
    s.Means N ↔ ∀ handle document, (handle, document) ∈ s.namings → N handle document := by
  constructor
  · intro h handle document hnaming
    rcases mem_namings.mp hnaming with ⟨hname, hdocument⟩ | ⟨save, hsave, hnone, rfl, rfl⟩ |
      ⟨rename, hrename, rfl, ⟨hnone, rfl⟩ | ⟨htrue, rfl⟩⟩ |
      ⟨load, hload, hrequest, hdocument, rfl, view, hview, rfl⟩ | ⟨shown, hshown, rfl, rfl⟩
    · exact h.shown handle document hname hdocument
    · exact h.saves save hsave hnone
    · exact (h.renames rename hrename).1 hnone
    · exact (h.renames rename hrename).2 htrue
    · exact h.loads hdocument load hload hrequest view hview
    · exact h.board shown hshown
  · intro h
    constructor
    · intro name document hname hdocument
      exact h name document (mem_namings.mpr (.inl ⟨hname, hdocument⟩))
    · intro save hsave hnone
      exact h _ _ (mem_namings.mpr (.inr (.inl ⟨save, hsave, hnone, rfl, rfl⟩)))
    · intro rename hrename
      constructor
      · intro hnone
        exact h _ _ (mem_namings.mpr
          (.inr (.inr (.inl ⟨rename, hrename, rfl, .inl ⟨hnone, rfl⟩⟩))))
      · intro htrue
        exact h _ _ (mem_namings.mpr
          (.inr (.inr (.inl ⟨rename, hrename, rfl, .inr ⟨htrue, rfl⟩⟩))))
    · intro hdocument load hload hrequest view hview
      exact h _ _ (mem_namings.mpr (.inr (.inr (.inr
        (.inl ⟨load, hload, hrequest, hdocument, rfl, view, hview, rfl⟩)))))
    · intro shown hshown
      exact h _ _ (mem_namings.mpr (.inr (.inr (.inr (.inr ⟨shown, hshown, rfl, rfl⟩)))))

theorem Sane.means (hs : s.Sane) :
    s.Means fun handle document => ∀ doc, s.stored.docs handle = some doc → doc.id = document :=
  means_iff.mpr hs.named

end DocumentEditor
end Soloist.Ui
