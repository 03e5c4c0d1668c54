import Soloist.Ui.DocumentEditor

/-! What the steps of a document editor keep, and that a save it is answered for replaced just what
the saved body was based on. -/
open List Option Slots

namespace Soloist.Ui.DocumentEditor
variable {κ β : Type*} {kind : EditorKind} {s t : DocumentEditor κ β} {handle : κ} {document : ℕ}

variable {body : β} {expected : Option ℕ} {stored : Revisions κ β} {view : Revised β}

theorem sane_write [DecidableEq κ]
    (hs : s.Sane)
    (hwrite : s.stored.write handle body expected = some (stored, view))
    (hfresh : expected = none → s.stored.docs handle = none →
      ∀ naming ∈ s.namings, naming.1 ≠ handle) :
    Sane { s with stored } :=
  { hs with
    named i document hnaming doc hdoc := by
      rcases Revisions.write_eq_some hwrite with
        ⟨old, hold, -, rfl, hdocs, -⟩ | ⟨hnone, hexpected, rfl, hdocs, -⟩
      · rw [hdocs] at hdoc
        rcases put_eq_some.mp hdoc with ⟨rfl, rfl⟩ | ⟨-, hdoc⟩
        · exact hs.named i document hnaming old hold
        · exact hs.named i document hnaming doc hdoc
      · rw [hdocs] at hdoc
        rcases put_eq_some.mp hdoc with ⟨rfl, rfl⟩ | ⟨-, hdoc⟩
        · exact absurd rfl (hfresh hexpected hnone _ hnaming)
        · exact hs.named i document hnaming doc hdoc
    based mount hmount := by
      obtain ⟨hbase, hseed, hid⟩ := hs.based mount hmount
      exact ⟨hbase.write hwrite, hseed.write hwrite, hid⟩
    loads load hload :=
      ⟨(hs.loads load hload).1, fun view hview => ((hs.loads load hload).2 view hview).write hwrite⟩
    saves save hsave := by
      obtain ⟨hbase, hexpected, hanswer, hmount⟩ := hs.saves save hsave
      exact ⟨hbase.write hwrite, hexpected,
        fun view hview => ⟨(hanswer view hview).1.write hwrite, (hanswer view hview).2⟩, hmount⟩
    board shown hshown := (hs.board shown hshown).write hwrite }

variable {load : LoadRequest κ β}

variable (hs : s.Sane)
include hs

/-- No read begun so far answers the next request. -/
theorem Sane.request_ne (hload : load ∈ s.loads)
    (hrequest : load.request = s.loadRequest + 1) : False := by
  have hle := (hs.loads load hload).1
  omega

theorem Sane.begun (hload : load ∈ (s.load handle).loads)
    (hrequest : load.request = s.loadRequest + 1) : load = ⟨s.loadRequest + 1, handle, none⟩ := by
  rcases mem_append.mp hload with hload | hload
  · exact (hs.request_ne hload hrequest).elim
  · exact mem_singleton.mp hload

theorem Sane.loads_load (hload : load ∈ (s.load handle).loads) :
    load.request ≤ s.loadRequest + 1 ∧
      ∀ view, load.answer = some (some view) → s.stored.Dated view := by
  rcases mem_append.mp hload with hload | hload
  · exact ⟨Nat.le_succ_of_le (hs.loads load hload).1, (hs.loads load hload).2⟩
  · cases mem_singleton.mp hload
    refine ⟨Nat.le_refl _, fun view hview => ?_⟩
    cases hview

theorem Sane.renames_next {rename : RenameRequest κ} (hrename : rename ∈ s.renames)
    (document : Option ℕ) : rename.opening ≤ s.opening + 1 ∧
      (rename.opening = s.opening + 1 → document = some rename.document) := by
  have hle := (hs.renames rename hrename).1
  exact ⟨Nat.le_succ_of_le hle, fun hsame => by omega⟩

theorem sane_close : (s.close kind).Sane :=
  { hs with
    named := by
      have hmeans := hs.means
      refine means_iff.mp ⟨fun name document hname => ?_, hmeans.saves, hmeans.renames,
        fun _ load hload hrequest => ?_, hmeans.board⟩
      · cases hname
      · exact (hs.request_ne hload hrequest).elim
    loads load hload :=
      ⟨Nat.le_succ_of_le (hs.loads load hload).1, (hs.loads load hload).2⟩
    mounted k hmounted := by cases hmounted
    closed _ := rfl
    reading _ load hload hrequest := (hs.request_ne hload hrequest).elim
    renames rename hrename := hs.renames_next hrename none }

/-- A read that begins supersedes the others; it asks for the handle of the open document. -/
theorem sane_load (hname : s.name = some handle) : (s.load handle).Sane :=
  { hs with
    named := by
      have hmeans := hs.means
      refine means_iff.mp ⟨hmeans.shown, hmeans.saves, hmeans.renames,
        fun _ load hload hrequest view hview => ?_, hmeans.board⟩
      obtain rfl := hs.begun hload hrequest
      cases hview
    loads load hload := hs.loads_load hload
    reading _ load hload hrequest := by
      obtain rfl := hs.begun hload hrequest
      exact hname }

omit hs

variable {opening : ℕ}

variable {creating : Bool}

theorem sane_mount (hs : s.Sane) (hview : s.stored.Dated view) (hopening : s.opening ≤ opening)
    (hmeant : ∀ doc, s.stored.docs handle = some doc → doc.id = view.id)
    (hrenames : ∀ rename ∈ s.renames, rename.opening = opening → rename.document = view.id) :
    ({ s with name := some handle, creating, opening }.mount handle view).Sane :=
  { hs with
    named := by
      have hmeans := hs.means
      refine means_iff.mp ⟨fun name document hname hdocument => ?_, hmeans.saves, hmeans.renames,
        fun hnone => ?_, hmeans.board⟩
      · cases hname
        cases hdocument
        exact hmeant
      · cases hnone
    based mount hmount := by
      rcases mem_append.mp hmount with hmount | hmount
      · exact hs.based mount hmount
      · cases mem_singleton.mp hmount
        exact ⟨hview, hview, rfl⟩
    saves save hsave := by
      obtain ⟨hbase, hexpected, hanswer, mount, hmount, hid⟩ := hs.saves save hsave
      refine ⟨hbase, hexpected, hanswer, mount, ?_, hid⟩
      exact (getElem?_append_left (List.getElem?_eq_some_iff.mp hmount).1).trans hmount
    mounted k hmounted := by
      cases hmounted
      exact ⟨_, getElem?_concat_length, rfl, rfl, rfl⟩
    closed hnone := by cases hnone
    reading hnone := by cases hnone
    renames rename hrename :=
      ⟨Nat.le_trans (hs.renames rename hrename).1 hopening,
        fun hsame => congrArg some (hrenames rename hrename hsame).symm⟩ }

/-- Opening a document leaves nothing in the editor until its read is answered. -/
theorem sane_open (hs : s.Sane) :
    ({ s with
        name := some handle, baseRevision := none, mounted := none, opening := s.opening + 1,
        document := none }.load handle).Sane :=
  { hs with
    named := by
      have hmeans := hs.means
      refine means_iff.mp ⟨fun name document _ hdocument => ?_, hmeans.saves, hmeans.renames,
        fun _ load hload hrequest view hview => ?_, hmeans.board⟩
      · cases hdocument
      · obtain rfl := hs.begun hload hrequest
        cases hview
    loads load hload := hs.loads_load hload
    mounted k hmounted := by cases hmounted
    closed _ := rfl
    reading _ load hload hrequest := by
      obtain rfl := hs.begun hload hrequest
      rfl
    renames rename hrename := hs.renames_next hrename none }

theorem sane_show (hs : s.Sane) (hview : s.stored.docs handle = some view) :
    Sane { s with board := s.board ++ [(handle, view)] } :=
  { hs with
    named := by
      have hmeans := hs.means
      refine means_iff.mp ⟨hmeans.shown, hmeans.saves, hmeans.renames, hmeans.loads,
        fun shown hshown => ?_⟩
      rcases mem_append.mp hshown with hshown | hshown
      · exact hmeans.board shown hshown
      · cases mem_singleton.mp hshown
        intro doc hdoc
        exact congrArg Revised.id (some.inj (hdoc.symm.trans hview))
    board shown hshown := by
      rcases mem_append.mp hshown with hshown | hshown
      · exact hs.board shown hshown
      · cases mem_singleton.mp hshown
        exact Revisions.dated_of_get hview }

variable {i : ℕ} {target : κ} {answer : Option (Revised β)}

variable {request : ℕ}

theorem sane_serveLoad (hs : s.Sane) (hload : s.loads[i]? = some ⟨request, target, none⟩)
    (hanswer : ∀ view, answer = some view → s.stored.docs target = some view) :
    Sane { s with loads := s.loads.set i ⟨request, target, some answer⟩ } :=
  { hs with
    named := by
      have hmeans := hs.means
      refine means_iff.mp ⟨hmeans.shown, hmeans.saves, hmeans.renames,
        fun hnone load hmem hrequest view hview => ?_, hmeans.board⟩
      rcases mem_or_eq_of_mem_set hmem with hmem | rfl
      · exact hmeans.loads hnone load hmem hrequest view hview
      · intro doc hdoc
        have hthere := hanswer view (some.inj hview)
        exact congrArg Revised.id (some.inj (hdoc.symm.trans hthere))
    loads load hmem := by
      rcases mem_or_eq_of_mem_set hmem with hmem | rfl
      · exact hs.loads load hmem
      · refine ⟨(hs.loads _ (mem_of_getElem? hload)).1, fun view hview => ?_⟩
        exact Revisions.dated_of_get (hanswer view (some.inj hview))
    reading hnone load hmem hrequest := by
      rcases mem_or_eq_of_mem_set hmem with hmem | rfl
      · exact hs.reading hnone load hmem hrequest
      · have hname := hs.reading hnone _ (mem_of_getElem? hload)
        exact hname hrequest }

theorem sane_forget {loads : List (LoadRequest κ β)} {saves : List (SaveRequest κ β)}
    {renames : List (RenameRequest κ)} (hs : s.Sane) (hloads : ∀ load ∈ loads, load ∈ s.loads)
    (hsaves : ∀ save ∈ saves, save ∈ s.saves) (hrenames : ∀ rename ∈ renames, rename ∈ s.renames) :
    Sane { s with loads, saves, renames } :=
  { hs with
    named := by
      have hmeans := hs.means
      exact means_iff.mp ⟨hmeans.shown, fun save hsave => hmeans.saves save (hsaves save hsave),
        fun rename hrename => hmeans.renames rename (hrenames rename hrename),
        fun hnone load hload => hmeans.loads hnone load (hloads load hload), hmeans.board⟩
    loads load hload := hs.loads load (hloads load hload)
    saves save hsave := hs.saves save (hsaves save hsave)
    reading hnone load hload := hs.reading hnone load (hloads load hload)
    renames rename hrename := hs.renames rename (hrenames rename hrename) }

theorem loaded_of_named (hname : s.name = some handle) :
    s.loaded (some view) =
      { s with name := some handle, creating := s.creating, opening := s.opening }.mount handle
        view := by
  cases s
  cases hname
  rfl

theorem loaded_of_unnamed (hname : s.name = none) :
    s.loaded (some view) = { s with baseRevision := some view.revision } := by
  unfold loaded
  rw [hname]

theorem sane_respondLoad (hs : s.Sane) (hload : s.loads[i]? = some ⟨request, target, some answer⟩)
    (hrequest : request = s.loadRequest)
    (hopen : ∀ view ∈ answer, ∀ document ∈ s.document, document = view.id) :
    (loaded { s with loads := s.loads.eraseIdx i } answer).Sane := by
  have hmem := mem_of_getElem? hload
  have hforgot : Sane { s with loads := s.loads.eraseIdx i } :=
    sane_forget hs (fun load hload => mem_of_mem_eraseIdx hload) (fun _ h => h) fun _ h => h
  cases answer with
  | none => exact { hforgot with mounted := fun k hmounted => by cases hmounted }
  | some view =>
    rcases eq_none_or_eq_some s.name with hname | ⟨name, hname⟩
    · rw [loaded_of_unnamed (s := { s with loads := s.loads.eraseIdx i }) hname]
      refine { hforgot with mounted := fun k hmounted => ?_ }
      obtain ⟨mount, -, hshown, -⟩ := hs.mounted k hmounted
      rw [hname] at hshown
      cases hshown
    · rw [loaded_of_named (s := { s with loads := s.loads.eraseIdx i }) hname]
      have hview : s.stored.Dated view := (hs.loads _ hmem).2 view rfl
      refine sane_mount hforgot hview (Nat.le_refl _) (fun doc hdoc => ?_)
        fun rename hrename hsame => ?_
      · cases hdocument : s.document with
        | some document =>
          have hsame := hopen view rfl document hdocument
          exact (hs.means.shown name document hname hdocument doc hdoc).trans hsame
        | none =>
          have htarget := hs.reading hdocument _ hmem hrequest
          obtain rfl := some.inj (hname.symm.trans htarget)
          exact hs.means.loads hdocument _ hmem hrequest view rfl doc hdoc
      · exact hopen view rfl rename.document ((hs.renames rename hrename).2 hsame)

variable {k : ℕ}

theorem sane_save {mount : Mount κ β} (hs : s.Sane) (hmount : s.mounts[k]? = some mount)
    (hmeant : ∀ doc, s.stored.docs target = some doc → doc.id = mount.base.id) :
    Sane { s with
      saves := s.saves ++ [⟨k, mount.base, target, some mount.base.revision, body, none⟩] } := by
  have hmeans := hs.means
  refine { hs with
    named := means_iff.mp ⟨hmeans.shown, fun save hsave hnone => ?_, hmeans.renames, hmeans.loads,
      hmeans.board⟩
    saves := fun save hsave => ?_ }
  · rcases mem_append.mp hsave with hsave | hsave
    · exact hmeans.saves save hsave hnone
    · cases mem_singleton.mp hsave
      exact hmeant
  · rcases mem_append.mp hsave with hsave | hsave
    · exact hs.saves save hsave
    · cases mem_singleton.mp hsave
      refine ⟨(hs.based mount (mem_of_getElem? hmount)).1, fun _ => rfl, ?_, mount, hmount, rfl⟩
      intro view hview
      cases hview

/-- The body in the editor, and one that was closed with its guard, are saved to their documents. -/
theorem addressee_of_guarded {mount : Mount κ β} (hs : s.Sane)
    (hguard : s.Guarded kind (.save k body))
    (hmount : s.mounts[k]? = some mount) (htarget : s.addressee kind mount = some target)
    (hexpected : kind.expects s.baseRevision = some expected) :
    expected = some mount.base.revision ∧
      ∀ doc, s.stored.docs target = some doc → doc.id = mount.base.id := by
  have hshown : (kind.reads ∨ s.name = none ∨ s.name = some mount.handle) ∧
      s.baseRevision = some mount.base.revision ∧
      ∀ doc, s.stored.docs mount.handle = some doc → doc.id = mount.base.id := by
    rcases hguard mount hmount with hmounted | hclosed
    · obtain ⟨shown, hthere, hname, hrevision, hdocument⟩ := hs.mounted k hmounted
      obtain rfl := some.inj (hthere.symm.trans hmount)
      exact ⟨.inr (.inr hname), hrevision, hs.means.shown _ _ hname hdocument⟩
    · exact hclosed
  obtain ⟨hname, hrevision, hmeant⟩ := hshown
  have hhandle : target = mount.handle := by
    unfold addressee at htarget
    split_ifs at htarget with hreads
    · exact (some.inj htarget).symm
    · rcases hname with hname | hname | hname
      · exact absurd hname hreads
      · rw [hname] at htarget
        cases htarget
      · exact some.inj (htarget.symm.trans hname)
  rw [hrevision] at hexpected
  refine ⟨?_, hhandle ▸ hmeant⟩
  cases kind <;> exact (some.inj hexpected).symm

variable {mount : ℕ} {base : Revised β}

theorem sane_answered (hs : s.Sane)
    (hsave : s.saves[i]? = some ⟨mount, base, target, expected, body, none⟩)
    (hanswer : ∀ view, answer = some view → s.stored.Dated view ∧ view.id = base.id) :
    Sane { s with saves := s.saves.set i ⟨mount, base, target, expected, body, some answer⟩ } := by
  have hmem := mem_of_getElem? hsave
  have hmeans := hs.means
  refine { hs with
    named := means_iff.mp ⟨hmeans.shown, fun save hsave hnone => ?_, hmeans.renames, hmeans.loads,
      hmeans.board⟩
    saves := fun save hsave => ?_ }
  · rcases mem_or_eq_of_mem_set hsave with hsave | rfl
    · exact hmeans.saves save hsave hnone
    · cases hnone
  · rcases mem_or_eq_of_mem_set hsave with hsave | rfl
    · exact hs.saves save hsave
    · obtain ⟨hbase, -, -, hmount⟩ := hs.saves _ hmem
      refine ⟨hbase, fun hnone => ?_, fun view hview => ?_, hmount⟩
      · cases hnone
      · exact hanswer view (some.inj hview)

theorem overwritten_of_save [DecidableEq κ] (hs : s.Sane)
    (hsave : s.saves[i]? = some ⟨mount, base, target, expected, body, none⟩)
    (hwrite : s.stored.write target body expected = some (stored, view)) :
    s.stored.docs target = some base ∧ expected = some base.revision := by
  have hmem := mem_of_getElem? hsave
  obtain ⟨hbase, hexpected, -⟩ := hs.saves _ hmem
  obtain rfl : expected = some base.revision := hexpected rfl
  exact ⟨hbase.eq_of_write hwrite (hs.means.saves _ hmem rfl), rfl⟩

theorem sane_serveSave [DecidableEq κ] (hs : s.Sane)
    (hsave : s.saves[i]? = some ⟨mount, base, target, expected, body, none⟩)
    (hwrite : s.stored.write target body expected = some (stored, view)) :
    Sane { s with
      stored
      saves := s.saves.set i ⟨mount, base, target, expected, body, some (some view)⟩
      accepted := s.accepted ++ [⟨base, expected, s.stored.docs target⟩] } := by
  obtain ⟨hthere, hexpected⟩ := overwritten_of_save hs hsave hwrite
  have hwritten : Sane { s with stored } := by
    refine sane_write hs hwrite fun _ hnone => ?_
    rw [hthere] at hnone
    cases hnone
  have hview : stored.Dated view ∧ view.id = base.id := by
    rcases Revisions.write_eq_some hwrite with ⟨doc, hdoc, -, rfl, hdocs, -⟩ | ⟨hnone, -⟩
    · obtain rfl := some.inj (hthere.symm.trans hdoc)
      refine ⟨Revisions.dated_of_get (h := target) ?_, rfl⟩
      rw [hdocs]
      exact put_self
    · rw [hthere] at hnone
      cases hnone
  have hanswer : ∀ written, some view = some written →
      stored.Dated written ∧ written.id = base.id := by
    intro written hsome
    cases hsome
    exact hview
  have hanswered := sane_answered hwritten hsave hanswer
  refine { hanswered with accepted := fun save hmem => ?_ }
  rcases mem_append.mp hmem with hmem | hmem
  · exact hs.accepted save hmem
  · cases mem_singleton.mp hmem
    exact ⟨hexpected, hthere⟩

theorem sane_respondSave (hs : s.Sane)
    (hsave : s.saves[i]? = some ⟨k, base, target, expected, body, some (some view)⟩)
    (hopen : s.mounted = some k ∨ s.name = none ∨ s.baseRevision = some view.revision) :
    Sane { s with
      baseRevision := some view.revision
      mounts := s.mounts.modify k fun mount => { mount with base := view }
      saves := s.saves.eraseIdx i } := by
  obtain ⟨-, -, hanswer, saved, hsaved, hid⟩ := hs.saves _ (mem_of_getElem? hsave)
  obtain ⟨hview, hviewed⟩ := hanswer view rfl
  have hforgot : Sane { s with saves := s.saves.eraseIdx i } :=
    sane_forget hs (fun _ h => h) (fun save hsave => mem_of_mem_eraseIdx hsave) fun _ h => h
  refine { hforgot with
    based := fun mount hmount => ?_
    saves := fun save hsave => ?_
    mounted := fun j hmounted => ?_ }
  · obtain ⟨j, hmount⟩ := mem_iff_getElem?.mp hmount
    rw [getElem?_modify] at hmount
    obtain ⟨old, hold, rfl⟩ := map_eq_some_iff.mp hmount
    obtain ⟨hbase, hseed, hseeded⟩ := hs.based old (mem_of_getElem? hold)
    split_ifs with hk
    · subst hk
      obtain rfl := some.inj (hsaved.symm.trans hold)
      exact ⟨hview, hseed, hseeded.trans (hid.trans hviewed.symm)⟩
    · exact ⟨hbase, hseed, hseeded⟩
  · obtain ⟨hbase, hexpected, hanswers, mount, hmount, hsame⟩ := hforgot.saves save hsave
    refine ⟨hbase, hexpected, hanswers, ?_⟩
    rw [getElem?_modify, hmount]
    refine ⟨_, rfl, ?_⟩
    split_ifs with hk
    · subst hk
      obtain rfl := some.inj (hsaved.symm.trans hmount)
      exact hviewed.trans (hid.symm.trans hsame)
    · exact hsame
  · have hmounted : s.mounted = some j := hmounted
    obtain ⟨mount, hmount, hname, hrevision, hdocument⟩ := hs.mounted j hmounted
    by_cases hk : k = j
    · subst hk
      obtain rfl := some.inj (hsaved.symm.trans hmount)
      refine ⟨{ saved with base := view }, ?_, hname, rfl, ?_⟩
      · rw [getElem?_modify, hmount]
        simp
      · rw [hviewed, ← hid]
        exact hdocument
    · refine ⟨mount, ?_, hname, ?_, hdocument⟩
      · rw [getElem?_modify, hmount]
        simp [hk]
      · rcases hopen with hopen | hclosed | hsame
        · exact absurd (some.inj (hopen.symm.trans hmounted)) hk
        · rw [hclosed] at hname
          cases hname
        · exact hsame.symm.trans hrevision

theorem sane_rename (hs : s.Sane) (hname : s.name = some handle)
    (hdocument : s.document = some document) :
    Sane { s with renames := s.renames ++ [⟨s.opening, document, handle, target, none⟩] } := by
  have hmeans := hs.means
  refine { hs with
    named := means_iff.mp ⟨hmeans.shown, hmeans.saves, fun rename hrename => ?_, hmeans.loads,
      hmeans.board⟩
    renames := fun rename hrename => ?_ }
  · rcases mem_append.mp hrename with hrename | hrename
    · exact hmeans.renames rename hrename
    · cases mem_singleton.mp hrename
      refine ⟨fun _ => hmeans.shown handle document hname hdocument, fun htrue => ?_⟩
      cases htrue
  · rcases mem_append.mp hrename with hrename | hrename
    · exact hs.renames rename hrename
    · cases mem_singleton.mp hrename
      exact ⟨Nat.le_refl _, fun _ => hdocument⟩

variable {source : κ}

theorem sane_answerRename {answer : Bool} (hs : s.Sane)
    (hrename : s.renames[i]? = some ⟨opening, document, source, target, none⟩)
    (hmoved : answer = true → ∀ doc, s.stored.docs target = some doc → doc.id = document) :
    Sane { s with
      renames := s.renames.set i ⟨opening, document, source, target, some answer⟩ } := by
  have hmem := mem_of_getElem? hrename
  have hmeans := hs.means
  refine { hs with
    named := means_iff.mp ⟨hmeans.shown, hmeans.saves, fun rename hset => ?_, hmeans.loads,
      hmeans.board⟩
    renames := fun rename hset => ?_ }
  · rcases mem_or_eq_of_mem_set hset with hset | rfl
    · exact hmeans.renames rename hset
    · refine ⟨fun hnone => ?_, fun htrue => hmoved (some.inj htrue)⟩
      cases hnone
  · rcases mem_or_eq_of_mem_set hset with hset | rfl
    · exact hs.renames rename hset
    · have hopening := hs.renames _ hmem
      exact hopening

/-- A document that is renamed takes a handle that nothing else is meant by. -/
theorem sane_serveRename [DecidableEq κ]
    (hs : s.Sane)
    (hrename : s.renames[i]? = some ⟨opening, document, source, target, none⟩)
    (hmoved : s.stored.rename source target = some stored)
    (hfresh : s.stored.docs target = none →
      ∀ naming ∈ s.namings, naming.1 = target → naming.2 = document) :
    Sane { s with
      stored
      renames := s.renames.set i ⟨opening, document, source, target, some true⟩ } := by
  have hmem := mem_of_getElem? hrename
  obtain ⟨moved, hsource, hfree, hdocs, -⟩ := Revisions.rename_eq_some hmoved
  have hid : moved.id = document := (hs.means.renames _ hmem).1 rfl moved hsource
  -- what was meant is still there, unless it is what moved away
  have hthere : ∀ name other, (other = document ∨ name ≠ target) →
      (∀ doc, s.stored.docs name = some doc → doc.id = other) →
      ∀ doc, stored.docs name = some doc → doc.id = other := by
    intro name other hother hold doc hdoc
    rw [hdocs] at hdoc
    rcases put_eq_some.mp hdoc with ⟨rfl, rfl⟩ | ⟨hne, hdoc⟩
    · rcases hother with rfl | hne
      · exact hid
      · exact absurd rfl hne
    · exact hold doc (erase_eq_some.mp hdoc).2
  have hnamed : ∀ name other, (name, other) ∈ s.namings →
      ∀ doc, stored.docs name = some doc → doc.id = other := by
    intro name other hnaming
    refine hthere name other ?_ (hs.named name other hnaming)
    by_cases htarget : name = target
    · left
      rcases hfree with rfl | hfree
      · subst htarget
        exact (hs.named name other hnaming moved hsource).symm.trans hid
      · exact hfresh hfree _ hnaming htarget
    · exact .inr htarget
  have hstored : Sane { s with stored } :=
    { hs with
      named := hnamed
      based := fun mount hmount => by
        obtain ⟨hbase, hseed, hseeded⟩ := hs.based mount hmount
        exact ⟨hbase.rename hmoved, hseed.rename hmoved, hseeded⟩
      loads := fun load hload => ⟨(hs.loads load hload).1,
        fun view hview => ((hs.loads load hload).2 view hview).rename hmoved⟩
      saves := fun save hsave => by
        obtain ⟨hbase, hexpected, hanswer, hmount⟩ := hs.saves save hsave
        exact ⟨hbase.rename hmoved, hexpected,
          fun view hview => ⟨(hanswer view hview).1.rename hmoved, (hanswer view hview).2⟩, hmount⟩
      board := fun shown hshown => (hs.board shown hshown).rename hmoved }
  refine sane_answerRename hstored hrename fun _ doc hdoc => ?_
  have hdoc : stored.docs target = some doc := hdoc
  rw [hdocs, put_self] at hdoc
  cases hdoc
  exact hid

section Repoint
variable [DecidableEq κ]

/-- What the editor keeps under a new handle. -/
theorem repoint_eq (kind : EditorKind) (s : DocumentEditor κ β) (target : κ) :
    s.repoint kind target =
      { s with
        name := some target
        mounts := (s.repoint kind target).mounts
        mounted := (s.repoint kind target).mounted } := by
  unfold repoint
  split
  · rfl
  · split_ifs <;> rfl

/-- Each body that was mounted stays, up to its handle. -/
theorem getElem?_repoint (kind : EditorKind) (target : κ) {j : ℕ} {mount : Mount κ β}
    (hmount : s.mounts[j]? = some mount) :
    ∃ moved, (s.repoint kind target).mounts[j]? = some moved ∧ moved.base = mount.base := by
  unfold repoint
  split
  · exact ⟨mount, hmount, rfl⟩
  · next k hk =>
    split_ifs
    · have hlt : j < s.mounts.length := (List.getElem?_eq_some_iff.mp hmount).1
      exact ⟨mount, (getElem?_append_left hlt).trans hmount, rfl⟩
    · simp only [getElem?_modify, hmount]
      refine ⟨_, rfl, ?_⟩
      split_ifs <;> rfl

/-- Each body is one that was mounted, up to its handle, or one as it was loaded. -/
theorem mem_mounts_repoint {mount : Mount κ β} (hmount : mount ∈ (s.repoint kind target).mounts) :
    ∃ old ∈ s.mounts, mount.seed = old.seed ∧ (mount.base = old.base ∨ mount.base = old.seed) := by
  unfold repoint at hmount
  split at hmount
  · exact ⟨mount, hmount, rfl, .inl rfl⟩
  · next k hk =>
    split_ifs at hmount
    · rcases mem_append.mp hmount with hmount | hmount
      · exact ⟨mount, hmount, rfl, .inl rfl⟩
      · obtain ⟨old, hold, rfl⟩ := map_eq_some_iff.mp (Option.mem_toList.mp hmount)
        exact ⟨old, mem_of_getElem? hold, rfl, .inr rfl⟩
    · obtain ⟨j, hmount⟩ := mem_iff_getElem?.mp hmount
      rw [getElem?_modify] at hmount
      obtain ⟨old, hold, rfl⟩ := map_eq_some_iff.mp hmount
      refine ⟨old, mem_of_getElem? hold, ?_, .inl ?_⟩ <;> split_ifs <;> rfl

theorem mounted_repoint (hs : s.Sane) {j : ℕ}
    (hloaded : kind.remounts → s.name ≠ some target → ∀ k ∈ s.mounted, ∀ mount ∈ s.mounts[k]?,
      mount.seed.revision = mount.base.revision)
    (hmounted : (s.repoint kind target).mounted = some j) :
    ∃ mount, (s.repoint kind target).mounts[j]? = some mount ∧ mount.handle = target ∧
      s.baseRevision = some mount.base.revision ∧ s.document = some mount.base.id := by
  unfold repoint at hmounted ⊢
  split at hmounted
  · next hnone =>
    rw [hnone] at hmounted
    cases hmounted
  · next k hk =>
    obtain ⟨mount, hmount, -, hrevision, hdocument⟩ := hs.mounted k hk
    simp only [hk] at hmounted ⊢
    split_ifs at hmounted ⊢ with hremount
    · cases hmounted
      have hsame : mount.seed.revision = mount.base.revision :=
        hloaded hremount.1 hremount.2 k hk mount hmount
      obtain ⟨-, -, hid⟩ := hs.based mount (mem_of_getElem? hmount)
      refine ⟨⟨target, mount.seed, mount.seed⟩, ?_, rfl, ?_, ?_⟩
      · simp [hmount]
      · rw [hsame]
        exact hrevision
      · rw [hid]
        exact hdocument
    · cases hmounted
      refine ⟨{ mount with handle := target }, ?_, rfl, hrevision, hdocument⟩
      simp [hmount]

/-- The answer to a rename re-points the editor: at the document that is open, at the handle it
has, or at one that nothing is read from. -/
theorem sane_repoint (hs : s.Sane)
    (hmeant : ∀ other, s.document = some other →
      ∀ doc, s.stored.docs target = some doc → doc.id = other)
    (hread : s.document = none → ∀ name, s.name = some name → name = target)
    (hloaded : kind.remounts → s.name ≠ some target → ∀ k ∈ s.mounted, ∀ mount ∈ s.mounts[k]?,
      mount.seed.revision = mount.base.revision) :
    (s.repoint kind target).Sane := by
  have hmeans := hs.means
  have hbased : ∀ mount ∈ (s.repoint kind target).mounts, s.stored.Dated mount.base ∧
      s.stored.Dated mount.seed ∧ mount.seed.id = mount.base.id := by
    intro mount hmount
    obtain ⟨old, hold, hseed, hbase⟩ := mem_mounts_repoint hmount
    obtain ⟨hdated, hseeded, hid⟩ := hs.based old hold
    rw [hseed]
    rcases hbase with hbase | hbase
    · rw [hbase]
      exact ⟨hdated, hseeded, hid⟩
    · rw [hbase]
      exact ⟨hseeded, hseeded, rfl⟩
  have hmounted := fun j hj => mounted_repoint (j := j) hs hloaded hj
  have hsaves : ∀ save ∈ s.saves, ∃ mount, (s.repoint kind target).mounts[save.mount]? = some mount ∧
      mount.base.id = save.base.id := by
    intro save hsave
    obtain ⟨-, -, -, mount, hmount, hid⟩ := hs.saves save hsave
    obtain ⟨moved, hmoved, hbase⟩ := getElem?_repoint kind target hmount
    exact ⟨moved, hmoved, by rw [hbase, hid]⟩
  rw [repoint_eq]
  refine { hs with
    named := means_iff.mp ⟨fun name other hname hother => ?_, hmeans.saves, hmeans.renames,
      hmeans.loads, hmeans.board⟩
    based := hbased
    saves := fun save hsave => ?_
    mounted := fun j hj => ?_
    closed := fun hnone => ?_
    reading := fun hnone load hload hrequest => ?_ }
  · cases hname
    exact hmeant other hother
  · obtain ⟨hbase, hexpected, hanswer, -⟩ := hs.saves save hsave
    exact ⟨hbase, hexpected, hanswer, hsaves save hsave⟩
  · obtain ⟨mount, hmount, hhandle, hrest⟩ := hmounted j hj
    exact ⟨mount, hmount, congrArg some hhandle.symm, hrest⟩
  · cases hnone
  · have hname := hs.reading hnone load hload hrequest
    exact congrArg some (hread hnone load.target hname).symm

theorem sane_respondRename (hs : s.Sane)
    (hrename : s.renames[i]? = some ⟨opening, document, source, target, some true⟩)
    (hguard : s.Guarded kind (.respondRename i)) :
    ({ s with renames := s.renames.eraseIdx i }.repoint kind target).Sane := by
  have hmem := mem_of_getElem? hrename
  obtain ⟨hopen, hloaded⟩ := hguard _ hrename rfl
  have hforgot : Sane { s with renames := s.renames.eraseIdx i } :=
    sane_forget hs (fun _ h => h) (fun _ h => h) fun _ h => mem_of_mem_eraseIdx h
  refine sane_repoint hforgot (fun other hother => ?_) (fun hnone name hname => ?_) hloaded
  · have hother : s.document = some other := hother
    rcases hopen with hopen | hclosed | hsame
    · have hdocument := (hs.renames _ hmem).2 hopen
      obtain rfl := some.inj (hdocument.symm.trans hother)
      exact (hs.means.renames _ hmem).2 rfl
    · rw [hs.closed hclosed] at hother
      cases hother
    · exact hs.means.shown _ _ hsame hother
  · have hnone : s.document = none := hnone
    have hname : s.name = some name := hname
    rcases hopen with hopen | hclosed | hsame
    · have hdocument := (hs.renames _ hmem).2 hopen
      rw [hnone] at hdocument
      cases hdocument
    · rw [hclosed] at hname
      cases hname
    · exact some.inj (hname.symm.trans hsame)

end Repoint

/-- A form for a new to-do, and its creation, touch no document. -/
theorem sane_create {creates : List (CreateRequest β)} (hs : s.Sane) : Sane { s with creates } :=
  { hs with }

theorem sane_creating (hs : s.Sane) : Sane { s with creating } := { hs with }

theorem sane_new (stored : Revisions κ β) : (new stored).Sane where
  named _ _ hnaming := by cases hnaming
  based _ hmount := by cases hmount
  loads _ hload := by cases hload
  saves _ hsave := by cases hsave
  board _ hshown := by cases hshown
  mounted _ hmounted := by cases hmounted
  closed _ := rfl
  reading _ _ hload := by cases hload
  renames _ hrename := by cases hrename
  accepted _ hsave := by cases hsave

variable {e : EditorEvent κ β}

theorem Sane.step [DecidableEq κ] (hs : s.Sane) (hguard : s.Guarded kind e)
    (hstep : step kind s e = some t) : t.Sane := by
  cases e with
  | write handle body expected =>
    simp only [DocumentEditor.step] at hstep
    split at hstep
    case h_1 stored written hwrite =>
      cases hstep
      exact sane_write hs hwrite hguard
    case h_2 => exact some.inj hstep ▸ hs
  | «show» handle =>
    simp only [DocumentEditor.step] at hstep
    split at hstep
    case h_1 view _ hview =>
      cases hstep
      exact sane_show hs hview
    all_goals cases hstep
  | «open» handle =>
    simp only [DocumentEditor.step] at hstep
    split_ifs at hstep
    cases hstep
    exact sane_open hs
  | edit shown =>
    simp only [DocumentEditor.step] at hstep
    split at hstep
    case h_1 handle view _ hshown =>
      cases hstep
      have hmem := mem_of_getElem? hshown
      refine sane_mount hs (hs.board _ hmem) (Nat.le_succ _) (hs.means.board _ hmem) ?_
      intro rename hrename hsame
      have hle := (hs.renames rename hrename).1
      omega
    all_goals cases hstep
  | startCreate =>
    simp only [DocumentEditor.step] at hstep
    split_ifs at hstep
    cases hstep
    exact sane_creating (sane_close hs)
  | reload =>
    simp only [DocumentEditor.step] at hstep
    split at hstep
    case h_1 name _ hname =>
      cases hstep
      exact sane_load hs hname
    all_goals cases hstep
  | close =>
    cases hstep
    exact sane_close hs
  | serveLoad i fails =>
    simp only [DocumentEditor.step] at hstep
    split at hstep
    case h_1 request target hload =>
      cases hstep
      refine sane_serveLoad hs hload fun view hview => ?_
      split_ifs at hview
      exact hview
    all_goals cases hstep
  | respondLoad i =>
    simp only [DocumentEditor.step] at hstep
    split at hstep
    case h_1 request target answer hload =>
      cases hstep
      split_ifs with hrequest
      · exact sane_respondLoad hs hload hrequest (hguard _ hload hrequest answer rfl)
      · exact sane_forget hs (fun _ h => mem_of_mem_eraseIdx h) (fun _ h => h) fun _ h => h
    all_goals cases hstep
  | save k body =>
    simp only [DocumentEditor.step] at hstep
    split at hstep
    case h_1 mount hmount =>
      split at hstep
      case h_1 target expected htarget hexpected =>
        cases hstep
        obtain ⟨rfl, hmeant⟩ := addressee_of_guarded hs hguard hmount htarget hexpected
        exact sane_save hs hmount hmeant
      case h_2 => exact some.inj hstep ▸ hs
      case h_3 => exact some.inj hstep ▸ sane_create hs
    case h_2 => cases hstep
  | serveSave i refused =>
    simp only [DocumentEditor.step] at hstep
    split at hstep
    case h_1 hsave =>
      split at hstep
      case h_1 hwrite =>
        cases hstep
        exact sane_serveSave hs hsave hwrite
      all_goals
        cases hstep
        refine sane_answered hs hsave fun view hview => ?_
        cases hview
    all_goals cases hstep
  | respondSave i =>
    simp only [DocumentEditor.step] at hstep
    split at hstep
    case h_1 hsave =>
      cases hstep
      exact sane_respondSave hs hsave (hguard _ hsave _ rfl _ rfl)
    case h_2 =>
      cases hstep
      exact sane_forget hs (fun _ h => h) (fun _ h => mem_of_mem_eraseIdx h) fun _ h => h
    all_goals cases hstep
  | rename target =>
    simp only [DocumentEditor.step] at hstep
    split at hstep
    case h_1 hname hdocument =>
      cases hstep
      exact sane_rename hs hname hdocument
    case h_2 => cases hstep
  | serveRename i =>
    simp only [DocumentEditor.step] at hstep
    split at hstep
    case h_1 hrename =>
      split at hstep
      case h_1 hmoved =>
        cases hstep
        exact sane_serveRename hs hrename hmoved (hguard _ hrename)
      case h_2 =>
        cases hstep
        exact sane_answerRename hs hrename Bool.noConfusion
    all_goals cases hstep
  | respondRename i =>
    simp only [DocumentEditor.step] at hstep
    split at hstep
    case h_1 hrename =>
      cases hstep
      exact sane_respondRename hs hrename hguard
    case h_2 =>
      cases hstep
      exact sane_forget hs (fun _ h => h) (fun _ h => h) fun _ h => mem_of_mem_eraseIdx h
    all_goals cases hstep
  | create body =>
    simp only [DocumentEditor.step] at hstep
    split_ifs at hstep
    cases hstep
    exact sane_create hs
  | serveCreate i handle refused =>
    simp only [DocumentEditor.step] at hstep
    split at hstep
    case h_1 hcreate =>
      split at hstep
      case h_1 hwrite =>
        cases hstep
        exact sane_create (sane_write hs hwrite fun _ _ => hguard)
      case h_2 => cases hstep
      case h_3 =>
        cases hstep
        exact sane_create hs
    all_goals cases hstep
  | respondCreate i =>
    simp only [DocumentEditor.step] at hstep
    split at hstep
    case h_1 =>
      cases hstep
      exact sane_close (sane_create hs)
    case h_2 =>
      cases hstep
      exact sane_create hs
    all_goals cases hstep

/-- What is open stays: the document, its guard and the body in the editor. -/
structure SameOpen (s t : DocumentEditor κ β) : Prop where
  name : t.name = s.name
  baseRevision : t.baseRevision = s.baseRevision
  creating : t.creating = s.creating
  mounted : t.mounted = s.mounted
  body : ∀ k, s.mounted = some k → t.mounts[k]? = s.mounts[k]?

/-- The answer to a save, or to the creation of a to-do, leaves what was opened since. -/
def Undisturbed (s t : DocumentEditor κ β) : EditorEvent κ β → Prop
  | .respondSave i => ∀ save ∈ s.saves[i]?, s.name ≠ none → s.mounted ≠ some save.mount →
      s.SameOpen t
  | .respondCreate i => ∀ create ∈ s.creates[i]?, create.opening ≠ s.opening →
      (s.name ≠ none ∨ s.creating = true) → s.SameOpen t
  | _ => True

/-- Every save that the core accepted was guarded by the revision its body was based on, and
replaced just that; and so it will be, for the guard is that of the body in the editor. -/
structure Unclobbered (s : DocumentEditor κ β) : Prop where
  accepted : ∀ save ∈ s.accepted, save.expected = some save.base.revision ∧
    save.overwritten = some save.base
  mounted : ∀ k, s.mounted = some k → ∃ mount, s.mounts[k]? = some mount ∧
    s.name = some mount.handle ∧ s.baseRevision = some mount.base.revision

theorem Sane.unclobbered (hs : s.Sane) : s.Unclobbered where
  accepted := hs.accepted
  mounted k hmounted := by
    obtain ⟨mount, hmount, hname, hrevision, -⟩ := hs.mounted k hmounted
    exact ⟨mount, hmount, hname, hrevision⟩

theorem undisturbed_of_guarded [DecidableEq κ] (hguard : s.Guarded kind e)
    (hstep : step kind s e = some t) : Undisturbed s t e := by
  cases e with
  | respondSave i =>
    intro save hsave hopen hother
    simp only [DocumentEditor.step] at hstep
    split at hstep
    case h_1 k _ _ _ _ view hanswered =>
      cases hstep
      obtain rfl := some.inj (hsave.symm.trans hanswered)
      have hsame : s.baseRevision = some view.revision := by
        rcases hguard _ hanswered _ rfl view rfl with hmounted | hclosed | hsame
        · exact absurd hmounted hother
        · exact absurd hclosed hopen
        · exact hsame
      refine ⟨rfl, hsame.symm, rfl, rfl, fun j hj => ?_⟩
      have hne : k ≠ j := fun heq => hother (heq ▸ hj)
      simp [hne]
    case h_2 =>
      cases hstep
      exact ⟨rfl, rfl, rfl, rfl, fun _ _ => rfl⟩
    all_goals cases hstep
  | respondCreate i =>
    intro create hcreate hsince hopen
    simp only [DocumentEditor.step] at hstep
    split at hstep
    case h_1 hanswered =>
      obtain rfl := some.inj (hcreate.symm.trans hanswered)
      rcases hguard _ hanswered rfl with hsame | ⟨hclosed, hform⟩
      · exact absurd hsame hsince
      · rcases hopen with hopen | hopen
        · exact absurd hclosed hopen
        · rw [hform] at hopen
          cases hopen
    case h_2 =>
      cases hstep
      exact ⟨rfl, rfl, rfl, rfl, fun _ _ => rfl⟩
    all_goals cases hstep
  | _ => trivial

def documentEditor [DecidableEq κ] (kind : EditorKind) :
    Machine (DocumentEditor κ β) (EditorEvent κ β) where
  init s := ∃ stored, s = new stored
  step := step kind

/-- A document editor never clobbers in a guarded run. -/
theorem editor_unclobbered [DecidableEq κ]
    (hs : (documentEditor kind).ReachableUnder (Guarded kind) s) :
    s.Unclobbered ∧ ∀ e t, s.Guarded kind e → step kind s e = some t → s.Undisturbed t e := by
  have hsane : s.Sane := by
    refine hs.invariant ?_ fun s e t hguard hs hstep => hs.step hguard hstep
    rintro _ ⟨stored, rfl⟩
    exact sane_new stored
  exact ⟨hsane.unclobbered, fun e t hguard hstep => undisturbed_of_guarded hguard hstep⟩

instance [DecidableEq κ] (s : DocumentEditor κ β) : DecidablePred (s.Guarded kind)
  | .write _ _ _ => inferInstanceAs (Decidable (_ → _ → ∀ naming ∈ s.namings, _))
  | .respondLoad i => inferInstanceAs (Decidable (∀ load ∈ s.loads[i]?,
      _ → ∀ answer ∈ load.answer, ∀ view ∈ answer, ∀ document ∈ s.document, _))
  | .save k _ => inferInstanceAs (Decidable (∀ mount ∈ s.mounts[k]?, _ ∨
      _ ∧ _ ∧ ∀ doc ∈ s.stored.docs mount.handle, _))
  | .respondSave i => inferInstanceAs (Decidable (∀ save ∈ s.saves[i]?,
      ∀ answer ∈ save.answer, ∀ view ∈ answer, _ ∨ _ ∨ _))
  | .serveRename i => inferInstanceAs (Decidable (∀ rename ∈ s.renames[i]?,
      _ → ∀ naming ∈ s.namings, _ → _))
  | .respondRename i => inferInstanceAs (Decidable (∀ rename ∈ s.renames[i]?,
      _ → (_ ∨ _ ∨ _) ∧ (_ → _ → ∀ k ∈ s.mounted, ∀ mount ∈ s.mounts[k]?, _)))
  | .serveCreate _ _ _ => inferInstanceAs (Decidable (∀ naming ∈ s.namings, _))
  | .respondCreate i => inferInstanceAs (Decidable (∀ create ∈ s.creates[i]?, _ → _ ∨ _ ∧ _))
  | .show _ | .open _ | .edit _ | .startCreate | .reload | .close | .serveLoad _ _ | .serveSave _ _
  | .rename _ | .create _ => inferInstanceAs (Decidable True)

/-- A scratchpad is renamed and saved twice, while another is written. -/
theorem editor_unclobbered_renamed :
    ∃ s, (documentEditor (κ := String) .scratchpad).ReachableUnder (Guarded .scratchpad) s ∧
      s.accepted.map (fun save => save.overwritten.map Revised.body) = [some "one", some "two"] ∧
      s.Unclobbered := by
  have hinit : (documentEditor .scratchpad).init (new (Revisions.empty (κ := String) (β := String)))
      := ⟨Revisions.empty, rfl⟩
  obtain ⟨s, hs, haccepted⟩ := Machine.exists_reachableUnder_of_run (G := Guarded .scratchpad)
    hinit
    [.write "plan" "one" none, .write "notes" "draft" none, .open "plan", .serveLoad 0 false,
      .respondLoad 0, .rename "goal", .write "notes" "final" (some 1), .serveRename 0,
      .respondRename 0, .save 1 "two", .serveSave 0 false, .respondSave 0, .save 1 "three",
      .serveSave 0 false]
    (by decide)
    (fun s => s.accepted.map (fun save => save.overwritten.map Revised.body) =
      [some "one", some "two"])
    (by decide)
  exact ⟨s, hs, haccepted, (editor_unclobbered hs).1⟩

/-- The answer to a save of one scratchpad comes after another was opened: the guard is then of
neither, and the other is saved over what a third writer put there. -/
theorem editor_clobbers :
    ∃ s, (documentEditor (κ := String) .scratchpad).Reachable s ∧
      ∃ save ∈ s.accepted, save.expected ≠ some save.base.revision ∧ save.base.body = "draft" ∧
        save.overwritten.map Revised.body = some "theirs" := by
  have hinit : (documentEditor .scratchpad).init (new (Revisions.empty (κ := String) (β := String)))
      := ⟨Revisions.empty, rfl⟩
  exact Machine.exists_reachable_of_run hinit
    [.write "plan" "one" none, .write "notes" "draft" none, .open "plan", .serveLoad 0 false,
      .respondLoad 0, .save 0 "two", .serveSave 0 false, .open "notes", .serveLoad 0 false,
      .respondLoad 0, .respondSave 0, .write "notes" "theirs" (some 1), .save 1 "mine",
      .serveSave 0 false]
    (fun s => ∃ save ∈ s.accepted, save.expected ≠ some save.base.revision ∧
      save.base.body = "draft" ∧ save.overwritten.map Revised.body = some "theirs")
    (by decide)

end Soloist.Ui.DocumentEditor
