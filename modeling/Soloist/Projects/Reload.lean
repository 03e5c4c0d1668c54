import Soloist.Config.Moves
import Soloist.Config.Partition
import Soloist.Projects.Registrations

/-! The registered commands of a project under its reloads, the user's edits of its commands, and
edits of `solo.yml` from outside: whether the registry follows the file. -/
open List

namespace Soloist

namespace CommandRegistry
variable [Sha256] {g h : CommandRegistry} {p : ProjectId} {root : PathBuf} {name : String}
  {spec : ProcessSpec} {choose : Choice} {config : SoloYml}

theorem Serves.not_free (hserves : g.Serves p root name spec) : ¬g.Free p name := by
  obtain ⟨id, row, hfiled, -⟩ := hserves
  exact fun hfree => hfree id row hfiled

/-- A loop each of whose turns serves its own name and leaves the others, the names being registered
beforehand where a turn needs that. -/
theorem foldl_serves (root : PathBuf) (config : SoloYml)
    (turn : CommandRegistry → String → CommandRegistry) (needed : Prop)
    (hturn : ∀ g name, g.Filing p → (needed → ¬g.Free p name) → (turn g name).Filing p ∧
      (∀ spec, config.processes.get name = some spec → (turn g name).Serves p root name spec) ∧
      ∀ n, n ≠ name → SameAt g (turn g name) p n)
    (names : List String) (hknown : ∀ n ∈ names, ∃ spec, config.processes.get n = some spec)
    (hg : g.Filing p) (hready : needed → ∀ n ∈ names, ¬g.Free p n) :
    (names.foldl turn g).Filing p ∧
      (∀ n ∈ names, ∀ spec, config.processes.get n = some spec →
        (names.foldl turn g).Serves p root n spec) ∧
      ∀ n, n ∉ names → SameAt g (names.foldl turn g) p n := by
  induction names generalizing g with
  | nil => exact ⟨hg, fun n hn => absurd hn not_mem_nil, fun n _ => .refl g p n⟩
  | cons name rest ih =>
    obtain ⟨hfiling, hserves, hsame⟩ := hturn g name hg
      fun hneeded => hready hneeded name (.head _)
    have hready' : needed → ∀ n ∈ rest, ¬(turn g name).Free p n := by
      intro hneeded n hn
      by_cases heq : n = name
      · obtain ⟨spec, hspec⟩ := hknown name (.head _)
        rw [heq]
        exact (hserves spec hspec).not_free
      · intro hfree
        refine hready hneeded n (.tail _ hn) ?_
        exact fun id row hfiled => hfree id row ((hsame n heq id row).mpr hfiled)
    obtain ⟨hfiling', hserves', hsame'⟩ :=
      ih (fun n hn => hknown n (.tail _ hn)) hfiling hready'
    rw [foldl_cons]
    refine ⟨hfiling', ?_, ?_⟩
    · intro n hn spec hspec
      by_cases hrest : n ∈ rest
      · exact hserves' n hrest spec hspec
      · obtain rfl : n = name := by
          rcases mem_cons.mp hn with heq | hmem
          · exact heq
          · exact absurd hmem hrest
        exact (hsame' n hrest).serves (hserves spec hspec)
    · intro n hn
      rw [mem_cons, not_or] at hn
      exact (hsame n hn.1).trans (hsame' n hn.2)

theorem foldl_reconcileRenamed (root : PathBuf) (choose : Choice) (config : SoloYml)
    (renames : List Rename)
    (hfrom : (renames.map Rename.fromName).Nodup) (hto : (renames.map Rename.toName).Nodup)
    (hapart : ∀ r ∈ renames, ∀ r' ∈ renames, r.fromName ≠ r'.toName)
    (hg : g.Filing p) (hready : ∀ r ∈ renames, ¬g.Free p r.fromName)
    (hfree : ∀ r ∈ renames, g.Free p r.toName) :
    (renames.foldl (reconcileRenamed p root choose config) g).Filing p ∧
      (∀ r ∈ renames, ∀ spec, config.processes.get r.toName = some spec →
        (renames.foldl (reconcileRenamed p root choose config) g).Serves p root r.toName spec) ∧
      ∀ n, (∀ r ∈ renames, n ≠ r.fromName ∧ n ≠ r.toName) →
        SameAt g (renames.foldl (reconcileRenamed p root choose config) g) p n := by
  induction renames generalizing g with
  | nil => exact ⟨hg, fun r hr => absurd hr not_mem_nil, fun n _ => .refl g p n⟩
  | cons r rest ih =>
    have hfiled : ∃ id row, g.Filed p r.fromName id row := by
      by_contra hnone
      push Not at hnone
      exact hready r mem_cons_self hnone
    obtain ⟨id, row, hfiled⟩ := hfiled
    obtain ⟨hfiling, hserves, hsame⟩ :=
      reconcileRenamed_serves root choose config hg hfiled (hfree r mem_cons_self)
    rw [map_cons, nodup_cons] at hfrom hto
    -- the ends of the other renames are none of this one's
    have hother : ∀ r' ∈ rest, (r'.fromName ≠ r.fromName ∧ r'.fromName ≠ r.toName) ∧
        (r'.toName ≠ r.fromName ∧ r'.toName ≠ r.toName) := by
      intro r' hr'
      have hmem := mem_cons_of_mem r hr'
      refine ⟨⟨?_, hapart r' hmem r mem_cons_self⟩, ?_, ?_⟩
      · exact fun heq => hfrom.1 (mem_map.mpr ⟨r', hr', heq⟩)
      · exact (hapart r mem_cons_self r' hmem).symm
      · exact fun heq => hto.1 (mem_map.mpr ⟨r', hr', heq⟩)
    obtain ⟨hfiling', hserves', hsame'⟩ := ih hfrom.2 hto.2
      (fun a ha b hb => hapart a (mem_cons_of_mem _ ha) b (mem_cons_of_mem _ hb)) hfiling
      (fun r' hr' hnone => hready r' (mem_cons_of_mem _ hr') fun id row hold =>
        hnone id row ((hsame _ (hother r' hr').1.1 (hother r' hr').1.2 id row).mpr hold))
      (fun r' hr' => (hsame _ (hother r' hr').2.1 (hother r' hr').2.2).free
        (hfree r' (mem_cons_of_mem _ hr')))
    rw [foldl_cons]
    refine ⟨hfiling', ?_, ?_⟩
    · intro r' hr' spec hspec
      rcases mem_cons.mp hr' with rfl | hr'
      · have happart : ∀ r'' ∈ rest, r'.toName ≠ r''.fromName ∧ r'.toName ≠ r''.toName :=
          fun r'' hr'' => ⟨(hother r'' hr'').1.2.symm, (hother r'' hr'').2.2.symm⟩
        exact (hsame' _ happart).serves (hserves spec hspec)
      · exact hserves' r' hr' spec hspec
    · intro n hn
      obtain ⟨hne, hne'⟩ := hn r mem_cons_self
      exact (hsame n hne hne').trans (hsame' n fun r' hr' => hn r' (mem_cons_of_mem _ hr'))

omit [Sha256] in
theorem foldl_reconcileRemoved (choose : Choice) (names : List String) (hg : g.Filing p) :
    (names.foldl (reconcileRemoved p choose) g).Filing p ∧
      ∀ n, n ∉ names → SameAt g (names.foldl (reconcileRemoved p choose) g) p n := by
  induction names generalizing g with
  | nil => exact ⟨hg, fun n _ => .refl g p n⟩
  | cons name rest ih =>
    obtain ⟨hfiling, hsame⟩ := reconcileRemoved_kept choose name hg
    obtain ⟨hfiling', hsame'⟩ := ih hfiling
    rw [foldl_cons]
    refine ⟨hfiling', ?_⟩
    intro n hn
    rw [mem_cons, not_or] at hn
    exact (hsame n hn.1).trans (hsame' n hn.2)

def Matches (g : CommandRegistry) (p : ProjectId) (root : PathBuf) (config : SoloYml) : Prop :=
  ∀ name spec, config.processes.get name = some spec → g.Serves p root name spec

/-- A registry that serves one config serves another once it has been reconciled to the change set
between them, when their commands agree only where they are equal and no name a command takes is
still in use. -/
theorem reconcile_matches (choose : Choice) {old new : SoloYml} (hg : g.Filing p) (hmatches : g.Matches p root old)
    (hequal : ∀ name spec, new.processes.get name = some spec →
      Processes.Agree (old.processes.get name) (some spec) → old.processes.get name = some spec)
    (hfree : ∀ r ∈ (old.diff new).renamed, g.Free p r.toName) :
    (g.reconcile p root choose new (old.diff new)).Filing p ∧
      (g.reconcile p root choose new (old.diff new)).Matches p root new := by
  have hlacking : ∀ {a b : SoloYml} {n : String}, n ∈ a.lacking b →
      (∃ spec, a.processes.get n = some spec) ∧ b.processes.get n = none := by
    intro a b n hn
    obtain ⟨hkey, hnone⟩ := SoloYml.mem_lacking.mp hn
    exact ⟨IndexMap.mem_keys.mp hkey, hnone⟩
  -- which loop a name belongs to shows in the two configs
  have hupdated : ∀ n ∈ (old.diff new).updated,
      (∃ spec, old.processes.get n = some spec) ∧ ∃ spec, new.processes.get n = some spec := by
    intro n hn
    obtain ⟨prev, spec, hold, hnew, -⟩ := SoloYml.mem_updated.mp hn
    exact ⟨⟨prev, hold⟩, spec, hnew⟩
  have hadded : ∀ n ∈ (old.diff new).added,
      (∃ spec, new.processes.get n = some spec) ∧ old.processes.get n = none :=
    fun n hn => hlacking (SoloYml.mem_added_iff.mp hn).1
  have hremoved : ∀ n ∈ (old.diff new).removed, new.processes.get n = none :=
    fun n hn => (hlacking (SoloYml.mem_removed_iff.mp hn).1).2
  have hends : ∀ r ∈ (old.diff new).renamed,
      ((∃ spec, old.processes.get r.fromName = some spec) ∧ new.processes.get r.fromName = none) ∧
        (∃ spec, new.processes.get r.toName = some spec) ∧ old.processes.get r.toName = none := by
    intro r hr
    obtain ⟨hfrom, hto⟩ := SoloYml.renamed_spec hr
    exact ⟨hlacking hfrom, hlacking hto⟩
  unfold reconcile
  dsimp only
  obtain ⟨hg₁, hserves₁, hsame₁⟩ := foldl_serves root new (reconcileAdded p root choose new) False
    (fun g name hg _ => reconcileAdded_serves root choose new hg) (old.diff new).added
    (fun n hn => (hadded n hn).1) hg False.elim
  have hkept₁ : ∀ n spec, old.processes.get n = some spec →
      Serves ((old.diff new).added.foldl (reconcileAdded p root choose new) g) p root n spec := by
    intro n spec hold
    refine (hsame₁ n fun hmem => ?_).serves (hmatches n spec hold)
    rw [(hadded n hmem).2] at hold
    cases hold
  have hready₁ : ∀ n, (∃ spec, old.processes.get n = some spec) →
      ¬Free ((old.diff new).added.foldl (reconcileAdded p root choose new) g) p n := by
    rintro n ⟨spec, hold⟩
    exact (hkept₁ n spec hold).not_free
  have hfree₁ : ∀ r ∈ (old.diff new).renamed,
      Free ((old.diff new).added.foldl (reconcileAdded p root choose new) g) p r.toName := by
    intro r hr
    refine (hsame₁ r.toName fun hmem => ?_).free (hfree r hr)
    exact (SoloYml.mem_added_iff.mp hmem).2 r hr rfl
  generalize (old.diff new).added.foldl (reconcileAdded p root choose new) g = g₁ at *
  obtain ⟨hg₂, hserves₂, hsame₂⟩ := foldl_serves root new (reconcileUpdated p root choose new) True
    (fun g name hg hready => by
      have hfiled : ∃ id row, g.Filed p name id row := by
        by_contra hnone
        push Not at hnone
        exact hready trivial hnone
      obtain ⟨id, row, hfiled⟩ := hfiled
      exact reconcileUpdated_serves root choose new hg hfiled)
    (old.diff new).updated (fun n hn => (hupdated n hn).2) hg₁
    (fun _ n hn => hready₁ n (hupdated n hn).1)
  have hready₂ : ∀ r ∈ (old.diff new).renamed,
      ¬Free ((old.diff new).updated.foldl (reconcileUpdated p root choose new) g₁) p r.fromName := by
    intro r hr hnone
    obtain ⟨⟨hold, hgone⟩, -⟩ := hends r hr
    refine hready₁ r.fromName hold fun id row hfiled => hnone id row ?_
    refine (hsame₂ r.fromName (fun hmem => ?_) id row).mpr hfiled
    obtain ⟨-, spec, hnew⟩ := hupdated r.fromName hmem
    rw [hgone] at hnew
    cases hnew
  have hfree₂ : ∀ r ∈ (old.diff new).renamed,
      Free ((old.diff new).updated.foldl (reconcileUpdated p root choose new) g₁) p r.toName := by
    intro r hr
    refine (hsame₂ r.toName fun hmem => ?_).free (hfree₁ r hr)
    obtain ⟨⟨spec, hold⟩, -⟩ := hupdated r.toName hmem
    rw [(hends r hr).2.2] at hold
    cases hold
  generalize (old.diff new).updated.foldl (reconcileUpdated p root choose new) g₁ = g₂ at *
  have hapart : ∀ r ∈ (old.diff new).renamed, ∀ r' ∈ (old.diff new).renamed,
      r.fromName ≠ r'.toName := by
    intro r hr r' hr' heq
    obtain ⟨⟨⟨spec, hold⟩, -⟩, -⟩ := hends r hr
    rw [heq, (hends r' hr').2.2] at hold
    cases hold
  obtain ⟨hg₃, hserves₃, hsame₃⟩ := foldl_reconcileRenamed root choose new (old.diff new).renamed
    SoloYml.nodup_renamed_from SoloYml.nodup_renamed_to hapart hg₂ hready₂ hfree₂
  generalize (old.diff new).renamed.foldl (reconcileRenamed p root choose new) g₂ = g₃ at *
  obtain ⟨hg₄, hsame₄⟩ := foldl_reconcileRemoved choose (old.diff new).removed hg₃
  refine ⟨hg₄, fun n spec hnew => ?_⟩
  have hstays : n ∉ (old.diff new).removed := by
    intro hmem
    rw [hremoved n hmem] at hnew
    cases hnew
  apply (hsame₄ n hstays).serves
  by_cases hto : ∃ r ∈ (old.diff new).renamed, n = r.toName
  · obtain ⟨r, hr, rfl⟩ := hto
    exact hserves₃ r hr spec hnew
  · push Not at hto
    have hfrom : ∀ r ∈ (old.diff new).renamed, n ≠ r.fromName ∧ n ≠ r.toName := by
      intro r hr
      refine ⟨?_, hto r hr⟩
      rintro rfl
      rw [(hends r hr).1.2] at hnew
      cases hnew
    apply (hsame₃ n hfrom).serves
    by_cases hupd : n ∈ (old.diff new).updated
    · exact hserves₂ n hupd spec hnew
    · apply (hsame₂ n hupd).serves
      cases hold : old.processes.get n with
      | none =>
        have hnew' : n ∈ new.lacking old :=
          SoloYml.mem_lacking.mpr ⟨IndexMap.mem_keys.mpr ⟨spec, hnew⟩, hold⟩
        have hadd : n ∈ (old.diff new).added :=
          SoloYml.mem_added_iff.mpr ⟨hnew', fun r hr heq => hto r hr heq.symm⟩
        exact hserves₁ n hadd spec hnew
      | some prev =>
        have hsame : prev.Same spec := by
          by_contra hdiffer
          exact hupd (SoloYml.mem_updated.mpr ⟨prev, spec, hold, hnew, hdiffer⟩)
        have hagree : Processes.Agree (old.processes.get n) (some spec) := by
          rw [hold]
          exact hsame
        exact hkept₁ n spec (hequal n spec hnew hagree)

theorem open_matches (root : PathBuf) (choose : Choice) (config : SoloYml) (hg : g.Filing p) :
    (config.processes.keys.foldl (reconcileAdded p root choose config) g).Filing p ∧
      (config.processes.keys.foldl (reconcileAdded p root choose config) g).Matches p root config := by
  obtain ⟨hfiling, hserves, -⟩ :=
    foldl_serves root config (reconcileAdded p root choose config) False
      (fun g name hg _ => reconcileAdded_serves root choose config hg) config.processes.keys
      (fun n hn => IndexMap.mem_keys.mp hn) hg False.elim
  exact ⟨hfiling, fun name spec hspec =>
    hserves name (IndexMap.mem_keys.mpr ⟨spec, hspec⟩) spec hspec⟩

end CommandRegistry

inductive ReloadError
  | unknownProject
  | sync (error : SyncError)
  | store (error : StoreError)
  deriving DecidableEq, Repr

/-- One project of the app: its commands' stores, the process registry, and whether the project is
on record. -/
structure ProjectWorld where
  stores : CommandStores
  registry : CommandRegistry
  known : Bool

inductive ProjectEvent
  /-- Another program replaces or removes `solo.yml`. -/
  | external (content : Option String)
  | open (choose : Choice) (readFault : Option String)
  /-- A user's edit of a shared command. -/
  | edit (edit : CommandEdit) (faults : EditFaults)
  | reload (choose : Choice) (store : Option StoreError) (w : WriteFaults)
  /-- A terminal, an agent, or any process of another project. -/
  | launch (row : Row)
  /-- An agent spawns a command, whose label is numbered until it is free in the project. -/
  | spawn (label : String) (spec : ProcessSpec)
  | setStatus (id : ProcessId) (status : ProcStatus) (exitCode : Option Int)
  /-- A user gives a process another label. -/
  | rename (id : ProcessId) (label : String)
  | close (id : ProcessId)

namespace ProjectWorld
variable [Yaml] [Sha256] (p : ProjectId) (root : PathBuf)

def openProject (s : ProjectWorld) (choose : Choice) (readFault : Option String) :
    ProjectWorld × Except ConfigError SoloYml :=
  match s.stores.config.openProject readFault with
  | (_, .error e) => (s, .error e)
  | (config, .ok opened) =>
    ({ stores := { s.stores with config }
       registry := opened.processes.keys.foldl
         (CommandRegistry.reconcileAdded p root choose opened) s.registry
       known := true }, .ok opened)

def reload (s : ProjectWorld) (choose : Choice) (store : Option StoreError) (w : WriteFaults) :
    ProjectWorld × Except ReloadError (Option ConfigSync) :=
  match store with
  | some e => (s, .error (.store e))
  | none =>
    if s.known then
      match s.stores.config.sync (w.environment s.stores.trusted) with
      | (_, .error e) => (s, .error (.sync e))
      | (_, .ok none) => (s, .ok none)
      | (config, .ok (some changes)) =>
        let s := { s with stores := { s.stores with config } }
        match config.state with
        | none => (s, .ok (some changes))
        | some state =>
          ({ s with registry := s.registry.reconcile p root choose state.last changes },
            .ok (some changes))
    else (s, .error .unknownProject)

omit [Yaml] [Sha256] in
def taken (s : ProjectWorld) (label : String) : Bool :=
  (List.range s.registry.nextProcess).any fun id =>
    (s.registry.rows id).any fun row => row.entry.project = p && row.label = label

omit [Yaml] [Sha256] in
def modifyRow (s : ProjectWorld) (id : ProcessId) (change : Row → Row) : ProjectWorld :=
  { s with registry := s.registry.modifyRow id change }

def step (s : ProjectWorld) : ProjectEvent → Option ProjectWorld
  | .external content =>
    some { s with stores := { s.stores with config := { s.stores.config with disk := content } } }
  | .open choose readFault => some (s.openProject p root choose readFault).1
  | .edit edit faults => some { s with stores := (s.stores.editShared edit faults).1 }
  | .reload choose store w => some (s.reload p root choose store w).1
  | .launch row =>
    if row.isCommandIn p then none else some { s with registry := s.registry.insert row }
  | .spawn label spec =>
    if s.taken p label then none
    else some { s with registry := s.registry.register p root label spec }
  | .setStatus id status exitCode =>
    some (s.modifyRow id fun row => { row with entry := row.entry.withStatus status exitCode })
  | .rename id label => some (s.modifyRow id fun row => { row with label })
  | .close id => some { s with registry := s.registry.erase id }

/-- Every command of `solo.yml` has exactly one command process filed under its name, with its
spec. -/
def Follows (s : ProjectWorld) : Prop :=
  ∀ text config, loadOrEmpty s.stores.config.disk none = .ok (text, config) →
    ∀ name spec, config.processes.get name = some spec → ∃ id row,
      s.registry.Filed p name id row ∧ row.Runs root spec ∧
        ∀ id' row', s.registry.Filed p name id' row' → id' = id

/-- What keeps the registry with the file: an edit by the user that goes through leaves in the file
only commands as the engine knew them; when the project reloads, it is open, the file has the
commands the engine knows wherever the hash or the comparison says so, and no command is renamed to
a label in use; and no command of the file as known is closed or relabelled, nor another command
given a label in use. -/
def Steady (s : ProjectWorld) : ProjectEvent → Prop
  | .edit edit f => ∀ plan commands, s.stores.checkEdit edit f.get = .ok () →
      s.stores.config.prepare edit.mutation f.write.read = .ok (some plan) →
      f.write.replace = none →
      pendingTrust (f.write.environment s.stores.trusted).trust plan.intended
        plan.changes.touched = .ok commands →
      ∀ name spec, plan.intended.processes.get name = some spec → s.stores.spec name = some spec
  | .reload _ _ _ => ∃ state, s.stores.config.state = some state ∧ ∀ text config,
      loadOrEmpty s.stores.config.disk none = .ok (text, config) →
        (∀ name spec, config.processes.get name = some spec →
          contentHash text = state.lastHash ∨
            Processes.Agree (state.last.processes.get name) (some spec) →
              state.last.processes.get name = some spec) ∧
        (contentHash text ≠ state.lastHash →
          ∀ r ∈ (state.last.diff config).renamed, s.registry.Free p r.toName)
  | .rename id label => ∀ row, s.registry.rows id = some row → row.isCommandIn p = true →
      s.stores.spec row.label = none ∧ s.registry.Free p label
  | .close id => ∀ row, s.registry.rows id = some row → row.isCommandIn p = true →
      s.stores.spec row.label = none
  | _ => True

structure Served (s : ProjectWorld) : Prop where
  filing : s.registry.Filing p
  known : ∀ state, s.stores.config.state = some state → s.registry.Matches p root state.last

end ProjectWorld

/-- A project before it is opened, whatever its files and settings hold. -/
def projectMachine [Yaml] [Sha256] (p : ProjectId) (root : PathBuf) :
    Machine ProjectWorld ProjectEvent where
  init s := s.stores.config.state = none ∧ s.registry = ⟨Slots.empty, 1⟩ ∧ s.known = false
  step := ProjectWorld.step p root

namespace ProjectWorld
variable [Yaml] [Sha256] {p : ProjectId} {root : PathBuf} {s t : ProjectWorld} {e : ProjectEvent}

theorem served_init (h : (projectMachine p root).init s) : s.Served p root := by
  obtain ⟨hstate, hregistry, -⟩ := h
  constructor
  · rw [hregistry]
    constructor
    · intro id row hrow
      cases hrow
    · rintro name i j row row' ⟨hrow, -⟩
      cases hrow
  · intro state hsome
    rw [hstate] at hsome
    cases hsome

omit [Yaml] in
theorem Served.of_state (hs : s.Served p root) (hregistry : t.registry = s.registry)
    (hstate : ∀ state, t.stores.config.state = some state →
      ∀ name spec, state.last.processes.get name = some spec → s.stores.spec name = some spec) :
    t.Served p root := by
  constructor
  · rw [hregistry]
    exact hs.filing
  · intro state hsome name spec hspec
    have hknown := hstate state hsome name spec hspec
    obtain ⟨state', hsome', hget⟩ := Option.bind_eq_some_iff.mp hknown
    rw [hregistry]
    exact hs.known state' hsome' name spec hget

omit [Yaml] in
theorem Served.same_state (hs : s.Served p root) (hregistry : t.registry = s.registry)
    (hstate : t.stores.config.state = s.stores.config.state) : t.Served p root := by
  refine hs.of_state hregistry fun state hsome name spec hspec => ?_
  rw [hstate] at hsome
  exact Option.bind_eq_some_iff.mpr ⟨state, hsome, hspec⟩

omit [Yaml] in
theorem Served.of_registry (hs : s.Served p root) (hstores : t.stores = s.stores)
    (hfiling : t.registry.Filing p)
    (hserves : ∀ name spec, s.stores.spec name = some spec →
      s.registry.Serves p root name spec → t.registry.Serves p root name spec) :
    t.Served p root := by
  constructor
  · exact hfiling
  · intro state hsome name spec hspec
    rw [hstores] at hsome
    have hknown : s.stores.spec name = some spec :=
      Option.bind_eq_some_iff.mpr ⟨state, hsome, hspec⟩
    exact hserves name spec hknown (hs.known state hsome name spec hspec)

variable {label : String}

omit [Yaml] in
theorem free_of_not_taken (hs : s.Served p root) (h : ¬s.taken p label = true) :
    s.registry.Free p label := by
  rintro id row ⟨hrow, hcommand, hlabel⟩
  apply h
  refine any_eq_true.mpr ⟨id, mem_range.mpr (hs.filing.numbered id row hrow), ?_⟩
  have hproject : row.entry.kind = .command ∧ row.entry.project = p := by
    simpa [Row.isCommandIn] using hcommand
  simp [hrow, hlabel, hproject.2]

theorem follows_of_matches (hfiling : s.registry.Filing p)
    (hmatches : ∀ text config, loadOrEmpty s.stores.config.disk none = .ok (text, config) →
      s.registry.Matches p root config) : s.Follows p root := by
  intro text config hload name spec hspec
  obtain ⟨id, row, hfiled, hruns⟩ := hmatches text config hload name spec hspec
  exact ⟨id, row, hfiled, hruns, fun id' row' hfiled' =>
    hfiling.distinct name id' id row' row hfiled' hfiled⟩

variable {choose : Choice} {store : Option StoreError} {w : WriteFaults}

/-- A steady reload keeps the registry with what the engine knows, and one that succeeds leaves it
with the file. -/
theorem reload_served (hs : s.Served p root) (hsteady : s.Steady p (.reload choose store w)) :
    (s.reload p root choose store w).1.Served p root ∧
      ∀ changes, (s.reload p root choose store w).2 = .ok changes →
        (s.reload p root choose store w).1.Follows p root := by
  obtain ⟨prev, hprev, hfile⟩ := hsteady
  unfold reload
  cases store with
  | some e => exact ⟨hs, fun changes h => by cases h⟩
  | none =>
    dsimp only
    split_ifs
    · unfold ConfigEngine.sync
      rw [hprev]
      dsimp only
      cases hload : loadOrEmpty s.stores.config.disk (w.environment s.stores.trusted).readFault with
      | error e => exact ⟨hs, fun changes h => by cases h⟩
      | ok loaded =>
        obtain ⟨text, config⟩ := loaded
        obtain ⟨-, -, -, hread⟩ := loadOrEmpty_eq_ok hload
        obtain ⟨hequal, hfree⟩ := hfile text config hread
        dsimp only
        by_cases hhash : contentHash text = prev.lastHash
        · rw [if_pos hhash]
          refine ⟨hs, fun changes _ => follows_of_matches hs.filing ?_⟩
          intro text' config' hload' name spec hspec
          rw [hread] at hload'
          cases hload'
          exact hs.known prev hprev name spec (hequal name spec hspec (.inl hhash))
        · rw [if_neg hhash]
          cases pendingTrust (w.environment s.stores.trusted).trust config
              (prev.last.diff config).touched with
          | error e => exact ⟨hs, fun changes h => by cases h⟩
          | ok commands =>
            obtain ⟨hfiling, hmatches⟩ := CommandRegistry.reconcile_matches choose hs.filing (hs.known prev hprev)
              (fun name spec hspec hagree => hequal name spec hspec (.inr hagree)) (hfree hhash)
            refine ⟨⟨hfiling, ?_⟩, fun changes _ => follows_of_matches hfiling ?_⟩
            · intro state hsome
              cases hsome
              exact hmatches
            · intro text' config' hload' name spec hspec
              have hsame : loadOrEmpty s.stores.config.disk none = .ok (text', config') := hload'
              rw [hread] at hsame
              cases hsame
              exact hmatches name spec hspec
    · exact ⟨hs, fun changes h => by cases h⟩

theorem openProject_served (hs : s.Served p root) (choose : Choice) (readFault : Option String) :
    (s.openProject p root choose readFault).1.Served p root := by
  unfold openProject ConfigEngine.openProject
  cases loadOrEmpty s.stores.config.disk readFault with
  | error e => exact hs
  | ok loaded =>
    obtain ⟨text, config⟩ := loaded
    obtain ⟨hfiling, hmatches⟩ :=
      CommandRegistry.open_matches root choose config hs.filing
    refine ⟨hfiling, fun state hsome => ?_⟩
    cases hsome
    exact hmatches

theorem editShared_served (hs : s.Served p root) {edit : CommandEdit} {f : EditFaults}
    (hsteady : s.Steady p (.edit edit f)) :
    Served p root { s with stores := (s.stores.editShared edit f).1 } := by
  rcases CommandStores.editShared_config s.stores edit f with hsame | ⟨hcheck, hwrite⟩
  · exact hs.same_state rfl (congrArg ConfigEngine.state hsame)
  · have hstate := congrArg ConfigEngine.state hwrite
    rcases CommandStores.writeSharedCommand_state s.stores edit.mutation f.write with
      hkept | ⟨plan, commands, hplan, hreplace, htrust, hstored⟩
    · exact hs.same_state rfl (hstate.trans hkept)
    · refine hs.of_state rfl fun state hsome name spec hspec => ?_
      have hplanned : some ⟨contentHash plan.newText, plan.intended⟩ = some state :=
        (hstate.trans hstored).symm.trans hsome
      cases hplanned
      exact hsteady plan commands hcheck hplan hreplace htrust name spec hspec

omit [Yaml] in
theorem setStatus_served (hs : s.Served p root) (id : ProcessId) (status : ProcStatus)
    (exitCode : Option Int) :
    Served p root (s.modifyRow id fun row =>
      { row with entry := row.entry.withStatus status exitCode }) := by
  refine hs.of_registry rfl ?_ fun name spec _ hserves => ?_
  · refine hs.filing.mono le_rfl ?_
    intro i r hi
    obtain ⟨old, hold, heq⟩ := Slots.modify_eq_some.mp hi
    refine ⟨old, hold, ?_⟩
    split_ifs at heq <;> exact heq ▸ fun hrc => ⟨hrc, rfl⟩
  · exact CommandRegistry.modifyRow_serves (fun _ => rfl) (fun _ => rfl)
      (fun row hruns => ⟨hruns.1, hruns.2, hruns.3, hruns.4, hruns.5⟩) hserves

variable {id : ProcessId}

omit [Yaml] in
theorem rename_served (hs : s.Served p root)
    (hsteady : ∀ row, s.registry.rows id = some row → row.isCommandIn p = true →
      s.stores.spec row.label = none ∧ s.registry.Free p label) :
    Served p root (s.modifyRow id fun row => { row with label }) := by
  by_cases hcommand : ∃ row, s.registry.rows id = some row ∧ row.isCommandIn p = true
  · obtain ⟨row, hrow, hcommand⟩ := hcommand
    obtain ⟨hunknown, hfree⟩ := hsteady row hrow hcommand
    obtain ⟨hfiling, -, hsame⟩ := CommandRegistry.modifyRow_filing hs.filing
      (fun row => { row with label }) rfl ⟨hrow, hcommand, rfl⟩ (.inr hfree)
    refine hs.of_registry rfl hfiling fun name spec hknown hserves => ?_
    refine (hsame name ?_ ?_).serves hserves
    · rintro rfl
      rw [hunknown] at hknown
      cases hknown
    · rintro rfl
      exact hserves.not_free hfree
  · push Not at hcommand
    obtain ⟨hfiling, hsame⟩ := CommandRegistry.modifyRow_apart hs.filing
      (fun row => { row with label }) (fun _ => rfl)
      (fun row hrow => Bool.eq_false_iff.mpr (hcommand row hrow))
    exact hs.of_registry rfl hfiling fun name spec _ hserves => (hsame name).serves hserves

omit [Yaml] in
theorem close_served (hs : s.Served p root)
    (hsteady : ∀ row, s.registry.rows id = some row → row.isCommandIn p = true →
      s.stores.spec row.label = none) :
    Served p root { s with registry := s.registry.erase id } := by
  obtain ⟨hfiling, hsame⟩ := CommandRegistry.erase_filing hs.filing id
  refine hs.of_registry rfl hfiling fun name spec hknown hserves => ?_
  refine (hsame name ?_).serves hserves
  rintro row ⟨hrow, hcommand, rfl⟩
  rw [hsteady row hrow hcommand] at hknown
  cases hknown

omit [Yaml] in
theorem insert_served (hs : s.Served p root) {row : Row}
    (hfree : row.isCommandIn p = true → s.registry.Free p row.label) :
    Served p root { s with registry := s.registry.insert row } := by
  obtain ⟨hfiling, hsame, -⟩ := CommandRegistry.insert_filing hs.filing row hfree
  refine hs.of_registry rfl hfiling fun name spec _ hserves => ?_
  refine (hsame name ?_).serves hserves
  rintro hcommand rfl
  exact hserves.not_free (hfree hcommand)

theorem step_served (hs : s.Served p root) (hsteady : s.Steady p e)
    (h : s.step p root e = some t) : t.Served p root := by
  cases e with
  | external content =>
    cases h
    exact hs.same_state rfl rfl
  | «open» choose readFault =>
    cases h
    exact openProject_served hs choose readFault
  | edit edit f =>
    cases h
    exact editShared_served hs hsteady
  | reload choose store w =>
    cases h
    exact (reload_served hs hsteady).1
  | launch row =>
    simp only [step] at h
    split_ifs at h with hcommand
    cases h
    exact insert_served hs fun hrow => absurd hrow hcommand
  | spawn label spec =>
    simp only [step] at h
    split_ifs at h with htaken
    cases h
    exact insert_served hs fun _ => free_of_not_taken hs htaken
  | setStatus id status exitCode =>
    cases h
    exact setStatus_served hs id status exitCode
  | rename id label =>
    cases h
    exact rename_served hs hsteady
  | close id =>
    cases h
    exact close_served hs hsteady

end ProjectWorld

/-- After a reload that succeeds, in any run of edits from inside and outside, of reloads and of what
happens to the processes, that keeps steady, every command of `solo.yml` has exactly one registered
command process under its name, with its spec. -/
theorem reload_follows [Yaml] [Sha256] {p : ProjectId} {root : PathBuf} {s : ProjectWorld}
    {choose : Choice} {store : Option StoreError} {w : WriteFaults} {changes : Option ConfigSync}
    (h : (projectMachine p root).ReachableUnder (ProjectWorld.Steady p) s)
    (hsteady : s.Steady p (.reload choose store w))
    (hok : (s.reload p root choose store w).2 = .ok changes) :
    (s.reload p root choose store w).1.Follows p root := by
  have hs : s.Served p root := h.invariant (fun s hinit => ProjectWorld.served_init hinit)
    fun s e t hsteady hs hstep => ProjectWorld.step_served hs hsteady hstep
  exact (ProjectWorld.reload_served hs hsteady).2 changes hok

/-- A project without a `solo.yml`, before it is opened. -/
def emptyProject : ProjectWorld where
  stores := ⟨⟨none, none, []⟩, ⟨false, IndexMap.empty⟩, fun _ => false⟩
  registry := ⟨Slots.empty, 1⟩
  known := false

def firstChoice : Choice := fun _ ids => ids.headD 0

def EditFaults.none : EditFaults :=
  ⟨.none, ⟨.none, .none, fun _ => .none, .none, fun _ => .none⟩, .none⟩

/-- The project is opened, and another program writes its first command. -/
def firstExternal : List ProjectEvent := [.open firstChoice none, .external (some plainText)]

/-- The project is opened, and the user adds its first command in the app. -/
def firstAdded : List ProjectEvent :=
  [.open firstChoice none, .edit (.add "web" ⟨"serve", none, true, false, [], []⟩) .none]

theorem reload_follows_external :
    letI := Yaml.ofTable renderings
    letI := Sha256.ofTable firstWriteDigests
    ∃ s, (projectMachine 1 [.rootDir]).run emptyProject firstExternal = some s ∧
      (s.reload 1 [.rootDir] firstChoice none EditFaults.none.write).2 =
        .ok (some ⟨["web"], [], [], []⟩) ∧
      (s.reload 1 [.rootDir] firstChoice none EditFaults.none.write).1.Follows 1 [.rootDir] := by
  let _ := Yaml.ofTable renderings
  let _ := Sha256.ofTable firstWriteDigests
  have hok : (ProjectWorld.reload 1 [.rootDir] ⟨⟨⟨some plainText, some ⟨contentHash "", .default⟩, []⟩,
      ⟨false, IndexMap.empty⟩, fun _ => false⟩, ⟨Slots.empty, 1⟩, true⟩ firstChoice none
        EditFaults.none.write).2 = .ok (some ⟨["web"], [], [], []⟩) := by decide
  refine ⟨_, rfl, hok, ?_⟩
  have hread : loadOrEmpty (some plainText) none = .ok (plainText, serveConfig []) := by decide
  have hhash : contentHash plainText ≠ contentHash "" := by decide
  have hrenamed : (SoloYml.default.diff (serveConfig [])).renamed = [] := by decide
  refine reload_follows ⟨emptyProject, firstExternal, ⟨rfl, rfl, rfl⟩,
    ⟨trivial, fun _ _ => ⟨trivial, fun _ _ => trivial⟩⟩, rfl⟩ ?_ hok
  refine ⟨⟨contentHash "", .default⟩, rfl, fun text config hload => ?_⟩
  have hloaded : loadOrEmpty (some plainText) none = .ok (text, config) := hload
  rw [hread] at hloaded
  cases hloaded
  constructor
  · rintro name spec - (hsame | hagree)
    · exact absurd hsame hhash
    · exact hagree.elim
  · intro _ r hr
    rw [hrenamed] at hr
    cases hr

/-- The edit has refreshed the stored hash, so the reload finds nothing to do: the command is in the
file, and no process is registered for it. -/
theorem added_not_registered :
    letI := Yaml.ofTable renderings
    letI := Sha256.ofTable firstWriteDigests
    ∃ s, (projectMachine 1 [.rootDir]).run emptyProject firstAdded = some s ∧
      s.stores.shared "web" = some ⟨"serve", none, true, false, [], []⟩ ∧
      (s.reload 1 [.rootDir] firstChoice none EditFaults.none.write).2 = .ok none ∧
      ¬(s.reload 1 [.rootDir] firstChoice none EditFaults.none.write).1.Follows 1 [.rootDir] := by
  let _ := Yaml.ofTable renderings
  let _ := Sha256.ofTable firstWriteDigests
  refine ⟨_, rfl, by decide, by decide, ?_⟩
  intro hfollows
  have hread : loadOrEmpty (some ("\n" ++ plainText)) none =
      .ok ("\n" ++ plainText, serveConfig []) := by decide
  obtain ⟨id, row, hfiled, -⟩ := hfollows _ _ hread "web" ⟨"serve", none, true, false, [], []⟩ rfl
  cases hfiled.1

end Soloist
