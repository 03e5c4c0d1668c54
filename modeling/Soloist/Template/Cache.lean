import Soloist.Machine
import Soloist.Slots
import Soloist.Template.Repo

/-! The template aggregate: its validation, its cache of each `(kind, scope)`'s rows behind one
lock, and the evictor of removed projects, with every caller's accesses interleaved. -/
namespace Soloist

def maxTemplateBody : ℕ := 64 * 1024
def maxTemplateName : ℕ := 200
def maxTemplateDescription : ℕ := 1000
def maxTemplatesPerScope : ℕ := 500
def maxPlaceholdersPerBody : ℕ := 100

structure TemplateView where
  id : TemplateId
  kind : TemplateKind
  name : String
  description : Option String
  body : String
  placeholders : List String
  scope : TemplateScope
  revision : ℕ
  deriving DecidableEq, Repr

/-- Everything of a template but its body. -/
structure TemplateSummary where
  id : TemplateId
  kind : TemplateKind
  name : String
  description : Option String
  placeholders : List String
  scope : TemplateScope
  revision : ℕ
  deriving DecidableEq, Repr

def scopeOf : Option ProjectId → TemplateScope
  | none => .global
  | some _ => .project

def TemplateView.of (r : StoredTemplate) : TemplateView where
  id := r.id
  kind := r.kind
  name := r.name
  description := r.description
  body := r.body
  placeholders := Soloist.placeholders r.body
  scope := scopeOf r.project
  revision := r.revision

def TemplateSummary.of (r : StoredTemplate) : TemplateSummary where
  id := r.id
  kind := r.kind
  name := r.name
  description := r.description
  placeholders := Soloist.placeholders r.body
  scope := scopeOf r.project
  revision := r.revision

inductive TemplateWriteError
  | invalid (message : String)
  | conflict (expected actual : Option ℕ)
  | store (error : StoreError)
  deriving DecidableEq, Repr

/-- What a caller asks to be written: `expected` is the revision it read, or nothing to create. -/
structure TemplateWrite where
  kind : TemplateKind
  project : Option ProjectId
  name : String
  description : Option String
  body : String
  expected : Option ℕ
  deriving DecidableEq, Repr

namespace TemplateWrite

def description' (w : TemplateWrite) : Option String :=
  (w.description.map trim).filter fun text => text ≠ ""

def problems (w : TemplateWrite) (occupied : Option ℕ) : List String :=
  (if trim w.name = "" then ["the name is empty"]
    else if maxTemplateName < (trim w.name).length then
      [s!"the name exceeds {maxTemplateName} characters"]
    else []) ++
  (if (w.description'.any fun text => maxTemplateDescription < text.length) = true then
    [s!"the description exceeds {maxTemplateDescription} characters"] else []) ++
  (if isBlank w.body then ["the body is empty"] else []) ++
  (if maxTemplateBody < w.body.utf8ByteSize then
    ["the body exceeds the 64 KiB cap"] else []) ++
  (if declaresMorePlaceholdersThan w.body maxPlaceholdersPerBody then
    [s!"the body declares more than {maxPlaceholdersPerBody} distinct placeholders"] else []) ++
  (if (occupied.any fun held => maxTemplatesPerScope ≤ held) = true then
    [s!"the scope already holds the maximum of {maxTemplatesPerScope} templates"] else [])

def validate (w : TemplateWrite) (occupied : Option ℕ) : Except TemplateWriteError Unit :=
  if w.problems occupied = [] then .ok ()
  else .error (.invalid ("; ".intercalate (w.problems occupied)))

end TemplateWrite

abbrev CacheKey := TemplateKind × Option ProjectId

def CacheKey.group (key : CacheKey) : TemplateGroup := (key.1, scopeParam key.2)

def TemplateWrite.key (w : TemplateWrite) : CacheKey := (w.kind, w.project)

/-- The two readers of the cached rows. -/
inductive TemplateRead
  | list
  | resolve (id : TemplateId)
  deriving DecidableEq, Repr

inductive TemplateAnswer
  | summaries (templates : List TemplateSummary)
  | view (template : Option TemplateView)
  deriving DecidableEq, Repr

def TemplateRead.answer (rows : List StoredTemplate) : TemplateRead → TemplateAnswer
  | .list => .summaries (rows.map .of)
  | .resolve id => .view ((rows.find? fun r => r.id = id).map .of)

inductive TemplateReply
  | written (result : Except TemplateWriteError TemplateView)
  | deleted (result : Except StoreError Bool)
  | removed (result : Except StoreError Unit)

/-- A call under way, as what it holds before its next access. A reader keeps the last version of
its group whose write had returned when the call began. -/
inductive TemplateCall
  /-- An update without a description reads the stored one. -/
  | keeping (w : TemplateWrite)
  | counting (w : TemplateWrite)
  | storing (w : TemplateWrite)
  | deleting (key : CacheKey) (name : String)
  | invalidating (key : CacheKey) (version : ℕ) (reply : TemplateReply)
  | looking (key : CacheKey) (read : TemplateRead) (since : ℕ)
  | filling (key : CacheKey) (read : TemplateRead) (since : ℕ)
  | scanning (key : CacheKey) (read : TemplateRead) (since : ℕ)
  | inserting (key : CacheKey) (read : TemplateRead) (since : ℕ) (rows : List StoredTemplate)
  | answered (key : CacheKey) (read : TemplateRead) (since : ℕ)
      (result : Except StoreError TemplateAnswer)
  /-- A project's removal, by the project service. -/
  | dropping (p : ProjectId)
  | announcing (p : ProjectId)
  | returned (reply : TemplateReply)

/-- The evictor's loop: down, or up with the removals it has not read yet. It starts cold. -/
inductive Evictor
  | down
  | up (cold : Bool) (queue : List ProjectId) (lagged : Bool)
  deriving DecidableEq, Repr

namespace Evictor

def publish (p : ProjectId) : Evictor → Evictor
  | .down => .down
  | .up cold queue lagged => .up cold (queue ++ [p]) lagged

/-- What is announced of `p` has not been read yet, or may have been missed. -/
def Owes (p : ProjectId) : Evictor → Prop
  | .down => True
  | .up cold queue lagged => cold = true ∨ lagged = true ∨ p ∈ queue

instance (p : ProjectId) : ∀ e : Evictor, Decidable (e.Owes p)
  | .down => isTrue trivial
  | .up _ _ _ => inferInstanceAs (Decidable (_ ∨ _ ∨ _))

end Evictor

structure TemplateWorld where
  projects : ProjectTable
  store : TemplateTable
  cache : Slots CacheKey (List StoredTemplate)
  /-- The call that holds the cache's write guard. -/
  holder : Option ℕ
  calls : Slots ℕ TemplateCall
  nextCall : ℕ
  evictor : Evictor
  /-- How often the rows of a group have changed, and the rows after each change. -/
  version : TemplateGroup → ℕ
  history : TemplateGroup → ℕ → List StoredTemplate
  /-- The latest version of a group whose write has returned. -/
  acked : TemplateGroup → ℕ

inductive TemplateEvent
  | create (kind : TemplateKind) (project : Option ProjectId) (name : String)
      (description : Option String) (body : String)
  | update (kind : TemplateKind) (project : Option ProjectId) (name : String)
      (description : Option String) (body : String) (expected : ℕ)
  | delete (kind : TemplateKind) (project : Option ProjectId) (name : String)
  | read (kind : TemplateKind) (project : Option ProjectId) (read : TemplateRead)
  | openProject
  | removeProject (p : ProjectId)
  /-- The next access of a call. -/
  | proceed (call : ℕ) (faults : TemplateFaults)
  /-- The evictor reads its next event. -/
  | evict
  /-- The bounded event channel drops the evictor's oldest removals, with other events. -/
  | overflow (lost : ℕ)
  /-- The evictor's loop panics; it is restarted on the live tail, and begins its pass. -/
  | panic
  | resubscribe
  | startCold

namespace TemplateWorld

def begin (s : TemplateWorld) (call : TemplateCall) : TemplateWorld :=
  { s with calls := s.calls.put s.nextCall call, nextCall := s.nextCall + 1 }

def setCall (s : TemplateWorld) (c : ℕ) (call : TemplateCall) : TemplateWorld :=
  { s with calls := s.calls.put c call }

/-- A statement has run: the groups it changed are a version further. -/
def setStore (s : TemplateWorld) (store : TemplateTable) : TemplateWorld :=
  let version := fun g =>
    if store.rowsOf g = s.store.rowsOf g then s.version g else s.version g + 1
  { s with
    store, version
    history := fun g i => if i = version g then store.rowsOf g else s.history g i }

def validated (w : TemplateWrite) (occupied : Option ℕ) : TemplateCall :=
  match w.validate occupied with
  | .error e => .returned (.written (.error e))
  | .ok () => .storing w

def keep (s : TemplateWorld) (w : TemplateWrite) (fault : Option StoreError) : TemplateCall :=
  match fault with
  | some e => .returned (.written (.error (.store e)))
  | none =>
    validated { w with description :=
      (s.store.readOne w.kind w.project (trim w.name)).bind StoredTemplate.description } none

def count (s : TemplateWorld) (w : TemplateWrite) (fault : Option StoreError) : TemplateCall :=
  match fault with
  | some e => .returned (.written (.error (.store e)))
  | none => validated w (some (s.store.count w.kind w.project))

def afterWrite (s : TemplateWorld) (w : TemplateWrite) :
    Except StoreError TemplateWriteResult → TemplateCall
  | .error e => .returned (.written (.error (.store e)))
  | .ok (.conflict actual) => .returned (.written (.error (.conflict w.expected actual)))
  | .ok (.written stored) =>
    .invalidating w.key (s.version w.key.group) (.written (.ok (.of stored)))

def afterDelete (s : TemplateWorld) (key : CacheKey) : Except StoreError Bool → TemplateCall
  | .error e => .returned (.deleted (.error e))
  | .ok false => .returned (.deleted (.ok false))
  | .ok true => .invalidating key (s.version key.group) (.deleted (.ok true))

def storeWrite (s : TemplateWorld) (c : ℕ) (w : TemplateWrite) (faults : TemplateFaults) :
    TemplateWorld :=
  let written := s.store.write s.projects w.kind w.project (trim w.name) w.description' w.body
    w.expected faults
  let t := s.setStore written.1
  t.setCall c (t.afterWrite w written.2)

def storeDelete (s : TemplateWorld) (c : ℕ) (key : CacheKey) (name : String)
    (fault : Option StoreError) : TemplateWorld :=
  let deleted := s.store.delete key.1 key.2 (trim name) fault
  let t := s.setStore deleted.1
  t.setCall c (t.afterDelete key deleted.2)

def dropRecord (s : TemplateWorld) (c : ℕ) (p : ProjectId) : TemplateWorld :=
  if ProjectTable.contains s.projects p then
    { (s.setStore (s.store.dropProject p)).setCall c (.announcing p) with
      projects := s.projects.delete fun q => q = p }
  else s.setCall c (.announcing p)

def invalidate (s : TemplateWorld) (c : ℕ) (key : CacheKey) (version : ℕ)
    (reply : TemplateReply) : TemplateWorld :=
  { s.setCall c (.returned reply) with
    cache := s.cache.erase key
    acked := fun g => if g = key.group then max (s.acked g) version else s.acked g }

def forgetProject (s : TemplateWorld) (p : ProjectId) : TemplateWorld :=
  { s with cache := fun key => if key.2 = some p then none else s.cache key }

def forgetAll (s : TemplateWorld) : TemplateWorld := { s with cache := Slots.empty }

/-- The read guard: a warm entry answers, and a cold one has to be filled. -/
def look (s : TemplateWorld) (c : ℕ) (key : CacheKey) (read : TemplateRead) (since : ℕ) :
    TemplateWorld :=
  match s.cache key with
  | some rows => s.setCall c (.answered key read since (.ok (read.answer rows)))
  | none => s.setCall c (.filling key read since)

/-- The write guard, which is kept across the scan of a vacant entry. -/
def lock (s : TemplateWorld) (c : ℕ) (key : CacheKey) (read : TemplateRead) (since : ℕ) :
    TemplateWorld :=
  match s.cache key with
  | some rows => s.setCall c (.answered key read since (.ok (read.answer rows)))
  | none => { s.setCall c (.scanning key read since) with holder := some c }

def scanRows (s : TemplateWorld) (c : ℕ) (key : CacheKey) (read : TemplateRead) (since : ℕ)
    (fault : Option StoreError) : TemplateWorld :=
  match fault with
  | some e => { s.setCall c (.answered key read since (.error e)) with holder := none }
  | none => s.setCall c (.inserting key read since (s.store.list key.1 key.2))

def insertRows (s : TemplateWorld) (c : ℕ) (key : CacheKey) (read : TemplateRead) (since : ℕ)
    (rows : List StoredTemplate) : TemplateWorld :=
  { s.setCall c (.answered key read since (.ok (read.answer rows))) with
    cache := s.cache.put key rows, holder := none }

def proceed (s : TemplateWorld) (c : ℕ) (faults : TemplateFaults) : Option TemplateWorld :=
  match s.calls c with
  | none | some (.returned _) | some (.answered _ _ _ _) => none
  | some (.keeping w) => some (s.setCall c (s.keep w faults.statement))
  | some (.counting w) => some (s.setCall c (s.count w faults.statement))
  | some (.storing w) => some (s.storeWrite c w faults)
  | some (.deleting key name) => some (s.storeDelete c key name faults.statement)
  | some (.invalidating key version reply) =>
    if s.holder = none then some (s.invalidate c key version reply) else none
  | some (.looking key read since) =>
    if s.holder = none then some (s.look c key read since) else none
  | some (.filling key read since) =>
    if s.holder = none then some (s.lock c key read since) else none
  | some (.scanning key read since) => some (s.scanRows c key read since faults.statement)
  | some (.inserting key read since rows) => some (s.insertRows c key read since rows)
  | some (.dropping p) =>
    match faults.statement with
    | some e => some (s.setCall c (.returned (.removed (.error e))))
    | none => some (s.dropRecord c p)
  | some (.announcing p) =>
    some { s.setCall c (.returned (.removed (.ok ()))) with evictor := s.evictor.publish p }

def evict (s : TemplateWorld) : Option TemplateWorld :=
  match s.evictor with
  | .down | .up true _ _ | .up false [] false => none
  | .up false queue true =>
    if s.holder = none then some { s.forgetAll with evictor := .up false queue false } else none
  | .up false (p :: queue) false =>
    if s.holder = none then some { s.forgetProject p with evictor := .up false queue false }
    else none

def step (s : TemplateWorld) : TemplateEvent → Option TemplateWorld
  | .create kind project name description body =>
    some (s.begin (.counting ⟨kind, project, name, description, body, none⟩))
  | .update kind project name description body expected =>
    let w : TemplateWrite := ⟨kind, project, name, description, body, some expected⟩
    some (s.begin (if description = none then .keeping w else validated w none))
  | .delete kind project name => some (s.begin (.deleting (kind, project) name))
  | .read kind project read =>
    let key : CacheKey := (kind, project)
    some (s.begin (.looking key read (s.acked key.group)))
  | .openProject => some { s with projects := s.projects.append (s.projects.seq + 1) rfl }
  | .removeProject p => some (s.begin (.dropping p))
  | .proceed c faults => s.proceed c faults
  | .evict => s.evict
  | .overflow lost =>
    match s.evictor with
    | .down => none
    | .up cold queue _ => some { s with evictor := .up cold (queue.drop lost) true }
  | .panic =>
    match s.evictor with
    | .down => none
    | .up _ _ _ => some { s with evictor := .down }
  | .resubscribe =>
    match s.evictor with
    | .down => some { s with evictor := .up true [] false }
    | .up _ _ _ => none
  | .startCold =>
    match s.evictor with
    | .up true queue lagged =>
      if s.holder = none then some { s.forgetAll with evictor := .up false queue lagged } else none
    | _ => none

end TemplateWorld

def templateMachine : Machine TemplateWorld TemplateEvent where
  init s := s.cache = Slots.empty ∧ s.holder = none ∧ s.calls = Slots.empty ∧ s.nextCall = 0 ∧
    s.evictor = .down ∧ s.version = (fun _ => 0) ∧ s.history = (fun g _ => s.store.rowsOf g) ∧
    s.acked = fun _ => 0
  step := TemplateWorld.step

end Soloist
