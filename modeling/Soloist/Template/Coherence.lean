import Soloist.Template.Cache

/-! Coherence of the template cache: what a cached entry or a listing's answer may lag behind. -/
open Option Slots

namespace Soloist

def TemplateCall.invalidates (key : CacheKey) : TemplateCall → Bool
  | .invalidating k _ _ => k = key
  | _ => false

/-- Neither between a store step and its invalidation nor before an announcement. -/
def TemplateCall.quiet : TemplateCall → Bool
  | .invalidating _ _ _ | .announcing _ => false
  | _ => true

def TemplateCall.announces (p : ProjectId) : TemplateCall → Bool
  | .announcing q => q = p
  | _ => false

namespace TemplateWorld

def Awaiting (s : TemplateWorld) (p : ProjectId) : Prop :=
  (∃ c < s.nextCall, (s.calls c).any (·.announces p) = true) ∨ s.evictor.Owes p

instance (s : TemplateWorld) : DecidablePred s.Awaiting :=
  fun _ => inferInstanceAs (Decidable (_ ∨ _))

/-- The templates of a removed project are gone, and the evictor is still to drop its entries. -/
def Evicting (s : TemplateWorld) : Option ProjectId → Prop
  | none => False
  | some p => p ≤ s.projects.seq ∧ ProjectTable.contains s.projects p = false ∧ s.Awaiting p

instance (s : TemplateWorld) : DecidablePred s.Evicting
  | none => inferInstanceAs (Decidable False)
  | some _ => inferInstanceAs (Decidable (_ ∧ _ ∧ _))

/-- A write of the key is between its store step and its invalidation, or the removal of its
project between the cascade and the eviction. -/
def Pending (s : TemplateWorld) (key : CacheKey) : Prop :=
  (∃ c < s.nextCall, (s.calls c).any (·.invalidates key) = true) ∨ s.Evicting key.2

instance (s : TemplateWorld) : DecidablePred s.Pending :=
  fun _ => inferInstanceAs (Decidable (_ ∨ _))

/-- No call names the project 0, which no project is, and no row that a write stored fails to be
read back. -/
def Sound (_ : TemplateWorld) : TemplateEvent → Prop
  | .create _ project _ _ _ | .update _ project _ _ _ _ | .delete _ project _ | .read _ project _ =>
    project ≠ some 0
  | .removeProject p => p ≠ 0
  | .proceed _ faults => faults.readBack = none
  | _ => True

instance (s : TemplateWorld) : DecidablePred s.Sound
  | .create _ _ _ _ _ | .update _ _ _ _ _ _ | .delete _ _ _ | .read _ _ _ | .removeProject _ =>
    inferInstanceAs (Decidable (_ ≠ _))
  | .proceed _ _ => inferInstanceAs (Decidable (_ = none))
  | .openProject | .evict | .overflow _ | .panic | .resubscribe | .startCold => isTrue trivial

/-- The invalidation that version `j` of the key's group still owes the cache. -/
def Owed (s : TemplateWorld) (key : CacheKey) (j : ℕ) : Prop :=
  (∃ c reply, c < s.nextCall ∧ s.calls c = some (.invalidating key j reply)) ∨ s.Evicting key.2

/-- The rows are those of a version that no write returned so far is behind, and every later
version still owes its invalidation. -/
def Fresh (s : TemplateWorld) (key : CacheKey) (rows : List StoredTemplate) : Prop :=
  ∃ i, s.acked key.group ≤ i ∧ i ≤ s.version key.group ∧ rows = s.history key.group i ∧
    ∀ j, i < j → j ≤ s.version key.group → s.Owed key j

def Consistent (s : TemplateWorld) (c : ℕ) : TemplateCall → Prop
  | .keeping w | .counting w | .storing w => w.project ≠ some 0
  | .deleting key _ => key.2 ≠ some 0
  | .invalidating key version _ => key.2 ≠ some 0 ∧ version ≤ s.version key.group
  | .looking key _ since | .filling key _ since =>
    key.2 ≠ some 0 ∧ since ≤ s.acked key.group
  | .scanning key _ since => s.holder = some c ∧ key.2 ≠ some 0 ∧ since ≤ s.acked key.group
  | .inserting key _ since rows =>
    s.holder = some c ∧ key.2 ≠ some 0 ∧ since ≤ s.acked key.group ∧ s.Fresh key rows
  | .answered key read since (.ok answer) =>
    ∃ i, since ≤ i ∧ i ≤ s.version key.group ∧ answer = read.answer (s.history key.group i)
  | .answered _ _ _ (.error _) | .announcing _ | .returned _ => True
  | .dropping p => p ≠ 0

structure Coherent (s : TemplateWorld) : Prop where
  numbered : ∀ c call, s.calls c = some call → c < s.nextCall
  latest : ∀ g, s.history g (s.version g) = s.store.rowsOf g
  acked : ∀ g, s.acked g ≤ s.version g
  calls : ∀ c call, s.calls c = some call → s.Consistent c call
  cached : ∀ key rows, s.cache key = some rows → key.2 ≠ some 0 ∧ s.Fresh key rows

/-- The ghost records only grow. -/
structure Extends (s t : TemplateWorld) : Prop where
  version : ∀ g, s.version g ≤ t.version g
  history : ∀ g i, i ≤ s.version g → t.history g i = s.history g i
  acked : ∀ g, s.acked g ≤ t.acked g

variable {s t : TemplateWorld}

theorem Extends.of_eq (hversion : t.version = s.version) (hhistory : t.history = s.history)
    (hacked : t.acked = s.acked) : Extends s t := by
  constructor
  · intro g
    rw [hversion]
  · intro g i _
    rw [hhistory]
  · intro g
    rw [hacked]

variable {key : CacheKey}

theorem eq_of_group_eq {other : CacheKey} (hkey : key.2 ≠ some 0) (hother : other.2 ≠ some 0)
    (h : key.group = other.group) : key = other := by
  obtain ⟨kind, project⟩ := key
  obtain ⟨kind', project'⟩ := other
  obtain ⟨rfl, hscope⟩ := Prod.mk.inj h
  cases project with
  | none =>
    cases project' with
    | none => rfl
    | some q => exact absurd (congrArg some hscope.symm) hother
  | some p =>
    cases project' with
    | none => exact absurd (congrArg some hscope) hkey
    | some q =>
      have hpq : p = q := hscope
      rw [hpq]

variable {rows : List StoredTemplate}

theorem Fresh.extend (h : s.Fresh key rows) (hext : Extends s t)
    (hacked : t.acked key.group = s.acked key.group) (howed : ∀ j, s.Owed key j → t.Owed key j)
    (hnew : ∀ j, s.version key.group < j → j ≤ t.version key.group → t.Owed key j) :
    t.Fresh key rows := by
  obtain ⟨i, hlow, hhigh, hrows, hlater⟩ := h
  refine ⟨i, ?_, ?_, ?_, ?_⟩
  · rw [hacked]
    exact hlow
  · exact hhigh.trans (hext.version key.group)
  · rw [hext.history key.group i hhigh]
    exact hrows
  · intro j hij hj
    by_cases hold : j ≤ s.version key.group
    · exact howed j (hlater j hij hold)
    · exact hnew j (by omega) hj

theorem Coherent.fresh_list (h : s.Coherent) (key : CacheKey) :
    s.Fresh key (s.store.list key.1 key.2) := by
  refine ⟨s.version key.group, h.acked key.group, le_rfl, (h.latest key.group).symm, ?_⟩
  intro j hlow hhigh
  omega

variable {since : ℕ}

theorem Fresh.answer (h : s.Fresh key rows) (hsince : since ≤ s.acked key.group)
    (read : TemplateRead) :
    ∃ i, since ≤ i ∧ i ≤ s.version key.group ∧
      read.answer rows = read.answer (s.history key.group i) := by
  obtain ⟨i, hlow, hhigh, hrows, -⟩ := h
  exact ⟨i, hsince.trans hlow, hhigh, by rw [hrows]⟩

variable {c : ℕ} {call : TemplateCall}

theorem Consistent.extend (h : s.Consistent c call)
    (hext : Extends s t) (hholder : s.holder = some c → t.holder = some c)
    (hfresh : s.holder ≠ none → ∀ key rows, key.2 ≠ some 0 → s.Fresh key rows →
      t.Fresh key rows) : t.Consistent c call := by
  cases call with
  | keeping w | counting w | storing w => exact h
  | deleting key name => exact h
  | invalidating key version reply => exact ⟨h.1, h.2.trans (hext.version key.group)⟩
  | looking key read since | filling key read since =>
    exact ⟨h.1, h.2.trans (hext.acked key.group)⟩
  | scanning key read since => exact ⟨hholder h.1, h.2.1, h.2.2.trans (hext.acked key.group)⟩
  | inserting key read since rows =>
    obtain ⟨hheld, hkey, hsince, hrows⟩ := h
    have hsome : s.holder ≠ none := by simp [hheld]
    exact ⟨hholder hheld, hkey, hsince.trans (hext.acked key.group), hfresh hsome key rows hkey hrows⟩
  | answered key read since result =>
    cases result with
    | error e => trivial
    | ok answer =>
      obtain ⟨i, hlow, hhigh, hanswer⟩ := h
      refine ⟨i, hlow, hhigh.trans (hext.version key.group), ?_⟩
      rw [hext.history key.group i hhigh]
      exact hanswer
  | dropping p => exact h
  | announcing p => trivial
  | returned reply => trivial

/-- The rule for a step: what the records, the calls and the cache may become. -/
theorem Coherent.extend (h : s.Coherent) (hext : Extends s t)
    (hlatest : ∀ g, t.history g (t.version g) = t.store.rowsOf g)
    (hacked : ∀ g, t.acked g ≤ t.version g) (hnext : s.nextCall ≤ t.nextCall)
    (hcalls : ∀ c call, t.calls c = some call → (c < t.nextCall ∧ t.Consistent c call) ∨
      (s.calls c = some call ∧ (s.holder = some c → t.holder = some c)))
    (hcache : ∀ key rows, t.cache key = some rows → s.cache key = some rows ∨
      (key.2 ≠ some 0 ∧ t.Fresh key rows))
    (hfresh : ∀ key rows, key.2 ≠ some 0 → s.holder ≠ none ∨ t.cache key = some rows →
      s.Fresh key rows → t.Fresh key rows) : t.Coherent := by
  constructor
  · intro c call hc
    obtain ⟨hlt, -⟩ | ⟨hold, -⟩ := hcalls c call hc
    · exact hlt
    · exact (h.numbered c call hold).trans_le hnext
  · exact hlatest
  · exact hacked
  · intro c call hc
    obtain ⟨-, hnew⟩ | ⟨hold, hholder⟩ := hcalls c call hc
    · exact hnew
    · exact (h.calls c call hold).extend hext hholder
        fun hsome key rows hkey => hfresh key rows hkey (.inl hsome)
  · intro key rows hrows
    obtain hold | hnew := hcache key rows hrows
    · obtain ⟨hkey, hf⟩ := h.cached key rows hold
      exact ⟨hkey, hfresh key rows hkey (.inr hrows) hf⟩
    · exact hnew

variable {j : ℕ}

theorem Owed.mono (h : s.Owed key j)
    (hnext : s.nextCall ≤ t.nextCall)
    (hcalls : ∀ c reply, s.calls c = some (.invalidating key j reply) →
      t.calls c = some (.invalidating key j reply))
    (hprojects : ∀ p ≤ s.projects.seq, ProjectTable.contains s.projects p = false →
      p ≤ t.projects.seq ∧ ProjectTable.contains t.projects p = false)
    (hawaiting : ∀ p, s.Awaiting p → t.Awaiting p) : t.Owed key j := by
  obtain ⟨c, reply, hlt, hc⟩ | hevicting := h
  · exact .inl ⟨c, reply, hlt.trans_le hnext, hcalls c reply hc⟩
  · right
    cases hproject : key.2 with
    | none =>
      rw [hproject] at hevicting
      exact hevicting
    | some p =>
      rw [hproject] at hevicting
      obtain ⟨hseq, hgone, hp⟩ := hevicting
      obtain ⟨hseq', hgone'⟩ := hprojects p hseq hgone
      exact ⟨hseq', hgone', hawaiting p hp⟩

variable {p : ProjectId}

theorem Awaiting.put (h : s.Awaiting p) (hold : ∀ x, s.calls c = some x → x.quiet = true)
    (hnext : s.nextCall ≤ t.nextCall) (hcalls : t.calls = s.calls.put c call)
    (hevictor : t.evictor = s.evictor) : t.Awaiting p := by
  obtain ⟨d, hd, hany⟩ | hevict := h
  · obtain ⟨x, hx, hann⟩ := any_eq_true _ _ |>.mp hany
    have hne : d ≠ c := by
      rintro rfl
      have hquiet := hold x hx
      cases x <;> cases hquiet <;> cases hann
    left
    refine ⟨d, hd.trans_le hnext, ?_⟩
    rw [hcalls, put_of_ne hne]
    exact hany
  · right
    rw [hevictor]
    exact hevict

theorem Owed.put (h : s.Owed key j)
    (hold : ∀ x, s.calls c = some x → x.quiet = true) (hnext : s.nextCall ≤ t.nextCall)
    (hcalls : t.calls = s.calls.put c call) (hevictor : t.evictor = s.evictor)
    (hprojects : ∀ p ≤ s.projects.seq, ProjectTable.contains s.projects p = false →
      p ≤ t.projects.seq ∧ ProjectTable.contains t.projects p = false) : t.Owed key j := by
  apply h.mono hnext _ hprojects fun p hp => hp.put hold hnext hcalls hevictor
  intro d reply hd
  have hne : d ≠ c := by
    rintro rfl
    cases hold _ hd
  rw [hcalls, put_of_ne hne]
  exact hd

/-- A step of a quiet call that stores nothing and drops nothing from the cache. -/
theorem Coherent.moved (h : s.Coherent)
    (hold : ∀ x, s.calls c = some x → x.quiet = true)
    (hcalls : t.calls = s.calls.put c call) (hc : c < t.nextCall)
    (hnext : s.nextCall ≤ t.nextCall) (hprojects : t.projects = s.projects)
    (hstore : t.store = s.store) (hevictor : t.evictor = s.evictor)
    (hversion : t.version = s.version) (hhistory : t.history = s.history)
    (hacked : t.acked = s.acked)
    (hholder : ∀ d ≠ c, s.holder = some d → t.holder = some d)
    (hcache : ∀ key rows, t.cache key = some rows → s.cache key = some rows ∨
      (key.2 ≠ some 0 ∧ s.Fresh key rows))
    (hcall : (∀ key rows, s.Fresh key rows → t.Fresh key rows) → t.Consistent c call) :
    t.Coherent := by
  have hext : Extends s t := .of_eq hversion hhistory hacked
  have howed : ∀ key j, s.Owed key j → t.Owed key j := by
    intro key j howed
    apply howed.put hold hnext hcalls hevictor
    intro p hseq hgone
    rw [hprojects]
    exact ⟨hseq, hgone⟩
  have hfresh : ∀ key rows, s.Fresh key rows → t.Fresh key rows := by
    intro key rows hf
    apply hf.extend hext (by rw [hacked]) (howed key)
    intro j hlow hhigh
    rw [hversion] at hhigh
    omega
  apply h.extend hext _ _ hnext
  · intro d x hd
    rw [hcalls, put_eq_some] at hd
    obtain ⟨rfl, rfl⟩ | ⟨hne, hd⟩ := hd
    · exact .inl ⟨hc, hcall hfresh⟩
    · exact .inr ⟨hd, hholder d hne⟩
  · intro key rows hrows
    exact (hcache key rows hrows).imp_right fun hnew => ⟨hnew.1, hfresh key rows hnew.2⟩
  · intro key rows _ _ hf
    exact hfresh key rows hf
  · intro g
    rw [hversion, hhistory, hstore]
    exact h.latest g
  · intro g
    rw [hversion, hacked]
    exact h.acked g

theorem Coherent.setCall (h : s.Coherent) (hold : ∀ x, s.calls c = some x → x.quiet = true)
    (hc : c < s.nextCall) (hcall : (s.setCall c call).Consistent c call) :
    (s.setCall c call).Coherent :=
  h.moved hold rfl hc le_rfl rfl rfl rfl rfl rfl rfl (fun _ _ hd => hd) (fun _ _ => .inl)
    fun _ => hcall

theorem Coherent.begin (h : s.Coherent) (hcall : (s.begin call).Consistent s.nextCall call) :
    (s.begin call).Coherent := by
  have hold : ∀ x, s.calls s.nextCall = some x → x.quiet = true :=
    fun x hx => absurd (h.numbered _ x hx) (lt_irrefl _)
  exact h.moved (t := s.begin call) hold rfl (Nat.lt_succ_self _) (Nat.le_succ _) rfl rfl rfl rfl
    rfl rfl (fun _ _ hd => hd) (fun _ _ => .inl) fun _ => hcall

theorem extends_setStore (h : s.Coherent) (store : TemplateTable) :
    Extends s (s.setStore store) := by
  constructor
  · intro g
    show s.version g ≤ if _ then _ else _
    split_ifs
    · exact le_rfl
    · exact Nat.le_succ _
  · intro g i hi
    show (if i = (if _ then _ else _) then _ else _) = _
    split_ifs with hsame hlast hlast
    · rw [hlast, hsame, h.latest]
    · rfl
    · rw [hlast] at hi
      exact absurd hi (Nat.not_succ_le_self _)
    · rfl
  · intro g
    exact le_rfl

variable {store : TemplateTable}

/-- A step that stores: each group it changes owes an invalidation for its new version. -/
theorem Coherent.stored (h : s.Coherent)
    (hold : ∀ x, s.calls c = some x → x.quiet = true) (hc : c < s.nextCall)
    (projects : ProjectTable)
    (hprojects : ∀ p ≤ s.projects.seq, ProjectTable.contains s.projects p = false →
      p ≤ projects.seq ∧ ProjectTable.contains projects p = false)
    (hnew : ∀ key : CacheKey, key.2 ≠ some 0 → store.rowsOf key.group ≠ s.store.rowsOf key.group →
      { (s.setStore store).setCall c call with projects := projects }.Owed key
        (s.version key.group + 1))
    (hcall : { (s.setStore store).setCall c call with projects := projects }.Consistent c call) :
    { (s.setStore store).setCall c call with projects := projects }.Coherent := by
  have hbase := extends_setStore h store
  have hext : Extends s { (s.setStore store).setCall c call with projects := projects } :=
    ⟨hbase.version, hbase.history, hbase.acked⟩
  apply h.extend hext _ _ le_rfl
  · intro d x hd
    obtain ⟨rfl, rfl⟩ | ⟨-, hd⟩ := put_eq_some.mp hd
    · exact .inl ⟨hc, hcall⟩
    · exact .inr ⟨hd, id⟩
  · intro key rows hrows
    exact .inl hrows
  · intro key rows hkey _ hf
    apply hf.extend hext rfl
    · intro j howed
      exact howed.put hold le_rfl rfl rfl hprojects
    · intro j hlow hhigh
      have hversion : j ≤ if store.rowsOf key.group = s.store.rowsOf key.group then
          s.version key.group else s.version key.group + 1 := hhigh
      split_ifs at hversion with hsame
      · omega
      · have hj : j = s.version key.group + 1 := by omega
        rw [hj]
        exact hnew key hkey hsame
  · intro g
    show (if (s.setStore store).version g = (s.setStore store).version g then _ else _) = _
    rw [if_pos rfl]
    rfl
  · intro g
    exact (h.acked g).trans (hbase.version g)

/-- A store step of one key: it goes on to invalidate, or has changed nothing. -/
theorem Coherent.storedKey (h : s.Coherent)
    (hold : ∀ x, s.calls c = some x → x.quiet = true) (hc : c < s.nextCall)
    (hkey : key.2 ≠ some 0) (hother : ∀ g ≠ key.group, store.rowsOf g = s.store.rowsOf g)
    (hcall : (∃ reply, call = .invalidating key ((s.setStore store).version key.group) reply) ∨
      ((∃ reply, call = .returned reply) ∧ store.rowsOf key.group = s.store.rowsOf key.group)) :
    ((s.setStore store).setCall c call).Coherent := by
  apply h.stored hold hc s.projects fun p hseq hgone => ⟨hseq, hgone⟩
  · intro other hne hchanged
    have hgroup : other.group = key.group := by
      by_contra hg
      exact hchanged (hother other.group hg)
    obtain rfl := eq_of_group_eq hne hkey hgroup
    obtain ⟨reply, rfl⟩ | ⟨-, hsame⟩ := hcall
    · have hversion : (s.setStore store).version other.group = s.version other.group + 1 :=
        if_neg hchanged
      left
      refine ⟨c, reply, hc, ?_⟩
      rw [← hversion]
      exact put_self
    · exact absurd hsame hchanged
  · obtain ⟨reply, rfl⟩ | ⟨⟨reply, rfl⟩, -⟩ := hcall
    · exact ⟨hkey, le_rfl⟩
    · trivial

theorem quiet_of_call (hc : s.calls c = some call) (hquiet : call.quiet = true) (x : TemplateCall)
    (hx : s.calls c = some x) : x.quiet = true := by
  obtain rfl := some.inj (hc.symm.trans hx)
  exact hquiet

variable {w : TemplateWrite}

variable {faults : TemplateFaults}

theorem Coherent.storeWrite (h : s.Coherent) (hc : s.calls c = some (.storing w))
    (hread : faults.readBack = none) : (s.storeWrite c w faults).Coherent := by
  have hkey : w.key.2 ≠ some 0 := h.calls c _ hc
  have hold : ∀ x, s.calls c = some x → x.quiet = true := quiet_of_call hc rfl
  unfold TemplateWorld.storeWrite
  have hother : ∀ g ≠ w.key.group, TemplateTable.rowsOf (s.store.write s.projects w.kind w.project
      (trim w.name) w.description' w.body w.expected faults).1 g = s.store.rowsOf g :=
    fun g hg => TemplateTable.rowsOf_write w.description' w.body w.expected faults hg
  have hcases : (∃ stored, (s.store.write s.projects w.kind w.project (trim w.name) w.description'
      w.body w.expected faults).2 = .ok (.written stored)) ∨ (s.store.write s.projects w.kind
      w.project (trim w.name) w.description' w.body w.expected faults).1 = s.store :=
    TemplateTable.write_cases w.description' w.body w.expected hread
  generalize s.store.write s.projects w.kind w.project (trim w.name) w.description' w.body
    w.expected faults = written at hother hcases
  obtain ⟨store, result⟩ := written
  apply h.storedKey hold (h.numbered c _ hc) hkey hother
  cases result with
  | error e =>
    obtain ⟨stored, heq⟩ | hsame := hcases
    · cases heq
    · obtain rfl : store = s.store := hsame
      exact .inr ⟨⟨_, rfl⟩, rfl⟩
  | ok result =>
    cases result with
    | written stored => exact .inl ⟨_, rfl⟩
    | conflict actual =>
      obtain ⟨stored, heq⟩ | hsame := hcases
      · cases heq
      · obtain rfl : store = s.store := hsame
        exact .inr ⟨⟨_, rfl⟩, rfl⟩

variable {fault : Option StoreError}

theorem Coherent.storeDelete (h : s.Coherent) {name : String}
    (hc : s.calls c = some (.deleting key name)) : (s.storeDelete c key name fault).Coherent := by
  have hkey : key.2 ≠ some 0 := h.calls c _ hc
  have hold : ∀ x, s.calls c = some x → x.quiet = true := quiet_of_call hc rfl
  apply h.storedKey hold (h.numbered c _ hc) hkey
    fun g hg => TemplateTable.rowsOf_delete fault hg
  have habsent : (∀ removed, (s.store.delete key.1 key.2 (trim name) fault).2 = .ok removed →
      removed = false) → TemplateTable.rowsOf (s.store.delete key.1 key.2 (trim name) fault).1
      key.group = s.store.rowsOf key.group := TemplateTable.rowsOf_delete_absent key.group
  cases hresult : (s.store.delete key.1 key.2 (trim name) fault).2 with
  | error e =>
    right
    refine ⟨⟨_, rfl⟩, habsent ?_⟩
    intro removed hremoved
    rw [hresult] at hremoved
    cases hremoved
  | ok removed =>
    cases removed with
    | true => exact .inl ⟨_, rfl⟩
    | false =>
      right
      refine ⟨⟨_, rfl⟩, habsent ?_⟩
      intro removed hremoved
      rw [hresult] at hremoved
      cases hremoved
      rfl

theorem contains_delete (projects : ProjectTable) (p q : ProjectId) :
    ProjectTable.contains (projects.delete fun r => r = p) q =
      (ProjectTable.contains projects q && decide (q ≠ p)) := by
  unfold ProjectTable.contains
  rw [AutoTable.get_delete]
  cases hq : projects.get q with
  | none => rfl
  | some r =>
    obtain rfl : r = q := Table.get_key hq
    by_cases hrp : r = p
    · simp [hrp]
    · simp [hrp]

theorem contains_append (projects : ProjectTable) (hp : p ≤ projects.seq) :
    ProjectTable.contains (projects.append (projects.seq + 1) rfl) p =
      ProjectTable.contains projects p := by
  unfold ProjectTable.contains
  have hne : p ≠ projects.seq + 1 := Nat.ne_of_lt (Nat.lt_succ_of_le hp)
  rw [AutoTable.get_append, if_neg hne]

variable (h : s.Coherent)
include h

theorem Coherent.dropRecord (hc : s.calls c = some (.dropping p)) :
    (s.dropRecord c p).Coherent := by
  have hp : p ≠ 0 := h.calls c _ hc
  have hlt := h.numbered c _ hc
  have hold : ∀ x, s.calls c = some x → x.quiet = true := quiet_of_call hc rfl
  unfold TemplateWorld.dropRecord
  split_ifs with hcontains
  · have hseq : p ≤ s.projects.seq := by
      obtain ⟨q, hq⟩ := isSome_iff_exists.mp hcontains
      exact AutoTable.get_le_seq hq
    apply h.stored hold hlt
    · intro q hq hgone
      refine ⟨hq, ?_⟩
      rw [contains_delete, hgone]
      rfl
    · intro key hkey hchanged
      have hscope : key.group.2 = p := by
        by_contra hne
        exact hchanged (TemplateTable.rowsOf_dropProject hne)
      have hproject : key.2 = some p := by
        cases hk : key.2 with
        | none =>
          have hzero : (0 : ℕ) = p := by
            rw [← hscope]
            show 0 = scopeParam key.2
            rw [hk]
            rfl
          exact absurd hzero.symm hp
        | some q =>
          have hq : q = p := by
            rw [← hscope]
            show q = scopeParam key.2
            rw [hk]
            rfl
          rw [hq]
      right
      rw [hproject]
      refine ⟨hseq, ?_, .inl ⟨c, hlt, ?_⟩⟩
      · rw [contains_delete]
        simp
      · show (s.calls.put c (.announcing p) c).any _ = true
        rw [put_self]
        simp [TemplateCall.announces]
    · trivial
  · exact h.setCall hold hlt trivial

/-- An invalidation drops the entry, so that what is cached later is read behind the write. -/
theorem Coherent.invalidate {version : ℕ} {reply : TemplateReply}
    (hc : s.calls c = some (.invalidating key version reply)) (hfree : s.holder = none) :
    (s.invalidate c key version reply).Coherent := by
  obtain ⟨hkey, hversion⟩ : key.2 ≠ some 0 ∧ version ≤ s.version key.group := h.calls c _ hc
  have hext : Extends s (s.invalidate c key version reply) := by
    refine ⟨fun g => le_rfl, fun g i _ => rfl, ?_⟩
    intro g
    show s.acked g ≤ if _ then _ else _
    split_ifs
    · exact le_max_left _ _
    · exact le_rfl
  apply h.extend hext h.latest _ le_rfl
  · intro d x hd
    obtain ⟨rfl, rfl⟩ | ⟨-, hd⟩ := put_eq_some.mp hd
    · exact .inl ⟨h.numbered d _ hc, trivial⟩
    · exact .inr ⟨hd, id⟩
  · intro other rows hrows
    exact .inl (erase_eq_some.mp hrows).2
  · intro other rows hother hsome hf
    obtain hheld | hrows := hsome
    · exact absurd hfree hheld
    have hne : other ≠ key := (erase_eq_some.mp hrows).1
    have hgroup : other.group ≠ key.group := fun heq => hne (eq_of_group_eq hother hkey heq)
    apply hf.extend hext (if_neg hgroup)
    · intro j howed
      apply howed.mono (t := s.invalidate c key version reply) le_rfl
      · intro d reply' hd
        have hdc : d ≠ c := by
          rintro rfl
          have heq := some.inj (hc.symm.trans hd)
          cases heq
          exact hne rfl
        exact (put_of_ne hdc).trans hd
      · exact fun p hseq hgone => ⟨hseq, hgone⟩
      · rintro p (⟨d, hd, hany⟩ | hevict)
        · have hdc : d ≠ c := by
            rintro rfl
            rw [hc] at hany
            cases hany
          refine .inl ⟨d, hd, ?_⟩
          show (s.calls.put c _ d).any _ = true
          rw [put_of_ne hdc]
          exact hany
        · exact .inr hevict
    · intro j hlow hhigh
      have hhigh' : j ≤ s.version other.group := hhigh
      omega
  · intro g
    show (if _ then _ else _) ≤ s.version g
    split_ifs with hg
    · rw [hg]
      exact max_le (h.acked key.group) hversion
    · exact h.acked g

/-- A step that leaves the calls, the guard and the records alone, and drops every entry whose
debts it forgets. -/
theorem Coherent.environment (hcalls : t.calls = s.calls)
    (hnext : t.nextCall = s.nextCall) (hholder : t.holder = s.holder) (hstore : t.store = s.store)
    (hversion : t.version = s.version) (hhistory : t.history = s.history)
    (hacked : t.acked = s.acked)
    (hcache : ∀ key rows, t.cache key = some rows → s.cache key = some rows)
    (hprojects : ∀ p ≤ s.projects.seq, ProjectTable.contains s.projects p = false →
      p ≤ t.projects.seq ∧ ProjectTable.contains t.projects p = false)
    (hevictor : ∀ p, s.evictor.Owes p → t.evictor.Owes p ∨
      (s.holder = none ∧ ∀ key : CacheKey, key.2 = some p → t.cache key = none)) :
    t.Coherent := by
  have hext : Extends s t := .of_eq hversion hhistory hacked
  apply h.extend hext _ _ hnext.ge
  · intro c call hc
    right
    rw [hcalls] at hc
    rw [hholder]
    exact ⟨hc, id⟩
  · intro key rows hrows
    exact .inl (hcache key rows hrows)
  · intro key rows hkey hsome hf
    apply hf.extend hext (by rw [hacked])
    · intro j howed
      obtain ⟨c, reply, hlt, hc⟩ | hevicting := howed
      · left
        refine ⟨c, reply, ?_, ?_⟩
        · rw [hnext]
          exact hlt
        · rw [hcalls]
          exact hc
      · right
        cases hproject : key.2 with
        | none =>
          rw [hproject] at hevicting
          exact hevicting
        | some p =>
          rw [hproject] at hevicting
          obtain ⟨hseq, hgone, hannounced | howes⟩ := hevicting
          · obtain ⟨hseq', hgone'⟩ := hprojects p hseq hgone
            refine ⟨hseq', hgone', .inl ?_⟩
            rw [hcalls, hnext]
            exact hannounced
          · obtain ⟨hseq', hgone'⟩ := hprojects p hseq hgone
            obtain howes' | ⟨hfree, hdropped⟩ := hevictor p howes
            · exact ⟨hseq', hgone', .inr howes'⟩
            · obtain hheld | hrows := hsome
              · exact absurd hfree hheld
              · rw [hdropped key hproject] at hrows
                cases hrows
    · intro j hlow hhigh
      rw [hversion] at hhigh
      omega
  · intro g
    rw [hversion, hhistory, hstore]
    exact h.latest g
  · intro g
    rw [hversion, hacked]
    exact h.acked g

theorem Coherent.announce (hc : s.calls c = some (.announcing p)) :
    { s.setCall c (.returned (.removed (.ok ()))) with
      evictor := s.evictor.publish p }.Coherent := by
  have hpublish : ∀ q, s.evictor.Owes q → (s.evictor.publish p).Owes q := by
    intro q hq
    cases hevictor : s.evictor with
    | down => trivial
    | up cold queue lagged =>
      rw [hevictor] at hq
      obtain hcold | hlagged | hmem := hq
      · exact .inl hcold
      · exact .inr (.inl hlagged)
      · exact .inr (.inr (List.mem_append_left _ hmem))
  have hself : (s.evictor.publish p).Owes p := by
    cases s.evictor with
    | down => trivial
    | up cold queue lagged => exact .inr (.inr (by simp))
  have hext : Extends s { s.setCall c (.returned (.removed (.ok ()))) with
      evictor := s.evictor.publish p } := .of_eq rfl rfl rfl
  apply h.extend hext h.latest h.acked le_rfl
  · intro d x hd
    obtain ⟨rfl, rfl⟩ | ⟨-, hd⟩ := put_eq_some.mp hd
    · exact .inl ⟨h.numbered d _ hc, trivial⟩
    · exact .inr ⟨hd, id⟩
  · intro key rows hrows
    exact .inl hrows
  · intro key rows hkey _ hf
    apply hf.extend hext rfl
    · intro j howed
      apply howed.mono (t := { s.setCall c (.returned (.removed (.ok ()))) with
        evictor := s.evictor.publish p }) le_rfl
      · intro d reply hd
        have hdc : d ≠ c := by
          rintro rfl
          cases hc.symm.trans hd
        exact (put_of_ne hdc).trans hd
      · exact fun q hseq hgone => ⟨hseq, hgone⟩
      · rintro q (⟨d, hd, hany⟩ | hevict)
        · by_cases hdc : d = c
          · subst d
            have hq : p = q := by
              rw [hc] at hany
              exact of_decide_eq_true hany
            subst q
            exact .inr hself
          · refine .inl ⟨d, hd, ?_⟩
            show (s.calls.put c _ d).any _ = true
            rw [put_of_ne hdc]
            exact hany
        · exact .inr (hpublish q hevict)
    · intro j hlow hhigh
      have hhigh' : j ≤ s.version key.group := hhigh
      omega

theorem Coherent.read {read : TemplateRead} (hc : s.calls c = some call)
    (hquiet : call.quiet = true) (hkey : key.2 ≠ some 0) (hsince : since ≤ s.acked key.group) :
    (s.look c key read since).Coherent ∧
      (s.holder = none → (s.lock c key read since).Coherent) := by
  have hlt := h.numbered c _ hc
  have hold : ∀ x, s.calls c = some x → x.quiet = true := by
    intro x hx
    obtain rfl := some.inj (hc.symm.trans hx)
    exact hquiet
  unfold look lock
  cases hcached : s.cache key with
  | some rows =>
    have hanswer := (h.cached key rows hcached).2.answer hsince read
    have hcoh : (s.setCall c (.answered key read since (.ok (read.answer rows)))).Coherent :=
      h.setCall hold hlt hanswer
    exact ⟨hcoh, fun _ => hcoh⟩
  | none =>
    constructor
    · exact h.setCall hold hlt ⟨hkey, hsince⟩
    · intro hfree
      apply h.moved (t := { s.setCall c (.scanning key read since) with holder := some c }) hold rfl
        hlt le_rfl rfl rfl rfl rfl rfl rfl
      · intro d _ hd
        rw [hfree] at hd
        cases hd
      · intro other rows hrows
        exact .inl hrows
      · intro _
        exact ⟨rfl, hkey, hsince⟩

theorem Coherent.scanRows {read : TemplateRead}
    (hc : s.calls c = some (.scanning key read since)) (fault : Option StoreError) :
    (s.scanRows c key read since fault).Coherent := by
  obtain ⟨hheld, hkey, hsince⟩ : s.holder = some c ∧ key.2 ≠ some 0 ∧ since ≤ s.acked key.group :=
    h.calls c _ hc
  have hlt := h.numbered c _ hc
  have hold : ∀ x, s.calls c = some x → x.quiet = true := quiet_of_call hc rfl
  cases fault with
  | some e =>
    apply h.moved (t := s.scanRows c key read since (some e)) hold rfl hlt le_rfl rfl rfl rfl rfl
      rfl rfl
    · intro d hd hother
      exact absurd (some.inj (hheld.symm.trans hother)) (Ne.symm hd)
    · intro other rows hrows
      exact .inl hrows
    · intro _
      trivial
  | none =>
    apply h.moved (t := s.scanRows c key read since none) hold rfl hlt le_rfl rfl rfl rfl rfl rfl rfl
    · intro d _ hd
      exact hd
    · intro other rows hrows
      exact .inl hrows
    · intro hfresh
      exact ⟨hheld, hkey, hsince, hfresh key _ (h.fresh_list key)⟩

theorem Coherent.insertRows {read : TemplateRead}
    (hc : s.calls c = some (.inserting key read since rows)) :
    (s.insertRows c key read since rows).Coherent := by
  obtain ⟨hheld, hkey, hsince, hrows⟩ : s.holder = some c ∧ key.2 ≠ some 0 ∧
    since ≤ s.acked key.group ∧ s.Fresh key rows := h.calls c _ hc
  have hold : ∀ x, s.calls c = some x → x.quiet = true := quiet_of_call hc rfl
  apply h.moved (t := s.insertRows c key read since rows) hold rfl (h.numbered c _ hc) le_rfl rfl
    rfl rfl rfl rfl rfl
  · intro d hd hother
    exact absurd (some.inj (hheld.symm.trans hother)) (Ne.symm hd)
  · intro other found hfound
    obtain ⟨rfl, rfl⟩ | ⟨-, hfound⟩ := put_eq_some.mp hfound
    · exact .inr ⟨hkey, hrows⟩
    · exact .inl hfound
  · intro _
    exact hrows.answer hsince read

omit h

theorem consistent_validated (s : TemplateWorld) (c : ℕ) {occupied : Option ℕ}
    (hcall : validated w occupied = call) (hw : w.project ≠ some 0) : s.Consistent c call := by
  subst hcall
  unfold validated
  split
  · trivial
  · exact hw

theorem consistent_keep (s t : TemplateWorld) (c : ℕ) (hcall : t.keep w fault = call)
    (hw : w.project ≠ some 0) : s.Consistent c call := by
  unfold keep at hcall
  cases fault with
  | some e =>
    subst hcall
    trivial
  | none => exact consistent_validated s c hcall hw

theorem consistent_count (s t : TemplateWorld) (c : ℕ) (hcall : t.count w fault = call)
    (hw : w.project ≠ some 0) : s.Consistent c call := by
  unfold count at hcall
  cases fault with
  | some e =>
    subst hcall
    trivial
  | none => exact consistent_validated s c hcall hw

theorem Coherent.proceed (h : s.Coherent) (hread : faults.readBack = none)
    (ht : s.proceed c faults = some t) : t.Coherent := by
  unfold TemplateWorld.proceed at ht
  cases hc : s.calls c with
  | none => simp [hc] at ht
  | some call =>
    have hcall := h.calls c call hc
    have hlt := h.numbered c call hc
    have hold : call.quiet = true → ∀ x, s.calls c = some x → x.quiet = true := by
      intro hquiet x hx
      obtain rfl := some.inj (hc.symm.trans hx)
      exact hquiet
    cases call with
    | returned reply => simp [hc] at ht
    | answered key read since result => simp [hc] at ht
    | keeping w =>
      simp only [hc] at ht
      cases ht
      have hw : w.project ≠ some 0 := hcall
      generalize hnext : s.keep w faults.statement = next
      exact h.setCall (hold rfl) hlt (consistent_keep _ s c hnext hw)
    | counting w =>
      simp only [hc] at ht
      cases ht
      have hw : w.project ≠ some 0 := hcall
      generalize hnext : s.count w faults.statement = next
      exact h.setCall (hold rfl) hlt (consistent_count _ s c hnext hw)
    | storing w =>
      simp only [hc] at ht
      cases ht
      exact h.storeWrite hc hread
    | deleting key name =>
      simp only [hc] at ht
      cases ht
      exact h.storeDelete hc
    | invalidating key version reply =>
      simp only [hc] at ht
      split_ifs at ht with hfree
      cases ht
      exact h.invalidate hc hfree
    | looking key read since =>
      simp only [hc] at ht
      split_ifs at ht with hfree
      cases ht
      exact (h.read hc rfl hcall.1 hcall.2).1
    | filling key read since =>
      simp only [hc] at ht
      split_ifs at ht with hfree
      cases ht
      exact (h.read hc rfl hcall.1 hcall.2).2 hfree
    | scanning key read since =>
      simp only [hc] at ht
      cases ht
      exact h.scanRows hc faults.statement
    | inserting key read since rows =>
      simp only [hc] at ht
      cases ht
      exact h.insertRows hc
    | dropping p =>
      simp only [hc] at ht
      split at ht
      · cases ht
        exact h.setCall (hold rfl) hlt trivial
      · cases ht
        exact h.dropRecord hc
    | announcing p =>
      simp only [hc] at ht
      cases ht
      exact h.announce hc

theorem Coherent.evict (h : s.Coherent) (ht : s.evict = some t) : t.Coherent := by
  unfold TemplateWorld.evict at ht
  split at ht
  · cases ht
  · cases ht
  · cases ht
  · next queue hevictor =>
    split_ifs at ht with hfree
    cases ht
    apply h.environment (t := { s.forgetAll with evictor := .up false queue false }) rfl rfl rfl
      rfl rfl rfl rfl
    · intro key rows hrows
      cases hrows
    · exact fun p hseq hgone => ⟨hseq, hgone⟩
    · intro p _
      exact .inr ⟨hfree, fun _ _ => rfl⟩
  · next p queue hevictor =>
    split_ifs at ht with hfree
    cases ht
    apply h.environment (t := { s.forgetProject p with evictor := .up false queue false }) rfl rfl
      rfl rfl rfl rfl rfl
    · intro key rows hrows
      have hrows' : (if key.2 = some p then none else s.cache key) = some rows := hrows
      split_ifs at hrows'
      exact hrows'
    · exact fun q hseq hgone => ⟨hseq, hgone⟩
    · intro q hq
      rw [hevictor] at hq
      obtain hcold | hlagged | hmem := hq
      · cases hcold
      · cases hlagged
      · obtain rfl | hmem := List.mem_cons.mp hmem
        · exact .inr ⟨hfree, fun key hkey => if_pos hkey⟩
        · exact .inl (.inr (.inr hmem))

theorem Coherent.step (h : s.Coherent) {e : TemplateEvent} (hsound : s.Sound e)
    (ht : s.step e = some t) : t.Coherent := by
  have hprojects : ∀ p ≤ s.projects.seq, ProjectTable.contains s.projects p = false →
      p ≤ s.projects.seq ∧ ProjectTable.contains s.projects p = false :=
    fun p hseq hgone => ⟨hseq, hgone⟩
  cases e with
  | create kind project name description body =>
    cases ht
    exact h.begin hsound
  | update kind project name description body expected =>
    cases ht
    have hproject : project ≠ some 0 := hsound
    by_cases hdescription : description = none
    · rw [if_pos hdescription]
      exact h.begin hproject
    · rw [if_neg hdescription]
      generalize hcall : validated _ none = call
      exact h.begin (consistent_validated _ s.nextCall hcall hproject)
  | delete kind project name =>
    cases ht
    exact h.begin hsound
  | read kind project read =>
    cases ht
    exact h.begin ⟨hsound, le_rfl⟩
  | openProject =>
    cases ht
    apply h.environment (t := { s with projects := s.projects.append (s.projects.seq + 1) rfl }) rfl
      rfl rfl rfl rfl rfl rfl (fun _ _ hrows => hrows)
    · intro p hseq hgone
      exact ⟨Nat.le_succ_of_le hseq, (contains_append s.projects hseq).trans hgone⟩
    · exact fun p hp => .inl hp
  | removeProject p =>
    cases ht
    exact h.begin hsound
  | proceed c faults => exact h.proceed hsound ht
  | evict => exact h.evict ht
  | overflow lost =>
    simp only [TemplateWorld.step] at ht
    split at ht
    · cases ht
    · next cold queue lagged _ =>
      cases ht
      exact h.environment (t := { s with evictor := .up cold (queue.drop lost) true }) rfl rfl rfl rfl rfl rfl rfl (fun _ _ hrows => hrows) hprojects
        fun p _ => .inl (.inr (.inl rfl))
  | panic =>
    simp only [TemplateWorld.step] at ht
    split at ht
    · cases ht
    · cases ht
      exact h.environment (t := { s with evictor := .down }) rfl rfl rfl rfl rfl rfl rfl
        (fun _ _ hrows => hrows) hprojects fun p _ => .inl trivial
  | resubscribe =>
    simp only [TemplateWorld.step] at ht
    split at ht
    · cases ht
      exact h.environment (t := { s with evictor := .up true [] false }) rfl rfl rfl rfl rfl rfl rfl
        (fun _ _ hrows => hrows) hprojects fun p _ => .inl (.inl rfl)
    · cases ht
  | startCold =>
    simp only [TemplateWorld.step] at ht
    split at ht
    · next queue lagged _ =>
      split_ifs at ht with hfree
      cases ht
      apply h.environment (t := { s.forgetAll with evictor := .up false queue lagged }) rfl rfl rfl
        rfl rfl rfl rfl _ hprojects
      · intro p _
        exact .inr ⟨hfree, fun _ _ => rfl⟩
      · intro key rows hrows
        cases hrows
    · cases ht

theorem coherent_of_init (h : templateMachine.init s) : s.Coherent := by
  obtain ⟨hcache, -, hcalls, -, -, hversion, hhistory, hacked⟩ := h
  constructor
  · simp [hcalls]
  · simp [hhistory]
  · simp [hacked]
  · simp [hcalls]
  · simp [hcache]

/-- In a run of sound steps, a cached entry is what the store lists unless a write of its group is
still to invalidate it or its project's removal to be evicted; and a listing answers with rows the
group has had no earlier than behind every write that had returned when the listing began. -/
theorem cache_coherent (h : templateMachine.ReachableUnder Sound s) :
    (∀ key rows, s.cache key = some rows → ¬s.Pending key →
      rows = s.store.list key.1 key.2) ∧
    (∀ g, s.history g (s.version g) = s.store.rowsOf g) ∧
    (∀ c key read since answer,
      s.calls c = some (.answered key read since (.ok answer)) →
      ∃ i, since ≤ i ∧ i ≤ s.version key.group ∧
        answer = read.answer (s.history key.group i)) := by
  have hcoh : s.Coherent :=
    h.invariant (fun _ => coherent_of_init) fun _ _ _ hsound hc ht => hc.step hsound ht
  refine ⟨?_, hcoh.latest, ?_⟩
  · intro key rows hrows hpending
    obtain ⟨i, -, hhigh, heq, hlater⟩ := (hcoh.cached key rows hrows).2
    have hlast : i = s.version key.group := by
      by_contra hne
      obtain ⟨c, reply, hlt, hc⟩ | hevicting := hlater (i + 1) (Nat.lt_succ_self i) (by omega)
      · apply hpending
        refine .inl ⟨c, hlt, ?_⟩
        rw [hc]
        simp [TemplateCall.invalidates]
      · exact hpending (.inr hevicting)
    rw [heq, hlast]
    exact hcoh.latest key.group
  · intro c key read since answer hc
    exact hcoh.calls c _ hc

end TemplateWorld

def noTemplates : TemplateWorld where
  projects := AutoTable.empty
  store := SlotTable.empty
  cache := Slots.empty
  holder := none
  calls := Slots.empty
  nextCall := 0
  evictor := .down
  version _ := 0
  history _ _ := []
  acked _ := 0

theorem init_noTemplates : templateMachine.init noTemplates :=
  ⟨rfl, rfl, rfl, rfl, rfl, rfl, rfl, rfl⟩

def sharedPrompts : CacheKey := (.prompt, none)

/-- `n` accesses of a call that meets no fault. -/
def TemplateEvent.alone (call n : ℕ) : List TemplateEvent :=
  List.replicate n (.proceed call ⟨none, none⟩)

def listPrompts (call : ℕ) : List TemplateEvent :=
  .read .prompt none .list :: TemplateEvent.alone call 4

/-- A first prompt is created and listed. -/
theorem cache_coherent_listed : ∃ s, (templateMachine.ReachableUnder TemplateWorld.Sound s ∧
    s.store.count .prompt none = 1 ∧ (s.cache sharedPrompts).isSome = true ∧
    ¬s.Pending sharedPrompts) ∧
    ∀ rows, s.cache sharedPrompts = some rows → rows = s.store.list .prompt none := by
  have hrun := Machine.exists_reachableUnder_of_run (G := TemplateWorld.Sound) init_noTemplates
    (.create .prompt none "greet" none "hi" :: TemplateEvent.alone 0 3 ++ listPrompts 1)
    (by decide) (fun s => s.store.count .prompt none = 1 ∧
      (s.cache sharedPrompts).isSome = true ∧ ¬s.Pending sharedPrompts) (by decide)
  obtain ⟨s, hs, hcount, hsome, hpending⟩ := hrun
  refine ⟨s, ⟨hs, hcount, hsome, hpending⟩, ?_⟩
  intro rows hrows
  exact (TemplateWorld.cache_coherent hs).1 sharedPrompts rows hrows hpending

/-- The row of a create is stored and fails to be read back: the call returns an error and
invalidates nothing, and the list cached before it stays. -/
theorem readBack_failure_stale : ∃ s, templateMachine.Reachable s ∧
    ¬s.Pending sharedPrompts ∧ s.cache sharedPrompts = some [] ∧
    s.store.list .prompt none = [⟨1, .prompt, none, "greet", none, "hi", 1⟩] :=
  Machine.exists_reachable_of_run init_noTemplates
    (listPrompts 0 ++ [.create .prompt none "greet" none "hi", .proceed 1 ⟨none, none⟩,
      .proceed 1 ⟨none, some (.backend "disk I/O error")⟩])
    (fun s => ¬s.Pending sharedPrompts ∧ s.cache sharedPrompts = some [] ∧
      s.store.list .prompt none = [⟨1, .prompt, none, "greet", none, "hi", 1⟩]) (by decide)

end Soloist
