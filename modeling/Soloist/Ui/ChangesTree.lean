import Mathlib.Data.Char
import Mathlib.Data.List.Lex
import Soloist.Git.Stage
import Soloist.Slots

/-! The tree of a repository's changes, built from the paths in the order they are listed in. -/
open List Option Slots

namespace Soloist

def primaryChange (status : GitFileStatus) : Option ChangeKind := status.unstaged.or status.staged

def ChangeKind.severity : ChangeKind → ℕ
  | conflicted => 5
  | deleted => 4
  | modified | typeChanged => 3
  | renamed | copied | added => 2
  | untracked => 1

def strongerChange (a b : ChangeKind) : ChangeKind := if b.severity > a.severity then b else a

namespace ChangesTree

/-- A path by its segments: the source joins them again with the separator, which none holds. -/
abbrev TreePath := List (List Char)

structure TreeNode where
  name : List Char
  children : List TreePath
  folder : Bool
  change : Option ChangeKind
  ignored : Bool

structure Builder where
  nodes : Slots TreePath TreeNode
  roots : List TreePath

structure Leaf where
  change : Option ChangeKind
  ignored : Bool
  folder : Bool

def merge (current incoming : Option ChangeKind) : Option ChangeKind :=
  match incoming, current with
  | none, _ => current
  | some incoming, none => some incoming
  | some incoming, some current => some (strongerChange current incoming)

/-- What an entry does at one of the folders it is below, or at itself, which is the last. -/
structure Visit where
  walked : TreePath
  last : Bool
  leaf : Leaf

namespace Visit

def folder (x : Visit) : Bool := !x.last || x.leaf.folder

def fresh (x : Visit) : TreeNode := ⟨x.walked.getLastD [], [], x.folder, none, false⟩

def mark (x : Visit) (node : TreeNode) : TreeNode :=
  { node with
    change := merge node.change x.leaf.change
    ignored := if x.last then node.ignored || x.leaf.ignored else node.ignored }

end Visit

namespace Builder

def empty : Builder := ⟨Slots.empty, []⟩

def create (b : Builder) (x : Visit) : Builder :=
  let nodes := b.nodes.put x.walked x.fresh
  match nodes x.walked.dropLast with
  | some _ =>
    { b with
      nodes := nodes.modify x.walked.dropLast fun parent =>
        { parent with children := parent.children ++ [x.walked] } }
  | none => ⟨nodes, b.roots ++ [x.walked]⟩

def visit (b : Builder) (x : Visit) : Builder :=
  let b := if (b.nodes x.walked).isSome then b else b.create x
  { b with nodes := b.nodes.modify x.walked x.mark }

end Builder

def visits (path : TreePath) (leaf : Leaf) : List Visit :=
  (List.range path.length).map fun i => ⟨path.take (i + 1), i + 1 = path.length, leaf⟩

def insert (b : Builder) (path : TreePath) (leaf : Leaf) : Builder :=
  (visits path leaf).foldl Builder.visit b

def segments (path : String) : TreePath := (path.toList.splitOn '/').filter (· ≠ [])

/-- The collator names are compared by: an order of them, with numbers by their value. -/
structure Collator where
  le : List Char → List Char → Bool
  trans : ∀ a b c, le a b = true → le b c = true → le a c = true
  total : ∀ a b, (le a b || le b a) = true

def rank (b : Builder) (path : TreePath) : ℕ := if (b.nodes path).any TreeNode.folder then 0 else 1

def nameOf (b : Builder) (path : TreePath) : List Char :=
  ((b.nodes path).map TreeNode.name).getD path.flatten

def before (byName : Collator) (b : Builder) (p q : TreePath) : Bool :=
  rank b p < rank b q || rank b p = rank b q && byName.le (nameOf b p) (nameOf b q)

def sortPaths (byName : Collator) (b : Builder) (paths : List TreePath) : List TreePath :=
  paths.mergeSort (before byName b)

/-- The nodes are the properties of a plain object: an own one for each path, but for the top-level
name that stands for the prototype. -/
structure Tree where
  own : Slots TreePath TreeNode
  prototype : Option TreeNode
  roots : List TreePath

/-- The one path whose assignment sets the prototype and leaves no property. -/
def protoKey : TreePath := ["__proto__".toList]

namespace Tree

/-- `nodes[path]`. -/
def nodes (t : Tree) : Slots TreePath TreeNode :=
  fun path => if path = protoKey then t.prototype else t.own path

/-- The paths of `folderPaths`, which alone can be expanded. -/
def Folder (t : Tree) (path : TreePath) : Prop := ∃ node, t.own path = some node ∧ node.folder = true

end Tree

def finish (byName : Collator) (b : Builder) : Tree :=
  let nodes := fun path => (b.nodes path).map fun node =>
    { node with children := sortPaths byName b node.children }
  ⟨fun path => if path = protoKey then none else nodes path, nodes protoKey,
    sortPaths byName b b.roots⟩

def builder (changes : List FileChange) : Builder :=
  changes.foldl (fun b change =>
    match primaryChange change.status with
    | none => b
    | some kind => insert b (segments change.path) ⟨some kind, false, false⟩) Builder.empty

def buildChangesTree (byName : Collator) (changes : List FileChange) : Tree :=
  finish byName (builder changes)

def entries (changes : List FileChange) : List (TreePath × ChangeKind) :=
  changes.filterMap fun change => (primaryChange change.status).map (segments change.path, ·)

def visitsOf (entries : List (TreePath × ChangeKind)) : List Visit :=
  entries.flatMap fun e => visits e.1 ⟨some e.2, false, false⟩

/-- A row is shown when every folder above it is expanded. -/
inductive Shown (t : Tree) : TreePath → Prop
  | root {p : TreePath} (h : p ∈ t.roots) : Shown t p
  | child {p q : TreePath} {node : TreeNode} (h : Shown t q) (hnode : t.nodes q = some node)
      (hfolder : t.Folder q) (hp : p ∈ node.children) : Shown t p

structure Reports (kinds : ChangeKind → Prop) (change : Option ChangeKind) : Prop where
  found : ∀ k, change = some k → kinds k
  strongest : ∀ k, kinds k → ∃ c, change = some c ∧ k.severity ≤ c.severity

def Sorted (byName : Collator) (t : Tree) (paths : List TreePath) : Prop :=
  paths.Pairwise fun p q => ∀ m n, t.nodes p = some m → t.nodes q = some n →
    m.folder = true ∧ n.folder = false ∨ m.folder = n.folder ∧ byName.le m.name n.name = true

structure Keeps (byName : Collator) (entries : List (TreePath × ChangeKind)) (t : Tree) : Prop where
  shown : ∀ e ∈ entries, e.1 ≠ [] → (t.nodes e.1).isSome ∧ Shown t e.1
  once : t.roots.Nodup ∧ ∀ p m, t.nodes p = some m → m.children.Nodup ∧ ∀ c ∈ m.children,
    c ∉ t.roots ∧ ∀ q n, t.nodes q = some n → c ∈ n.children → q = p
  folders : ∀ p n, t.nodes p = some n → n.children ≠ [] → n.folder = true
  sorted : Sorted byName t t.roots ∧ ∀ p n, t.nodes p = some n → Sorted byName t n.children
  strongest : ∀ p n, t.nodes p = some n →
    Reports (fun k => ∃ e ∈ entries, p <+: e.1 ∧ e.2 = k) n.change

/-- Nothing lies below the top-level name that is no own property. -/
def ProtoFree (entries : List (TreePath × ChangeKind)) : Prop :=
  ∀ e ∈ entries, protoKey <+: e.1 → e.1 = protoKey

/-- An entry that another one lies below is not the first of those at and below its path. -/
def FoldersFirst (entries : List (TreePath × ChangeKind)) : Prop :=
  ∀ before e after, entries = before ++ e :: after → e.1 ≠ [] →
    (∃ f ∈ before, e.1 <+: f.1) ∨ ∀ f ∈ after, e.1 <+: f.1 → f.1 = e.1

variable {K L : ChangeKind → Prop} {T : List Visit} {x : Visit} {p q : TreePath} {n : TreeNode}
  {b : Builder}

theorem Reports.congr {change : Option ChangeKind} (h : Reports K change) (hKL : ∀ k, K k ↔ L k) :
    Reports L change := by
  obtain rfl : K = L := funext fun k => propext (hKL k)
  exact h

theorem Reports.merge {change incoming : Option ChangeKind} (h : Reports K change) :
    Reports (fun k => K k ∨ incoming = some k) (merge change incoming) := by
  cases incoming with
  | none => exact h.congr fun k => by simp
  | some i =>
    cases change with
    | none =>
      refine ⟨fun k hk => .inr hk, fun k hk => ⟨i, rfl, ?_⟩⟩
      rcases hk with hk | hk
      · obtain ⟨c, hc, -⟩ := h.strongest k hk
        cases hc
      · cases hk
        exact le_rfl
    | some c =>
      have hc : K c := h.found c rfl
      have hstrong : ∀ k, K k → k.severity ≤ c.severity := by
        intro k hk
        obtain ⟨c', hc', hle⟩ := h.strongest k hk
        cases hc'
        exact hle
      refine ⟨fun k hk => ?_, fun k hk => ⟨strongerChange c i, rfl, ?_⟩⟩
      · obtain rfl : strongerChange c i = k := some.inj hk
        unfold strongerChange
        split_ifs
        · exact .inr rfl
        · exact .inl hc
      · have hle : k.severity ≤ c.severity ∨ k = i := by
          rcases hk with hk | hk
          · exact .inl (hstrong k hk)
          · exact .inr (some.inj hk).symm
        unfold strongerChange
        split_ifs with hlt
        · rcases hle with hle | rfl
          · omega
          · exact le_rfl
        · rcases hle with hle | rfl
          · exact hle
          · omega

structure At (T : List Visit) (p : TreePath) (n : TreeNode) : Prop where
  name : n.name = p.getLastD []
  role : (T.find? (·.walked = p)).map Visit.folder = some n.folder
  nodup : n.children.Nodup
  children : ∀ c, c ∈ n.children ↔ c ≠ [] ∧ c.dropLast = p ∧ ∃ y ∈ T, y.walked = c
  change : Reports (fun k => ∃ y ∈ T, y.walked = p ∧ y.leaf.change = some k) n.change

/-- A builder after these visits, each of which comes after one of the folder above. -/
structure Built (T : List Visit) (b : Builder) : Prop where
  visited : ∀ y ∈ T, ∃ n, b.nodes y.walked = some n
  known : ∀ p n, b.nodes p = some n → At T p n
  nodup : b.roots.Nodup
  roots : ∀ c, c ∈ b.roots ↔ c ≠ [] ∧ c.dropLast = [] ∧ ∃ y ∈ T, y.walked = c
  closed : ∀ y ∈ T, y.walked ≠ [] ∧
    (y.walked.dropLast = [] ∨ ∃ z ∈ T, z.walked = y.walked.dropLast)

theorem At.visited (h : At T p n) : ∃ y ∈ T, y.walked = p := by
  cases hfind : T.find? (·.walked = p) with
  | none =>
    have hrole := h.role
    simp [hfind] at hrole
  | some y => exact ⟨y, mem_of_find?_eq_some hfind, by simpa using find?_some hfind⟩

theorem At.role_snoc (h : At T p n) : ((T ++ [x]).find? (·.walked = p)).map Visit.folder =
    some n.folder := by
  have hrole := h.role
  obtain ⟨y, hy, hfolder⟩ := map_eq_some_iff.mp hrole
  rw [find?_append, hy, some_or, map_some, hfolder]

theorem exists_snoc {P : Visit → Prop} : (∃ y ∈ T ++ [x], P y) ↔ (∃ y ∈ T, P y) ∨ P x := by
  simp [or_and_right, exists_or]

theorem dropLast_ne (hne : x.walked ≠ []) : x.walked.dropLast ≠ x.walked := by
  intro h
  have hlength := congrArg List.length h
  have hpos := length_pos_of_ne_nil hne
  rw [length_dropLast] at hlength
  omega

theorem At.other (h : At T p n) (hp : x.walked ≠ p)
    (hold : x.walked.dropLast = p → ∃ y ∈ T, y.walked = x.walked) : At (T ++ [x]) p n where
  name := h.name
  role := h.role_snoc
  nodup := h.nodup
  children c := by
    rw [h.children, exists_snoc]
    constructor
    · rintro ⟨hne, hc, hex⟩
      exact ⟨hne, hc, .inl hex⟩
    · rintro ⟨hne, hc, hex | rfl⟩
      · exact ⟨hne, hc, hex⟩
      · exact ⟨hne, hc, hold hc⟩
  change := h.change.congr fun k => by simp [hp]

theorem At.push (h : At T p n) (hp : x.walked ≠ p) (hne : x.walked ≠ [])
    (hparent : x.walked.dropLast = p) (hnew : ∀ y ∈ T, y.walked ≠ x.walked) :
    At (T ++ [x]) p { n with children := n.children ++ [x.walked] } where
  name := h.name
  role := h.role_snoc
  nodup := by
    refine nodup_append.mpr ⟨h.nodup, nodup_singleton _, ?_⟩
    rintro c hc d hd rfl
    obtain ⟨-, -, y, hy, hw⟩ := (h.children c).mp hc
    exact hnew y hy (hw.trans (mem_singleton.mp hd))
  children c := by
    rw [mem_append, h.children, mem_singleton, exists_snoc]
    constructor
    · rintro (⟨hc, hd, hex⟩ | rfl)
      · exact ⟨hc, hd, .inl hex⟩
      · exact ⟨hne, hparent, .inr rfl⟩
    · rintro ⟨hc, hd, hex | rfl⟩
      · exact .inl ⟨hc, hd, hex⟩
      · exact .inr rfl
  change := h.change.congr fun k => by simp [hp]

theorem At.mark (h : At T x.walked n) (hne : x.walked ≠ []) :
    At (T ++ [x]) x.walked (x.mark n) where
  name := h.name
  role := h.role_snoc
  nodup := h.nodup
  children c := by
    rw [exists_snoc]
    constructor
    · intro hc
      obtain ⟨hc, hd, hex⟩ := (h.children c).mp hc
      exact ⟨hc, hd, .inl hex⟩
    · rintro ⟨hc, hd, hex | rfl⟩
      · exact (h.children c).mpr ⟨hc, hd, hex⟩
      · exact absurd hd (dropLast_ne hne)
  change := h.change.merge.congr fun k => by simp

theorem Built.fresh (h : Built T b) (hnew : ∀ y ∈ T, y.walked ≠ x.walked) (hne : x.walked ≠ []) :
    At (T ++ [x]) x.walked (x.mark x.fresh) where
  name := rfl
  role := by
    have hnone : T.find? (·.walked = x.walked) = none := by simpa using hnew
    simp [find?_append, hnone, Visit.mark, Visit.fresh]
  nodup := nodup_nil
  children c := by
    rw [exists_snoc]
    refine ⟨fun hc => (by cases hc), ?_⟩
    rintro ⟨hc, hd, ⟨y, hy, rfl⟩ | rfl⟩
    · rcases (h.closed y hy).2 with hroot | ⟨z, hz, hw⟩
      · exact absurd (hd.symm.trans hroot) hne
      · exact absurd (hw.trans hd) (hnew z hz)
    · exact absurd hd (dropLast_ne hne)
  change := by
    have hnone : Reports (fun _ => False) none := ⟨fun k hk => (by cases hk), fun _ hk => hk.elim⟩
    refine hnone.merge.congr fun k => ?_
    rw [exists_snoc]
    constructor
    · rintro (hk | hk)
      · exact hk.elim
      · exact .inr ⟨rfl, hk⟩
    · rintro (⟨y, hy, hw, -⟩ | ⟨-, hk⟩)
      · exact absurd hw (hnew y hy)
      · exact .inr hk

theorem Built.again (h : Built T b) (hknown : (b.nodes x.walked).isSome) (hne : x.walked ≠ []) :
    Built (T ++ [x]) (b.visit x) := by
  obtain ⟨n, hn⟩ := isSome_iff_exists.mp hknown
  obtain ⟨y₀, hy₀, hw₀⟩ := (h.known _ n hn).visited
  have hvisit : b.visit x = { b with nodes := b.nodes.modify x.walked x.mark } := by
    rw [Builder.visit, if_pos hknown]
  have hclosed := (h.closed y₀ hy₀).2
  rw [hvisit]
  refine ⟨fun y hy => ?_, fun p m hm => ?_, h.nodup, fun c => ?_, fun y hy => ?_⟩
  · rcases mem_append.mp hy with hy | hy
    · obtain ⟨m, hm⟩ := h.visited y hy
      exact exists_modify hm
    · rw [mem_singleton.mp hy]
      exact exists_modify hn
  · by_cases hp : p = x.walked
    · subst hp
      obtain rfl : x.mark n = m := by simpa [Slots.modify, hn] using hm
      exact (h.known _ n hn).mark hne
    · have hm : b.nodes p = some m := by simpa [Slots.modify, hp] using hm
      exact (h.known p m hm).other (Ne.symm hp) fun _ => ⟨y₀, hy₀, hw₀⟩
  · rw [h.roots, exists_snoc]
    constructor
    · rintro ⟨hc, hd, hex⟩
      exact ⟨hc, hd, .inl hex⟩
    · rintro ⟨hc, hd, hex | rfl⟩
      · exact ⟨hc, hd, hex⟩
      · exact ⟨hc, hd, y₀, hy₀, hw₀⟩
  · rw [exists_snoc]
    rcases mem_append.mp hy with hy | hy
    · exact ⟨(h.closed y hy).1, (h.closed y hy).2.imp_right .inl⟩
    · cases mem_singleton.mp hy
      rw [hw₀] at hclosed
      exact ⟨hne, hclosed.imp_right .inl⟩

theorem Built.root (h : Built T b) : b.nodes [] = none := by
  by_contra hsome
  obtain ⟨m, hm⟩ := ne_none_iff_exists'.mp hsome
  obtain ⟨y, hy, hw⟩ := (h.known _ m hm).visited
  exact (h.closed y hy).1 hw

/-- A node that is not there is created in the role of its first visit, below its parent or at the
top. -/
theorem Built.create (h : Built T b) (hunknown : b.nodes x.walked = none) (hne : x.walked ≠ [])
    (hparent : x.walked.dropLast = [] ∨ ∃ z ∈ T, z.walked = x.walked.dropLast) :
    Built (T ++ [x]) (b.visit x) := by
  have hnew : ∀ y ∈ T, y.walked ≠ x.walked := by
    intro y hy hw
    obtain ⟨n, hn⟩ := h.visited y hy
    rw [hw, hunknown] at hn
    cases hn
  have hup := dropLast_ne hne
  have hvisit : b.visit x =
      { b.create x with nodes := (b.create x).nodes.modify x.walked x.mark } := by
    rw [Builder.visit, if_neg (by simp [hunknown])]
  have hput : b.nodes.put x.walked x.fresh x.walked.dropLast = b.nodes x.walked.dropLast :=
    put_of_ne hup
  have hclosed : ∀ y ∈ T ++ [x], y.walked ≠ [] ∧
      (y.walked.dropLast = [] ∨ ∃ z ∈ T ++ [x], z.walked = y.walked.dropLast) := by
    intro y hy
    rw [exists_snoc]
    rcases mem_append.mp hy with hy | hy
    · exact ⟨(h.closed y hy).1, (h.closed y hy).2.imp_right .inl⟩
    · cases mem_singleton.mp hy
      exact ⟨hne, hparent.imp_right .inl⟩
  have hthere : ∀ y ∈ T ++ [x], ∃ n, b.nodes.put x.walked x.fresh y.walked = some n := by
    intro y hy
    rcases mem_append.mp hy with hy | hy
    · obtain ⟨n, hn⟩ := h.visited y hy
      exact exists_put hn
    · exact ⟨x.fresh, mem_singleton.mp hy ▸ put_self⟩
  have hfresh := h.fresh hnew hne
  cases hfound : b.nodes x.walked.dropLast with
  | none =>
    have htop : x.walked.dropLast = [] := by
      rcases hparent with hroot | ⟨z, hz, hw⟩
      · exact hroot
      · obtain ⟨n, hn⟩ := h.visited z hz
        rw [hw, hfound] at hn
        cases hn
    have hcreate : b.create x = ⟨b.nodes.put x.walked x.fresh, b.roots ++ [x.walked]⟩ := by
      rw [Builder.create, hput, hfound]
    rw [hvisit, hcreate]
    refine ⟨fun y hy => ?_, fun p m hm => ?_, ?_, fun c => ?_, hclosed⟩
    · exact exists_modify (hthere y hy).choose_spec
    · by_cases hw : p = x.walked
      · subst hw
        obtain rfl : x.mark x.fresh = m := by simpa [Slots.modify, Slots.put] using hm
        exact hfresh
      · have hm : b.nodes p = some m := by simpa [Slots.modify, Slots.put, hw] using hm
        refine (h.known p m hm).other (Ne.symm hw) fun hp => ?_
        rw [← hp, hfound] at hm
        cases hm
    · refine nodup_append.mpr ⟨h.nodup, nodup_singleton _, ?_⟩
      rintro c hc d hd rfl
      obtain ⟨-, -, y, hy, hw⟩ := (h.roots c).mp hc
      exact hnew y hy (hw.trans (mem_singleton.mp hd))
    · rw [mem_append, h.roots, mem_singleton, exists_snoc]
      constructor
      · rintro (⟨hc, hd, hex⟩ | rfl)
        · exact ⟨hc, hd, .inl hex⟩
        · exact ⟨hne, htop, .inr rfl⟩
      · rintro ⟨hc, hd, hex | rfl⟩
        · exact .inl ⟨hc, hd, hex⟩
        · exact .inr rfl
  | some parent =>
    have hcreate : b.create x = { b with
        nodes := (b.nodes.put x.walked x.fresh).modify x.walked.dropLast fun parent =>
          { parent with children := parent.children ++ [x.walked] } } := by
      rw [Builder.create, hput, hfound]
    rw [hvisit, hcreate]
    refine ⟨fun y hy => ?_, fun p m hm => ?_, h.nodup, fun c => ?_, hclosed⟩
    · exact exists_modify (exists_modify (hthere y hy).choose_spec).choose_spec
    · by_cases hw : p = x.walked
      · subst hw
        obtain rfl : x.mark x.fresh = m := by
          simpa [Slots.modify, Slots.put, hup.symm] using hm
        exact hfresh
      · by_cases hp : x.walked.dropLast = p
        · subst hp
          obtain rfl : { parent with children := parent.children ++ [x.walked] } = m := by
            simpa [Slots.modify, Slots.put, hup, hfound] using hm
          exact (h.known _ parent hfound).push (Ne.symm hup) hne rfl hnew
        · have hm : b.nodes p = some m := by
            simpa [Slots.modify, Slots.put, hw, Ne.symm hp] using hm
          exact (h.known p m hm).other (Ne.symm hw) fun hd => absurd hd hp
    · rw [h.roots, exists_snoc]
      constructor
      · rintro ⟨hc, hd, hex⟩
        exact ⟨hc, hd, .inl hex⟩
      · rintro ⟨hc, hd, hex | rfl⟩
        · exact ⟨hc, hd, hex⟩
        · rw [hd, h.root] at hfound
          cases hfound

theorem built_empty : Built [] Builder.empty where
  visited y hy := by cases hy
  known p n hn := by cases hn
  nodup := nodup_nil
  roots c := by simp [Builder.empty]
  closed y hy := by cases hy

theorem Built.insert (h : Built T b) (path : TreePath) (leaf : Leaf) :
    Built (T ++ visits path leaf) (insert b path leaf) := by
  have hwalk : ∀ k ≤ path.length, Built
      (T ++ (List.range k).map fun i => ⟨path.take (i + 1), i + 1 = path.length, leaf⟩)
      (((List.range k).map fun i => ⟨path.take (i + 1), i + 1 = path.length, leaf⟩).foldl
        Builder.visit b) := by
    intro k hk
    induction k with
    | zero => simpa using h
    | succ k ih =>
      have hbuilt := ih (by omega)
      rw [range_succ, map_append, foldl_append, ← append_assoc]
      have hne : path.take (k + 1) ≠ [] := by
        have hlength : (path.take (k + 1)).length = k + 1 := by rw [length_take]; omega
        exact ne_nil_of_length_pos (by omega)
      have hup : (path.take (k + 1)).dropLast = path.take k := by
        rw [dropLast_eq_take, length_take, take_take]
        congr 1
        omega
      cases hn : (((List.range k).map fun i => (⟨path.take (i + 1), i + 1 = path.length, leaf⟩ :
          Visit)).foldl Builder.visit b).nodes (path.take (k + 1)) with
      | some n => exact hbuilt.again (by simp [hn]) hne
      | none =>
        refine hbuilt.create hn hne ?_
        rw [hup]
        cases k with
        | zero => exact .inl rfl
        | succ k =>
          exact .inr ⟨_, mem_append_right _ (List.mem_map.mpr
            ⟨k, mem_range.mpr (Nat.lt_succ_self k), rfl⟩), rfl⟩
  exact hwalk path.length le_rfl

theorem built_builder (changes : List FileChange) :
    Built (visitsOf (entries changes)) (builder changes) := by
  induction changes using List.reverseRecOn with
  | nil => exact built_empty
  | append_singleton changes change ih =>
    have hbuilder : builder (changes ++ [change]) =
        match primaryChange change.status with
        | none => builder changes
        | some kind => insert (builder changes) (segments change.path) ⟨some kind, false, false⟩ := by
      simp only [builder, foldl_append, foldl_cons, foldl_nil]
    rw [hbuilder, entries, filterMap_append, ← entries]
    cases hkind : primaryChange change.status with
    | none => simpa [hkind] using ih
    | some kind => simpa [hkind, visitsOf] using ih.insert (segments change.path) ⟨some kind, false, false⟩

variable {E : List (TreePath × ChangeKind)} {byName : Collator} {y : Visit}

theorem mem_visits {path : TreePath} {leaf : Leaf} : y ∈ visits path leaf ↔
    y.walked ≠ [] ∧ y.walked <+: path ∧ y = ⟨y.walked, y.walked = path, leaf⟩ := by
  simp only [visits, List.mem_map, mem_range]
  constructor
  · rintro ⟨i, hi, rfl⟩
    have hlength : (path.take (i + 1)).length = i + 1 := by rw [length_take]; omega
    have hne : path.take (i + 1) ≠ [] := ne_nil_of_length_pos (by omega)
    have hlast : i + 1 = path.length ↔ path.take (i + 1) = path :=
      ⟨fun h => take_of_length_le h.ge, fun h => hlength.symm.trans (congrArg List.length h)⟩
    exact ⟨hne, List.take_prefix _ _, by simp only [hlast]⟩
  · rintro ⟨hne, hlead, hy⟩
    have hpos := length_pos_of_ne_nil hne
    have hle := hlead.length_le
    have hindex : y.walked.length - 1 + 1 = y.walked.length := Nat.sub_add_cancel hpos
    have hlast : y.walked.length = path.length ↔ y.walked = path :=
      ⟨hlead.eq_of_length, congrArg List.length⟩
    refine ⟨y.walked.length - 1, by omega, ?_⟩
    rw [hindex, ← prefix_iff_eq_take.mp hlead, hy]
    simp only [hlast]

theorem mem_visitsOf : y ∈ visitsOf E ↔ ∃ e ∈ E, y.walked ≠ [] ∧ y.walked <+: e.1 ∧
    y = ⟨y.walked, y.walked = e.1, ⟨some e.2, false, false⟩⟩ := by
  simp only [visitsOf, mem_flatMap, mem_visits]

theorem exists_visit : (∃ y ∈ visitsOf E, y.walked = p) ↔ p ≠ [] ∧ ∃ e ∈ E, p <+: e.1 := by
  simp only [mem_visitsOf]
  constructor
  · rintro ⟨y, ⟨e, he, hne, hlead, -⟩, rfl⟩
    exact ⟨hne, e, he, hlead⟩
  · rintro ⟨hne, e, he, hlead⟩
    exact ⟨⟨p, p = e.1, ⟨some e.2, false, false⟩⟩, ⟨e, he, hne, hlead, rfl⟩, rfl⟩

/-- A node has the role that the first entry at or below it gives it. -/
theorem Built.role (h : Built (visitsOf E) b) (hn : b.nodes p = some n) :
    ∃ before e after, E = before ++ e :: after ∧ p <+: e.1 ∧ n.folder = (p ≠ e.1 : Bool) ∧
      ∀ f ∈ before, ¬p <+: f.1 := by
  obtain ⟨y, hy, hfolder⟩ := map_eq_some_iff.mp (h.known p n hn).role
  obtain ⟨hne, -⟩ := exists_visit.mp (h.known p n hn).visited
  rw [visitsOf, find?_flatMap, findSome?_eq_some_iff] at hy
  obtain ⟨before, e, after, hE, he, hbefore⟩ := hy
  obtain ⟨-, hlead, hy⟩ := mem_visits.mp (mem_of_find?_eq_some he)
  obtain rfl : y.walked = p := by simpa using find?_some he
  refine ⟨before, e, after, hE, hlead, ?_, fun f hf hlead => ?_⟩
  · rw [← hfolder, hy]
    simp [Visit.folder]
  · have hnone := hbefore f hf
    rw [find?_eq_none] at hnone
    exact hnone ⟨y.walked, y.walked = f.1, ⟨some f.2, false, false⟩⟩
      (mem_visits.mpr ⟨hne, hlead, rfl⟩) (by simp)

theorem nodes_eq (p : TreePath) : (finish byName b).nodes p =
    (b.nodes p).map fun node => { node with children := sortPaths byName b node.children } := by
  unfold finish Tree.nodes
  dsimp only
  split_ifs with hp
  · rw [hp]
  · rfl

theorem nodes_finish {m : TreeNode} (hm : (finish byName b).nodes p = some m) :
    ∃ n, b.nodes p = some n ∧ m = { n with children := sortPaths byName b n.children } := by
  rw [nodes_eq] at hm
  obtain ⟨n, hn, rfl⟩ := map_eq_some_iff.mp hm
  exact ⟨n, hn, rfl⟩

theorem sorted_sortPaths (byName : Collator) (b : Builder) (paths : List TreePath) :
    Sorted byName (finish byName b) (sortPaths byName b paths) := by
  have htrans : ∀ p q r, before byName b p q = true → before byName b q r = true →
      before byName b p r = true := by
    intro p q r
    simp only [before, Bool.or_eq_true, Bool.and_eq_true, decide_eq_true_eq]
    rintro (h | ⟨h, hle⟩) (h' | ⟨h', hle'⟩)
    · exact .inl (h.trans h')
    · exact .inl (h' ▸ h)
    · exact .inl (h ▸ h')
    · exact .inr ⟨h.trans h', byName.trans _ _ _ hle hle'⟩
  have htotal : ∀ p q, (before byName b p q || before byName b q p) = true := by
    intro p q
    simp only [before, Bool.or_eq_true, Bool.and_eq_true, decide_eq_true_eq]
    have hnames := byName.total (nameOf b p) (nameOf b q)
    rw [Bool.or_eq_true] at hnames
    rcases Nat.lt_trichotomy (rank b p) (rank b q) with h | h | h
    · exact .inl (.inl h)
    · exact hnames.imp (fun hle => .inr ⟨h, hle⟩) fun hle => .inr ⟨h.symm, hle⟩
    · exact .inr (.inl h)
  have hsorted := pairwise_mergeSort htrans htotal paths
  refine hsorted.imp fun {p q} h m n hm hn => ?_
  obtain ⟨m', hp, rfl⟩ := nodes_finish hm
  obtain ⟨n', hq, rfl⟩ := nodes_finish hn
  simp only [before, rank, nameOf, hp, hq, Bool.or_eq_true, Bool.and_eq_true,
    decide_eq_true_eq, any_some, map_some, getD_some] at h
  cases hm' : m'.folder <;> cases hn' : n'.folder <;> simp [hm', hn'] at h ⊢ <;> exact h

theorem shown_of_folders (h : Built (visitsOf E) b) (hproto : ProtoFree E)
    (hfolders : ∀ p n, b.nodes p = some n → n.children ≠ [] → n.folder = true)
    (hn : b.nodes p = some n) : Shown (finish byName b) p := by
  induction p using List.reverseRecOn generalizing n with
  | nil => rw [h.root] at hn; cases hn
  | append_singleton p segment ih =>
    obtain ⟨y, hy, hw⟩ := (h.known _ n hn).visited
    rcases (h.closed y hy).2 with hroot | ⟨z, hz, hparent⟩
    · exact .root (mem_mergeSort.mpr ((h.roots _).mpr ⟨by simp, hw ▸ hroot, y, hy, hw⟩))
    · rw [hw, dropLast_concat] at hparent
      obtain ⟨m, hm⟩ := h.visited z hz
      rw [hparent] at hm
      have hchild : p ++ [segment] ∈ m.children :=
        ((h.known p m hm).children _).mpr ⟨by simp, by simp, y, hy, hw⟩
      have hnode : (finish byName b).nodes p =
          some { m with children := sortPaths byName b m.children } := by
        rw [nodes_eq, hm, map_some]
      have hown : p ≠ protoKey := by
        rintro rfl
        obtain ⟨-, e, he, hbelow⟩ := exists_visit.mp ⟨y, hy, hw⟩
        have hsame := hproto e he ((List.prefix_append _ _).trans hbelow)
        rw [hsame] at hbelow
        have hlength := hbelow.length_le
        rw [List.length_append, length_singleton] at hlength
        omega
      have hfolder : (finish byName b).Folder p := by
        rw [Tree.nodes, if_neg hown] at hnode
        exact ⟨_, hnode, hfolders p m hm (ne_nil_of_mem hchild)⟩
      exact .child (ih hm) hnode hfolder (mem_mergeSort.mpr hchild)

/-- Nothing below a name that is no own property is ever shown. -/
theorem not_shown_below (h : Built (visitsOf E) b) (hp : Shown (finish byName b) p)
    (hbelow : protoKey <+: p) : p = protoKey := by
  induction hp with
  | root hroot =>
    obtain ⟨-, htop, -⟩ := (h.roots _).mp (mem_mergeSort.mp hroot)
    refine (hbelow.eq_of_length_le ?_).symm
    have hlength := congrArg List.length htop
    rw [length_dropLast, length_nil] at hlength
    have hone : protoKey.length = 1 := rfl
    omega
  | @child p q node _ hnode hfolder hchild ih =>
    obtain ⟨n, hn, rfl⟩ := nodes_finish hnode
    obtain ⟨-, hparent, -⟩ := ((h.known q n hn).children p).mp (mem_mergeSort.mp hchild)
    obtain ⟨rest, rfl⟩ := hbelow
    rcases eq_nil_or_concat' rest with rfl | ⟨rest, segment, rfl⟩
    · exact append_nil _
    · rw [← append_assoc, dropLast_concat] at hparent
      obtain rfl := ih (hparent ▸ List.prefix_append _ _)
      obtain ⟨own, hown, -⟩ := hfolder
      simp [finish] at hown

theorem keeps_iff (h : Built (visitsOf E) b) :
    Keeps byName E (finish byName b) ↔ FoldersFirst E ∧ ProtoFree E := by
  have hunsorted : ∀ {c : TreePath} {n : TreeNode}, c ∈ sortPaths byName b n.children ↔
      c ∈ n.children := mem_mergeSort
  constructor
  · intro hkeeps
    refine ⟨fun before e after hE hne => ?_, fun e he hbelow => ?_⟩
    swap
    · have hne : e.1 ≠ [] := by
        intro hnil
        rw [hnil] at hbelow
        simpa [protoKey] using hbelow.length_le
      exact not_shown_below h (hkeeps.shown e he hne).2 hbelow
    by_contra! hno
    obtain ⟨hbefore, f, hf, ⟨rest, hrest⟩, hdiffer⟩ := hno
    have he : e ∈ E := by simp [hE]
    have hfE : f ∈ E := by simp [hE, hf]
    obtain ⟨m, hm⟩ := isSome_iff_exists.mp (hkeeps.shown e he hne).1
    obtain ⟨n, hn, rfl⟩ := nodes_finish hm
    cases rest with
    | nil => exact hdiffer (by simpa using hrest.symm)
    | cons segment rest =>
      have hbelow : e.1 ++ [segment] <+: f.1 := ⟨rest, by simpa using hrest⟩
      have hvisited := exists_visit.mpr ⟨by simp, f, hfE, hbelow⟩
      have hchild : e.1 ++ [segment] ∈ n.children :=
        ((h.known _ n hn).children _).mpr ⟨by simp, by simp, hvisited⟩
      have hkept : sortPaths byName b n.children ≠ [] := ne_nil_of_mem (hunsorted.mpr hchild)
      have hfolder := hkeeps.folders e.1 _ hm hkept
      obtain ⟨before', e', after', hE', hlead, hrole, hnone⟩ := h.role hn
      -- none before `e` is at or below it, so that `e` itself gave its node the role of a file
      rcases append_eq_append_iff.mp (hE.symm.trans hE') with ⟨mid, rfl, hmid⟩ | ⟨mid, rfl, hmid⟩
      · cases mid with
        | nil =>
          obtain rfl : e = e' := by simpa using (List.cons.inj hmid).1
          simp [hrole] at hfolder
        | cons g mid =>
          obtain rfl : e = g := (List.cons.inj hmid).1
          exact hnone e (by simp) prefix_rfl
      · cases mid with
        | nil =>
          obtain rfl : e' = e := (List.cons.inj hmid).1
          simp [hrole] at hfolder
        | cons g mid =>
          obtain rfl : e' = g := (List.cons.inj hmid).1
          exact hbefore e' (by simp) hlead
  · rintro ⟨hfirst, hproto⟩
    have hfolders : ∀ p n, b.nodes p = some n → n.children ≠ [] → n.folder = true := by
      intro p n hn hchildren
      obtain ⟨c, hc⟩ := exists_mem_of_ne_nil _ hchildren
      obtain ⟨hne, hparent, hvisited⟩ := ((h.known p n hn).children c).mp hc
      obtain ⟨-, f, hf, hbelow⟩ := exists_visit.mp hvisited
      have hp : p ≠ [] := by
        rintro rfl
        rw [h.root] at hn
        cases hn
      obtain ⟨before, e, after, hE, hlead, hrole, hnone⟩ := h.role hn
      have hpc : p <+: c := hparent ▸ dropLast_prefix c
      have hpf : p <+: f.1 := hpc.trans hbelow
      have hdiffer : f.1 ≠ p := by
        rintro rfl
        have hlength := hbelow.length_le
        have hpos := length_pos_of_ne_nil hne
        rw [← hparent, length_dropLast] at hlength
        omega
      by_contra hfile
      obtain rfl : p = e.1 := by simpa [hrole] using hfile
      rcases hfirst before e after hE hp with ⟨g, hg, hlead⟩ | hafter
      · exact hnone g hg hlead
      · have hmem : f ∈ before ∨ f = e ∨ f ∈ after := by simpa [hE] using hf
        rcases hmem with hf | rfl | hf
        · exact hnone f hf hpf
        · exact hdiffer rfl
        · exact hdiffer (hafter f hf hpf)
    refine ⟨fun e he hne => ?_, ⟨?_, fun p m hm => ?_⟩, fun p m hm hchildren => ?_,
      ⟨sorted_sortPaths _ _ _, fun p m hm => ?_⟩, fun p m hm => ?_⟩
    · obtain ⟨y, hy, hw⟩ := exists_visit.mpr ⟨hne, e, he, prefix_rfl⟩
      obtain ⟨n, hn⟩ := hw ▸ h.visited y hy
      exact ⟨by simp [nodes_eq, hn], shown_of_folders h hproto hfolders hn⟩
    · exact (mergeSort_perm _ _).nodup_iff.mpr h.nodup
    · obtain ⟨n, hn, rfl⟩ := nodes_finish hm
      refine ⟨(mergeSort_perm _ _).nodup_iff.mpr (h.known p n hn).nodup, fun c hc => ?_⟩
      obtain ⟨-, hparent, -⟩ := ((h.known p n hn).children c).mp (hunsorted.mp hc)
      constructor
      · intro hroot
        obtain ⟨-, htop, -⟩ := (h.roots c).mp (mem_mergeSort.mp hroot)
        rw [← hparent, htop, h.root] at hn
        cases hn
      · intro q m hm hc'
        obtain ⟨n', hn', rfl⟩ := nodes_finish hm
        obtain ⟨-, hparent', -⟩ := ((h.known q n' hn').children c).mp (hunsorted.mp hc')
        exact hparent'.symm.trans hparent
    · obtain ⟨n, hn, rfl⟩ := nodes_finish hm
      obtain ⟨c, hc⟩ := exists_mem_of_ne_nil _ hchildren
      exact hfolders p n hn (ne_nil_of_mem (hunsorted.mp hc))
    · obtain ⟨n, hn, rfl⟩ := nodes_finish hm
      exact sorted_sortPaths _ _ _
    · obtain ⟨n, hn, rfl⟩ := nodes_finish hm
      have hne : p ≠ [] := (exists_visit.mp (h.known p n hn).visited).1
      refine (h.known p n hn).change.congr fun k => ?_
      simp only [mem_visitsOf]
      constructor
      · rintro ⟨y, ⟨e, he, -, hlead, hy⟩, rfl, hk⟩
        rw [hy] at hk
        exact ⟨e, he, hlead, some.inj hk⟩
      · rintro ⟨e, he, hlead, rfl⟩
        exact ⟨⟨p, p = e.1, ⟨some e.2, false, false⟩⟩, ⟨e, he, hne, hlead, rfl⟩, rfl, rfl⟩

/-- The tree keeps every change exactly where a path that others lie below is not first met as a
file, and nothing lies below the name of the prototype. -/
theorem tree_keeps_iff (byName : Collator) (changes : List FileChange) :
    Keeps byName (entries changes) (buildChangesTree byName changes) ↔
      FoldersFirst (entries changes) ∧ ProtoFree (entries changes) :=
  keeps_iff (built_builder changes)

def byCodePoint : Collator where
  le a b := decide (a ≤ b)
  trans a b c hab hbc := decide_eq_true (le_trans (of_decide_eq_true hab) (of_decide_eq_true hbc))
  total a b := by simpa using le_total a b

def replaced : List FileChange :=
  [⟨"a", ⟨none, some .deleted⟩, none⟩, ⟨"a/b", ⟨none, some .untracked⟩, none⟩]

theorem replaced_file_hides : ¬Keeps byCodePoint (entries replaced)
    (buildChangesTree byCodePoint replaced) := by
  have hentries : entries replaced = [([['a']], .deleted), ([['a'], ['b']], .untracked)] := by
    decide
  intro hkeeps
  have hfirst := ((keeps_iff (built_builder replaced)).mp hkeeps).1
  rw [hentries] at hfirst
  rcases hfirst [] _ _ rfl (by simp) with ⟨f, hf, -⟩ | hafter
  · cases hf
  · have hsame := hafter ([['a'], ['b']], .untracked) (by simp) ⟨[['b']], rfl⟩
    simp at hsame

end ChangesTree
end Soloist
