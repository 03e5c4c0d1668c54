import Soloist.Git.LineCounts
import Soloist.Git.Stage

/-! Turning a machine-readable status report into the working tree's vocabulary. Records are ended
by a zero byte; a renamed path's original is the record after its own. -/
open List Option

namespace Soloist

inductive SyncState
  | unknown | upToDate
  | ahead (ahead : ℕ)
  | behind (behind : ℕ)
  | diverged (ahead behind : ℕ)
  deriving DecidableEq, Repr

def SyncState.fromCounts : ℕ → ℕ → SyncState
  | 0, 0 => .upToDate
  | n, 0 => .ahead n
  | 0, m => .behind m
  | n, m => .diverged n m

structure BranchInfo where
  name : Option String
  upstream : Option String
  sync : SyncState
  deriving DecidableEq, Repr

structure GitStatus where
  branch : BranchInfo
  changes : List FileChange
  merging : Bool
  lineCounts : GitLineCounts
  deriving DecidableEq, Repr

/-- `GitStatus::new`: no lines are counted yet. -/
def GitStatus.new (branch : BranchInfo) (changes : List FileChange) (merging : Bool) : GitStatus :=
  ⟨branch, changes, merging, ⟨0, 0, false⟩⟩

namespace StatusParse

def header : Bytes := bytesOf "# "
def ordinary : Bytes := bytesOf "1 "
def renamed : Bytes := bytesOf "2 "
def unmergedMark : Bytes := bytesOf "u "
def untrackedMark : Bytes := bytesOf "? "
def ignored : Bytes := bytesOf "! "

def branchHead : String := "# branch.head "
def branchUpstream : String := "# branch.upstream "
def branchAb : String := "# branch.ab "
def detached : String := "(detached)"

def ordinaryFields : ℕ := 9
def renamedFields : ℕ := 10
def unmergedFields : ℕ := 11

def blank : UInt8 := 0x20

def pathOf (bytes : Bytes) : String := String.ofList (Utf8.lossy bytes)

def splitRecord (record : Bytes) (fields : ℕ) : Option (Bytes × String) :=
  match Fields.splitn blank fields record with
  | _ :: pair :: rest =>
    (rest.drop (fields - 3)).head?.map fun path => (pair, pathOf path)
  | _ => none

/-- One half of a status pair; none where the letter is not documented. -/
def changeKind (letter : UInt8) : Option (Option ChangeKind) :=
  if letter = 0x2E then some none
  else if letter = 0x4D then some (some .modified)
  else if letter = 0x54 then some (some .typeChanged)
  else if letter = 0x41 then some (some .added)
  else if letter = 0x44 then some (some .deleted)
  else if letter = 0x52 then some (some .renamed)
  else if letter = 0x43 then some (some .copied)
  else none

def fileStatus : Bytes → Option GitFileStatus
  | [staged, unstaged] => do return ⟨← changeKind staged, ← changeKind unstaged⟩
  | _ => none

def tracked (record : Bytes) (fields : ℕ) (originalPath : Option String) : Option FileChange := do
  let (pair, path) ← splitRecord record fields
  return ⟨path, ← fileStatus pair, originalPath⟩

def unmerged (record : Bytes) : Option FileChange := do
  let (_, path) ← splitRecord record unmergedFields
  return ⟨path, ⟨none, some .conflicted⟩, none⟩

def untracked (record : Bytes) : FileChange :=
  ⟨pathOf (record.drop untrackedMark.length), ⟨none, some .untracked⟩, none⟩

def aheadBehind (field : List Char) : Option (ℕ × ℕ) :=
  match Fields.splitn ' ' 2 field with
  | [ahead, behind] => do
    return (← DiffParse.parseU32 (← ahead.dropPrefix? ['+']),
      ← DiffParse.parseU32 (← behind.dropPrefix? ['-']))
  | _ => none

/-- What has been read of a report. -/
structure StatusScan where
  name : Option String
  upstream : Option String
  counts : Option (ℕ × ℕ)
  changes : List FileChange

namespace StatusScan

def push (s : StatusScan) (change : FileChange) : StatusScan :=
  { s with changes := s.changes ++ [change] }

def readHeader (s : StatusScan) (record : Bytes) : Option StatusScan := do
  let header ← Utf8.decode? record
  match header.dropPrefix? branchHead.toList with
  | some head =>
    let head := String.ofList head
    return { s with name := if head = detached then none else some head }
  | none =>
    match header.dropPrefix? branchUpstream.toList with
    | some tracked => return { s with upstream := some (String.ofList tracked) }
    | none =>
      match header.dropPrefix? branchAb.toList with
      | some ab => return { s with counts := some (← aheadBehind ab) }
      | none => return s

def status (s : StatusScan) : GitStatus :=
  GitStatus.new ⟨s.name, s.upstream, s.counts.elim .unknown fun c => .fromCounts c.1 c.2⟩ s.changes
    false

end StatusScan

def readRecords : List Bytes → StatusScan → Option StatusScan
  | [], s => some s
  | record :: records, s =>
    if header.isPrefixOf record then do readRecords records (← s.readHeader record)
    else if ordinary.isPrefixOf record then do
      readRecords records (s.push (← tracked record ordinaryFields none))
    else if renamed.isPrefixOf record then
      match records with
      | [] => none
      | original :: records => do
        readRecords records (s.push (← tracked record renamedFields (some (pathOf original))))
    else if unmergedMark.isPrefixOf record then do readRecords records (s.push (← unmerged record))
    else if untrackedMark.isPrefixOf record then readRecords records (s.push (untracked record))
    else if ignored.isPrefixOf record then readRecords records s
    else none

def parse (output : Bytes) : Option GitStatus :=
  (readRecords ((output.splitOn 0).filter (· ≠ [])) ⟨none, none, none, []⟩).map StatusScan.status

end StatusParse

structure HeaderText where
  text : String
  plain : Char.ofNat 0 ∉ text.toList

/-- A path as the report writes it. -/
structure StatusPath where
  text : String
  nonempty : text ≠ ""
  plain : Char.ofNat 0 ∉ text.toList

/-- So many fields without blanks, as the format has before a path. -/
structure Columns (n : ℕ) where
  fields : List Bytes
  length : fields.length = n
  plain : ∀ field ∈ fields, StatusParse.blank ∉ field ∧ (0 : UInt8) ∉ field

/-- The documented letters of a status pair. -/
inductive StatusLetter
  | unchanged | modified | typeChanged | added | deleted | renamed | copied
  deriving DecidableEq

namespace StatusLetter

def byte : StatusLetter → UInt8
  | unchanged => 0x2E
  | modified => 0x4D
  | typeChanged => 0x54
  | added => 0x41
  | deleted => 0x44
  | renamed => 0x52
  | copied => 0x43

def kind : StatusLetter → Option ChangeKind
  | unchanged => none
  | modified => some .modified
  | typeChanged => some .typeChanged
  | added => some .added
  | deleted => some .deleted
  | renamed => some .renamed
  | copied => some .copied

end StatusLetter

structure StatusPair where
  staged : StatusLetter
  unstaged : StatusLetter

/-- One entry of a report: a header of the branch or a change. -/
inductive StatusEntry
  | oid (text : HeaderText)
  | head (text : HeaderText)
  | upstream (text : HeaderText)
  | counts (ahead behind : ℕ) (hahead : ahead < 2 ^ 32) (hbehind : behind < 2 ^ 32)
  | ordinary (pair : StatusPair) (columns : Columns 6) (path : StatusPath)
  | renamed (pair : StatusPair) (columns : Columns 7) (path original : StatusPath)
  | unmerged (columns : Columns 9) (path : StatusPath)
  | untracked (path : StatusPath)
  | ignored (path : StatusPath)

namespace StatusPair

def bytes (p : StatusPair) : Bytes := [p.staged.byte, p.unstaged.byte]

def status (p : StatusPair) : GitFileStatus := ⟨p.staged.kind, p.unstaged.kind⟩

end StatusPair

namespace StatusEntry

def record (fields : List Bytes) (path : StatusPath) : Bytes :=
  Fields.terminated StatusParse.blank fields ++ bytesOf path.text

def records : StatusEntry → List Bytes
  | oid text => [bytesOf ("# branch.oid " ++ text.text)]
  | head text => [bytesOf (StatusParse.branchHead ++ text.text)]
  | upstream text => [bytesOf (StatusParse.branchUpstream ++ text.text)]
  | counts ahead behind _ _ =>
    [bytesOf (StatusParse.branchAb ++ String.ofList
      ('+' :: Nat.toDigits 10 ahead ++ ' ' :: '-' :: Nat.toDigits 10 behind))]
  | ordinary pair columns path => [record (bytesOf "1" :: pair.bytes :: columns.fields) path]
  | renamed pair columns path original =>
    [record (bytesOf "2" :: pair.bytes :: columns.fields) path, bytesOf original.text]
  | unmerged columns path => [record (bytesOf "u" :: columns.fields) path]
  | untracked path => [StatusParse.untrackedMark ++ bytesOf path.text]
  | ignored path => [StatusParse.ignored ++ bytesOf path.text]

def change? : StatusEntry → Option FileChange
  | ordinary pair _ path => some ⟨path.text, pair.status, none⟩
  | renamed pair _ path original => some ⟨path.text, pair.status, some original.text⟩
  | unmerged _ path => some ⟨path.text, ⟨none, some .conflicted⟩, none⟩
  | untracked path => some ⟨path.text, ⟨none, some .untracked⟩, none⟩
  | _ => none

def head? : StatusEntry → Option String
  | head text => some text.text
  | _ => none

def upstream? : StatusEntry → Option String
  | upstream text => some text.text
  | _ => none

def counts? : StatusEntry → Option (ℕ × ℕ)
  | counts ahead behind _ _ => some (ahead, behind)
  | _ => none

def encode (entries : List StatusEntry) : Bytes := Fields.terminated 0 (entries.flatMap records)

def checkedOut (head : String) : Option String :=
  if head = StatusParse.detached then none else some head

/-- What a report says: its changes in order and what its last headers name. -/
def described (entries : List StatusEntry) : GitStatus :=
  GitStatus.new
    ⟨(entries.filterMap head?).getLast?.bind checkedOut, (entries.filterMap upstream?).getLast?,
      (entries.filterMap counts?).getLast?.elim .unknown fun c => .fromCounts c.1 c.2⟩
    (entries.filterMap change?) false

end StatusEntry
end Soloist

/-! What a status report is read as: each entry as itself, a faulty record as no report at all. -/
namespace Utf8

theorem mem_of_mem_encode {c : Char} (hc : c.toNat < 128) {cs : List Char}
    (h : c.toUInt8 ∈ encode cs) : c ∈ cs := by
  obtain ⟨a, b, hab⟩ := append_of_mem h
  have hlossy : cs = lossy a ++ c :: lossy b := by
    rw [← lossy_append_ascii hc, ← hab, lossy_encode]
  rw [hlossy]
  exact mem_append_right _ (.head _)

end Utf8

theorem List.foldl_latest {σ ε β γ : Type*} {step : σ → ε → σ} {get : σ → β} {pick : ε → Option γ}
    {f : γ → β} (h : ∀ s e, get (step s e) = (pick e).elim (get s) f) (es : List ε) (s : σ) :
    get (es.foldl step s) = (es.filterMap pick).getLast?.elim (get s) f := by
  induction es generalizing s with
  | nil => rfl
  | cons e es ih =>
    rw [foldl_cons, ih, h, filterMap_cons]
    cases pick e with
    | none => rfl
    | some g =>
      dsimp only
      rw [getLast?_cons]
      cases (es.filterMap pick).getLast? <;> rfl

theorem List.dropPrefix?_of_take_ne {α : Type*} [DecidableEq α] {p q : List α} {k : ℕ}
    (hk : k ≤ q.length) (hp : k ≤ p.length) (h : p.take k ≠ q.take k) (rest : List α) :
    (q ++ rest).dropPrefix? p = none := by
  cases hdrop : (q ++ rest).dropPrefix? p with
  | none => rfl
  | some s =>
    obtain ⟨p', heq, hbeq⟩ := dropPrefix?_eq_some_iff.mp hdrop
    obtain rfl := eq_of_beq hbeq
    have htake := congrArg (List.take k) heq
    rw [take_append_of_le_length hk, take_append_of_le_length hp] at htake
    exact absurd htake.symm h

namespace Soloist

theorem ofList_toList_append (a b : String) :
    Utf8.decode? (bytesOf (a ++ b)) = some (a.toList ++ b.toList) := by
  rw [bytesOf, Utf8.decode?_encode, String.toList_append]

theorem zero_not_mem_bytesOf {text : String} (h : Char.ofNat 0 ∉ text.toList) :
    (0 : UInt8) ∉ bytesOf text :=
  fun hmem => h (Utf8.mem_of_mem_encode (by decide) hmem)

namespace StatusParse
variable {s : StatusScan}

theorem pathOf_bytesOf (text : String) : pathOf (bytesOf text) = text := by
  rw [pathOf, bytesOf, Utf8.lossy_encode, String.ofList_toList]

theorem changeKind_byte (l : StatusLetter) : changeKind l.byte = some l.kind := by
  cases l <;> rfl

theorem fileStatus_bytes (p : StatusPair) : fileStatus p.bytes = some p.status := by
  rw [StatusPair.bytes, fileStatus, changeKind_byte, changeKind_byte]
  rfl

theorem exists_letter {letter : UInt8} {kind : Option ChangeKind}
    (h : changeKind letter = some kind) : ∃ l : StatusLetter, letter = l.byte := by
  unfold changeKind at h
  split_ifs at h with h1 h2 h3 h4 h5 h6 h7
  · exact ⟨.unchanged, h1⟩
  · exact ⟨.modified, h2⟩
  · exact ⟨.typeChanged, h3⟩
  · exact ⟨.added, h4⟩
  · exact ⟨.deleted, h5⟩
  · exact ⟨.renamed, h6⟩
  · exact ⟨.copied, h7⟩

variable {pair : Bytes}

theorem exists_pair {status : GitFileStatus} (h : fileStatus pair = some status) :
    ∃ p : StatusPair, pair = p.bytes := by
  unfold fileStatus at h
  split at h
  · obtain ⟨staged, hstaged, h⟩ := bind_eq_some_iff.mp h
    obtain ⟨unstaged, hunstaged, -⟩ := bind_eq_some_iff.mp h
    obtain ⟨l, rfl⟩ := exists_letter hstaged
    obtain ⟨m, rfl⟩ := exists_letter hunstaged
    exact ⟨⟨l, m⟩, rfl⟩
  · cases h

variable {mark : Bytes}

theorem splitRecord_record {middle : List Bytes}
    (hplain : ∀ field ∈ mark :: pair :: middle, blank ∉ field) (path : StatusPath) :
    splitRecord (StatusEntry.record (mark :: pair :: middle) path) (middle.length + 3) =
      some (pair, path.text) := by
  have hsplit : Fields.splitn blank (middle.length + 3)
      (StatusEntry.record (mark :: pair :: middle) path) =
        mark :: pair :: (middle ++ [bytesOf path.text]) := Fields.splitn_terminated hplain
  unfold splitRecord
  rw [hsplit]
  dsimp only
  rw [Nat.add_sub_cancel, drop_left, head?_cons, map_some, pathOf_bytesOf]

theorem record_cons (mark : Bytes) (fields : List Bytes) (path : StatusPath) :
    StatusEntry.record (mark :: fields) path =
      mark ++ blank :: StatusEntry.record fields path := by
  rw [StatusEntry.record, Fields.terminated, flatMap_cons, append_assoc, append_assoc]
  rfl

theorem blank_not_mem_pair (p : StatusPair) : blank ∉ p.bytes := by
  obtain ⟨l, m⟩ := p
  cases l <;> cases m <;> decide

theorem readHeader_head (text : HeaderText) :
    s.readHeader (bytesOf (branchHead ++ text.text)) =
      some { s with name := StatusEntry.checkedOut text.text } := by
  unfold StatusScan.readHeader
  rw [ofList_toList_append]
  simp only [bind_eq_bind, bind_some]
  rw [dropPrefix?_append_of_beq _ (beq_self_eq_true _)]
  simp [StatusEntry.checkedOut]

theorem readHeader_upstream (text : HeaderText) :
    s.readHeader (bytesOf (branchUpstream ++ text.text)) =
      some { s with upstream := some text.text } := by
  unfold StatusScan.readHeader
  rw [ofList_toList_append]
  simp only [bind_eq_bind, bind_some]
  rw [List.dropPrefix?_of_take_ne (k := 10) (by decide) (by decide) (by decide)]
  dsimp only
  rw [dropPrefix?_append_of_beq _ (beq_self_eq_true _)]
  simp

theorem readHeader_oid (text : HeaderText) :
    s.readHeader (bytesOf ("# branch.oid " ++ text.text)) = some s := by
  unfold StatusScan.readHeader
  rw [ofList_toList_append]
  simp only [bind_eq_bind, bind_some]
  rw [List.dropPrefix?_of_take_ne (k := 10) (by decide) (by decide) (by decide)]
  dsimp only
  rw [List.dropPrefix?_of_take_ne (k := 10) (by decide) (by decide) (by decide)]
  dsimp only
  rw [List.dropPrefix?_of_take_ne (k := 10) (by decide) (by decide) (by decide)]
  rfl

variable {ahead behind : ℕ}

theorem aheadBehind_chars (hahead : ahead < 2 ^ 32) (hbehind : behind < 2 ^ 32) :
    aheadBehind ('+' :: Nat.toDigits 10 ahead ++ ' ' :: '-' :: Nat.toDigits 10 behind) =
      some (ahead, behind) := by
  have hblank : ' ' ∉ '+' :: Nat.toDigits 10 ahead := by
    intro hmem
    obtain heq | hmem := mem_cons.mp hmem
    · exact absurd heq (by decide)
    · cases HunkSide.isDigit_of_mem hmem
  unfold aheadBehind
  rw [Fields.splitn_field hblank, Fields.splitn]
  have hplus : ∀ (c : Char) (cs : List Char), (c :: cs).dropPrefix? [c] = some cs :=
    fun c cs => @dropPrefix?_append_of_beq _ _ [c] [c] cs (beq_self_eq_true _)
  simp only [bind_eq_bind, hplus, bind_some, parseU32_toDigits, if_pos hahead,
    if_pos hbehind]
  rfl

theorem readHeader_counts (hahead : ahead < 2 ^ 32) (hbehind : behind < 2 ^ 32) :
    s.readHeader (bytesOf (branchAb ++ String.ofList
      ('+' :: Nat.toDigits 10 ahead ++ ' ' :: '-' :: Nat.toDigits 10 behind))) =
        some { s with counts := some (ahead, behind) } := by
  unfold StatusScan.readHeader
  rw [ofList_toList_append, String.toList_ofList]
  simp only [bind_eq_bind, bind_some]
  rw [List.dropPrefix?_of_take_ne (k := 10) (by decide) (by decide) (by decide)]
  dsimp only
  rw [List.dropPrefix?_of_take_ne (k := 10) (by decide) (by decide) (by decide)]
  dsimp only
  rw [dropPrefix?_append_of_beq _ (beq_self_eq_true _)]
  dsimp only
  rw [aheadBehind_chars hahead hbehind]
  rfl

def StatusScan.read (s : StatusScan) (e : StatusEntry) : StatusScan where
  name := e.head?.elim s.name StatusEntry.checkedOut
  upstream := e.upstream?.elim s.upstream some
  counts := e.counts?.elim s.counts some
  changes := s.changes ++ e.change?.toList

theorem marks_eq : header = [0x23, blank] ∧ ordinary = [0x31, blank] ∧ renamed = [0x32, blank] ∧
    unmergedMark = [0x75, blank] ∧ untrackedMark = [0x3F, blank] ∧ ignored = [0x21, blank] := by
  decide

variable {record : Bytes}

theorem readRecords_header (h : header <+: record) (records : List Bytes) :
    readRecords (record :: records) s = (s.readHeader record).bind (readRecords records) := by
  rw [readRecords.eq_def]
  exact if_pos (List.isPrefixOf_iff_prefix.mpr h)

theorem readRecords_mark (mark : UInt8) (rest : Bytes) (records : List Bytes) :
    readRecords ((mark :: blank :: rest) :: records) s =
      let record := mark :: blank :: rest
      if mark = 0x23 then (s.readHeader record).bind (readRecords records)
      else if mark = 0x31 then
        (tracked record ordinaryFields none).bind fun change => readRecords records (s.push change)
      else if mark = 0x32 then
        match records with
        | [] => none
        | original :: records => (tracked record renamedFields (some (pathOf original))).bind
          fun change => readRecords records (s.push change)
      else if mark = 0x75 then
        (unmerged record).bind fun change => readRecords records (s.push change)
      else if mark = 0x3F then readRecords records (s.push (untracked record))
      else if mark = 0x21 then readRecords records s
      else none := by
  obtain ⟨hheader, hordinary, hrenamed, hunmerged, huntracked, hignored⟩ := marks_eq
  have hmark : ∀ b : UInt8, [b, blank].isPrefixOf (mark :: blank :: rest) = true ↔ mark = b := by
    intro b
    rw [List.isPrefixOf_iff_prefix, cons_prefix_cons, cons_prefix_cons]
    exact ⟨fun h => h.1.symm, fun h => ⟨h.symm, rfl, nil_prefix⟩⟩
  rw [readRecords.eq_def]
  simp only [hheader, hordinary, hrenamed, hunmerged, huntracked, hignored, hmark]
  rfl

variable {n : ℕ}

theorem tracked_record (hmark : blank ∉ mark) (pair : StatusPair) (columns : Columns n)
    (path : StatusPath) (original : Option String) :
    tracked (StatusEntry.record (mark :: pair.bytes :: columns.fields) path) (n + 3) original =
      some ⟨path.text, pair.status, original⟩ := by
  have hplain : ∀ field ∈ mark :: pair.bytes :: columns.fields, blank ∉ field := by
    intro field hfield
    simp only [mem_cons] at hfield
    obtain rfl | rfl | hfield := hfield
    · exact hmark
    · exact blank_not_mem_pair pair
    · exact (columns.plain field hfield).1
  have hsplit := splitRecord_record hplain path
  rw [columns.length] at hsplit
  simp [tracked, hsplit, fileStatus_bytes]

theorem unmerged_record (columns : Columns 9) (path : StatusPath) :
    unmerged (StatusEntry.record (bytesOf "u" :: columns.fields) path) =
      some ⟨path.text, ⟨none, some .conflicted⟩, none⟩ := by
  have hmark : blank ∉ bytesOf "u" := by decide
  obtain ⟨fields, hlength, hcolumns⟩ := columns
  match fields, hlength with
  | pair :: middle, hlength =>
    have hplain : ∀ field ∈ bytesOf "u" :: pair :: middle, blank ∉ field := by
      intro field hfield
      obtain rfl | hfield := mem_cons.mp hfield
      · exact hmark
      · exact (hcolumns field hfield).1
    have hsplit := splitRecord_record hplain path
    rw [Nat.succ.inj hlength] at hsplit
    simp [unmerged, unmergedFields, hsplit]

theorem bytesOf_append (a b : String) : bytesOf (a ++ b) = bytesOf a ++ bytesOf b := by
  rw [bytesOf, String.toList_append, Utf8.encode_append]
  rfl

theorem headed {a : String} (h : header.isPrefixOf (bytesOf a) = true) (b : String) :
    header <+: bytesOf (a ++ b) := by
  rw [bytesOf_append]
  exact (List.isPrefixOf_iff_prefix.mp h).trans (prefix_append _ _)

theorem readRecords_entry (e : StatusEntry) (rest : List Bytes) :
    readRecords (e.records ++ rest) s = readRecords rest (StatusScan.read s e) := by
  have hone : bytesOf "1" = [0x31] := by decide
  have htwo : bytesOf "2" = [0x32] := by decide
  have hu : bytesOf "u" = [0x75] := by decide
  obtain ⟨-, -, -, -, huntracked, hignored⟩ := marks_eq
  have hread : ∀ s' : StatusScan, StatusScan.read s e = { s' with changes := s'.changes ++ [] } →
      StatusScan.read s e = s' := by
    intro s' h
    rw [h, append_nil]
  cases e with
  | oid text =>
    rw [StatusEntry.records, singleton_append,
      readRecords_header (headed (by decide) text.text), readHeader_oid, bind_some]
    exact congrArg (readRecords rest) (hread _ rfl).symm
  | head text =>
    rw [StatusEntry.records, singleton_append,
      readRecords_header (headed (by decide) text.text), readHeader_head, bind_some]
    exact congrArg (readRecords rest) (hread _ rfl).symm
  | upstream text =>
    rw [StatusEntry.records, singleton_append,
      readRecords_header (headed (by decide) text.text), readHeader_upstream,
      bind_some]
    exact congrArg (readRecords rest) (hread _ rfl).symm
  | counts ahead behind hahead hbehind =>
    rw [StatusEntry.records, singleton_append,
      readRecords_header (headed (by decide) _), readHeader_counts hahead hbehind,
      bind_some]
    exact congrArg (readRecords rest) (hread _ rfl).symm
  | ordinary pair columns path =>
    have htracked := tracked_record (by decide : blank ∉ bytesOf "1") pair columns path none
    rw [StatusEntry.records, singleton_append]
    rw [record_cons, hone, singleton_append] at htracked ⊢
    rw [readRecords_mark]
    dsimp only
    rw [if_neg (by decide), if_pos rfl, ordinaryFields, htracked]
    rfl
  | renamed pair columns path original =>
    have htracked := tracked_record (by decide : blank ∉ bytesOf "2") pair columns path
      (some original.text)
    rw [StatusEntry.records, cons_append, singleton_append]
    rw [record_cons, htwo, singleton_append] at htracked ⊢
    rw [readRecords_mark]
    dsimp only
    rw [if_neg (by decide), if_neg (by decide), if_pos rfl, renamedFields, pathOf_bytesOf, htracked]
    rfl
  | unmerged columns path =>
    have hunmerged := unmerged_record columns path
    rw [StatusEntry.records, singleton_append]
    rw [record_cons, hu, singleton_append] at hunmerged ⊢
    rw [readRecords_mark]
    dsimp only
    rw [if_neg (by decide), if_neg (by decide), if_neg (by decide), if_pos rfl, hunmerged]
    rfl
  | untracked path =>
    have hchange : untracked (untrackedMark ++ bytesOf path.text) =
        ⟨path.text, ⟨none, some .untracked⟩, none⟩ := by
      rw [untracked, drop_left, pathOf_bytesOf]
    rw [StatusEntry.records, singleton_append]
    rw [huntracked, cons_append, singleton_append] at hchange ⊢
    rw [readRecords_mark]
    dsimp only
    rw [if_neg (by decide), if_neg (by decide), if_neg (by decide), if_neg (by decide), if_pos rfl,
      hchange]
    rfl
  | ignored path =>
    rw [StatusEntry.records, singleton_append, hignored, cons_append,
      singleton_append, readRecords_mark]
    dsimp only
    rw [if_neg (by decide), if_neg (by decide), if_neg (by decide), if_neg (by decide),
      if_neg (by decide), if_pos rfl, hread s rfl]

theorem readRecords_entries (entries : List StatusEntry) (rest : List Bytes) :
    readRecords (entries.flatMap StatusEntry.records ++ rest) s =
      readRecords rest (entries.foldl StatusScan.read s) := by
  induction entries generalizing s with
  | nil => rfl
  | cons e entries ih =>
    rw [flatMap_cons, append_assoc, readRecords_entry, ih, foldl_cons]

theorem changes_foldl (entries : List StatusEntry) :
    (entries.foldl StatusScan.read s).changes =
      s.changes ++ entries.filterMap StatusEntry.change? := by
  induction entries generalizing s with
  | nil => exact (append_nil _).symm
  | cons e entries ih =>
    rw [foldl_cons, ih, StatusScan.read, filterMap_cons, append_assoc]
    cases e.change? <;> rfl

theorem status_foldl (entries : List StatusEntry) :
    (entries.foldl StatusScan.read ⟨none, none, none, []⟩).status =
      StatusEntry.described entries := by
  have hname := @List.foldl_latest _ _ _ _ StatusScan.read StatusScan.name StatusEntry.head?
    StatusEntry.checkedOut (fun _ _ => rfl) entries ⟨none, none, none, []⟩
  have hupstream := @List.foldl_latest _ _ _ _ StatusScan.read StatusScan.upstream
    StatusEntry.upstream? some (fun _ _ => rfl) entries ⟨none, none, none, []⟩
  have hcounts := @List.foldl_latest _ _ _ _ StatusScan.read StatusScan.counts
    StatusEntry.counts? some (fun _ _ => rfl) entries ⟨none, none, none, []⟩
  unfold StatusScan.status StatusEntry.described
  rw [hname, hupstream, hcounts, changes_foldl, nil_append]
  cases (entries.filterMap StatusEntry.head?).getLast? <;>
    cases (entries.filterMap StatusEntry.upstream?).getLast? <;>
      cases (entries.filterMap StatusEntry.counts?).getLast? <;> rfl

/-- A record is neither empty nor broken by the byte that ends it. -/
def Whole (record : Bytes) : Prop := record ≠ [] ∧ (0 : UInt8) ∉ record

instance (record : Bytes) : Decidable (Whole record) :=
  inferInstanceAs (Decidable (record ≠ [] ∧ (0 : UInt8) ∉ record))

theorem whole_append {a b : Bytes} (ha : Whole a) (hb : (0 : UInt8) ∉ b) : Whole (a ++ b) := by
  refine ⟨append_ne_nil_of_left_ne_nil ha.1 b, ?_⟩
  rw [mem_append, not_or]
  exact ⟨ha.2, hb⟩

theorem whole_path (path : StatusPath) : Whole (bytesOf path.text) := by
  refine ⟨fun h => path.nonempty ?_, zero_not_mem_bytesOf path.plain⟩
  have hlossy := congrArg Utf8.lossy h
  rw [bytesOf, Utf8.lossy_encode, Utf8.lossy_nil] at hlossy
  exact String.toList_eq_nil_iff.mp hlossy

theorem whole_header {mark : String} (hmark : Whole (bytesOf mark)) (text : HeaderText) :
    Whole (bytesOf (mark ++ text.text)) := by
  rw [bytesOf_append]
  exact whole_append hmark (zero_not_mem_bytesOf text.plain)

theorem whole_record {fields : List Bytes} (h : ∀ field ∈ fields, (0 : UInt8) ∉ field)
    (path : StatusPath) : Whole (StatusEntry.record fields path) := by
  refine ⟨append_ne_nil_of_right_ne_nil _ (whole_path path).1, ?_⟩
  rw [StatusEntry.record, mem_append, not_or]
  refine ⟨fun hmem => ?_, (whole_path path).2⟩
  obtain ⟨field, hfield, hmem⟩ := mem_flatMap.mp hmem
  rw [mem_append, mem_singleton] at hmem
  obtain hmem | hmem := hmem
  · exact h field hfield hmem
  · exact absurd hmem (by decide)

theorem whole_tracked (hmark : (0 : UInt8) ∉ mark) (pair : StatusPair) (columns : Columns n)
    (path : StatusPath) :
    Whole (StatusEntry.record (mark :: pair.bytes :: columns.fields) path) := by
  have hpair : (0 : UInt8) ∉ pair.bytes := by
    obtain ⟨l, m⟩ := pair
    cases l <;> cases m <;> decide
  refine whole_record (fun field hfield => ?_) path
  simp only [mem_cons] at hfield
  obtain rfl | rfl | hfield := hfield
  · exact hmark
  · exact hpair
  · exact (columns.plain field hfield).2

theorem whole_of_mem_records {e : StatusEntry} (h : record ∈ e.records) : Whole record := by
  cases e with
  | oid text => exact mem_singleton.mp h ▸ whole_header (by decide) text
  | head text => exact mem_singleton.mp h ▸ whole_header (by decide) text
  | upstream text => exact mem_singleton.mp h ▸ whole_header (by decide) text
  | counts ahead behind =>
    have hplain : Char.ofNat 0 ∉ (String.ofList
        ('+' :: Nat.toDigits 10 ahead ++ ' ' :: '-' :: Nat.toDigits 10 behind)).toList := by
      rw [String.toList_ofList]
      intro hmem
      simp only [mem_append, mem_cons] at hmem
      obtain (heq | hdigit) | heq | heq | hdigit := hmem
      · exact absurd heq (by decide)
      · cases HunkSide.isDigit_of_mem hdigit
      · exact absurd heq (by decide)
      · exact absurd heq (by decide)
      · cases HunkSide.isDigit_of_mem hdigit
    exact mem_singleton.mp h ▸ whole_header (by decide) ⟨_, hplain⟩
  | ordinary pair columns path =>
    exact mem_singleton.mp h ▸ whole_tracked (by decide) pair columns path
  | renamed pair columns path original =>
    simp only [StatusEntry.records, mem_cons, not_mem_nil, or_false] at h
    obtain rfl | rfl := h
    · exact whole_tracked (by decide) pair columns path
    · exact whole_path original
  | unmerged columns path =>
    refine mem_singleton.mp h ▸ whole_record (fun field hfield => ?_) path
    obtain rfl | hfield := mem_cons.mp hfield
    · decide
    · exact (columns.plain field hfield).2
  | untracked path =>
    exact mem_singleton.mp h ▸ whole_append (by decide) (whole_path path).2
  | ignored path =>
    exact mem_singleton.mp h ▸ whole_append (by decide) (whole_path path).2

theorem pieces_encode (entries : List StatusEntry) (rest : Bytes) :
    ((StatusEntry.encode entries ++ rest).splitOn 0).filter (· ≠ []) =
      entries.flatMap StatusEntry.records ++ (rest.splitOn 0).filter (· ≠ []) := by
  have hwhole : ∀ record ∈ entries.flatMap StatusEntry.records, Whole record := by
    intro record hrecord
    obtain ⟨e, -, hrecord⟩ := mem_flatMap.mp hrecord
    exact whole_of_mem_records hrecord
  rw [StatusEntry.encode, Fields.splitOn_terminated fun record hrecord => (hwhole record hrecord).2,
    filter_append]
  congr 1
  exact filter_eq_self.mpr fun record hrecord => decide_eq_true (hwhole record hrecord).1

theorem parse_encode (entries : List StatusEntry) :
    parse (StatusEntry.encode entries) = some (StatusEntry.described entries) := by
  have hpieces := pieces_encode entries []
  rw [append_nil] at hpieces
  rw [parse, hpieces, readRecords_entries, ← status_foldl]
  rfl

def statusField (record : Bytes) : Bytes := (record.drop 2).takeWhile (· ≠ blank)

/-- A record of so many fields has fewer, or letters the format does not document. -/
def Misspelled (record : Bytes) (fields : ℕ) : Prop :=
  record.count blank + 1 < fields ∨ ∀ pair : StatusPair, statusField record ≠ pair.bytes

inductive Faulty (record : Bytes) : Prop
  | ordinary (hmark : StatusParse.ordinary <+: record) (h : Misspelled record ordinaryFields)
  | renamed (hmark : StatusParse.renamed <+: record) (h : Misspelled record renamedFields)
  | unmerged (hmark : unmergedMark <+: record) (h : record.count blank + 1 < unmergedFields)
  | unknown (h : ∀ mark ∈ [header, StatusParse.ordinary, StatusParse.renamed, unmergedMark,
      untrackedMark, ignored], ¬mark <+: record)

structure FaultyRecord where
  bytes : Bytes
  whole : Whole bytes
  faulty : Faulty bytes

theorem splitRecord_of_short (h : record.count blank + 1 < n + 3) :
    splitRecord record (n + 3) = none := by
  have hlength : (Fields.splitn blank (n + 3) record).length ≤ record.count blank + 1 :=
    Fields.length_splitn_le _ _
  unfold splitRecord
  split
  · rename_i first pair rest hsplit
    rw [hsplit, length_cons, length_cons] at hlength
    rw [drop_eq_nil_of_le (by omega), head?_nil, map_none]
  · rfl

variable {rest : Bytes}

theorem splitRecord_statusField {mark : UInt8} (hmark : mark ≠ blank) {path : String}
    (h : splitRecord (mark :: blank :: rest) (n + 3) = some (pair, path)) :
    statusField (mark :: blank :: rest) = pair := by
  have hplain : blank ∉ [mark] := by simpa using hmark.symm
  have hsplit : Fields.splitn blank (n + 3) (mark :: blank :: rest) =
      [mark] :: Fields.splitn blank (n + 2) rest := Fields.splitn_field hplain (n + 1)
  unfold splitRecord at h
  rw [hsplit] at h
  have hhead := @Fields.head?_splitn _ _ blank n rest
  cases hrest : Fields.splitn blank (n + 2) rest with
  | nil => rw [hrest] at h; cases h
  | cons first others =>
    rw [hrest] at h hhead
    obtain ⟨path', -, heq⟩ := map_eq_some_iff.mp h
    cases heq
    exact (some.inj hhead).symm

theorem tracked_of_misspelled {mark : UInt8} (hmark : mark ≠ blank)
    (h : Misspelled (mark :: blank :: rest) (n + 3)) (original : Option String) :
    tracked (mark :: blank :: rest) (n + 3) original = none := by
  unfold tracked
  cases hsplit : splitRecord (mark :: blank :: rest) (n + 3) with
  | none => rfl
  | some fields =>
    obtain ⟨pair, path⟩ := fields
    obtain hshort | hletters := h
    · rw [splitRecord_of_short hshort] at hsplit
      cases hsplit
    · cases hstatus : fileStatus pair with
      | none => simp [hstatus]
      | some status =>
        obtain ⟨p, rfl⟩ := exists_pair hstatus
        exact absurd (splitRecord_statusField hmark hsplit) (hletters p)

theorem exists_of_mark {mark : UInt8} (h : [mark, blank] <+: record) :
    ∃ rest, record = mark :: blank :: rest := by
  obtain ⟨rest, rfl⟩ := h
  exact ⟨rest, rfl⟩

theorem readRecords_faulty (h : Faulty record) (records : List Bytes) :
    readRecords (record :: records) s = none := by
  obtain ⟨-, hordinary, hrenamed, hunmerged, -, -⟩ := marks_eq
  cases h with
  | ordinary hmark h =>
    obtain ⟨rest, rfl⟩ := exists_of_mark (hordinary ▸ hmark)
    rw [readRecords_mark]
    dsimp only
    rw [if_neg (by decide), if_pos rfl, ordinaryFields, tracked_of_misspelled (by decide) h]
    rfl
  | renamed hmark h =>
    obtain ⟨rest, rfl⟩ := exists_of_mark (hrenamed ▸ hmark)
    rw [readRecords_mark]
    dsimp only
    rw [if_neg (by decide), if_neg (by decide), if_pos rfl]
    cases records with
    | nil => rfl
    | cons original records =>
      dsimp only
      rw [renamedFields, tracked_of_misspelled (by decide) h]
      rfl
  | unmerged hmark h =>
    obtain ⟨rest, rfl⟩ := exists_of_mark (hunmerged ▸ hmark)
    rw [readRecords_mark]
    dsimp only
    rw [if_neg (by decide), if_neg (by decide), if_neg (by decide), if_pos rfl, unmerged,
      unmergedFields, splitRecord_of_short h]
    rfl
  | unknown h =>
    have hnone : ∀ mark ∈ [header, ordinary, renamed, unmergedMark, untrackedMark, ignored],
        ¬mark.isPrefixOf record = true :=
      fun mark hmark hprefix => h mark hmark (List.isPrefixOf_iff_prefix.mp hprefix)
    simp only [forall_mem_cons] at hnone
    obtain ⟨h1, h2, h3, h4, h5, h6, -⟩ := hnone
    rw [readRecords.eq_def]
    dsimp only
    rw [if_neg h1, if_neg h2, if_neg h3, if_neg h4, if_neg h5, if_neg h6]

/-- A report says exactly what its entries do, each rename with its own original; behind entries, a
record with too few fields or with an undocumented letter leaves no report at all. -/
theorem status_report :
    (∀ entries, parse (StatusEntry.encode entries) = some (StatusEntry.described entries)) ∧
    ∀ (entries : List StatusEntry) (faulty : FaultyRecord) (rest : Bytes),
      parse (StatusEntry.encode entries ++ (faulty.bytes ++ 0 :: rest)) = none := by
  refine ⟨parse_encode, fun entries faulty rest => ?_⟩
  have hkept : ∀ pieces : List Bytes, (faulty.bytes :: pieces).filter (· ≠ []) =
      faulty.bytes :: pieces.filter (· ≠ []) :=
    fun pieces => List.filter_cons_of_pos (decide_eq_true faulty.whole.1)
  rw [parse, pieces_encode, List.splitOn_append_cons_self_of_not_mem faulty.whole.2, hkept,
    readRecords_entries, readRecords_faulty faulty.faulty]
  rfl

/-- The letters of an unmerged record are not read: each combination means the same. -/
theorem unmerged_letters_pass : ∃ record : Bytes, unmergedMark <+: record ∧
    (∀ pair : StatusPair, statusField record ≠ pair.bytes) ∧ parse (record ++ [0]) ≠ none := by
  have hcolumns : ∀ field ∈ bytesOf "ZZ" :: List.replicate 8 (bytesOf "0"),
      blank ∉ field ∧ (0 : UInt8) ∉ field := by decide
  have hparse := parse_encode [.unmerged ⟨_, rfl, hcolumns⟩ ⟨"f", by decide, by decide⟩]
  refine ⟨StatusEntry.record (bytesOf "u" :: bytesOf "ZZ" :: List.replicate 8 (bytesOf "0"))
    ⟨"f", by decide, by decide⟩, by decide, ?_, ?_⟩
  · rintro ⟨l, m⟩
    cases l <;> cases m <;> decide
  · have hbytes : ∀ record : Bytes, Fields.terminated 0 [record] = record ++ [0] :=
      fun record => List.append_nil _
    rw [StatusEntry.encode, List.flatMap_singleton, StatusEntry.records, hbytes] at hparse
    rw [hparse]
    exact Option.some_ne_none _

end StatusParse
end Soloist
