import Soloist.Config.Model

/-! Parsing and validating a `solo.yml`. The YAML library is a parameter. -/
open List

namespace Soloist

/-- The YAML library, as serialized for and deserialized into the config model. -/
class Yaml where
  fromStr : String → Except String SoloYml
  toString : SoloYml → Except String String

/-- The largest `solo.yml` that is read or written. -/
def maxConfigBytes : ℕ := 1024 * 1024

inductive ConfigError
  | read (source : String)
  | tooLarge (size : ℕ)
  | parse (message : String)
  | emptyGlob (process : String)
  deriving DecidableEq, Repr

abbrev Line := List Char

def textLines (text : String) : List Line := text.toList.splitOn '\n'

namespace Line

def isBlank (line : Line) : Bool := line.all isWhitespace

def isComment (line : Line) : Bool := (line.dropWhile isWhitespace).head? = some '#'

end Line

def hasMeaningfulContent (text : String) : Bool :=
  (textLines text).any fun line => !line.isBlank && !line.isComment

namespace SoloYml

def emptyGlob (config : SoloYml) : Option String :=
  (config.processes.entries.find? fun e => e.2.restartWhenChanged.any isBlank).map Prod.fst

def validate (config : SoloYml) : Except ConfigError Unit :=
  match config.emptyGlob with
  | some process => .error (.emptyGlob process)
  | none => .ok ()

theorem validate_eq_ok {config : SoloYml} : config.validate = .ok () ↔
    ∀ name spec, config.processes.get name = some spec →
      ∀ glob ∈ spec.restartWhenChanged, isBlank glob = false := by
  have hnone : config.validate = .ok () ↔ config.emptyGlob = none := by
    unfold validate
    cases config.emptyGlob with
    | none => simp
    | some process => simp
  rw [hnone, emptyGlob, Option.map_eq_none_iff, find?_eq_none]
  constructor
  · intro h name spec hspec glob hglob
    have hentry := h (name, spec) (IndexMap.get_eq_some.mp hspec)
    rw [any_eq_true] at hentry
    push Not at hentry
    simpa using hentry glob hglob
  · intro h e he hany
    obtain ⟨glob, hglob, hblank⟩ := any_eq_true.mp hany
    have hfilled := h e.1 e.2 (IndexMap.get_eq_some.mpr he) glob hglob
    rw [hblank] at hfilled
    cases hfilled

/-- Validation reads nothing that equal configs differ in. -/
theorem Same.validate {a b : SoloYml} (h : a.Same b) (ha : a.validate = .ok ()) :
    b.validate = .ok () := by
  rw [validate_eq_ok] at ha ⊢
  intro name spec hspec glob hglob
  have hname := h.get name
  rw [hspec] at hname
  cases hget : a.processes.get name with
  | none =>
    rw [hget] at hname
    exact hname.elim
  | some prev =>
    rw [hget] at hname
    apply ha name prev hget glob
    rw [hname.restartWhenChanged]
    exact hglob

end SoloYml

variable [Yaml]

/-- An empty or comment-only document is the empty config. -/
def parse (text : String) : Except ConfigError SoloYml :=
  if hasMeaningfulContent text then
    match Yaml.fromStr text with
    | .error message => .error (.parse message)
    | .ok config =>
      match config.validate with
      | .error e => .error e
      | .ok () => .ok config
  else .ok .default

variable {text : String} {config : SoloYml}

theorem parse_eq_ok_of_content (hcontent : hasMeaningfulContent text = true) :
    parse text = .ok config ↔ Yaml.fromStr text = .ok config ∧ config.validate = .ok () := by
  rw [parse, if_pos hcontent]
  cases Yaml.fromStr text with
  | error message => simp
  | ok read =>
    simp only [Except.ok.injEq]
    cases hvalid : read.validate with
    | error e =>
      constructor
      · intro h
        cases h
      · rintro ⟨rfl, hok⟩
        rw [hvalid] at hok
        cases hok
    | ok _ =>
      constructor
      · intro h
        cases h
        exact ⟨rfl, hvalid⟩
      · rintro ⟨rfl, -⟩
        rfl

theorem validate_of_parse (h : parse text = .ok config) : config.validate = .ok () := by
  by_cases hcontent : hasMeaningfulContent text = true
  · exact ((parse_eq_ok_of_content hcontent).mp h).2
  · rw [parse, if_neg hcontent] at h
    cases h
    rfl

/-- What `solo.yml` holds on disk, and whether reading it fails: a missing file is the empty
config, and an oversized one is refused before it is read. -/
def loadOrEmpty (disk : Option String) (fault : Option String) :
    Except ConfigError (String × SoloYml) :=
  match fault, disk with
  | some source, _ => .error (.read source)
  | none, none => .ok ("", .default)
  | none, some text =>
    if maxConfigBytes < text.utf8ByteSize then .error (.tooLarge text.utf8ByteSize)
    else
      match parse text with
      | .error e => .error e
      | .ok config => .ok (text, config)

section disk
variable {disk fault : Option String} {text : String} {config : SoloYml}

theorem loadOrEmpty_eq_ok (h : loadOrEmpty disk fault = .ok (text, config)) :
    fault = none ∧ text = disk.getD "" ∧ config.validate = .ok () ∧
      loadOrEmpty disk none = .ok (text, config) := by
  unfold loadOrEmpty at h
  split at h
  next => cases h
  next =>
    cases h
    exact ⟨rfl, rfl, rfl, rfl⟩
  next original =>
    split_ifs at h with hsize
    cases hparse : parse original with
    | error e =>
      rw [hparse] at h
      cases h
    | ok read =>
      rw [hparse] at h
      cases h
      refine ⟨rfl, rfl, validate_of_parse hparse, ?_⟩
      simp only [loadOrEmpty, if_neg hsize, hparse]

theorem loadOrEmpty_some (h : loadOrEmpty (some text) none = .ok (text, config)) :
    parse text = .ok config := by
  unfold loadOrEmpty at h
  dsimp only at h
  split_ifs at h with hsize
  cases hparse : parse text with
  | error e =>
    rw [hparse] at h
    cases h
  | ok read =>
    rw [hparse] at h
    cases h
    rfl

end disk

end Soloist

/-! Comment-preserving edits of a `solo.yml`: the `processes:` block is edited in place, and a full
render behind the leading comments stands in wherever the edit does not read back as intended. -/
namespace Soloist

inductive SoloYml.WriteError
  | serialize (message : String)
  | write (source : String)
  deriving DecidableEq, Repr

namespace Line

def indent (line : Line) : ℕ := (line.takeWhile (· = ' ')).length

/-- The canonical two-space indent marks an entry's key. -/
def isEntryKey (line : Line) : Bool := line.indent = 2 && !line.isBlank && !line.isComment

def quotedKey (s : Line) (quote : Char) : Option String :=
  let rest := s.drop 1
  match rest.dropWhile (· ≠ quote) with
  | [] => none
  | _ :: behind =>
    if (behind.dropWhile isWhitespace).head? = some ':' then
      some (String.ofList (rest.takeWhile (· ≠ quote)))
    else none

def parseKey (line : Line) : Option String :=
  if [' ', ' '].isPrefixOf line then
    let s := (line.drop 2).rdropWhile isWhitespace
    match s.head? with
    | none => none
    | some '\'' => quotedKey s '\''
    | some '"' => quotedKey s '"'
    | some _ =>
      if ':' ∈ s then some (String.ofList ((s.takeWhile (· ≠ ':')).rdropWhile isWhitespace))
      else none
  else none

end Line

/-- One entry of the block: its name, its key line, and the lines up to the next entry. -/
structure Entry where
  name : String
  key : Line
  fields : List Line

/-- The `processes:` block: the lines before its first entry, its entries, the lines after it. -/
structure Block where
  head : List Line
  entries : List Entry
  tail : List Line

/-- Groups lines under the key line above them. What precedes the first key line comes first. -/
def groupEntries : List Line → Option (List Line × List Entry)
  | [] => some ([], [])
  | line :: rest =>
    match groupEntries rest with
    | none => none
    | some (fields, entries) =>
      if line.isEntryKey then (line.parseKey).map fun name => ([], ⟨name, line, fields⟩ :: entries)
      else some (line :: fields, entries)

def inBlock (line : Line) : Bool := line.isBlank || line.isComment || 0 < line.indent

/-- Splits a text at its `processes:` block, if it has a plain one with entries. -/
def parseBlock (original : String) : Option Block :=
  let lines := textLines original
  -- a final line feed ends the last line and does not begin another
  let lines := if lines.getLast? = some [] then lines.dropLast else lines
  let header := "processes:".toList
  match lines.dropWhile (· ≠ header) with
  | [] => none
  | _ :: behind =>
    let body := behind.takeWhile inBlock
    if body.any Line.isEntryKey then
      (groupEntries body).map fun grouped =>
        { head := lines.takeWhile (· ≠ header) ++ header :: grouped.1
          entries := grouped.2
          tail := behind.dropWhile inBlock }
    else none

/-- `str::lines`: no empty last line, and no carriage return before a line feed. -/
def renderedLines (text : String) : List Line :=
  let lines := textLines text
  let ended := lines.dropLast.map fun line =>
    if line.getLast? = some '\r' then line.dropLast else line
  match lines.getLast? with
  | none | some [] => ended
  | some last => ended ++ [last]

def leadingLines (original : String) : List Line :=
  (textLines original).takeWhile fun line => line.isBlank || line.isComment

def commentBlock (lines : List Line) : List Char := lines.flatMap (· ++ ['\n'])

def leadingCommentBlock (original : String) : List Char := commentBlock (leadingLines original)

/-- Lines put in front of a text are added in front of its lines. -/
theorem lines_commentBlock (lines : List Line) (rest : List Char) :
    ∃ more, (commentBlock lines ++ rest).splitOn '\n' = more ++ rest.splitOn '\n' := by
  induction lines with
  | nil => exact ⟨[], rfl⟩
  | cons line others ih =>
    obtain ⟨more, hmore⟩ := ih
    refine ⟨line.splitOn '\n' ++ more, ?_⟩
    have hsplit := splitOn_append_cons_self (a := '\n') line (commentBlock others ++ rest)
    rw [commentBlock, flatMap_cons, append_assoc, append_assoc,
      singleton_append]
    rw [hmore, ← append_assoc] at hsplit
    exact hsplit

variable {text : String}

theorem hasMeaningfulContent_commentBlock (lines : List Line)
    (h : hasMeaningfulContent text = true) :
    hasMeaningfulContent (String.ofList (commentBlock lines ++ text.toList)) = true := by
  obtain ⟨more, hmore⟩ := lines_commentBlock lines text.toList
  unfold hasMeaningfulContent textLines at h ⊢
  rw [String.toList_ofList, hmore, any_append, h, Bool.or_true]

section
variable [Yaml]

/-- One entry at the canonical indent: a config of it alone, without the `processes:` line. -/
def entryLines (name : String) (spec : ProcessSpec) : Except SoloYml.WriteError (List Line) :=
  match Yaml.toString { SoloYml.default with processes := IndexMap.empty.insert name spec } with
  | .error message => .error (.serialize message)
  | .ok text =>
    let lines := renderedLines text
    .ok (if "processes:\n".toList.isPrefixOf text.toList then lines.drop 1 else lines)

def editEntry (current intended : SoloYml) (changes : ConfigSync) (entry : Entry) :
    Except SoloYml.WriteError (Option (List Line)) :=
  if entry.name ∈ changes.removed then .ok (some [])
  else
    match changes.renamed.find? fun r => r.fromName = entry.name with
    | some r =>
      match intended.processes.get r.toName with
      | none => .ok none
      | some spec =>
        match entryLines r.toName spec with
        | .error e => .error e
        | .ok rendered =>
          -- a pure rename keeps the body and its comments
          if Processes.Agree (current.processes.get entry.name) (some spec) then
            .ok (some (rendered.take 1 ++ entry.fields))
          else .ok (some rendered)
    | none =>
      if entry.name ∈ changes.updated then
        match intended.processes.get entry.name with
        | none => .ok none
        | some spec =>
          match entryLines entry.name spec with
          | .error e => .error e
          | .ok rendered => .ok (some (entry.key :: rendered.drop 1))
      else .ok (some (entry.key :: entry.fields))

/-- Appends the lines of each piece in turn, up to the first that fails or gives up. -/
def collect {α : Type} (f : α → Except SoloYml.WriteError (Option (List Line))) :
    List α → Except SoloYml.WriteError (Option (List Line))
  | [] => .ok (some [])
  | x :: rest =>
    match f x with
    | .error e => .error e
    | .ok none => .ok none
    | .ok (some lines) =>
      match collect f rest with
      | .error e => .error e
      | .ok none => .ok none
      | .ok (some more) => .ok (some (lines ++ more))

def addEntry (intended : SoloYml) (name : String) : Except SoloYml.WriteError (Option (List Line)) :=
  match intended.processes.get name with
  | none => .ok none
  | some spec => (entryLines name spec).map some

def joinLines (lines : List Line) (original : String) : String :=
  String.ofList (['\n'].intercalate lines ++
    if original.toList.getLast? = some '\n' then ['\n'] else [])

def tryInPlace (original : String) (current intended : SoloYml) :
    Except SoloYml.WriteError (Option String) :=
  match parseBlock original with
  | none => .ok none
  | some block =>
    let changes := current.diff intended
    match collect (editEntry current intended changes) block.entries with
    | .error e => .error e
    | .ok none => .ok none
    | .ok (some edited) =>
      match collect (addEntry intended) changes.added with
      | .error e => .error e
      | .ok none => .ok none
      | .ok (some added) =>
        .ok (some (joinLines (block.head ++ edited ++ added ++ block.tail) original))

def fallback (original : String) (intended : SoloYml) : Except SoloYml.WriteError String :=
  match Yaml.toString intended with
  | .error message => .error (.serialize message)
  | .ok body => .ok (String.ofList (leadingCommentBlock original ++ body.toList))

/-- An in-place edit counts only when it reads back as the intended config. -/
def ReadsBack (text : String) (intended : SoloYml) : Prop :=
  ∃ config, parse text = .ok config ∧ config.Same intended

instance (text : String) (intended : SoloYml) : Decidable (ReadsBack text intended) :=
  match h : parse text with
  | .ok config =>
    decidable_of_iff (config.Same intended)
      ⟨fun hsame => ⟨config, h, hsame⟩, fun ⟨other, hother, hsame⟩ => by
        rw [h] at hother
        cases hother
        exact hsame⟩
  | .error e => isFalse fun ⟨config, hconfig, _⟩ => by
      rw [h] at hconfig
      cases hconfig

def rewrite (original : String) (current intended : SoloYml) : Except SoloYml.WriteError String :=
  match tryInPlace original current intended with
  | .error e => .error e
  | .ok none => fallback original intended
  | .ok (some text) =>
    if ReadsBack text intended then .ok text else fallback original intended

def isCommentChar (c : Char) : Bool :=
  let n := c.toNat
  n = 0x09 || (0x20 ≤ n && n ≤ 0x7E) ||
    (0xA0 ≤ n && n ≤ 0xD7FF && n ≠ 0x2028 && n ≠ 0x2029) ||
    (0xE000 ≤ n && n ≤ 0xFFFD && n ≠ 0xFEFF) || 0x10000 ≤ n

/-- A line that YAML reads as blank or as a comment: spaces and then nothing or a comment, with no
line break of its own but a carriage return at its end. -/
def Line.isYamlComment (line : Line) : Bool :=
  let line := if line.getLast? = some '\r' then line.dropLast else line
  let text := line.dropWhile (· = ' ')
  (text.isEmpty || text.head? = some '#') && text.all isCommentChar

/-- What is relied on of the YAML library: it parses back what it renders, a rendered config is not
all comments, and comment lines in front of it do not change what it parses to. -/
structure Yaml.Faithful : Prop where
  roundTrip : ∀ config text, Yaml.toString config = .ok text →
    ∃ read, Yaml.fromStr text = .ok read ∧ read.Same config
  content : ∀ config text, Yaml.toString config = .ok text → hasMeaningfulContent text = true
  comments : ∀ config text read lines, Yaml.toString config = .ok text →
    Yaml.fromStr text = .ok read → (∀ line ∈ lines, line.isYamlComment = true) →
    Yaml.fromStr (String.ofList (commentBlock lines ++ text.toList)) = .ok read

variable {text : String} {intended : SoloYml}

theorem ReadsBack.validate (h : ReadsBack text intended) : intended.validate = .ok () := by
  obtain ⟨config, hparse, hsame⟩ := h
  exact hsame.validate (validate_of_parse hparse)

variable {original : String}

/-- A full render behind comments is read as the config it was rendered from. -/
theorem fromStr_fallback (hyaml : Yaml.Faithful) (h : fallback original intended = .ok text)
    (hlead : ∀ line ∈ leadingLines original, line.isYamlComment = true) :
    hasMeaningfulContent text = true ∧
      ∃ read, Yaml.fromStr text = .ok read ∧ read.Same intended := by
  unfold fallback at h
  cases hbody : Yaml.toString intended with
  | error message =>
    rw [hbody] at h
    cases h
  | ok body =>
    rw [hbody] at h
    cases h
    obtain ⟨read, hread, hsame⟩ := hyaml.roundTrip intended body hbody
    have hcontent := hasMeaningfulContent_commentBlock (leadingLines original)
      (hyaml.content intended body hbody)
    exact ⟨hcontent, read, hyaml.comments intended body read _ hbody hread hlead, hsame⟩

theorem readsBack_fallback (hyaml : Yaml.Faithful) (h : fallback original intended = .ok text)
    (hvalid : intended.validate = .ok ())
    (hlead : ∀ line ∈ leadingLines original, line.isYamlComment = true) :
    ReadsBack text intended := by
  obtain ⟨hcontent, read, hread, hsame⟩ := fromStr_fallback hyaml h hlead
  refine ⟨read, ?_, hsame⟩
  exact (parse_eq_ok_of_content hcontent).mpr ⟨hread, hsame.symm.validate hvalid⟩

variable {current : SoloYml}

theorem rewrite_cases (h : rewrite original current intended = .ok text) :
    ReadsBack text intended ∨ fallback original intended = .ok text := by
  unfold rewrite at h
  cases hedit : tryInPlace original current intended with
  | error e =>
    rw [hedit] at h
    cases h
  | ok edited =>
    rw [hedit] at h
    cases edited with
    | none => exact .inr h
    | some edited =>
      simp only at h
      split_ifs at h with hback
      · cases h
        exact .inl hback
      · exact .inr h

theorem same_of_parse_rewrite (hyaml : Yaml.Faithful) {config : SoloYml}
    (h : rewrite original current intended = .ok text)
    (hlead : ∀ line ∈ leadingLines original, line.isYamlComment = true)
    (hparse : parse text = .ok config) : config.Same intended := by
  rcases rewrite_cases h with ⟨read, hread, hsame⟩ | hfull
  · rw [hread] at hparse
    cases hparse
    exact hsame
  · obtain ⟨hcontent, read, hread, hsame⟩ := fromStr_fallback hyaml hfull hlead
    have hok := ((parse_eq_ok_of_content hcontent).mp hparse).1
    rw [hread] at hok
    cases hok
    exact hsame

/-- A rewrite parses to the intended config when the config passes validation and YAML reads the
original's leading comments as comments; when it does not pass, no rewrite parses to it. -/
theorem rewrite_readsBack (hyaml : Yaml.Faithful) {original text : String}
    {current intended : SoloYml} (h : rewrite original current intended = .ok text) :
    ((∀ name spec, intended.processes.get name = some spec →
        ∀ glob ∈ spec.restartWhenChanged, isBlank glob = false) →
      (∀ line ∈ leadingLines original, line.isYamlComment = true) → ReadsBack text intended) ∧
    ((∃ name spec, intended.processes.get name = some spec ∧
        ∃ glob ∈ spec.restartWhenChanged, isBlank glob = true) → ¬ReadsBack text intended) := by
  constructor
  · intro hglobs hlead
    rcases rewrite_cases h with hback | hfull
    · exact hback
    · exact readsBack_fallback hyaml hfull (SoloYml.validate_eq_ok.mpr hglobs) hlead
  · rintro ⟨name, spec, hspec, glob, hglob, hblank⟩ hback
    have hfilled := SoloYml.validate_eq_ok.mp hback.validate name spec hspec glob hglob
    rw [hblank] at hfilled
    cases hfilled

end

def parseFrom (documents : List (String × SoloYml)) (text : String) : Except String SoloYml :=
  match documents.find? fun e => e.1.toList.isSuffixOf text.toList with
  | some e => .ok e.2
  | none => .error "unknown document"

def renderFrom (documents : List (String × SoloYml)) (config : SoloYml) : Except String String :=
  match documents.find? fun e => e.2.Same config with
  | some e => .ok e.1
  | none => .error "unknown config"

@[reducible] def Yaml.ofTable (documents : List (String × SoloYml)) : Yaml :=
  ⟨parseFrom documents, renderFrom documents⟩

def serveConfig (globs : List String) : SoloYml :=
  { SoloYml.default with
    processes := IndexMap.empty.insert "web" ⟨"serve", none, true, false, globs, []⟩ }

def plainText : String := "processes:\n  web:\n    command: serve\n"

def blankGlobText : String :=
  "processes:\n  web:\n    command: serve\n    restart_when_changed:\n    - ''\n"

def renderings : List (String × SoloYml) :=
  [(plainText, serveConfig []), (blankGlobText, serveConfig [""])]

variable {e : String × SoloYml}

theorem find_rendering (he : e ∈ renderings) {text : List Char} (h : e.1.toList <:+ text) :
    (renderings.find? fun e => e.1.toList.isSuffixOf text) = some e := by
  have hplain : ¬plainText.toList <:+ blankGlobText.toList := by decide
  have hblank : ¬blankGlobText.toList <:+ plainText.toList := by decide
  rcases mem_cons.mp he with rfl | he
  · exact find?_cons_of_pos (isSuffixOf_iff_suffix.mpr h)
  · rw [mem_singleton.mp he] at h ⊢
    have hne : ¬plainText.toList.isSuffixOf text = true := by
      rw [isSuffixOf_iff_suffix]
      intro hfirst
      rcases suffix_or_suffix_of_suffix hfirst h with hsuffix | hsuffix
      · exact hplain hsuffix
      · exact hblank hsuffix
    simp only [renderings, find?_cons, Bool.not_eq_true] at hne ⊢
    rw [hne, isSuffixOf_iff_suffix.mpr h]

theorem parseFrom_of_suffix (he : e ∈ renderings) (h : e.1.toList <:+ text.toList) :
    parseFrom renderings text = .ok e.2 := by
  rw [parseFrom, find_rendering he h]

theorem of_renderFrom {documents : List (String × SoloYml)} {config : SoloYml}
    (h : renderFrom documents config = .ok text) :
    ∃ e ∈ documents, e.1 = text ∧ e.2.Same config := by
  unfold renderFrom at h
  cases hfind : documents.find? fun e => e.2.Same config with
  | none =>
    rw [hfind] at h
    cases h
  | some e =>
    have hsame : e.2.Same config := by simpa using find?_some hfind
    rw [hfind] at h
    cases h
    exact ⟨e, mem_of_find?_eq_some hfind, rfl, hsame⟩

theorem faithful_renderings : letI := Yaml.ofTable renderings; Yaml.Faithful := by
  let _ := Yaml.ofTable renderings
  have hcontent : ∀ e ∈ renderings, hasMeaningfulContent e.1 = true := by decide
  constructor
  · intro config text h
    obtain ⟨e, he, rfl, hsame⟩ := of_renderFrom h
    exact ⟨e.2, parseFrom_of_suffix he (suffix_refl _), hsame⟩
  · intro config text h
    obtain ⟨e, he, rfl, -⟩ := of_renderFrom h
    exact hcontent e he
  · intro config text read lines h hread _
    obtain ⟨e, he, rfl, -⟩ := of_renderFrom h
    have hwhole : e.1.toList <:+ (String.ofList (commentBlock lines ++ e.1.toList)).toList := by
      rw [String.toList_ofList]
      exact List.suffix_append _ _
    have hbody : parseFrom renderings e.1 = .ok e.2 := parseFrom_of_suffix he (suffix_refl _)
    exact (parseFrom_of_suffix he hwhole).trans (hbody.symm.trans hread)

/-- A first command, written under a comment. -/
theorem rewrite_readsBack_commented :
    letI := Yaml.ofTable renderings
    ∃ text, rewrite "# notes\n" .default (serveConfig []) = .ok text ∧
      ReadsBack text (serveConfig []) := by
  let _ := Yaml.ofTable renderings
  have hrewrite : ∃ text, rewrite "# notes\n" .default (serveConfig []) = .ok text :=
    ⟨"# notes\n\n" ++ plainText, by decide⟩
  obtain ⟨text, htext⟩ := hrewrite
  refine ⟨text, htext, (rewrite_readsBack faithful_renderings htext).1 ?_ (by decide)⟩
  exact SoloYml.validate_eq_ok.mp (by decide)

/-- A command edited to have a blank glob: the in-place edit and the full render are the same
text, which no longer loads. -/
theorem rewrite_blank_glob :
    letI := Yaml.ofTable renderings
    Yaml.Faithful ∧ parse plainText = .ok (serveConfig []) ∧
      rewrite plainText (serveConfig []) (serveConfig [""]) = .ok blankGlobText ∧
      ¬ReadsBack blankGlobText (serveConfig [""]) := by
  let _ := Yaml.ofTable renderings
  refine ⟨faithful_renderings, ?_⟩
  decide

end Soloist
