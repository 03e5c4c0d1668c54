import Soloist.Config.Edit
import Soloist.TextLines

/-! What an edit of a `solo.yml` keeps of its comments and blank lines. The lines between an entry
and the next one are kept with the entry above them, so they go when it is edited or removed. -/
open List

namespace Soloist

def Line.isLoose (line : Line) : Bool := line.isBlank || line.isComment

/-- A line that can stand between two entries: blank, or a comment indented no deeper than the
fields of an entry. -/
def Line.standsBetween (line : Line) : Bool := line.isBlank || line.isComment && line.indent ≤ 4

variable {line : Line}

theorem Line.isLoose_of_standsBetween (h : line.standsBetween = true) : line.isLoose = true := by
  simp only [standsBetween, isLoose, Bool.or_eq_true, Bool.and_eq_true] at h ⊢
  exact h.imp_right And.left

def Entry.behind (e : Entry) : List Line := e.fields.rtakeWhile Line.standsBetween

def looseLines (lines : List Line) : List Line := lines.filter Line.isLoose

/-- The entry's own fields are removed or edited. A renamed entry whose spec stays keeps them. -/
def Entry.Reworked (current intended : SoloYml) (e : Entry) : Prop :=
  e.name ∈ (current.diff intended).removed ∨
    match (current.diff intended).renamed.find? fun r => r.fromName = e.name with
    | some r =>
      ¬Processes.Agree (current.processes.get e.name) (intended.processes.get r.toName)
    | none => e.name ∈ (current.diff intended).updated

instance (current intended : SoloYml) (e : Entry) : Decidable (e.Reworked current intended) := by
  unfold Entry.Reworked
  split
  · infer_instance
  · infer_instance

/-- The entry's blank and comment lines that are not inside fields removed or edited. -/
def Entry.spared (current intended : SoloYml) (e : Entry) : List Line :=
  if e.Reworked current intended then e.behind else looseLines e.fields

/-- What lies behind a final line feed. -/
def ending (original : String) : List Line :=
  if original.toList.getLast? = some '\n' then [[]] else []

/-- The blank and comment lines of a text that are not inside fields removed or edited, in order;
the empty rest behind a final line feed counts as a blank line. -/
def spared (original : String) (block : Block) (current intended : SoloYml) : List Line :=
  looseLines block.head ++ block.entries.flatMap (Entry.spared current intended) ++
    looseLines block.tail ++ ending original

def Keeps (original : String) (block : Block) (current intended : SoloYml) (text : String) : Prop :=
  (spared original block current intended).Sublist (textLines text)

instance (original : String) (block : Block) (current intended : SoloYml) (text : String) :
    Decidable (Keeps original block current intended text) :=
  inferInstanceAs (Decidable (List.Sublist _ _))

section
variable [Yaml]

def EditedInPlace (original : String) (current intended : SoloYml) : Prop :=
  ∃ text, tryInPlace original current intended = .ok (some text) ∧ ReadsBack text intended

/-- What the YAML library renders of a config has no blank and no comment line. -/
structure PlainRender (intended : SoloYml) : Prop where
  whole : ∀ text, Yaml.toString intended = .ok text → looseLines (textLines text) = [[]]
  entry : ∀ name spec lines, intended.processes.get name = some spec →
    entryLines name spec = .ok lines → looseLines lines = []

end

/-! The lines of a text and of a block. -/

theorem not_mem_of_mem_splitOn {α : Type*} [DecidableEq α] {a : α} {xs piece : List α}
    (h : piece ∈ xs.splitOn a) : a ∉ piece := by
  induction xs generalizing piece with
  | nil =>
    rw [splitOn_nil, mem_singleton] at h
    rw [h]
    exact not_mem_nil
  | cons x xs ih =>
    rw [splitOn_cons_eq_if_modifyHead] at h
    split_ifs at h with hx
    · obtain rfl | h := mem_cons.mp h
      · exact not_mem_nil
      · exact ih h
    · cases hsplit : xs.splitOn a with
      | nil => exact absurd hsplit (splitOn_ne_nil a xs)
      | cons first rest =>
        rw [hsplit, modifyHead_cons] at h
        obtain rfl | h := mem_cons.mp h
        · rw [mem_cons, not_or]
          refine ⟨?_, ih (hsplit ▸ (.head _))⟩
          intro heq
          simp [heq] at hx
        · exact ih (hsplit ▸ .tail _ h)

variable {lines : List Line} {original : String}

theorem textLines_joinLines (hne : lines ≠ []) (hlines : ∀ line ∈ lines, '\n' ∉ line) :
    textLines (joinLines lines original) = lines ++ ending original := by
  have hsplit : (['\n'].intercalate lines).splitOn '\n' = lines :=
    splitOn_intercalate '\n' hlines hne
  rw [textLines, joinLines, String.toList_ofList, ending]
  split_ifs
  · rw [splitOn_append_cons_self, hsplit, splitOn_nil]
  · rw [append_nil, append_nil, hsplit]

theorem groupEntries_lines {body fields : List Line} {entries : List Entry}
    (h : groupEntries body = some (fields, entries)) :
    fields ++ entries.flatMap (fun e => e.key :: e.fields) = body ∧
      ∀ e ∈ entries, e.key.isEntryKey = true := by
  induction body generalizing fields entries with
  | nil =>
    cases h
    exact ⟨rfl, by simp⟩
  | cons line rest ih =>
    rw [groupEntries] at h
    cases hrest : groupEntries rest with
    | none => simp [hrest] at h
    | some grouped =>
      obtain ⟨fields', entries'⟩ := grouped
      obtain ⟨hlines, hkeys⟩ := ih hrest
      simp only [hrest] at h
      split_ifs at h with hkey
      · obtain ⟨name, -, heq⟩ := Option.map_eq_some_iff.mp h
        cases heq
        refine ⟨by simpa using hlines, ?_⟩
        simpa [hkey] using hkeys
      · cases h
        exact ⟨by simpa using hlines, hkeys⟩

/-- The lines of a text without the empty rest behind a final line feed. -/
def fileLines (original : String) : List Line :=
  let lines := textLines original
  if lines.getLast? = some [] then lines.dropLast else lines

def header : Line := "processes:".toList

def blockAt (header : Line) (lines : List Line) : Option Block :=
  match lines.dropWhile (· ≠ header) with
  | [] => none
  | _ :: behind =>
    if (behind.takeWhile inBlock).any Line.isEntryKey then
      (groupEntries (behind.takeWhile inBlock)).map fun grouped =>
        { head := lines.takeWhile (· ≠ header) ++ header :: grouped.1
          entries := grouped.2
          tail := behind.dropWhile inBlock }
    else none

theorem parseBlock_eq (original : String) :
    parseBlock original = blockAt header (fileLines original) := rfl

variable {block : Block}

theorem blockAt_lines {header : Line} (h : blockAt header lines = some block) :
    block.head ++ block.entries.flatMap (fun e => e.key :: e.fields) ++ block.tail = lines ∧
      (∀ e ∈ block.entries, e.key.isEntryKey = true) ∧
      ∃ rest, block.head = lines.takeWhile (· ≠ header) ++ header :: rest := by
  unfold blockAt at h
  cases hdrop : lines.dropWhile (· ≠ header) with
  | nil =>
    rw [hdrop] at h
    cases h
  | cons first behind =>
    have hfirst : first = header := by
      have hhead := head?_dropWhile_not (fun l : Line => l ≠ header) lines
      rw [hdrop] at hhead
      simpa using hhead
    rw [hfirst] at hdrop
    rw [hdrop] at h
    simp only [Option.ite_none_right_eq_some] at h
    obtain ⟨-, h⟩ := h
    obtain ⟨grouped, hgrouped, rfl⟩ := Option.map_eq_some_iff.mp h
    obtain ⟨hlines, hkeys⟩ := groupEntries_lines hgrouped
    refine ⟨?_, hkeys, grouped.1, rfl⟩
    have hsplit := takeWhile_append_dropWhile (p := inBlock) (l := behind)
    calc lines.takeWhile (· ≠ header) ++ header :: grouped.1 ++
          grouped.2.flatMap (fun e => e.key :: e.fields) ++ behind.dropWhile inBlock
        = lines.takeWhile (· ≠ header) ++
            header :: (behind.takeWhile inBlock ++ behind.dropWhile inBlock) := by
          rw [← hlines]
          simp only [append_assoc, cons_append]
      _ = lines := by
          rw [hsplit, ← hdrop, takeWhile_append_dropWhile]

theorem not_mem_textLines (h : line ∈ textLines original) :
    '\n' ∉ line := not_mem_of_mem_splitOn h

theorem textLines_eq (original : String) :
    ∃ final, textLines original = fileLines original ++ final := by
  unfold fileLines
  simp only
  split_ifs with hlast
  · have hne : textLines original ≠ [] := splitOn_ne_nil _ _
    exact ⟨_, (dropLast_append_getLast hne).symm⟩
  · exact ⟨[], (append_nil _).symm⟩

theorem mem_textLines_of_mem_fileLines (h : line ∈ fileLines original) :
    line ∈ textLines original := by
  unfold fileLines at h
  simp only at h
  split_ifs at h
  · exact (dropLast_sublist _).subset h
  · exact h

theorem not_loose_of_isEntryKey (h : line.isEntryKey = true) : line.isLoose = false := by
  simp only [Line.isEntryKey, Bool.and_eq_true, Bool.not_eq_true'] at h
  simp [Line.isLoose, h.1.2, h.2]

theorem looseLines_key {e : Entry} (h : e.key.isEntryKey = true) (lines : List Line) :
    looseLines (e.key :: lines) = looseLines lines := by
  rw [looseLines, filter_cons_of_neg (by rw [not_loose_of_isEntryKey h]; simp), ← looseLines]

@[simp] theorem looseLines_append (xs ys : List Line) :
    looseLines (xs ++ ys) = looseLines xs ++ looseLines ys := filter_append xs ys

/-- Sections between entries hold nothing but blank and comment lines. -/
theorem looseLines_behind (e : Entry) : looseLines e.behind = e.behind := by
  rw [looseLines, filter_eq_self]
  intro line hline
  exact Line.isLoose_of_standsBetween (mem_rtakeWhile_imp hline)

/-- The leading lines come first among the blank and comment lines before the first entry. -/
theorem looseLines_head (h : parseBlock original = some block) :
    ∃ more, looseLines block.head = leadingLines original ++ more := by
  obtain ⟨hlines, -, rest, hhead⟩ := blockAt_lines (parseBlock_eq original ▸ h)
  generalize hfirst : (fileLines original).takeWhile (· ≠ header) = first at hhead
  have hheader : header.isLoose = false := by decide
  obtain ⟨more, hmore⟩ : ∃ more, textLines original = first ++ header :: more := by
    obtain ⟨final, hfinal⟩ := textLines_eq original
    refine ⟨rest ++ block.entries.flatMap (fun e => e.key :: e.fields) ++ block.tail ++ final, ?_⟩
    rw [hfinal, ← hlines, hhead]
    simp only [append_assoc, cons_append]
  have hleading : leadingLines original = first.takeWhile Line.isLoose := by
    change (textLines original).takeWhile Line.isLoose = _
    have hstop : (header :: more).takeWhile Line.isLoose = [] :=
      takeWhile_cons_of_neg (by simp [hheader])
    rw [hmore, takeWhile_append, hstop, append_nil]
    split_ifs with hall
    · exact (IsPrefix.eq_of_length (List.takeWhile_prefix _) hall).symm
    · rfl
  refine ⟨looseLines (first.dropWhile Line.isLoose) ++ looseLines (header :: rest), ?_⟩
  have hloose : looseLines (first.takeWhile Line.isLoose) = first.takeWhile Line.isLoose := by
    rw [looseLines, filter_eq_self]
    exact fun line hline => mem_takeWhile_imp hline
  calc looseLines block.head
      = looseLines (first.takeWhile Line.isLoose ++ first.dropWhile Line.isLoose) ++
          looseLines (header :: rest) := by
        rw [hhead, looseLines_append, takeWhile_append_dropWhile]
    _ = leadingLines original ++
          (looseLines (first.dropWhile Line.isLoose) ++ looseLines (header :: rest)) := by
        rw [looseLines_append, hloose, hleading, append_assoc]

theorem splitOn_commentBlock (h : ∀ line ∈ lines, '\n' ∉ line) (rest : List Char) :
    (commentBlock lines ++ rest).splitOn '\n' = lines ++ rest.splitOn '\n' :=
  Fields.splitOn_terminated h rest

/-- Where the pieces of one list are no shorter than those of another and all of them together are
no longer, each is no longer. -/
theorem length_le_of_flatMap_le {α β : Type*} {f g : α → List β} {xs : List α}
    (h : ∀ x ∈ xs, (g x).length ≤ (f x).length)
    (hall : (xs.flatMap f).length ≤ (xs.flatMap g).length) :
    ∀ x ∈ xs, (f x).length ≤ (g x).length := by
  induction xs with
  | nil => simp
  | cons x xs ih =>
    simp only [forall_mem_cons] at h ⊢
    have hrest : (xs.flatMap g).length ≤ (xs.flatMap f).length := by
      clear ih hall
      induction xs with
      | nil => exact le_rfl
      | cons y ys ih =>
        have htail := ih ⟨h.1, fun z hz => h.2 z (.tail _ hz)⟩
        have hfirst := h.2 y (.head _)
        simp only [flatMap_cons, List.length_append]
        omega
    have hfirst := h.1
    simp only [flatMap_cons, List.length_append] at hall
    exact ⟨by omega, ih h.2 (by omega)⟩

variable {α : Type}

variable {xs : List α} {f : α → Except SoloYml.WriteError (Option (List Line))}

theorem collect_eq_ok (h : collect f xs = .ok (some lines)) :
    ∃ pieces, List.Forall₂ (fun x piece => f x = .ok (some piece)) xs pieces ∧
      lines = pieces.flatten := by
  induction xs generalizing lines with
  | nil =>
    cases h
    exact ⟨[], .nil, rfl⟩
  | cons x rest ih =>
    rw [collect] at h
    cases hx : f x with
    | error e => simp [hx] at h
    | ok edited =>
      cases edited with
      | none => simp [hx] at h
      | some piece =>
        cases hrest : collect f rest with
        | error e => simp [hx, hrest] at h
        | ok collected =>
          cases collected with
          | none => simp [hx, hrest] at h
          | some more =>
            simp only [hx, hrest, Except.ok.injEq, Option.some.injEq] at h
            obtain ⟨pieces, hpieces, rfl⟩ := ih hrest
            exact ⟨piece :: pieces, .cons hx hpieces, h.symm⟩

theorem looseLines_idem (lines : List Line) : looseLines (looseLines lines) = looseLines lines := by
  rw [looseLines, looseLines, filter_filter]
  simp

theorem looseLines_ending (original : String) : looseLines (ending original) = ending original := by
  unfold ending
  split_ifs
  · rfl
  · rfl

variable {current intended : SoloYml}

theorem looseLines_spared :
    looseLines (spared original block current intended) =
      spared original block current intended := by
  have hentry : ∀ e : Entry,
      looseLines (e.spared current intended) = e.spared current intended := by
    intro e
    unfold Entry.spared
    split_ifs
    · exact looseLines_behind e
    · exact looseLines_idem e.fields
  have hentries : looseLines (block.entries.flatMap (Entry.spared current intended)) =
      block.entries.flatMap (Entry.spared current intended) := by
    rw [looseLines, List.filter_flatMap]
    exact flatMap_congr fun e _ => hentry e
  rw [spared, looseLines_append, looseLines_append, looseLines_append, looseLines_idem,
    looseLines_idem, looseLines_ending, hentries]

/-- Keeping what is spared is keeping it among the blank and comment lines of the output. -/
theorem keeps_iff {text : String} :
    Keeps original block current intended text ↔
      (spared original block current intended).Sublist (looseLines (textLines text)) := by
  constructor
  · intro h
    have hloose := List.Sublist.filter Line.isLoose h
    rwa [← looseLines, looseLines_spared] at hloose
  · intro h
    exact h.trans filter_sublist

theorem forall_mem_collected {P : Line → Prop} (h : collect f xs = .ok (some lines))
    (hpiece : ∀ x ∈ xs, ∀ piece, f x = .ok (some piece) → ∀ line ∈ piece, P line) :
    ∀ line ∈ lines, P line := by
  obtain ⟨pieces, hpieces, rfl⟩ := collect_eq_ok h
  clear h
  induction hpieces with
  | nil => simp
  | @cons x piece xs pieces hx hrest ih =>
    intro line hline
    rw [flatten_cons] at hline
    obtain hline | hline := mem_append.mp hline
    · exact hpiece x (.head _) piece hx line hline
    · exact ih (fun y hy => hpiece y (.tail _ hy)) line hline

variable {g : α → List Line}

theorem flatMap_sublist_collected (h : collect f xs = .ok (some lines))
    (hpiece : ∀ x ∈ xs, ∀ piece, f x = .ok (some piece) → (g x).Sublist piece) :
    (xs.flatMap g).Sublist lines := by
  obtain ⟨pieces, hpieces, rfl⟩ := collect_eq_ok h
  clear h
  induction hpieces with
  | nil => exact List.Sublist.refl _
  | @cons x piece xs pieces hx hrest ih =>
    rw [flatMap_cons, flatten_cons]
    refine (hpiece x (.head _) piece hx).append (ih ?_)
    exact fun y hy => hpiece y (.tail _ hy)

theorem looseLines_collected (h : collect f xs = .ok (some lines))
    (hpiece : ∀ x ∈ xs, ∀ piece, f x = .ok (some piece) → looseLines piece = g x) :
    looseLines lines = xs.flatMap g := by
  obtain ⟨pieces, hpieces, rfl⟩ := collect_eq_ok h
  clear h
  induction hpieces with
  | nil => rfl
  | @cons x piece xs pieces hx hrest ih =>
    rw [flatMap_cons, flatten_cons, looseLines_append,
      hpiece x (.head _) piece hx,
      ih fun y hy => hpiece y (.tail _ hy)]

theorem spared_eq_leading (current intended : SoloYml) (hblock : parseBlock original = some block) :
    ∃ rest, spared original block current intended = leadingLines original ++ rest := by
  obtain ⟨more, hmore⟩ := looseLines_head hblock
  refine ⟨more ++ block.entries.flatMap (Entry.spared current intended) ++
    looseLines block.tail ++ ending original, ?_⟩
  rw [spared, hmore]
  simp only [append_assoc]

def sparedBelow (original : String) (block : Block) (current intended : SoloYml) : List Line :=
  (spared original block current intended).drop (leadingLines original).length

section
variable [Yaml] {original : String} {block : Block} {current intended : SoloYml}

variable {name : String}

theorem not_mem_entryLines {spec : ProcessSpec} {lines : List Line}
    (h : entryLines name spec = .ok lines) : ∀ line ∈ lines, '\n' ∉ line := by
  have hrendered : ∀ text, ∀ line ∈ renderedLines text, '\n' ∉ line := by
    intro text line hline
    have hended : ∀ l ∈ (textLines text).dropLast.map fun line =>
        if line.getLast? = some '\r' then line.dropLast else line, '\n' ∉ l := by
      intro l hl
      obtain ⟨whole, hwhole, rfl⟩ := mem_map.mp hl
      have hnot := not_mem_textLines ((dropLast_sublist _).subset hwhole)
      split_ifs
      · exact fun hmem => hnot ((dropLast_sublist _).subset hmem)
      · exact hnot
    unfold renderedLines at hline
    simp only at hline
    split at hline
    · exact hended line hline
    · exact hended line hline
    · next last _ hlast =>
      obtain hline | hline := mem_append.mp hline
      · exact hended line hline
      · rw [mem_singleton.mp hline]
        exact not_mem_textLines (mem_of_getLast? hlast)
  unfold entryLines at h
  split at h
  · cases h
  · next text _ =>
    simp only [Except.ok.injEq] at h
    rw [← h]
    intro line hline
    split_ifs at hline
    · exact hrendered text line (mem_of_mem_drop hline)
    · exact hrendered text line hline

variable {e : Entry} {piece : List Line}

theorem editEntry_eq_ok
    (h : editEntry current intended (current.diff intended) e = .ok (some piece)) :
    e.Reworked current intended ∧ (piece = [] ∨ ∃ name spec rendered,
        intended.processes.get name = some spec ∧ entryLines name spec = .ok rendered ∧
        (piece = rendered ∨ piece = e.key :: rendered.drop 1)) ∨
      ¬e.Reworked current intended ∧ (piece = e.key :: e.fields ∨ ∃ name spec rendered,
        intended.processes.get name = some spec ∧ entryLines name spec = .ok rendered ∧
        piece = rendered.take 1 ++ e.fields) := by
  unfold editEntry at h
  unfold Entry.Reworked
  by_cases hremoved : e.name ∈ (current.diff intended).removed
  · rw [if_pos hremoved] at h
    cases h
    exact .inl ⟨.inl hremoved, .inl rfl⟩
  · rw [if_neg hremoved] at h
    cases hrename : (current.diff intended).renamed.find? fun r => r.fromName = e.name with
    | some r =>
      simp only [hrename] at h
      cases hspec : intended.processes.get r.toName with
      | none => simp [hspec] at h
      | some spec =>
        cases hrendered : entryLines r.toName spec with
        | error e => simp [hspec, hrendered] at h
        | ok rendered =>
          simp only [hspec, hrendered] at h
          split_ifs at h with hagree
          · cases h
            refine .inr ⟨?_, .inr ⟨_, _, _, hspec, hrendered, rfl⟩⟩
            rintro (hmem | hnot)
            · exact hremoved hmem
            · exact hnot (hspec ▸ hagree)
          · cases h
            have hedited : ¬Processes.Agree (current.processes.get e.name)
                (intended.processes.get r.toName) := by rwa [hspec]
            exact .inl ⟨.inr hedited, .inr ⟨_, _, _, hspec, hrendered, .inl rfl⟩⟩
    | none =>
      simp only [hrename] at h
      split_ifs at h with hupdated
      · cases hspec : intended.processes.get e.name with
        | none => simp [hspec] at h
        | some spec =>
          cases hrendered : entryLines e.name spec with
          | error e => simp [hspec, hrendered] at h
          | ok rendered =>
            simp only [hspec, hrendered, Except.ok.injEq, Option.some.injEq] at h
            exact .inl ⟨.inr hupdated, .inr ⟨_, _, _, hspec, hrendered, .inr h.symm⟩⟩
      · cases h
        refine .inr ⟨?_, .inl rfl⟩
        rintro (hmem | hmem)
        · exact hremoved hmem
        · exact hupdated hmem

variable {text : String}

theorem tryInPlace_eq_ok (hblock : parseBlock original = some block)
    (h : tryInPlace original current intended = .ok (some text)) :
    ∃ edited added, collect (editEntry current intended (current.diff intended)) block.entries =
        .ok (some edited) ∧
      collect (addEntry intended) (current.diff intended).added = .ok (some added) ∧
      text = joinLines (block.head ++ edited ++ added ++ block.tail) original := by
  unfold tryInPlace at h
  simp only [hblock] at h
  cases hedited : collect (editEntry current intended (current.diff intended)) block.entries with
  | error e => simp [hedited] at h
  | ok edited =>
    cases edited with
    | none => simp [hedited] at h
    | some edited =>
      cases hadded : collect (addEntry intended) (current.diff intended).added with
      | error e => simp [hedited, hadded] at h
      | ok added =>
        cases added with
        | none => simp [hedited, hadded] at h
        | some added =>
          simp only [hedited, hadded, Except.ok.injEq, Option.some.injEq] at h
          exact ⟨edited, added, rfl, rfl, h.symm⟩

theorem rewrite_eq_ok (h : rewrite original current intended = .ok text) :
    EditedInPlace original current intended ∧
        tryInPlace original current intended = .ok (some text) ∨
      ¬EditedInPlace original current intended ∧ fallback original intended = .ok text := by
  unfold rewrite at h
  unfold EditedInPlace
  cases hedit : tryInPlace original current intended with
  | error e => simp [hedit] at h
  | ok edited =>
    cases edited with
    | none => exact .inr ⟨by simp, by simpa [hedit] using h⟩
    | some edited =>
      simp only [hedit] at h
      split_ifs at h with hback
      · cases h
        exact .inl ⟨⟨_, rfl, hback⟩, rfl⟩
      · refine .inr ⟨?_, h⟩
        rintro ⟨text, heq, htext⟩
        cases heq
        exact hback htext

theorem not_mem_editEntry
    (h : editEntry current intended (current.diff intended) e = .ok (some piece))
    (he : ∀ line ∈ e.key :: e.fields, '\n' ∉ line) : ∀ line ∈ piece, '\n' ∉ line := by
  intro line hline
  obtain ⟨-, rfl | ⟨name, spec, rendered, -, hrendered, rfl | rfl⟩⟩ |
    ⟨-, rfl | ⟨name, spec, rendered, -, hrendered, rfl⟩⟩ := editEntry_eq_ok h
  · cases hline
  · exact not_mem_entryLines hrendered line hline
  · obtain rfl | hline := mem_cons.mp hline
    · exact he _ (.head _)
    · exact not_mem_entryLines hrendered line (mem_of_mem_drop hline)
  · exact he line hline
  · obtain hline | hline := mem_append.mp hline
    · exact not_mem_entryLines hrendered line (mem_of_mem_take hline)
    · exact he line (.tail _ hline)

theorem spared_sublist (h : editEntry current intended (current.diff intended) e = .ok (some piece))
    (hbehind : e.Reworked current intended → e.behind = []) :
    (e.spared current intended).Sublist piece := by
  unfold Entry.spared
  obtain ⟨hre, -⟩ | ⟨hkept, rfl | ⟨name, spec, rendered, -, -, rfl⟩⟩ := editEntry_eq_ok h
  · rw [if_pos hre, hbehind hre]
    exact nil_sublist piece
  · rw [if_neg hkept]
    exact List.Sublist.cons _ filter_sublist
  · rw [if_neg hkept]
    exact filter_sublist.trans (sublist_append_right _ _)

/-- Only the fields of an entry that is not reworked bring blank and comment lines along. -/
theorem looseLines_editEntry (hplain : PlainRender intended) (hkey : e.key.isEntryKey = true)
    (h : editEntry current intended (current.diff intended) e = .ok (some piece)) :
    looseLines piece = if e.Reworked current intended then [] else looseLines e.fields := by
  have hpart : ∀ {name spec rendered part}, intended.processes.get name = some spec →
      entryLines name spec = .ok rendered → part.Sublist rendered → looseLines part = [] := by
    intro name spec rendered part hspec hrendered hpart
    have hnone := hplain.entry name spec rendered hspec hrendered
    exact sublist_nil.mp (hnone ▸ List.Sublist.filter _ hpart)
  obtain ⟨hre, rfl | ⟨name, spec, rendered, hspec, hrendered, rfl | rfl⟩⟩ |
    ⟨hkept, rfl | ⟨name, spec, rendered, hspec, hrendered, rfl⟩⟩ := editEntry_eq_ok h
  · rw [if_pos hre]
    rfl
  · rw [if_pos hre]
    exact hpart hspec hrendered (List.Sublist.refl _)
  · rw [if_pos hre, looseLines_key hkey]
    exact hpart hspec hrendered (drop_sublist 1 rendered)
  · rw [if_neg hkept, looseLines_key hkey]
  · rw [if_neg hkept, looseLines_append, hpart hspec hrendered (take_sublist 1 rendered),
      nil_append]

/-- What `collect` adds for the added names is rendered. -/
theorem addEntry_eq_ok (h : addEntry intended name = .ok (some piece)) :
    ∃ spec, intended.processes.get name = some spec ∧ entryLines name spec = .ok piece := by
  unfold addEntry at h
  cases hspec : intended.processes.get name with
  | none => simp [hspec] at h
  | some spec =>
    cases hrendered : entryLines name spec with
    | error e => simp [hspec, hrendered, Except.map] at h
    | ok rendered =>
      simp only [hspec, hrendered, Except.map, Except.ok.injEq, Option.some.injEq] at h
      exact ⟨spec, rfl, h ▸ hrendered⟩

theorem textLines_inPlace (hblock : parseBlock original = some block)
    {edited added : List Line}
    (hedited : collect (editEntry current intended (current.diff intended)) block.entries =
      .ok (some edited))
    (hadded : collect (addEntry intended) (current.diff intended).added = .ok (some added))
    (htext : text = joinLines (block.head ++ edited ++ added ++ block.tail) original) :
    textLines text = block.head ++ edited ++ added ++ block.tail ++ ending original := by
  obtain ⟨hlines, -, rest, hhead⟩ := blockAt_lines (parseBlock_eq original ▸ hblock)
  have hfile : ∀ line ∈ fileLines original, '\n' ∉ line :=
    fun line hline => not_mem_textLines (mem_textLines_of_mem_fileLines hline)
  rw [← hlines] at hfile
  have hentry : ∀ e ∈ block.entries, ∀ line ∈ e.key :: e.fields, '\n' ∉ line := by
    intro e he line hline
    apply hfile line
    simp only [mem_append, mem_flatMap]
    exact .inl (.inr ⟨e, he, hline⟩)
  rw [htext, textLines_joinLines]
  · rw [hhead]
    simp
  · intro line hline
    simp only [mem_append] at hline hfile
    obtain ((hline | hline) | hline) | hline := hline
    · exact hfile line (.inl (.inl hline))
    · exact forall_mem_collected hedited
        (fun e he piece hpiece => not_mem_editEntry hpiece (hentry e he)) line hline
    · refine forall_mem_collected (P := fun line => '\n' ∉ line) hadded ?_ line hline
      intro name _ piece hpiece
      obtain ⟨spec, -, hrendered⟩ := addEntry_eq_ok hpiece
      exact not_mem_entryLines hrendered
    · exact hfile line (.inr hline)

/-- Nothing stands between a reworked entry and the next. -/
def Undivided (block : Block) (current intended : SoloYml) : Prop :=
  ∀ e ∈ block.entries, e.Reworked current intended → e.behind = []

instance (block : Block) (current intended : SoloYml) :
    Decidable (Undivided block current intended) :=
  inferInstanceAs (Decidable (∀ e ∈ block.entries, _ → _))

theorem keeps_inPlace (hblock : parseBlock original = some block)
    (h : tryInPlace original current intended = .ok (some text))
    (hundivided : Undivided block current intended) :
    Keeps original block current intended text := by
  obtain ⟨edited, added, hedited, hadded, htext⟩ := tryInPlace_eq_ok hblock h
  rw [Keeps, textLines_inPlace hblock hedited hadded htext, spared]
  have hentries : (block.entries.flatMap (Entry.spared current intended)).Sublist edited :=
    flatMap_sublist_collected hedited fun e he piece hpiece =>
      spared_sublist hpiece (hundivided e he)
  have hhead : (looseLines block.head).Sublist block.head := filter_sublist
  have htail : (looseLines block.tail).Sublist block.tail := filter_sublist
  have hbody := (hhead.append hentries).append (nil_sublist added)
  rw [append_nil] at hbody
  exact (hbody.append htail).append (List.Sublist.refl _)

/-- Whatever an in-place edit leaves behind a reworked entry is lost. -/
theorem undivided_of_keeps (hplain : PlainRender intended)
    (hblock : parseBlock original = some block)
    (h : tryInPlace original current intended = .ok (some text))
    (hkeeps : Keeps original block current intended text) : Undivided block current intended := by
  obtain ⟨edited, added, hedited, hadded, htext⟩ := tryInPlace_eq_ok hblock h
  obtain ⟨-, hkeys, -⟩ := blockAt_lines (parseBlock_eq original ▸ hblock)
  have hkept : looseLines edited = block.entries.flatMap fun e =>
      if e.Reworked current intended then [] else looseLines e.fields :=
    looseLines_collected hedited fun e he piece hpiece =>
      looseLines_editEntry hplain (hkeys e he) hpiece
  have hnew : looseLines added = [] := by
    rw [looseLines_collected (g := fun _ => []) hadded, flatMap_eq_nil_iff]
    · exact fun _ _ => rfl
    · intro name _ piece hpiece
      obtain ⟨spec, hspec, hrendered⟩ := addEntry_eq_ok hpiece
      exact hplain.entry name spec piece hspec hrendered
  have hlength := (keeps_iff.mp hkeeps).length_le
  rw [textLines_inPlace hblock hedited hadded htext] at hlength
  simp only [looseLines_append, looseLines_ending, hkept, hnew, spared, append_nil,
    List.length_append] at hlength
  intro e he hre
  have hshorter : ∀ e ∈ block.entries,
      (if e.Reworked current intended then [] else looseLines e.fields).length ≤
        (e.spared current intended).length := by
    intro e _
    unfold Entry.spared
    split_ifs
    · exact Nat.zero_le _
    · exact le_rfl
  have hle := length_le_of_flatMap_le hshorter (by omega) e he
  rw [Entry.spared, if_pos hre, if_pos hre, length_nil] at hle
  exact eq_nil_of_length_eq_zero (by omega)

theorem textLines_fallback (h : fallback original intended = .ok text) :
    ∃ body, Yaml.toString intended = .ok body ∧
      textLines text = leadingLines original ++ textLines body := by
  unfold fallback at h
  cases hbody : Yaml.toString intended with
  | error message => simp [hbody] at h
  | ok body =>
    simp only [hbody, Except.ok.injEq] at h
    refine ⟨body, rfl, ?_⟩
    have hleading : ∀ line ∈ leadingLines original, '\n' ∉ line :=
      fun line hline => not_mem_textLines ((takeWhile_sublist _).subset hline)
    rw [← h, textLines, String.toList_ofList, leadingCommentBlock]
    exact splitOn_commentBlock hleading body.toList

/-- A full render keeps what is spared when that is the leading lines, with at most the empty rest
behind a final line feed. -/
theorem keeps_fallback_iff (hplain : PlainRender intended)
    (hblock : parseBlock original = some block) (h : fallback original intended = .ok text) :
    Keeps original block current intended text ↔
      (sparedBelow original block current intended).Sublist [[]] := by
  obtain ⟨body, hbody, hlines⟩ := textLines_fallback h
  obtain ⟨rest, hrest⟩ := spared_eq_leading current intended hblock
  have hbelow : sparedBelow original block current intended = rest := by
    rw [sparedBelow, hrest, drop_left]
  have hleading : looseLines (leadingLines original) = leadingLines original := by
    rw [looseLines, filter_eq_self]
    exact fun line hline => mem_takeWhile_imp hline
  rw [keeps_iff, hrest, hlines, looseLines_append, hleading, hplain.whole body hbody, hbelow,
    append_sublist_append_left]

/-- A rewrite keeps the comments and blank lines it should where it edits in place and nothing
stands behind a reworked entry, or where the full render has nothing below the leading lines to
keep. Elsewhere some are lost. -/
theorem rewrite_keeps_exact {text : String} (hblock : parseBlock original = some block)
    (h : rewrite original current intended = .ok text) :
    (EditedInPlace original current intended → Undivided block current intended →
      Keeps original block current intended text) ∧
    (PlainRender intended → (Keeps original block current intended text ↔
      EditedInPlace original current intended ∧ Undivided block current intended ∨
        ¬EditedInPlace original current intended ∧
          (sparedBelow original block current intended).Sublist [[]])) := by
  obtain ⟨hplace, hedit⟩ | ⟨hplace, hfull⟩ := rewrite_eq_ok h
  · refine ⟨fun _ => keeps_inPlace hblock hedit, fun hplain => ⟨fun hkeeps => ?_, ?_⟩⟩
    · exact .inl ⟨hplace, undivided_of_keeps hplain hblock hedit hkeeps⟩
    · rintro (⟨-, hundivided⟩ | ⟨hnot, -⟩)
      · exact keeps_inPlace hblock hedit hundivided
      · exact absurd hplace hnot
  · refine ⟨fun hnot => absurd hnot hplace, fun hplain => ?_⟩
    rw [keeps_fallback_iff hplain hblock hfull]
    constructor
    · exact fun hbelow => .inr ⟨hplace, hbelow⟩
    · rintro (⟨hnot, -⟩ | ⟨-, hbelow⟩)
      · exact absurd hnot hplace
      · exact hbelow

end

def commentedText : String :=
  "processes:\n  web:\n    command: serve\n  # the API\n  api:\n    command: run\n"

def remainingText : String := "processes:\n  api:\n    command: run\n"

def apiConfig : SoloYml :=
  { SoloYml.default with
    processes := IndexMap.empty.insert "api" ⟨"run", none, true, false, [], []⟩ }

def bothConfig : SoloYml :=
  { SoloYml.default with
    processes :=
      (IndexMap.empty.insert "web" ⟨"serve", none, true, false, [], []⟩).insert "api"
        ⟨"run", none, true, false, [], []⟩ }

def commentedTexts : List (String × SoloYml) :=
  [(commentedText, bothConfig), (remainingText, apiConfig)]

/-- Two commands with a comment above the first and a blank line above the second. -/
def spacedText : String :=
  "processes:\n  # the site\n  web:\n    command: serve\n\n  api:\n    command: run\n"

def spacedRemainder : String := "processes:\n  # the site\n  web:\n    command: serve\n\n"

def spacedTexts : List (String × SoloYml) :=
  [(plainText, serveConfig []), (spacedText, bothConfig), (spacedRemainder, serveConfig [])]

theorem plainRender_spaced : letI := Yaml.ofTable spacedTexts; PlainRender (serveConfig []) := by
  let _ := Yaml.ofTable spacedTexts
  refine ⟨fun text h => ?_, fun name spec lines hspec h => ?_⟩
  · have htext : Yaml.toString (serveConfig []) = .ok plainText := by decide
    rw [htext] at h
    cases h
    decide
  · have hentry := IndexMap.get_eq_some.mp hspec
    change (name, spec) ∈ [("web", _)] at hentry
    obtain ⟨rfl, rfl⟩ := Prod.mk.inj (mem_singleton.mp hentry)
    have hlines : entryLines "web" ⟨"serve", none, true, false, [], []⟩ =
        .ok ["  web:".toList, "    command: serve".toList] := by decide
    rw [hlines] at h
    cases h
    decide

/-- Removing the last command keeps the comment and the blank line. -/
theorem rewrite_keeps_spaced :
    letI := Yaml.ofTable spacedTexts
    rewrite spacedText bothConfig (serveConfig []) = .ok spacedRemainder ∧
      ∃ block, parseBlock spacedText = some block ∧
        Keeps spacedText block bothConfig (serveConfig []) spacedRemainder := by
  let _ := Yaml.ofTable spacedTexts
  have hrewrite : rewrite spacedText bothConfig (serveConfig []) = .ok spacedRemainder := by decide
  have hplace : EditedInPlace spacedText bothConfig (serveConfig []) :=
    ⟨spacedRemainder, by decide, by decide⟩
  obtain ⟨block, hblock, hundivided⟩ := (Option.any_eq_true
    (fun block => Undivided block bothConfig (serveConfig [])) (parseBlock spacedText)).mp
      (by decide)
  have hundivided := of_decide_eq_true hundivided
  exact ⟨hrewrite, block, hblock, ((rewrite_keeps_exact hblock hrewrite).2 plainRender_spaced).mpr
    (.inl ⟨hplace, hundivided⟩)⟩

/-- Removing a command loses the comment above the command behind it. -/
theorem removal_loses_comment :
    letI := Yaml.ofTable commentedTexts
    parse commentedText = .ok bothConfig ∧
      rewrite commentedText bothConfig apiConfig = .ok remainingText ∧
      ∃ block, parseBlock commentedText = some block ∧
        ¬Keeps commentedText block bothConfig apiConfig remainingText := by
  let _ := Yaml.ofTable commentedTexts
  refine ⟨by decide, by decide, ?_⟩
  obtain ⟨block, hblock, hlost⟩ := (Option.any_eq_true
    (fun block => ¬Keeps commentedText block bothConfig apiConfig remainingText)
    (parseBlock commentedText)).mp (by decide)
  exact ⟨block, hblock, of_decide_eq_true hlost⟩

end Soloist
