import Soloist.Text
import Soloist.TextLines

/-! The theme override in the frontmatter of a diagram's source. -/
open List Option

namespace Soloist
open TextLines

inductive DiagramTheme
  | base | dark | forest | neutral
  deriving DecidableEq

namespace DiagramTheme

def values : List DiagramTheme := [base, dark, forest, neutral]

def text : DiagramTheme → List Char
  | base => "base".toList
  | dark => "dark".toList
  | forest => "forest".toList
  | neutral => "neutral".toList

end DiagramTheme

namespace Frontmatter
export TextLines (Line)

def blank (c : Char) : Bool := c = ' ' || c = '\t'

/-- What `\s` matches and `trim` drops. -/
def isSpace (c : Char) : Bool := isWhitespace c && c ≠ '\u0085' || c = '\ufeff'

/-- Behind `\r?\n`. -/
def newline : List Char → Option (List Char)
  | '\n' :: s => some s
  | '\r' :: '\n' :: s => some s
  | _ => none

def bar : Line := ['-', '-', '-']

/-- Behind `---[ \t]*`. -/
def fence (s : List Char) : Option (List Char) :=
  if bar <+: s then some ((s.drop 3).dropWhile blank) else none

/-- Behind `\r?\n---[ \t]*(?:\r?\n|$)`. -/
def closing (s : List Char) : Option (List Char) := do
  let s ← newline s
  let s ← fence s
  if s = [] then some [] else newline s

/-- The shortest text before the closing fence, and what is behind the fence. -/
def inner : List Char → Option (List Char × List Char)
  | [] => none
  | c :: s =>
    match closing (c :: s) with
    | some body => some ([], body)
    | none => (inner s).map fun m => (c :: m.1, m.2)

structure Split where
  yaml : Option (List Line)
  body : List Char

def split (source : List Char) : Split :=
  match ((fence source).bind newline).bind inner with
  | none => ⟨none, source⟩
  | some (content, body) => ⟨some (lines content), body⟩

def join (yaml : List Line) (body : List Char) : List Char :=
  if yaml = [] then body else unlines (bar :: yaml ++ [bar]) ++ body

/-- `/^config:[ \t]*$/` -/
def configKey (line : Line) : Bool :=
  "config:".toList.isPrefixOf line && (line.drop 7).all blank

/-- `/^[ \t]+theme:[ \t]*(\S+)[ \t]*$/`, with what it captures. -/
def themeEntry (line : Line) : Option (List Char) :=
  let rest := line.dropWhile blank
  let value := ((rest.drop 6).dropWhile blank).rdropWhile blank
  if line.head?.any blank && "theme:".toList.isPrefixOf rest && value ≠ [] && value.all (!isSpace ·)
  then some value else none

/-- The entries are the range of the block, up to the first line that is neither blank nor indented. -/
structure ConfigBlock where
  before : List Line
  key : Line
  entries : List Line
  after : List Line

def indented (line : Line) : Bool := line.all isSpace || line.head?.any blank

def configBlock (yaml : List Line) : Option ConfigBlock :=
  (cut configKey yaml).map fun c =>
    ⟨c.1, c.2.1, c.2.2.takeWhile indented, c.2.2.dropWhile indented⟩

def ConfigBlock.theme (b : ConfigBlock) : Option (List Line × Line × List Line) :=
  cut (fun line => (themeEntry line).isSome) b.entries

def isDiagramTheme (value : List Char) : Option DiagramTheme :=
  DiagramTheme.values.find? fun t => t.text = value

def themeOf (yaml : List Line) : Option DiagramTheme := do
  let b ← configBlock yaml
  let (_, line, _) ← b.theme
  isDiagramTheme (← themeEntry line)

def readDiagramTheme (source : List Char) : Option DiagramTheme :=
  (split source).yaml.bind themeOf

def config : Line := "config:".toList

def entry (theme : DiagramTheme) : Line := "  theme: ".toList ++ theme.text

def withTheme (theme : DiagramTheme) (yaml : List Line) : List Line :=
  match configBlock yaml with
  | none => yaml ++ [config, entry theme]
  | some b =>
    match b.theme with
    | none => b.before ++ b.key :: entry theme :: (b.entries ++ b.after)
    | some (above, _, below) => b.before ++ b.key :: (above ++ entry theme :: (below ++ b.after))

def withoutTheme (yaml : List Line) : Option (List Line) := do
  let b ← configBlock yaml
  let (above, _, below) ← b.theme
  some (b.before ++ (if b.entries.length = 1 then [] else [b.key]) ++ (above ++ below ++ b.after))

def setDiagramTheme (source : List Char) : Option DiagramTheme → List Char
  | none =>
    match (split source).yaml.bind withoutTheme with
    | none => source
    | some next => join next (split source).body
  | some theme =>
    match (split source).yaml with
    | none => join [config, entry theme] (split source).body
    | some yaml => join (withTheme theme yaml) (split source).body

def indentation (entries : List Line) : ℕ :=
  ((entries.find? fun line => !(line.all isSpace || (line.dropWhile blank).head? = some '#')).map
    fun line => (line.takeWhile blank).length).getD 0

/-- A `theme` of the block itself stands no deeper than the block's first entry does. -/
def own (entries : List Line) (line : Line) : Bool :=
  (themeEntry line).isSome && (line.takeWhile blank).length ≤ indentation entries

/-- The lines of a frontmatter but for the `config` key and its own `theme`. -/
def others (yaml : List Line) : List Line :=
  match configBlock yaml with
  | none => yaml
  | some b =>
    b.before ++ (match cut (own b.entries) b.entries with
      | none => b.entries
      | some (above, _, below) => above ++ below) ++ b.after

def front (source : List Char) : List Line :=
  match (split source).yaml with
  | none => []
  | some yaml => (lines source).take (yaml.length + 2)

/-- A theme is set in the frontmatter. -/
def Overridden (source : List Char) : Prop :=
  ∃ yaml b line, (split source).yaml = some yaml ∧ configBlock yaml = some b ∧ line ∈ b.entries ∧
    own b.entries line = true

/-- What makes the override a lens on a source. -/
structure Lawful (source : List Char) : Prop where
  readSet : ∀ t, readDiagramTheme (setDiagramTheme source (some t)) = some t
  setSet : ∀ t u, setDiagramTheme (setDiagramTheme source (some t)) (some u) =
    setDiagramTheme source (some u)
  setRead : ∀ t, readDiagramTheme source = some t → ∃ above line below,
    front source = above ++ line :: below ∧ themeEntry line = some t.text ∧
    front (setDiagramTheme source (some t)) = above ++ entry t :: below
  clearSet : ∀ t, ¬Overridden source →
    front (setDiagramTheme (setDiagramTheme source (some t)) none) = front source ∧
    (split (setDiagramTheme (setDiagramTheme source (some t)) none)).body = (split source).body
  body : ∀ t, (split (setDiagramTheme source (some t))).body = (split source).body
  keptSet : ∀ t, ∃ text, setDiagramTheme source (some t) = text ++ (split source).body ∧
    ((front source).head?.toList ++ others ((split source).yaml.getD []) ++
      (front source).getLast?.toList).Sublist (lines text)
  keptClear : ∃ text, setDiagramTheme source none = text ++ (split source).body ∧
    (others ((split source).yaml.getD [])).Sublist (lines text)

def isFence (l : Line) : Bool := fence l = some [] || fence l = some ['\r']

variable {l last s body : List Char} {ls yaml : List Line} {c : Char}

theorem fence_append (hc : blank c = false) (hbar : c ≠ '-') :
    fence (l ++ c :: s) = (fence l).map (· ++ c :: s) := by
  have hlead : bar <+: l ++ c :: s ↔ bar <+: l := by
    rcases l with _ | ⟨x, _ | ⟨y, _ | ⟨z, l⟩⟩⟩ <;>
      simp [bar, cons_prefix_cons, Ne.symm hbar]
  by_cases h : bar <+: l
  · have hlength : 3 ≤ l.length := h.length_le
    have hdrop : (c :: s).dropWhile blank = c :: s := by simp [hc]
    rw [fence, fence, if_pos h, if_pos (hlead.mpr h), drop_append_of_le_length hlength,
      dropWhile_append, hdrop]
    cases (l.drop 3).dropWhile blank <;> rfl
  · rw [fence, fence, if_neg h, if_neg (mt hlead.mp h)]
    rfl

theorem fence_suffix {r : List Char} (h : fence l = some r) : r <:+ l := by
  unfold fence at h
  split_ifs at h
  cases h
  exact (dropWhile_suffix _).trans (drop_suffix _ _)

theorem not_mem_fence {r : List Char} (hl : '\n' ∉ l) (h : fence l = some r) : '\n' ∉ r :=
  fun hmem => hl ((fence_suffix h).subset hmem)

theorem newline_append (hl : '\n' ∉ l) :
    newline (l ++ '\n' :: s) = if l = [] ∨ l = ['\r'] then some s else none := by
  rcases l with _ | ⟨c, _ | ⟨d, l⟩⟩
  · rfl
  · by_cases hc : c = '\r'
    · subst hc
      rfl
    · have hn : c ≠ '\n' := by simpa [eq_comm] using hl
      simp [newline, hc, hn]
  · obtain ⟨hc, hd, -⟩ : c ≠ '\n' ∧ d ≠ '\n' ∧ '\n' ∉ l := by simpa [eq_comm] using hl
    simp [newline, hc, hd]

theorem newline_none (hl : '\n' ∉ l) : newline l = none := by
  rcases l with _ | ⟨c, _ | ⟨d, l⟩⟩
  · rfl
  · have hn : c ≠ '\n' := by simpa [eq_comm] using hl
    simp [newline, hn]
  · obtain ⟨hc, hd, -⟩ : c ≠ '\n' ∧ d ≠ '\n' ∧ '\n' ∉ l := by simpa [eq_comm] using hl
    simp [newline, hc, hd]

theorem fence_bind (hl : '\n' ∉ l) :
    (fence (l ++ '\n' :: s)).bind newline = if isFence l then some s else none := by
  rw [fence_append (by decide) (by decide), isFence]
  cases h : fence l with
  | none => rfl
  | some r => simp [newline_append (not_mem_fence hl h)]

theorem closing_cons :
    closing ('\n' :: s) = (fence s).bind fun s => if s = [] then some [] else newline s := rfl

variable (hl : '\n' ∉ l)
include hl

theorem closing_append :
    closing ('\n' :: (l ++ '\n' :: s)) = if isFence l then some s else none := by
  rw [← fence_bind hl, closing_cons, fence_append (by decide) (by decide)]
  cases fence l <;> simp

theorem closing_last :
    closing ('\n' :: l) = if fence l = some [] then some [] else none := by
  rw [closing_cons]
  cases h : fence l with
  | none => rfl
  | some r =>
    by_cases hr : r = []
    · simp [hr]
    · simp [hr, newline_none (not_mem_fence hl h)]

theorem inner_append : inner (l ++ '\n' :: s) =
    match closing ('\n' :: s) with
    | some body => some (chop l, body)
    | none => (inner s).map fun m => (l ++ '\n' :: m.1, m.2) := by
  induction l with
  | nil =>
    rw [nil_append, inner]
    rfl
  | cons c l ih =>
    obtain ⟨hc, hl⟩ : c ≠ '\n' ∧ '\n' ∉ l := by simpa [eq_comm] using hl
    cases l with
    | nil =>
      by_cases hcr : c = '\r'
      · subst hcr
        have hsame : closing ('\r' :: '\n' :: s) = closing ('\n' :: s) := rfl
        rw [singleton_append, inner, hsame]
        cases h : closing ('\n' :: s) with
        | some body => rfl
        | none => simp [inner, h, Function.comp_def]
      · have hnone : closing (c :: '\n' :: s) = none := by simp [closing, newline, hc, hcr]
        have hchop : chop [c] = [c] := if_neg (by simp [suffix_cons_iff, Ne.symm hcr])
        rw [singleton_append, inner, hnone]
        cases h : closing ('\n' :: s) with
        | some body => simp [inner, h, hchop]
        | none => simp [inner, h, Function.comp_def]
    | cons d l =>
      have hd : d ≠ '\n' := by
        rintro rfl
        exact hl (.head _)
      have hnone : closing (c :: (d :: l ++ '\n' :: s)) = none := by simp [closing, newline, hc, hd]
      rw [cons_append, inner, hnone, ih hl, chop_cons (cons_ne_nil d l)]
      cases h : closing ('\n' :: s) with
      | some body => rfl
      | none => simp [Function.comp_def]

theorem inner_none : inner l = none := by
  induction l with
  | nil => rfl
  | cons c l ih =>
    have hnone : closing (c :: l) = none := by simp [closing, newline_none hl]
    rw [inner, hnone, ih fun h => hl (.tail _ h)]
    rfl

/-- The frontmatter of a text by its lines: the first fence behind the first line closes it. -/
theorem inner_unlines (hls : ∀ m ∈ ls, '\n' ∉ m) (hlast : '\n' ∉ last) :
    (inner (unlines (l :: ls) ++ last)).map (fun m => (lines m.1, m.2)) =
      match ls.dropWhile (!isFence ·) with
      | _ :: below => some ((l :: ls.takeWhile (!isFence ·)).map chop, unlines below ++ last)
      | [] => if fence last = some [] then some ((l :: ls).map chop, []) else none := by
  have hchop : ∀ {l : Line}, '\n' ∉ l → lines (chop l) = [chop l] :=
    fun hl => lines_single (not_mem_chop hl)
  induction ls generalizing l with
  | nil =>
    have htext : unlines [l] ++ last = l ++ '\n' :: last := by simp [unlines]
    rw [htext, inner_append hl, closing_last hlast, inner_none hlast]
    split_ifs
    · simp [hchop hl]
    · simp
  | cons m ls ih =>
    obtain ⟨hm, hls⟩ := forall_mem_cons.mp hls
    have htext : unlines (l :: m :: ls) ++ last = l ++ '\n' :: (unlines (m :: ls) ++ last) := by simp
    have hnext : unlines (m :: ls) ++ last = m ++ '\n' :: (unlines ls ++ last) := by simp
    have hclosing : closing ('\n' :: (unlines (m :: ls) ++ last)) =
        if isFence m then some (unlines ls ++ last) else none := by
      rw [hnext, closing_append hm]
    rw [htext, inner_append hl, hclosing]
    by_cases h : isFence m = true
    · simp [h, hchop hl]
    · have hrest := ih hm hls
      rw [if_neg h, dropWhile_cons_of_pos (by simp [h]), takeWhile_cons_of_pos (by simp [h])]
      have hmap : (inner (unlines (m :: ls) ++ last)).map (fun m => (lines (l ++ '\n' :: m.1), m.2)) =
          ((inner (unlines (m :: ls) ++ last)).map (fun m => (lines m.1, m.2))).map
            fun m => (chop l :: m.1, m.2) := by
        simp [lines_append hl, Function.comp_def]
      have hgoal := hmap.trans (congrArg _ hrest)
      cases hafter : ls.dropWhile (!isFence ·) with
      | nil =>
        rw [hafter] at hgoal
        by_cases hlast' : fence last = some [] <;> simpa [hlast', Function.comp_def] using hgoal
      | cons f below =>
        rw [hafter] at hgoal
        simpa [Function.comp_def] using hgoal

omit hl

structure Fenced (source : List Char) (yaml : List Line) (body : List Char) (opening closing : Line) :
    Prop where
  fences : isFence opening = true ∧ isFence closing = true
  ended : source = unlines (opening :: yaml ++ [closing]) ++ body ∨
    source = unlines (opening :: yaml) ++ closing ∧ fence closing = some [] ∧ body = []
  nonempty : yaml ≠ []
  plain : ∀ l ∈ opening :: closing :: yaml, '\n' ∉ l
  first : ∀ l ∈ yaml.tail, isFence l = false

theorem split_append {opening : Line} (ho : '\n' ∉ opening) : split (opening ++ '\n' :: s) =
    match if isFence opening then (inner s).map fun m => (lines m.1, m.2) else none with
    | none => ⟨none, opening ++ '\n' :: s⟩
    | some (yaml, body) => ⟨some yaml, body⟩ := by
  rw [split, fence_bind ho]
  by_cases h : isFence opening = true
  · cases hinner : inner s <;> simp [h, hinner]
  · simp [h]

theorem Fenced.split {opening closing : Line} (h : Fenced s yaml body opening closing) :
    split s = ⟨some (yaml.map chop), body⟩ := by
  obtain ⟨l, ls, rfl⟩ := exists_cons_of_ne_nil h.nonempty
  obtain ⟨ho, hc, hl, hls⟩ : '\n' ∉ opening ∧ '\n' ∉ closing ∧ '\n' ∉ l ∧ ∀ m ∈ ls, '\n' ∉ m := by
    simpa using h.plain
  have hfirst : ∀ m ∈ ls, (!isFence m) = true := fun m hm => by simpa using h.first m hm
  rcases h.ended with hs | ⟨hs, hlast, rfl⟩
  · obtain ⟨below, last, hbelow, hlast, rfl⟩ := exists_unlines body
    have htext : s = opening ++ '\n' :: (unlines (l :: (ls ++ closing :: below)) ++ last) := by
      simp [hs, unlines]
    have hplain : ∀ m ∈ ls ++ closing :: below, '\n' ∉ m := by
      simpa [or_imp, forall_and] using ⟨hls, hc, hbelow⟩
    have hinner := inner_unlines hl hplain hlast
    rw [dropWhile_append_of_pos hfirst, takeWhile_append_of_pos hfirst,
      dropWhile_cons_of_neg (by simp [h.fences.2]),
      takeWhile_cons_of_neg (by simp [h.fences.2]), append_nil] at hinner
    rw [htext, split_append ho, if_pos h.fences.1, hinner]
  · have htext : s = opening ++ '\n' :: (unlines (l :: ls) ++ closing) := by simp [hs]
    have hinner := inner_unlines hl hls hc
    rw [dropWhile_eq_nil_iff.mpr hfirst, if_pos hlast] at hinner
    rw [htext, split_append ho, if_pos h.fences.1, hinner]

theorem fenced_of_split (h : split s = ⟨some yaml, body⟩) :
    ∃ opening raw closing, Fenced s raw body opening closing ∧ yaml = raw.map chop := by
  obtain ⟨ls, last, hls, hlast, rfl⟩ := exists_unlines s
  rcases ls with _ | ⟨opening, _ | ⟨l, ls⟩⟩
  · have hnone : (fence last).bind newline = none := by
      cases hf : fence last with
      | none => rfl
      | some r => exact newline_none (not_mem_fence hlast hf)
    simp [split, unlines, hnone] at h
  · have htext : unlines [opening] ++ last = opening ++ '\n' :: last := by simp [unlines]
    rw [htext, split_append (hls opening (by simp)), inner_none hlast] at h
    simp at h
  · obtain ⟨ho, hl, hls⟩ : '\n' ∉ opening ∧ '\n' ∉ l ∧ ∀ m ∈ ls, '\n' ∉ m := by simpa using hls
    have htext : unlines (opening :: l :: ls) ++ last =
        opening ++ '\n' :: (unlines (l :: ls) ++ last) := by simp
    rw [htext, split_append ho, inner_unlines hl hls hlast] at h
    by_cases hopen : isFence opening = true
    · cases hafter : ls.dropWhile (!isFence ·) with
      | nil =>
        have hfirst := dropWhile_eq_nil_iff.mp hafter
        by_cases hend : fence last = some []
        · obtain ⟨rfl, rfl⟩ : (l :: ls).map chop = yaml ∧ [] = body := by
            simpa [hopen, hafter, hend] using h
          exact ⟨opening, l :: ls, last, ⟨⟨hopen, by simp [isFence, hend]⟩, .inr ⟨rfl, hend, rfl⟩,
            by simp, by simpa using ⟨ho, hlast, hl, hls⟩, fun m hm => by simpa using hfirst m hm⟩, rfl⟩
        · simp [hopen, hafter, hend] at h
      | cons closing below =>
        obtain ⟨rfl, rfl⟩ : (l :: ls.takeWhile (!isFence ·)).map chop = yaml ∧
            unlines below ++ last = body := by simpa [hopen, hafter] using h
        have hparts := takeWhile_append_dropWhile (p := (!isFence ·)) (l := ls)
        have hstop := head?_dropWhile_not (!isFence ·) ls
        rw [hafter] at hparts hstop
        have hclose : isFence closing = true := by simpa using hstop
        have hmem : ∀ m ∈ closing :: ls.takeWhile (!isFence ·), '\n' ∉ m := by
          intro m hm
          refine hls m (hparts ▸ ?_)
          rcases mem_cons.mp hm with rfl | hm
          · simp
          · exact mem_append_left _ hm
        have hplain := forall_mem_cons.mp hmem
        refine ⟨opening, l :: ls.takeWhile (!isFence ·), closing, ⟨⟨hopen, hclose⟩, .inl ?_, by simp,
          ?_, fun m hm => by simpa using mem_takeWhile_imp hm⟩, rfl⟩
        · have hls : unlines ls = unlines (ls.takeWhile (!isFence ·)) ++ unlines (closing :: below) := by
            conv_lhs => rw [← hparts]
            simp [unlines]
          rw [unlines_cons, unlines_cons, hls]
          simp [unlines]
        · simpa using ⟨ho, hplain.1, hl, hplain.2⟩
    · simp [hopen] at h

/-- Lines that a frontmatter of them has again. -/
structure Clean (yaml : List Line) : Prop where
  plain : ∀ l ∈ yaml, '\n' ∉ l ∧ ¬['\r'] <:+ l
  first : ∀ l ∈ yaml.tail, isFence l = false

variable {L R : List Line} {t u : DiagramTheme} {b : ConfigBlock}

theorem Clean.sublist (h : Clean yaml) (hls : ls.Sublist yaml) : Clean ls :=
  ⟨fun l hl => h.plain l (hls.subset hl), fun l hl => h.first l (hls.tail.subset hl)⟩

theorem Clean.insert (h : Clean (L ++ R)) (hL : L ≠ []) (hl : '\n' ∉ l ∧ ¬['\r'] <:+ l)
    (hfence : isFence l = false) : Clean (L ++ l :: R) := by
  obtain ⟨hplain, hfirst⟩ := h
  rw [tail_append_of_ne_nil hL] at hfirst
  constructor
  · simp only [mem_append, mem_cons] at hplain ⊢
    rintro m (hm | rfl | hm)
    · exact hplain m (.inl hm)
    · exact hl
    · exact hplain m (.inr hm)
  · rw [tail_append_of_ne_nil hL]
    simp only [mem_append, mem_cons] at hfirst ⊢
    rintro m (hm | rfl | hm)
    · exact hfirst m (.inl hm)
    · exact hfence
    · exact hfirst m (.inr hm)

theorem map_chop (h : ∀ l ∈ ls, ¬['\r'] <:+ l) : ls.map chop = ls :=
  (map_congr_left fun l hl => (if_neg (h l hl) : chop l = id l)).trans (List.map_id ls)

theorem Fenced.front {opening closing : Line} (h : Fenced s yaml body opening closing) :
    front s = chop opening :: yaml.map chop ++ [chop closing] := by
  have hls : ∀ l ∈ opening :: yaml ++ [closing], '\n' ∉ l := by
    simpa [or_imp, forall_and, and_assoc, and_comm, and_left_comm] using h.plain
  rw [Frontmatter.front, h.split]
  dsimp only
  rcases h.ended with hs | ⟨hs, hlast, -⟩
  · rw [hs, lines_unlines hls, take_left' (by simp)]
    simp
  · have hchop : chop closing = closing := by
      refine if_neg ?_
      rintro ⟨l, rfl⟩
      rw [fence_append (by decide) (by decide)] at hlast
      simp at hlast
    have hls' : ∀ l ∈ opening :: yaml, '\n' ∉ l := fun l hl => hls l (mem_append_left _ hl)
    rw [hs, lines_unlines hls', lines_single (hls closing (by simp)), hchop]
    simp

theorem Fenced.text {opening closing : Line} (h : Fenced s yaml body opening closing) :
    ∃ text, s = text ++ body ∧ (yaml.map chop).Sublist (lines text) := by
  have hls : ∀ l ∈ opening :: yaml, '\n' ∉ l := fun l hl => h.plain l (by
    rcases mem_cons.mp hl with rfl | hl <;> simp [*])
  have hlines : ∀ text, (yaml.map chop).Sublist (lines (unlines (opening :: yaml) ++ text)) := by
    intro text
    rw [lines_unlines hls]
    exact (sublist_cons_self _ _).trans (sublist_append_left _ _)
  rcases h.ended with hs | ⟨hs, -, rfl⟩
  · exact ⟨unlines (opening :: yaml) ++ unlines [closing], by simp [hs, unlines], hlines _⟩
  · exact ⟨unlines (opening :: yaml) ++ closing, by simp [hs], hlines _⟩

theorem Clean.fenced (h : Clean yaml) (hne : yaml ≠ []) : Fenced (join yaml body) yaml body bar bar where
  fences := by decide
  ended := .inl (if_neg hne)
  nonempty := hne
  plain := by simpa [bar] using fun l hl => (h.plain l hl).1
  first := h.first

theorem Clean.split (h : Clean yaml) (hne : yaml ≠ []) :
    split (join yaml body) = ⟨some yaml, body⟩ := by
  rw [(h.fenced hne).split, map_chop fun l hl => (h.plain l hl).2]

theorem Clean.front (h : Clean yaml) (hne : yaml ≠ []) :
    front (join yaml body) = bar :: yaml ++ [bar] := by
  rw [(h.fenced hne).front, map_chop fun l hl => (h.plain l hl).2]
  rfl

theorem clean_of_split (h : split s = ⟨some yaml, body⟩) (hcr : ∀ l ∈ yaml, ¬['\r'] <:+ l) :
    Clean yaml := by
  obtain ⟨opening, raw, closing, hs, rfl⟩ := fenced_of_split h
  refine ⟨fun l hl => ⟨?_, hcr l hl⟩, fun l hl => ?_⟩
  · obtain ⟨m, hm, rfl⟩ := List.mem_map.mp hl
    exact not_mem_chop (hs.plain m (by simp [hm]))
  · have hl' := hcr l (mem_of_mem_tail hl)
    rw [← map_tail] at hl
    obtain ⟨m, hm, rfl⟩ := List.mem_map.mp hl
    have hfirst := hs.first m hm
    -- a line that is no fence with its carriage return is none without it
    by_contra hfence
    rw [Bool.not_eq_false] at hfence
    unfold chop at hl' hfence
    split_ifs at hl' hfence with hm'
    · obtain ⟨l, rfl⟩ := hm'
      rw [dropLast_concat] at hl' hfence
      rcases Bool.or_eq_true_iff.mp hfence with hl | hl
      · simp [isFence, fence_append (l := l) (c := '\r') (s := []) (by decide) (by decide),
          of_decide_eq_true hl] at hfirst
      · exact hl' (fence_suffix (of_decide_eq_true hl))
    · rw [hfirst] at hfence
      cases hfence

theorem entry_facts (t : DiagramTheme) : themeEntry (entry t) = some t.text ∧
    indented (entry t) = true ∧ isDiagramTheme t.text = some t ∧
    ('\n' ∉ entry t ∧ ¬['\r'] <:+ entry t) ∧ isFence (entry t) = false := by
  cases t <;> decide

/-- The place of the theme: the lines above the block's key, and below it. -/
structure Spot (before : List Line) (key : Line) (above : List Line) : Prop where
  before : ∀ l ∈ before, configKey l = false
  key : configKey key = true
  above : ∀ l ∈ above, indented l = true ∧ themeEntry l = none

namespace Spot
variable {before above : List Line} {key : Line} (h : Spot before key above)
include h

theorem block : configBlock (before ++ key :: (above ++ entry t :: R)) =
    some ⟨before, key, above ++ entry t :: R.takeWhile indented, R.dropWhile indented⟩ := by
  obtain ⟨-, hindented, -⟩ := entry_facts t
  have hpos : ∀ l ∈ above, indented l = true := fun l hl => (h.above l hl).1
  rw [configBlock, cut_append h.before h.key, map_some,
    takeWhile_append_of_pos hpos, dropWhile_append_of_pos hpos,
    takeWhile_cons_of_pos hindented, dropWhile_cons_of_pos hindented]

theorem theme : cut (fun line => (themeEntry line).isSome)
    (above ++ entry t :: R.takeWhile indented) = some (above, entry t, R.takeWhile indented) :=
  cut_append (fun l hl => by simp [(h.above l hl).2]) (by simp [(entry_facts t).1])

theorem read : themeOf (before ++ key :: (above ++ entry t :: R)) = some t := by
  obtain ⟨htheme, -, hread, -⟩ := entry_facts t
  simp [themeOf, h.block, ConfigBlock.theme, h.theme, htheme, hread]

theorem write : withTheme u (before ++ key :: (above ++ entry t :: R)) =
    before ++ key :: (above ++ entry u :: R) := by
  simp [withTheme, h.block, ConfigBlock.theme, h.theme]

theorem clear : withoutTheme (before ++ key :: (above ++ entry t :: R)) =
    some (before ++ (if above = [] ∧ R.takeWhile indented = [] then [] else [key]) ++
      (above ++ R)) := by
  have hlength : (above ++ entry t :: R.takeWhile indented).length = 1 ↔
      above = [] ∧ R.takeWhile indented = [] := by
    rw [List.length_append, length_cons, ← length_eq_zero_iff, ← length_eq_zero_iff]
    omega
  simp only [withoutTheme, h.block, ConfigBlock.theme, h.theme, hlength, append_assoc,
    takeWhile_append_dropWhile, bind_eq_bind, bind_some]

end Spot

theorem configBlock_eq (h : configBlock yaml = some b) :
    yaml = b.before ++ b.key :: (b.entries ++ b.after) ∧ (∀ l ∈ b.before, configKey l = false) ∧
      configKey b.key = true ∧ (∀ l ∈ b.entries, indented l = true) ∧
      (b.after.takeWhile indented = [] ∧ b.after.dropWhile indented = b.after) := by
  obtain ⟨⟨before, key, rest⟩, hcut, rfl⟩ := map_eq_some_iff.mp h
  obtain ⟨rfl, hbefore, hkey⟩ := cut_eq_some hcut
  have hafter := head?_dropWhile_not indented rest
  refine ⟨by simp, hbefore, hkey, fun l hl => mem_takeWhile_imp hl, ?_⟩
  dsimp only
  cases hrest : rest.dropWhile indented with
  | nil => simp
  | cons l after =>
    rw [hrest] at hafter
    have hl : indented l = false := by simpa using hafter
    simp [hl]

/-- Where the theme goes: into a block of its own, above what the block has, or over its theme. -/
inductive Place (yaml : List Line) : List Line → Line → List Line → List Line → Prop
  | new (hblock : configBlock yaml = none) : Place yaml yaml config [] []
  | first (b : ConfigBlock) (hblock : configBlock yaml = some b) (htheme : b.theme = none) :
      Place yaml b.before b.key [] (b.entries ++ b.after)
  | over (b : ConfigBlock) (above : List Line) (line : Line) (below : List Line)
      (hblock : configBlock yaml = some b) (htheme : b.theme = some (above, line, below)) :
      Place yaml b.before b.key above (below ++ b.after)

theorem withTheme_spot (yaml : List Line) : ∃ before key above R, Spot before key above ∧
    (∀ t, withTheme t yaml = before ++ key :: (above ++ entry t :: R)) ∧
    Place yaml before key above R := by
  cases hblock : configBlock yaml with
  | none =>
    have hnone : ∀ l ∈ yaml, configKey l = false := by
      simpa [configBlock, cut_eq_none] using hblock
    exact ⟨yaml, config, [], [], ⟨hnone, by decide, by simp⟩, fun t => by simp [withTheme, hblock],
      .new hblock⟩
  | some b =>
    obtain ⟨-, hbefore, hkey, hentries, -⟩ := configBlock_eq hblock
    cases htheme : b.theme with
    | none =>
      exact ⟨b.before, b.key, [], b.entries ++ b.after, ⟨hbefore, hkey, by simp⟩,
        fun t => by simp [withTheme, hblock, htheme], .first b hblock htheme⟩
    | some c =>
      obtain ⟨above, line, below⟩ := c
      obtain ⟨hsplit, habove, -⟩ := cut_eq_some htheme
      refine ⟨b.before, b.key, above, below ++ b.after,
        ⟨hbefore, hkey, fun l hl => ⟨hentries l (by simp [hsplit, hl]), by simpa using habove l hl⟩⟩,
        fun t => by simp [withTheme, hblock, htheme], .over b above line below hblock htheme⟩

theorem setDiagramTheme_some : setDiagramTheme s (some t) =
    join (withTheme t ((split s).yaml.getD [])) (split s).body := by
  rw [setDiagramTheme]
  cases (split s).yaml <;> rfl

/-- The lines of a sound frontmatter stay clean around the theme. -/
theorem clean_withTheme (h : Clean yaml) (t : DiagramTheme) : Clean (withTheme t yaml) := by
  obtain ⟨before, key, above, R, -, hwith, hplace⟩ := withTheme_spot yaml
  obtain ⟨-, -, -, hplain, hfence⟩ := entry_facts t
  have hclean : Clean ((before ++ key :: above) ++ R) := by
    rcases hplace with hblock | ⟨b, hblock, htheme⟩ | ⟨b, above, line, below, hblock, htheme⟩
    · rw [append_nil]
      by_cases hne : yaml = []
      · subst hne
        exact ⟨by decide, by decide⟩
      · exact Clean.insert (by simpa using h) hne (by decide) (by decide)
    · have hyaml := (configBlock_eq hblock).1
      simpa [← hyaml] using h
    · refine h.sublist ?_
      rw [(configBlock_eq hblock).1, (cut_eq_some htheme).1]
      simp
  simpa [hwith] using hclean.insert (by simp) hplain hfence

/-- What the frontmatter is to be for the override to be lawful: its fences are bare, no line of it
ends in another carriage return, its block has entries, and the `theme` met first is the block's. -/
def Sound (source : List Char) : Prop := ∀ yaml, (split source).yaml = some yaml →
  front source = bar :: yaml ++ [bar] ∧ (∀ l ∈ yaml, ¬['\r'] <:+ l) ∧
  ∀ b, configBlock yaml = some b → b.entries ≠ [] ∧
    ∀ above line below, b.theme = some (above, line, below) → own b.entries line = true

theorem Sound.clean (h : Sound s) : Clean ((split s).yaml.getD []) := by
  cases hyaml : (split s).yaml with
  | none => exact ⟨by simp, by simp⟩
  | some yaml =>
    have hsplit : split s = ⟨some yaml, (split s).body⟩ := by rw [← hyaml]
    exact clean_of_split hsplit (h yaml hyaml).2.1

theorem withTheme_ne_nil : withTheme t yaml ≠ [] := by
  obtain ⟨before, key, above, R, -, hwith, -⟩ := withTheme_spot yaml
  simp [hwith]

theorem Clean.set (h : Clean ((Frontmatter.split s).yaml.getD [])) (t : DiagramTheme) :
    Frontmatter.split (setDiagramTheme s (some t)) =
      ⟨some (withTheme t ((Frontmatter.split s).yaml.getD [])), (Frontmatter.split s).body⟩ ∧
    Frontmatter.front (setDiagramTheme s (some t)) =
      bar :: withTheme t ((Frontmatter.split s).yaml.getD []) ++ [bar] := by
  have hclean := clean_withTheme h t
  rw [setDiagramTheme_some]
  exact ⟨hclean.split withTheme_ne_nil, hclean.front withTheme_ne_nil⟩

theorem lines_join (body : List Char) (hls : ∀ l ∈ ls, '\n' ∉ l) (hne : ls ≠ []) :
    ∃ text, join ls body = text ++ body ∧ lines text = bar :: ls.map chop ++ [bar, []] := by
  refine ⟨unlines (bar :: ls ++ [bar]), if_neg hne, ?_⟩
  have hplain : ∀ l ∈ bar :: ls ++ [bar], '\n' ∉ l := by
    simpa [or_imp, forall_and, bar] using hls
  have hlines := lines_unlines (s := []) hplain
  simpa [lines, chop, bar, suffix_cons_iff] using hlines

theorem Sound.others_eq {before above R : List Line} {key : Line} (h : Sound s)
    (hyaml : (split s).yaml = some yaml) (hplace : Place ((split s).yaml.getD []) before key above R) :
    others yaml = before ++ (above ++ R) := by
  rw [hyaml, getD_some] at hplace
  rcases hplace with hblock | ⟨b, hblock, htheme⟩ | ⟨b, above, line, below, hblock, htheme⟩
  · simp [others, hblock]
  · have hnone : cut (own b.entries) b.entries = none := by
      have hentries := cut_eq_none.mp htheme
      exact cut_eq_none.mpr fun l hl => by simp [own, hentries l hl]
    simp [others, hblock, hnone]
  · obtain ⟨hsplit, habove, -⟩ := cut_eq_some htheme
    have hline := ((h yaml hyaml).2.2 b hblock).2 above line below htheme
    have hcut : cut (own b.entries) (above ++ line :: below) = some (above, line, below) :=
      cut_append (fun l hl => by simp [own, habove l hl]) hline
    rw [← hsplit] at hcut
    simp [others, hblock, hcut]

theorem split_none (h : (split s).yaml = none) : (split s).body = s := by
  unfold split at h ⊢
  cases hinner : ((fence s).bind newline).bind inner with
  | none => rfl
  | some m => simp [hinner] at h

theorem Sound.front_join (h : Sound s) :
    front (join ((split s).yaml.getD []) (split s).body) = front s ∧
      (split (join ((split s).yaml.getD []) (split s).body)).body = (split s).body := by
  have hclean := h.clean
  cases hyaml : (split s).yaml with
  | none =>
    have hbody := split_none hyaml
    have hjoin : join [] (split s).body = s := hbody
    rw [getD_none, hjoin]
    exact ⟨rfl, rfl⟩
  | some yaml =>
    have hsplit : split s = ⟨some yaml, (split s).body⟩ := by rw [← hyaml]
    obtain ⟨opening, raw, closing, hs, rfl⟩ := fenced_of_split hsplit
    have hne : raw.map chop ≠ [] := by simpa using hs.nonempty
    rw [hyaml, getD_some] at hclean
    rw [getD_some, hclean.front hne, hclean.split hne, (h _ hyaml).1]
    exact ⟨rfl, rfl⟩

namespace Sound
variable (h : Sound s)
include h

theorem setRead (hread : readDiagramTheme s = some t) : ∃ above line below,
    front s = above ++ line :: below ∧ themeEntry line = some t.text ∧
    front (setDiagramTheme s (some t)) = above ++ entry t :: below := by
  obtain ⟨before, key, above, R, -, hwith, hplace⟩ := withTheme_spot ((split s).yaml.getD [])
  cases hyaml : (split s).yaml with
  | none => simp [readDiagramTheme, hyaml] at hread
  | some yaml =>
    rw [readDiagramTheme, hyaml, bind_some] at hread
    rw [(h.clean.set t).2, hwith, (h yaml hyaml).1]
    rw [hyaml, getD_some] at hplace
    rcases hplace with hblock | ⟨b, hblock, htheme⟩ | ⟨b, above, line, below, hblock, htheme⟩
    · simp [themeOf, hblock] at hread
    · simp [themeOf, hblock, htheme] at hread
    · have hline : (themeEntry line).bind isDiagramTheme = some t := by
        simpa [themeOf, hblock, htheme] using hread
      obtain ⟨v, hv, hvalue⟩ := bind_eq_some_iff.mp hline
      have htext : t.text = v := by simpa using find?_some hvalue
      refine ⟨bar :: (b.before ++ b.key :: above), line, below ++ b.after ++ [bar], ?_, htext ▸ hv, ?_⟩
      · rw [(configBlock_eq hblock).1, (cut_eq_some htheme).1]
        simp
      · simp

theorem cleared (hno : ¬Overridden s) :
    withoutTheme (withTheme t ((split s).yaml.getD [])) =
      some ((split s).yaml.getD []) := by
  obtain ⟨before, key, above, R, hspot, hwith, hplace⟩ := withTheme_spot ((split s).yaml.getD [])
  rw [hwith, hspot.clear]
  rcases hplace with hblock | ⟨b, hblock, htheme⟩ | ⟨b, above, line, below, hblock, htheme⟩
  · simp
  · cases hyaml : (split s).yaml with
    | none => simp [hyaml, configBlock, cut] at hblock
    | some yaml =>
      rw [hyaml, getD_some] at hblock
      obtain ⟨hsplit, -, -, hentries, -⟩ := configBlock_eq hblock
      have hne := ((h yaml hyaml).2.2 b hblock).1
      have hsome : (b.entries ++ b.after).takeWhile indented ≠ [] := by
        rw [takeWhile_append_of_pos hentries]
        simp [hne]
      rw [if_neg (fun hnil => hsome hnil.2), getD_some]
      conv_rhs => rw [hsplit]
      simp
  · cases hyaml : (split s).yaml with
    | none => simp [hyaml, configBlock, cut] at hblock
    | some yaml =>
      rw [hyaml, getD_some] at hblock
      have hline := ((h yaml hyaml).2.2 b hblock).2 above line below htheme
      refine absurd ⟨yaml, b, line, hyaml, hblock, ?_, hline⟩ hno
      simp [(cut_eq_some htheme).1]

theorem clearSet (hno : ¬Overridden s) :
    front (setDiagramTheme (setDiagramTheme s (some t)) none) = front s ∧
    (split (setDiagramTheme (setDiagramTheme s (some t)) none)).body = (split s).body := by
  have hresult : setDiagramTheme (setDiagramTheme s (some t)) none =
      join ((split s).yaml.getD []) (split s).body := by
    rw [setDiagramTheme, (h.clean.set t).1, bind_some, h.cleared hno]
  rw [hresult]
  exact h.front_join

theorem keptSet (t : DiagramTheme) : ∃ text, setDiagramTheme s (some t) = text ++ (split s).body ∧
    ((front s).head?.toList ++ others ((split s).yaml.getD []) ++
      (front s).getLast?.toList).Sublist (lines text) := by
  obtain ⟨before, key, above, R, -, hwith, hplace⟩ := withTheme_spot ((split s).yaml.getD [])
  have hplain : ∀ l ∈ withTheme t ((split s).yaml.getD []), '\n' ∉ l ∧ ¬['\r'] <:+ l :=
    (clean_withTheme h.clean t).plain
  obtain ⟨text, htext, hlines⟩ := lines_join (split s).body (fun l hl => (hplain l hl).1)
    withTheme_ne_nil
  refine ⟨text, setDiagramTheme_some.trans htext, ?_⟩
  rw [hlines, map_chop fun l hl => (hplain l hl).2, hwith]
  cases hyaml : (split s).yaml with
  | none => simp [front, hyaml, others, configBlock, cut]
  | some yaml =>
    have hinner : (before ++ (above ++ R)).Sublist (before ++ key :: (above ++ entry t :: R)) :=
      (((sublist_cons_self _ R).append_left above).cons key).append_left before
    rw [getD_some, h.others_eq hyaml hplace, (h yaml hyaml).1]
    have hends : [bar].Sublist [bar, []] := by simp
    have hlast : (bar :: yaml ++ [bar]).getLast? = some bar := getLast?_concat
    rw [hlast]
    exact (hinner.cons_cons bar).append hends

theorem keptClear : ∃ text, setDiagramTheme s none = text ++ (split s).body ∧
    (others ((split s).yaml.getD [])).Sublist (lines text) := by
  obtain ⟨before, key, above, R, -, hwith, hplace⟩ := withTheme_spot ((split s).yaml.getD [])
  cases hyaml : (split s).yaml with
  | none =>
    have hbody := split_none hyaml
    refine ⟨[], ?_, by simp [others, configBlock, cut]⟩
    simp [setDiagramTheme, hyaml, hbody]
  | some yaml =>
    rw [getD_some, h.others_eq hyaml hplace]
    have hsplit : split s = ⟨some yaml, (split s).body⟩ := by rw [← hyaml]
    obtain ⟨opening, raw, closing, hs, hraw⟩ := fenced_of_split hsplit
    obtain ⟨text, htext, hlines⟩ := hs.text
    rw [← hraw] at hlines
    rw [setDiagramTheme, hyaml, bind_some]
    rw [hyaml, getD_some] at hplace
    rcases hplace with hblock | ⟨b, hblock, htheme⟩ | ⟨b, above, line, below, hblock, htheme⟩
    · exact ⟨text, by simpa [withoutTheme, hblock] using htext, by simpa using hlines⟩
    · refine ⟨text, by simpa [withoutTheme, hblock, htheme] using htext, .trans ?_ hlines⟩
      conv_rhs => rw [(configBlock_eq hblock).1]
      exact (sublist_cons_self _ _).append_left _
    · have hclean' : Clean yaml := by simpa [hyaml] using h.clean
      obtain ⟨next, hnext, hsub, hnextYaml⟩ : ∃ next, withoutTheme yaml = some next ∧
          (b.before ++ (above ++ (below ++ b.after))).Sublist next ∧ next.Sublist yaml := by
        refine ⟨_, by simp [withoutTheme, hblock, htheme]; rfl, ?_, ?_⟩
        · split_ifs
          · simp
          · exact (sublist_cons_self _ _).append_left _
        · conv_rhs => rw [(configBlock_eq hblock).1, (cut_eq_some htheme).1]
          split_ifs <;> simp
      rw [hnext]
      by_cases hne : next = []
      · subst hne
        rw [sublist_nil.mp hsub]
        exact ⟨[], if_pos rfl, nil_sublist _⟩
      · have hplain := (hclean'.sublist hnextYaml).plain
        obtain ⟨text, htext, hlines⟩ := lines_join (split s).body
          (fun l hl => (hplain l hl).1) hne
        refine ⟨text, htext, ?_⟩
        rw [hlines, map_chop fun l hl => (hplain l hl).2]
        exact (hsub.trans (sublist_cons_self _ _)).trans (sublist_append_left _ _)

end Sound

theorem lawful_of_sound (h : Sound s) : Lawful s := by
  have hset := fun t => h.clean.set t
  obtain ⟨before, key, above, R, hspot, hwith, -⟩ := withTheme_spot ((split s).yaml.getD [])
  refine ⟨fun t => ?_, fun t u => ?_, fun t => h.setRead, fun t => h.clearSet,
    fun t => by rw [(hset t).1], h.keptSet, h.keptClear⟩
  · rw [readDiagramTheme, (hset t).1, bind_some, hwith, hspot.read]
  · rw [setDiagramTheme_some, (hset t).1, getD_some, hwith, hspot.write,
      setDiagramTheme_some, hwith]

variable {x : Line}

theorem configKey_cr (h : configKey x = true) : ¬['\r'] <:+ x := by
  simp only [configKey, Bool.and_eq_true, List.isPrefixOf_iff_prefix, List.all_eq_true] at h
  obtain ⟨⟨r, rfl⟩, hblank⟩ := h
  have hdrop : ("config:".toList ++ r).drop 7 = r := rfl
  rw [hdrop] at hblank
  intro hcr
  have hmem : '\r' ∈ "config:".toList ++ r := hcr.subset (by simp)
  rcases mem_append.mp hmem with hr | hr
  · exact absurd hr (by decide)
  · exact absurd (hblank _ hr) (by decide)

theorem theme_facts (h : (themeEntry x).isSome) : ¬['\r'] <:+ x ∧ x.head?.any blank = true := by
  unfold themeEntry at h
  dsimp only at h
  split_ifs at h with hentry
  · simp only [Bool.and_eq_true, decide_eq_true_eq, List.all_eq_true] at hentry
    obtain ⟨⟨⟨hindent, -⟩, hne⟩, hall⟩ := hentry
    refine ⟨fun hcr => ?_, hindent⟩
    have hsuffix : ((x.dropWhile blank).drop 6).dropWhile blank <:+ x :=
      ((dropWhile_suffix _).trans (drop_suffix _ _)).trans (dropWhile_suffix _)
    generalize ((x.dropWhile blank).drop 6).dropWhile blank = value at *
    have hvalue : value ≠ [] := by
      rintro rfl
      exact hne rfl
    have hpos := length_pos_of_ne_nil hvalue
    obtain ⟨value, rfl⟩ := suffix_of_suffix_length_le hcr hsuffix hpos
    rw [rdropWhile_concat_neg _ _ _ (by decide)] at hall
    exact absurd (hall '\r' (by simp)) (by decide)
  · cases h

theorem fence_facts (h : isFence x = true) : ∃ rest, chop x = '-' :: rest := by
  have hbar : bar <+: x := by
    by_contra hno
    simp [isFence, fence, hno] at h
  obtain ⟨rest, rfl⟩ := hbar
  exact ⟨chop ('-' :: '-' :: rest), chop_cons (cons_ne_nil _ _)⟩

theorem count_others (hkey : configKey x = false)
    (hown : ∀ b, configBlock yaml = some b → own b.entries x = false) :
    (others yaml).count x = yaml.count x := by
  cases hblock : configBlock yaml with
  | none => rw [others, hblock]
  | some b =>
    obtain ⟨hyaml, -, hb, -⟩ := configBlock_eq hblock
    have hne : b.key ≠ x := by
      rintro rfl
      rw [hb] at hkey
      cases hkey
    rw [others, hblock]
    conv_rhs => rw [hyaml]
    cases hcut : cut (own b.entries) b.entries with
    | none => simp [hcut, List.count_append, count_cons_of_ne hne]
    | some c =>
      obtain ⟨above, line, below⟩ := c
      obtain ⟨hsplit, -, hline⟩ := cut_eq_some hcut
      have hother : line ≠ x := by
        rintro rfl
        rw [hown b hblock] at hline
        cases hline
      have hentries : b.entries.count x = above.count x + below.count x := by
        rw [hsplit, List.count_append, count_cons_of_ne hother]
      simp [hcut, List.count_append, count_cons_of_ne hne, hentries, Nat.add_assoc]

theorem count_withTheme (yaml : List Line) (hconfig : x ≠ config) (hentry : x ≠ entry t) :
    (withTheme t yaml).count x ≤ yaml.count x ∧ ∀ b above below, configBlock yaml = some b →
      b.theme = some (above, x, below) → (withTheme t yaml).count x < yaml.count x := by
  obtain ⟨before, key, above, R, -, hwith, hplace⟩ := withTheme_spot yaml
  have hcount : (withTheme t yaml).count x = before.count x + [key].count x + above.count x +
      R.count x := by
    have hno : (entry t == x) = false := by simpa using hentry.symm
    simp only [hwith, List.count_append, count_cons, count_nil, hno,
      Bool.false_eq_true, if_false]
    omega
  rw [hcount]
  rcases hplace with hblock | ⟨b, hblock, htheme⟩ | ⟨b, above, line, below, hblock, htheme⟩
  · simp [hconfig.symm, hblock]
  · have hyaml : yaml.count x = b.before.count x + [b.key].count x + (b.entries ++ b.after).count x := by
      conv_lhs => rw [(configBlock_eq hblock).1]
      simp only [List.count_append, count_cons, count_nil]
      omega
    refine ⟨by simp [hyaml], fun b' above below hb' htheme' => ?_⟩
    obtain rfl : b = b' := by simpa [hblock] using hb'
    rw [htheme] at htheme'
    cases htheme'
  · have hyaml : yaml.count x = b.before.count x + [b.key].count x + above.count x +
        [line].count x + (below ++ b.after).count x := by
      conv_lhs => rw [(configBlock_eq hblock).1, (cut_eq_some htheme).1]
      simp only [List.count_append, count_cons, count_nil]
      omega
    refine ⟨by omega, fun b' above' below' hb' htheme' => ?_⟩
    obtain rfl : b = b' := by simpa [hblock] using hb'
    obtain ⟨rfl, rfl, rfl⟩ : above = above' ∧ line = x ∧ below = below' := by
      simpa [htheme] using htheme'
    simp only [count_singleton_self] at hyaml
    omega

theorem mem_withTheme (h : x ∈ withTheme t yaml) : x ∈ yaml ∨ x = config ∨ x = entry t := by
  by_contra hno
  push Not at hno
  have hle := (count_withTheme yaml hno.2.1 hno.2.2).1
  have hpos := count_pos_iff.mpr h
  exact hno.1 (count_pos_iff.mp (by omega))

namespace Lawful
variable {opening closing : Line} (h : Lawful s) (hyaml : (split s).yaml = some yaml)
  (hplain : ∀ l ∈ yaml, '\n' ∉ l) (hfront : front s = opening :: yaml ++ [closing])
include h hyaml hplain hfront

theorem sublist (t : DiagramTheme) : (opening :: others yaml ++ [closing]).Sublist
    (bar :: (withTheme t yaml).map chop ++ [bar, []]) := by
  obtain ⟨text, htext, hsub⟩ := h.keptSet t
  have hlast : (opening :: yaml ++ [closing]).getLast? = some closing := getLast?_concat
  rw [hfront, hlast, hyaml] at hsub
  have hno : ∀ l ∈ withTheme t yaml, '\n' ∉ l := by
    intro l hl
    rcases mem_withTheme hl with hl | rfl | rfl
    · exact hplain l hl
    · decide
    · exact (entry_facts t).2.2.2.1.1
  obtain ⟨text', htext', hlines⟩ := lines_join (split s).body hno withTheme_ne_nil
  rw [setDiagramTheme_some, hyaml, getD_some, htext'] at htext
  rw [← append_cancel_right htext, hlines] at hsub
  exact hsub

/-- A line that ends in another carriage return comes back without it: it would take one that is
longer. -/
theorem noReturn : ∀ l ∈ yaml, ¬['\r'] <:+ l := by
  have hgrow : ∀ l ∈ yaml, ['\r'] <:+ l → l ++ ['\r'] ∈ yaml := by
    intro l hl hcr
    have hkey : configKey l = false := by
      by_contra hkey
      exact configKey_cr (by simpa using hkey) hcr
    have hown : ∀ b, configBlock yaml = some b → own b.entries l = false := by
      intro b hb
      by_contra hown
      simp only [own, Bool.not_eq_false, Bool.and_eq_true] at hown
      exact (theme_facts hown.1).1 hcr
    have hothers : l ∈ others yaml := by
      rw [← count_pos_iff, count_others hkey hown]
      exact count_pos_iff.mpr hl
    have hmem := (h.sublist hyaml hplain hfront .base).subset
      (mem_append_left _ (.tail _ hothers))
    have hend : l ≠ bar ∧ l ≠ [] := by
      constructor <;> (rintro rfl; revert hcr; decide)
    obtain ⟨m, hm, rfl⟩ : ∃ m ∈ withTheme .base yaml, chop m = l := by
      simpa [hend.1, hend.2] using hmem
    have hcr' : ['\r'] <:+ m := by
      by_contra hno
      rw [chop, if_neg hno] at hcr
      exact hno hcr
    have hm' : chop m ++ ['\r'] = m := by
      obtain ⟨m, rfl⟩ := hcr'
      rw [chop, if_pos (List.suffix_append _ _), dropLast_concat]
    rw [hm']
    rcases mem_withTheme hm with hm | rfl | rfl
    · exact hm
    · exact absurd hcr' (by decide)
    · exact absurd hcr' (entry_facts .base).2.2.2.1.2
  intro l hl hcr
  have hlong : ∀ n, ∃ m ∈ yaml, ['\r'] <:+ m ∧ n ≤ m.length := by
    intro n
    induction n with
    | zero => exact ⟨l, hl, hcr, Nat.zero_le _⟩
    | succ n ih =>
      obtain ⟨m, hm, hmcr, hle⟩ := ih
      exact ⟨m ++ ['\r'], hgrow m hm hmcr, List.suffix_append _ _, by simpa using hle⟩
  obtain ⟨m, hm, -, hle⟩ := hlong (yaml.flatten.length + 1)
  have hshort := (sublist_flatten_of_mem hm).length_le
  omega

variable (hcr : ∀ l ∈ yaml, ¬['\r'] <:+ l)
include hcr

theorem count_le (t : DiagramTheme) (hbar : x ≠ bar) (hx : x ≠ []) :
    (opening :: others yaml ++ [closing]).count x ≤ (withTheme t yaml).count x := by
  have hwith : (withTheme t yaml).map chop = withTheme t yaml := map_chop fun m hm => by
    rcases mem_withTheme hm with hm | rfl | rfl
    · exact hcr m hm
    · decide
    · exact (entry_facts t).2.2.2.1.2
  have hsub := (h.sublist hyaml hplain hfront t).count_le x
  rw [hwith] at hsub
  simpa [List.count_append, count_cons_of_ne hbar.symm, count_cons_of_ne hx.symm] using hsub

theorem bare (hl : isFence l = true)
    (hend : chop l = opening ∨ chop l = closing) : chop l = bar := by
  by_contra hbar
  obtain ⟨rest, hrest⟩ := fence_facts hl
  have hhead : (chop l).head? = some '-' := by rw [hrest, head?_cons]
  have hentry : chop l ≠ entry .base := fun heq => absurd (heq ▸ hhead) (by decide)
  have hconfig : chop l ≠ config := fun heq => absurd (heq ▸ hhead) (by decide)
  have hothers : (others yaml).count (chop l) = yaml.count (chop l) :=
    count_others (by simp [hrest, configKey]) fun b hb => by simp [own, themeEntry, hrest, blank]
  have hsub := h.count_le hyaml hplain hfront hcr .base hbar (by simp [hrest])
  have hcount := (count_withTheme yaml hconfig hentry).1
  have hleft : (others yaml).count (chop l) + 1 ≤
      (opening :: others yaml ++ [closing]).count (chop l) := by
    rcases hend with hend | hend <;>
      simp [List.count_append, count_cons, ← hend]
  omega

theorem owned (hb : configBlock yaml = some b)
    {above below : List Line} (htheme : b.theme = some (above, x, below)) :
    own b.entries x = true := by
  by_contra hno
  obtain ⟨t, ht⟩ : ∃ t, x ≠ entry t := by
    by_contra! hall
    exact absurd ((hall .base).symm.trans (hall .dark)) (by decide)
  have hblank := (theme_facts (cut_eq_some htheme).2.2).2
  have hkey : configKey x = false := by
    by_contra hkey
    simp only [configKey, Bool.not_eq_false, Bool.and_eq_true, List.isPrefixOf_iff_prefix] at hkey
    obtain ⟨rest, rfl⟩ := hkey.1
    exact absurd hblank (by simp [blank])
  have hne : ∀ y : Line, y.head?.any blank = false → x ≠ y := by
    rintro y hy rfl
    rw [hy] at hblank
    cases hblank
  have hothers : (others yaml).count x = yaml.count x := by
    refine count_others hkey fun b' hb' => ?_
    obtain rfl : b = b' := by simpa [hb] using hb'
    simpa using hno
  have hsub := h.count_le hyaml hplain hfront hcr t (hne bar (by decide)) (hne [] (by decide))
  have hcount := (count_withTheme yaml (hne config (by decide)) ht).2 b above below hb htheme
  have hleft : (others yaml).count x ≤ (opening :: others yaml ++ [closing]).count x :=
    Sublist.count_le _ ((sublist_cons_self _ _).trans (sublist_append_left _ _))
  omega

omit hcr

end Lawful

theorem split_length (h : (split s).yaml = some yaml) : (split s).body.length < s.length := by
  have hsplit : split s = ⟨some yaml, (split s).body⟩ := by rw [← h]
  obtain ⟨opening, raw, closing, hs, -⟩ := fenced_of_split hsplit
  rcases hs.ended with hs | ⟨hs, -, hbody⟩
  · have hpos : 0 < (unlines (opening :: raw ++ [closing])).length :=
      length_pos_of_ne_nil (by simp)
    conv_rhs => rw [hs, List.length_append]
    omega
  · rw [hbody, hs]
    exact length_pos_of_ne_nil (by simp)

theorem sound_of_lawful (h : Lawful s) : Sound s := by
  intro yaml hyaml
  have hsplit : split s = ⟨some yaml, (split s).body⟩ := by rw [← hyaml]
  obtain ⟨opening, raw, closing, hs, rfl⟩ := fenced_of_split hsplit
  have hfront := hs.front
  have hplain : ∀ l ∈ raw.map chop, '\n' ∉ l := by
    intro l hl
    obtain ⟨m, hm, rfl⟩ := List.mem_map.mp hl
    exact not_mem_chop (hs.plain m (by simp [hm]))
  have hcr := h.noReturn hyaml hplain hfront
  have hclean := clean_of_split hsplit hcr
  have hopen := h.bare hyaml hplain hfront hcr hs.fences.1 (.inl rfl)
  have hclose := h.bare hyaml hplain hfront hcr hs.fences.2 (.inr rfl)
  rw [hopen, hclose] at hfront
  refine ⟨hfront, hcr, fun b hb => ⟨fun hempty => ?_, fun above line below htheme => ?_⟩⟩
  · obtain ⟨hraw, hbefore, hkey, -, hafter, -⟩ := configBlock_eq hb
    rw [hempty, nil_append] at hraw
    have htheme : b.theme = none := by simp [ConfigBlock.theme, hempty, cut]
    have hspot : Spot b.before b.key [] := ⟨hbefore, hkey, by simp⟩
    have hwith : withTheme .base (raw.map chop) =
        b.before ++ b.key :: ([] ++ entry .base :: b.after) := by
      simp [withTheme, hb, htheme, hempty]
    have hset := (Clean.set (s := s) (by simpa [hyaml] using hclean) .base).1
    have hclear : setDiagramTheme (setDiagramTheme s (some .base)) none =
        join (b.before ++ b.after) (split s).body := by
      rw [setDiagramTheme, hset, hyaml, getD_some, bind_some, hwith, hspot.clear,
        if_pos ⟨rfl, hafter⟩]
      simp
    obtain ⟨hfront', hbody⟩ := h.clearSet .base (by
      rintro ⟨yaml', b', line, hyaml', hb', hline, -⟩
      obtain rfl : raw.map chop = yaml' := by simpa [hyaml] using hyaml'
      obtain rfl : b = b' := by simpa [hb] using hb'
      simp [hempty] at hline)
    rw [hclear, hfront] at hfront'
    rw [hclear] at hbody
    by_cases hne : b.before ++ b.after = []
    · rw [join, if_pos hne] at hfront' hbody
      cases hagain : (split (split s).body).yaml with
      | none => simp [front, hagain] at hfront'
      | some yaml' =>
        have hlt := split_length hagain
        rw [hbody] at hlt
        exact Nat.lt_irrefl _ hlt
    · have hclean' : Clean (b.before ++ b.after) := hclean.sublist (by rw [hraw]; simp)
      rw [hclean'.front hne, hraw] at hfront'
      have hlength := congrArg List.length hfront'
      simp at hlength
  · exact h.owned hyaml hplain hs.front hcr hb htheme

/-- The override is a lens on a source exactly where its frontmatter is sound. -/
theorem lawful_iff (source : List Char) : Lawful source ↔ Sound source :=
  ⟨sound_of_lawful, lawful_of_sound⟩

def nested : List Char := "---\nconfig:\n  flowchart:\n    theme: x\n---\nflowchart TD".toList

theorem nested_unlawful : ¬Lawful nested := by
  intro h
  have hsound := sound_of_lawful h (["config:", "  flowchart:", "    theme: x"].map String.toList)
    (by decide)
  have hown := (hsound.2.2 ⟨[], "config:".toList, ["  flowchart:", "    theme: x"].map String.toList,
    []⟩ rfl).2 ["  flowchart:".toList] "    theme: x".toList [] rfl
  exact absurd hown (by decide)

end Frontmatter
end Soloist
