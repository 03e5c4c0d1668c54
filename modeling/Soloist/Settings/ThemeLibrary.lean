import Mathlib.Algebra.Group.Nat.Defs
import Mathlib.Data.List.Infix
import Soloist.Machine
import Soloist.Numbering
import Soloist.Text
import Soloist.Utf8

/-! The theme library: custom themes beside the built-in ones, and the theme selected for each
appearance. -/
open List
open Option hiding or_assoc

namespace Soloist

/-- The roles a complete palette gives a color. -/
class ThemeRoles (ρ : Type) where
  all : List ρ

inductive ThemeAppearance
  | light | dark
  deriving DecidableEq, Repr

/-- A palette: its colors by their roles. -/
structure ThemeColors (ρ : Type) where
  entries : List (ρ × String)

structure ThemeVariants (ρ ε : Type) where
  light : Option (ThemeColors ρ)
  dark : Option (ThemeColors ρ)
  lightExtensions : Option ε
  darkExtensions : Option ε

structure ThemeFile (ρ ε : Type) where
  version : ℕ
  id : String
  name : String
  appearance : ThemeAppearance
  author : Option String
  description : Option String
  colors : ThemeColors ρ
  variants : ThemeVariants ρ ε

inductive ThemeError
  | invalidFile (reason : String)
  | duplicateId (id : String)
  | builtInThemeImmutable (id : String)
  | themeNotFound (id : String)
  | unsupportedAppearance (themeId : String) (appearance : ThemeAppearance)
  deriving DecidableEq, Repr

inductive ThemeConflictPolicy
  | reject | replace | keepBoth

structure SelectedThemes where
  light : String
  dark : String
  deriving DecidableEq

structure Appearance (ρ ε : Type) where
  customThemes : List (ThemeFile ρ ε)
  selectedThemes : SelectedThemes

def defaultThemeId : String := "soloist-default"

def maxDescriptionChars : ℕ := 240

def reservedPreferenceIds : List String := ["system", "light", "dark"]

def SelectedThemes.get (s : SelectedThemes) : ThemeAppearance → String
  | .light => s.light
  | .dark => s.dark

def SelectedThemes.set (s : SelectedThemes) (id : String) : ThemeAppearance → SelectedThemes
  | .light => { s with light := id }
  | .dark => { s with dark := id }

variable {ρ ε : Type} [DecidableEq ρ] [ThemeRoles ρ]

def ThemeColors.isComplete (c : ThemeColors ρ) : Bool :=
  (@ThemeRoles.all ρ _).all fun role => c.entries.any fun entry => entry.1 = role

def ThemeVariants.get (v : ThemeVariants ρ ε) : ThemeAppearance → Option (ThemeColors ρ)
  | .light => v.light
  | .dark => v.dark

def ThemeVariants.extensions (v : ThemeVariants ρ ε) : ThemeAppearance → Option ε
  | .light => v.lightExtensions
  | .dark => v.darkExtensions

def ThemeAppearance.name : ThemeAppearance → String
  | .light => "Light"
  | .dark => "Dark"

namespace ThemeFile

def require (holds : Bool) (reason : String) : Except ThemeError Unit :=
  if holds then .ok () else .error (.invalidFile reason)

def idChar (c : Char) : Bool := c.isLower || c.isDigit

def validId (id : String) : Bool :=
  match id.toList with
  | [] => false
  | first :: rest => decide ((Utf8.encode id.toList).length ≤ 48) && idChar first &&
      rest.all fun c => idChar c || c = '-'

def validateFileId (id : String) : Except ThemeError Unit := do
  require (validId id) ("theme ids must be 1-48 lowercase letters, numbers, or hyphens and start " ++
    "with a letter or number")
  require (id ∉ reservedPreferenceIds) s!"theme id {id.quote} is reserved"

/-- What the checks of a name, an author and a description share. -/
def validText (limit : ℕ) (text : String) : Bool :=
  text ≠ "" && text = trim text && text.toList.length ≤ limit

def validateName (name : String) : Except ThemeError Unit :=
  require (validText 48 name) "theme names must contain 1-48 non-whitespace characters"

def validateAuthor (author : String) : Except ThemeError Unit :=
  require (validText 48 author)
    "theme authors must contain 1-48 non-whitespace characters when provided"

def validateDescription (description : String) : Except ThemeError Unit :=
  require (validText maxDescriptionChars description)
    s!"theme descriptions must contain 1-{maxDescriptionChars} non-whitespace characters when provided"

def rejectBaseAppearanceVariant (v : ThemeVariants ρ ε) (appearance : ThemeAppearance) :
    Except ThemeError Unit :=
  require ((v.get appearance).isNone && (v.extensions appearance).isNone)
    s!"theme variants must not repeat the base appearance {appearance.name}"

variable (t : ThemeFile ρ ε)

def validateContent : Except ThemeError Unit := do
  validateName t.name
  t.author.forM validateAuthor
  t.description.forM validateDescription
  require t.colors.isComplete "stored theme colors must contain every supported role"
  rejectBaseAppearanceVariant t.variants t.appearance
  [ThemeAppearance.light, .dark].forM fun appearance =>
    require ((t.variants.get appearance).all ThemeColors.isComplete)
      "stored theme variants must contain every supported role"

def validate : Except ThemeError Unit := do
  require (t.version = 1) s!"unsupported theme version {t.version}; expected 1"
  validateFileId t.id
  t.validateContent

def colorsFor (appearance : ThemeAppearance) : Option (ThemeColors ρ) :=
  if appearance = t.appearance then some t.colors else t.variants.get appearance

def supports (appearance : ThemeAppearance) : Bool := (t.colorsFor appearance).isSome

end ThemeFile

/-- The catalog that ships with the application, as it is checked when it is read. -/
structure BuiltInThemes (ρ ε : Type) where
  themes : List (ThemeFile ρ ε)
  default : ∃ t, themes.find? (fun t => t.id = defaultThemeId) = some t ∧
    ∀ appearance, t.supports appearance = true

def isBuiltInId (b : BuiltInThemes ρ ε) (id : String) : Bool :=
  id = defaultThemeId || b.themes.any fun t => t.id = id

def idIsAvailable (b : BuiltInThemes ρ ε) (themes : List (ThemeFile ρ ε)) (id : String) : Bool :=
  !isBuiltInId b id && !themes.any fun t => t.id = id

/-- `str::get` up to a byte. -/
def bytePrefix (text : List Char) (n : ℕ) : Option (List Char) :=
  text.inits.find? fun start => (Utf8.encode start).length = n

def idWithSuffix (base : String) (suffix : List Char) : String :=
  let available := 48 - (Utf8.encode suffix).length
  let kept := (bytePrefix base.toList (min (Utf8.encode base.toList).length available)).getD base.toList
  String.ofList (kept.rdropWhile (· = '-') ++ suffix)

def candidate (base : String) (n : ℕ) : String := idWithSuffix base ('-' :: Nat.toDigits 10 (n + 2))

theorem candidate_injective (base : String) : (candidate base).Injective := by
  intro n m h
  have hlists := String.ofList_injective h
  exact Nat.add_right_cancel (Numbering.toDigits_inj (by decide) hlists)

def takenIds (b : BuiltInThemes ρ ε) (themes : List (ThemeFile ρ ε)) : List String :=
  defaultThemeId :: (b.themes.map ThemeFile.id ++ themes.map ThemeFile.id)

def uniqueNumberedId (base : String) (b : BuiltInThemes ρ ε) (themes : List (ThemeFile ρ ε)) :
    String :=
  candidate base (Numbering.firstFree _ (candidate_injective base) (takenIds b themes))

def copyName (name : String) : String :=
  String.ofList (name.toList.take (48 - " copy".length) ++ " copy".toList)

namespace Appearance
variable (b : BuiltInThemes ρ ε) (a : Appearance ρ ε)

def lookup (id : String) : Option (ThemeFile ρ ε) :=
  (a.customThemes ++ b.themes).find? fun t => t.id = id

def position (id : String) : Option ℕ := a.customThemes.findIdx? fun t => t.id = id

def selectTheme (appearance : ThemeAppearance) (themeId : String) :
    Except ThemeError Unit × Appearance ρ ε :=
  let themeId := trim themeId
  match a.lookup b themeId with
  | none => (.error (.themeNotFound themeId), a)
  | some t =>
    if t.supports appearance then
      (.ok (), { a with selectedThemes := a.selectedThemes.set themeId appearance })
    else (.error (.unsupportedAppearance themeId appearance), a)

def push (t : ThemeFile ρ ε) : Appearance ρ ε := { a with customThemes := a.customThemes ++ [t] }

def replace (index : ℕ) (t : ThemeFile ρ ε) : Appearance ρ ε :=
  { a with customThemes := a.customThemes.set index t }

def installCustomTheme (t : ThemeFile ρ ε) (conflict : ThemeConflictPolicy) :
    Except ThemeError Unit × Appearance ρ ε :=
  match t.validate with
  | .error e => (.error e, a)
  | .ok () =>
    let builtInConflict := isBuiltInId b t.id
    let customIndex := a.position t.id
    if builtInConflict || customIndex.isSome then
      match conflict with
      | .reject =>
        if builtInConflict then (.error (.builtInThemeImmutable t.id), a)
        else (.error (.duplicateId t.id), a)
      | .replace =>
        if builtInConflict then (.error (.builtInThemeImmutable t.id), a)
        else
          match customIndex with
          | none => (.error (.duplicateId t.id), a)
          | some index => (.ok (), a.replace index t)
      | .keepBoth => (.ok (), a.push { t with id := uniqueNumberedId t.id b a.customThemes })
    else (.ok (), a.push t)

def updateCustomTheme (t : ThemeFile ρ ε) : Except ThemeError Unit × Appearance ρ ε :=
  match t.validate with
  | .error e => (.error e, a)
  | .ok () =>
    if isBuiltInId b t.id then (.error (.builtInThemeImmutable t.id), a)
    else
      match a.position t.id with
      | none => (.error (.themeNotFound t.id), a)
      | some index => (.ok (), a.replace index t)

def duplicateTheme (themeId : String) : Except ThemeError Unit × Appearance ρ ε :=
  match a.lookup b themeId with
  | none => (.error (.themeNotFound themeId), a)
  | some source =>
    let copyBase := idWithSuffix source.id "-copy".toList
    let id := if idIsAvailable b a.customThemes copyBase then copyBase
      else uniqueNumberedId copyBase b a.customThemes
    let copy := { source with id := id, name := copyName source.name }
    match copy.validate with
    | .error e => (.error e, a)
    | .ok () => (.ok (), a.push copy)

def removeCustomTheme (themeId : String) : Except ThemeError Unit × Appearance ρ ε :=
  if isBuiltInId b themeId then (.error (.builtInThemeImmutable themeId), a)
  else
    match a.position themeId with
    | none => (.ok (), a)
    | some index =>
      let reset (id : String) := if id = themeId then defaultThemeId else id
      (.ok (), ⟨a.customThemes.eraseIdx index,
        ⟨reset a.selectedThemes.light, reset a.selectedThemes.dark⟩⟩)

end Appearance

inductive ThemeOp (ρ ε : Type)
  | select (appearance : ThemeAppearance) (themeId : String)
  | install (theme : ThemeFile ρ ε) (conflict : ThemeConflictPolicy)
  | update (theme : ThemeFile ρ ε)
  | duplicate (themeId : String)
  | remove (themeId : String)

def ThemeOp.run (b : BuiltInThemes ρ ε) (a : Appearance ρ ε) :
    ThemeOp ρ ε → Except ThemeError Unit × Appearance ρ ε
  | select appearance themeId => a.selectTheme b appearance themeId
  | install theme conflict => a.installCustomTheme b theme conflict
  | update theme => a.updateCustomTheme b theme
  | duplicate themeId => a.duplicateTheme b themeId
  | remove themeId => a.removeCustomTheme b themeId

end Soloist

/-! The theme library over whole runs of its operations. -/
namespace Soloist

variable {α κ : Type*} {i : ℕ}

variable {key : α → κ} {xs : List α} {x : α}

theorem find?_set_findIdx? [DecidableEq κ] (hi : xs.findIdx? (fun y => key y = key x) = some i)
    (k : κ) :
    (xs.set i x).find? (fun y => key y = k) =
      if key x = k then some x else xs.find? fun y => key y = k := by
  induction xs generalizing i with
  | nil => cases hi
  | cons y ys ih =>
    rw [findIdx?_cons] at hi
    split_ifs at hi with hy
    · cases hi
      rw [set_cons_zero, find?_cons, find?_cons]
      rw [decide_eq_true_eq] at hy
      by_cases hk : key x = k
      · simp [hk]
      · simp [hk, hy]
    · obtain ⟨j, hj, rfl⟩ := map_eq_some_iff.mp hi
      rw [decide_eq_true_eq] at hy
      rw [set_cons_succ, find?_cons, find?_cons, ih hj]
      by_cases hk : key y = k
      · have hne : ¬key x = k := fun heq => hy (hk.trans heq.symm)
        simp [hk, hne]
      · simp [hk]

theorem map_set_findIdx? [DecidableEq κ] (hi : xs.findIdx? (fun y => key y = key x) = some i) :
    (xs.set i x).map key = xs.map key := by
  obtain ⟨hlt, hkey, -⟩ := findIdx?_eq_some_iff_getElem.mp hi
  rw [map_set, ← of_decide_eq_true hkey, ← getElem_map key (h := by simpa using hlt)]
  exact set_getElem_self _

theorem find?_eraseIdx_findIdx? [DecidableEq κ] {k k' : κ}
    (hi : xs.findIdx? (fun y => key y = k) = some i) (hk : k' ≠ k) :
    (xs.eraseIdx i).find? (fun y => key y = k') = xs.find? fun y => key y = k' := by
  induction xs generalizing i with
  | nil => cases hi
  | cons y ys ih =>
    rw [findIdx?_cons] at hi
    split_ifs at hi with hy
    · cases hi
      rw [decide_eq_true_eq] at hy
      have hne : ¬key y = k' := fun heq => hk (heq.symm.trans hy)
      simp [hne]
    · obtain ⟨j, hj, rfl⟩ := map_eq_some_iff.mp hi
      rw [eraseIdx_cons_succ, find?_cons, find?_cons, ih hj]

variable {ρ ε : Type}
variable {b : BuiltInThemes ρ ε} {a : Appearance ρ ε} {t : ThemeFile ρ ε}

/-! Identifiers: what a suffix leaves of one, and which are free. -/

variable {themes : List (ThemeFile ρ ε)} {id : String}

theorem mem_takenIds :
    id ∈ takenIds b themes ↔ isBuiltInId b id = true ∨ ∃ t ∈ themes, t.id = id := by
  simp [takenIds, isBuiltInId, or_assoc]

theorem idIsAvailable_iff : idIsAvailable b themes id = true ↔ id ∉ takenIds b themes := by
  rw [mem_takenIds]
  simp [idIsAvailable]

theorem uniqueNumberedId_free (base : String) (themes : List (ThemeFile ρ ε)) :
    uniqueNumberedId base b themes ∉ takenIds b themes :=
  Numbering.firstFree_not_mem (candidate_injective base)

def Selected (b : BuiltInThemes ρ ε) (a : Appearance ρ ε) : Prop :=
  ∀ appearance, ∃ t, a.lookup b (a.selectedThemes.get appearance) = some t ∧
    t.supports appearance = true

namespace Appearance

theorem get_set (s : SelectedThemes) (id : String) (half other : ThemeAppearance) :
    (s.set id half).get other = if other = half then id else s.get other := by
  cases half <;> cases other <;> rfl

theorem lookup_eq (id : String) : a.lookup b id =
    (a.customThemes.find? fun t => t.id = id).or (b.themes.find? fun t => t.id = id) :=
  find?_append

variable {id : String}

theorem id_of_lookup (h : a.lookup b id = some t) : id ∈ takenIds b a.customThemes := by
  have hid : t.id = id := by simpa using find?_some h
  have hmem := mem_append.mp (mem_of_find?_eq_some h)
  rw [mem_takenIds]
  obtain hmem | hmem := hmem
  · exact .inr ⟨t, hmem, hid⟩
  · refine .inl ?_
    simp only [isBuiltInId, Bool.or_eq_true, List.any_eq_true, decide_eq_true_eq]
    exact .inr ⟨t, hmem, hid⟩

theorem exists_position (h : a.lookup b id = some t) (hid : isBuiltInId b id = false) :
    ∃ i, a.position id = some i := by
  obtain hbuiltIn | ⟨t, ht, hid⟩ := mem_takenIds.mp (id_of_lookup h)
  · rw [hid] at hbuiltIn
    cases hbuiltIn
  · refine isSome_iff_exists.mp ?_
    rw [position, findIdx?_isSome, List.any_eq_true]
    exact ⟨t, ht, decide_eq_true hid⟩

theorem not_mem_takenIds (hid : isBuiltInId b id = false) (hposition : a.position id = none) :
    id ∉ takenIds b a.customThemes := by
  rw [mem_takenIds, hid]
  rintro (h | ⟨t, ht, hid⟩)
  · cases h
  · have hnone := findIdx?_eq_none_iff.mp hposition t ht
    rw [decide_eq_true hid] at hnone
    cases hnone

theorem selected_push (hs : Selected b a) (hfree : t.id ∉ takenIds b a.customThemes) :
    Selected b (a.push t) := by
  intro appearance
  obtain ⟨s, hs, hsupports⟩ := hs appearance
  have hne : ¬t.id = a.selectedThemes.get appearance := fun heq => hfree (heq ▸ id_of_lookup hs)
  refine ⟨s, ?_, hsupports⟩
  have hnone : [t].find? (fun t => t.id = a.selectedThemes.get appearance) = none := by simp [hne]
  rw [lookup_eq] at hs
  rw [lookup_eq, push, find?_append, hnone, or_none]
  exact hs

theorem lookup_replace {i : ℕ} (hi : a.position t.id = some i) (id : String) :
    (a.replace i t).lookup b id = if t.id = id then some t else a.lookup b id := by
  rw [lookup_eq, lookup_eq, replace, find?_set_findIdx? hi]
  split_ifs <;> rfl

theorem selected_replace (hs : Selected b a) {i : ℕ} (hi : a.position t.id = some i) :
    Selected b (a.replace i t) ↔
      ∀ appearance, a.selectedThemes.get appearance = t.id → t.supports appearance = true := by
  unfold Selected
  refine forall_congr' fun appearance => ?_
  rw [lookup_replace hi]
  by_cases heq : t.id = a.selectedThemes.get appearance
  · rw [if_pos (show t.id = (a.replace i t).selectedThemes.get appearance from heq)]
    constructor
    · rintro ⟨s, hs, hsupports⟩ -
      exact some.inj hs ▸ hsupports
    · exact fun h => ⟨t, rfl, h heq.symm⟩
  · rw [if_neg (show ¬t.id = (a.replace i t).selectedThemes.get appearance from heq)]
    exact ⟨fun _ h => absurd h.symm heq, fun _ => hs appearance⟩

end Appearance

variable {cs : List Char}

theorem length_encode_ascii (h : ∀ c ∈ cs, c.toNat < 128) :
    (Utf8.encode cs).length = cs.length := by
  induction cs with
  | nil => rfl
  | cons c cs ih =>
    have hcons : Utf8.encode (c :: cs) = String.utf8EncodeChar c ++ Utf8.encode cs := rfl
    rw [hcons, Utf8.encodeChar_ascii (h c (.head _)), singleton_append,
      length_cons, length_cons, ih fun d hd => h d (.tail _ hd)]

theorem bytePrefix_ascii (h : ∀ c ∈ cs, c.toNat < 128) {n : ℕ} (hn : n ≤ cs.length) :
    bytePrefix cs n = some (cs.take n) := by
  have hsize : ∀ start, start <+: cs → (Utf8.encode start).length = start.length :=
    fun start hstart => length_encode_ascii fun c hc => h c (hstart.subset hc)
  have hsome : ∃ start, bytePrefix cs n = some start := by
    refine isSome_iff_exists.mp (find?_isSome.mpr ⟨cs.take n, ?_, ?_⟩)
    · exact (mem_inits _ _).mpr (List.take_prefix n cs)
    · rw [hsize _ (List.take_prefix n cs), length_take, Nat.min_eq_left hn]
      exact decide_eq_true rfl
  obtain ⟨start, hstart⟩ := hsome
  have hprefix := (mem_inits _ _).mp (mem_of_find?_eq_some hstart)
  have hencoded : (Utf8.encode start).length = n := by simpa using find?_some hstart
  have hlength : start.length = n := (hsize start hprefix).symm.trans hencoded
  rw [hstart, ← hlength]
  exact congrArg some (prefix_iff_eq_take.mp hprefix)

theorem rdropWhile_cons {p : Char → Bool} {c : Char} (hc : p c = false) (cs : List Char) :
    ∃ rest, (c :: cs).rdropWhile p = c :: rest ∧ c :: rest <+: c :: cs := by
  have hprefix := List.rdropWhile_prefix p (c :: cs)
  cases hdrop : (c :: cs).rdropWhile p with
  | nil =>
    rw [rdropWhile_eq_nil_iff.mp hdrop c (.head _)] at hc
    cases hc
  | cons d rest =>
    rw [hdrop] at hprefix
    obtain rfl : d = c := (cons_prefix_cons.mp hprefix).1
    exact ⟨rest, rfl, hprefix⟩

namespace ThemeFile
variable [DecidableEq ρ] [ThemeRoles ρ]

def Allowed (cs : List Char) : Prop := ∀ c ∈ cs, (idChar c || c = '-') = true

theorem ascii_of_allowed {cs : List Char} (h : Allowed cs) {c : Char} (hc : c ∈ cs) :
    c.toNat < 128 := by
  have hrange : (97 ≤ c.val ∧ c.val ≤ 122) ∨ (48 ≤ c.val ∧ c.val ≤ 57) ∨ c = '-' := by
    have hlower : c.isLower = (decide (97 ≤ c.val) && decide (c.val ≤ 122)) := rfl
    simpa [idChar, hlower, Char.isDigit, or_assoc] using h c hc
  obtain hlower | hdigit | rfl := hrange
  · exact Nat.lt_of_le_of_lt hlower.2 (by decide)
  · exact Nat.lt_of_le_of_lt hdigit.2 (by decide)
  · decide

variable {id : String}

theorem validId_iff : validId id = true ↔
    ∃ first rest, id.toList = first :: rest ∧ idChar first = true ∧ Allowed (first :: rest) ∧
      (first :: rest).length ≤ 48 := by
  unfold validId
  cases hid : id.toList with
  | nil => simp
  | cons first rest =>
    simp only [Bool.and_eq_true, decide_eq_true_eq, List.cons.injEq]
    constructor
    · rintro ⟨⟨hsize, hfirst⟩, hrest⟩
      have hallowed : Allowed (first :: rest) :=
        forall_mem_cons.mpr ⟨by rw [hfirst, Bool.true_or], List.all_eq_true.mp hrest⟩
      rw [length_encode_ascii fun c => ascii_of_allowed hallowed] at hsize
      exact ⟨first, rest, ⟨rfl, rfl⟩, hfirst, hallowed, hsize⟩
    · rintro ⟨_, _, ⟨rfl, rfl⟩, hfirst, hallowed, hlength⟩
      rw [length_encode_ascii fun c => ascii_of_allowed hallowed]
      exact ⟨⟨hlength, hfirst⟩, List.all_eq_true.mpr (forall_mem_cons.mp hallowed).2⟩

/-- An identifier with a short suffix in place of its end is one again. -/
theorem validId_idWithSuffix {base : String} (h : validId base = true) {suffix : List Char}
    (hsuffix : Allowed suffix) (hlength : suffix.length ≤ 47) :
    validId (idWithSuffix base suffix) = true := by
  obtain ⟨first, rest, hbase, hfirst, hallowed, -⟩ := validId_iff.mp h
  have hdash : first ≠ '-' := fun heq => by rw [heq] at hfirst; cases hfirst
  obtain ⟨n, hn⟩ : ∃ n, 48 - suffix.length = n + 1 := ⟨47 - suffix.length, by omega⟩
  have hkept : bytePrefix (first :: rest) (min (first :: rest).length (n + 1)) =
      some (first :: rest.take n) := by
    rw [bytePrefix_ascii (fun c => ascii_of_allowed hallowed) (Nat.min_le_left _ _),
      length_cons, Nat.succ_min_succ, take_succ_cons, Nat.min_comm, ← take_take,
      take_length]
  obtain ⟨trimmed, htrimmed, hprefix⟩ := @rdropWhile_cons (· = '-') first (decide_eq_false hdash) (rest.take n)
  have hsub : first :: trimmed <+: first :: rest :=
    hprefix.trans (cons_prefix_cons.mpr ⟨rfl, List.take_prefix n rest⟩)
  have hresult : (idWithSuffix base suffix).toList = first :: (trimmed ++ suffix) := by
    dsimp only [idWithSuffix]
    rw [hbase, length_encode_ascii fun c => ascii_of_allowed hallowed,
      length_encode_ascii fun c => ascii_of_allowed hsuffix, hn, hkept, getD_some, htrimmed,
      String.toList_ofList]
    rfl
  refine validId_iff.mpr ⟨first, trimmed ++ suffix, hresult, hfirst, ?_, ?_⟩
  · intro c hc
    rw [← cons_append, mem_append] at hc
    exact hc.elim (fun hc => hallowed c (hsub.subset hc)) (hsuffix c)
  · have hshort := hprefix.length_le
    rw [length_cons, length_cons, length_take] at hshort
    rw [length_cons, List.length_append]
    omega

theorem require_bind_eq_ok {holds : Bool} {reason : String} {next : Except ThemeError Unit} :
    (require holds reason >>= fun _ => next) = .ok () ↔ holds = true ∧ next = .ok () := by
  cases holds
  · exact ⟨(fun h => by cases h), fun h => by cases h.1⟩
  · exact ⟨fun h => ⟨rfl, h⟩, fun h => h.2⟩

theorem validateFileId_eq_ok :
    validateFileId id = .ok () ↔ validId id = true ∧ id ∉ reservedPreferenceIds := by
  unfold validateFileId
  rw [require_bind_eq_ok, require]
  split_ifs with hfree
  · exact and_congr_right fun _ => ⟨fun _ => of_decide_eq_true hfree, fun _ => rfl⟩
  · exact and_congr_right fun _ => ⟨(fun h => by cases h), fun h => absurd (decide_eq_true h) hfree⟩

theorem validate_eq_ok {t : ThemeFile ρ ε} : t.validate = .ok () ↔
    t.version = 1 ∧ validateFileId t.id = .ok () ∧ t.validateContent = .ok () := by
  unfold validate
  rw [require_bind_eq_ok, decide_eq_true_eq]
  refine and_congr_right fun _ => ?_
  cases validateFileId t.id with
  | error e => exact ⟨(fun h => by cases h), fun h => by cases h.1⟩
  | ok _ => exact ⟨fun h => ⟨rfl, h⟩, fun h => h.2⟩

theorem validate_numbered {t : ThemeFile ρ ε} (h : t.validate = .ok ()) {n : ℕ}
    (hn : n + 2 < 10 ^ 46) : { t with id := candidate t.id n }.validate = .ok () := by
  obtain ⟨hversion, hid, hcontent⟩ := validate_eq_ok.mp h
  refine validate_eq_ok.mpr ⟨hversion, validateFileId_eq_ok.mpr ⟨?_, ?_⟩, hcontent⟩
  · refine validId_idWithSuffix (validateFileId_eq_ok.mp hid).1 ?_ ?_
    · refine forall_mem_cons.mpr ⟨by decide, fun c hc => ?_⟩
      have hdigit : c.isDigit = true := Nat.isDigit_of_mem_toDigits (by decide) (by decide) hc
      simp [idChar, hdigit]
    · have hdigits := (Nat.length_toDigits_le_iff (b := 10) (by decide) (by decide)).mpr hn
      rw [length_cons]
      omega
  · intro hreserved
    have hdash : '-' ∈ (candidate t.id n).toList := by
      unfold candidate idWithSuffix
      rw [String.toList_ofList]
      exact mem_append_right _ (.head _)
    have hplain : ∀ id ∈ reservedPreferenceIds, '-' ∉ id.toList := by decide
    exact hplain _ hreserved hdash

end ThemeFile

/-! The library. -/

variable [DecidableEq ρ] [ThemeRoles ρ]

/-- The custom themes of a library are apart from each other and from the built-in ones, and valid. -/
structure Arranged (b : BuiltInThemes ρ ε) (a : Appearance ρ ε) : Prop where
  distinct : (a.customThemes.map ThemeFile.id).Nodup
  apart : ∀ t ∈ a.customThemes, isBuiltInId b t.id = false
  valid : ∀ t ∈ a.customThemes, t.validate = .ok ()

structure Coherent (b : BuiltInThemes ρ ε) (a : Appearance ρ ε) : Prop extends Arranged b a where
  selected : Selected b a

def ThemeOp.replacement? : ThemeOp ρ ε → Option (ThemeFile ρ ε)
  | install theme .replace => some theme
  | update theme => some theme
  | _ => none

def Supported (b : BuiltInThemes ρ ε) (a : Appearance ρ ε) (op : ThemeOp ρ ε) : Prop :=
  ∀ t, op.replacement? = some t → t.validate = .ok () → isBuiltInId b t.id = false →
    ∀ appearance, a.selectedThemes.get appearance = t.id → t.supports appearance = true

/-- The library is held in memory, also after so many more operations. -/
def Room (b : BuiltInThemes ρ ε) (a : Appearance ρ ε) (ops : ℕ) : Prop :=
  a.customThemes.length + b.themes.length + ops + 3 ≤ usizeMax

namespace Appearance

theorem arranged_push (ha : Arranged b a) (hvalid : t.validate = .ok ())
    (hfree : t.id ∉ takenIds b a.customThemes) : Arranged b (a.push t) := by
  rw [mem_takenIds, not_or] at hfree
  refine ⟨?_, ?_, ?_⟩
  · rw [push, map_append, map_singleton, ← concat_eq_append]
    refine nodup_concat _ _ |>.mpr ⟨fun hmem => hfree.2 ?_, ha.distinct⟩
    obtain ⟨s, hs, hid⟩ := List.mem_map.mp hmem
    exact ⟨s, hs, hid⟩
  · exact forall_mem_append.mpr ⟨ha.apart, forall_mem_singleton.mpr
      (Bool.eq_false_iff.mpr hfree.1)⟩
  · exact forall_mem_append.mpr ⟨ha.valid, forall_mem_singleton.mpr hvalid⟩

theorem arranged_replace (ha : Arranged b a) (hvalid : t.validate = .ok ())
    (hid : isBuiltInId b t.id = false) {i : ℕ} (hi : a.position t.id = some i) :
    Arranged b (a.replace i t) := by
  refine ⟨?_, fun s hs => ?_, fun s hs => ?_⟩
  · rw [replace, map_set_findIdx? hi]
    exact ha.distinct
  · exact (mem_or_eq_of_mem_set hs).elim (ha.apart s) fun heq => heq ▸ hid
  · exact (mem_or_eq_of_mem_set hs).elim (ha.valid s) fun heq => heq ▸ hvalid

variable {id : String}

theorem arranged_remove (ha : Arranged b a) : Arranged b (a.removeCustomTheme b id).2 := by
  unfold removeCustomTheme
  split_ifs
  · exact ha
  · split
    · exact ha
    · exact ⟨ha.distinct.sublist ((eraseIdx_sublist _ _).map _),
        fun t ht => ha.apart t (mem_of_mem_eraseIdx ht),
        fun t ht => ha.valid t (mem_of_mem_eraseIdx ht)⟩

theorem selected_remove (ha : Arranged b a) (hs : Selected b a) :
    Selected b (a.removeCustomTheme b id).2 := by
  have hreset : Arranged b (a.removeCustomTheme b id).2 := arranged_remove ha
  unfold removeCustomTheme at hreset ⊢
  split_ifs at hreset ⊢ with hid
  · exact hs
  · cases hi : a.position id with
    | none => exact hs
    | some i =>
      rw [hi] at hreset
      intro appearance
      have hget : ∀ f : String → String, (⟨f a.selectedThemes.light, f a.selectedThemes.dark⟩ :
          SelectedThemes).get appearance = f (a.selectedThemes.get appearance) := by
        intro f
        cases appearance <;> rfl
      dsimp only
      rw [hget fun selected => if selected = id then defaultThemeId else selected, lookup_eq]
      dsimp only
      by_cases heq : a.selectedThemes.get appearance = id
      · rw [if_pos heq]
        obtain ⟨t, ht, hsupports⟩ := b.default
        refine ⟨t, ?_, hsupports appearance⟩
        have hnone : (a.customThemes.eraseIdx i).find? (fun t => t.id = defaultThemeId) = none := by
          refine find?_eq_none.mpr fun t ht hdefault => ?_
          have hapart := hreset.apart t ht
          rw [of_decide_eq_true hdefault] at hapart
          simp [isBuiltInId] at hapart
        rw [hnone, none_or, ht]
      · rw [if_neg heq]
        obtain ⟨t, ht, hsupports⟩ := hs appearance
        refine ⟨t, ?_, hsupports⟩
        rw [find?_eraseIdx_findIdx? hi heq, ← lookup_eq]
        exact ht

end Appearance

/-- The operation puts no theme in the place of another. -/
def Idle (b : BuiltInThemes ρ ε) (a : Appearance ρ ε) (op : ThemeOp ρ ε) : Prop :=
  ∀ t, op.replacement? = some t → t.validate = .ok () → isBuiltInId b t.id = false →
    a.position t.id = none

/-- What an operation makes of the library. -/
inductive Outcome (b : BuiltInThemes ρ ε) (a : Appearance ρ ε) (op : ThemeOp ρ ε) :
    Appearance ρ ε → Prop
  | same (hidle : Idle b a op) : Outcome b a op a
  | selects (hidle : Idle b a op) (half : ThemeAppearance) (id : String) (t : ThemeFile ρ ε)
      (hlookup : a.lookup b id = some t) (hsupports : t.supports half = true) :
      Outcome b a op { a with selectedThemes := a.selectedThemes.set id half }
  | pushes (hidle : Idle b a op) (t : ThemeFile ρ ε) (hvalid : t.validate = .ok ())
      (hfree : t.id ∉ takenIds b a.customThemes) : Outcome b a op (a.push t)
  | replaces (t : ThemeFile ρ ε) (i : ℕ) (hop : op.replacement? = some t)
      (hvalid : t.validate = .ok ()) (hid : isBuiltInId b t.id = false)
      (hi : a.position t.id = some i) : Outcome b a op (a.replace i t)
  | removes (hidle : Idle b a op) (id : String) : Outcome b a op (a.removeCustomTheme b id).2

theorem idle_of_none {op : ThemeOp ρ ε} (h : op.replacement? = none) : Idle b a op := by
  intro t ht
  rw [h] at ht
  cases ht

theorem validate_unique (hroom : Room b a 1) (hvalid : t.validate = .ok ()) :
    { t with id := uniqueNumberedId t.id b a.customThemes }.validate = .ok () := by
  refine ThemeFile.validate_numbered hvalid ?_
  have hle := @Numbering.firstFree_le _ _ (takenIds b a.customThemes) _ (candidate_injective t.id)
  have hlength : (takenIds b a.customThemes).length =
      b.themes.length + a.customThemes.length + 1 := by simp [takenIds]
  unfold Room usizeMax at hroom
  rw [hlength] at hle
  exact Nat.lt_of_le_of_lt (by omega : _ ≤ 18446744073709551615) (by decide)

theorem outcome_install (hroom : Room b a 1) (t : ThemeFile ρ ε) (conflict : ThemeConflictPolicy) :
    Outcome b a (.install t conflict) (a.installCustomTheme b t conflict).2 := by
  have hidle : (t.validate = .ok () → isBuiltInId b t.id = false → a.position t.id = none) →
      Idle b a (.install t conflict) := by
    intro h s hs
    cases conflict <;> cases hs
    exact h
  unfold Appearance.installCustomTheme
  cases hvalid : t.validate with
  | error e => exact .same (hidle fun h => by rw [hvalid] at h; cases h)
  | ok _ =>
    dsimp only
    cases hbuiltIn : isBuiltInId b t.id with
    | true =>
      cases conflict with
      | reject => exact .same (idle_of_none rfl)
      | replace => exact .same (hidle fun _ h => by rw [hbuiltIn] at h; cases h)
      | keepBoth =>
        exact .pushes (idle_of_none rfl) _ (validate_unique hroom hvalid)
          (uniqueNumberedId_free _ _)
    | false =>
      cases hposition : a.position t.id with
      | none =>
        exact .pushes (hidle fun _ _ => hposition) t hvalid
          (Appearance.not_mem_takenIds hbuiltIn hposition)
      | some i =>
        cases conflict with
        | reject => exact .same (idle_of_none rfl)
        | replace => exact .replaces t i rfl hvalid hbuiltIn hposition
        | keepBoth =>
          exact .pushes (idle_of_none rfl) _ (validate_unique hroom hvalid)
            (uniqueNumberedId_free _ _)

theorem outcome_update (t : ThemeFile ρ ε) : Outcome b a (.update t) (a.updateCustomTheme b t).2 := by
  have hidle : (t.validate = .ok () → isBuiltInId b t.id = false → a.position t.id = none) →
      Idle b a (.update t) := by
    intro h s hs
    cases hs
    exact h
  unfold Appearance.updateCustomTheme
  cases hvalid : t.validate with
  | error e => exact .same (hidle fun h => by rw [hvalid] at h; cases h)
  | ok _ =>
    cases hbuiltIn : isBuiltInId b t.id with
    | true => exact .same (hidle fun _ h => by rw [hbuiltIn] at h; cases h)
    | false =>
      cases hposition : a.position t.id with
      | none => exact .same (hidle fun _ _ => hposition)
      | some i => exact .replaces t i rfl hvalid hbuiltIn hposition

theorem outcome_duplicate (themeId : String) :
    Outcome b a (.duplicate themeId) (a.duplicateTheme b themeId).2 := by
  have hidle : Idle b a (.duplicate themeId) := idle_of_none rfl
  unfold Appearance.duplicateTheme
  cases a.lookup b themeId with
  | none => exact .same hidle
  | some source =>
    dsimp only
    split
    · exact .same hidle
    · rename_i hvalid
      refine .pushes hidle _ hvalid ?_
      dsimp only
      split_ifs with hfree
      · exact idIsAvailable_iff.mp hfree
      · exact uniqueNumberedId_free _ _

theorem outcome_select (half : ThemeAppearance) (themeId : String) :
    Outcome b a (.select half themeId) (a.selectTheme b half themeId).2 := by
  have hidle : Idle b a (.select half themeId) := idle_of_none rfl
  unfold Appearance.selectTheme
  dsimp only
  cases hlookup : a.lookup b (trim themeId) with
  | none => exact .same hidle
  | some t =>
    dsimp only
    split_ifs with hsupports
    · exact .selects hidle half _ t hlookup hsupports
    · exact .same hidle

theorem outcome (hroom : Room b a 1) (op : ThemeOp ρ ε) : Outcome b a op (op.run b a).2 := by
  cases op with
  | select half themeId => exact outcome_select half themeId
  | install t conflict => exact outcome_install hroom t conflict
  | update t => exact outcome_update t
  | duplicate themeId => exact outcome_duplicate themeId
  | remove themeId => exact .removes (idle_of_none rfl) themeId

theorem error_unchanged {op : ThemeOp ρ ε} {e : ThemeError} (h : (op.run b a).1 = .error e) :
    (op.run b a).2 = a := by
  revert h
  cases op <;>
    dsimp only [ThemeOp.run, Appearance.selectTheme, Appearance.installCustomTheme,
      Appearance.updateCustomTheme, Appearance.duplicateTheme, Appearance.removeCustomTheme] <;>
    (repeat' split) <;> intro h <;> first | rfl | cases h

variable {op : ThemeOp ρ ε} {a' : Appearance ρ ε}

theorem arranged_outcome (ha : Arranged b a) (h : Outcome b a op a') : Arranged b a' := by
  cases h with
  | same => exact ha
  | selects => exact ⟨ha.distinct, ha.apart, ha.valid⟩
  | pushes _ t hvalid hfree => exact Appearance.arranged_push ha hvalid hfree
  | replaces t i _ hvalid hid hi => exact Appearance.arranged_replace ha hvalid hid hi
  | removes _ id => exact Appearance.arranged_remove ha

theorem supported_of_idle (hs : Selected b a) (hidle : Idle b a op) : Supported b a op := by
  intro t hop hvalid hid half hhalf
  obtain ⟨s, hlookup, -⟩ := hs half
  obtain ⟨i, hi⟩ := Appearance.exists_position (hhalf ▸ hlookup) hid
  rw [hidle t hop hvalid hid] at hi
  cases hi

theorem selected_outcome_iff (ha : Coherent b a) (h : Outcome b a op a') :
    Selected b a' ↔ Supported b a op := by
  cases h with
  | same hidle => exact ⟨fun _ => supported_of_idle ha.selected hidle, fun _ => ha.selected⟩
  | selects hidle half id t hlookup hsupports =>
    refine ⟨fun _ => supported_of_idle ha.selected hidle, fun _ other => ?_⟩
    dsimp only
    rw [Appearance.get_set]
    split_ifs with hother
    · exact ⟨t, hlookup, hother ▸ hsupports⟩
    · exact ha.selected other
  | pushes hidle t hvalid hfree =>
    exact ⟨fun _ => supported_of_idle ha.selected hidle,
      fun _ => Appearance.selected_push ha.selected hfree⟩
  | replaces t i hop hvalid hid hi =>
    rw [Appearance.selected_replace ha.selected hi]
    constructor
    · intro h s hs _ _
      rw [hop] at hs
      exact some.inj hs ▸ h
    · exact fun h => h t hop hvalid hid
  | removes hidle id =>
    exact ⟨fun _ => supported_of_idle ha.selected hidle,
      fun _ => Appearance.selected_remove ha.toArranged ha.selected⟩

theorem length_outcome (h : Outcome b a op a') :
    a'.customThemes.length ≤ a.customThemes.length + 1 := by
  cases h with
  | same | selects => exact Nat.le_succ _
  | pushes => simp [Appearance.push]
  | replaces => simp [Appearance.replace]
  | removes _ id =>
    unfold Appearance.removeCustomTheme
    split_ifs
    · exact Nat.le_succ _
    · split
      · exact Nat.le_succ _
      · exact Nat.le_succ_of_le (length_eraseIdx_le _ _)

def ThemeOp.next (b : BuiltInThemes ρ ε) (a : Appearance ρ ε) (op : ThemeOp ρ ε) : Appearance ρ ε :=
  (op.run b a).2

theorem arranged_run (ops : List (ThemeOp ρ ε)) (ha : Arranged b a) (hroom : Room b a ops.length) :
    Arranged b (ops.foldl (ThemeOp.next b) a) := by
  induction ops generalizing a with
  | nil => exact ha
  | cons op ops ih =>
    unfold Room at hroom
    rw [length_cons] at hroom
    have hstep : Outcome b a op (ThemeOp.next b a op) := outcome (by unfold Room; omega) op
    have hlength := length_outcome hstep
    exact ih (arranged_outcome ha hstep) (by unfold Room; omega)

theorem coherent_run_iff (ops : List (ThemeOp ρ ε)) (ha : Coherent b a)
    (hroom : Room b a ops.length) :
    (∀ done, done <+: ops → Selected b (done.foldl (ThemeOp.next b) a)) ↔
      Loop.Along (ThemeOp.next b) (Supported b) a ops := by
  induction ops generalizing a with
  | nil =>
    refine ⟨fun _ => trivial, fun _ done hdone => ?_⟩
    rw [prefix_nil.mp hdone]
    exact ha.selected
  | cons op ops ih =>
    unfold Room at hroom
    rw [length_cons] at hroom
    have hstep : Outcome b a op (ThemeOp.next b a op) := outcome (by unfold Room; omega) op
    have hlength := length_outcome hstep
    have harranged := arranged_outcome ha.toArranged hstep
    have hselected := selected_outcome_iff ha hstep
    constructor
    · intro h
      have hone := h [op] (prefix_append [op] ops)
      exact ⟨hselected.mp hone, (ih ⟨harranged, hone⟩ (by unfold Room; omega)).mp
        fun done hdone => h (op :: done) (cons_prefix_cons.mpr ⟨rfl, hdone⟩)⟩
    · rintro ⟨hsupported, hrest⟩ done hdone
      have hone := hselected.mpr hsupported
      cases done with
      | nil => exact ha.selected
      | cons first done =>
        obtain ⟨hfirst, hdone⟩ := cons_prefix_cons.mp hdone
        rw [hfirst, foldl_cons]
        exact (ih ⟨harranged, hone⟩ (by unfold Room; omega)).mpr hrest done hdone

/-- Over every run the custom themes stay apart and valid, a refused operation changes nothing and
the numbering ends at a free identifier; the selection stays sound exactly where selected themes are
replaced by ones that support what they are selected for. -/
theorem theme_library (b : BuiltInThemes ρ ε) (a : Appearance ρ ε) (ops : List (ThemeOp ρ ε))
    (ha : Coherent b a) (hroom : Room b a ops.length) :
    (∀ done, done <+: ops → Arranged b (done.foldl (ThemeOp.next b) a)) ∧
    (∀ (a : Appearance ρ ε) (op : ThemeOp ρ ε) (e : ThemeError),
      (op.run b a).1 = .error e → ThemeOp.next b a op = a) ∧
    (∀ (base : String) (themes : List (ThemeFile ρ ε)),
      uniqueNumberedId base b themes ∉ takenIds b themes) ∧
    ((∀ done, done <+: ops → Selected b (done.foldl (ThemeOp.next b) a)) ↔
      Loop.Along (ThemeOp.next b) (Supported b) a ops) := by
  refine ⟨fun done hdone => arranged_run done ha.toArranged ?_, fun a op e => error_unchanged,
    uniqueNumberedId_free, coherent_run_iff ops ha hroom⟩
  have hlength := hdone.length_le
  unfold Room at hroom ⊢
  omega

/-- A palette of a single role. -/
instance soleRole : ThemeRoles Unit := ⟨[()]⟩

def plainTheme (id : String) (dark : Option (ThemeColors Unit)) : ThemeFile Unit Unit :=
  ⟨1, id, "Night", .light, none, none, ⟨[((), "#123456")]⟩, ⟨none, dark, none, none⟩⟩

def nightColors : ThemeColors Unit := ⟨[((), "#000000")]⟩

def soleCatalog : BuiltInThemes Unit Unit where
  themes := [plainTheme defaultThemeId (some nightColors)]
  default := by
    refine ⟨_, rfl, fun appearance => ?_⟩
    cases appearance <;> rfl

def nightLibrary : Appearance Unit Unit :=
  ⟨[plainTheme "night" (some nightColors)], ⟨defaultThemeId, "night"⟩⟩

theorem coherent_nightLibrary : Coherent soleCatalog nightLibrary where
  distinct := nodup_singleton _
  apart := forall_mem_singleton.mpr rfl
  valid := forall_mem_singleton.mpr rfl
  selected := by
    intro appearance
    cases appearance <;> exact ⟨_, rfl, rfl⟩

theorem theme_library_night :
    Arranged soleCatalog (ThemeOp.next soleCatalog nightLibrary (.remove "night")) :=
  (theme_library soleCatalog nightLibrary [.remove "night"] coherent_nightLibrary
    (by unfold Room; decide)).1 [.remove "night"] (List.prefix_refl _)

/-- A theme selected for dark is updated to one without a dark palette, and stays selected. -/
theorem selected_theme_loses_palette : Coherent soleCatalog nightLibrary ∧
    ¬Selected soleCatalog
      (ThemeOp.next soleCatalog nightLibrary (.update (plainTheme "night" none))) := by
  refine ⟨coherent_nightLibrary, fun h => ?_⟩
  obtain ⟨t, ht, hsupports⟩ := h .dark
  have hupdated : (ThemeOp.next soleCatalog nightLibrary
      (.update (plainTheme "night" none))).lookup soleCatalog "night" =
        some (plainTheme "night" none) := rfl
  obtain rfl : t = plainTheme "night" none := Option.some.inj (ht.symm.trans hupdated)
  cases hsupports

end Soloist
