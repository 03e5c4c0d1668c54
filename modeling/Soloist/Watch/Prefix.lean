import Soloist.Watch.Plan

/-! The directory a glob's matches are watched at, against what the glob matches. The glob compiler
is not part of the program: of its documented syntax only what stands in front of the first
construct matters here. -/
open List

namespace Soloist

/-- The characters that start a construct of the glob syntax, the backslash apart. -/
def globConstructs : List Char := ['*', '?', '[', '\x7b']

/-- What the documented syntax says of a pattern and a text it matches: up to its first construct a
character stands for itself, and one behind a backslash too. -/
inductive Spells : List Char → List Char → Prop
  | done : Spells [] []
  | literal {c : Char} {pattern text : List Char} (hplain : c ∉ globConstructs) (hc : c ≠ '\\')
      (h : Spells pattern text) : Spells (c :: pattern) (c :: text)
  | escaped {c : Char} {pattern text : List Char} (h : Spells pattern text) :
    Spells ('\\' :: c :: pattern) (c :: text)
  | construct {c : Char} (hc : c ∈ globConstructs) (pattern text : List Char) :
    Spells (c :: pattern) text

/-- The components of a pattern or of a relative path. -/
def segments (text : String) : List String := (text.toList.splitOn '/').map String.ofList

/-- A relative path as it is reported: names with single separators between them. -/
def Reported (text : String) : Prop := ∀ name ∈ segments text, name ≠ "" ∧ name ≠ "."

/-- The path lies under the watched directory, or in the root itself where none is watched. -/
def Covered (glob text : String) : Prop :=
  match literalPrefix glob with
  | none => (segments text).length ≤ 1
  | some directory => joinSegments [] directory <+: joinSegments [] (segments text)

def leading (glob : String) : List String :=
  (segments glob).dropLast.takeWhile fun component => !hasMetacharacter component

section Spelled
variable {line pattern text : List Char}

theorem hasMetacharacter_ofList :
    hasMetacharacter (String.ofList line) = line.any fun c => c ∈ metacharacters := by
  rw [hasMetacharacter, String.toList_ofList]

theorem Spells.cons {c : Char} (h : Spells (c :: pattern) text) : c ∈ globConstructs ∨
    (c ≠ '\\' ∧ ∃ rest, text = c :: rest ∧ Spells pattern rest) ∨
    c = '\\' ∧ ∃ d after rest, pattern = d :: after ∧ text = d :: rest ∧ Spells after rest := by
  cases h with
  | construct hc => exact .inl hc
  | literal hplain hc h => exact .inr (.inl ⟨hc, _, rfl, h⟩)
  | escaped h => exact .inr (.inr ⟨rfl, _, _, _, rfl, rfl, h⟩)

variable {n : ℕ}

/-- What a component without metacharacters matches: one name, and itself unless it has a
backslash, which the name is shorter by. -/
theorem Spells.component (hn : line.length ≤ n) (hsep : '/' ∉ line)
    (hplain : ∀ c ∈ line, c ∉ metacharacters) (h : Spells (line ++ '/' :: pattern) text) :
    ∃ name rest, text = name ++ '/' :: rest ∧ '/' ∉ name ∧ Spells pattern rest ∧
      ('\\' ∉ line → name = line) ∧ ('\\' ∈ line → name.length < line.length) := by
  have hslash : ∀ {text}, Spells ('/' :: pattern) text →
      ∃ rest, text = '/' :: rest ∧ Spells pattern rest := by
    intro text h
    rcases h.cons with hc | ⟨-, hrest⟩ | ⟨hc, -⟩
    · exact absurd hc (by decide)
    · exact hrest
    · exact absurd hc (by decide)
  induction n generalizing line text with
  | zero =>
    obtain rfl := eq_nil_of_length_eq_zero (Nat.le_zero.mp hn)
    obtain ⟨rest, rfl, hthen⟩ := hslash h
    exact ⟨[], rest, rfl, by simp, hthen, fun _ => rfl, by simp⟩
  | succ n ih =>
    cases line with
    | nil =>
      obtain ⟨rest, rfl, hthen⟩ := hslash h
      exact ⟨[], rest, rfl, by simp, hthen, fun _ => rfl, by simp⟩
    | cons c line =>
      rw [mem_cons, not_or] at hsep
      rw [length_cons] at hn
      have hrest : ∀ d ∈ line, d ∉ metacharacters := fun d hd =>
        hplain d (.tail _ hd)
      rcases Spells.cons h with
        hc | ⟨hc, rest, rfl, hthen⟩ | ⟨rfl, d, after, rest, hafter, rfl, hthen⟩
      · exact absurd hc (hplain c (.head _))
      · obtain ⟨name, rest, rfl, hname, hspells, hsame, hshort⟩ :=
          ih (by omega) hsep.2 hrest hthen
        refine ⟨c :: name, rest, rfl, ?_, hspells, ?_, ?_⟩
        · simp [hsep.1, hname]
        · intro hnone
          rw [hsame fun hmem => hnone (.tail _ hmem)]
        · intro hmem
          have hmem : '\\' ∈ line := (mem_cons.mp hmem).resolve_left (Ne.symm hc)
          simpa using hshort hmem
      · cases line with
        | nil =>
          -- the backslash stands in front of the separator, which it leaves as it is
          obtain ⟨rfl, rfl⟩ := List.cons.inj hafter
          exact ⟨[], rest, rfl, by simp, hthen, by simp, by simp⟩
        | cons e line =>
          obtain ⟨rfl, rfl⟩ := List.cons.inj hafter
          rw [mem_cons, not_or] at hsep
          rw [length_cons] at hn
          obtain ⟨name, rest, rfl, hname, hspells, hsame, hshort⟩ :=
            ih (by omega) hsep.2.2 (fun c hc => hrest c (.tail _ hc)) hthen
          refine ⟨e :: name, rest, rfl, by simp [hsep.2.1, hname], hspells, by simp, fun _ => ?_⟩
          have hle : name.length ≤ line.length := by
            by_cases hmem : '\\' ∈ line
            · exact Nat.le_of_lt (hshort hmem)
            · exact Nat.le_of_eq (congrArg List.length (hsame hmem))
          simp only [length_cons]
          omega

def leadingParts (pattern : List Char) : List (List Char) :=
  (pattern.splitOn '/').dropLast.takeWhile fun line => !line.any fun c => c ∈ metacharacters

theorem leading_eq (glob : String) :
    leading glob = (leadingParts glob.toList).map String.ofList := by
  unfold leading segments leadingParts
  rw [← map_dropLast, takeWhile_map]
  congr 2
  funext line
  exact congrArg _ hasMetacharacter_ofList

theorem leadingParts_of_not_mem (h : '/' ∉ pattern) : leadingParts pattern = [] := by
  rw [leadingParts, splitOn_eq_singleton h]
  rfl

theorem leadingParts_append (h : '/' ∉ line) : leadingParts (line ++ '/' :: pattern) =
    if (line.any fun c => c ∈ metacharacters) = true then [] else line :: leadingParts pattern := by
  have hne := splitOn_ne_nil '/' pattern
  unfold leadingParts
  rw [splitOn_append_cons_self_of_not_mem h, dropLast_cons_of_ne_nil hne]
  cases hmeta : line.any fun c => c ∈ metacharacters <;> simp [hmeta]

theorem Spells.leading (hn : pattern.length ≤ n) (h : Spells pattern text)
    (hplain : ∀ line ∈ leadingParts pattern, '\\' ∉ line) :
    leadingParts pattern <+: text.splitOn '/' := by
  induction n generalizing pattern text with
  | zero =>
    obtain rfl := eq_nil_of_length_eq_zero (Nat.le_zero.mp hn)
    exact nil_prefix
  | succ n ih =>
    by_cases hsep : '/' ∈ pattern
    · obtain ⟨line, rest, rfl, hline⟩ := eq_append_cons_of_mem hsep
      rw [leadingParts_append hline] at hplain ⊢
      split_ifs at hplain ⊢ with hmeta
      · exact nil_prefix
      · have hliteral : ∀ c ∈ line, c ∉ metacharacters := by simpa using hmeta
        obtain ⟨name, after, rfl, hname, hspells, hsame, -⟩ :=
          Spells.component (Nat.le_refl _) hline hliteral h
        rw [hsame (hplain line (.head _)),
          splitOn_append_cons_self_of_not_mem hline]
        rw [List.length_append, length_cons] at hn
        refine cons_prefix_cons.mpr ⟨rfl, ih (by omega) hspells ?_⟩
        exact fun other hother => hplain other (.tail _ hother)
    · rw [leadingParts_of_not_mem hsep]
      exact nil_prefix

/-- Where the leading components, as a path, begin a reported one, none has a backslash. -/
theorem Spells.plain (hn : pattern.length ≤ n) (h : Spells pattern text)
    (hreported : ∀ name ∈ text.splitOn '/', name ≠ [] ∧ name ≠ ['.'])
    (hunder : ((leadingParts pattern).filter fun line => line ≠ [] ∧ line ≠ ['.']) <+:
      text.splitOn '/') : ∀ line ∈ leadingParts pattern, '\\' ∉ line := by
  induction n generalizing pattern text with
  | zero =>
    obtain rfl := eq_nil_of_length_eq_zero (Nat.le_zero.mp hn)
    intro line hline
    simp [leadingParts] at hline
  | succ n ih =>
    by_cases hsep : '/' ∈ pattern
    · obtain ⟨line, rest, rfl, hline⟩ := eq_append_cons_of_mem hsep
      rw [leadingParts_append hline] at hunder ⊢
      split_ifs at hunder ⊢ with hmeta
      · simp
      · have hliteral : ∀ c ∈ line, c ∉ metacharacters := by simpa using hmeta
        obtain ⟨name, after, rfl, hname, hspells, hsame, hshort⟩ :=
          Spells.component (Nat.le_refl _) hline hliteral h
        rw [splitOn_append_cons_self_of_not_mem hname] at hreported hunder
        have hne : line ≠ [] ∧ line ≠ ['.'] := by
          by_cases hmem : '\\' ∈ line
          · constructor
            · rintro rfl
              simp at hmem
            · rintro rfl
              simp at hmem
          · rw [← hsame hmem]
            exact hreported name (.head _)
        rw [filter_cons_of_pos (by simpa using hne), cons_prefix_cons] at hunder
        have hnone : '\\' ∉ line := by
          intro hmem
          have hlt := hshort hmem
          rw [hunder.1] at hlt
          omega
        rw [List.length_append, length_cons] at hn
        have hothers := ih (by omega) hspells
          (fun other hother => hreported other (.tail _ hother)) hunder.2
        intro other hother
        rcases mem_cons.mp hother with rfl | hother
        · exact hnone
        · exact hothers other hother
    · rw [leadingParts_of_not_mem hsep]
      simp

/-- A component of a path that is neither empty nor `.`. -/
def toComponent (line : List Char) : Component :=
  if String.ofList line = ".." then .parentDir else .normal (String.ofList line)

theorem toComponent_injective {line other : List Char} (h : toComponent line = toComponent other) :
    line = other := by
  have hsame : String.ofList line = String.ofList other := by
    unfold toComponent at h
    split_ifs at h with hline hother hother
    · rw [hline, hother]
    · exact Component.normal.inj h
  exact String.ofList_inj.mp hsame

theorem joinSegments_ofList (lines : List (List Char)) :
    joinSegments [] (lines.map String.ofList) =
      (lines.filter fun line => line ≠ [] ∧ line ≠ ['.']).map toComponent := by
  have hkept : ∀ line : List Char,
      (String.ofList line ≠ "" ∧ String.ofList line ≠ ".") ↔ (line ≠ [] ∧ line ≠ ['.']) := by
    intro line
    have hempty : String.ofList line = "" ↔ line = [] := @String.ofList_inj line []
    have hdot : String.ofList line = "." ↔ line = ['.'] := @String.ofList_inj line ['.']
    rw [Ne, Ne, hempty, hdot]
  unfold joinSegments
  rw [nil_append, List.filter_map, map_map]
  congr 1
  refine filter_congr fun line _ => ?_
  exact decide_eq_decide.mpr (hkept line)

theorem Reported.lines {path : String} (h : Reported path) :
    ∀ name ∈ path.toList.splitOn '/', name ≠ [] ∧ name ≠ ['.'] := by
  intro name hname
  obtain ⟨hempty, hdot⟩ := h (String.ofList name) (mem_map_of_mem hname)
  constructor
  · rintro rfl
    exact hempty rfl
  · rintro rfl
    exact hdot rfl

end Spelled

/-- The watched directory is the leading components, unless there are none. -/
theorem literalPrefix_cases (glob : String) :
    literalPrefix glob = some (leading glob) ∨
      literalPrefix glob = none ∧ leading glob = [] ∧ ∃ only, segments glob = [only] ∧
        hasMetacharacter only = false := by
  unfold literalPrefix
  dsimp only
  by_cases hliteral : leading glob = []
  · have hliteral' := hliteral
    unfold leading segments at hliteral'
    rw [if_neg (not_not.mpr hliteral'), hliteral]
    unfold segments
    split
    next only hsplit =>
      cases hmeta : hasMetacharacter only with
      | false => exact .inr ⟨rfl, rfl, only, hsplit, hmeta⟩
      | true => exact .inl rfl
    next => exact .inl rfl
  · left
    exact if_pos hliteral

/-- A single name without metacharacters matches in the root alone. -/
theorem Spells.single {n : ℕ} {pattern text : List Char} (hn : pattern.length ≤ n)
    (h : Spells pattern text) (hsep : '/' ∉ pattern) (hplain : ∀ c ∈ pattern, c ∉ metacharacters) :
    '/' ∉ text := by
  induction n generalizing pattern text with
  | zero =>
    obtain rfl := eq_nil_of_length_eq_zero (Nat.le_zero.mp hn)
    cases h
    simp
  | succ n ih =>
    cases pattern with
    | nil =>
      cases h
      simp
    | cons c pattern =>
      rw [length_cons] at hn
      rw [mem_cons, not_or] at hsep
      have hrest : ∀ d ∈ pattern, d ∉ metacharacters := fun d hd =>
        hplain d (.tail _ hd)
      rcases h.cons with hc | ⟨-, rest, rfl, hthen⟩ | ⟨-, d, after, rest, rfl, rfl, hthen⟩
      · exact absurd hc (hplain c (.head _))
      · have hnone := ih (by omega) hthen hsep.2 hrest
        simp [hsep.1, hnone]
      · rw [mem_cons, not_or] at hsep
        rw [length_cons] at hn
        have hnone := ih (by omega) hthen hsep.2.2 fun e he => hrest e (.tail _ he)
        simp [hsep.2.1, hnone]

section Watched
variable {glob path : String}

theorem covered_of_plain (h : Spells glob.toList path.toList)
    (hplain : ∀ component ∈ leading glob, '\\' ∉ component.toList) : Covered glob path := by
  unfold Covered
  rcases literalPrefix_cases glob with hsome | ⟨hnone, -, only, honly, hmeta⟩
  · rw [hsome]
    have hlines : ∀ line ∈ leadingParts glob.toList, '\\' ∉ line := by
      intro line hline
      have hcomponent := hplain (String.ofList line)
        (leading_eq glob ▸ mem_map_of_mem hline)
      rwa [String.toList_ofList] at hcomponent
    have hbegins := Spells.leading (Nat.le_refl _) h hlines
    dsimp only
    rw [leading_eq, segments, joinSegments_ofList, joinSegments_ofList]
    exact (hbegins.filter _).map _
  · rw [hnone]
    have hlines : glob.toList.splitOn '/' = [only.toList] := by
      have hmapped := congrArg (List.map String.toList) honly
      simpa [segments, Function.comp_def] using hmapped
    have hpattern : glob.toList = only.toList := by
      rw [← @intercalate_splitOn _ glob.toList _ _ '/', hlines]
      simp [List.intercalate]
    have hsep : '/' ∉ glob.toList := by
      intro hmem
      obtain ⟨before, after, hglob, hbefore⟩ := eq_append_cons_of_mem hmem
      rw [hglob, splitOn_append_cons_self_of_not_mem hbefore] at hlines
      exact splitOn_ne_nil '/' after (List.cons.inj hlines).2
    have hliteral : ∀ c ∈ glob.toList, c ∉ metacharacters := by
      rw [hpattern]
      simpa [hasMetacharacter] using hmeta
    have hroot := Spells.single (Nat.le_refl _) h hsep hliteral
    dsimp only
    rw [segments, splitOn_eq_singleton hroot]
    exact Nat.le_refl 1

theorem plain_of_covered (h : Spells glob.toList path.toList) (hreported : Reported path)
    (hcovered : Covered glob path) :
    ∀ component ∈ leading glob, '\\' ∉ component.toList := by
  unfold Covered at hcovered
  rcases literalPrefix_cases glob with hsome | ⟨-, hleading, -⟩
  · rw [hsome] at hcovered
    dsimp only at hcovered
    rw [leading_eq, segments, joinSegments_ofList, joinSegments_ofList] at hcovered
    obtain ⟨kept, hkept, hsame⟩ := prefix_map_iff.mp hcovered
    rw [List.map_inj_right fun _ _ => toComponent_injective] at hsame
    have hall : ((path.toList.splitOn '/').filter fun line => line ≠ [] ∧ line ≠ ['.']) =
        path.toList.splitOn '/' :=
      filter_eq_self.mpr fun name hname => decide_eq_true (hreported.lines name hname)
    rw [hall, ← hsame] at hkept
    have hplain := Spells.plain (Nat.le_refl _) h hreported.lines hkept
    intro component hcomponent
    rw [leading_eq] at hcomponent
    obtain ⟨line, hline, rfl⟩ := mem_map.mp hcomponent
    rw [String.toList_ofList]
    exact hplain line hline
  · rw [hleading]
    simp

end Watched

/-- Watching the directory of a glob misses none of its matches exactly where no component of that
directory is written with a backslash. -/
theorem literalPrefix_covers_iff (isMatch : String → String → Bool)
    (hdocumented : ∀ glob path, isMatch glob path = true → Spells glob.toList path.toList)
    (glob path : String) (hmatch : isMatch glob path = true) :
    ((∀ component ∈ leading glob, '\\' ∉ component.toList) → Covered glob path) ∧
      (Reported path → Covered glob path →
        ∀ component ∈ leading glob, '\\' ∉ component.toList) :=
  have h := hdocumented glob path hmatch
  ⟨covered_of_plain h, plain_of_covered h⟩

def matchesOnly (g p glob path : String) : Bool := glob = g && path = p

theorem matchesOnly_documented {g p : String} (h : Spells g.toList p.toList) (glob path : String)
    (hmatch : matchesOnly g p glob path = true) : Spells glob.toList path.toList := by
  obtain ⟨rfl, rfl⟩ : glob = g ∧ path = p := by simpa [matchesOnly] using hmatch
  exact h

theorem literalPrefix_covers_iff_named : Covered "gen/*.ts" "gen/x.ts" := by
  have hspells : Spells "gen/*.ts".toList "gen/x.ts".toList :=
    .literal (by decide) (by decide) <| .literal (by decide) (by decide) <|
      .literal (by decide) (by decide) <| .literal (by decide) (by decide) <|
      .construct (by decide) _ _
  exact (literalPrefix_covers_iff (matchesOnly "gen/*.ts" "gen/x.ts")
    (matchesOnly_documented hspells) "gen/*.ts" "gen/x.ts" rfl).1 (by decide)

/-- The directory that is watched has a backslash in its name, and the one that matches has none. -/
theorem escaped_prefix_misses :
    ∃ isMatch : String → String → Bool,
      (∀ glob path, isMatch glob path = true → Spells glob.toList path.toList) ∧
      isMatch "\\-gen/*.ts" "-gen/x.ts" = true ∧ Reported "-gen/x.ts" ∧
      literalPrefix "\\-gen/*.ts" = some ["\\-gen"] ∧ ¬ Covered "\\-gen/*.ts" "-gen/x.ts" := by
  have hspells : Spells "\\-gen/*.ts".toList "-gen/x.ts".toList :=
    .escaped <| .literal (by decide) (by decide) <| .literal (by decide) (by decide) <|
      .literal (by decide) (by decide) <| .literal (by decide) (by decide) <|
      .construct (by decide) _ _
  refine ⟨matchesOnly "\\-gen/*.ts" "-gen/x.ts", matchesOnly_documented hspells, rfl, ?_, rfl, ?_⟩
  · unfold Reported
    decide
  · show ¬ joinSegments [] ["\\-gen"] <+: joinSegments [] (segments "-gen/x.ts")
    decide

end Soloist
