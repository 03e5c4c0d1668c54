import Soloist.Allowance
import Soloist.IndexMap
import Soloist.Template.Cache

/-! Rendering a prompt template: one pass over the tokens of its body, which the scan reads by the
grammar given here. -/
open List

namespace Soloist

inductive MissingPolicy
  | leaveVerbatim
  | strict
  deriving DecidableEq, Repr

/-- A value for each placeholder name, in the order of the names. -/
structure FillIns extends IndexMap String String where
  sorted : entries.Pairwise fun a b => a.1 < b.1

structure RenderRequest where
  name : String
  values : FillIns
  policy : MissingPolicy

structure RenderedPrompt where
  text : String
  /-- The declared names no value was supplied for, in the body's order. -/
  unfilled : List String
  /-- The supplied names the body does not declare, in their own order. -/
  unknown : List String
  deriving DecidableEq, Repr

inductive RenderError
  | templateNotFound
  | missingValues (names : List String)
  | renderedTooLarge (bytes cap : ℕ)
  | store (error : StoreError)
  deriving DecidableEq, Repr

def maxRenderedPrompt : ℕ := 256 * 1024

def Token.verbatim : Token → List Char
  | .literal text => text
  | .placeholder _ raw => raw
  | .escapedOpen => ['{', '{']

def piece (values : FillIns) : Token → String
  | .placeholder name raw => (values.get (String.ofList name)).getD (String.ofList raw)
  | other => String.ofList other.verbatim

def substitute (body : String) (values : FillIns) : Except RenderError String :=
  let bytes := ((scan body).map fun token => (piece values token).utf8ByteSize).foldl
    (fun total size => min (total + size) usizeMax) 0
  if maxRenderedPrompt < bytes then .error (.renderedTooLarge bytes maxRenderedPrompt)
  else .ok ((scan body).foldl (fun text token => text ++ piece values token) "")

def FillIns.classify (declared : List String) (values : FillIns) : List String × List String :=
  (declared.filter fun name => !values.contains name,
    values.keys.filter fun supplied => supplied ∉ declared)

def renderBody (body : String) (declared : List String) (request : RenderRequest) :
    Except RenderError RenderedPrompt :=
  let (unfilled, unknown) := FillIns.classify declared request.values
  if request.policy = .strict ∧ unfilled ≠ [] then .error (.missingValues unfilled)
  else (substitute body request.values).map fun text => ⟨text, unfilled, unknown⟩

def TemplateTable.render (t : TemplateTable) (fault : Option StoreError)
    (project : Option ProjectId) (request : RenderRequest) : Except RenderError RenderedPrompt :=
  match fault, (t.readOne .prompt project (trim request.name)).map TemplateView.of with
  | some error, _ => .error (.store error)
  | none, none => .error .templateNotFound
  | none, some template => renderBody template.body template.placeholders request

def backslashes (n : ℕ) : List Char := List.replicate n '\\'

def Token.words (text : List Char) : List Token := if text = [] then [] else [.literal text]

/-- What a closed marker is: a placeholder where its trimmed inner text is a plain name. -/
def Token.candidate (inner : List Char) : Token :=
  let raw := '{' :: '{' :: inner ++ ['}', '}']
  let name := (trim (String.ofList inner)).toList
  if name = [] || name.any (fun c => c = '{' || c = '}' || c = '\n') then .literal raw
  else .placeholder name raw

/-- The text and the whole run of backslashes in front of the first opening of a body. -/
structure Leads (text : List Char) (run : ℕ) : Prop where
  first : ¬ ['{', '{'] <:+: text ++ backslashes run ++ ['{']
  whole : text.getLast? ≠ some '\\'

/-- The tokens of a body, and how many of its backslashes they leave out: of a run in front of an
opening one in two stays, and an odd one suppresses the marker. -/
inductive Spelled : List Char → List Token → ℕ → Prop
  | nil : Spelled [] [] 0
  | plain {text : List Char} (htext : text ≠ []) (hopen : ¬ ['{', '{'] <:+: text) :
    Spelled text [.literal text] 0
  | escaped {text rest : List Char} {half dropped : ℕ} {tokens : List Token}
      (hleads : Leads text (2 * half + 1)) (hrest : Spelled rest tokens dropped) :
    Spelled (text ++ backslashes (2 * half + 1) ++ '{' :: '{' :: rest)
      (Token.words (text ++ backslashes half) ++ .escapedOpen :: tokens) (half + 1 + dropped)
  | unclosed {text inner : List Char} {half : ℕ} (hleads : Leads text (2 * half))
      (hclose : ¬ ['}', '}'] <:+: inner) :
    Spelled (text ++ backslashes (2 * half) ++ '{' :: '{' :: inner)
      (Token.words (text ++ backslashes half) ++ [.literal ('{' :: '{' :: inner)]) half
  | closed {text inner rest : List Char} {half dropped : ℕ} {tokens : List Token}
      (hleads : Leads text (2 * half)) (hclose : ¬ ['}', '}'] <:+: inner ++ ['}'])
      (hrest : Spelled rest tokens dropped) :
    Spelled (text ++ backslashes (2 * half) ++ '{' :: '{' :: (inner ++ '}' :: '}' :: rest))
      (Token.words (text ++ backslashes half) ++ .candidate inner :: tokens) (half + dropped)

section Scanned
variable {brace c : Char} {text before after rest inner : List Char}

theorem pair_infix_cons : [brace, brace] <:+: c :: rest ↔
    (c = brace ∧ rest.head? = some brace) ∨ [brace, brace] <:+: rest := by
  have hhead : [brace, brace] <+: c :: rest ↔ c = brace ∧ rest.head? = some brace := by
    cases rest with
    | nil => simp
    | cons d rest => simp [eq_comm]
  rw [infix_cons_iff, hhead]

theorem splitAtPair_none (h : splitAtPair brace text = none) : ¬ [brace, brace] <:+: text := by
  induction text with
  | nil => simp
  | cons c rest ih =>
    rw [splitAtPair] at h
    split_ifs at h with hpair
    rw [pair_infix_cons, not_or]
    exact ⟨hpair, ih (Option.map_eq_none_iff.mp h)⟩

theorem splitAtPair_first (h : splitAtPair brace text = some (before, after)) :
    ¬ [brace, brace] <:+: before ++ [brace] := by
  induction text generalizing before with
  | nil => cases h
  | cons c rest ih =>
    rw [splitAtPair] at h
    split_ifs at h with hpair
    · obtain ⟨rfl, rfl⟩ := Prod.mk.inj (Option.some.inj h)
      simp [pair_infix_cons]
    · obtain ⟨⟨first, last⟩, hrest, hsplit⟩ := Option.map_eq_some_iff.mp h
      obtain ⟨rfl, rfl⟩ := Prod.mk.inj hsplit
      rw [cons_append, pair_infix_cons, not_or]
      refine ⟨?_, ih hrest⟩
      rintro ⟨rfl, hhead⟩
      refine hpair ⟨rfl, ?_⟩
      rw [splitAtPair_append hrest]
      cases first with
      | nil => rfl
      | cons d first => exact hhead

/-- A text and the run of backslashes behind it, of which the code keeps a part. -/
theorem exists_run (before : List Char) : ∃ text run, before = text ++ backslashes run ∧
    text.getLast? ≠ some '\\' ∧ (before.reverse.takeWhile (· = '\\')).length = run ∧
    ∀ kept ≤ run, before.take (before.length - run + kept) = text ++ backslashes kept := by
  have hrun : (before.reverse.takeWhile (· = '\\')).reverse =
      backslashes (before.reverse.takeWhile (· = '\\')).length := by
    rw [← length_reverse, backslashes, ← eq_replicate_iff.mpr]
    exact ⟨rfl, fun c hc => by simpa using mem_takeWhile_imp (mem_reverse.mp hc)⟩
  have hbefore : before = (before.reverse.dropWhile (· = '\\')).reverse ++
      backslashes (before.reverse.takeWhile (· = '\\')).length := by
    rw [← hrun, ← reverse_append, takeWhile_append_dropWhile, reverse_reverse]
  refine ⟨_, _, hbefore, ?_, rfl, ?_⟩
  · rw [getLast?_reverse]
    intro hlast
    have hnot := head?_dropWhile_not (· = '\\') before.reverse
    rw [hlast] at hnot
    simp at hnot
  · intro kept hkept
    generalize (before.reverse.dropWhile (· = '\\')).reverse = text at hbefore ⊢
    generalize (before.reverse.takeWhile (· = '\\')).length = run at hbefore hkept ⊢
    subst hbefore
    have hcut : (text ++ backslashes run).length - run + kept = text.length + kept := by
      simp [backslashes]
    rw [hcut, take_length_add_append, backslashes, take_replicate, Nat.min_eq_left hkept]
    rfl

theorem scanFrom_succ (n : ℕ) (h : text ≠ []) : scanFrom (n + 1) text =
    Token.words (scanStep text).1 ++ (scanStep text).2.1 :: scanFrom n (scanStep text).2.2 := by
  cases text with
  | nil => exact absurd rfl h
  | cons c rest => rfl

theorem scanMarker_none (kept : List Char) (h : splitAtPair '}' inner = none) :
    scanMarker kept inner = (kept, .literal ('{' :: '{' :: inner), []) := by
  unfold scanMarker
  rw [h]

theorem scanMarker_some (kept : List Char) {marked : List Char}
    (h : splitAtPair '}' inner = some (marked, rest)) :
    scanMarker kept inner = (kept, .candidate marked, rest) := by
  unfold scanMarker
  rw [h]
  rfl

theorem spelled_scanFrom (n : ℕ) (body : List Char) (hn : body.length ≤ n) :
    ∃ dropped, Spelled body (scanFrom n body) dropped := by
  induction n generalizing body with
  | zero =>
    obtain rfl := eq_nil_of_length_eq_zero (Nat.le_zero.mp hn)
    exact ⟨0, .nil⟩
  | succ n ih =>
    cases body with
    | nil => exact ⟨0, .nil⟩
    | cons c rest =>
      have hlt := scanStep_lt (cons_ne_nil c rest)
      obtain ⟨dropped, hrest⟩ := ih (scanStep (c :: rest)).2.2 (by omega)
      rw [scanFrom_succ n (cons_ne_nil c rest)]
      unfold scanStep at hrest ⊢
      cases hopen : splitAtPair '{' (c :: rest) with
      | none =>
        rw [hopen] at hrest
        have hnone : scanFrom n [] = [] := by cases n <;> rfl
        refine ⟨0, ?_⟩
        dsimp only
        rw [hnone]
        exact .plain (cons_ne_nil c rest) (splitAtPair_none hopen)
      | some split =>
        obtain ⟨before, inner⟩ := split
        rw [hopen] at hrest
        have hfirst := splitAtPair_first hopen
        obtain ⟨text, run, rfl, hwhole, hrun, hkept⟩ := exists_run before
        rw [splitAtPair_append hopen]
        dsimp only at hrest ⊢
        rw [hrun] at hrest ⊢
        rw [hkept (run / 2) (Nat.div_le_self run 2)] at hrest ⊢
        have hleads : Leads text run := ⟨hfirst, hwhole⟩
        by_cases hodd : run % 2 = 1
        · rw [if_pos hodd] at hrest ⊢
          obtain ⟨half, rfl⟩ : ∃ half, run = 2 * half + 1 := ⟨run / 2, by omega⟩
          have hhalf : (2 * half + 1) / 2 = half := by omega
          rw [hhalf]
          exact ⟨_, .escaped hleads hrest⟩
        · rw [if_neg hodd] at hrest ⊢
          obtain ⟨half, rfl⟩ : ∃ half, run = 2 * half := ⟨run / 2, by omega⟩
          have hhalf : 2 * half / 2 = half := by omega
          rw [hhalf] at hrest ⊢
          cases hclose : splitAtPair '}' inner with
          | none =>
            have hnone : scanFrom n [] = [] := by cases n <;> rfl
            rw [scanMarker_none _ hclose]
            dsimp only
            rw [hnone]
            exact ⟨_, .unclosed hleads (splitAtPair_none hclose)⟩
          | some split =>
            obtain ⟨marked, remaining⟩ := split
            rw [scanMarker_some _ hclose] at hrest ⊢
            rw [splitAtPair_append hclose]
            dsimp only at hrest ⊢
            exact ⟨half + dropped, Spelled.closed hleads (splitAtPair_first hclose) hrest⟩

theorem spelled_scan (body : String) : ∃ dropped, Spelled body.toList (scan body) dropped :=
  spelled_scanFrom _ _ le_rfl

end Scanned

section Read
variable {body : List Char} {tokens : List Token} {dropped : ℕ}

theorem flatMap_words (text : List Char) : (Token.words text).flatMap Token.verbatim = text := by
  unfold Token.words
  split_ifs with htext
  · rw [htext]
    rfl
  · simp [Token.verbatim]

theorem verbatim_candidate (inner : List Char) :
    (Token.candidate inner).verbatim = '{' :: '{' :: (inner ++ ['}', '}']) := by
  unfold Token.candidate
  dsimp only
  split_ifs <;> rfl

theorem Spelled.verbatim (h : Spelled body tokens dropped) :
    (tokens.flatMap Token.verbatim).length + dropped = body.length ∧
      (dropped = 0 → tokens.flatMap Token.verbatim = body) := by
  induction h with
  | nil => exact ⟨rfl, fun _ => rfl⟩
  | plain htext hopen => simp [Token.verbatim]
  | escaped hleads hrest ih =>
    simp only [flatMap_append, flatMap_words, flatMap_cons, Token.verbatim,
      List.length_append, backslashes, length_replicate, length_cons, length_nil]
    omega
  | @unclosed text inner half hleads hclose =>
    simp only [flatMap_append, flatMap_words, flatMap_cons, Token.verbatim,
      flatMap_nil, append_nil]
    constructor
    · simp only [List.length_append, backslashes, length_replicate, length_cons]
      omega
    · rintro rfl
      rfl
  | @closed text inner rest half dropped tokens hleads hclose hrest ih =>
    simp only [flatMap_append, flatMap_words, flatMap_cons, verbatim_candidate]
    constructor
    · simp only [List.length_append, backslashes, length_replicate, length_cons,
        length_nil]
      omega
    · intro hzero
      obtain ⟨rfl, rfl⟩ : half = 0 ∧ dropped = 0 := by omega
      rw [ih.2 rfl]
      simp

theorem Spelled.eq_zero_iff (h : Spelled body tokens dropped) :
    tokens.flatMap Token.verbatim = body ↔ dropped = 0 := by
  refine ⟨fun hsame => ?_, h.verbatim.2⟩
  have hlength := h.verbatim.1
  rw [hsame] at hlength
  omega

theorem escape_within (text rest : List Char) (n : ℕ) :
    ['\\', '{', '{'] <:+: text ++ backslashes (n + 1) ++ '{' :: '{' :: rest :=
  ⟨text ++ backslashes n, rest, by simp [backslashes, List.replicate_succ']⟩

/-- Only a backslash in front of an opening is ever left out. -/
theorem Spelled.unescaped (h : Spelled body tokens dropped)
    (hnone : ¬ ['\\', '{', '{'] <:+: body) : dropped = 0 := by
  induction h with
  | nil | plain => rfl
  | escaped hleads hrest ih => exact absurd (escape_within _ _ _) hnone
  | @unclosed text inner half hleads hclose =>
    cases half with
    | zero => rfl
    | succ half => exact absurd (escape_within _ _ _) hnone
  | @closed text inner rest half dropped tokens hleads hclose hrest ih =>
    cases half with
    | zero =>
      refine (Nat.zero_add _).trans (ih fun hrest => hnone (hrest.trans ?_))
      exact ⟨text ++ '{' :: '{' :: inner ++ ['}', '}'], [], by simp [backslashes]⟩
    | succ half => exact absurd (escape_within _ _ _) hnone

end Read

section Substituted

theorem gathered_spec {f : List String → Token → List String}
    (hplaceholder : ∀ names name raw, f names (.placeholder name raw) =
      if String.ofList name ∈ names then names else names ++ [String.ofList name])
    (hliteral : ∀ names text, f names (.literal text) = names)
    (hescaped : ∀ names, f names .escapedOpen = names) (tokens : List Token)
    (names : List String) (hnodup : names.Nodup) :
    (tokens.foldl f names).Nodup ∧ ∀ name, name ∈ tokens.foldl f names ↔
      name ∈ names ∨ ∃ raw, Token.placeholder name.toList raw ∈ tokens := by
  induction tokens generalizing names with
  | nil => simp [hnodup]
  | cons token tokens ih =>
    rw [foldl_cons]
    cases token with
    | literal text =>
      rw [hliteral]
      simpa using ih names hnodup
    | escapedOpen =>
      rw [hescaped]
      simpa using ih names hnodup
    | placeholder inner raw =>
      rw [hplaceholder]
      have hsame : ∀ name : String, name = String.ofList inner ↔ name.toList = inner := by
        intro name
        constructor
        · rintro rfl
          exact String.toList_ofList
        · rintro rfl
          exact String.ofList_toList.symm
      by_cases hseen : String.ofList inner ∈ names
      · rw [if_pos hseen]
        obtain ⟨hfirst, hmem⟩ := ih names hnodup
        refine ⟨hfirst, fun name => (hmem name).trans ?_⟩
        constructor
        · rintro (hname | ⟨raw, hraw⟩)
          · exact .inl hname
          · exact .inr ⟨raw, .tail _ hraw⟩
        · rintro (hname | ⟨other, hother⟩)
          · exact .inl hname
          · rcases mem_cons.mp hother with hhead | hother
            · obtain ⟨hinner, -⟩ := Token.placeholder.inj hhead
              rw [(hsame name).mpr hinner]
              exact .inl hseen
            · exact .inr ⟨other, hother⟩
      · rw [if_neg hseen]
        have hnew : (names ++ [String.ofList inner]).Nodup := by
          simpa [nodup_append] using ⟨hnodup, fun name hname hsame => hseen (hsame ▸ hname)⟩
        obtain ⟨hfirst, hmem⟩ := ih _ hnew
        refine ⟨hfirst, fun name => (hmem name).trans ?_⟩
        rw [mem_append, mem_singleton]
        constructor
        · rintro ((hname | hname) | ⟨raw, hraw⟩)
          · exact .inl hname
          · rw [(hsame name).mp hname]
            exact .inr ⟨raw, (.head _)⟩
          · exact .inr ⟨raw, .tail _ hraw⟩
        · rintro (hname | ⟨other, hother⟩)
          · exact .inl (.inl hname)
          · rcases mem_cons.mp hother with hhead | hother
            · obtain ⟨hinner, -⟩ := Token.placeholder.inj hhead
              exact .inl (.inr ((hsame name).mpr hinner))
            · exact .inr ⟨other, hother⟩

variable {body : String} {values other : FillIns} {name : String}

theorem placeholders_spec (body : String) : (placeholders body).Nodup ∧
    ∀ name, name ∈ placeholders body ↔ ∃ raw, Token.placeholder name.toList raw ∈ scan body := by
  have hgathered : (placeholders body).Nodup ∧ ∀ name, name ∈ placeholders body ↔
      name ∈ ([] : List String) ∨ ∃ raw, Token.placeholder name.toList raw ∈ scan body := by
    unfold placeholders
    refine gathered_spec ?_ ?_ ?_ (scan body) [] nodup_nil
    · intro names name raw
      rfl
    · intro names text
      rfl
    · intro names
      rfl
  exact ⟨hgathered.1, fun name => (hgathered.2 name).trans (by simp)⟩

theorem saturating_sum (sizes : List ℕ) {cap start : ℕ} (hstart : start ≤ cap) :
    sizes.foldl (fun total size => min (total + size) cap) start = min (start + sizes.sum) cap := by
  induction sizes generalizing start with
  | nil => simpa using hstart
  | cons size sizes ih =>
    rw [foldl_cons, ih (Nat.min_le_right _ _), sum_cons]
    omega

theorem pushed_pieces (values : FillIns) (tokens : List Token) (text : String) :
    tokens.foldl (fun text token => text ++ piece values token) text =
      text ++ String.join (tokens.map (piece values)) := by
  induction tokens generalizing text with
  | nil => simp
  | cons token tokens ih => rw [foldl_cons, ih, map_cons, String.join_cons,
      String.append_assoc]

/-- The text a body renders to, whatever its size. -/
def filled (body : String) (values : FillIns) : String :=
  String.join ((scan body).map (piece values))

theorem substitute_eq (body : String) (values : FillIns) : substitute body values =
    if (filled body values).utf8ByteSize ≤ maxRenderedPrompt then .ok (filled body values)
    else .error (.renderedTooLarge (min (filled body values).utf8ByteSize usizeMax)
      maxRenderedPrompt) := by
  have hsizes : ((scan body).map fun token => (piece values token).utf8ByteSize).sum =
      (filled body values).utf8ByteSize := by
    rw [filled, ← Allowance.total_eq_size, Allowance.total, map_map]
    rfl
  have hcap : maxRenderedPrompt < usizeMax := by decide
  unfold substitute
  dsimp only
  rw [saturating_sum _ (Nat.zero_le _), hsizes, Nat.zero_add, pushed_pieces, String.empty_append]
  by_cases hfits : (filled body values).utf8ByteSize ≤ maxRenderedPrompt
  · have hunder : ¬ maxRenderedPrompt < min (filled body values).utf8ByteSize usizeMax :=
      Nat.not_lt.mpr (Nat.le_trans (Nat.min_le_left _ _) hfits)
    rw [if_pos hfits, if_neg hunder]
    rfl
  · have hover : maxRenderedPrompt < min (filled body values).utf8ByteSize usizeMax :=
      Nat.lt_min.mpr ⟨Nat.not_le.mp hfits, hcap⟩
    rw [if_neg hfits, if_pos hover]

theorem filled_congr (hsame : ∀ name ∈ placeholders body, values.get name = other.get name) :
    filled body values = filled body other := by
  unfold filled
  congr 1
  refine map_congr_left fun token htoken => ?_
  cases token with
  | literal text => rfl
  | escapedOpen => rfl
  | placeholder name raw =>
    have hdeclared : String.ofList name ∈ placeholders body :=
      ((placeholders_spec body).2 _).mpr ⟨raw, by rwa [String.toList_ofList]⟩
    show (values.get (String.ofList name)).getD _ = (other.get (String.ofList name)).getD _
    rw [hsame _ hdeclared]

end Substituted

structure SinglePass (body : String) (tokens : List Token) (dropped : ℕ) : Prop where
  covers : Spelled body.toList tokens dropped
  resolved : tokens.flatMap Token.verbatim = body.toList ↔ dropped = 0
  unescaped : ¬ ['\\', '{', '{'] <:+: body.toList → dropped = 0
  declared : (placeholders body).Nodup ∧
    ∀ name, name ∈ placeholders body ↔ ∃ raw, Token.placeholder name.toList raw ∈ tokens
  /-- The text is the pieces of the tokens, and its size is what the cap is checked against. -/
  text : ∀ values, let text := String.join (tokens.map (piece values))
    substitute body values = if text.utf8ByteSize ≤ maxRenderedPrompt then .ok text
      else .error (.renderedTooLarge (min text.utf8ByteSize usizeMax) maxRenderedPrompt)
  /-- Every declared name is filled with its value as it is, and no other value is read. -/
  filled : ∀ values, ∀ name ∈ placeholders body, ∀ value, values.get name = some value →
    ∀ raw, Token.placeholder name.toList raw ∈ tokens →
      piece values (.placeholder name.toList raw) = value
  undeclared : ∀ values other : FillIns,
    (∀ name ∈ placeholders body, values.get name = other.get name) →
      substitute body values = substitute body other
  /-- What a render of a stored prompt of this body answers with. -/
  rendered : ∀ (t : TemplateTable) project request stored prompt,
    t.readOne .prompt project (trim request.name) = some stored → stored.body = body →
    t.render none project request = .ok prompt →
      substitute body request.values = .ok prompt.text ∧
        ∀ name, name ∈ prompt.unfilled ↔
          name ∈ placeholders body ∧ request.values.get name = none

theorem render_eq_ok {t : TemplateTable} {project : Option ProjectId} {request : RenderRequest}
    {stored : StoredTemplate} {prompt : RenderedPrompt}
    (hstored : t.readOne .prompt project (trim request.name) = some stored)
    (h : t.render none project request = .ok prompt) :
    substitute stored.body request.values = .ok prompt.text ∧
      prompt.unfilled = (FillIns.classify (placeholders stored.body) request.values).1 := by
  unfold TemplateTable.render at h
  rw [hstored] at h
  have hbody : renderBody stored.body (placeholders stored.body) request = .ok prompt := h
  unfold renderBody at hbody
  dsimp only at hbody
  split_ifs at hbody
  cases htext : substitute stored.body request.values with
  | error e =>
    rw [htext] at hbody
    cases hbody
  | ok text =>
    rw [htext] at hbody
    cases hbody
    exact ⟨rfl, rfl⟩

theorem render_single_pass (body : String) : ∃ dropped, SinglePass body (scan body) dropped := by
  obtain ⟨dropped, hspelled⟩ := spelled_scan body
  refine ⟨dropped, hspelled, hspelled.eq_zero_iff, hspelled.unescaped, placeholders_spec body,
    substitute_eq body, ?_, ?_, ?_⟩
  · intro values name _ value hvalue raw _
    rw [piece, String.ofList_toList, hvalue]
    rfl
  · intro values other hsame
    rw [substitute_eq, substitute_eq, filled_congr hsame]
  · rintro t project request stored prompt hstored rfl h
    obtain ⟨htext, hunfilled⟩ := render_eq_ok hstored h
    refine ⟨htext, fun name => ?_⟩
    rw [hunfilled]
    simp [FillIns.classify, IndexMap.contains]

end Soloist
