import Soloist.Search
import Soloist.Slots
import Soloist.Text
import Soloist.Utf8

/-! The guide in a project's instructions file: a section between two markers. -/
open List

namespace Soloist

/-- The instructions files that the guide is written to. -/
inductive IntegrationFile
  | agentsMd
  | claudeMd

/-- Why the guide is not written, with the cause the system gives. -/
inductive IntegrationWriteError (ε : Type)
  | io (source : ε)
  | unmatchedMarkers

namespace IntegrationFile

def fileName : IntegrationFile → String
  | agentsMd => "AGENTS.md"
  | claudeMd => "CLAUDE.md"

def tmpName (file : IntegrationFile) : String := s!".{file.fileName}.soloist-tmp"

def sectionBegin : List Char := "<!-- soloist:integration-guide:begin -->".toList

def sectionEnd : List Char := "<!-- soloist:integration-guide:end -->".toList

def sectionHeading : List Char := "## Working inside Soloist".toList

variable (guide : List Char)

def managedSection : List Char :=
  sectionBegin ++ ('\n' :: sectionHeading ++ ['\n', '\n']) ++ guide ++ '\n' :: sectionEnd

def updated (contents : List Char) : Option (List Char) :=
  match Search.count sectionBegin contents, Search.count sectionEnd contents with
  | 0, 0 => some (contents.rdropWhile (· = '\n') ++ ['\n', '\n'] ++ managedSection guide ++ ['\n'])
  | 1, 1 => do
    let (before, _) ← Search.split sectionBegin contents
    let (upto, after) ← Search.split sectionEnd contents
    if upto.length < before.length then none else some (before ++ managedSection guide ++ after)
  | _, _ => none

/-- What may fail. A write that fails may have written a part; `invalid` is what the system says of
bytes that are no text, and a sibling that cannot be removed stays. -/
structure Faults (ε : Type) where
  read : Option ε
  invalid : ε
  write : Option (ε × Option Bytes)
  rename : Option ε
  stays : Bool

variable {ε : Type} (dir : Slots String Bytes) (file : IntegrationFile) (f : Faults ε)

def readToString : Except ε (Option (List Char)) :=
  match f.read, dir file.fileName with
  | some source, _ => .error source
  | none, none => .ok none
  | none, some bytes =>
    match Utf8.decode? bytes with
    | none => .error f.invalid
    | some contents => .ok (some contents)

def replace (contents : Bytes) : Slots String Bytes × Except ε Unit :=
  match f.write with
  | some (source, written) => (written.elim dir (dir.put file.tmpName), .error source)
  | none =>
    match f.rename with
    | some source =>
      (if f.stays then dir.put file.tmpName contents else dir.erase file.tmpName, .error source)
    | none => ((dir.erase file.tmpName).put file.fileName contents, .ok ())

def writeIntegrationGuide :
    Slots String Bytes × Except (IntegrationWriteError ε) Bool :=
  match readToString dir file f with
  | .error source => (dir, .error (.io source))
  | .ok existing =>
    match existing.elim (some (managedSection guide ++ ['\n'])) (updated guide) with
    | none => (dir, .error .unmatchedMarkers)
    | some contents =>
      let (dir, replaced) := replace dir file f (Utf8.encode contents)
      (dir, (replaced.map fun _ => existing.isNone).mapError .io)

/-- What both markers have: a first character that neither has again, and no line feed. -/
structure Marker (p : List Char) : Prop where
  head : p.head? = some '<'
  once : '<' ∉ p.tail
  line : '\n' ∉ p

theorem marker_begin : Marker sectionBegin :=
  ⟨by decide, by decide, by decide⟩

theorem marker_end : Marker sectionEnd :=
  ⟨by decide, by decide, by decide⟩

theorem not_begin_prefix_end : ¬sectionBegin <+: sectionEnd := by decide

theorem not_end_prefix_begin : ¬sectionEnd <+: sectionBegin := by decide

theorem heading_plain : '<' ∉ '\n' :: sectionHeading ++ ['\n', '\n'] := by decide

theorem Marker.ne_nil {p : List Char} (hp : Marker p) : p ≠ [] := by
  rintro rfl
  exact absurd hp.head (by simp)

variable {guide} {p before after contents text : List Char}

/-- Neither marker occurs. -/
structure Unmarked (t : List Char) : Prop where
  begins : ¬sectionBegin <:+: t
  ends : ¬sectionEnd <:+: t

theorem Unmarked.count (h : Unmarked text) :
    Search.count sectionBegin text = 0 ∧ Search.count sectionEnd text = 0 :=
  ⟨(Search.count_eq_zero_iff marker_begin.ne_nil).mpr h.begins,
    (Search.count_eq_zero_iff marker_end.ne_nil).mpr h.ends⟩

theorem unmarked_of_count (hbegin : Search.count sectionBegin text = 0)
    (hend : Search.count sectionEnd text = 0) : Unmarked text :=
  ⟨(Search.count_eq_zero_iff marker_begin.ne_nil).mp hbegin,
    (Search.count_eq_zero_iff marker_end.ne_nil).mp hend⟩

theorem Unmarked.of_part {part : List Char} (h : Unmarked text) (hpart : part <:+: text) :
    Unmarked part :=
  ⟨fun hin => h.begins (hin.trans hpart), fun hin => h.ends (hin.trans hpart)⟩

theorem Marker.count_append {q : List Char} (hp : Marker p) (hq : Marker q) (a rest : List Char) :
    Search.count p (a ++ q ++ rest) = Search.count p a + Search.count p (q ++ rest) := by
  obtain ⟨body, rfl⟩ := head?_eq_some_iff.mp hq.head
  rw [append_assoc, cons_append, Search.count_append hp.ne_nil hp.once]

theorem count_body (hp : Marker p) (hguide : Search.count p guide = 0) (rest : List Char) :
    Search.count p (('\n' :: sectionHeading ++ ['\n', '\n']) ++ guide ++ '\n' :: rest) =
      Search.count p rest := by
  have hline : '\n' ∉ p.tail := fun h => hp.line (mem_of_mem_tail h)
  have hfeed : '<' ∉ ['\n'] := by decide
  rw [append_assoc, Search.count_skip hp.head heading_plain,
    Search.count_append hp.ne_nil hline, hguide, Nat.zero_add]
  exact Search.count_skip (a := ['\n']) hp.head hfeed

theorem managedSection_append (guide rest : List Char) :
    managedSection guide ++ rest = sectionBegin ++
      (('\n' :: sectionHeading ++ ['\n', '\n']) ++ guide ++ '\n' :: (sectionEnd ++ rest)) := by
  simp [managedSection]

theorem count_begin_section (hguide : Unmarked guide) (rest : List Char) :
    Search.count sectionBegin (managedSection guide ++ rest) =
      Search.count sectionBegin rest + 1 := by
  rw [managedSection_append, Search.count_pattern marker_begin.ne_nil, count_body marker_begin hguide.count.1,
    Search.count_other marker_begin.head marker_end.once not_begin_prefix_end not_end_prefix_begin]

theorem count_end_section (hguide : Unmarked guide) (rest : List Char) :
    Search.count sectionEnd (managedSection guide ++ rest) = Search.count sectionEnd rest + 1 := by
  rw [managedSection_append, Search.count_other marker_end.head marker_begin.once not_end_prefix_begin
    not_begin_prefix_end, count_body marker_end hguide.count.2,
    Search.count_pattern marker_end.ne_nil]

theorem count_framed (hp : Marker p) (hbefore : Search.count p before = 0) (rest : List Char) :
    Search.count p (before ++ managedSection guide ++ rest) =
      Search.count p (managedSection guide ++ rest) := by
  rw [append_assoc, managedSection_append, ← append_assoc, hp.count_append marker_begin, hbefore,
    Nat.zero_add]

theorem count_begin_framed (hguide : Unmarked guide) (hbefore : Unmarked before)
    (hafter : Unmarked after) :
    Search.count sectionBegin (before ++ managedSection guide ++ after) = 1 := by
  rw [count_framed marker_begin hbefore.count.1, count_begin_section hguide, hafter.count.1]

theorem count_end_framed (hguide : Unmarked guide) (hbefore : Unmarked before)
    (hafter : Unmarked after) :
    Search.count sectionEnd (before ++ managedSection guide ++ after) = 1 := by
  rw [count_framed marker_end hbefore.count.2, count_end_section hguide, hafter.count.2]

/-- A section that stands alone in its file is rewritten as it is. -/
theorem updated_framed (hguide : Unmarked guide) (hbefore : Unmarked before)
    (hafter : Unmarked after) :
    updated guide (before ++ managedSection guide ++ after) =
      some (before ++ managedSection guide ++ after) := by
  have hbegin : Search.split sectionBegin (before ++ managedSection guide ++ after) =
      some (before, ('\n' :: sectionHeading ++ ['\n', '\n']) ++ guide ++ '\n' :: sectionEnd ++
        after) := by
    have hsplit := Search.split_append (b := ('\n' :: sectionHeading ++ ['\n', '\n']) ++ guide ++
      '\n' :: sectionEnd ++ after) marker_begin.ne_nil marker_begin.head marker_begin.once
        hbefore.begins
    simpa [managedSection] using hsplit
  have hend : ¬sectionEnd <:+: before ++ (sectionBegin ++
      (('\n' :: sectionHeading ++ ['\n', '\n']) ++ guide ++ ['\n'])) := by
    rw [← Search.count_eq_zero_iff marker_end.ne_nil, ← append_assoc,
      marker_end.count_append marker_begin, hbefore.count.2, Nat.zero_add,
      Search.count_other marker_end.head marker_begin.once not_end_prefix_begin
        not_begin_prefix_end, count_body marker_end hguide.count.2]
    rfl
  have hsplit := Search.split_append (b := after) marker_end.ne_nil marker_end.head
    marker_end.once hend
  have hlaid : before ++ managedSection guide ++ after = before ++ (sectionBegin ++
      (('\n' :: sectionHeading ++ ['\n', '\n']) ++ guide ++ ['\n'])) ++ sectionEnd ++ after := by
    simp [managedSection]
  rw [← hlaid] at hsplit
  rw [updated, count_begin_framed hguide hbefore hafter, count_end_framed hguide hbefore hafter]
  simp only [hbegin, hsplit, Option.bind_eq_bind, Option.bind_some]
  exact if_neg (by simp)

/-- What is rewritten has one section, and its markers stand outside what is kept. -/
theorem replaced (h : updated guide contents = some text)
    (hbegin : Search.count sectionBegin contents = 1) (hend : Search.count sectionEnd contents = 1) :
    ∃ before old after, contents = before ++ sectionBegin ++ old ++ sectionEnd ++ after ∧
      text = before ++ managedSection guide ++ after ∧ Unmarked before ∧ Unmarked after := by
  rw [updated, hbegin, hend] at h
  obtain ⟨⟨before, rest⟩, hfirst, h⟩ := Option.bind_eq_some_iff.mp h
  obtain ⟨⟨upto, after⟩, hlast, h⟩ := Option.bind_eq_some_iff.mp h
  dsimp only at h
  split_ifs at h with hlt
  cases h
  obtain ⟨hcontents, hbefore⟩ := Search.split_eq_some marker_begin.ne_nil hfirst
  obtain ⟨hcontents', hupto⟩ := Search.split_eq_some marker_end.ne_nil hlast
  obtain ⟨body, hbody⟩ := head?_eq_some_iff.mp marker_end.head
  have htexts : before ++ sectionBegin ++ rest = upto ++ '<' :: (body ++ after) := by
    rw [← hcontents, hcontents', hbody]
    simp
  have hne : before.length ≠ upto.length := by
    intro hlength
    rw [append_assoc] at htexts
    obtain ⟨rfl, hsame⟩ := append_inj htexts hlength
    rw [← cons_append, ← hbody] at hsame
    rcases prefix_or_prefix_of_prefix (prefix_append sectionBegin rest)
      ⟨after, hsame.symm⟩ with h | h
    · exact not_begin_prefix_end h
    · exact not_end_prefix_begin h
  obtain ⟨old, rfl⟩ := Search.append_prefix_of_lt marker_begin.once htexts (by omega)
  have hone : Search.count sectionBegin (before ++ sectionBegin ++ old) +
      Search.count sectionBegin (sectionEnd ++ after) = 1 := by
    rw [← hbegin, hcontents', marker_begin.count_append marker_end]
  have hpos : Search.count sectionBegin (before ++ sectionBegin ++ old) ≠ 0 := by
    rw [Ne, Search.count_eq_zero_iff marker_begin.ne_nil, not_not]
    exact ⟨before, old, rfl⟩
  have hlater : Search.count sectionBegin after = 0 := by
    rw [Search.count_other marker_begin.head marker_end.once not_begin_prefix_end
      not_end_prefix_begin] at hone
    omega
  have hsecond : Search.count sectionEnd after = 0 := by
    rw [hcontents', marker_end.count_append marker_end,
      Search.count_pattern marker_end.ne_nil] at hend
    omega
  refine ⟨before, old, after, hcontents', rfl, ⟨hbefore, fun hin => hupto ?_⟩,
    unmarked_of_count hlater hsecond⟩
  exact hin.trans ⟨[], sectionBegin ++ old, by simp⟩

theorem appended (h : updated guide contents = some text)
    (hbegin : Search.count sectionBegin contents = 0) (hend : Search.count sectionEnd contents = 0) :
    ∃ kept feeds, contents = kept ++ feeds ∧ (∀ c ∈ feeds, c = '\n') ∧
      text = kept ++ ['\n', '\n'] ++ managedSection guide ++ ['\n'] ∧
      Unmarked (kept ++ ['\n', '\n']) := by
  rw [updated, hbegin, hend] at h
  cases h
  have hsplit := rdropWhile_append_rtakeWhile (p := (· = '\n')) (l := contents)
  refine ⟨_, contents.rtakeWhile (· = '\n'), hsplit.symm, ?_, rfl, ?_⟩
  · intro c hc
    simpa using mem_rtakeWhile_imp hc
  · have hkept : Unmarked (contents.rdropWhile (· = '\n')) :=
      (unmarked_of_count hbegin hend).of_part (List.rdropWhile_prefix _ _).isInfix
    have hcount : ∀ p, Marker p → Search.count p (contents.rdropWhile (· = '\n')) = 0 →
        Search.count p (contents.rdropWhile (· = '\n') ++ ['\n', '\n']) = 0 := by
      intro p hp hzero
      have hline : '\n' ∉ p.tail := fun h => hp.line (mem_of_mem_tail h)
      have hfeeds : Search.count p ['\n', '\n'] = 0 :=
        Search.count_skip (a := ['\n', '\n']) (t := []) hp.head (by decide)
      rw [Search.count_append hp.ne_nil hline, hzero, hfeeds]
    exact unmarked_of_count (hcount _ marker_begin hkept.count.1) (hcount _ marker_end hkept.count.2)

/-- A file with the guide in it: one section, outside of which is what was there, and which is
rewritten as it is. -/
structure Carries (guide contents text : List Char) : Prop where
  begins : Search.count sectionBegin text = 1
  ends : Search.count sectionEnd text = 1
  outside : ∃ before after, text = before ++ managedSection guide ++ after ∧
    ((∃ old, contents = before ++ sectionBegin ++ old ++ sectionEnd ++ after) ∨
      ∃ kept feeds, contents = kept ++ feeds ∧ (∀ c ∈ feeds, c = '\n') ∧
        before = kept ++ ['\n', '\n'] ∧ after = ['\n'])
  again : updated guide text = some text

theorem carries_of_framed (hguide : Unmarked guide) (hbefore : Unmarked before)
    (hafter : Unmarked after)
    (houtside : (∃ old, contents = before ++ sectionBegin ++ old ++ sectionEnd ++ after) ∨
      ∃ kept feeds, contents = kept ++ feeds ∧ (∀ c ∈ feeds, c = '\n') ∧
        before = kept ++ ['\n', '\n'] ∧ after = ['\n']) :
    Carries guide contents (before ++ managedSection guide ++ after) where
  begins := count_begin_framed hguide hbefore hafter
  ends := count_end_framed hguide hbefore hafter
  outside := ⟨before, after, rfl, houtside⟩
  again := updated_framed hguide hbefore hafter

theorem carries_updated (hguide : Unmarked guide) (h : updated guide contents = some text) :
    Carries guide contents text := by
  have hfeed : Unmarked ['\n'] := unmarked_of_count
    (Search.count_skip (a := ['\n']) (t := []) marker_begin.head (by decide))
    (Search.count_skip (a := ['\n']) (t := []) marker_end.head (by decide))
  have hcases : Search.count sectionBegin contents = 0 ∧ Search.count sectionEnd contents = 0 ∨
      Search.count sectionBegin contents = 1 ∧ Search.count sectionEnd contents = 1 := by
    rw [updated] at h
    generalize Search.count sectionBegin contents = begins at h ⊢
    generalize Search.count sectionEnd contents = ends at h ⊢
    split at h
    · exact .inl ⟨rfl, rfl⟩
    · exact .inr ⟨rfl, rfl⟩
    · cases h
  rcases hcases with ⟨hbegin, hend⟩ | ⟨hbegin, hend⟩
  · obtain ⟨kept, feeds, hcontents, hfeeds, rfl, hkept⟩ := appended h hbegin hend
    exact carries_of_framed hguide hkept hfeed (.inr ⟨kept, feeds, hcontents, hfeeds, rfl, rfl⟩)
  · obtain ⟨before, old, after, hcontents, rfl, hbefore, hafter⟩ := replaced h hbegin hend
    exact carries_of_framed hguide hbefore hafter (.inl ⟨old, hcontents⟩)

section
variable {ε : Type} {dir : Slots String Bytes} {file : IntegrationFile} {f : Faults ε}
  {name : String}

theorem readToString_eq_ok {existing : Option (List Char)}
    (h : readToString dir file f = .ok existing) :
    dir file.fileName = existing.map Utf8.encode := by
  unfold readToString at h
  split at h
  · cases h
  · next habsent =>
    cases h
    exact habsent
  · next bytes _ hbytes =>
    unfold Utf8.decode? at h
    split_ifs at h with hvalid
    cases h
    rw [hbytes, Option.map_some, Utf8.encode_lossy_iff.mpr hvalid]

theorem replace_error {contents : Bytes} {source : ε}
    (h : (replace dir file f contents).2 = .error source) (hname : name ≠ file.tmpName) :
    (replace dir file f contents).1 name = dir name := by
  unfold replace at h ⊢
  split at h
  · next written _ =>
    cases written with
    | none => rfl
    | some written => exact Slots.put_of_ne hname
  · split at h
    · dsimp only
      split_ifs
      · exact Slots.put_of_ne hname
      · exact if_neg hname
    · cases h

theorem replace_ok {contents : Bytes} (h : (replace dir file f contents).2 = .ok ()) :
    (replace dir file f contents).1 = (dir.erase file.tmpName).put file.fileName contents := by
  unfold replace at h ⊢
  split at h
  · cases h
  · split at h
    · cases h
    · rfl

end

end IntegrationFile

open IntegrationFile in
/-- A write that is refused writes nothing, one that fails leaves the instructions file as it is,
and one that succeeds leaves the guide in it; a new file is the section alone. -/
theorem managed_section {ε : Type} {guide : List Char} (hguide : Unmarked guide)
    (dir : Slots String Bytes) (file : IntegrationFile) (f : Faults ε) :
    match writeIntegrationGuide guide dir file f with
    | (after, .error .unmatchedMarkers) => after = dir ∧
        ∃ contents, dir file.fileName = some (Utf8.encode contents) ∧ updated guide contents = none
    | (after, .error (.io _)) => ∀ name, name ≠ file.tmpName → after name = dir name
    | (after, .ok created) => ∃ text, after file.fileName = some (Utf8.encode text) ∧
        (∀ name, name ≠ file.fileName → name ≠ file.tmpName → after name = dir name) ∧
        if created then dir file.fileName = none ∧ text = managedSection guide ++ ['\n']
        else ∃ contents, dir file.fileName = some (Utf8.encode contents) ∧
          Carries guide contents text := by
  unfold writeIntegrationGuide
  cases hread : readToString dir file f with
  | error source => exact fun _ _ => rfl
  | ok existing =>
    have hexisting := readToString_eq_ok hread
    dsimp only
    cases hnext : existing.elim (some (managedSection guide ++ ['\n'])) (updated guide) with
    | none =>
      cases existing with
      | none => cases hnext
      | some contents => exact ⟨rfl, contents, hexisting, hnext⟩
    | some text =>
      dsimp only
      cases hreplace : (replace dir file f (Utf8.encode text)).2 with
      | error source => exact fun name hname => replace_error hreplace hname
      | ok =>
        rw [replace_ok hreplace]
        refine ⟨text, Slots.put_self, ?_, ?_⟩
        · intro name hname htmp
          rw [Slots.put_of_ne hname]
          exact if_neg htmp
        · cases existing with
          | none => exact ⟨hexisting, (Option.some.inj hnext).symm⟩
          | some contents => exact ⟨contents, hexisting, carries_updated hguide hnext⟩

open IntegrationFile in
theorem managed_section_notes :
    let notes := "# Notes\n".toList
    let faultless : Faults Unit := ⟨none, (), none, none, false⟩
    ∃ text, (writeIntegrationGuide ['?'] (Slots.empty.put "AGENTS.md" (Utf8.encode notes))
      .agentsMd faultless).1 "AGENTS.md" = some (Utf8.encode text) ∧ Carries ['?'] notes text := by
  intro notes faultless
  have hguide : Unmarked ['?'] := unmarked_of_count (by decide +kernel) (by decide +kernel)
  have h := managed_section hguide (Slots.empty.put "AGENTS.md" (Utf8.encode notes)) .agentsMd
    faultless
  have hread : readToString (Slots.empty.put "AGENTS.md" (Utf8.encode notes)) .agentsMd faultless =
      .ok (some notes) := by
    simp [readToString, faultless, fileName, Utf8.decode?_encode]
  have hupdated : (updated ['?'] notes).isSome := by decide +kernel
  obtain ⟨text, htext⟩ := Option.isSome_iff_exists.mp hupdated
  have hwrite : (writeIntegrationGuide ['?'] (Slots.empty.put "AGENTS.md" (Utf8.encode notes))
      .agentsMd faultless).2 = .ok false := by
    simp only [writeIntegrationGuide, hread, Option.elim_some, htext]
    rfl
  generalize writeIntegrationGuide ['?'] (Slots.empty.put "AGENTS.md" (Utf8.encode notes)) .agentsMd
    faultless = result at h hwrite ⊢
  obtain ⟨after, _⟩ := result
  obtain rfl := hwrite
  obtain ⟨text, hfile, -, contents, hcontents, hcarries⟩ := h
  have hsame : Utf8.encode notes = Utf8.encode contents := Option.some.inj hcontents
  obtain rfl : notes = contents := by simpa using congrArg Utf8.lossy hsame
  exact ⟨text, hfile, hcarries⟩

end Soloist
