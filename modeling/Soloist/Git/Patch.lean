import Soloist.Git.DiffOutput

/-! The splitter cuts a patch into sections, one for each `@@` line it can read: `parse` refines the
cut, and every readable output is segmented exactly. -/
open List hiding sections
open Option

namespace Soloist
open DiffParse

namespace DiffParse

/-- The patch cut at the `@@` lines that can be read. -/
def sections (lines : List Bytes) : Sections Bytes HunkRange :=
  Sections.cut lineRange opensFile lines

def rawHunk (g : HunkRange × List Bytes) : RawHunk := ⟨g.1, text g.2.flatten⟩

/-- How the segments of a scan stand to the sections: none yet, a hunk last, or a block that waits
for its hunk. -/
inductive Follows : List (Option HunkRange × Bytes) → Sections Bytes HunkRange → Prop
  | start (lead : List Bytes) : Follows [] ⟨lead, [], []⟩
  | hunk {segments : List (Option HunkRange × Bytes)} {init : List (HunkRange × List Bytes)}
      {pending bytes : Bytes} {items lead : List Bytes} (range : HunkRange)
      (hinit : segments.foldl joinSegment ([], []) = (init.map rawHunk, pending))
      (hbytes : pending ++ bytes = items.flatten) :
      Follows (segments ++ [(some range, bytes)]) ⟨lead, init ++ [(range, items)], []⟩
  | block {segments : List (Option HunkRange × Bytes)} {found : List (HunkRange × List Bytes)}
      {pending bytes : Bytes} {waiting lead : List Bytes} (hfound : found ≠ [])
      (hwaiting : waiting ≠ [])
      (hinit : segments.foldl joinSegment ([], []) = (found.map rawHunk, pending))
      (hbytes : pending ++ bytes = waiting.flatten) :
      Follows (segments ++ [(none, bytes)]) ⟨lead, found, waiting⟩

variable {segments : List (Option HunkRange × Bytes)} {v : Sections Bytes HunkRange}
  {s : DiffScan} {line : Bytes} {lines : List Bytes}

/-- What the fold of `joined` makes of the segments. -/
theorem Follows.joinSegment (h : Follows segments v) :
    segments.foldl DiffParse.joinSegment ([], []) = (v.found.map rawHunk, v.pending.flatten) := by
  cases h with
  | start lead => rfl
  | hunk range hinit hbytes =>
    rw [foldl_append, hinit]
    simp [DiffParse.joinSegment, rawHunk, hbytes]
  | block hfound hwaiting hinit hbytes =>
    rw [foldl_append, hinit]
    simp [DiffParse.joinSegment, hbytes]

theorem Follows.patchLine (h : Follows s.hunks v) (hheader : s.header = v.lead.flatten)
    (line : Bytes) :
    Follows (s.patchLine line).hunks (v.push lineRange opensFile line) ∧
      (s.patchLine line).header = (v.push lineRange opensFile line).lead.flatten := by
  cases hrange : lineRange line with
  | some range =>
    have hpush : (s.patchLine line).hunks = s.hunks ++ [(some range, line)] ∧
        (s.patchLine line).header = s.header := by
      unfold DiffScan.patchLine
      rw [hrange]
      cases s.hunks.getLast? <;> exact ⟨rfl, rfl⟩
    rw [hpush.1, hpush.2, Sections.push_of_key hrange]
    refine ⟨Follows.hunk range h.joinSegment ?_, hheader⟩
    rw [flatten_append, flatten_singleton]
  | none =>
    generalize hs : s.hunks = segments at h
    cases h with
    | start lead =>
      have hline : (s.patchLine line).hunks = [] ∧
          (s.patchLine line).header = s.header ++ line := by
        unfold DiffScan.patchLine
        simp [hs, hrange]
      have hpush : Sections.push lineRange opensFile ⟨lead, [], []⟩ line =
          ⟨lead ++ [line], [], []⟩ := by
        unfold Sections.push
        rw [hrange]
        rfl
      rw [hline.1, hline.2, hpush, hheader]
      exact ⟨Follows.start _, by simp⟩
    | @hunk segments init pending bytes items lead range hinit hbytes =>
      cases hfile : opensFile line with
      | true =>
        have hline : (s.patchLine line).hunks =
            (segments ++ [(some range, bytes)]) ++ [(none, line)] ∧
            (s.patchLine line).header = s.header := by
          unfold DiffScan.patchLine
          simp [hs, hrange, hfile]
        have hfollows : Follows (segments ++ [(some range, bytes)])
            ⟨lead, init ++ [(range, items)], []⟩ := Follows.hunk range hinit hbytes
        rw [hline.1, hline.2, Sections.push_waiting hrange (by simp) (.inl hfile)]
        exact ⟨Follows.block (by simp) (by simp) hfollows.joinSegment (by simp), hheader⟩
      | false =>
        have hline : (s.patchLine line).hunks = segments ++ [(some range, bytes ++ line)] ∧
            (s.patchLine line).header = s.header := by
          unfold DiffScan.patchLine
          simp [hs, hrange, hfile]
        rw [hline.1, hline.2, Sections.push_inside hrange hfile rfl rfl]
        refine ⟨Follows.hunk range hinit ?_, hheader⟩
        rw [← append_assoc, hbytes]
        simp
    | @block segments found pending bytes waiting lead hfound hwaiting hinit hbytes =>
      rw [Sections.push_waiting hrange hfound (.inr hwaiting)]
      cases hfile : opensFile line with
      | true =>
        have hline : (s.patchLine line).hunks =
            (segments ++ [(none, bytes)]) ++ [(none, line)] ∧
            (s.patchLine line).header = s.header := by
          unfold DiffScan.patchLine
          simp [hs, hrange, hfile]
        have hfollows : Follows (segments ++ [(none, bytes)]) ⟨lead, found, waiting⟩ :=
          Follows.block hfound hwaiting hinit hbytes
        rw [hline.1, hline.2]
        exact ⟨Follows.block hfound (by simp) hfollows.joinSegment (by simp), hheader⟩
      | false =>
        have hline : (s.patchLine line).hunks = segments ++ [(none, bytes ++ line)] ∧
            (s.patchLine line).header = s.header := by
          unfold DiffScan.patchLine
          simp [hs, hrange, hfile]
        rw [hline.1, hline.2]
        refine ⟨Follows.block hfound (by simp) hinit ?_, hheader⟩
        rw [← append_assoc, hbytes]
        simp

theorem follows_run (h : Follows s.hunks v) (hheader : s.header = v.lead.flatten)
    (lines : List Bytes) :
    Follows (lines.foldl DiffScan.patchLine s).hunks
        (lines.foldl (Sections.push lineRange opensFile) v) ∧
      (lines.foldl DiffScan.patchLine s).header =
        (lines.foldl (Sections.push lineRange opensFile) v).lead.flatten := by
  induction lines generalizing s v with
  | nil => exact ⟨h, hheader⟩
  | cons line lines ih =>
    obtain ⟨hnext, hheader⟩ := h.patchLine hheader line
    exact ih hnext hheader

theorem lossy_flatten_append (h : ∀ line ∈ lines, Lines.IsLine newline line) (rest : Bytes) :
    Utf8.lossy (lines.flatten ++ rest) = lines.flatMap Utf8.lossy ++ Utf8.lossy rest := by
  induction lines with
  | nil => rfl
  | cons line lines ih =>
    obtain ⟨head, -, rfl⟩ := h line (.head _)
    have hrest := ih fun l hl => h l (.tail _ hl)
    have hnewline : ('\n' : Char).toNat < 128 := by decide
    have hsplit := @Utf8.lossy_append_ascii head (lines.flatten ++ rest) '\n' hnewline
    have hhead := @Utf8.lossy_append_ascii head [] '\n' hnewline
    rw [hrest] at hsplit
    rw [flatten_cons, flatMap_cons]
    calc Utf8.lossy (head ++ [newline] ++ lines.flatten ++ rest)
        = Utf8.lossy (head ++ newline :: (lines.flatten ++ rest)) := by simp
      _ = Utf8.lossy head ++ '\n' :: (lines.flatMap Utf8.lossy ++ Utf8.lossy rest) := hsplit
      _ = Utf8.lossy (head ++ [newline]) ++ lines.flatMap Utf8.lossy ++ Utf8.lossy rest := by
        rw [show Utf8.lossy (head ++ [newline]) = Utf8.lossy head ++ ['\n'] from hhead]
        simp

theorem lossy_flatten (h : ∀ line ∈ lines, Lines.IsLine newline line) :
    Utf8.lossy lines.flatten = lines.flatMap Utf8.lossy := by
  have happend := lossy_flatten_append h []
  rwa [append_nil, Utf8.lossy_nil, append_nil] at happend

theorem Follows.joined (h : Follows segments v)
    (hlines : ∀ g ∈ v.found, ∀ line ∈ g.2, Lines.IsLine newline line) :
    DiffParse.joined segments = v.finish.map rawHunk := by
  unfold DiffParse.joined Sections.finish
  rw [h.joinSegment]
  dsimp only
  obtain hnil | ⟨init, ⟨range, items⟩, hlast⟩ := v.found.eq_nil_or_concat
  · rw [hnil]
    rfl
  · rw [concat_eq_append] at hlast
    rw [hlast] at hlines ⊢
    have hitems := hlines (range, items) (by simp)
    have htext : text items.flatten ++ text v.pending.flatten =
        text (items ++ v.pending).flatten := by
      unfold text
      rw [flatten_append, lossy_flatten_append hitems, ← lossy_flatten hitems,
        String.ofList_append]
    rw [Sections.extendLast_append_singleton]
    simp [rawHunk, htext]

theorem patchLine_inPatch (s : DiffScan) (line : Bytes) :
    (s.patchLine line).inPatch = s.inPatch ∧ (s.patchLine line).binary = s.binary := by
  unfold DiffScan.patchLine
  dsimp only
  split
  · split_ifs <;> exact ⟨rfl, rfl⟩
  · split_ifs <;> exact ⟨rfl, rfl⟩

theorem run_inPatch (h : s.inPatch = true) (lines : List Bytes) :
    lines.foldl DiffScan.line s = lines.foldl DiffScan.patchLine s ∧
      (lines.foldl DiffScan.patchLine s).binary = s.binary := by
  induction lines generalizing s with
  | nil => exact ⟨rfl, rfl⟩
  | cons line lines ih =>
    have hline : s.line line = s.patchLine line := by
      unfold DiffScan.line
      rw [h, Bool.true_or, if_pos rfl, ← h]
    obtain ⟨hin, hbinary⟩ := patchLine_inPatch s line
    obtain ⟨hrun, hkept⟩ := ih (hin.trans h)
    rw [foldl_cons, foldl_cons, hline]
    exact ⟨hrun, hkept.trans hbinary⟩

theorem run_records (records : List RecordLine) (binary : Bool) :
    (records.map fun l => l.bytes).foldl DiffScan.line ⟨binary, [], [], false⟩ =
      ⟨binary || records.any fun l => isBinaryRecord l.bytes, [], [], false⟩ := by
  induction records generalizing binary with
  | nil => simp
  | cons l records ih =>
    have hline : DiffScan.line ⟨binary, [], [], false⟩ l.bytes =
        ⟨binary || isBinaryRecord l.bytes, [], [], false⟩ := by
      unfold DiffScan.line
      rw [l.counted]
      rfl
    rw [map_cons, foldl_cons, hline, ih, any_cons, Bool.or_assoc]

theorem patch_cases (d : DiffOutput) :
    d.patch = [] ∨ ∃ line rest, d.patch = line :: rest ∧ opensFile line = true := by
  unfold DiffOutput.patch
  cases d.files with
  | nil => exact .inl rfl
  | cons f files => exact .inr ⟨_, _, rfl, f.opensFile_opening⟩

theorem exact_sections (lines : List Bytes) :
    Sections.Exact lineRange (sections lines) lines :=
  Sections.exact_cut lines

theorem sections_isLine (d : DiffOutput) :
    ∀ g ∈ (sections d.patch).found, ∀ line ∈ g.2, Lines.IsLine newline line := by
  intro g hg line hline
  have hall := (exact_sections d.patch).all
  apply DiffOutput.isLine_patch (d := d)
  rw [← hall]
  exact mem_append_left _ (mem_append_right _ (mem_flatMap.mpr ⟨g, hg, hline⟩))

theorem parse_bytes (d : DiffOutput) :
    DiffParse.parse d.bytes = ⟨d.records.any fun l => isBinaryRecord l.bytes,
      text (sections d.patch).lead.flatten, (sections d.patch).finish.map rawHunk⟩ := by
  have hlines : Lines.splitInclusive newline d.bytes =
      (d.records.map fun l => l.bytes) ++ d.patch :=
    Lines.splitInclusive_flatten fun line hline => DiffOutput.isLine_bytes hline
  unfold DiffParse.parse
  rw [hlines, foldl_append]
  unfold DiffScan.empty
  rw [run_records, Bool.false_or]
  generalize (d.records.any fun l => isBinaryRecord l.bytes) = binary
  obtain hpatch | ⟨line, rest, hpatch, hopens⟩ := patch_cases d
  · rw [hpatch]
    rfl
  · have hfirst : DiffScan.line ⟨binary, [], [], false⟩ line =
        DiffScan.patchLine ⟨binary, [], [], true⟩ line := by
      unfold DiffScan.line
      rw [hopens]
      rfl
    have hrun : d.patch.foldl DiffScan.line ⟨binary, [], [], false⟩ =
        d.patch.foldl DiffScan.patchLine ⟨binary, [], [], true⟩ := by
      rw [hpatch, foldl_cons, foldl_cons, hfirst]
      exact (run_inPatch (patchLine_inPatch _ line).1 rest).1
    have hbinary := (run_inPatch (s := ⟨binary, [], [], true⟩) rfl d.patch).2
    obtain ⟨hfollows, hheader⟩ := follows_run (s := ⟨binary, [], [], true⟩)
      (Follows.start []) rfl d.patch
    have hjoined := hfollows.joined (sections_isLine d)
    rw [hrun]
    dsimp only
    rw [hbinary, hheader, hjoined]
    rfl

theorem isLine_lossy (h : Lines.IsLine newline line) : Lines.IsLine '\n' (Utf8.lossy line) := by
  obtain ⟨head, hhead, rfl⟩ := h
  refine ⟨Utf8.lossy head, ?_, @Utf8.lossy_append_ascii head [] '\n' (by decide)⟩
  intro hmem
  exact hhead (Utf8.mem_of_mem_lossy (by decide) hmem)

theorem splitInclusive_text (h : ∀ line ∈ lines, Lines.IsLine newline line) :
    Lines.splitInclusive '\n' (text lines.flatten).toList = lines.map Utf8.lossy := by
  unfold text
  rw [String.toList_ofList, lossy_flatten h, flatMap_def]
  apply Lines.splitInclusive_flatten
  intro line hline
  obtain ⟨l, hl, rfl⟩ := List.mem_map.mp hline
  exact isLine_lossy (h l hl)

/-- The `@@` lines of a text. -/
def hunkLines (t : String) : List (List Char) :=
  (Lines.splitInclusive '\n' t.toList).filter fun line => hunkMark.toList.isPrefixOf line

theorem hunkLines_text (h : ∀ line ∈ lines, Lines.IsLine newline line) :
    hunkLines (text lines.flatten) = (lines.filter opensHunk).map Utf8.lossy := by
  unfold hunkLines
  rw [splitInclusive_text h, List.filter_map]
  congr 2
  funext line
  exact Utf8.isPrefixOf_lossy ascii_hunkMark line

end DiffParse

theorem PlainLine.filter_map (ls : List PlainLine) :
    (ls.map fun l => l.bytes).filter opensHunk = [] := by
  rw [filter_eq_nil_iff]
  intro line hline
  obtain ⟨l, -, rfl⟩ := List.mem_map.mp hline
  simp [l.inHunk]

theorem HunkBlock.filter_lines (h : HunkBlock) : h.lines.filter opensHunk = [h.mark] := by
  unfold HunkBlock.lines
  rw [filter_cons_of_pos h.opensHunk_mark, PlainLine.filter_map]

theorem HunkBlock.filter_flatMap (hs : List HunkBlock) :
    (hs.flatMap HunkBlock.lines).filter opensHunk = hs.map HunkBlock.mark := by
  rw [List.filter_flatMap]
  simp only [HunkBlock.filter_lines]
  exact map_eq_flatMap.symm

theorem FileBlock.filter_header (f : FileBlock) : f.header.filter opensHunk = [] := by
  unfold FileBlock.header
  rw [filter_cons_of_neg (by simp [FileBlock.opensHunk_opening]), PlainLine.filter_map]

theorem FileBlock.filter_flatMap (fs : List FileBlock) :
    (fs.flatMap FileBlock.lines).filter opensHunk =
      (fs.flatMap FileBlock.hunks).map HunkBlock.mark := by
  rw [List.filter_flatMap, map_flatMap]
  congr 1
  funext f
  show (f.header ++ f.hunks.flatMap HunkBlock.lines).filter opensHunk = _
  rw [filter_append, FileBlock.filter_header, HunkBlock.filter_flatMap, nil_append]

/-- The `@@` lines of a patch are those of its hunks. -/
theorem DiffOutput.filter_patch (d : DiffOutput) :
    d.patch.filter opensHunk = d.hunks.map HunkBlock.mark :=
  FileBlock.filter_flatMap d.files

theorem filterMap_lineRange (lines : List Bytes) :
    lines.filterMap lineRange = (lines.filter opensHunk).filterMap lineRange := by
  rw [filterMap_filter]
  congr 1
  funext line
  unfold lineRange
  split_ifs <;> rfl

/-- An output is segmented exactly: one hunk for each `@@` line with the range it states, no other
`@@` line in its text, and nothing of the patch lost. -/
structure DiffOutput.Segmented (d : DiffOutput) : Prop where
  ranges : (DiffParse.parse d.bytes).hunks.map RawHunk.range = d.hunks.map HunkBlock.range
  marks : (DiffParse.parse d.bytes).hunks.map (fun h => hunkLines h.text) =
    d.hunks.map fun h => [Utf8.lossy h.mark]
  whole : (DiffParse.parse d.bytes).header.toList ++ (DiffParse.parse d.bytes).hunks.flatMap (fun h => h.text.toList) =
    Utf8.lossy d.patch.flatten

theorem filterMap_mark (hs : List HunkBlock) :
    (hs.map HunkBlock.mark).filterMap lineRange =
      hs.filterMap fun h => if h.Readable then some h.range else none := by
  rw [filterMap_map]
  congr 1
  funext h
  exact h.lineRange_mark

/-- Lines whose `@@` lines are those of some hunks have their ranges for keys. -/
theorem filterMap_of_filter {lines : List Bytes} {hs : List HunkBlock}
    (h : lines.filter opensHunk = hs.map HunkBlock.mark) :
    lines.filterMap lineRange =
      hs.filterMap fun h => if h.Readable then some h.range else none := by
  rw [filterMap_lineRange, h, filterMap_mark]

theorem DiffOutput.hunks_parse (d : DiffOutput) :
    (DiffParse.parse d.bytes).hunks = (sections d.patch).finish.map rawHunk := by
  rw [parse_bytes]

/-- The hunks handed over are those whose `@@` line is readable. -/
theorem DiffOutput.ranges_parse (d : DiffOutput) :
    (DiffParse.parse d.bytes).hunks.map RawHunk.range =
      d.hunks.filterMap fun h => if h.Readable then some h.range else none := by
  rw [d.hunks_parse, List.map_map, ← filterMap_of_filter d.filter_patch]
  exact (exact_sections d.patch).finish_keys

theorem DiffOutput.whole_parse (d : DiffOutput) :
    (DiffParse.parse d.bytes).header.toList ++ (DiffParse.parse d.bytes).hunks.flatMap (fun h => h.text.toList) =
      Utf8.lossy d.patch.flatten := by
  have hall := (exact_sections d.patch).finish_all
  have hlines : ∀ line ∈ (sections d.patch).lead ++ (sections d.patch).finish.flatMap Prod.snd,
      Lines.IsLine newline line := by
    rw [hall]
    exact fun line hline => DiffOutput.isLine_patch hline
  have hlead : Utf8.lossy (sections d.patch).lead.flatten =
      (sections d.patch).lead.flatMap Utf8.lossy :=
    lossy_flatten fun line hline => hlines line (mem_append_left _ hline)
  have hhunks : ((sections d.patch).finish.map rawHunk).flatMap (fun h => h.text.toList) =
      ((sections d.patch).finish.flatMap Prod.snd).flatMap Utf8.lossy := by
    rw [flatMap_map, flatMap_assoc]
    apply flatMap_congr
    intro g hg
    show (text g.2.flatten).toList = _
    unfold text
    rw [String.toList_ofList, lossy_flatten]
    intro line hline
    exact hlines line (mem_append_right _ (mem_flatMap.mpr ⟨g, hg, hline⟩))
  rw [parse_bytes]
  dsimp only
  rw [hhunks]
  unfold text
  rw [String.toList_ofList, hlead, ← flatMap_append, hall]
  exact (lossy_flatten fun line hline => DiffOutput.isLine_patch hline).symm

/-- Only the `@@` line a section is of is in its text, when every `@@` line is readable. -/
theorem DiffOutput.marks_parse {d : DiffOutput} (h : ∀ hunk ∈ d.hunks, hunk.Readable) :
    (DiffParse.parse d.bytes).hunks.map (fun hunk => hunkLines hunk.text) =
      d.hunks.map fun hunk => [Utf8.lossy hunk.mark] := by
  have hexact := exact_sections d.patch
  have hkeyed : ∀ line ∈ d.patch, (lineRange line).isSome = opensHunk line := by
    intro line hline
    by_cases hopens : opensHunk line = true
    · have hmem := mem_filter.mpr ⟨hline, hopens⟩
      rw [d.filter_patch] at hmem
      obtain ⟨hunk, hhunk, rfl⟩ := List.mem_map.mp hmem
      rw [hunk.lineRange_mark, if_pos (h hunk hhunk), hunk.opensHunk_mark]
      rfl
    · unfold lineRange
      rw [if_neg hopens, Bool.eq_false_iff.mpr hopens]
      rfl
  have hmem : ∀ g ∈ (sections d.patch).finish, ∀ line ∈ g.2, line ∈ d.patch := by
    intro g hg line hline
    rw [← hexact.finish_all]
    exact mem_append_right _ (mem_flatMap.mpr ⟨g, hg, hline⟩)
  have hmarks : d.patch.filter (fun line => (lineRange line).isSome) =
      d.hunks.map HunkBlock.mark := by
    rw [filter_congr hkeyed, d.filter_patch]
  have htexts : ∀ g ∈ (sections d.patch).finish, hunkLines (rawHunk g).text =
      (g.2.filter fun line => (lineRange line).isSome).map Utf8.lossy := by
    intro g hg
    rw [filter_congr fun line hline => hkeyed line (hmem g hg line hline)]
    exact hunkLines_text fun line hline => DiffOutput.isLine_patch (hmem g hg line hline)
  have hgroups := hexact.finish_keyed
  rw [hmarks] at hgroups
  rw [d.hunks_parse, List.map_map]
  calc (sections d.patch).finish.map (fun g => hunkLines (rawHunk g).text)
      = (sections d.patch).finish.map
          (fun g => (g.2.filter fun line => (lineRange line).isSome).map Utf8.lossy) :=
        map_congr_left htexts
    _ = ((d.hunks.map HunkBlock.mark).map fun line => [line]).map (List.map Utf8.lossy) := by
        rw [← hgroups, List.map_map]
        rfl
    _ = d.hunks.map fun hunk => [Utf8.lossy hunk.mark] := by
        rw [List.map_map, List.map_map]
        rfl

/-- An output is segmented exactly when every `@@` line of it is readable. -/
theorem DiffOutput.segmented_iff_readable (d : DiffOutput) :
    d.Segmented ↔ ∀ h ∈ d.hunks, h.Readable := by
  constructor
  · intro hsegmented
    have hlength := congrArg List.length hsegmented.ranges
    rw [d.ranges_parse, List.length_map, List.length_filterMap_eq_countP,
      List.countP_eq_length] at hlength
    intro h hmem
    have hsome := hlength h hmem
    by_contra hunreadable
    rw [if_neg hunreadable] at hsome
    cases hsome
  · intro h
    refine ⟨?_, d.marks_parse h, d.whole_parse⟩
    rw [d.ranges_parse, ← List.filterMap_eq_map]
    apply List.filterMap_congr
    intro hunk hmem
    exact if_pos (h hunk hmem)

def emptyLine : DiffLine := ⟨[], by decide⟩

def removedLine : PlainLine := ⟨⟨bytesOf "-a", by decide⟩, by decide, by decide⟩

/-- A file with one hunk, whose heading was cut inside a character. -/
def headingCut : DiffOutput where
  records := [⟨⟨bytesOf "1\t1\ta.txt", by decide⟩, by decide⟩, ⟨emptyLine, by decide⟩]
  files := [⟨⟨bytesOf "a/a.txt b/a.txt", by decide⟩, [],
    [⟨⟨3, some 2⟩, ⟨3, some 2⟩, ⟨bytesOf " fn caf" ++ [0xC3], by decide⟩,
      [removedLine]⟩]⟩]

theorem hunk_swallowed : ¬headingCut.Segmented := by
  intro h
  have hranges := h.ranges
  revert hranges
  decide

end Soloist

/-! The patch of one hunk: the hunk found by its range, under the header it came with or else under
the header of the diff. -/
namespace Soloist
open DiffParse

def oneHunk (diff : RawFileDiff) (hunk : HunkRange) : Option String :=
  (diff.hunks.find? fun candidate => candidate.range == hunk).map fun found =>
    if fileMark.toList.isPrefixOf found.text.toList then found.text else diff.header ++ found.text

def reads (lines : List Bytes) : List (List Char) := lines.map Utf8.lossy

namespace DiffOutput

def PatchExact (d : DiffOutput) (f : FileBlock) (h : HunkBlock) : Prop :=
  (oneHunk (DiffParse.parse d.bytes) h.range).map bytesOf = some (f.header ++ h.lines).flatten

structure Place (d : DiffOutput) where
  before : List FileBlock
  file : FileBlock
  after : List FileBlock
  earlier : List HunkBlock
  hunk : HunkBlock
  later : List HunkBlock
  files : d.files = before ++ file :: after
  hunks : file.hunks = earlier ++ hunk :: later

namespace Place
variable {d : DiffOutput} {range : HunkRange} {f : FileBlock} {h : HunkBlock}

def ahead (p : d.Place) : List HunkBlock := p.before.flatMap FileBlock.hunks ++ p.earlier

def behind (p : d.Place) : List HunkBlock := p.later ++ p.after.flatMap FileBlock.hunks

def First (p : d.Place) (range : HunkRange) : Prop :=
  (p.hunk.Readable ∧ p.hunk.range = range) ∧
    ∀ k ∈ p.ahead, k.Readable → k.range ≠ range

/-- The hunk is the first of its file and the file before it has one that is read; or one of its
file is read before it, and the first file of the output begins with one that is read. The header it
comes under reads as the header of `f`. -/
def Under (p : d.Place) (f : FileBlock) : Prop :=
  (p.earlier = [] ∧ (∀ b ∈ p.before.getLast?, ∃ k ∈ b.hunks, k.Readable) ∧
    reads p.file.header = reads f.header) ∨
  (∃ k ∈ p.earlier, k.Readable) ∧ ∃ first ∈ d.files.head?,
    (∃ k ∈ first.hunks.head?, k.Readable) ∧ reads first.header = reads f.header

/-- The next hunk of the file is read; and some hunk behind is read, or nothing follows. -/
def EndsAlone (p : d.Place) : Prop :=
  (∀ k ∈ p.later.head?, k.Readable) ∧
    ((∃ k ∈ p.behind, k.Readable) ∨ p.later = [] ∧ p.after = [])

def linesAhead (p : d.Place) : List Bytes :=
  p.before.flatMap FileBlock.lines ++ p.file.header ++ p.earlier.flatMap HunkBlock.lines

/-- The lines that follow the `@@` line of the hunk. -/
def linesBehind (p : d.Place) : List Bytes :=
  (p.hunk.content.map fun l => l.bytes) ++ p.later.flatMap HunkBlock.lines ++
    p.after.flatMap FileBlock.lines

/-- What the patch has above the hunk's `@@` line. -/
def above (p : d.Place) : List Bytes :=
  if (sections p.linesAhead).pending = [] then (sections p.linesAhead).lead
  else (sections p.linesAhead).pending

/-- What the patch has under the hunk's `@@` line. -/
def below (p : d.Place) : List Bytes :=
  if p.linesBehind.filterMap lineRange = [] then p.linesBehind
  else p.linesBehind.takeWhile (Sections.inside lineRange opensFile)

theorem patch_eq (p : d.Place) : d.patch = p.linesAhead ++ p.hunk.mark :: p.linesBehind := by
  unfold DiffOutput.patch linesAhead linesBehind
  rw [p.files, flatMap_append, flatMap_cons]
  conv_lhs => rw [FileBlock.lines, p.hunks]
  rw [flatMap_append, flatMap_cons]
  simp [HunkBlock.lines]

theorem filter_ahead (p : d.Place) :
    p.linesAhead.filter opensHunk = p.ahead.map HunkBlock.mark := by
  unfold linesAhead ahead
  rw [filter_append, filter_append, FileBlock.filter_flatMap, FileBlock.filter_header,
    HunkBlock.filter_flatMap, append_nil, map_append]

theorem filter_behind (p : d.Place) :
    p.linesBehind.filter opensHunk = p.behind.map HunkBlock.mark := by
  unfold linesBehind behind
  rw [filter_append, filter_append, PlainLine.filter_map, HunkBlock.filter_flatMap,
    FileBlock.filter_flatMap, nil_append, map_append]

theorem keys_eq_nil {lines : List Bytes} {hs : List HunkBlock}
    (h : lines.filter opensHunk = hs.map HunkBlock.mark) :
    lines.filterMap lineRange = [] ↔ ∀ k ∈ hs, ¬k.Readable := by
  rw [filterMap_of_filter h, filterMap_eq_nil_iff]
  constructor
  · intro hnone k hk hreadable
    have hrange := hnone k hk
    rw [if_pos hreadable] at hrange
    cases hrange
  · intro hnone k hk
    exact if_neg (hnone k hk)

variable {p : d.Place} {line : Bytes}

theorem isLine_ahead (hline : line ∈ p.linesAhead) : Lines.IsLine newline line := by
  apply DiffOutput.isLine_patch (d := d)
  rw [p.patch_eq]
  exact mem_append_left _ hline

theorem isLine_behind (hline : line ∈ p.linesBehind) : Lines.IsLine newline line := by
  apply DiffOutput.isLine_patch (d := d)
  rw [p.patch_eq]
  exact mem_append_right _ (.tail _ hline)

theorem isLine_above (hline : line ∈ p.above) : Lines.IsLine newline line := by
  have hall := (exact_sections p.linesAhead).all
  apply isLine_ahead (p := p)
  rw [← hall]
  unfold above at hline
  split_ifs at hline
  · exact mem_append_left _ (mem_append_left _ hline)
  · exact mem_append_right _ hline

theorem isLine_below (hline : line ∈ p.below) : Lines.IsLine newline line := by
  apply isLine_behind (p := p)
  unfold below at hline
  split_ifs at hline
  · exact hline
  · exact takeWhile_subset _ hline

theorem opensFile_append (rest : Bytes) (hline : opensFile line = true) :
    opensFile (line ++ rest) = true := by
  unfold opensFile at hline ⊢
  rw [List.isPrefixOf_iff_prefix] at hline ⊢
  exact hline.trans (prefix_append _ _)

theorem isPrefixOf_text (bytes : Bytes) :
    fileMark.toList.isPrefixOf (text bytes).toList = opensFile bytes := by
  unfold text
  rw [String.toList_ofList]
  exact Utf8.isPrefixOf_lossy ascii_fileMark bytes

theorem First.found_ne (hp : p.First range) : ∀ g ∈ (sections p.linesAhead).found, g.1 ≠ range := by
  intro g hg
  have hkeys := (exact_sections p.linesAhead).keys
  have hmem : g.1 ∈ p.linesAhead.filterMap lineRange := by
    rw [← hkeys]
    exact List.mem_map_of_mem hg
  rw [filterMap_of_filter p.filter_ahead] at hmem
  obtain ⟨k, hk, hrange⟩ := mem_filterMap.mp hmem
  split_ifs at hrange with hreadable
  rw [← some.inj hrange]
  exact hp.2 k hk hreadable

theorem First.oneHunk (hp : p.First range) :
    oneHunk (DiffParse.parse d.bytes) range =
      some (text (p.above ++ p.hunk.mark :: p.below).flatten) := by
  have hkey : lineRange p.hunk.mark = some range := by
    rw [p.hunk.lineRange_mark, if_pos hp.1.1, hp.1.2]
  obtain ⟨hlead, rest, hfinish⟩ : (sections (p.linesAhead ++ p.hunk.mark :: p.linesBehind)).lead =
      (sections p.linesAhead).lead ∧
      ∃ rest, (sections (p.linesAhead ++ p.hunk.mark :: p.linesBehind)).finish =
        (sections p.linesAhead).found ++
          (range, (sections p.linesAhead).pending ++ p.hunk.mark :: p.below) :: rest :=
    Sections.finish_cut hkey p.linesAhead p.linesBehind
  rw [← p.patch_eq] at hlead hfinish
  have hnone : ((sections p.linesAhead).found.map rawHunk).find?
      (fun candidate => candidate.range == range) = none := by
    rw [find?_eq_none]
    intro candidate hcandidate
    obtain ⟨g, hg, rfl⟩ := List.mem_map.mp hcandidate
    rw [beq_iff_eq]
    exact hp.found_ne g hg
  have hfind : (DiffParse.parse d.bytes).hunks.find? (fun candidate => candidate.range == range) =
      some (rawHunk (range, (sections p.linesAhead).pending ++ p.hunk.mark :: p.below)) := by
    rw [d.hunks_parse, hfinish, map_append, map_cons, find?_append, hnone,
      none_or]
    exact find?_cons_of_pos (beq_self_eq_true range)
  have hheader : (DiffParse.parse d.bytes).header = text (sections p.linesAhead).lead.flatten := by
    rw [parse_bytes, ← hlead]
  unfold Soloist.oneHunk
  rw [hfind, map_some, hheader]
  unfold rawHunk
  dsimp only
  rw [isPrefixOf_text]
  unfold above
  by_cases hpending : (sections p.linesAhead).pending = []
  · have hmark : opensFile (p.hunk.mark :: p.below).flatten = false := by
      obtain ⟨tail, hmark⟩ := p.hunk.mark_eq
      rw [flatten_cons, hmark]
      rfl
    rw [hpending, nil_append, hmark, if_neg Bool.false_ne_true, if_pos rfl]
    have hlines : ∀ line ∈ (sections p.linesAhead).lead, Lines.IsLine newline line := by
      intro line hline
      apply isLine_above (p := p)
      unfold above
      rw [if_pos hpending]
      exact hline
    unfold text
    rw [flatten_append, lossy_flatten_append hlines, ← lossy_flatten hlines,
      String.ofList_append]
  · obtain ⟨y, ys, hy, hbreaks⟩ := Sections.pending_breaks p.linesAhead hpending
    have hopens : opensFile ((sections p.linesAhead).pending ++ p.hunk.mark :: p.below).flatten =
        true := by
      have hpending' : (sections p.linesAhead).pending = y :: ys := hy
      rw [hpending', cons_append, flatten_cons]
      exact opensFile_append _ hbreaks
    rw [hopens, if_pos rfl, if_neg hpending]

theorem exists_first (hfound : oneHunk (DiffParse.parse d.bytes) range ≠ none) :
    ∃ p : d.Place, p.First range := by
  have hmem : range ∈ (DiffParse.parse d.bytes).hunks.map RawHunk.range := by
    unfold Soloist.oneHunk at hfound
    rw [ne_eq, map_eq_none_iff, find?_eq_none] at hfound
    push Not at hfound
    obtain ⟨candidate, hcandidate, hrange⟩ := hfound
    exact List.mem_map.mpr ⟨candidate, hcandidate, by simpa using hrange⟩
  rw [d.ranges_parse] at hmem
  obtain ⟨k, hk, hrange⟩ := mem_filterMap.mp hmem
  split_ifs at hrange with hreadable
  obtain ⟨f, hf, hkf⟩ := mem_flatMap.mp hk
  let first : HunkBlock → Bool := fun k => decide (k.Readable ∧ k.range = range)
  have hfirst : first k = true := decide_eq_true ⟨hreadable, some.inj hrange⟩
  have hsome : (d.files.find? fun f => f.hunks.any first).isSome = true :=
    find?_isSome.mpr ⟨f, hf, List.any_eq_true.mpr ⟨k, hkf, hfirst⟩⟩
  obtain ⟨file, hfile⟩ := isSome_iff_exists.mp hsome
  obtain ⟨hany, before, after, hfiles, hbefore⟩ := find?_eq_some_iff_append.mp hfile
  obtain ⟨k', hk', hfirst'⟩ := List.any_eq_true.mp hany
  obtain ⟨hunk, hhunk⟩ := isSome_iff_exists.mp (find?_isSome.mpr ⟨k', hk', hfirst'⟩)
  obtain ⟨hreads, earlier, later, hhunks, hearlier⟩ := find?_eq_some_iff_append.mp hhunk
  refine ⟨⟨before, file, after, earlier, hunk, later, hfiles, hhunks⟩, of_decide_eq_true hreads, ?_⟩
  intro j hj hjreadable hjrange
  have hjfirst : first j = true := decide_eq_true ⟨hjreadable, hjrange⟩
  obtain hj | hj := mem_append.mp hj
  · obtain ⟨b, hb, hjb⟩ := mem_flatMap.mp hj
    have hnone := hbefore b hb
    rw [List.any_eq_true.mpr ⟨j, hjb, hjfirst⟩] at hnone
    cases hnone
  · have hnone := hearlier j hj
    rw [hjfirst] at hnone
    cases hnone

end Place
end DiffOutput

end Soloist
