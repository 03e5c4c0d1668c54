import Soloist.Git.Patch

/-! Which hunks get a patch of their own: what stands above and under the `@@` line in the patch
built for a place, and when that is the header of the hunk's file and the hunk's lines. -/
open List hiding sections

namespace Soloist
open DiffParse

namespace DiffOutput
namespace Place
variable {d : DiffOutput} {range : HunkRange} {f : FileBlock}

theorem inside_plain (l : PlainLine) :
    Sections.inside lineRange opensFile l.bytes = true := by
  unfold Sections.inside
  rw [l.lineRange, l.inFile]
  rfl

theorem inside_unreadable {k : HunkBlock} (hk : ¬k.Readable) :
    Sections.inside lineRange opensFile k.mark = true := by
  unfold Sections.inside
  rw [k.lineRange_mark, if_neg hk, k.opensFile_mark]
  rfl

variable {hs : List HunkBlock}

theorem pending_of_readable (hreadable : ∃ k ∈ hs, k.Readable) (lines rest : List Bytes)
    (hrest : ∀ line ∈ rest, Sections.inside lineRange opensFile line = true) :
    (sections (lines ++ hs.flatMap HunkBlock.lines ++ rest)).pending = [] ∧
      (sections (lines ++ hs.flatMap HunkBlock.lines ++ rest)).found ≠ [] := by
  induction hs using List.reverseRecOn generalizing rest with
  | nil =>
    obtain ⟨k, hk, -⟩ := hreadable
    cases hk
  | append_singleton hs k ih =>
    have hcontent : ∀ line ∈ (k.content.map fun l => l.bytes) ++ rest,
        Sections.inside lineRange opensFile line = true := by
      intro line hline
      obtain hline | hline := mem_append.mp hline
      · obtain ⟨l, -, rfl⟩ := mem_map.mp hline
        exact inside_plain l
      · exact hrest line hline
    have hlines : lines ++ (hs ++ [k]).flatMap HunkBlock.lines ++ rest =
        (lines ++ hs.flatMap HunkBlock.lines) ++
          k.mark :: ((k.content.map fun l => l.bytes) ++ rest) := by
      simp [HunkBlock.lines]
    rw [hlines]
    by_cases hk : k.Readable
    · exact Sections.pending_cut (by rw [k.lineRange_mark, if_pos hk]) hcontent
    · have hearlier : ∃ k ∈ hs, k.Readable := by
        obtain ⟨j, hj, hjreadable⟩ := hreadable
        obtain hj | hj := mem_append.mp hj
        · exact ⟨j, hj, hjreadable⟩
        · rw [mem_singleton] at hj
          exact absurd (hj ▸ hjreadable) hk
      apply ih hearlier
      intro line hline
      obtain rfl | hline := mem_cons.mp hline
      · exact inside_unreadable hk
      · exact hcontent line hline

variable {lines : List Bytes}

theorem found_eq_nil_iff (hfilter : lines.filter opensHunk = hs.map HunkBlock.mark) :
    (sections lines).found = [] ↔ ∀ k ∈ hs, ¬k.Readable := by
  rw [← keys_eq_nil hfilter, ← (exact_sections lines).keys, map_eq_nil_iff]

theorem pending_block {g : FileBlock} (hfound : (sections lines).found ≠ [])
    (hnone : ∀ k ∈ hs, ¬k.Readable) :
    (sections (lines ++ g.header ++ hs.flatMap HunkBlock.lines)).pending =
      (sections lines).pending ++ g.header ++ hs.flatMap HunkBlock.lines := by
  have hnokey : (g.header ++ hs.flatMap HunkBlock.lines).filterMap lineRange = [] := by
    apply (keys_eq_nil _).mpr hnone
    rw [filter_append, FileBlock.filter_header, HunkBlock.filter_flatMap, nil_append]
  have hcut : sections (lines ++ g.opening :: ((g.info.map fun l => l.bytes) ++
      hs.flatMap HunkBlock.lines)) = { sections lines with
        pending := (sections lines).pending ++ g.opening :: ((g.info.map fun l => l.bytes) ++
          hs.flatMap HunkBlock.lines) } :=
    Sections.cut_waiting hfound g.opensFile_opening hnokey
  have hassoc : ∀ ls : List Bytes, ls ++ g.header ++ hs.flatMap HunkBlock.lines =
      ls ++ g.opening :: ((g.info.map fun l => l.bytes) ++ hs.flatMap HunkBlock.lines) := by
    intro ls
    simp [FileBlock.header]
  rw [hassoc, hcut, hassoc]

theorem filter_reads {mark : List Char} (hmark : ∀ c ∈ mark, c.toNat < 128)
    (lines : List Bytes) :
    (reads lines).filter (fun line => mark.isPrefixOf line) =
      reads (lines.filter fun line => (Utf8.encode mark).isPrefixOf line) := by
  unfold reads
  rw [List.filter_map]
  congr 2
  funext line
  exact Utf8.isPrefixOf_lossy hmark line

theorem reads_filter {xs ys : List Bytes} (hreads : reads xs = reads ys) :
    reads (xs.filter opensFile) = reads (ys.filter opensFile) ∧
      reads (xs.filter opensHunk) = reads (ys.filter opensHunk) := by
  constructor
  · have hsame := congrArg (List.filter fun line => fileMark.toList.isPrefixOf line) hreads
    rw [filter_reads ascii_fileMark, filter_reads ascii_fileMark] at hsame
    exact hsame
  · have hsame := congrArg (List.filter fun line => hunkMark.toList.isPrefixOf line) hreads
    rw [filter_reads ascii_hunkMark, filter_reads ascii_hunkMark] at hsame
    exact hsame

theorem filterFile_plain (ls : List PlainLine) :
    (ls.map fun l => l.bytes).filter opensFile = [] := by
  rw [filter_eq_nil_iff]
  intro line hline
  obtain ⟨l, -, rfl⟩ := mem_map.mp hline
  simp [l.inFile]

theorem filterFile_header (g : FileBlock) : g.header.filter opensFile = [g.opening] := by
  unfold FileBlock.header
  rw [filter_cons_of_pos g.opensFile_opening, filterFile_plain]

theorem one_file (hreads : reads lines = reads f.header) :
    (lines.filter opensFile).length = 1 ∧ lines.filter opensHunk = [] := by
  obtain ⟨hfile, hhunk⟩ := reads_filter hreads
  rw [filterFile_header] at hfile
  rw [FileBlock.filter_header] at hhunk
  constructor
  · have hlength := congrArg List.length hfile
    simpa [reads] using hlength
  · simpa [reads] using hhunk

theorem flatMap_lines_eq_nil (hnone : (lines ++ hs.flatMap HunkBlock.lines).filter opensHunk = []) :
    hs = [] := by
  rw [filter_append, HunkBlock.filter_flatMap, append_eq_nil_iff,
    map_eq_nil_iff] at hnone
  exact hnone.2

theorem reads_lead_iff (p : d.Place) :
    reads (sections d.patch).lead = reads f.header ↔
      ∃ first ∈ d.files.head?, (∃ k ∈ first.hunks.head?, k.Readable) ∧
        reads first.header = reads f.header := by
  have hfiles := p.files
  have hhunks := p.hunks
  cases hd : d.files with
  | nil =>
    rw [hd] at hfiles
    simp at hfiles
  | cons first others =>
    have hpatch : d.patch = first.header ++ (first.hunks.flatMap HunkBlock.lines ++
        others.flatMap FileBlock.lines) := by
      unfold DiffOutput.patch
      rw [hd, flatMap_cons]
      exact append_assoc _ _ _
    have hnokey : first.header.filterMap lineRange = [] := by
      rw [filterMap_lineRange, FileBlock.filter_header]
      rfl
    have hlead : (sections d.patch).lead = first.header ++
        (sections
          (first.hunks.flatMap HunkBlock.lines ++ others.flatMap FileBlock.lines)).lead := by
      rw [hpatch]
      exact Sections.lead_append hnokey _
    rw [hlead]
    simp only [head?_cons, Option.mem_some_iff, exists_eq_left']
    cases hfirst : first.hunks with
    | nil =>
      -- the first file has no hunk, so the block of another follows its header
      obtain ⟨g, gs, hothers⟩ : ∃ g gs, others = g :: gs := by
        rw [hd] at hfiles
        cases hbefore : p.before with
        | nil =>
          rw [hbefore] at hfiles
          obtain ⟨rfl, -⟩ := List.cons.inj hfiles
          rw [hfirst] at hhunks
          simp at hhunks
        | cons b bs =>
          rw [hbefore] at hfiles
          obtain ⟨-, hrest⟩ := List.cons.inj hfiles
          exact exists_cons_of_ne_nil (by rw [hrest]; simp)
      have hopening : lineRange g.opening = none := by
        unfold lineRange
        rw [g.opensHunk_opening]
        rfl
      have htwo : (sections ([].flatMap HunkBlock.lines ++ others.flatMap FileBlock.lines)).lead =
          g.opening :: (sections ((g.info.map fun l => l.bytes) ++
            g.hunks.flatMap HunkBlock.lines ++ gs.flatMap FileBlock.lines)).lead := by
        have hlines : [].flatMap HunkBlock.lines ++ others.flatMap FileBlock.lines =
            g.opening :: ((g.info.map fun l => l.bytes) ++ g.hunks.flatMap HunkBlock.lines ++
              gs.flatMap FileBlock.lines) := by
          simp [hothers, FileBlock.lines, FileBlock.header]
        rw [hlines]
        exact Sections.lead_cons_of_none hopening _
      refine iff_of_false ?_ (by simp)
      intro hreads
      have hcount := (one_file hreads).1
      rw [htwo, filter_append, filterFile_header,
        filter_cons_of_pos g.opensFile_opening] at hcount
      simp at hcount
    | cons k ks =>
      simp only [head?_cons, Option.mem_some_iff, exists_eq_left']
      rw [flatMap_cons, append_assoc]
      have hmark : lineRange k.mark = if k.Readable then some k.range else none :=
        k.lineRange_mark
      by_cases hk : k.Readable
      · have hrest : (sections (k.lines ++
            (ks.flatMap HunkBlock.lines ++ others.flatMap FileBlock.lines))).lead = [] := by
          rw [if_pos hk] at hmark
          exact Sections.lead_cons_of_key hmark _
        rw [hrest, append_nil]
        exact (and_iff_right hk).symm
      · have hrest : (sections (k.lines ++
            (ks.flatMap HunkBlock.lines ++ others.flatMap FileBlock.lines))).lead =
            k.mark :: (sections ((k.content.map fun l => l.bytes) ++
              (ks.flatMap HunkBlock.lines ++ others.flatMap FileBlock.lines))).lead := by
          rw [if_neg hk] at hmark
          exact Sections.lead_cons_of_none hmark _
        refine iff_of_false ?_ fun h => hk h.1
        intro hreads
        have hnone := (one_file hreads).2
        rw [hrest, filter_append, filter_cons_of_pos k.opensHunk_mark] at hnone
        simp at hnone

theorem pending_files_iff {fs : List FileBlock}
    (hreadable : ∃ k ∈ fs.flatMap FileBlock.hunks, k.Readable) :
    (sections (fs.flatMap FileBlock.lines)).pending = [] ↔
      ∀ b ∈ fs.getLast?, ∃ k ∈ b.hunks, k.Readable := by
  obtain rfl | ⟨init, b, rfl⟩ := fs.eq_nil_or_concat
  · obtain ⟨k, hk, -⟩ := hreadable
    cases hk
  · rw [concat_eq_append] at hreadable ⊢
    have hlines : (init ++ [b]).flatMap FileBlock.lines =
        init.flatMap FileBlock.lines ++ b.header ++ b.hunks.flatMap HunkBlock.lines := by
      simp [FileBlock.lines]
    rw [hlines, getLast?_append_of_ne_nil _ (by simp), getLast?_singleton]
    simp only [Option.mem_some_iff, forall_eq']
    constructor
    · intro hpending
      by_contra hlast
      have hnone : ∀ k ∈ b.hunks, ¬k.Readable := fun k hk hread => hlast ⟨k, hk, hread⟩
      have hfound : (sections (init.flatMap FileBlock.lines)).found ≠ [] := by
        rw [ne_eq, found_eq_nil_iff (FileBlock.filter_flatMap init)]
        intro hinit
        obtain ⟨k, hk, hread⟩ := hreadable
        rw [flatMap_append, flatMap_singleton] at hk
        obtain hk | hk := mem_append.mp hk
        · exact hinit k hk hread
        · exact hnone k hk hread
      rw [pending_block hfound hnone] at hpending
      simp [FileBlock.header] at hpending
    · intro hlast
      have hpending := (pending_of_readable hlast
        (init.flatMap FileBlock.lines ++ b.header) [] (by simp)).1
      rwa [append_nil] at hpending

variable {p : d.Place}

/-- The patch has the header of `f` above the hunk's `@@` line exactly when the hunk is under it. -/
theorem First.reads_above_iff (hp : p.First range) :
    reads p.above = reads f.header ↔ p.Under f := by
  have hkey : lineRange p.hunk.mark = some range := by
    rw [p.hunk.lineRange_mark, if_pos hp.1.1, hp.1.2]
  by_cases hearlier : ∃ k ∈ p.earlier, k.Readable
  · have hlead : (sections p.linesAhead).lead = (sections d.patch).lead := by
      rw [p.patch_eq]
      exact (Sections.finish_cut hkey p.linesAhead p.linesBehind).1.symm
    have hpending := (pending_of_readable hearlier
      (p.before.flatMap FileBlock.lines ++ p.file.header) [] (by simp)).1
    rw [append_nil] at hpending
    have habove : p.above = (sections d.patch).lead := by
      unfold above
      rw [← hlead]
      exact if_pos hpending
    have hne : p.earlier ≠ [] := by
      obtain ⟨k, hk, -⟩ := hearlier
      exact ne_nil_of_mem hk
    rw [habove, p.reads_lead_iff]
    unfold Under
    constructor
    · intro h
      exact .inr ⟨hearlier, h⟩
    · rintro (⟨hnil, -⟩ | ⟨-, h⟩)
      · exact absurd hnil hne
      · exact h
  · have hnone : ∀ k ∈ p.earlier, ¬k.Readable := fun k hk hread => hearlier ⟨k, hk, hread⟩
    have hunder : p.Under f ↔ p.earlier = [] ∧
        (∀ b ∈ p.before.getLast?, ∃ k ∈ b.hunks, k.Readable) ∧
          reads p.file.header = reads f.header := by
      unfold Under
      exact or_iff_left fun h => hearlier h.1
    rw [hunder]
    by_cases hbefore : ∃ k ∈ p.before.flatMap FileBlock.hunks, k.Readable
    · -- a hunk of another file is read before: the header waits, with what waits behind that file
      have hfound : (sections (p.before.flatMap FileBlock.lines)).found ≠ [] := by
        rw [ne_eq, found_eq_nil_iff (FileBlock.filter_flatMap p.before)]
        intro hall
        obtain ⟨k, hk, hread⟩ := hbefore
        exact hall k hk hread
      have hpending := pending_block (g := p.file) hfound hnone
      have habove : p.above = (sections (p.before.flatMap FileBlock.lines)).pending ++
          p.file.header ++ p.earlier.flatMap HunkBlock.lines := by
        unfold above linesAhead
        rw [if_neg (by rw [hpending]; simp [FileBlock.header]), hpending]
      rw [habove, ← pending_files_iff hbefore]
      constructor
      · intro hreads
        obtain ⟨hone, hnohunk⟩ := one_file hreads
        have hnil := flatMap_lines_eq_nil hnohunk
        have hwaits : (sections (p.before.flatMap FileBlock.lines)).pending = [] := by
          by_contra hwaiting
          obtain ⟨y, ys, hy, hbreaks⟩ :=
            Sections.pending_breaks (p.before.flatMap FileBlock.lines) hwaiting
          have hpending' : (sections (p.before.flatMap FileBlock.lines)).pending = y :: ys := hy
          rw [hpending', hnil, filter_append, filter_append, filterFile_header,
            filter_cons_of_pos hbreaks] at hone
          simp at hone
        rw [hwaits, hnil] at hreads
        simp only [nil_append, flatMap_nil, append_nil] at hreads
        exact ⟨hnil, hwaits, hreads⟩
      · rintro ⟨hnil, hwaits, hreads⟩
        rw [hwaits, hnil]
        simpa using hreads
    · -- no hunk is read before: all the lines so far lead
      have hnokey : p.linesAhead.filterMap lineRange = [] := by
        rw [keys_eq_nil p.filter_ahead]
        intro k hk hread
        obtain hk | hk := mem_append.mp hk
        · exact hbefore ⟨k, hk, hread⟩
        · exact hnone k hk hread
      have habove : p.above = p.linesAhead := by
        unfold above sections
        rw [Sections.cut_of_no_key hnokey]
        rfl
      rw [habove]
      unfold linesAhead
      constructor
      · intro hreads
        obtain ⟨hone, hnohunk⟩ := one_file hreads
        have hnil := flatMap_lines_eq_nil hnohunk
        have hfirst : p.before = [] := by
          cases hbs : p.before with
          | nil => rfl
          | cons b bs =>
            rw [hbs, flatMap_cons, filter_append, filter_append,
              filter_append, filterFile_header, FileBlock.lines, filter_append,
              filterFile_header] at hone
            simp at hone
        rw [hfirst, hnil] at hreads
        refine ⟨hnil, by simp [hfirst], by simpa using hreads⟩
      · rintro ⟨hnil, hlast, hreads⟩
        have hfirst : p.before = [] := by
          obtain hbs | ⟨init, b, hbs⟩ := p.before.eq_nil_or_concat
          · exact hbs
          · rw [concat_eq_append] at hbs
            obtain ⟨k, hk, hread⟩ := hlast b (by simp [hbs])
            exact absurd ⟨k, by simp [hbs, hk], hread⟩ hbefore
        rw [hfirst, hnil]
        simpa using hreads

theorem EndsAlone.below (hp : p.EndsAlone) : p.below = p.hunk.content.map fun l => l.bytes := by
  obtain ⟨hnext, hends⟩ := hp
  have hcontent : ∀ line ∈ p.hunk.content.map (fun l => l.bytes),
      Sections.inside lineRange opensFile line = true := by
    intro line hline
    obtain ⟨l, -, rfl⟩ := mem_map.mp hline
    exact inside_plain l
  obtain hread | ⟨hlater, hafter⟩ := hends
  · have hkeys : p.linesBehind.filterMap lineRange ≠ [] := by
      rw [ne_eq, keys_eq_nil p.filter_behind]
      intro hnone
      obtain ⟨k, hk, hreadable⟩ := hread
      exact hnone k hk hreadable
    unfold Place.below
    rw [if_neg hkeys]
    unfold linesBehind
    rw [append_assoc, takeWhile_append_of_pos hcontent]
    have hstop : (p.later.flatMap HunkBlock.lines ++ p.after.flatMap FileBlock.lines).takeWhile
        (Sections.inside lineRange opensFile) = [] := by
      cases hlater : p.later with
      | cons k ks =>
        have hk : k.Readable := hnext k (by simp [hlater])
        have hinside : Sections.inside lineRange opensFile k.mark = false := by
          unfold Sections.inside
          rw [k.lineRange_mark, if_pos hk]
          rfl
        exact takeWhile_cons_of_neg (by simp [hinside])
      | nil =>
        cases hafter : p.after with
        | nil =>
          obtain ⟨k, hk, -⟩ := hread
          unfold behind at hk
          rw [hlater, hafter] at hk
          cases hk
        | cons g gs =>
          have hinside : Sections.inside lineRange opensFile g.opening = false := by
            unfold Sections.inside
            rw [g.opensFile_opening, Bool.not_true, Bool.and_false]
          exact takeWhile_cons_of_neg (by simp [hinside])
    rw [hstop, append_nil]
  · have hbehind : p.linesBehind = p.hunk.content.map fun l => l.bytes := by
      unfold linesBehind
      rw [hlater, hafter]
      simp
    unfold Place.below
    rw [hbehind]
    split_ifs
    · rfl
    · exact takeWhile_eq_self_iff.mpr hcontent

/-- A patch that opens nothing under the hunk's `@@` line ends alone. -/
theorem endsAlone_of_below (hfile : p.below.filter opensFile = [])
    (hhunk : p.below.filter opensHunk = []) : p.EndsAlone := by
  by_cases hkeys : p.linesBehind.filterMap lineRange = []
  · unfold below at hfile hhunk
    rw [if_pos hkeys] at hfile hhunk
    rw [p.filter_behind, map_eq_nil_iff] at hhunk
    have hlater : p.later = [] := (append_eq_nil_iff.mp hhunk).1
    have hafter : p.after = [] := by
      cases hgs : p.after with
      | nil => rfl
      | cons g gs =>
        unfold linesBehind at hfile
        rw [hgs, flatMap_cons, FileBlock.lines, FileBlock.header] at hfile
        simp [g.opensFile_opening] at hfile
    exact ⟨by simp [hlater], .inr ⟨hlater, hafter⟩⟩
  · have hread : ∃ k ∈ p.behind, k.Readable := by
      rw [keys_eq_nil p.filter_behind] at hkeys
      push Not at hkeys
      exact hkeys
    refine ⟨?_, .inl hread⟩
    intro k hk
    by_contra hunreadable
    unfold below at hhunk
    rw [if_neg hkeys] at hhunk
    obtain ⟨ks, hlater⟩ : ∃ ks, p.later = k :: ks := head?_eq_some_iff.mp hk
    have hlines : p.linesBehind = (p.hunk.content.map fun l => l.bytes) ++ (k.mark ::
        ((k.content.map fun l => l.bytes) ++ ks.flatMap HunkBlock.lines ++
          p.after.flatMap FileBlock.lines)) := by
      unfold linesBehind
      rw [hlater]
      simp [HunkBlock.lines]
    have hcontent : ∀ line ∈ p.hunk.content.map (fun l => l.bytes),
        Sections.inside lineRange opensFile line = true := by
      intro line hline
      obtain ⟨l, -, rfl⟩ := mem_map.mp hline
      exact inside_plain l
    rw [hlines, takeWhile_append_of_pos hcontent,
      takeWhile_cons_of_pos (inside_unreadable hunreadable), filter_append,
      filter_cons_of_pos k.opensHunk_mark] at hhunk
    simp at hhunk

end Place

def Singled (d : DiffOutput) (f : FileBlock) (h : HunkBlock) : Prop :=
  ∃ p : d.Place, p.First h.range ∧ p.Under f ∧ p.EndsAlone ∧ reads p.hunk.lines = reads h.lines

end DiffOutput

theorem isLine_patch (f : FileBlock) (h : HunkBlock) :
    ∀ line ∈ f.header ++ h.lines, Lines.IsLine newline line := by
  intro line hline
  have hmem : line ∈ DiffOutput.patch ⟨[], [{ f with hunks := [h] }]⟩ := by
    unfold DiffOutput.patch
    simpa [FileBlock.lines, FileBlock.header, FileBlock.opening] using hline
  exact DiffOutput.isLine_patch hmem

theorem text_eq_iff {xs ys : List Bytes} (hxs : ∀ line ∈ xs, Lines.IsLine newline line)
    (hys : ∀ line ∈ ys, Lines.IsLine newline line) :
    text xs.flatten = text ys.flatten ↔ reads xs = reads ys := by
  constructor
  · intro heq
    have hsplit := congrArg (fun t => Lines.splitInclusive '\n' t.toList) heq
    rwa [splitInclusive_text hxs, splitInclusive_text hys] at hsplit
  · intro hreads
    unfold text
    rw [lossy_flatten hxs, lossy_flatten hys, flatMap_def, flatMap_def]
    exact congrArg (fun ls => String.ofList ls.flatten) hreads

/-- Two lists that agree are cut alike where a property first holds. -/
theorem eq_of_first {α : Type} {P : α → Prop} {xs ys xs' ys' : List α} {x x' : α}
    (heq : xs ++ x :: ys = xs' ++ x' :: ys') (hxs : ∀ a ∈ xs, ¬P a) (hx : P x)
    (hxs' : ∀ a ∈ xs', ¬P a) (hx' : P x') : xs = xs' ∧ x = x' ∧ ys = ys' := by
  induction xs generalizing xs' with
  | nil =>
    cases xs' with
    | nil =>
      obtain ⟨rfl, rfl⟩ := List.cons.inj heq
      exact ⟨rfl, rfl, rfl⟩
    | cons a as =>
      obtain ⟨rfl, -⟩ := List.cons.inj heq
      exact absurd hx (hxs' x (.head _))
  | cons a as ih =>
    cases xs' with
    | nil =>
      obtain ⟨rfl, -⟩ := List.cons.inj heq
      exact absurd hx' (hxs a (.head _))
    | cons b bs =>
      obtain ⟨rfl, hrest⟩ := List.cons.inj heq
      obtain ⟨rfl, hsame⟩ := ih hrest (fun c hc => hxs c (.tail _ hc))
        (fun c hc => hxs' c (.tail _ hc))
      exact ⟨rfl, hsame⟩

theorem opensHunk_iff (line : Bytes) :
    hunkMark.toList <+: Utf8.lossy line ↔ opensHunk line = true := by
  unfold opensHunk bytesOf
  rw [List.isPrefixOf_iff_prefix]
  exact Utf8.prefix_lossy_iff ascii_hunkMark

theorem not_opensHunk_of_filter {lines : List Bytes} (hnone : lines.filter opensHunk = []) :
    ∀ l ∈ reads lines, ¬hunkMark.toList <+: l := by
  intro l hl
  obtain ⟨line, hline, rfl⟩ := mem_map.mp hl
  rw [opensHunk_iff]
  exact filter_eq_nil_iff.mp hnone line hline

/-- A patch that reads as a header and a hunk has the header above its `@@` line. -/
theorem DiffOutput.Place.reads_patch {d : DiffOutput} {p : d.Place} {f : FileBlock} {h : HunkBlock}
    (hreads : reads (p.above ++ p.hunk.mark :: p.below) = reads (f.header ++ h.lines)) :
    reads p.above = reads f.header ∧ p.below.filter opensFile = [] ∧
      p.below.filter opensHunk = [] ∧
      reads (p.hunk.mark :: p.below) = reads h.lines := by
  have hone : reads ((p.above ++ p.hunk.mark :: p.below).filter opensHunk) = reads [h.mark] := by
    rw [(reads_filter hreads).2, filter_append, FileBlock.filter_header,
      HunkBlock.filter_lines, nil_append]
  have hlength := congrArg List.length hone
  rw [filter_append, filter_cons_of_pos p.hunk.opensHunk_mark] at hlength
  simp only [reads, length_map, List.length_append, length_cons, length_nil]
    at hlength
  have habove : p.above.filter opensHunk = [] := length_eq_zero_iff.mp (by omega)
  have hbelow : p.below.filter opensHunk = [] := length_eq_zero_iff.mp (by omega)
  have hsplit : reads p.above ++ Utf8.lossy p.hunk.mark :: reads p.below =
      reads f.header ++ Utf8.lossy h.mark :: reads (h.content.map fun l => l.bytes) := by
    simpa [reads, HunkBlock.lines] using hreads
  obtain ⟨hheader, hmark, hcontent⟩ := eq_of_first hsplit (not_opensHunk_of_filter habove)
    ((opensHunk_iff _).mpr p.hunk.opensHunk_mark)
    (not_opensHunk_of_filter f.filter_header) ((opensHunk_iff _).mpr h.opensHunk_mark)
  have hfile : p.below.filter opensFile = [] := by
    have hnone := (reads_filter hcontent).1
    rw [filterFile_plain] at hnone
    exact map_eq_nil_iff.mp hnone
  refine ⟨hheader, hfile, hbelow, ?_⟩
  show Utf8.lossy p.hunk.mark :: reads p.below = Utf8.lossy h.mark :: reads _
  rw [hmark, hcontent]

/-- The patch of a hunk is exact when the first hunk read at its range is the one it stands for,
alone under its file's header, and the bytes are text. -/
theorem hunk_patch_exact_iff (d : DiffOutput) (f : FileBlock) (h : HunkBlock) :
    d.PatchExact f h ↔ d.Singled f h ∧ Utf8.Valid (f.header ++ h.lines).flatten := by
  have htarget := isLine_patch f h
  have hlines : ∀ p : d.Place, ∀ line ∈ p.above ++ p.hunk.mark :: p.below,
      Lines.IsLine newline line := by
    intro p line hline
    obtain hline | hline := List.mem_append.mp hline
    · exact DiffOutput.Place.isLine_above hline
    · obtain rfl | hline := List.mem_cons.mp hline
      · exact p.hunk.isLine_mark
      · exact DiffOutput.Place.isLine_below hline
  unfold DiffOutput.PatchExact
  constructor
  · intro hexact
    obtain ⟨patch, hpatch, hbytes⟩ := Option.map_eq_some_iff.mp hexact
    have hfound : oneHunk (DiffParse.parse d.bytes) h.range ≠ none := by
      rw [hpatch]
      simp
    obtain ⟨p, hp⟩ := DiffOutput.Place.exists_first hfound
    rw [hp.oneHunk] at hpatch
    cases hpatch
    have hencode : Utf8.encode (Utf8.lossy (p.above ++ p.hunk.mark :: p.below).flatten) =
        (f.header ++ h.lines).flatten := by
      unfold bytesOf text at hbytes
      rwa [String.toList_ofList] at hbytes
    have htext : text (p.above ++ p.hunk.mark :: p.below).flatten =
        text (f.header ++ h.lines).flatten := by
      unfold text
      rw [← hencode, Utf8.lossy_encode]
    obtain ⟨habove, hfile, hhunk, hmark⟩ :=
      DiffOutput.Place.reads_patch ((text_eq_iff (hlines p) htarget).mp htext)
    have hends : p.EndsAlone := DiffOutput.Place.endsAlone_of_below hfile hhunk
    rw [hends.below] at hmark
    exact ⟨⟨p, hp, hp.reads_above_iff.mp habove, hends, hmark⟩,
      Utf8.valid_iff.mpr ⟨_, hencode.symm⟩⟩
  · rintro ⟨⟨p, hp, hunder, hends, hmark⟩, hvalid⟩
    have hreads : reads (p.above ++ p.hunk.mark :: p.below) = reads (f.header ++ h.lines) := by
      have habove := hp.reads_above_iff.mpr hunder
      have hbelow : reads (p.hunk.mark :: p.below) = reads h.lines := by
        rw [hends.below]
        exact hmark
      unfold reads at habove hbelow ⊢
      rw [List.map_append, List.map_append, habove, hbelow]
    have htext := (text_eq_iff (hlines p) htarget).mpr hreads
    rw [hp.oneHunk, Option.map_some, htext]
    unfold bytesOf text
    rw [String.toList_ofList, Utf8.encode_lossy_iff.mpr hvalid]

def oneLineHunk (start : ℕ) : HunkBlock :=
  ⟨⟨start, none⟩, ⟨start, none⟩, emptyLine, [removedLine]⟩

def firstFile : FileBlock := ⟨⟨bytesOf "a/a b/a", by decide⟩, [], [oneLineHunk 1]⟩

def secondFile : FileBlock := ⟨⟨bytesOf "a/b b/b", by decide⟩, [], [oneLineHunk 2, oneLineHunk 9]⟩

theorem patch_names_first_file :
    ∃ f ∈ [firstFile, secondFile], ∃ h ∈ f.hunks,
      ¬DiffOutput.PatchExact ⟨[], [firstFile, secondFile]⟩ f h := by
  refine ⟨secondFile, by simp, oneLineHunk 9, by simp [secondFile], ?_⟩
  unfold DiffOutput.PatchExact
  decide

end Soloist
