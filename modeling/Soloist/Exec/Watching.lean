import Mathlib.Data.List.Chain
import Soloist.Machine
import Soloist.Text
import Soloist.Utf8

/-! What a run says about itself, as it is collected and, on a watched run, heard: one thread reads
it and leaves the latest remark in a slot, and the thread that waits for the run takes it there. -/
open List

namespace Soloist.Exec

def remarkLimit : ℕ := 512

def bufferSize : ℕ := 4096

def account (written : Bytes) : String := trim (String.ofList (Utf8.lossy written))

/-- The collector of a run that nobody watches: no read asks for more than the limit leaves. -/
def readDiagnostics (limit : ℕ) (written : Bytes) : List Bytes → Bytes
  | [] => written
  | read :: reads => readDiagnostics limit (written ++ read.take (limit - written.length)) reads

/-- A remark that was handed to the observer: the clock when it was due, and after it was told. -/
structure Report where
  due : ℕ
  told : ℕ
  remark : String

structure Watching where
  unread : Bytes
  /-- What the last read brought, as far as it is still to be looked at. -/
  chunk : Bytes
  written : Bytes
  remark : Bytes
  latest : Option String
  ended : Bool
  reported : Option ℕ
  clock : ℕ
  reports : List Report
  /-- The remark that was taken when the collector had been joined. -/
  final : Option String
  returned : Bool

inductive WatchStep
  | read (n : ℕ)
  | byte
  | eof
  | poll (now told : ℕ)
  | takeLast

namespace Watching

def isBreak (byte : UInt8) : Bool := byte = 0x0D || byte = 0x0A

def publish (s : Watching) : Watching :=
  let said := account s.remark
  { s with remark := [], latest := if said = "" then s.latest else some said }

def look (s : Watching) (byte : UInt8) : Watching :=
  if isBreak byte then s.publish
  else if s.remark.length < remarkLimit then { s with remark := s.remark ++ [byte] }
  else s

def report (s : Watching) (interval now told : ℕ) : Watching :=
  if s.reported.all fun last => interval ≤ now - last then
    match s.latest with
    | none => { s with clock := told }
    | some remark =>
      { s with
        latest := none
        reported := some told
        clock := told
        reports := s.reports ++ [⟨now, told, remark⟩] }
  else { s with clock := told }

def step (limit interval : ℕ) (s : Watching) : WatchStep → Option Watching
  | .read n =>
    if s.chunk = [] ∧ s.ended = false ∧ 0 < n ∧ n ≤ bufferSize ∧ n ≤ s.unread.length then
      let chunk := s.unread.take n
      let room := min (limit - s.written.length) n
      some { s with
        unread := s.unread.drop n
        chunk
        written := s.written ++ chunk.take room }
    else none
  | .byte =>
    match s.chunk with
    | [] => none
    | byte :: chunk => some ({ s with chunk }.look byte)
  | .eof => if s.chunk = [] ∧ s.unread = [] then some { s with ended := true } else none
  | .poll now told =>
    if s.returned = false ∧ s.clock ≤ now ∧ now ≤ told then some (s.report interval now told) else none
  | .takeLast =>
    if s.ended = true ∧ s.returned = false then
      some { s with latest := none, final := s.latest, returned := true }
    else none

def start (stream : Bytes) : Watching :=
  ⟨stream, [], [], [], none, false, none, 0, [], none, false⟩

/-- The collector and the waiting thread in any order of their steps. -/
def machine (limit interval : ℕ) (stream : Bytes) : Machine Watching WatchStep where
  init s := s = start stream
  step := step limit interval

def heard (s : Watching) : List String := s.reports.map Report.remark ++ s.final.toList

/-- What a piece of the stream says, if it says something. -/
def say (piece : Bytes) : List String :=
  let said := account (piece.take remarkLimit)
  if said = "" then [] else [said]

def pieces (stream : Bytes) : List Bytes := stream.splitOnP isBreak

def remarks (stream : Bytes) : List String := (pieces stream).flatMap say

def said (stream : Bytes) : List String := (pieces stream).dropLast.flatMap say

def unsaid (stream : Bytes) : List String := ((pieces stream).getLast?.map say).getD []

/-- What watching a run is to come to. -/
structure Exact (limit interval : ℕ) (stream : Bytes) (s : Watching) : Prop where
  account : ∀ reads : List Bytes, reads.flatten = stream →
    account s.written = account (readDiagnostics limit [] reads)
  remarks : s.heard.Sublist (remarks stream)
  nonempty : "" ∉ s.heard
  spaced : s.reports.IsChain fun a b => a.told + interval ≤ b.due
  last : s.heard.getLast? = (Watching.remarks stream).getLast?

/-- One slot between them: what was taken from it and what is in it are some of what was put in it,
in order, with the last. -/
structure Coalesces (put taken : List String) (slot : Option String) : Prop where
  kept : (taken ++ slot.toList).Sublist put
  last : (taken ++ slot.toList).getLast? = put.getLast?

/-- Where the collector and the observer are in the stream. -/
structure Follows (limit interval : ℕ) (stream : Bytes) (s : Watching) : Prop where
  written : ∃ read, stream = read ++ s.unread ∧ s.written = read.take limit
  parsed : ∃ (done : List Bytes) (rest : Bytes), pieces stream =
      done ++ List.splitOnPPrepend isBreak (s.chunk ++ s.unread) rest.reverse ∧
    s.remark = rest.take remarkLimit ∧ Coalesces (done.flatMap say) s.heard s.latest
  spaced : s.reports.IsChain fun a b => a.told + interval ≤ b.due
  reported : s.reported = s.reports.getLast?.map Report.told
  clock : ∀ told, s.reported = some told → told ≤ s.clock
  ended : s.ended = true → s.chunk = [] ∧ s.unread = []
  unreturned : s.returned = false → s.final = none
  returned : s.returned = true → s.ended = true ∧ s.latest = none

variable {limit interval : ℕ} {stream : Bytes} {s t : Watching} {put taken : List String}
  {slot : Option String}

theorem Coalesces.publish (h : Coalesces put taken slot) (piece : Bytes) :
    Coalesces (put ++ say piece) taken
      (if account (piece.take remarkLimit) = "" then slot else some (account (piece.take remarkLimit))) := by
  unfold say
  dsimp only
  split_ifs with hblank
  · rwa [append_nil]
  · have hsome : taken.Sublist put := (sublist_append_left _ _).trans h.kept
    exact ⟨hsome.append_right _, by simp⟩

theorem Coalesces.take {remark : String} (h : Coalesces put taken (some remark)) :
    Coalesces put (taken ++ [remark]) none := by
  refine ⟨?_, ?_⟩
  · simpa using h.kept
  · simpa using h.last

theorem readDiagnostics_eq (written : Bytes) (reads : List Bytes) :
    readDiagnostics limit written reads =
      written ++ reads.flatten.take (limit - written.length) := by
  induction reads generalizing written with
  | nil => simp [readDiagnostics]
  | cons read reads ih =>
    have hleft : limit - (written ++ read.take (limit - written.length)).length =
        limit - written.length - read.length := by
      simp only [List.length_append, length_take]
      omega
    rw [readDiagnostics, ih, hleft, flatten_cons, take_append, append_assoc]

theorem follows_start : Follows limit interval stream (start stream) where
  written := ⟨[], rfl, by simp [start]⟩
  parsed := ⟨[], [], rfl, rfl, ⟨List.Sublist.refl _, rfl⟩⟩
  spaced := List.IsChain.nil
  reported := rfl
  clock _ h := by cases h
  ended h := by cases h
  unreturned _ := rfl
  returned h := by cases h

theorem Follows.read {n : ℕ} (h : Follows limit interval stream s) (hchunk : s.chunk = [])
    (hended : s.ended = false) :
    Follows limit interval stream { s with
      unread := s.unread.drop n
      chunk := s.unread.take n
      written := s.written ++ (s.unread.take n).take (min (limit - s.written.length) n) } := by
  obtain ⟨read, hstream, hwritten⟩ := h.written
  refine ⟨⟨read ++ s.unread.take n, ?_, ?_⟩, ?_, h.spaced, h.reported, h.clock, ?_, h.unreturned, ?_⟩
  · rw [append_assoc, take_append_drop]
    exact hstream
  · have hroom : limit - s.written.length = limit - read.length := by
      rw [hwritten, length_take]
      omega
    have hkept : (s.unread.take n).take (min (limit - s.written.length) n) =
        (s.unread.take n).take (limit - read.length) := by
      rw [hroom, take_take, take_take, Nat.min_assoc, Nat.min_self]
    rw [take_append, ← hwritten, hkept]
  · obtain ⟨done, rest, hpieces, hremark, hslot⟩ := h.parsed
    rw [hchunk, nil_append] at hpieces
    exact ⟨done, rest, by rw [take_append_drop, hpieces], hremark, hslot⟩
  · simp [hended]
  · intro hreturned
    simp [(h.returned hreturned).1] at hended

theorem heard_publish : s.publish.heard = s.heard := rfl

theorem latest_publish : s.publish.latest =
    if account s.remark = "" then s.latest else some (account s.remark) := by
  simp only [Watching.publish]

variable (h : Follows limit interval stream s)
include h

theorem Follows.look {byte : UInt8} {chunk : Bytes}
    (hchunk : s.chunk = byte :: chunk) :
    Follows limit interval stream ({ s with chunk }.look byte) := by
  obtain ⟨done, rest, hpieces, hremark, hslot⟩ := h.parsed
  have hended : s.ended ≠ true := by
    intro hended
    simp [(h.ended hended).1] at hchunk
  have hreturned : s.returned ≠ true := fun hreturned => hended (h.returned hreturned).1
  rw [hchunk, cons_append] at hpieces
  unfold Watching.look
  split_ifs with hbreak hroom
  · rw [splitOnPPrepend_cons_pos hbreak, reverse_reverse] at hpieces
    refine ⟨h.written, ⟨done ++ [rest], [], ?_, rfl, ?_⟩, h.spaced, h.reported, h.clock,
      fun he => absurd he hended, h.unreturned, fun hr => absurd hr hreturned⟩
    · rw [hpieces, append_assoc]
      rfl
    · rw [flatMap_append, flatMap_singleton]
      have hpublished := hslot.publish rest
      rw [heard_publish, latest_publish]
      rw [← hremark] at hpublished
      exact hpublished
  · rw [splitOnPPrepend_cons_neg (by simpa using hbreak)] at hpieces
    refine ⟨h.written, ⟨done, rest ++ [byte], by simpa using hpieces, ?_, hslot⟩, h.spaced,
      h.reported, h.clock, fun he => absurd he hended, h.unreturned, fun hr => absurd hr hreturned⟩
    have hlength : rest.length < remarkLimit := by
      rw [hremark, length_take] at hroom
      omega
    rw [hremark, take_of_length_le (by omega), take_of_length_le (by simp; omega)]
  · rw [splitOnPPrepend_cons_neg (by simpa using hbreak)] at hpieces
    refine ⟨h.written, ⟨done, rest ++ [byte], by simpa using hpieces, ?_, hslot⟩, h.spaced,
      h.reported, h.clock, fun he => absurd he hended, h.unreturned, fun hr => absurd hr hreturned⟩
    have hlength : remarkLimit ≤ rest.length := by
      rw [hremark, length_take] at hroom
      omega
    rw [hremark, take_append_of_le_length hlength]

theorem Follows.report {now told : ℕ}
    (hreturned : s.returned = false) (hnow : s.clock ≤ now) (htold : now ≤ told) :
    Follows limit interval stream (s.report interval now told) := by
  have hclock : ∀ time, s.reported = some time → time ≤ told := by
    intro time htime
    have hle := h.clock time htime
    omega
  have hon : s.returned ≠ true := by simp [hreturned]
  unfold Watching.report
  split_ifs with hdue
  · split
    · exact ⟨h.written, h.parsed, h.spaced, h.reported, hclock, h.ended, h.unreturned,
        fun hr => absurd hr hon⟩
    · next remark hlatest =>
      obtain ⟨done, rest, hpieces, hremark, hslot⟩ := h.parsed
      refine ⟨h.written, ⟨done, rest, hpieces, hremark, ?_⟩, ?_, by simp, by simp, h.ended,
        h.unreturned, fun hr => absurd hr hon⟩
      · rw [hlatest] at hslot
        have htaken := hslot.take
        simpa [heard, h.unreturned hreturned] using htaken
      · refine isChain_append.mpr ⟨h.spaced, isChain_singleton _, ?_⟩
        intro a ha b hb
        obtain rfl : b = ⟨now, told, remark⟩ := by simpa using hb.symm
        have hreported : s.reported = some a.told := by rw [h.reported, ha]; rfl
        have hle := h.clock _ hreported
        rw [hreported] at hdue
        have hwait : interval ≤ now - a.told := by simpa using hdue
        show a.told + interval ≤ now
        omega
  · exact ⟨h.written, h.parsed, h.spaced, h.reported, hclock, h.ended, h.unreturned,
      fun hr => absurd hr hon⟩

theorem Follows.step {e : WatchStep}
    (hs : s.step limit interval e = some t) : Follows limit interval stream t := by
  cases e with
  | read n =>
    dsimp only [Watching.step] at hs
    split_ifs at hs with hguard
    cases hs
    exact h.read hguard.1 hguard.2.1
  | byte =>
    dsimp only [Watching.step] at hs
    split at hs
    · cases hs
    · next byte chunk hchunk =>
      cases hs
      exact h.look hchunk
  | eof =>
    dsimp only [Watching.step] at hs
    split_ifs at hs with hguard
    cases hs
    exact ⟨h.written, h.parsed, h.spaced, h.reported, h.clock, fun _ => hguard, h.unreturned,
      fun hr => ⟨rfl, (h.returned hr).2⟩⟩
  | poll now told =>
    dsimp only [Watching.step] at hs
    split_ifs at hs with hguard
    cases hs
    exact h.report hguard.1 hguard.2.1 hguard.2.2
  | takeLast =>
    dsimp only [Watching.step] at hs
    split_ifs at hs with hguard
    cases hs
    obtain ⟨done, rest, hpieces, hremark, hslot⟩ := h.parsed
    refine ⟨h.written, ⟨done, rest, hpieces, hremark, ?_⟩, h.spaced, h.reported, h.clock, h.ended,
      fun hr => by simp at hr, fun _ => ⟨hguard.1, rfl⟩⟩
    have hfinal := h.unreturned hguard.2
    refine ⟨?_, ?_⟩
    · simpa [heard, hfinal] using hslot.kept
    · simpa [heard, hfinal] using hslot.last

omit h

theorem follows_of_reachable (h : (machine limit interval stream).Reachable s) :
    Follows limit interval stream s := by
  apply h.invariant
  · rintro s rfl
    exact follows_start
  · intro s e t hs hstep
    exact hs.step hstep

/-- The end of the stream says nothing, or nothing that was not said last. -/
def EndHeard (stream : Bytes) : Prop :=
  unsaid stream = [] ∨ unsaid stream = (said stream).getLast?.toList

theorem blank_not_mem_remarks (stream : Bytes) : "" ∉ remarks stream := by
  intro hmem
  obtain ⟨piece, -, hsay⟩ := mem_flatMap.mp hmem
  unfold say at hsay
  dsimp only at hsay
  split_ifs at hsay with hblank
  · cases hsay
  · exact hblank (mem_singleton.mp hsay).symm

theorem say_cases (piece : Bytes) : say piece = [] ∨ ∃ remark, say piece = [remark] := by
  unfold say
  dsimp only
  split_ifs
  · exact .inl rfl
  · exact .inr ⟨_, rfl⟩

theorem exact_iff (hfollows : Follows limit interval stream s) (hreturned : s.returned = true) :
    Exact limit interval stream s ↔ EndHeard stream := by
  obtain ⟨hended, hlatest⟩ := hfollows.returned hreturned
  obtain ⟨hchunk, hunread⟩ := hfollows.ended hended
  obtain ⟨read, hstream, hwritten⟩ := hfollows.written
  obtain ⟨done, rest, hpieces, -, hslot⟩ := hfollows.parsed
  rw [hunread, append_nil] at hstream
  rw [hchunk, hunread, append_nil, splitOnPPrepend_nil, reverse_reverse] at hpieces
  have hsaid : said stream = done.flatMap say := by rw [said, hpieces, dropLast_concat]
  have hunsaid : unsaid stream = say rest := by
    rw [unsaid, hpieces, getLast?_concat, Option.map_some, Option.getD_some]
  have hremarks : remarks stream = said stream ++ unsaid stream := by
    rw [remarks, hpieces, flatMap_append, flatMap_singleton, hsaid, hunsaid]
  have hheard : s.heard.Sublist (remarks stream) := by
    have hkept := hslot.kept
    rw [hlatest, Option.toList_none, append_nil, ← hsaid] at hkept
    rw [hremarks]
    exact hkept.trans (sublist_append_left _ _)
  have hlast : s.heard.getLast? = (said stream).getLast? := by
    have hsame := hslot.last
    rwa [hlatest, Option.toList_none, append_nil, ← hsaid] at hsame
  have hend : s.heard.getLast? = (remarks stream).getLast? ↔ EndHeard stream := by
    rw [hlast, hremarks, EndHeard, hunsaid]
    rcases say_cases rest with h | ⟨remark, h⟩
    · simp [h]
    · rw [h, getLast?_concat]
      cases (said stream).getLast? with
      | none => simp
      | some last => simp [eq_comm]
  refine ⟨fun h => hend.mp h.last, fun h => ⟨?_, hheard, ?_, hfollows.spaced, hend.mpr h⟩⟩
  · rintro reads rfl
    rw [readDiagnostics_eq, hwritten, hstream]
    rfl
  · exact fun hmem => blank_not_mem_remarks stream (hheard.subset hmem)

end Watching

open Watching in
/-- When a watched run has returned, it has carried back what it would have unwatched, and the
observer has heard its remarks up to the last one, exactly when its end had been heard. -/
theorem watching_exact {limit interval : ℕ} {stream : Bytes} {s : Watching}
    (h : (machine limit interval stream).Reachable s) (hreturned : s.returned = true) :
    Exact limit interval stream s ↔ EndHeard stream :=
  exact_iff (follows_of_reachable h) hreturned

open Watching in
theorem watching_exact_line :
    ∃ s, (machine 16 500 [0x61, 0x0A]).Reachable s ∧ Exact 16 500 [0x61, 0x0A] s ∧
      s.heard = ["a"] := by
  obtain ⟨s, hs, hreturned, hheard⟩ := (machine 16 500 [0x61, 0x0A]).exists_reachable_of_run rfl
    [.read 2, .byte, .byte, .poll 1 2, .eof, .takeLast]
    (fun s => s.returned = true ∧ s.heard = ["a"]) (by decide +kernel)
  exact ⟨s, hs, (watching_exact hs hreturned).mpr (.inl (by decide +kernel)), hheard⟩

open Watching in
/-- A run that ends without a line ending is never heard to its end. -/
theorem last_remark_unheard : ∃ s, (machine 16 500 [0x61]).Reachable s ∧ s.returned = true ∧
    ¬Exact 16 500 [0x61] s := by
  obtain ⟨s, hs, hreturned, hlast⟩ := (machine 16 500 [0x61]).exists_reachable_of_run rfl
    [.read 1, .byte, .poll 1 2, .eof, .takeLast]
    (fun s => s.returned = true ∧ s.heard.getLast? ≠ (remarks [0x61]).getLast?) (by decide +kernel)
  exact ⟨s, hs, hreturned, fun h => hlast h.last⟩

end Soloist.Exec
