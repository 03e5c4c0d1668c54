import Mathlib.Data.List.DropRight
import Mathlib.Data.List.Infix

/-! The rendered half of a terminal's buffers: the line in progress, the bounded log of committed
lines, and their readers. -/
open List

namespace Soloist

/-- A bounded FIFO ring, of one item at least. -/
structure Ring (α : Type) where
  cap : ℕ
  items : List α
  deriving DecidableEq, Repr

namespace Ring
variable {α : Type}

def new (cap : ℕ) : Ring α := ⟨max cap 1, []⟩

def push (r : Ring α) (item : α) : Ring α :=
  { r with items := (if r.items.length = r.cap then r.items.tail else r.items) ++ [item] }

def tail (r : Ring α) (n : ℕ) : List α := r.items.drop (r.items.length - n)

def keeping (cap : ℕ) (items : List α) : Ring α := ⟨max cap 1, items.rtake (max cap 1)⟩

theorem push_keeping (cap : ℕ) (items : List α) (item : α) :
    (keeping cap items).push item = keeping cap (items ++ [item]) := by
  obtain ⟨n, hn⟩ : ∃ n, max cap 1 = n + 1 := ⟨max cap 1 - 1, by omega⟩
  unfold push keeping
  rw [hn, rtake_concat_succ]
  simp only [List.rtake, length_drop]
  split_ifs with hfull
  · rw [tail_drop]
    congr 3
    omega
  · congr 3
    omega

end Ring

def tabWidth : ℕ := 8

def maxLineChars : ℕ := 64 * 1024

/-- A callback of the escape-sequence parser that reaches the text. -/
inductive Callback
  | print (c : Char)
  | execute (byte : UInt8)

/-- The line in progress and a log of committed lines. -/
structure Renderer (σ : Type) where
  line : List Char
  cursor : ℕ
  log : σ

namespace Renderer
variable {σ τ : Type} (push : σ → String → σ)

def new (log : σ) : Renderer σ := ⟨[], 0, log⟩

def flushLine (r : Renderer σ) : Renderer σ := ⟨[], 0, push r.log (String.ofList r.line)⟩

def typed (r : Renderer σ) (c : Char) : Renderer σ :=
  { r with
    line := if r.cursor < r.line.length then r.line.set r.cursor c else r.line ++ [c]
    cursor := r.cursor + 1 }

def print (r : Renderer σ) (c : Char) : Renderer σ :=
  if maxLineChars ≤ (r.typed c).line.length then (r.typed c).flushLine push else r.typed c

def execute (r : Renderer σ) (byte : UInt8) : Renderer σ :=
  if byte = 0x0A then r.flushLine push
  else if byte = 0x0D then { r with cursor := 0 }
  else if byte = 0x09 then (List.replicate (tabWidth - r.cursor % tabWidth) ' ').foldl (print push) r
  else r

def call (r : Renderer σ) : Callback → Renderer σ
  | .print c => r.print push c
  | .execute byte => r.execute push byte

def ingest (r : Renderer σ) (chunk : List Callback) : Renderer σ := chunk.foldl (call push) r

def partialLine (r : Renderer σ) : List String :=
  if r.line.isEmpty then [] else [String.ofList r.line]

/-- What holds of the line between callbacks. -/
structure Within (r : Renderer σ) : Prop where
  cursor_le : r.cursor ≤ r.line.length
  line_lt : r.line.length < maxLineChars

variable {push} {r : Renderer σ}

theorem within_new (log : σ) : (new log).Within := 
  ⟨Nat.le_refl 0, Nat.mul_pos (by decide) (by decide)⟩

theorem Within.flushLine : (r.flushLine push).Within := within_new (push r.log (String.ofList r.line))

theorem Within.print (h : r.Within) (c : Char) : (r.print push c).Within := by
  have hcursor := h.cursor_le
  unfold Renderer.print
  split_ifs with hfull
  · exact Within.flushLine
  · refine ⟨?_, Nat.not_le.mp hfull⟩
    unfold typed
    dsimp only
    split_ifs
    · rw [length_set]
      omega
    · rw [List.length_append, length_singleton]
      omega

theorem Within.call (h : r.Within) (callback : Callback) : (r.call push callback).Within := by
  cases callback with
  | print c => exact h.print c
  | execute byte =>
    unfold Renderer.call Renderer.execute
    dsimp only
    split_ifs
    · exact Within.flushLine
    · exact ⟨Nat.zero_le _, h.line_lt⟩
    · generalize List.replicate _ ' ' = spaces
      induction spaces generalizing r with
      | nil => exact h
      | cons c spaces ih => exact ih (h.print c)
    · exact h

theorem Within.ingest (h : r.Within) (chunk : List Callback) : (r.ingest push chunk).Within := by
  induction chunk generalizing r with
  | nil => exact h
  | cons callback chunk ih => exact ih (h.call callback)

section Log
variable {push' : τ → String → τ} {view : σ → τ} (hview : ∀ log text,
  view (push log text) = push' (view log) text)

def beside (r : Renderer σ) (view : σ → τ) : Renderer τ := ⟨r.line, r.cursor, view r.log⟩

include hview

theorem beside_flushLine (r : Renderer σ) :
    (r.flushLine push).beside view = (r.beside view).flushLine push' := by
  simp only [flushLine, beside, hview]

theorem beside_print (r : Renderer σ) (c : Char) :
    (r.print push c).beside view = (r.beside view).print push' c := by
  have htyped : (r.beside view).typed c = (r.typed c).beside view := rfl
  have hline : ((r.typed c).beside view).line = (r.typed c).line := rfl
  unfold print
  rw [htyped, hline]
  split_ifs
  · exact beside_flushLine hview _
  · rfl

theorem beside_call (r : Renderer σ) (callback : Callback) :
    (r.call push callback).beside view = (r.beside view).call push' callback := by
  cases callback with
  | print c => exact beside_print hview r c
  | execute byte =>
    unfold call execute
    dsimp only
    split_ifs
    · exact beside_flushLine hview r
    · rfl
    · have hspaces : ∀ (spaces : List Char) (s : Renderer σ),
          (spaces.foldl (print push) s).beside view = spaces.foldl (print push') (s.beside view) := by
        intro spaces
        induction spaces with
        | nil => exact fun s => rfl
        | cons c spaces ih =>
          intro s
          rw [foldl_cons, foldl_cons, ih, beside_print hview]
      exact hspaces _ r
    · rfl

theorem beside_ingest (r : Renderer σ) (chunk : List Callback) :
    (r.ingest push chunk).beside view = (r.beside view).ingest push' chunk := by
  induction chunk generalizing r with
  | nil => rfl
  | cons callback chunk ih =>
    show ((r.call push callback).ingest push chunk).beside view = _
    rw [ih, beside_call hview]
    rfl

end Log

end Renderer

abbrev Rendered := Renderer (Ring String)

namespace Rendered

def new (cap : ℕ) : Rendered := Renderer.new (Ring.new cap)

def feed (r : Rendered) (chunk : List Callback) : Rendered := r.ingest Ring.push chunk

def rendered (r : Rendered) : List String := r.log.items ++ r.partialLine

def tail (r : Rendered) (n : ℕ) : List String :=
  if n = 0 then []
  else r.log.tail (if r.line.isEmpty then n else n - 1) ++ r.partialLine

def contains (query line : String) : Bool := query.toList <:+: line.toList

def searchRendered (r : Rendered) (query : String) (limit : ℕ) : List String :=
  let found := (r.log.items.filter (contains query)).take limit
  if found.length < limit then found ++ r.partialLine.filter (contains query) else found

/-- The line in progress and every line committed, as the callbacks leave them. -/
def committed (callbacks : List Callback) : Renderer (List String) :=
  (Renderer.new []).ingest (fun log text => log ++ [text]) callbacks

theorem feed_chunks (r : Rendered) (chunks : List (List Callback)) :
    chunks.foldl feed r = r.feed chunks.flatten := by
  unfold feed Renderer.ingest
  rw [foldl_flatten]

theorem feed_eq (cap : ℕ) (callbacks : List Callback) :
    (new cap).feed callbacks = (committed callbacks).beside (Ring.keeping cap) := by
  have hnew : new cap = (Renderer.new []).beside (Ring.keeping cap) := by
    simp [new, Renderer.new, Renderer.beside, Ring.new, Ring.keeping, List.rtake]
  rw [hnew, feed, committed, Renderer.beside_ingest fun log text => (Ring.push_keeping cap log text).symm]

theorem tail_eq (r : Rendered) (n : ℕ) : r.tail n = r.rendered.rtake n := by
  unfold tail rendered Renderer.partialLine Ring.tail
  cases n with
  | zero => simp [List.rtake]
  | succ n =>
    rw [if_neg (Nat.succ_ne_zero n)]
    split_ifs
    · simp [List.rtake]
    · rw [rtake_concat_succ]
      rfl

theorem searchRendered_eq (r : Rendered) (query : String) (limit : ℕ) :
    r.searchRendered query limit = (r.rendered.filter (contains query)).take limit := by
  unfold searchRendered rendered
  rw [filter_append]
  dsimp only
  generalize r.log.items.filter (contains query) = found
  have hpartial : (r.partialLine.filter (contains query)).length ≤ 1 := by
    refine Nat.le_trans (length_filter_le _ _) ?_
    unfold Renderer.partialLine
    split_ifs <;> simp
  rw [take_append, length_take]
  by_cases hroom : found.length < limit
  · rw [if_pos (by omega), take_of_length_le (l := r.partialLine.filter _) (by omega)]
  · rw [if_neg (by omega), Nat.sub_eq_zero_of_le (Nat.not_lt.mp hroom), take_zero,
      append_nil]

/-- However the output is chunked: the line stays within its bounds, the log is the last lines
committed, and the fast readers agree with the plain one. -/
theorem rendered_views (cap : ℕ) (chunks : List (List Callback)) :
    let r := chunks.foldl feed (new cap)
    r.Within ∧ r.line = (committed chunks.flatten).line ∧
      r.log.items = (committed chunks.flatten).log.rtake (max cap 1) ∧
      (∀ n, r.tail n = r.rendered.rtake n) ∧
      ∀ query limit,
        r.searchRendered query limit = (r.rendered.filter (contains query)).take limit := by
  dsimp only
  rw [feed_chunks]
  refine ⟨Renderer.Within.ingest (Renderer.within_new _) _, ?_, ?_, tail_eq _, searchRendered_eq _⟩
  · rw [feed_eq]
    rfl
  · rw [feed_eq]
    rfl

end Rendered

end Soloist
