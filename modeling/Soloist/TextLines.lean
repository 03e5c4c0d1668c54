import Mathlib.Data.List.Infix
import Mathlib.Data.List.TakeWhile

/-! Records ended by a separator, and the fields a record is split into when the last of them may
hold the separator. -/
open List

namespace Fields
variable {α : Type*} [DecidableEq α] {sep : α}

/-- At most `n` pieces, the last of them whatever is left. -/
def splitn (sep : α) : ℕ → List α → List (List α)
  | 0, _ => []
  | 1, xs => [xs]
  | n + 2, xs =>
    match xs.dropWhile (· ≠ sep) with
    | [] => [xs]
    | _ :: rest => xs.takeWhile (· ≠ sep) :: splitn sep (n + 1) rest

def terminated (sep : α) (pieces : List (List α)) : List α := pieces.flatMap (· ++ [sep])

variable {field rest : List α} {fields records : List (List α)}

theorem splitn_field (h : sep ∉ field) (n : ℕ) :
    splitn sep (n + 2) (field ++ sep :: rest) = field :: splitn sep (n + 1) rest := by
  have hplain : ∀ x ∈ field, decide (x ≠ sep) = true :=
    fun x hx => decide_eq_true fun heq => h (heq ▸ hx)
  have hdrop : (field ++ sep :: rest).dropWhile (· ≠ sep) = sep :: rest := by
    rw [dropWhile_append_of_pos hplain]
    simp
  have htake : (field ++ sep :: rest).takeWhile (· ≠ sep) = field := by
    rw [takeWhile_append_of_pos hplain]
    simp
  rw [splitn, hdrop, htake]

/-- Fields that hold no separator are found again, and then the last, whatever it holds. -/
theorem splitn_terminated (h : ∀ field ∈ fields, sep ∉ field) :
    splitn sep (fields.length + 1) (terminated sep fields ++ rest) = fields ++ [rest] := by
  induction fields with
  | nil => rfl
  | cons field fields ih =>
    rw [terminated, flatMap_cons, append_assoc, append_assoc,
      singleton_append, length_cons, splitn_field (h field (.head _))]
    exact congrArg _ (ih fun f hf => h f (.tail _ hf))

theorem head?_splitn (n : ℕ) (xs : List α) :
    (splitn sep (n + 2) xs).head? = some (xs.takeWhile (· ≠ sep)) := by
  rw [splitn]
  cases hdrop : xs.dropWhile (· ≠ sep) with
  | nil =>
    have hall := takeWhile_append_dropWhile (p := (· ≠ sep)) (l := xs)
    rw [hdrop, append_nil] at hall
    exact congrArg some hall.symm
  | cons x rest => rfl

theorem length_splitn_le_limit (n : ℕ) (xs : List α) : (splitn sep n xs).length ≤ n := by
  fun_induction splitn sep n xs with
  | case1 | case2 => exact le_rfl
  | case3 n xs hdrop => exact Nat.le_add_left 1 _
  | case4 n xs x rest hdrop ih => exact Nat.succ_le_succ ih

theorem length_splitn_le (n : ℕ) (xs : List α) : (splitn sep n xs).length ≤ xs.count sep + 1 := by
  induction n generalizing xs with
  | zero => exact Nat.zero_le _
  | succ n ih =>
    cases n with
    | zero => exact Nat.le_add_left 1 _
    | succ n =>
      rw [splitn]
      cases hdrop : xs.dropWhile (· ≠ sep) with
      | nil => exact Nat.le_add_left 1 _
      | cons x rest =>
        have hx : x = sep := by
          have hhead := head_dropWhile_not (· ≠ sep) (l := xs) (by rw [hdrop]; simp)
          simp only [hdrop, head_cons] at hhead
          simpa using hhead
        have hcount : xs.count sep = (xs.takeWhile (· ≠ sep)).count sep + (rest.count sep + 1) := by
          rw [← count_cons_self, ← hx, ← hdrop, hx, ← List.count_append,
            takeWhile_append_dropWhile]
        have hrest := ih rest
        rw [length_cons]
        omega

theorem splitOn_terminated (h : ∀ record ∈ records, sep ∉ record) (rest : List α) :
    (terminated sep records ++ rest).splitOn sep = records ++ rest.splitOn sep := by
  induction records with
  | nil => rfl
  | cons record records ih =>
    rw [terminated, flatMap_cons, append_assoc, append_assoc,
      singleton_append,
      splitOn_append_cons_self_of_not_mem (h record (.head _)), cons_append]
    exact congrArg _ (ih fun r hr => h r (.tail _ hr))

end Fields

/-! Splitting at the end of each line. -/
namespace Lines
variable {α : Type*} [DecidableEq α]

/-- The pieces of a list, each up to and with the next terminator; the last may lack one. -/
def splitInclusive (terminator : α) : List α → List (List α)
  | [] => []
  | x :: xs =>
    if x = terminator then [x] :: splitInclusive terminator xs
    else
      match splitInclusive terminator xs with
      | [] => [[x]]
      | line :: lines => (x :: line) :: lines

/-- A line has its terminator at its end and nowhere else. -/
def IsLine (terminator : α) (line : List α) : Prop :=
  ∃ text, terminator ∉ text ∧ line = text ++ [terminator]

variable {terminator : α} {line rest : List α} {ls ms : List (List α)}

theorem splitInclusive_cons {x : α} {xs : List α} (h : x ≠ terminator)
    (hxs : splitInclusive terminator xs = line :: ls) :
    splitInclusive terminator (x :: xs) = (x :: line) :: ls := by
  unfold splitInclusive
  rw [if_neg h, hxs]

theorem splitInclusive_line (h : IsLine terminator line) :
    splitInclusive terminator (line ++ rest) = line :: splitInclusive terminator rest := by
  obtain ⟨text, htext, rfl⟩ := h
  induction text with
  | nil => simp [splitInclusive]
  | cons x text ih =>
    rw [mem_cons, not_or] at htext
    have hne : x ≠ terminator := fun heq => htext.1 heq.symm
    exact splitInclusive_cons hne (ih htext.2)

/-- Lines are found again in their concatenation. -/
theorem splitInclusive_flatten (h : ∀ line ∈ ls, IsLine terminator line) :
    splitInclusive terminator ls.flatten = ls := by
  induction ls with
  | nil => rfl
  | cons line ls ih =>
    rw [flatten_cons, splitInclusive_line (h line (.head _)),
      ih fun l hl => h l (.tail _ hl)]

end Lines

/-! Text by its lines, each ended by a line feed that a carriage return may stand before. -/
namespace TextLines
variable {α : Type*} {p : α → Bool} {ls a b : List α} {x : α}

/-- The first element that satisfies `p`, with what is before it and behind it. -/
def cut (p : α → Bool) : List α → Option (List α × α × List α)
  | [] => none
  | x :: l => if p x then some ([], x, l) else (cut p l).map fun c => (x :: c.1, c.2)

theorem cut_append (ha : ∀ y ∈ a, p y = false) (hx : p x = true) :
    cut p (a ++ x :: b) = some (a, x, b) := by
  induction a with
  | nil => simp [cut, hx]
  | cons y a ih =>
    have hrest := ih fun z hz => ha z (.tail _ hz)
    simp [cut, ha y (.head _), hrest]

theorem cut_eq_none : cut p ls = none ↔ ∀ y ∈ ls, p y = false := by
  induction ls with
  | nil => simp [cut]
  | cons y ls ih => cases h : p y <;> simp [cut, h, ih]

theorem cut_eq_some (h : cut p ls = some (a, x, b)) :
    ls = a ++ x :: b ∧ (∀ y ∈ a, p y = false) ∧ p x = true := by
  induction ls generalizing a with
  | nil => cases h
  | cons y ls ih =>
    cases hy : p y with
    | true =>
      obtain ⟨rfl, rfl, rfl⟩ : [] = a ∧ y = x ∧ ls = b := by simpa [cut, hy] using h
      exact ⟨rfl, by simp, hy⟩
    | false =>
      obtain ⟨⟨a', x', b'⟩, hc, hcut⟩ : ∃ c, cut p ls = some c ∧ (y :: c.1, c.2) = (a, x, b) := by
        simpa [cut, hy] using h
      cases hcut
      obtain ⟨rfl, ha, hx⟩ := ih hc
      exact ⟨rfl, by simpa [hy] using ha, hx⟩

abbrev Line := List Char

/-- A line without the carriage return at its end. -/
def chop (l : Line) : Line := if ['\r'] <:+ l then l.dropLast else l

def lines : List Char → List Line
  | [] => [[]]
  | '\r' :: '\n' :: s => [] :: lines s
  | '\n' :: s => [] :: lines s
  | c :: s => (lines s).modifyHead (c :: ·)

def unlines (ls : List Line) : List Char := ls.flatMap (· ++ ['\n'])

variable {l last s : List Char} {ls : List Line} {c : Char}

theorem lines_cons (hc : c ≠ '\n') (hcr : c = '\r' → ∀ t, s ≠ '\n' :: t) :
    lines (c :: s) = (lines s).modifyHead (c :: ·) := by
  rw [lines]
  · rintro t rfl rfl
    exact hcr rfl t rfl
  · exact hc

theorem chop_cons (hl : l ≠ []) : chop (c :: l) = c :: chop l := by
  have hends : ['\r'] <:+ c :: l ↔ ['\r'] <:+ l := by
    rw [suffix_cons_iff]
    constructor
    · rintro (h | h)
      · exact absurd (List.cons.inj h).2.symm hl
      · exact h
    · exact .inr
  by_cases h : ['\r'] <:+ l <;> simp [chop, hends, h, dropLast_cons_of_ne_nil hl]

theorem not_mem_chop (hc : c ∉ l) : c ∉ chop l := by
  unfold chop
  split_ifs
  · exact fun hmem => hc (mem_of_mem_dropLast hmem)
  · exact hc

theorem lines_append (hl : '\n' ∉ l) : lines (l ++ '\n' :: s) = chop l :: lines s := by
  induction l with
  | nil => rfl
  | cons c l ih =>
    obtain ⟨hc, hl⟩ : '\n' ≠ c ∧ '\n' ∉ l := by simpa using hl
    cases l with
    | nil =>
      by_cases hcr : c = '\r'
      · subst hcr
        rfl
      · have hchop : chop [c] = [c] := if_neg (by simp [suffix_cons_iff, Ne.symm hcr])
        rw [singleton_append, lines_cons hc.symm (absurd · hcr), hchop]
        rfl
    | cons d l =>
      have hd : d ≠ '\n' := by
        rintro rfl
        exact hl (.head _)
      have hnext : c = '\r' → ∀ t, d :: l ++ '\n' :: s ≠ '\n' :: t := by
        rintro - t h
        exact hd (List.cons.inj h).1
      rw [cons_append, lines_cons hc.symm hnext, ih hl, chop_cons (cons_ne_nil d l)]
      rfl

theorem lines_single (hl : '\n' ∉ l) : lines l = [l] := by
  induction l with
  | nil => rfl
  | cons c l ih =>
    obtain ⟨hc, hl⟩ : '\n' ≠ c ∧ '\n' ∉ l := by simpa using hl
    have hnext : c = '\r' → ∀ t, l ≠ '\n' :: t := by
      rintro - t rfl
      exact hl (.head _)
    rw [lines_cons hc.symm hnext, ih hl]
    rfl

@[simp] theorem unlines_cons : unlines (l :: ls) = l ++ '\n' :: unlines ls := by simp [unlines]

theorem lines_unlines (hls : ∀ l ∈ ls, '\n' ∉ l) :
    lines (unlines ls ++ s) = ls.map chop ++ lines s := by
  induction ls with
  | nil => rfl
  | cons l ls ih =>
    have hrest := ih fun m hm => hls m (.tail _ hm)
    rw [unlines_cons, append_assoc, cons_append, lines_append (hls l (.head _)),
      hrest]
    rfl

/-- A text is lines that are ended, and what is behind the last of them. -/
theorem exists_unlines (s : List Char) :
    ∃ ls last, (∀ l ∈ ls, '\n' ∉ l) ∧ '\n' ∉ last ∧ s = unlines ls ++ last := by
  induction s with
  | nil => exact ⟨[], [], by simp, by simp, rfl⟩
  | cons c s ih =>
    obtain ⟨ls, last, hls, hlast, rfl⟩ := ih
    by_cases hc : c = '\n'
    · subst hc
      exact ⟨[] :: ls, last, by simpa using hls, hlast, by simp⟩
    · cases ls with
      | nil => exact ⟨[], c :: last, by simp, by simp [hlast, Ne.symm hc], rfl⟩
      | cons l ls =>
        refine ⟨(c :: l) :: ls, last, ?_, hlast, by simp⟩
        simpa [Ne.symm hc] using hls

/-- A text that is ended has lines of its own, whatever comes behind it. -/
theorem lines_ended (a b : List Char) :
    lines (a ++ '\n' :: b) = (lines (a ++ ['\n'])).dropLast ++ lines b := by
  obtain ⟨ls, last, hls, hlast, rfl⟩ := exists_unlines a
  have hended : ∀ l ∈ ls ++ [last], '\n' ∉ l := by
    simpa [or_imp, forall_and] using ⟨hls, hlast⟩
  have hwhole : ∀ s, unlines ls ++ last ++ '\n' :: s = unlines (ls ++ [last]) ++ s := by
    intro s
    simp [unlines]
  have hempty : lines [] = [[]] := rfl
  rw [hwhole, hwhole, lines_unlines hended, lines_unlines hended, hempty, dropLast_concat]

end TextLines
