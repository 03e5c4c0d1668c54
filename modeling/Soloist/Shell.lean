import Mathlib.Data.List.Basic

/-! How a POSIX shell breaks a line into words and removes their quotes. -/
open List

namespace Shell

/-- What a line asks of the shell beside words. -/
inductive Effect
  | operator
  | expansion
  | comment
  | unterminated
  deriving DecidableEq, Repr

def blanks : List Char := [' ', '\t']

def operators : List Char := ['|', '&', ';', '<', '>', '(', ')', '\n']

/-- A tilde is taken to be expanded wherever it stands unquoted. -/
def expansions : List Char := ['$', '`', '*', '?', '[', '~']

/-- What does not stand for itself everywhere outside quotes. -/
def special : List Char := blanks ++ operators ++ expansions ++ ['\\', '\'', '"', '#']

/-- Outside quotes, with the word begun if there is one, or within quotes of a word. -/
inductive State
  | bare (word : Option (List Char))
  | single (word : List Char)
  | double (word : List Char)

abbrev Words := Except Effect (List (List Char))

def scan : State → List Char → Words
  | .bare word, [] => .ok word.toList
  | .single _, [] | .double _, [] => .error .unterminated
  | .bare word, '\\' :: c :: cs =>
    -- a line that is continued
    if c = '\n' then scan (.bare word) cs else scan (.bare (some (word.getD [] ++ [c]))) cs
  | .bare word, c :: cs =>
    if c ∈ blanks then (scan (.bare none) cs).map fun words => word.toList ++ words
    else if c = '\'' then scan (.single (word.getD [])) cs
    else if c = '"' then scan (.double (word.getD [])) cs
    else if c = '#' ∧ word.isNone then .error .comment
    else if c ∈ operators then .error .operator
    else if c ∈ expansions then .error .expansion
    else if c = '\\' then .error .unterminated
    else scan (.bare (some (word.getD [] ++ [c]))) cs
  | .single word, c :: cs =>
    if c = '\'' then scan (.bare (some word)) cs else scan (.single (word ++ [c])) cs
  | .double word, '\\' :: c :: cs =>
    if c = '\n' then scan (.double word) cs
    else if c ∈ ['$', '`', '"', '\\'] then scan (.double (word ++ [c])) cs
    else scan (.double (word ++ ['\\', c])) cs
  | .double word, c :: cs =>
    if c = '"' then scan (.bare (some word)) cs
    else if c ∈ ['$', '`'] then .error .expansion
    else scan (.double (word ++ [c])) cs

def words (line : List Char) : Words := scan (.bare none) line

example : words ['a', ' ', '\'', 'b', ' ', '\''] = .ok [['a'], ['b', ' ']] := by
  simp [words, scan, blanks]; rfl

variable {c : Char} {cs token : List Char} {word : Option (List Char)}

@[simp] theorem scan_end : scan (.bare word) [] = .ok word.toList := by
  simp [scan]

theorem scan_space :
    scan (.bare word) (' ' :: cs) = (words cs).map fun words => word.toList ++ words := by
  simp [scan, blanks, words]

theorem scan_quote : scan (.bare word) ('\'' :: cs) = scan (.single (word.getD [])) cs := by
  simp [scan, blanks]

theorem scan_unquote {word : List Char} :
    scan (.single word) ('\'' :: cs) = scan (.bare (some word)) cs := by
  simp [scan]

theorem scan_escaped (h : c ≠ '\n') :
    scan (.bare word) ('\\' :: c :: cs) = scan (.bare (some (word.getD [] ++ [c]))) cs := by
  simp [scan, h]

theorem scan_literal {word : List Char} (h : c ≠ '\'') :
    scan (.single word) (c :: cs) = scan (.single (word ++ [c])) cs := by
  simp [scan, h]

theorem scan_plain (h : c ∉ special) :
    scan (.bare word) (c :: cs) = scan (.bare (some (word.getD [] ++ [c]))) cs := by
  simp only [special, mem_append, mem_cons, not_mem_nil, or_false, not_or] at h
  obtain ⟨⟨⟨hblank, hoperator⟩, hexpansion⟩, hescape, hquote, hdouble, hhash⟩ := h
  rw [scan.eq_def]
  simp [hblank, hoperator, hexpansion, hescape, hquote, hdouble, hhash]

theorem scan_plains (hne : token ≠ []) (h : ∀ c ∈ token, c ∉ special) :
    scan (.bare word) (token ++ cs) = scan (.bare (some (word.getD [] ++ token))) cs := by
  induction token generalizing word with
  | nil => exact absurd rfl hne
  | cons c token ih =>
    rw [cons_append, scan_plain (h c (.head _))]
    cases token with
    | nil => rfl
    | cons d rest =>
      rw [ih (cons_ne_nil d rest) fun x hx => h x (.tail _ hx)]
      simp

theorem words_intercalate {tokens : List (List Char)} {quote : List Char → List Char}
    (h : ∀ token cs, scan (.bare none) (quote token ++ cs) = scan (.bare (some token)) cs) :
    words ([' '].intercalate (tokens.map quote)) = .ok tokens := by
  induction tokens with
  | nil => rfl
  | cons token rest ih =>
    cases rest with
    | nil =>
      have hlast := h token []
      rw [append_nil, scan_end] at hlast
      rw [map_singleton, intercalate_singleton]
      exact hlast
    | cons next rest =>
      rw [map_cons, map_cons, intercalate_cons_cons, ← map_cons]
      unfold words
      rw [append_assoc, h, singleton_append, scan_space, ih]
      rfl

end Shell
