import Mathlib.Data.List.Basic

/-! Wildcard patterns over text: `*` stands for any text, `?` for any character, `[..]` for the
characters it lists, and a backslash takes the next character as it is. -/
namespace Wildcard

inductive Token
  | char (c : Char)
  | any
  | star
  | oneOf (negated : Bool) (ranges : List (Char × Char))
  deriving DecidableEq, Repr

def ranges : List Char → List (Char × Char)
  | a :: '-' :: b :: rest => (a, b) :: ranges rest
  | a :: rest => (a, a) :: ranges rest
  | [] => []

def bracket : List Char → Token
  | '!' :: body => .oneOf true (ranges body)
  | '^' :: body => .oneOf true (ranges body)
  | body => .oneOf false (ranges body)

/-- The tokens of a pattern, where the bracket that is open has the body given. A pattern that ends
inside a bracket or an escape has none. -/
def scan : Option (List Char) → List Char → Option (List Token)
  | none, [] => some []
  | some _, [] => none
  | some body, c :: cs =>
    if c = ']' ∧ body ∉ [[], ['!'], ['^']] then (scan none cs).map (bracket body :: ·)
    else scan (some (body ++ [c])) cs
  | none, ['\\'] => none
  | none, '\\' :: c :: cs => (scan none cs).map (.char c :: ·)
  | none, '*' :: cs => (scan none cs).map (.star :: ·)
  | none, '?' :: cs => (scan none cs).map (.any :: ·)
  | none, '[' :: cs => scan (some []) cs
  | none, c :: cs => (scan none cs).map (.char c :: ·)

def Token.takes : Token → Char → Bool
  | .char c, a => a = c
  | .any, _ | .star, _ => true
  | .oneOf negated ranges, a => (ranges.any fun r => r.1 ≤ a && a ≤ r.2) != negated

def accepts : List Token → List Char → Bool
  | [], s => s.isEmpty
  | .star :: ts, s => s.tails.any fun rest => accepts ts rest
  | _ :: _, [] => false
  | t :: ts, a :: s => t.takes a && accepts ts s

def matchesText (pattern text : List Char) : Bool :=
  (scan none pattern).any fun ts => accepts ts text

example : matchesText "pages/[id].tsx".toList "pages/i.tsx".toList = true := by decide

end Wildcard
