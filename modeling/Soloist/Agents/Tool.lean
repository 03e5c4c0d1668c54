import Soloist.Agents.Classifier
import Soloist.Shell

/-! The command line an agent tool is launched with. -/
open List

namespace Soloist

/-- How a generic tool receives its prompt. -/
inductive PromptMode
  | appendedArg
  | stdin
  deriving DecidableEq, Repr

structure AgentTool where
  name : String
  command : String
  defaultArgs : List String
  kind : AgentKind
  promptMode : PromptMode

def isSafe (c : Char) : Bool :=
  c.isAlphanum || c ∈ ['%', '+', ',', '-', '.', '/', ':', '=', '@', '_']

def quoteChar (c : Char) : List Char := if c = '\'' then ['\'', '\\', '\'', '\''] else [c]

def shellQuote (token : List Char) : List Char :=
  if token ≠ [] ∧ token.all isSafe then token else '\'' :: token.flatMap quoteChar ++ ['\'']

/-- The tool, then the tokens of a resume or of a one-shot run, its own arguments and the launch's. -/
def AgentTool.commandLineWithPrefix (tool : AgentTool) (inserted extraArgs : List String) :
    String :=
  " ".intercalate ((tool.command :: inserted ++ tool.defaultArgs ++ extraArgs).map fun token =>
    String.ofList (shellQuote token.toList))

theorem not_special_of_isSafe {c : Char} (h : isSafe c = true) : c ∉ Shell.special := by
  intro hspecial
  have hquoted : (Shell.special.all fun c => !isSafe c) = true := by decide
  rw [all_eq_true] at hquoted
  simpa [h] using hquoted c hspecial

/-- Between single quotes, with a quote closed, escaped and opened again. -/
theorem scan_quoteChars {token word cs : List Char} :
    Shell.scan (.single word) (token.flatMap quoteChar ++ cs) =
      Shell.scan (.single (word ++ token)) cs := by
  induction token generalizing word with
  | nil => simp
  | cons c token ih =>
    rw [flatMap_cons, append_assoc]
    by_cases hc : c = '\''
    · subst hc
      show Shell.scan (.single word)
        ('\'' :: '\\' :: '\'' :: '\'' :: (token.flatMap quoteChar ++ cs)) = _
      rw [Shell.scan_unquote, Shell.scan_escaped (by decide), Shell.scan_quote, Option.getD_some,
        Option.getD_some, ih, append_assoc, singleton_append]
    · rw [quoteChar, if_neg hc, singleton_append, Shell.scan_literal hc, ih, append_assoc,
        singleton_append]

theorem scan_shellQuote (token cs : List Char) :
    Shell.scan (.bare none) (shellQuote token ++ cs) = Shell.scan (.bare (some token)) cs := by
  unfold shellQuote
  split_ifs with hsafe
  · have hplain : ∀ c ∈ token, c ∉ Shell.special := fun c hc =>
      not_special_of_isSafe (all_eq_true.mp hsafe.2 c hc)
    exact Shell.scan_plains hsafe.1 hplain
  · rw [cons_append, cons_append, append_assoc, Shell.scan_quote, scan_quoteChars,
      singleton_append, Shell.scan_unquote]
    rfl

/-- The shell reads a composed line back as its tokens, and as nothing else. -/
theorem commandLineWithPrefix_words (tool : AgentTool) (inserted extraArgs : List String) :
    (Shell.words (tool.commandLineWithPrefix inserted extraArgs).toList).map
        (fun words => words.map String.ofList) =
      .ok (tool.command :: inserted ++ tool.defaultArgs ++ extraArgs) := by
  generalize htokens : tool.command :: inserted ++ tool.defaultArgs ++ extraArgs = tokens
  have hline : (tool.commandLineWithPrefix inserted extraArgs).toList =
      [' '].intercalate ((tokens.map String.toList).map shellQuote) := by
    rw [AgentTool.commandLineWithPrefix, htokens, String.toList_intercalate, List.map_map,
      List.map_map]
    simp [Function.comp_def]
  rw [hline, Shell.words_intercalate scan_shellQuote]
  simp [Except.map]

end Soloist
