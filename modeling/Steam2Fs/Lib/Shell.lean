import Steam2Fs.Lib.Text

/-!
# Words of a shell command

How a POSIX shell splits a simple command into words: blanks end a word, between
single quotes every character stands for itself, and outside of them a
backslash makes the next one do so, or joins two lines. Other characters that
may have a meaning of their own outside of quotes are left out.

Quoting a text for such a shell leaves no character outside of quotes but its
own quotes, each of which is behind a backslash.
-/

namespace Shell
open Text

def isBlank (c : Char) : Bool := c = ' ' || c = '\t'

def isSpecial (c : Char) : Bool := c ∈ "\n\"$`|&;<>()*?[]#~!\x7b\x7d".toList

inductive Quoting where
  | bare
  | quoted
  | escaped

/-- The words of the rest of a command; `word` is what it continues, if any. -/
def wordsFrom : Quoting → Option Str → Str → Option (List Str)
  | .bare, word, [] => some word.toList
  | .quoted, _, [] => none
  | .escaped, _, [] => none
  | .bare, word, c :: cs =>
    if c = '\'' then wordsFrom .quoted (some (word.getD [])) cs
    else if c = '\\' then wordsFrom .escaped word cs
    else if isBlank c then (wordsFrom .bare none cs).map (word.toList ++ ·)
    else if isSpecial c then none
    else wordsFrom .bare (some (word.getD [] ++ [c])) cs
  | .quoted, word, c :: cs =>
    if c = '\'' then wordsFrom .bare (some (word.getD [])) cs
    else wordsFrom .quoted (some (word.getD [] ++ [c])) cs
  | .escaped, word, c :: cs =>
    if c = '\n' then wordsFrom .bare word cs
    else wordsFrom .bare (some (word.getD [] ++ [c])) cs

def words (command : Str) : Option (List Str) := wordsFrom .bare none command

def quoteChar (c : Char) : Str := if c = '\'' then "'\\''".toList else [c]

def quote (s : Str) : Str := '\'' :: s.flatMap quoteChar ++ ['\'']

theorem wordsFrom_quoted (s : Str) (word : Str) (rest : Str) :
    wordsFrom .quoted (some word) (s.flatMap quoteChar ++ '\'' :: rest) =
      wordsFrom .bare (some (word ++ s)) rest := by
  induction s generalizing word with
  | nil => simp [wordsFrom]
  | cons c cs ih =>
    rw [List.flatMap_cons, List.append_assoc]
    by_cases hc : c = '\''
    · subst hc
      have hstep : wordsFrom .quoted (some word) (quoteChar '\'' ++ (cs.flatMap quoteChar ++
          '\'' :: rest)) =
            wordsFrom .quoted (some (word ++ ['\''])) (cs.flatMap quoteChar ++ '\'' :: rest) := by
        have hquote : quoteChar '\'' = ['\'', '\\', '\'', '\''] := by decide
        rw [hquote]
        simp [wordsFrom]
      rw [hstep, ih, List.append_assoc, List.singleton_append]
    · have hstep : wordsFrom .quoted (some word) (quoteChar c ++ (cs.flatMap quoteChar ++
          '\'' :: rest)) =
            wordsFrom .quoted (some (word ++ [c])) (cs.flatMap quoteChar ++ '\'' :: rest) := by
        rw [quoteChar, if_neg hc, List.singleton_append, wordsFrom, if_neg hc]
        rfl
      rw [hstep, ih, List.append_assoc, List.singleton_append]

theorem wordsFrom_quote (s : Str) (word : Option Str) (rest : Str) :
    wordsFrom .bare word (quote s ++ rest) = wordsFrom .bare (some (word.getD [] ++ s)) rest := by
  have hopen : wordsFrom .bare word (quote s ++ rest) =
      wordsFrom .quoted (some (word.getD [])) (s.flatMap quoteChar ++ '\'' :: rest) := by
    rw [quote, List.append_assoc, List.cons_append, List.singleton_append, wordsFrom, if_pos rfl]
  rw [hopen, wordsFrom_quoted]

def isPlain (c : Char) : Bool := !(c = '\'' || c = '\\' || isBlank c || isSpecial c)

/-- The text stands for the word, wherever a word can start. -/
def Renders (text word : Str) : Prop :=
  ∀ rest, wordsFrom .bare none (text ++ rest) = wordsFrom .bare (some word) rest

theorem renders_quote (s : Str) : Renders (quote s) s := fun rest => wordsFrom_quote s none rest

theorem wordsFrom_plain {s : Str} (h : ∀ c ∈ s, isPlain c = true) (word rest : Str) :
    wordsFrom .bare (some word) (s ++ rest) = wordsFrom .bare (some (word ++ s)) rest := by
  induction s generalizing word with
  | nil => rw [List.nil_append, List.append_nil]
  | cons c cs ih =>
    have hc := h c List.mem_cons_self
    simp only [isPlain, Bool.not_eq_true', Bool.or_eq_false_iff, decide_eq_false_iff_not] at hc
    obtain ⟨⟨⟨hquote, hslash⟩, hblank⟩, hspecial⟩ := hc
    rw [List.cons_append, wordsFrom, if_neg hquote, if_neg hslash, if_neg (by simp [hblank]),
      if_neg (by simp [hspecial]), Option.getD_some,
      ih (fun e he => h e (List.mem_cons_of_mem c he)), List.append_assoc, List.singleton_append]

theorem renders_plain {s : Str} (h : ∀ c ∈ s, isPlain c = true) (hne : s ≠ []) : Renders s s := by
  intro rest
  obtain ⟨c, cs, rfl⟩ := List.exists_cons_of_ne_nil hne
  have hc := h c List.mem_cons_self
  simp only [isPlain, Bool.not_eq_true', Bool.or_eq_false_iff, decide_eq_false_iff_not] at hc
  obtain ⟨⟨⟨hquote, hslash⟩, hblank⟩, hspecial⟩ := hc
  rw [List.cons_append, wordsFrom, if_neg hquote, if_neg hslash, if_neg (by simp [hblank]),
    if_neg (by simp [hspecial])]
  exact wordsFrom_plain (fun e he => h e (List.mem_cons_of_mem c he)) [c] rest

def spaced (texts : List Str) : Str := texts.flatMap fun t => ' ' :: t

theorem spaced_cons (text : Str) (texts : List Str) :
    spaced (text :: texts) = ' ' :: text ++ spaced texts := rfl

theorem words_of_renders {text word : Str} {texts ws : List Str} (h : Renders text word)
    (hs : List.Forall₂ Renders texts ws) :
    words (text ++ spaced texts) = some (word :: ws) := by
  unfold words
  rw [h]
  clear h
  induction hs generalizing word with
  | nil => rfl
  | cons ht _ ih =>
    rw [spaced_cons, List.cons_append, wordsFrom, if_neg (by decide), if_neg (by decide),
      if_pos (by decide), ht, ih]
    rfl

end Shell
