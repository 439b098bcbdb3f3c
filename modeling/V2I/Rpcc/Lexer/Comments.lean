import Mathlib.Data.List.DropRight
import V2I.Rpcc.Lexer

/-!
# V2I.Rpcc.Lexer.Comments

What the lexer is for: the symbols of a text whose comments are white space (`symbols`,
`uncomment`), and how both go on behind a symbol, a comment and the end of a line.
-/

namespace V2I.Rpcc

open List Option

/-! ## What a text says -/

/-- Where a place of a text is: outside of comments, in a comment up to the end of the line, or in
a comment that has an end of its own. -/
inductive Region
  | code
  | line
  | block
  deriving DecidableEq

/-- A text with each comment replaced by white space, and where it ends. A backslash at the end of
a line continues a comment. -/
def strip : Region → List Char → List Char × Region
  | within, [] => ([], within)
  | .code, [c] => ([c], .code)
  | .code, c :: d :: text =>
      if c = '/' ∧ d = '/' then (' ' :: (strip .line text).1, (strip .line text).2)
      else if c = '/' ∧ d = '*' then (' ' :: (strip .block text).1, (strip .block text).2)
      else (c :: (strip .code (d :: text)).1, (strip .code (d :: text)).2)
  | .line, [c] => if c = '\n' then ([c], .code) else ([], .line)
  | .line, c :: d :: text =>
      if c = '\n' then (c :: (strip .code (d :: text)).1, (strip .code (d :: text)).2)
      else if c = '\\' ∧ d = '\n' then strip .line text
      else strip .line (d :: text)
  | .block, [_] => ([], .block)
  | .block, c :: d :: text =>
      if c = '*' ∧ d = '/' then strip .code text else strip .block (d :: text)

def uncomment (text : List Char) : List Char := (strip .code text).1

def endsWithin (text : List Char) : Region := (strip .code text).2

/-- The symbols of a text without comments. -/
def symbols (text : List Char) : List (List Char) :=
  match _hspace : text.dropWhile isSpace with
  | [] => []
  | c :: start => (scan (c :: start)).1 :: symbols (scan (c :: start)).2
termination_by text.length
decreasing_by
  have hlen := (dropWhile_suffix isSpace (l := text)).length_le
  obtain ⟨happ, hne⟩ := scan_append (isSpace_of_dropWhile _hspace) start
  have hscan := congrArg List.length happ
  have hpos := length_pos_iff.mpr hne
  rw [_hspace] at hlen
  rw [length_append] at hscan
  omega

/-- The text as `LoadLine` breaks it into lines. -/
def brokenText (fp : List (List Char)) : List Char :=
  fp.flatMap fun currLine => chomp (cString currLine) ++ ['\n']

/-- The symbols delivered are those of the text. -/
def DeliversSymbols (file : List Char) : Prop :=
  readSymbols ⟨pieces file, none⟩ = .ok (symbols (uncomment file))

/-! ## Symbols -/

variable {c : Char} {start text : List Char}

theorem symbols_of_dropWhile (h : text.dropWhile isSpace = c :: start) :
    symbols text = (scan (c :: start)).1 :: symbols (scan (c :: start)).2 := by
  rw [symbols]
  split
  · next h' => cases h'.symm.trans h
  · next h' =>
    cases h'.symm.trans h
    rfl

theorem symbols_of_space (h : text.dropWhile isSpace = []) : symbols text = [] := by
  rw [symbols]
  split
  · rfl
  · next h' => cases h'.symm.trans h

theorem symbols_nil : symbols [] = [] := symbols_of_space rfl

theorem symbols_dropWhile (text : List Char) : symbols (text.dropWhile isSpace) = symbols text := by
  have hidem : (text.dropWhile isSpace).dropWhile isSpace = text.dropWhile isSpace :=
    dropWhile_idempotent isSpace text
  cases h : text.dropWhile isSpace with
  | nil => rw [symbols_of_space h, symbols_of_space rfl]
  | cons c start => rw [symbols_of_dropWhile h, symbols_of_dropWhile (h ▸ hidem)]

theorem symbols_cons_space (hc : isSpace c) (text : List Char) :
    symbols (c :: text) = symbols text := by
  rw [← symbols_dropWhile (c :: text), dropWhile_cons_of_pos hc, symbols_dropWhile]

theorem symbols_cons (hc : isSpace c = false) (start : List Char) :
    symbols (c :: start) = (scan (c :: start)).1 :: symbols (scan (c :: start)).2 :=
  symbols_of_dropWhile (dropWhile_cons_of_neg (by simp [hc]))

theorem head?_of_take {n : ℕ} (h : text.take n = c :: start) : text.head? = some c := by
  cases text with
  | nil => cases n <;> cases h
  | cons d text =>
    cases n with
    | zero => cases h
    | succ n => exact congrArg some (List.cons.inj h).1

/-- A symbol is the same in front of everything that begins alike. -/
theorem scan_congr {r : List Char} (hc : isSpace c = false)
    (h : Scanner.SameNext endsSymbol (scan (c :: start)).2 r) :
    scan ((scan (c :: start)).1 ++ r) = ((scan (c :: start)).1, r) := by
  -- the first character decides which kind of symbol it is
  obtain ⟨happ, hne⟩ := scan_append hc start
  obtain ⟨d, sym, hsym⟩ := exists_cons_of_ne_nil hne
  have hd : d = c := by
    rw [hsym, cons_append] at happ
    exact (List.cons.inj happ).1
  have hhead : ((scan (c :: start)).1 ++ r).head? = some c := by
    rw [hsym, hd]
    rfl
  have hcolon : isBasic c = false → ∀ t : List Char, t.head? = some c → t.take 2 ≠ [':', ':'] := by
    intro hbasic t ht htake
    obtain rfl := some.inj (ht.symm.trans (head?_of_take htake))
    exact absurd hbasic (by decide)
  rw [scan_eq (c :: start)] at h hhead ⊢
  rw [head?_cons, any_some, any_some] at h hhead ⊢
  split at h
  · next htake =>
    rw [if_pos htake] at hhead ⊢
    rw [htake]
    rfl
  · next htake =>
    rw [if_neg htake] at hhead ⊢
    split at h
    · next hbasic =>
      rw [if_pos hbasic] at hhead ⊢
      have hr : (c :: r).take 2 ≠ [':', ':'] := by
        intro hr
        obtain ⟨rfl, htail⟩ := List.cons.inj hr
        have hnext : r.head? = some ':' := head?_of_take htail
        rcases h with h | ⟨-, h⟩
        · obtain ⟨start, rfl⟩ : ∃ s, start = ':' :: s := head?_eq_some_iff.mp (h.trans hnext)
          exact htake rfl
        · exact absurd (h _ hnext) (by decide)
      rw [take_succ_cons, take_zero, singleton_append, scan_eq, if_neg hr]
      simp [hbasic]
    · next hbasic =>
      rw [if_neg hbasic] at hhead ⊢
      have hbasic' : isBasic c = false := by simpa using hbasic
      split at h
      · next hnumber =>
        rw [if_pos hnumber] at hhead ⊢
        rw [scan_eq, if_neg (hcolon hbasic' _ hhead), hhead, any_some, any_some,
          if_neg hbasic, if_pos hnumber]
        exact local_numberScanner.congr _ _ h
      · next hnumber =>
        rw [if_neg hnumber] at hhead ⊢
        rw [scan_eq, if_neg (hcolon hbasic' _ hhead), hhead, any_some, any_some,
          if_neg hbasic, if_neg hnumber]
        exact local_word.congr _ _ h

theorem avoids_numberScanner : Scanner.Avoids '/' numberScanner := by
  refine .seq (.span ?_) (.opt ?_ (.seq (.opt ?_ .nothing) (.span ?_)))
  all_goals decide

theorem avoids_word : Scanner.Avoids '/' (Scanner.span isWordChar) := .span (by decide)

/-- A slash is a symbol of its own. -/
theorem eq_slash_of_mem_scan (h : '/' ∈ (scan (c :: start)).1) :
    (scan (c :: start)).1 = ['/'] ∧ c = '/' := by
  rw [scan_eq, head?_cons, any_some, any_some] at h ⊢
  split at h
  · next htake =>
    simp [htake] at h
  · next htake =>
    rw [if_neg htake]
    split at h
    · next hbasic =>
      rw [if_pos hbasic]
      obtain rfl : '/' = c := by simpa using h
      exact ⟨rfl, rfl⟩
    · split at h
      · exact absurd h (avoids_numberScanner _)
      · exact absurd h (avoids_word _)

/-! ## Comments -/

theorem strip_cons (hline : (c :: text).take 2 ≠ ['/', '/'])
    (hblock : (c :: text).take 2 ≠ ['/', '*']) :
    strip .code (c :: text) = (c :: (strip .code text).1, (strip .code text).2) := by
  cases text with
  | nil => rfl
  | cons d text =>
    rw [strip, if_neg (by simpa using hline), if_neg (by simpa using hblock)]

theorem strip_append {sym : List Char} (hsym : ∀ c ∈ sym, c ≠ '/') (text : List Char) :
    strip .code (sym ++ text) = (sym ++ (strip .code text).1, (strip .code text).2) := by
  induction sym with
  | nil => rfl
  | cons c sym ih =>
    have hc := hsym c mem_cons_self
    rw [cons_append, strip_cons (by simp [hc]) (by simp [hc]),
      ih fun c hc => hsym c (.tail _ hc)]
    rfl

/-- A comment begins as white space does. -/
theorem sameNext_strip (text : List Char) :
    Scanner.SameNext endsSymbol text (strip .code text).1 := by
  match text with
  | [] => exact .inl rfl
  | [c] => exact .inl rfl
  | c :: d :: text =>
    rw [strip]
    split
    · next h =>
      refine .inr ⟨?_, ?_⟩
      · simp [Scanner.Neutral, h.1, endsSymbol]
      · simp [Scanner.Neutral, endsSymbol, isSpace, spaceIdentifier]
    · split
      · next h =>
        refine .inr ⟨?_, ?_⟩
        · simp [Scanner.Neutral, h.1, endsSymbol]
        · simp [Scanner.Neutral, endsSymbol, isSpace, spaceIdentifier]
      · exact .inl rfl

/-- The end of a line in a comment that ends with the line. -/
theorem strip_line {line : List Char} (hline : '\n' ∉ line) (text : List Char) :
    strip .line (line ++ '\n' :: text) =
      if line = [] ∨ line.getLast? ≠ some '\\' then
        ('\n' :: (strip .code text).1, (strip .code text).2)
      else strip .line text := by
  induction line with
  | nil => cases text <;> rfl
  | cons c line ih =>
    rw [mem_cons, not_or] at hline
    have hc : c ≠ '\n' := Ne.symm hline.1
    cases line with
    | nil =>
      rw [singleton_append, strip, if_neg hc]
      by_cases hback : c = '\\'
      · simp [hback]
      · rw [if_neg (by simp [hback]), if_pos (by simp [hback])]
        exact ih (by simp)
    | cons d line =>
      have hd : d ≠ '\n' := fun e => hline.2 (e ▸ mem_cons_self)
      rw [cons_append, cons_append, strip, if_neg hc, if_neg (by simp [hd]),
        ← cons_append, ih hline.2]
      simp [getLast?_cons_cons]

/-- The end of a line in a comment that has an end of its own. -/
theorem strip_block {line : List Char} (hline : '\n' ∉ line) (text : List Char) :
    strip .block (line ++ '\n' :: text) =
      match endOfComment line with
      | some eoc => strip .code (eoc ++ '\n' :: text)
      | none => strip .block text := by
  induction line with
  | nil => cases text <;> rfl
  | cons c line ih =>
    rw [mem_cons, not_or] at hline
    cases line with
    | nil =>
      rw [singleton_append, strip, if_neg (by simp)]
      exact ih (by simp)
    | cons d line =>
      rw [cons_append, cons_append, strip, endOfComment]
      split
      · rfl
      · exact ih hline.2

end V2I.Rpcc
