import V2I.Lib.Scanner
import V2I.Rpcc.Number

/-!
# V2I.Rpcc.Lexer

How `srcfile_stack::GetSymbol` cuts a source file into symbols: `LoadLine` reads it line by line
into a buffer, and `OmitComments` loads further lines while it skips a comment.
-/

namespace V2I.Rpcc

/-! ## Characters -/

/-- `_space_identifier` -/
def spaceIdentifier : List Char := " \t\r\n".toList

/-- `_basic_identifier` -/
def basicIdentifier : List Char := "\x7b\x7d()[];,#+-*/=:".toList

def isSpace (c : Char) : Bool := spaceIdentifier.contains c

def isBasic (c : Char) : Bool := basicIdentifier.contains c

/-- A character of an identifier: neither white space nor a basic identifier. -/
def isWordChar (c : Char) : Bool := !isSpace c && !isBasic c

/-! ## Lines -/

/-- `LN_MAX_CHAR` -/
def LN_MAX_CHAR : ℕ := 1024

/-- `fgets` with room for `n` characters besides the zero at the end: what it reads and what the
file still holds. -/
def fgets : ℕ → List Char → List Char × List Char
  | 0, file => ([], file)
  | _ + 1, [] => ([], [])
  | n + 1, c :: file =>
      if c = '\n' then ([c], file) else (c :: (fgets n file).1, (fgets n file).2)

theorem length_fgets_le (n : ℕ) (file : List Char) : (fgets n file).2.length ≤ file.length := by
  fun_induction fgets n file with
  | case1 => exact le_rfl
  | case2 => exact le_rfl
  | case3 => simp
  | case4 n c file h ih =>
    simp only [List.length_cons]
    omega

theorem length_fgets_lt (n : ℕ) {file : List Char} (h : file ≠ []) :
    (fgets (n + 1) file).2.length < file.length := by
  obtain ⟨c, file, rfl⟩ := List.exists_cons_of_ne_nil h
  rw [fgets]
  split
  · simp
  · have := length_fgets_le n file
    simp only [List.length_cons]
    omega

/-- What `fgets` reads into the buffer one time after the other until the end of the file. -/
def pieces (file : List Char) : List (List Char) :=
  if h : file = [] then []
  else (fgets (LN_MAX_CHAR - 1) file).1 :: pieces (fgets (LN_MAX_CHAR - 1) file).2
termination_by file.length
decreasing_by exact length_fgets_lt 1022 h

/-- The buffer as a string. -/
def cString (buffer : List Char) : List Char := buffer.takeWhile fun c => c ≠ Char.ofNat 0

/-- A line without its end. -/
def chomp (line : List Char) : List Char :=
  if line.getLast? = some '\n' then line.dropLast else line

inductive LexFault
  | nullPointer
  | outsideBuffer
  deriving DecidableEq

/-- `srcfile_node`, as far as symbols go: what `fgets` will still read, and `m_pCurPos`, which is
none for the null pointer. -/
structure Cursor where
  fp : List (List Char)
  pCurPos : Option (List Char)

/-- `LoadLine` when `fgets` has read something. The character before the end of an empty string is
outside of the buffer. -/
def loadLine (currLine : List Char) : Except LexFault (List Char) :=
  if cString currLine = [] then .error .outsideBuffer else .ok (chomp (cString currLine))

/-! ## Comments -/

/-- The loop of `OmitComments` in a comment up to the end of the line. -/
def omitLineComment : List (List Char) → List Char → Except LexFault (Bool × Cursor)
  | [], curPos =>
      if curPos = [] ∨ curPos.getLast? ≠ some '\\' then .ok (true, ⟨[], none⟩)
      else .ok (false, ⟨[], none⟩)
  | currLine :: fp, curPos =>
      if curPos = [] ∨ curPos.getLast? ≠ some '\\' then .ok (true, ⟨currLine :: fp, none⟩)
      else
        match loadLine currLine with
        | .error e => .error e
        | .ok curPos => omitLineComment fp curPos

/-- `strstr(m_pCurPos, "*/") + 2` -/
def endOfComment : List Char → Option (List Char)
  | [] => none
  | [_] => none
  | c :: d :: curPos => if c = '*' ∧ d = '/' then some curPos else endOfComment (d :: curPos)

/-- The loop of `OmitComments` in a comment that has an end of its own. -/
def omitBlockComment : List (List Char) → List Char → Except LexFault (Bool × Cursor)
  | fp, curPos =>
      match endOfComment curPos with
      | some eoc => .ok (true, ⟨fp, some eoc⟩)
      | none =>
          match fp with
          | [] => .ok (false, ⟨[], none⟩)
          | currLine :: fp =>
              match loadLine currLine with
              | .error e => .error e
              | .ok curPos => omitBlockComment fp curPos

def omitComments (fp : List (List Char)) (curPos : List Char) : Except LexFault (Bool × Cursor) :=
  if curPos.take 2 = ['/', '/'] then omitLineComment fp (curPos.drop 2)
  else if curPos.take 2 = ['/', '*'] then omitBlockComment fp (curPos.drop 2)
  else .ok (false, ⟨fp, some curPos⟩)

/-! ## Symbols -/

/-- The symbol at the beginning of a text that begins with one, and what follows it. -/
def scan (curPos : List Char) : List Char × List Char :=
  if curPos.take 2 = [':', ':'] then (curPos.take 2, curPos.drop 2)
  else if curPos.head?.any isBasic then (curPos.take 1, curPos.drop 1)
  else
    match checkNumber curPos with
    | some (sz, start) => (curPos.take sz, start)
    | none => (curPos.takeWhile isWordChar, curPos.dropWhile isWordChar)

/-- A character that ends every symbol before it. -/
def endsSymbol (c : Char) : Bool := isSpace c || c == '/'

/-- The sign of a power. -/
def signScanner : List Char → List Char × List Char :=
  Scanner.opt (fun c => c = '+' ∨ c = '-') Scanner.nothing

/-- The power of a number. -/
def powerScanner : List Char → List Char × List Char :=
  Scanner.opt (fun c => c = 'e' ∨ c = 'E') (Scanner.seq signScanner (Scanner.span isNumber))

/-- A number without a sign. -/
def numberScanner : List Char → List Char × List Char :=
  Scanner.seq (Scanner.span isNumberOrPoint) powerScanner

theorem endsSymbol_cases {c : Char} (h : endsSymbol c) :
    c = ' ' ∨ c = '\t' ∨ c = '\r' ∨ c = '\n' ∨ c = '/' := by
  simpa [endsSymbol, isSpace, spaceIdentifier, or_assoc] using h

theorem local_numberScanner : Scanner.Local endsSymbol numberScanner := by
  refine .seq (.span ?_) (.opt ?_ (.seq (.opt ?_ .nothing) (.span ?_)))
  all_goals
    intro c hc
    rcases endsSymbol_cases hc with rfl | rfl | rfl | rfl | rfl <;> decide

theorem local_word : Scanner.Local endsSymbol (Scanner.span isWordChar) := by
  refine .span fun c hc => ?_
  rcases endsSymbol_cases hc with rfl | rfl | rfl | rfl | rfl <;> decide

theorem countSign_eq (sz : ℕ) (start : List Char) :
    countSign sz start = (sz + (signScanner start).1.length, (signScanner start).2) := by
  cases start with
  | nil => rfl
  | cons c start =>
    by_cases hc : c = '+' ∨ c = '-'
    · simp [countSign, signScanner, Scanner.opt, Scanner.nothing, hc]
    · simp [countSign, signScanner, Scanner.opt, hc]

theorem checkNumberPower_eq (sz : ℕ) (start : List Char) :
    checkNumberPower sz start = (sz + (powerScanner start).1.length, (powerScanner start).2) := by
  cases start with
  | nil => rfl
  | cons c start =>
    by_cases hc : c = 'e' ∨ c = 'E'
    · simp [checkNumberPower, powerScanner, Scanner.opt, Scanner.seq, Scanner.span, hc,
        countSign_eq, countWhile_eq, Nat.add_assoc, Nat.add_comm 1]
    · simp [checkNumberPower, powerScanner, Scanner.opt, hc]

theorem checkNumberDigits_eq (sz : ℕ) (start : List Char) : checkNumberDigits sz start =
    (sz + (numberScanner start).1.length, (numberScanner start).2) := by
  simp [checkNumberDigits, numberScanner, Scanner.seq, Scanner.span, countWhile_eq,
    checkNumberPower_eq, Nat.add_assoc]

/-- The sign that `CheckNumber` allows is a basic identifier, so that no number has one. -/
theorem scan_eq (curPos : List Char) : scan curPos =
    if curPos.take 2 = [':', ':'] then (curPos.take 2, curPos.drop 2)
    else if curPos.head?.any isBasic then (curPos.take 1, curPos.drop 1)
    else if curPos.head?.any isNumberOrPoint then numberScanner curPos
    else Scanner.span isWordChar curPos := by
  unfold scan
  split
  · rfl
  · split
    · rfl
    · next hbasic =>
      cases curPos with
      | nil => rfl
      | cons c start =>
        rw [List.head?_cons, Option.any_some] at hbasic
        have hsign : ¬ (c = '+' ∨ c = '-') := by
          rintro (rfl | rfl) <;> exact hbasic (by decide)
        have happ := local_numberScanner.append (c :: start)
        by_cases hc : isNumberOrPoint c = true
        · simp only [checkNumber, countSign, if_neg hsign, hc, not_true_eq_false, if_false,
            checkNumberDigits_eq, Nat.zero_add, List.head?_cons, Option.any_some, if_true]
          rw [← List.prefix_iff_eq_take.mp ⟨_, happ⟩]
        · simp [checkNumber, countSign, hsign, hc, Scanner.span]

theorem isSpace_of_dropWhile {text : List Char} {c : Char} {start : List Char}
    (h : text.dropWhile isSpace = c :: start) : isSpace c = false := by
  have hhead := List.head?_dropWhile_not isSpace text
  rw [h] at hhead
  simpa using hhead

/-- A symbol is not empty, and what follows is left. -/
theorem scan_append {c : Char} (hc : isSpace c = false) (start : List Char) :
    (scan (c :: start)).1 ++ (scan (c :: start)).2 = c :: start ∧ (scan (c :: start)).1 ≠ [] := by
  rw [scan_eq]
  split
  · next htake => exact ⟨List.take_append_drop .., by simp⟩
  · split
    · exact ⟨rfl, by simp⟩
    · next hbasic =>
      rw [List.head?_cons, Option.any_some, Bool.not_eq_true] at hbasic
      rw [List.head?_cons, Option.any_some]
      by_cases hnumber : isNumberOrPoint c = true
      · rw [if_pos hnumber]
        refine ⟨local_numberScanner.append _, ?_⟩
        simp [numberScanner, Scanner.seq, Scanner.span, hnumber]
      · rw [if_neg hnumber]
        refine ⟨local_word.append _, ?_⟩
        simp [Scanner.span, isWordChar, hc, hbasic]

/-! ## Literals in a line -/

variable {curPos : List Char}

/-- A number in front is cut by `CheckNumber`. -/
theorem scan_number (h : curPos.head?.any isNumberOrPoint) :
    scan curPos = numberScanner curPos ∧ checkNumber curPos =
      some ((numberScanner curPos).1.length, (numberScanner curPos).2) := by
  obtain ⟨c, start, rfl⟩ : ∃ c start, curPos = c :: start := by
    cases curPos with
    | nil => simp at h
    | cons c start => exact ⟨c, start, rfl⟩
  rw [List.head?_cons, Option.any_some] at h
  have hother : ∀ d, isNumberOrPoint d = false → c ≠ d := by
    rintro d hd rfl
    simp [hd] at h
  have hbasic : isBasic c = false := by
    by_contra hc
    have hmem : c ∈ basicIdentifier := by simpa [isBasic] using hc
    have hpoint : basicIdentifier.all (fun d => !isNumberOrPoint d) = true := by decide
    exact hother c (by simpa using List.all_eq_true.mp hpoint c hmem) rfl
  have hcolon : (c :: start).take 2 ≠ [':', ':'] := fun htake =>
    hother ':' (by decide) (List.cons.inj htake).1
  constructor
  · rw [scan_eq, if_neg hcolon]
    simp [hbasic, h]
  · simp [checkNumber, countSign, hother '+' (by decide), hother '-' (by decide), h,
      checkNumberDigits_eq]

/-- A literal is cut out of a line whole and alone just if it has no sign, which is a symbol of its
own, and the line does not go on like it. -/
theorem scan_literal_iff (l : Literal) (rest : List Char) :
    scan (l.text ++ rest) = (l.text, rest) ↔ l.sign = none ∧ ¬ Continues l rest := by
  rw [← checkNumber_eq_iff]
  cases hsign : l.sign with
  | some s =>
      refine iff_of_false (fun h => ?_) (fun h => nomatch h.1)
      have htext : l.text = s.char :: l.unsignedText := by
        rw [NumberForm.text, hsign]
        rfl
      have hscan : scan (l.text ++ rest) = ([s.char], l.unsignedText ++ rest) := by
        rw [htext, scan_eq]
        cases s <;> rfl
      have hnil := (Prod.mk.inj (hscan.symm.trans h)).1
      rw [htext] at hnil
      exact l.unsignedText_ne_nil (List.cons.inj hnil).2.symm
  | none =>
      have hhead : (l.text ++ rest).head?.any isNumberOrPoint := by
        obtain ⟨c, body, hbody⟩ := List.exists_cons_of_ne_nil l.body_ne_nil
        have hpoint : isNumberOrPoint c = true :=
          isNumberOrPoint_of_mem (f := l.toNumberForm) (hbody ▸ List.mem_cons_self)
        have htext : l.text ++ rest =
            (digitsText l.whole ++ l.fractionText) ++ (exponentText l.exponent ++ rest) := by
          simp [NumberForm.text, NumberForm.unsignedText, signText, hsign]
        rw [htext, hbody]
        exact hpoint
      obtain ⟨hscan, hcheck⟩ := scan_number hhead
      have happ := local_numberScanner.append (l.text ++ rest)
      rw [hscan, hcheck, Option.some_inj]
      constructor
      · intro h
        rw [h]
        exact ⟨rfl, rfl⟩
      · rintro ⟨-, h⟩
        obtain ⟨hlength, hrest⟩ := Prod.mk.inj h
        exact Prod.ext (List.append_inj happ hlength).1 hrest

/-- A text is read as its literal says, and a literal is cut out of a line whole and alone, just
under these conditions. -/
theorem number_iff (text : List Char) (l : Literal) (rest : List Char) :
    (ReadRight text ↔ MeetsNumber text) ∧
      (scan (l.text ++ rest) = (l.text, rest) ↔ l.sign = none ∧ ¬ Continues l rest) :=
  ⟨readRight_iff text, scan_literal_iff l rest⟩

/-- A point alone is taken for the number zero. -/
theorem not_readRight_point : ¬ ∀ text, ReadRight text := by
  intro hall
  have hset : checkAsNumber ['.'] = .set ⟨['.'], .float, 0⟩ := by decide +kernel
  obtain ⟨l, htext, -⟩ := (hall ['.'] _).mp hset
  let point : NumberForm := ⟨none, [], some [], none, .inr (Option.some_ne_none _)⟩
  have hpoint : l.toNumberForm = point := NumberForm.text_inj htext
  exact l.fraction_ne_nil (congrArg NumberForm.fraction hpoint)

/-! ## The file -/

/-- What is still to be read, with a terminating zero counted for each line. -/
def weight (fp : List (List Char)) : ℕ := (fp.map fun currLine => currLine.length + 1).sum

def Cursor.size (c : Cursor) : ℕ := weight c.fp + (c.pCurPos.elim 0 List.length)

@[simp]
theorem weight_cons (currLine : List Char) (fp : List (List Char)) :
    weight (currLine :: fp) = currLine.length + 1 + weight fp := rfl

theorem length_of_loadLine {currLine : List Char} (h : loadLine currLine = .ok curPos) :
    curPos.length ≤ currLine.length := by
  unfold loadLine at h
  split at h
  · cases h
  · cases h
    have hstring := (List.takeWhile_prefix (fun c : Char => decide (c ≠ Char.ofNat 0))
      (l := currLine)).length_le
    unfold chomp
    split
    · rw [List.length_dropLast]
      exact (Nat.sub_le _ _).trans hstring
    · exact hstring

variable {fp : List (List Char)} {c : Cursor}

theorem weight_of_omitLineComment {found : Bool} (h : omitLineComment fp curPos = .ok (found, c)) :
    weight c.fp ≤ weight fp ∧ c.pCurPos = none := by
  fun_induction omitLineComment fp curPos with
  | case1 => cases h; exact ⟨le_rfl, rfl⟩
  | case2 => cases h; exact ⟨le_rfl, rfl⟩
  | case3 => cases h; exact ⟨le_rfl, rfl⟩
  | case4 => cases h
  | case5 curPos currLine fp _ curPos' _ ih =>
    obtain ⟨hweight, hnull⟩ := ih h
    refine ⟨?_, hnull⟩
    rw [weight_cons]
    omega

theorem length_of_endOfComment {eoc : List Char} (h : endOfComment curPos = some eoc) :
    eoc.length < curPos.length := by
  fun_induction endOfComment curPos with
  | case1 => cases h
  | case2 => cases h
  | case3 =>
    cases h
    simp only [List.length_cons]
    omega
  | case4 _ _ _ _ ih =>
    have := ih h
    simp only [List.length_cons] at this ⊢
    omega

theorem size_of_omitBlockComment {found : Bool} (h : omitBlockComment fp curPos = .ok (found, c)) :
    c.size ≤ weight fp + curPos.length := by
  induction fp generalizing curPos with
  | nil =>
    rw [omitBlockComment] at h
    split at h
    · next eoc heoc =>
      cases h
      have := length_of_endOfComment heoc
      simp only [Cursor.size, Option.elim_some]
      omega
    · cases h
      simp [Cursor.size]
  | cons currLine fp ih =>
    rw [omitBlockComment] at h
    split at h
    · next eoc heoc =>
      cases h
      have := length_of_endOfComment heoc
      simp only [Cursor.size, Option.elim_some]
      omega
    · split at h
      · cases h
      · next curPos' hload =>
        have hline := length_of_loadLine hload
        have := ih h
        rw [weight_cons]
        omega

/-- Omitting a comment goes on. -/
theorem size_of_omitComments (h : omitComments fp curPos = .ok (true, c)) :
    c.size < weight fp + curPos.length := by
  unfold omitComments at h
  split at h
  · next htake =>
    have hlen := congrArg List.length htake
    simp only [List.length_take, List.length_cons, List.length_nil] at hlen
    obtain ⟨hweight, hnull⟩ := weight_of_omitLineComment h
    simp only [Cursor.size, hnull, Option.elim_none]
    omega
  · split at h
    · next htake =>
      have hlen := congrArg List.length htake
      simp only [List.length_take, List.length_cons, List.length_nil] at hlen
      have hsize := size_of_omitBlockComment h
      rw [List.length_drop] at hsize
      omega
    · cases h

theorem omitBlockComment_false (h : omitBlockComment fp curPos = .ok (false, c)) :
    c.pCurPos = none := by
  induction fp generalizing curPos with
  | nil =>
    rw [omitBlockComment] at h
    split at h
    · cases h
    · cases h
      rfl
  | cons currLine fp ih =>
    rw [omitBlockComment] at h
    split at h
    · cases h
    · split at h
      · cases h
      · exact ih h

/-- The position stays where there is no comment. -/
theorem omitComments_false {fp' : List (List Char)} {curPos' : List Char}
    (h : omitComments fp curPos = .ok (false, ⟨fp', some curPos'⟩)) :
    fp' = fp ∧ curPos' = curPos ∧ curPos.take 2 ≠ ['/', '/'] ∧ curPos.take 2 ≠ ['/', '*'] := by
  unfold omitComments at h
  split at h
  · cases (weight_of_omitLineComment h).2
  · next hline =>
    split at h
    · cases omitBlockComment_false h
    · next hblock =>
      cases h
      exact ⟨rfl, rfl, hline, hblock⟩

/-- The cursor behind a comment. -/
theorem size_of_comment {c' : Cursor} {start : List Char} {ch : Char}
    (hpos : c.pCurPos = some curPos) (hspace : curPos.dropWhile isSpace = ch :: start)
    (hcomment : omitComments c.fp (ch :: start) = .ok (true, c')) : c'.size < c.size := by
  have hlen := (List.dropWhile_suffix isSpace (l := curPos)).length_le
  rw [hspace] at hlen
  have hsize : c.size = weight c.fp + curPos.length := by rw [Cursor.size, hpos, Option.elim_some]
  rw [hsize]
  exact (size_of_omitComments hcomment).trans_le (Nat.add_le_add_left hlen _)

/-- `srcfile_node::GetSymbol`; none stands for the end of the line. -/
def getSymbol (c : Cursor) : Except LexFault (Option (List Char) × Cursor) :=
  match _hpos : c.pCurPos with
  | none => .ok (none, c)
  | some curPos =>
      -- `KillSpace`
      match _hspace : curPos.dropWhile isSpace with
      | [] => .ok (none, ⟨c.fp, some []⟩)
      | ch :: start =>
          match _hcomment : omitComments c.fp (ch :: start) with
          | .error e => .error e
          | .ok (true, c') => getSymbol c'
          -- the end of the file was reached in a comment
          | .ok (false, ⟨_, none⟩) => .error .nullPointer
          | .ok (false, ⟨fp, some start⟩) => .ok (some (scan start).1, ⟨fp, some (scan start).2⟩)
termination_by c.size
decreasing_by exact size_of_comment _hpos _hspace _hcomment

theorem size_of_getSymbol {c' : Cursor} {sym : Option (List Char)} (h : getSymbol c = .ok (sym, c'))
    : c'.size ≤ c.size ∧ (sym.isSome → c'.size < c.size) := by
  fun_induction getSymbol c with
  | case1 => cases h; simp
  | case2 c curPos hpos hspace =>
    cases h
    simp [Cursor.size, hpos]
  | case3 => cases h
  | case4 c curPos hpos ch start hspace c' hcomment ih =>
    have hsize := size_of_comment hpos hspace hcomment
    obtain ⟨hle, hlt⟩ := ih h
    exact ⟨by omega, fun hsome => (hlt hsome).trans hsize⟩
  | case5 => cases h
  | case6 c curPos hpos ch start hspace fp start' hcomment =>
    cases h
    obtain ⟨rfl, rfl, -⟩ := omitComments_false hcomment
    have hlen := (List.dropWhile_suffix isSpace (l := curPos)).length_le
    obtain ⟨happ, hne⟩ := scan_append (isSpace_of_dropWhile hspace) start
    have hscan := congrArg List.length happ
    have hpos_len := List.length_pos_iff.mpr hne
    rw [hspace] at hlen
    rw [List.length_append] at hscan
    simp only [Cursor.size, hpos, Option.elim_some]
    omega

/-- The symbols that `srcfile_stack::GetSymbol` delivers until the end of the file. -/
def readSymbols (c : Cursor) : Except LexFault (List (List Char)) :=
  match _hsymbol : getSymbol c with
  | .error e => .error e
  | .ok (some sym, c') =>
      match readSymbols c' with
      | .error e => .error e
      | .ok syms => .ok (sym :: syms)
  | .ok (none, c') =>
      match _hfp : c'.fp with
      | [] => .ok []
      | currLine :: fp =>
          match _hload : loadLine currLine with
          | .error e => .error e
          | .ok curPos => readSymbols ⟨fp, some curPos⟩
termination_by c.size
decreasing_by
  · exact (size_of_getSymbol _hsymbol).2 rfl
  · have hsize := (size_of_getSymbol _hsymbol).1
    have hline := length_of_loadLine _hload
    simp only [Cursor.size, _hfp, weight_cons, Option.elim_some] at hsize ⊢
    omega

end V2I.Rpcc
