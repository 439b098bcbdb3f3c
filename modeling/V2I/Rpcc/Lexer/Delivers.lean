import V2I.Rpcc.Lexer.Comments

/-!
# V2I.Rpcc.Lexer.Delivers

What the cursor still has to say is a text, the rest of the line and the lines not loaded yet, and
each step of the lexer leaves the symbols of that text and where it ends as they are.

* `readSymbols_pieces_iff` — the lexer delivers the symbols of the lines as they are loaded just if
  none of them begins with a zero and they do not end in a comment.
-/

namespace V2I.Rpcc

open List

/-! ## The text before the cursor -/

/-- What a text says behind a place: its symbols, and where it ends. -/
def reading (within : Region) (text : List Char) : List (List Char) × Region :=
  (symbols (strip within text).1, (strip within text).2)

/-- What the cursor still has to say. -/
def Cursor.text (c : Cursor) : List Char :=
  c.pCurPos.elim (brokenText c.fp) fun curPos => curPos ++ '\n' :: brokenText c.fp

/-- The lines are without an end inside. -/
structure Cursor.Lined (c : Cursor) : Prop where
  fp : ∀ currLine ∈ c.fp, '\n' ∉ chomp (cString currLine)
  pCurPos : ∀ curPos ∈ c.pCurPos, '\n' ∉ curPos

/-- The lines up to the second were loaded. -/
def Loaded (fp fp' : List (List Char)) : Prop :=
  ∃ read, fp = read ++ fp' ∧ ∀ currLine ∈ read, cString currLine ≠ []

theorem Loaded.refl (fp : List (List Char)) : Loaded fp fp := ⟨[], rfl, by simp⟩

variable {fp fp' : List (List Char)} {currLine : List Char}

theorem Loaded.cons (hline : cString currLine ≠ []) (h : Loaded fp fp') :
    Loaded (currLine :: fp) fp' := by
  obtain ⟨read, rfl, hread⟩ := h
  exact ⟨currLine :: read, rfl, forall_mem_cons.mpr ⟨hline, hread⟩⟩

theorem Loaded.trans {fp'' : List (List Char)} (h : Loaded fp fp') (h' : Loaded fp' fp'') :
    Loaded fp fp'' := by
  obtain ⟨read, rfl, hread⟩ := h
  obtain ⟨read', rfl, hread'⟩ := h'
  exact ⟨read ++ read', (append_assoc ..).symm, forall_mem_append.mpr ⟨hread, hread'⟩⟩

theorem Loaded.mem (h : Loaded fp fp') (hmem : currLine ∈ fp') : currLine ∈ fp := by
  obtain ⟨read, rfl, -⟩ := h
  exact mem_append_right _ hmem

/-- The rest of the lines is loaded as well. -/
theorem Loaded.forall_ne_nil (h : Loaded fp fp') (h' : ∀ currLine ∈ fp', cString currLine ≠ []) :
    ∀ currLine ∈ fp, cString currLine ≠ [] := by
  obtain ⟨read, rfl, hread⟩ := h
  exact forall_mem_append.mpr ⟨hread, h'⟩

theorem brokenText_cons (currLine : List Char) (fp : List (List Char)) :
    brokenText (currLine :: fp) = chomp (cString currLine) ++ '\n' :: brokenText fp := by
  simp [brokenText]

variable {curPos : List Char}

theorem loadLine_ok (h : loadLine currLine = .ok curPos) :
    cString currLine ≠ [] ∧ curPos = chomp (cString currLine) := by
  unfold loadLine at h
  split at h
  · cases h
  · next hne => exact ⟨hne, (Except.ok.inj h).symm⟩

variable {e : LexFault}

theorem loadLine_error (h : loadLine currLine = .error e) :
    e = .outsideBuffer ∧ cString currLine = [] := by
  unfold loadLine at h
  split at h
  · next hnil => exact ⟨(Except.error.inj h).symm, hnil⟩
  · cases h

/-! ## What is read at the cursor -/

theorem reading_space {c : Char} (hc : isSpace c) (text : List Char) :
    reading .code (c :: text) = reading .code text := by
  have hslash : c ≠ '/' := by
    rintro rfl
    exact absurd hc (by decide)
  rw [reading, strip_cons (by simp [hslash]) (by simp [hslash])]
  exact congrArg (·, _) (symbols_cons_space hc _)

theorem reading_dropWhile (curPos text : List Char) :
    reading .code (curPos.dropWhile isSpace ++ text) = reading .code (curPos ++ text) := by
  induction curPos with
  | nil => rfl
  | cons c curPos ih =>
    by_cases hc : isSpace c = true
    · rw [dropWhile_cons_of_pos hc, ih, cons_append, reading_space hc]
    · rw [dropWhile_cons_of_neg hc]

variable (text : List Char)

theorem reading_newline : reading .code ('\n' :: text) = reading .code text :=
  reading_space (by decide) text

theorem reading_lineComment : reading .code ('/' :: '/' :: text) = reading .line text := by
  rw [reading, strip, if_pos ⟨rfl, rfl⟩]
  exact congrArg (·, _) (symbols_cons_space (by decide) _)

theorem reading_blockComment : reading .code ('/' :: '*' :: text) = reading .block text := by
  rw [reading, strip, if_neg (by decide), if_pos ⟨rfl, rfl⟩]
  exact congrArg (·, _) (symbols_cons_space (by decide) _)

variable {line : List Char}

theorem reading_line (hline : '\n' ∉ line) (text : List Char) :
    reading .line (line ++ '\n' :: text) =
      if line = [] ∨ line.getLast? ≠ some '\\' then reading .code text
      else reading .line text := by
  rw [reading, strip_line hline]
  split
  · exact congrArg (·, _) (symbols_cons_space (by decide) _)
  · rfl

theorem reading_block (hline : '\n' ∉ line) (text : List Char) :
    reading .block (line ++ '\n' :: text) =
      match endOfComment line with
      | some eoc => reading .code (eoc ++ '\n' :: text)
      | none => reading .block text := by
  rw [reading, strip_block hline]
  cases endOfComment line <;> rfl

variable {start : List Char}

theorem take_two_append {c d e : Char} (he : e ≠ '\n') (h : (c :: start).take 2 ≠ [d, e])
    (text : List Char) : (c :: (start ++ '\n' :: text)).take 2 ≠ [d, e] := by
  cases start with
  | nil => simp [Ne.symm he]
  | cons f start => exact h

/-- A symbol is the same in a text that goes on, and whatever its comments are. -/
theorem reading_symbol {c : Char} (hc : isSpace c = false)
    (hline : (c :: start).take 2 ≠ ['/', '/']) (hblock : (c :: start).take 2 ≠ ['/', '*'])
    (text : List Char) :
    reading .code (c :: start ++ '\n' :: text) =
      ((scan (c :: start)).1 :: (reading .code ((scan (c :: start)).2 ++ '\n' :: text)).1,
        (reading .code ((scan (c :: start)).2 ++ '\n' :: text)).2) := by
  obtain ⟨happ, hne⟩ := scan_append hc start
  have hcongr := @scan_congr c start (strip .code ((scan (c :: start)).2 ++ '\n' :: text)).1 hc
  set sym := (scan (c :: start)).1 with hsym
  set rest := (scan (c :: start)).2
  -- a slash would be the whole symbol, and begins no comment
  have hstrip : strip .code (sym ++ (rest ++ '\n' :: text)) =
      (sym ++ (strip .code (rest ++ '\n' :: text)).1, (strip .code (rest ++ '\n' :: text)).2) := by
    by_cases hslash : '/' ∈ sym
    · obtain ⟨hone, rfl⟩ := eq_slash_of_mem_scan hslash
      have hrest : rest = start := by
        rw [← hsym] at hone
        rw [hone] at happ
        exact (List.cons.inj happ).2
      rw [← hsym] at hone
      rw [hone, hrest, singleton_append, strip_cons (take_two_append (by decide) hline _)
        (take_two_append (by decide) hblock _)]
      rfl
    · exact strip_append (fun d hd => by rintro rfl; exact hslash hd) _
  have hnext : Scanner.SameNext endsSymbol rest (strip .code (rest ++ '\n' :: text)).1 :=
    (Scanner.SameNext.append_cons (by decide) rest text).trans (sameNext_strip _)
  obtain ⟨d, sym', hcons⟩ := exists_cons_of_ne_nil hne
  have hd : d = c := by
    rw [hcons, cons_append] at happ
    exact (List.cons.inj happ).1
  rw [reading, ← happ, append_assoc, hstrip]
  refine Prod.ext ?_ rfl
  have hsymbols := symbols_cons hc (sym' ++ (strip .code (rest ++ '\n' :: text)).1)
  rw [← hd, ← cons_append, ← hcons, hcongr hnext] at hsymbols
  exact hsymbols

/-! ## What the lexer does -/

/-- What a fault says about the lines and about what is still to be read. -/
def LexFault.Explained (fp : List (List Char)) (before : List (List Char) × Region) :
    LexFault → Prop
  | .nullPointer => before.2 ≠ .code
  | .outsideBuffer => ∃ currLine ∈ fp, cString currLine = []

/-- What is read before and after a comment is omitted; no position is left where the end of the
file is in the comment. -/
def Omits (fp : List (List Char)) (before : List (List Char) × Region) :
    Except LexFault (Bool × Cursor) → Prop
  | .ok (true, c) => c.Lined ∧ Loaded fp c.fp ∧ before = reading .code c.text
  | .ok (false, c) => c.pCurPos = none ∧ before.2 ≠ .code
  | .error e => e.Explained fp before

/-- What is read before and after a symbol. -/
def DeliversNext (c : Cursor) : Except LexFault (Option (List Char) × Cursor) → Prop
  | .ok (sym, c') => c'.Lined ∧ Loaded c.fp c'.fp ∧
      reading .code c.text = (sym.toList ++ (reading .code c'.text).1, (reading .code c'.text).2) ∧
      (sym = none → reading .code c'.text = reading .code (brokenText c'.fp))
  | .error e => e.Explained c.fp (reading .code c.text)

/-- What is read until the end of the file. -/
def DeliversAll (c : Cursor) : Except LexFault (List (List Char)) → Prop
  | .ok syms => (∀ currLine ∈ c.fp, cString currLine ≠ []) ∧ reading .code c.text = (syms, .code)
  | .error e => e.Explained c.fp (reading .code c.text)

variable {before : List (List Char) × Region}

theorem LexFault.Explained.of_loaded {before' : List (List Char) × Region}
    (h : e.Explained fp' before') (hloaded : Loaded fp fp') (hwithin : before.2 = before'.2) :
    e.Explained fp before := by
  cases e with
  | nullPointer => exact fun hcode => h (hwithin.symm.trans hcode)
  | outsideBuffer =>
    obtain ⟨currLine, hmem, hnil⟩ := h
    exact ⟨currLine, hloaded.mem hmem, hnil⟩

theorem LexFault.Explained.of_loadLine (h : loadLine currLine = .error e) (fp : List (List Char))
    (before : List (List Char) × Region) : e.Explained (currLine :: fp) before := by
  obtain ⟨rfl, hnil⟩ := loadLine_error h
  exact ⟨currLine, mem_cons_self, hnil⟩

theorem Omits.of_loaded {omitted : Except LexFault (Bool × Cursor)} (h : Omits fp' before omitted)
    (hloaded : Loaded fp fp') : Omits fp before omitted := by
  match omitted, h with
  | .ok (true, _), ⟨hlined, hloaded', hbefore⟩ => exact ⟨hlined, hloaded.trans hloaded', hbefore⟩
  | .ok (false, _), h => exact h
  | .error _, h => exact LexFault.Explained.of_loaded h hloaded rfl

/-- The cursor at the beginning of a line just loaded. -/
theorem Cursor.Lined.load {pCurPos : Option (List Char)}
    (h : Cursor.Lined ⟨currLine :: fp, pCurPos⟩) :
    Cursor.Lined ⟨fp, some (chomp (cString currLine))⟩ := by
  obtain ⟨hline, hfp⟩ := forall_mem_cons.mp h.fp
  exact ⟨hfp, by simpa using hline⟩

theorem omits_omitLineComment (hlined : Cursor.Lined ⟨fp, some curPos⟩) :
    Omits fp (reading .line (curPos ++ '\n' :: brokenText fp)) (omitLineComment fp curPos) := by
  rw [reading_line (hlined.pCurPos _ rfl)]
  fun_induction omitLineComment fp curPos with
  | case1 curPos hend =>
    rw [if_pos hend]
    exact ⟨⟨hlined.fp, by simp⟩, .refl _, rfl⟩
  | case2 curPos hend =>
    rw [if_neg hend]
    exact ⟨rfl, by decide⟩
  | case3 curPos currLine fp hend =>
    rw [if_pos hend]
    exact ⟨⟨hlined.fp, by simp⟩, .refl _, rfl⟩
  | case4 curPos currLine fp _ e hload => exact .of_loadLine hload _ _
  | case5 curPos currLine fp hend curPos' hload ih =>
    obtain ⟨hne, rfl⟩ := loadLine_ok hload
    rw [if_neg hend, brokenText_cons, reading_line (hlined.load.pCurPos _ rfl)]
    exact (ih hlined.load).of_loaded (.cons hne (.refl _))

theorem endOfComment_suffix {eoc : List Char} (h : endOfComment curPos = some eoc) :
    eoc <:+ curPos := by
  fun_induction endOfComment curPos with
  | case1 => cases h
  | case2 => cases h
  | case3 =>
    cases h
    exact ⟨[_, _], rfl⟩
  | case4 _ _ _ _ ih => exact (ih h).trans (suffix_cons ..)

theorem Cursor.Lined.of_suffix {curPos' : List Char} (h : Cursor.Lined ⟨fp, some curPos⟩)
    (hsuffix : curPos' <:+ curPos) : Cursor.Lined ⟨fp, some curPos'⟩ :=
  ⟨h.fp, fun _ hpos hmem => h.pCurPos curPos rfl (hsuffix.subset (Option.some.inj hpos ▸ hmem))⟩

theorem omits_omitBlockComment (hlined : Cursor.Lined ⟨fp, some curPos⟩) :
    Omits fp (reading .block (curPos ++ '\n' :: brokenText fp)) (omitBlockComment fp curPos) := by
  induction fp generalizing curPos with
  | nil =>
    rw [reading_block (hlined.pCurPos _ rfl), omitBlockComment]
    cases heoc : endOfComment curPos with
    | some eoc => exact ⟨hlined.of_suffix (endOfComment_suffix heoc), .refl _, rfl⟩
    | none => exact ⟨rfl, by decide⟩
  | cons currLine fp ih =>
    rw [reading_block (hlined.pCurPos _ rfl), omitBlockComment]
    cases heoc : endOfComment curPos with
    | some eoc => exact ⟨hlined.of_suffix (endOfComment_suffix heoc), .refl _, rfl⟩
    | none =>
      cases hload : loadLine currLine with
      | error e => exact .of_loadLine hload _ _
      | ok curPos' =>
        obtain ⟨hne, rfl⟩ := loadLine_ok hload
        simp only [brokenText_cons]
        exact (ih hlined.load).of_loaded (.cons hne (.refl _))

/-- A comment at the position, or a symbol. -/
theorem omitComments_spec (hlined : Cursor.Lined ⟨fp, some curPos⟩) :
    Omits fp (reading .code (curPos ++ '\n' :: brokenText fp)) (omitComments fp curPos) ∨
      omitComments fp curPos = .ok (false, ⟨fp, some curPos⟩) := by
  have htail : Cursor.Lined ⟨fp, some (curPos.drop 2)⟩ := hlined.of_suffix (drop_suffix ..)
  unfold omitComments
  split
  · next htake =>
    left
    have happ := take_append_drop 2 curPos
    rw [htake] at happ
    rw [← happ, append_assoc, cons_append, cons_append, nil_append, reading_lineComment]
    exact omits_omitLineComment htail
  · split
    · next htake =>
      left
      have happ := take_append_drop 2 curPos
      rw [htake] at happ
      rw [← happ, append_assoc, cons_append, cons_append, nil_append, reading_blockComment]
      exact omits_omitBlockComment htail
    · exact .inr rfl

variable {c : Cursor}

theorem Cursor.text_some (hpos : c.pCurPos = some curPos) :
    c.text = curPos ++ '\n' :: brokenText c.fp := by
  rw [Cursor.text, hpos, Option.elim_some]

/-- The position behind white space. -/
theorem Cursor.Lined.killSpace (h : c.Lined) (hpos : c.pCurPos = some curPos)
    (hspace : curPos.dropWhile isSpace = start) :
    Cursor.Lined ⟨c.fp, some start⟩ ∧
      reading .code c.text = reading .code (start ++ '\n' :: brokenText c.fp) := by
  obtain ⟨fp, pCurPos⟩ := c
  obtain rfl : pCurPos = some curPos := hpos
  refine ⟨h.of_suffix (hspace ▸ dropWhile_suffix isSpace), ?_⟩
  rw [Cursor.text_some rfl, ← reading_dropWhile, hspace]

theorem DeliversNext.of_reading {c' : Cursor}
    {delivered : Except LexFault (Option (List Char) × Cursor)} (h : DeliversNext c' delivered)
    (hloaded : Loaded c.fp c'.fp) (hreading : reading .code c.text = reading .code c'.text) :
    DeliversNext c delivered := by
  match delivered, h with
  | .ok (_, _), ⟨hlined, hloaded', hdelivered⟩ =>
    exact ⟨hlined, hloaded.trans hloaded', hreading ▸ hdelivered⟩
  | .error _, h => exact LexFault.Explained.of_loaded h hloaded (congrArg _ hreading)

theorem deliversNext_getSymbol (hlined : c.Lined) : DeliversNext c (getSymbol c) := by
  fun_induction getSymbol c with
  | case1 c hpos =>
    have htext : c.text = brokenText c.fp := by rw [Cursor.text, hpos, Option.elim_none]
    exact ⟨hlined, .refl _, rfl, fun _ => congrArg _ htext⟩
  | case2 c curPos hpos hspace =>
    have htext : reading .code c.text = reading .code (brokenText c.fp) := by
      rw [Cursor.text_some hpos, ← reading_dropWhile, hspace, nil_append, reading_newline]
    refine ⟨⟨hlined.fp, by simp⟩, .refl _, ?_, fun _ => reading_newline _⟩
    rw [htext, ← reading_newline]
    rfl
  | case3 c curPos hpos ch start hspace e hcomment =>
    obtain ⟨hpos', hbefore⟩ := hlined.killSpace hpos hspace
    have hspec := omitComments_spec hpos'
    rw [hcomment, ← hbefore] at hspec
    rcases hspec with hspec | hspec
    · exact hspec
    · cases hspec
  | case4 c curPos hpos ch start hspace c' hcomment ih =>
    obtain ⟨hpos', hbefore⟩ := hlined.killSpace hpos hspace
    have hspec := omitComments_spec hpos'
    rw [hcomment, ← hbefore] at hspec
    rcases hspec with ⟨hlined', hloaded, hreading⟩ | hspec
    · exact (ih hlined').of_reading hloaded hreading
    · cases hspec
  | case5 c curPos hpos ch start hspace fp hcomment =>
    obtain ⟨hpos', hbefore⟩ := hlined.killSpace hpos hspace
    have hspec := omitComments_spec hpos'
    rw [hcomment, ← hbefore] at hspec
    rcases hspec with ⟨-, hwithin⟩ | hspec
    · exact hwithin
    · cases hspec
  | case6 c curPos hpos ch start hspace fp start' hcomment =>
    obtain ⟨hpos', hbefore⟩ := hlined.killSpace hpos hspace
    obtain ⟨rfl, rfl, hline, hblock⟩ := omitComments_false hcomment
    have hsymbol := isSpace_of_dropWhile hspace
    obtain ⟨happ, -⟩ := scan_append hsymbol start
    rw [reading_symbol hsymbol hline hblock] at hbefore
    exact ⟨hpos'.of_suffix ⟨_, happ⟩, .refl _, hbefore, by simp⟩

theorem DeliversAll.of_reading {c' : Cursor} {read : Except LexFault (List (List Char))}
    (h : DeliversAll c' read) (hloaded : Loaded c.fp c'.fp)
    (hreading : reading .code c.text = reading .code c'.text) : DeliversAll c read := by
  match read, h with
  | .ok _, ⟨hfp, hsyms⟩ => exact ⟨hloaded.forall_ne_nil hfp, hreading.trans hsyms⟩
  | .error _, h => exact LexFault.Explained.of_loaded h hloaded (congrArg _ hreading)

theorem deliversAll_readSymbols (hlined : c.Lined) : DeliversAll c (readSymbols c) := by
  fun_induction readSymbols c with
  | case1 c e hsymbol =>
    have hspec := deliversNext_getSymbol hlined
    rwa [hsymbol] at hspec
  | case2 c sym c' hsymbol e hread ih =>
    have hspec := deliversNext_getSymbol hlined
    rw [hsymbol] at hspec
    obtain ⟨hlined', hloaded, hreading, -⟩ := hspec
    have hrest := ih hlined'
    rw [hread] at hrest
    exact LexFault.Explained.of_loaded hrest hloaded (by rw [hreading])
  | case3 c sym c' hsymbol syms hread ih =>
    have hspec := deliversNext_getSymbol hlined
    rw [hsymbol] at hspec
    obtain ⟨hlined', hloaded, hreading, -⟩ := hspec
    have hrest := ih hlined'
    rw [hread] at hrest
    obtain ⟨hfp, hsyms⟩ := hrest
    refine ⟨hloaded.forall_ne_nil hfp, ?_⟩
    rw [hreading, hsyms]
    rfl
  | case4 c c' hsymbol hfp =>
    have hspec := deliversNext_getSymbol hlined
    rw [hsymbol] at hspec
    obtain ⟨-, hloaded, hreading, hnone⟩ := hspec
    rw [hfp] at hloaded hnone
    refine ⟨hloaded.forall_ne_nil (by simp), ?_⟩
    rw [hreading, hnone rfl]
    simp [reading, brokenText, strip, symbols]
  | case5 c c' hsymbol currLine fp hfp e hload =>
    have hspec := deliversNext_getSymbol hlined
    rw [hsymbol] at hspec
    obtain ⟨-, hloaded, -, -⟩ := hspec
    obtain ⟨rfl, hnil⟩ := loadLine_error hload
    exact ⟨currLine, hloaded.mem (hfp ▸ mem_cons_self), hnil⟩
  | case6 c c' hsymbol currLine fp hfp curPos hload ih =>
    have hspec := deliversNext_getSymbol hlined
    rw [hsymbol] at hspec
    obtain ⟨hlined', hloaded, hreading, hnone⟩ := hspec
    obtain ⟨hne, rfl⟩ := loadLine_ok hload
    rw [hfp] at hloaded
    have hload' : Loaded c.fp fp := hloaded.trans (.cons hne (.refl _))
    have hnext : Cursor.Lined ⟨currLine :: fp, none⟩ := ⟨hfp ▸ hlined'.fp, by simp⟩
    refine (ih hnext.load).of_reading hload' ?_
    rw [hreading, Option.toList_none, nil_append, Prod.mk.eta, hnone rfl, hfp, brokenText_cons]
    rfl

/-! ## The lines of a file -/

theorem newline_notMem_fgets (n : ℕ) (file : List Char) : '\n' ∉ (fgets n file).1.dropLast := by
  fun_induction fgets n file with
  | case1 => simp
  | case2 => simp
  | case3 => simp
  | case4 n c file hc ih =>
    cases hline : (fgets n file).1 with
    | nil => simp
    | cons d line =>
      rw [hline] at ih
      rw [dropLast_cons_cons, mem_cons, not_or]
      exact ⟨Ne.symm hc, ih⟩

theorem newline_notMem_chomp (h : '\n' ∉ line.dropLast) : '\n' ∉ chomp line := by
  unfold chomp
  split
  · exact h
  · next hlast =>
    intro hmem
    obtain rfl | ⟨line, c, rfl⟩ := eq_nil_or_concat line
    · cases hmem
    · rw [concat_eq_append, getLast?_concat, Option.some_inj] at hlast
      rw [concat_eq_append, dropLast_concat] at h
      rw [concat_eq_append, mem_append, mem_singleton] at hmem
      exact hmem.elim h fun hc => hlast hc.symm

theorem newline_notMem_chomp_cString (h : '\n' ∉ line.dropLast) : '\n' ∉ chomp (cString line) := by
  refine newline_notMem_chomp fun hmem => h ?_
  obtain ⟨rest, hrest⟩ : cString line <+: line := takeWhile_prefix _
  rw [← hrest]
  by_cases hnil : rest = []
  · rwa [hnil, append_nil]
  · rw [dropLast_append_of_ne_nil hnil]
    exact mem_append_left _ (dropLast_subset _ hmem)

theorem lined_pieces (file : List Char) : Cursor.Lined ⟨pieces file, none⟩ := by
  refine ⟨?_, by simp⟩
  fun_induction pieces file with
  | case1 => simp
  | case2 file hne ih =>
    exact forall_mem_cons.mpr ⟨newline_notMem_chomp_cString (newline_notMem_fgets _ _), ih⟩

theorem readSymbols_pieces_iff (file : List Char) (syms : List (List Char)) :
    readSymbols ⟨pieces file, none⟩ = .ok syms ↔
      (∀ currLine ∈ pieces file, cString currLine ≠ []) ∧
        reading .code (brokenText (pieces file)) = (syms, .code) := by
  have hspec := deliversAll_readSymbols (lined_pieces file)
  cases hread : readSymbols ⟨pieces file, none⟩ with
  | error e =>
    rw [hread] at hspec
    refine ⟨fun h => (by cases h), ?_⟩
    rintro ⟨hfp, hsyms⟩
    cases e with
    | nullPointer => exact absurd (congrArg Prod.snd hsyms) hspec
    | outsideBuffer =>
      obtain ⟨currLine, hmem, hnil⟩ := hspec
      exact absurd hnil (hfp currLine hmem)
  | ok syms' =>
    rw [hread] at hspec
    obtain ⟨hfp, hsyms⟩ := hspec
    refine ⟨fun h => Except.ok.inj h ▸ ⟨hfp, hsyms⟩, fun h => ?_⟩
    exact congrArg _ (Prod.mk.inj (hsyms.symm.trans h.2)).1

end V2I.Rpcc
