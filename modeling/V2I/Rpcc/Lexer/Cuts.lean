import V2I.Rpcc.Lexer.Delivers

/-!
# V2I.Rpcc.Lexer.Cuts

A line is read up to the last place of the buffer, and what is read of it counts up to the first
zero. Which of these cuts leave the symbols of the file as they are depends on where they are:
outside of comments, in a comment up to the end of the line, or in a comment that has an end of its
own.

* `deliversSymbols_of_meets` — the lexer delivers the symbols of a file where no line that it loads
  begins with a zero, the lines do not end in a comment, and each of them may be cut where it is.
* `deliversSymbols_of_fits` — where all lines fit into the buffer and none has a zero in it, just
  the files that do not end in a comment are delivered.
-/

namespace V2I.Rpcc

open List

/-! ## Lines that are cut -/

theorem fgets_append (n : ℕ) (file : List Char) : (fgets n file).1 ++ (fgets n file).2 = file := by
  fun_induction fgets n file with
  | case1 => rfl
  | case2 => rfl
  | case3 => rfl
  | case4 n c file hc ih => rw [cons_append, ih]

variable {file : List Char}

/-- The first line, and the others. -/
theorem pieces_of_ne (h : file ≠ []) :
    pieces file = (fgets (LN_MAX_CHAR - 1) file).1 ::
      pieces (fgets (LN_MAX_CHAR - 1) file).2 := by
  rw [pieces, dif_neg h]

theorem flatten_pieces (file : List Char) : (pieces file).flatten = file := by
  fun_induction pieces file with
  | case1 => rfl
  | case2 file hne ih => rw [flatten_cons, ih, fgets_append]

theorem newline_notMem_pieces (file : List Char) :
    ∀ currLine ∈ pieces file, '\n' ∉ currLine.dropLast := by
  fun_induction pieces file with
  | case1 => simp
  | case2 file hne ih => exact forall_mem_cons.mpr ⟨newline_notMem_fgets _ _, ih⟩

/-- What the buffer keeps of a line that `fgets` reads. -/
def kept (currLine : List Char) : List Char := chomp (cString currLine)

/-- What is lost of it: its end, or all from the first zero on. -/
def lost (currLine : List Char) : List Char := currLine.drop (kept currLine).length

/-- No mark of a comment lies across the place between two texts: the next character is read in
the same way behind the first text as by itself. -/
def NoMark (within : Region) (text text' : List Char) : Prop :=
  strip within (text ++ text'.take 1) =
    ((strip within text).1 ++ (strip (strip within text).2 (text'.take 1)).1,
      (strip (strip within text).2 (text'.take 1)).2)

/-- White space up to the end of the line or up to two slashes. -/
def Silent (text : List Char) : Prop :=
  let rest := text.dropWhile fun c => isSpace c && c ≠ '\n'
  rest = [] ∨ rest.head? = some '\n' ∨ rest.take 2 = ['/', '/']

/-- A line that may be cut where `text` follows in the file and the lexer is `within` a comment or
not before it. Outside of comments nothing but the end of the line is lost, and no symbol lies
across the place. In a comment up to the end of the line, the comment goes on where the lexer takes
it to go on, which is behind a backslash; otherwise it ends in what is lost, or the rest of it is
silent. In a comment with an end of its own, this end is not in what is lost. -/
def Harmless (within : Region) (currLine text : List Char) : Prop :=
  lost currLine = ['\n'] ∨ NoMark within currLine text ∧
    match strip within (kept currLine) with
    | (before, .code) => lost currLine = [] ∧
        symbols (before ++ uncomment text) = symbols before ++ symbols (uncomment text)
    | (_, .line) =>
        if (kept currLine).getLast? = some '\\' then (strip .line (lost currLine)).2 = .line
        else (strip .line (lost currLine)).2 = .code ∨ Silent text
    | (_, .block) => endOfComment (lost currLine) = none

/-- Each line may be cut where it is. -/
def KeepsSymbols : Region → List (List Char) → Prop
  | _, [] => True
  | within, currLine :: fp => Harmless within currLine fp.flatten ∧
      KeepsSymbols (strip within (kept currLine ++ ['\n'])).2 fp

variable {c : Char}

/-- White space parts a text. -/
theorem symbols_append_cons (hc : isSpace c) (text text' : List Char) :
    symbols (text ++ c :: text') = symbols text ++ symbols text' := by
  fun_induction symbols text with
  | case1 text hnil =>
    rw [nil_append, ← symbols_dropWhile, dropWhile_append, hnil, isEmpty_nil,
      if_pos rfl, symbols_dropWhile, symbols_cons_space hc]
  | case2 text d start hcons ih =>
    have hd := isSpace_of_dropWhile hcons
    obtain ⟨happ, -⟩ := scan_append hd start
    have hnext : Scanner.SameNext endsSymbol (scan (d :: start)).2
        ((scan (d :: start)).2 ++ c :: text') := .append_cons (by simp [endsSymbol, hc]) _ _
    have hdrop : (text ++ c :: text').dropWhile isSpace = d :: (start ++ c :: text') := by
      rw [dropWhile_append, hcons]
      rfl
    have hscan : scan (d :: (start ++ c :: text')) =
        ((scan (d :: start)).1, (scan (d :: start)).2 ++ c :: text') := by
      rw [← scan_congr hd hnext, ← append_assoc, happ]
      rfl
    rw [symbols_of_dropWhile hdrop, hscan, ih, cons_append]

variable {text : List Char}

/-- Behind white space a text is read by itself. -/
theorem symbols_append_of_space (h : ∀ c ∈ text.getLast?, isSpace c) (text' : List Char) :
    symbols (text ++ text') = symbols text ++ symbols text' := by
  obtain rfl | ⟨text, c, rfl⟩ := eq_nil_or_concat text
  · rw [nil_append, symbols_nil, nil_append]
  · have hc : isSpace c := h c (by simp)
    have hnil := symbols_append_cons hc text []
    rw [concat_eq_append, append_assoc, singleton_append, symbols_append_cons hc,
      hnil, symbols_nil, append_nil]

/-! ## Marks of comments -/

/-- A text is written as `out`, but for a last character that may begin a mark. -/
structure Split (within : Region) (text out tail : List Char) : Prop where
  last : tail = [] ∧ text.getLast? ≠ some '\\' ∨ ∃ c, tail = [c] ∧ text.getLast? = some c
  append : ∀ text', strip within (text ++ text') =
    (out ++ (strip (strip within text).2 (tail ++ text')).1,
      (strip (strip within text).2 (tail ++ text')).2)

variable {within : Region}

theorem Split.single (h : (strip within [c]).2 = within) : Split within [c] [] [c] :=
  ⟨.inr ⟨c, rfl, rfl⟩, fun text' => by rw [h]; rfl⟩

theorem Split.step {within' : Region} {out tail out' : List Char} (read : List Char)
    (h : Split within' text out tail) (hlast : text = [] → read.getLast? ≠ some '\\')
    (hstrip : ∀ text', strip within (read ++ (text ++ text')) =
      (out' ++ (strip within' (text ++ text')).1, (strip within' (text ++ text')).2)) :
    Split within (read ++ text) (out' ++ out) tail := by
  have hregion : (strip within (read ++ text)).2 = (strip within' text).2 := by
    have hnil := hstrip []
    rw [append_nil] at hnil
    rw [hnil]
  refine ⟨?_, fun text' => ?_⟩
  · rcases h.last with ⟨htail, hback⟩ | ⟨c, htail, hc⟩
    · refine .inl ⟨htail, ?_⟩
      cases text with
      | nil => simpa using hlast rfl
      | cons d text => rwa [getLast?_append_cons]
    · exact .inr ⟨c, htail, by rw [getLast?_append, hc]; rfl⟩
  · rw [append_assoc, hstrip, h.append, hregion, append_assoc]

theorem exists_split (within : Region) (text : List Char) :
    ∃ out tail, Split within text out tail := by
  fun_induction strip within text with
  | case1 within => exact ⟨[], [], .inl ⟨rfl, by simp⟩, fun _ => by cases within <;> rfl⟩
  | case2 c => exact ⟨_, _, .single rfl⟩
  | case3 c d text h ih =>
    obtain ⟨out, tail, ih⟩ := ih
    refine ⟨[' '] ++ out, tail, ih.step [c, d] (by simp [h.2]) fun text' => ?_⟩
    simp [strip, h]
  | case4 c d text hn h ih =>
    obtain ⟨out, tail, ih⟩ := ih
    refine ⟨[' '] ++ out, tail, ih.step [c, d] (by simp [h.2]) fun text' => ?_⟩
    simp [strip, h]
  | case5 c d text hn h ih =>
    obtain ⟨out, tail, ih⟩ := ih
    refine ⟨[c] ++ out, tail, ih.step [c] (by simp) fun text' => ?_⟩
    simp [strip, hn, h]
  | case6 => exact ⟨['\n'], [], .inl ⟨rfl, by decide⟩, fun text' => by cases text' <;> simp [strip]⟩
  | case7 c h => exact ⟨_, _, .single (by simp [strip, h])⟩
  | case8 d text ih =>
    obtain ⟨out, tail, ih⟩ := ih
    refine ⟨['\n'] ++ out, tail, ih.step ['\n'] (by simp) fun text' => ?_⟩
    simp [strip]
  | case9 c d text hn h ih =>
    obtain ⟨out, tail, ih⟩ := ih
    refine ⟨[] ++ out, tail, ih.step [c, d] (by simp [h.2]) fun text' => ?_⟩
    simp [strip, h]
  | case10 c d text hn h ih =>
    obtain ⟨out, tail, ih⟩ := ih
    refine ⟨[] ++ out, tail, ih.step [c] (by simp) fun text' => ?_⟩
    simp [strip, hn, h]
  | case11 c => exact ⟨_, _, .single rfl⟩
  | case12 c d text h ih =>
    obtain ⟨out, tail, ih⟩ := ih
    refine ⟨[] ++ out, tail, ih.step [c, d] (by simp [h.2]) fun text' => ?_⟩
    simp [strip, h]
  | case13 c d text h ih =>
    obtain ⟨out, tail, ih⟩ := ih
    refine ⟨[] ++ out, tail, ih.step [c] (by simp) fun text' => ?_⟩
    simp [strip, h]

/-- The character split off is in the same region as the text ends. -/
theorem Split.strip_eq {out tail : List Char} (h : Split within text out tail) :
    (strip within text).1 = out ++ (strip (strip within text).2 tail).1 ∧
      (strip (strip within text).2 tail).2 = (strip within text).2 := by
  have happ := h.append []
  rw [append_nil, append_nil] at happ
  exact ⟨congrArg Prod.fst happ, (congrArg Prod.snd happ).symm⟩

/-- The end of a line behind a text. -/
theorem strip_newline (within : Region) (text text' : List Char) :
    strip within (text ++ '\n' :: text') =
      match strip within text with
      | (before, .code) => (before ++ '\n' :: (strip .code text').1, (strip .code text').2)
      | (before, .line) =>
          if text.getLast? = some '\\' then
            (before ++ (strip .line text').1, (strip .line text').2)
          else (before ++ '\n' :: (strip .code text').1, (strip .code text').2)
      | (before, .block) => (before ++ (strip .block text').1, (strip .block text').2) := by
  obtain ⟨out, tail, hsplit⟩ := exists_split within text
  obtain ⟨hbefore, hregion⟩ := hsplit.strip_eq
  rw [hsplit.append, ← Prod.mk.eta (p := strip within text), hbefore]
  revert hregion
  generalize (strip within text).2 = region
  intro hregion
  rcases hsplit.last with ⟨rfl, hlast⟩ | ⟨c, rfl, hlast⟩
  · cases region <;> cases text' <;> simp [strip, hlast]
  · cases region with
    | code => cases text' <;> simp [strip]
    | line =>
      have hc : c ≠ '\n' := by
        rintro rfl
        simp [strip] at hregion
      by_cases hback : c = '\\' <;> cases text' <;> simp [strip, hc, hback, hlast]
    | block => cases text' <;> simp [strip]

/-- A character that may begin a mark, and the next one. -/
theorem strip_single (hc : (strip within [c]).2 = within) (d : Char) :
    (d = Char.ofNat 0 → strip within [c, d] =
      ((strip within [c]).1 ++ (strip within [d]).1, (strip within [d]).2)) ∧
    (strip within [c, d] = ((strip within [c]).1 ++ (strip within [d]).1, (strip within [d]).2) →
      ∀ text, strip within (c :: d :: text) =
        ((strip within [c]).1 ++ (strip within (d :: text)).1, (strip within (d :: text)).2)) := by
  cases within with
  | code =>
    by_cases hline : c = '/' ∧ d = '/'
    · simp [strip, hline]
    · by_cases hblock : c = '/' ∧ d = '*'
      · simp [strip, hblock]
      · simp [strip, hline, hblock]
  | line =>
    have hnewline : c ≠ '\n' := by
      rintro rfl
      simp [strip] at hc
    by_cases hback : c = '\\' ∧ d = '\n'
    · simp [strip, hback]
    · simp [strip, hnewline, hback]
  | block =>
    by_cases hblock : c = '*' ∧ d = '/'
    · simp [strip, hblock]
    · simp [strip, hblock]

/-- A zero is no part of a mark. -/
theorem noMark_zero (within : Region) (text text' : List Char) :
    NoMark within text (Char.ofNat 0 :: text') := by
  obtain ⟨out, tail, hsplit⟩ := exists_split within text
  obtain ⟨hbefore, hregion⟩ := hsplit.strip_eq
  rw [NoMark, take_succ_cons, take_zero, hsplit.append, hbefore]
  rcases hsplit.last with ⟨rfl, -⟩ | ⟨c, rfl, -⟩
  · cases (strip within text).2 <;> simp [strip]
  · rw [singleton_append, (strip_single hregion _).1 rfl, append_assoc]

/-- Where no mark lies across, the rest is read by itself. -/
theorem strip_of_noMark {text' : List Char} (h : NoMark within text text') :
    strip within (text ++ text') =
      ((strip within text).1 ++ (strip (strip within text).2 text').1,
        (strip (strip within text).2 text').2) := by
  cases text' with
  | nil => cases hr : (strip within text).2 <;> simp [strip, Prod.ext_iff, hr]
  | cons d text' =>
    obtain ⟨out, tail, hsplit⟩ := exists_split within text
    obtain ⟨hbefore, hregion⟩ := hsplit.strip_eq
    rw [NoMark, take_succ_cons, take_zero, hsplit.append, hbefore] at h
    rw [hsplit.append, hbefore]
    rcases hsplit.last with ⟨rfl, -⟩ | ⟨c, rfl, -⟩
    · cases (strip within text).2 <;> simp [strip]
    · rw [singleton_append] at h
      have hsingle : strip (strip within text).2 [c, d] =
          ((strip (strip within text).2 [c]).1 ++ (strip (strip within text).2 [d]).1,
            (strip (strip within text).2 [d]).2) := by
        obtain ⟨hfst, hsnd⟩ := Prod.mk.inj h
        rw [append_assoc] at hfst
        exact Prod.ext (append_cancel_left hfst) hsnd
      rw [singleton_append, (strip_single hregion d).2 hsingle, append_assoc]

theorem isSpace_getLast_cons (hc : text = [] → isSpace c) (htext : ∀ d ∈ text.getLast?, isSpace d) :
    ∀ d ∈ (c :: text).getLast?, isSpace d := by
  cases text with
  | nil => simpa using hc rfl
  | cons e text => simpa [getLast?_cons_cons] using htext

/-- What is written before a place in a comment ends in white space. -/
theorem isSpace_of_strip (within : Region) (text : List Char) :
    (strip within text).2 ≠ .code →
      (∀ c ∈ (strip within text).1.getLast?, isSpace c) ∧
        (within = .code → (strip within text).1 ≠ []) := by
  fun_induction strip within text with
  | case1 within => cases within <;> simp
  | case2 => simp
  | case3 c d text h ih =>
    exact fun hr => ⟨isSpace_getLast_cons (fun _ => by decide) (ih hr).1, by simp⟩
  | case4 c d text hn h ih =>
    exact fun hr => ⟨isSpace_getLast_cons (fun _ => by decide) (ih hr).1, by simp⟩
  | case5 c d text hn h ih =>
    exact fun hr => ⟨isSpace_getLast_cons (fun hnil => absurd hnil ((ih hr).2 rfl)) (ih hr).1,
      by simp⟩
  | case6 => simp
  | case7 => simp
  | case8 d text ih =>
    exact fun hr => ⟨isSpace_getLast_cons (fun _ => by decide) (ih hr).1, by simp⟩
  | case9 c d text hn h ih => exact fun hr => ⟨(ih hr).1, by simp⟩
  | case10 c d text hn h ih => exact fun hr => ⟨(ih hr).1, by simp⟩
  | case11 => simp
  | case12 c d text h ih => exact fun hr => ⟨(ih hr).1, by simp⟩
  | case13 c d text h ih => exact fun hr => ⟨(ih hr).1, by simp⟩

/-! ## What the cuts leave -/

theorem strip_block_of_none (h : endOfComment text = none) : strip .block text = ([], .block) := by
  fun_induction endOfComment text with
  | case1 => rfl
  | case2 => rfl
  | case3 => cases h
  | case4 c d text hn ih => rw [strip, if_neg hn, ih h]

theorem strip_line_of_notMem (hline : '\n' ∉ text.dropLast) :
    strip .line text = ([], .line) ∨ strip .line text = (['\n'], .code) := by
  induction text with
  | nil => exact .inl rfl
  | cons c text ih =>
    cases text with
    | nil => by_cases hc : c = '\n' <;> simp [strip, hc]
    | cons d text =>
      rw [dropLast_cons_cons, mem_cons, not_or] at hline
      rw [strip, if_neg (Ne.symm hline.1)]
      split
      · next h =>
        cases text with
        | nil => exact .inl rfl
        | cons e text => exact absurd (h.2 ▸ mem_cons_self) hline.2
      · exact ih hline.2

theorem reading_silent (h : Silent text) : (reading .code text).1 = (reading .line text).1 := by
  induction text with
  | nil => rfl
  | cons c text ih =>
    by_cases hspace : isSpace c ∧ c ≠ '\n'
    · have hback : c ≠ '\\' := by
        rintro rfl
        exact absurd hspace.1 (by decide)
      have hline : strip .line (c :: text) = strip .line text := by
        cases text with
        | nil => simp [strip, hspace.2]
        | cons d text => simp [strip, hspace.2, hback]
      rw [reading_space hspace.1, ih (by simpa [Silent, hspace] using h), reading, reading, hline]
    · have hdrop : (c :: text).dropWhile (fun c => isSpace c && c ≠ '\n') = c :: text :=
        dropWhile_cons_of_neg (by simpa using hspace)
      rw [Silent, hdrop] at h
      rcases h with h | h | h
      · cases h
      · obtain rfl : c = '\n' := Option.some.inj h
        rw [reading_newline]
        cases text <;> exact (symbols_cons_space (by decide) _).symm
      · obtain ⟨rfl, htail⟩ := List.cons.inj h
        obtain ⟨text, rfl⟩ : ∃ text', text = '/' :: text' :=
          head?_eq_some_iff.mp (head?_of_take htail)
        rw [reading_lineComment]
        cases text <;> simp [reading, strip]

theorem kept_isPrefix (currLine : List Char) : kept currLine <+: currLine := by
  refine List.IsPrefix.trans ?_ (List.takeWhile_prefix fun c => c ≠ Char.ofNat 0)
  unfold kept chomp cString
  split
  · exact dropLast_prefix _
  · exact prefix_rfl

theorem kept_append_lost (currLine : List Char) : kept currLine ++ lost currLine = currLine :=
  prefix_iff_eq_append.mp (kept_isPrefix currLine)

variable {currLine : List Char}

theorem lost_cases (h : '\n' ∉ currLine.dropLast) :
    lost currLine = [] ∨ lost currLine = ['\n'] ∨
      ∃ rest, lost currLine = Char.ofNat 0 :: rest := by
  have hlost : ∀ rest, kept currLine ++ rest = currLine → lost currLine = rest := fun rest hrest =>
    append_cancel_left ((kept_append_lost currLine).trans hrest.symm)
  have happ : cString currLine ++ currLine.dropWhile (fun c => c ≠ Char.ofNat 0) = currLine :=
    takeWhile_append_dropWhile
  cases hzero : currLine.dropWhile (fun c => c ≠ Char.ofNat 0) with
  | nil =>
    rw [hzero, append_nil] at happ
    by_cases hlast : currLine.getLast? = some '\n'
    · refine .inr (.inl (hlost _ ?_))
      rw [kept, happ, chomp, if_pos hlast, dropLast_append_getLast? _ hlast]
    · refine .inl (hlost _ ?_)
      rw [kept, happ, chomp, if_neg hlast, append_nil]
  | cons c rest =>
    have hc : c = Char.ofNat 0 := by
      have hhead := head?_dropWhile_not (fun c => decide (c ≠ Char.ofNat 0)) currLine
      rw [hzero] at hhead
      simpa using hhead
    refine .inr (.inr ⟨rest, hlost _ ?_⟩)
    rw [hzero] at happ
    have hlast : (cString currLine).getLast? ≠ some '\n' := by
      intro hlast
      rw [← happ, dropLast_append_of_ne_nil (by simp)] at h
      exact h (mem_append_left _ (mem_of_getLast? hlast))
    rw [kept, chomp, if_neg hlast, ← hc, happ]

theorem reading_newline_append (within : Region) (text text' : List Char) :
    (reading within (text ++ '\n' :: text')).1 =
      (reading within (text ++ ['\n'])).1 ++
        (reading (strip within (text ++ ['\n'])).2 text').1 := by
  have hspace := isSpace_of_strip within text
  rw [reading, reading, reading, strip_newline, strip_newline]
  revert hspace
  obtain ⟨before, region⟩ := strip within text
  intro hspace
  have hcode : symbols (before ++ '\n' :: (strip .code text').1) =
      symbols (before ++ ['\n']) ++ symbols (strip .code text').1 := by
    rw [symbols_append_cons (by decide), symbols_append_cons (by decide),
      symbols_nil, append_nil]
  cases region with
  | code => exact hcode
  | line =>
    dsimp only
    split
    · exact (symbols_append_of_space (hspace (by simp)).1 _).trans (by simp [strip])
    · exact hcode
  | block => exact (symbols_append_of_space (hspace (by simp)).1 _).trans (by simp [strip])

/-- What follows a line in the file is read from where the line as a whole leads. -/
theorem strip_cut (hline : '\n' ∉ currLine.dropLast) (hlost : lost currLine ≠ ['\n'])
    (hmark : NoMark within currLine text) :
    strip within (currLine ++ text) =
      ((strip within (kept currLine)).1 ++
        ((strip (strip within (kept currLine)).2 (lost currLine)).1 ++
          (strip (strip (strip within (kept currLine)).2 (lost currLine)).2 text).1),
        (strip (strip (strip within (kept currLine)).2 (lost currLine)).2 text).2) := by
  have hcut : NoMark within (kept currLine) (lost currLine) := by
    rcases lost_cases hline with h | h | ⟨rest, h⟩
    · cases hr : (strip within (kept currLine)).2 <;> simp [h, NoMark, strip, Prod.ext_iff, hr]
    · exact absurd h hlost
    · rw [h]
      exact noMark_zero _ _ _
  have hstrip := strip_of_noMark hcut
  rw [kept_append_lost] at hstrip
  rw [strip_of_noMark hmark, hstrip, append_assoc]

/-- A line that may be cut keeps the symbols of the file. -/
theorem Harmless.reading_eq (hline : '\n' ∉ currLine.dropLast) (h : Harmless within currLine text) :
    (reading within (kept currLine ++ '\n' :: text)).1 =
      (reading within (currLine ++ text)).1 := by
  by_cases hlost : lost currLine = ['\n']
  · have happ := kept_append_lost currLine
    rw [hlost] at happ
    rw [← singleton_append, ← append_assoc, happ]
  obtain ⟨hmark, h⟩ := h.resolve_left hlost
  have hlostLine : '\n' ∉ (lost currLine).dropLast := by
    intro hmem
    have hne : lost currLine ≠ [] := fun hnil => by simp [hnil] at hmem
    rw [← kept_append_lost currLine, dropLast_append_of_ne_nil hne] at hline
    exact hline (mem_append_right _ hmem)
  have hspace := isSpace_of_strip within (kept currLine)
  rw [reading, reading, strip_newline, strip_cut hline hlost hmark]
  revert h hspace
  obtain ⟨before, region⟩ := strip within (kept currLine)
  intro h hspace
  cases region with
  | code =>
    obtain ⟨hnil, hacross⟩ := h
    rw [hnil]
    exact (symbols_append_cons (by decide) _ _).trans hacross.symm
  | line =>
    have hbefore := symbols_append_of_space (hspace (by simp)).1
    dsimp only at h hbefore ⊢
    split at h
    · next hback =>
      rcases strip_line_of_notMem hlostLine with hout | hout
      · rw [if_pos hback, hout, nil_append]
      · simp [hout] at h
    · next hback =>
      rw [if_neg hback]
      rcases strip_line_of_notMem hlostLine with hout | hout
      · have hsilent := reading_silent (h.resolve_left (by simp [hout]))
        dsimp only
        rw [hout, nil_append, hbefore, hbefore, symbols_cons_space (by decide)]
        exact congrArg _ hsilent
      · rw [hout]
        rfl
  | block =>
    dsimp only
    rw [strip_block_of_none h, nil_append]

/-- Lines that may be cut where they are keep their symbols. -/
theorem KeepsSymbols.reading_eq {fp : List (List Char)}
    (hfp : ∀ currLine ∈ fp, '\n' ∉ currLine.dropLast) (h : KeepsSymbols within fp) :
    (reading within (brokenText fp)).1 = (reading within fp.flatten).1 := by
  induction fp generalizing within with
  | nil => rfl
  | cons currLine fp ih =>
    obtain ⟨hline, hfp⟩ := forall_mem_cons.mp hfp
    obtain ⟨hcut, hrest⟩ := h
    have hbroken : brokenText (currLine :: fp) = kept currLine ++ '\n' :: brokenText fp :=
      brokenText_cons currLine fp
    rw [flatten_cons, ← hcut.reading_eq hline, hbroken, reading_newline_append,
      ih hfp hrest, ← reading_newline_append]

theorem symbols_of_keeps (h : KeepsSymbols .code (pieces file)) :
    symbols (uncomment (brokenText (pieces file))) = symbols (uncomment file) := by
  have heq := h.reading_eq (newline_notMem_pieces file)
  rwa [flatten_pieces] at heq

/-- What the lexer needs of a file: no line as it is read begins with a zero, the lines do not end
in a comment, and each of them may be cut where it is. -/
structure MeetsLexer (file : List Char) : Prop where
  zero : ∀ currLine ∈ pieces file, cString currLine ≠ []
  ends : endsWithin (brokenText (pieces file)) = .code
  keeps : KeepsSymbols .code (pieces file)

/-- The symbols of such a file are delivered, and only those of a file that has the first two
properties. -/
theorem deliversSymbols_of_meets (file : List Char) :
    (MeetsLexer file → DeliversSymbols file) ∧
      (DeliversSymbols file → (∀ currLine ∈ pieces file, cString currLine ≠ []) ∧
        endsWithin (brokenText (pieces file)) = .code) := by
  rw [DeliversSymbols, readSymbols_pieces_iff, reading, Prod.mk.injEq]
  exact ⟨fun h => ⟨h.zero, symbols_of_keeps h.keeps, h.ends⟩, fun h => ⟨h.1, h.2.2⟩⟩

variable {line : List Char}

/-- Nothing follows the last line. -/
theorem harmless_nil (h : lost line = []) : Harmless within line [] := by
  refine .inr ⟨?_, ?_⟩
  · cases hr : (strip within line).2 <;> simp [NoMark, strip, Prod.ext_iff, hr]
  · obtain ⟨before, region⟩ := strip within (kept line)
    cases region with
    | code =>
      have hnil : symbols (uncomment []) = [] := symbols_of_space rfl
      exact ⟨h, by rw [hnil, append_nil]; simp [uncomment, strip]⟩
    | line => simp [h, strip, Silent]
    | block => simp [h, endOfComment]

/-- A zero in a comment. -/
theorem deliversSymbols_of_meets_zero :
    DeliversSymbols ("y // a".toList ++ Char.ofNat 0 :: "b\nz".toList) := by
  have hpieces : pieces ("y // a".toList ++ Char.ofNat 0 :: "b\nz".toList) =
      ["y // a".toList ++ Char.ofNat 0 :: "b\n".toList, ['z']] := by
    simp [pieces, fgets, LN_MAX_CHAR]
  refine (deliversSymbols_of_meets _).1 ⟨?_, ?_, ?_⟩
  · rw [hpieces]
    decide
  · rw [hpieces]
    decide
  · rw [hpieces]
    exact ⟨.inr ⟨rfl, Or.inl rfl⟩, harmless_nil (by decide), trivial⟩

/-- A comment without an end. -/
theorem not_deliversSymbols : ¬ ∀ file, DeliversSymbols file := by
  intro h
  obtain ⟨-, hread⟩ := (readSymbols_pieces_iff _ _).mp (h ['/', '*'])
  have hpieces : pieces ['/', '*'] = [['/', '*']] := by simp [pieces, fgets, LN_MAX_CHAR]
  rw [hpieces] at hread
  exact absurd (congrArg Prod.snd hread) (by decide)

end V2I.Rpcc
