import V2I.Utils.Uri

/-!
# V2I.Utils.Uri.RoundTrip

What parsing the text of a uri gives back.

`tostring` and `load` are inverse on the parts in front of the queries. A query comes back
when its key and its value do not clash with the syntax (`ItemOk`): values that are not
marked as utf8 are written as they are.
-/

namespace V2I.Uri

open List

/-! ## Splitting -/

variable {l : Bytes} {c : UInt8}

@[simp]
theorem upTo_of_not_mem (h : c ∉ l) : upTo c l = l := by
  induction l with
  | nil => rfl
  | cons b l ih =>
      obtain ⟨hb, hl⟩ := ne_and_not_mem_of_not_mem_cons h
      simp [upTo, Ne.symm hb, ih hl]

@[simp]
theorem upTo_append (h : c ∉ l) (r : Bytes) : upTo c (l ++ c :: r) = l := by
  induction l with
  | nil => simp [upTo]
  | cons b l ih =>
      obtain ⟨hb, hl⟩ := ne_and_not_mem_of_not_mem_cons h
      simp [upTo, Ne.symm hb, ih hl]

@[simp]
theorem behind_append (h : c ∉ l) (r : Bytes) : behind c (l ++ c :: r) = r := by
  induction l with
  | nil => simp [behind]
  | cons b l ih =>
      obtain ⟨hb, hl⟩ := ne_and_not_mem_of_not_mem_cons h
      simp [behind, Ne.symm hb, ih hl]

@[simp]
theorem behind_of_not_mem (h : c ∉ l) : behind c l = [] := by
  induction l with
  | nil => rfl
  | cons b l ih =>
      obtain ⟨hb, hl⟩ := ne_and_not_mem_of_not_mem_cons h
      simp [behind, Ne.symm hb, ih hl]

theorem not_mem_upTo (c : UInt8) (l : Bytes) : c ∉ upTo c l := by
  induction l with
  | nil => simp [upTo]
  | cons b l ih =>
      by_cases hb : b = c
      · simp [upTo, hb]
      · simp [upTo, hb, ih, Ne.symm hb]

/-- A string is cut in two at the first occurrence of a byte. -/
theorem upTo_behind (h : c ∈ l) : l = upTo c l ++ c :: behind c l := by
  induction l with
  | nil => cases h
  | cons b l ih =>
      by_cases hb : b = c
      · simp [upTo, behind, hb]
      · have hl : c ∈ l := (mem_cons.mp h).resolve_left (Ne.symm hb)
        simp only [upTo, behind, hb, if_false, cons_append]
        rw [← ih hl]

theorem mem_of_mem_upTo {b : UInt8} (h : b ∈ upTo c l) : b ∈ l := by
  by_cases hc : c ∈ l
  · rw [upTo_behind hc]
    simp [h]
  · rwa [upTo_of_not_mem hc] at h

theorem mem_of_mem_behind {b : UInt8} (h : b ∈ behind c l) : b ∈ l := by
  by_cases hc : c ∈ l
  · rw [upTo_behind hc]
    simp [h]
  · rw [behind_of_not_mem hc] at h
    cases h

/-! ## The parts in front of the queries -/

variable {scheme : Bytes}

theorem splitScheme_append (h : colon ∉ scheme) (text : Bytes) :
    splitScheme (scheme ++ [colon, slash, slash] ++ text) = some (scheme, text) := by
  induction scheme with
  | nil => rfl
  | cons c cs ih =>
      obtain ⟨hc, hcs⟩ := ne_and_not_mem_of_not_mem_cons h
      rw [cons_append, cons_append, splitScheme]
      split
      · next heq => exact absurd (List.cons.inj heq).1.symm hc
      · rw [ih hcs]
        rfl

theorem eq_of_splitScheme {s text : Bytes} (h : splitScheme s = some (scheme, text)) :
    s = scheme ++ [colon, slash, slash] ++ text := by
  induction s generalizing scheme with
  | nil => cases h
  | cons c cs ih =>
      rw [splitScheme] at h
      split at h
      · next heq =>
          cases h
          rw [heq]
          rfl
      · obtain ⟨⟨a, b⟩, hr, heq⟩ := Option.map_eq_some_iff.mp h
        cases heq
        rw [ih hr]
        rfl

theorem colon_not_mem_scheme (h : checkSchemeValidty scheme = true) : colon ∉ scheme := by
  simp only [checkSchemeValidty, Bool.and_eq_true, all_eq_true] at h
  intro hmem
  exact absurd (h.2 colon hmem) (by decide)

/-- The names in front of the full path. -/
structure UserOk (user passwd : Bytes) : Prop where
  nonempty : user ≠ []
  colon : colon ∉ user
  atSign : atSign ∉ user ∧ atSign ∉ passwd
  question : question ∉ user ∧ question ∉ passwd
  zero : zero ∉ user ∧ zero ∉ passwd

/-- The parts in front of the queries, as the parser accepts them. -/
structure PartsOk (u : UriImpl) : Prop where
  scheme : checkSchemeValidty u.scheme = true
  schemeZero : zero ∉ u.scheme
  user : ∀ user passwd, u.userPasswd = some (user, passwd) → UserOk user passwd
  noUser : u.userPasswd = none → atSign ∉ u.fullpath
  question : question ∉ u.fullpath
  zero : zero ∉ u.fullpath
  port : loadPort u.fullpath = some (u.port, u.portStartColon)
  valid : checkFullpathValidty u.fullpath u.fullpath u.port = true
  filename : loadFilename u.fullpath = some u.filename

variable {up : Option (Bytes × Bytes)}

theorem parseUserPasswd_print {fullpath : Bytes}
    (huser : ∀ user passwd, up = some (user, passwd) → UserOk user passwd)
    (hno : up = none → atSign ∉ fullpath) :
    parseUserPasswd (printUser up ++ fullpath) = some (up, fullpath) := by
  cases up with
  | none => simp [printUser, parseUserPasswd, hno rfl]
  | some p =>
      obtain ⟨user, passwd⟩ := p
      have hok := huser user passwd rfl
      have hat : atSign ∉ user ++ colon :: passwd := by
        simp [hok.atSign, show atSign ≠ colon by decide]
      have htext : printUser (some (user, passwd)) ++ fullpath =
          (user ++ colon :: passwd) ++ atSign :: fullpath := by
        simp [printUser]
      simp only [parseUserPasswd, htext, upTo_append hat, behind_append hat, upTo_append hok.colon,
        behind_append hok.colon]
      simp [hok.nonempty]

theorem partsOk_of_parseUserPasswd {str fullpath : Bytes}
    (h : parseUserPasswd str = some (up, fullpath)) (hq : question ∉ str) (hz : zero ∉ str) :
    (∀ user passwd, up = some (user, passwd) → UserOk user passwd) ∧
      (up = none → atSign ∉ fullpath) ∧ question ∉ fullpath ∧ zero ∉ fullpath := by
  unfold parseUserPasswd at h
  extract_lets names user at h
  split_ifs at h with hat hcolon hempty hlen
  · cases h
    have hnames : ∀ b, b ∈ names → b ∈ str := fun b hb => mem_of_mem_upTo hb
    have hpath : ∀ b, b ∈ behind atSign str → b ∈ str := fun b hb => mem_of_mem_behind hb
    have huser : ∀ b, b ∈ user → b ∈ names := fun b hb => mem_of_mem_upTo hb
    have hpass : ∀ b, b ∈ behind colon names → b ∈ names := fun b hb => mem_of_mem_behind hb
    have hat' : atSign ∉ names := not_mem_upTo atSign str
    refine ⟨?_, (by intro h; cases h), fun hb => hq (hpath _ hb), fun hb => hz (hpath _ hb)⟩
    intro a b heq
    cases heq
    exact ⟨hempty, not_mem_upTo colon names, ⟨fun hb => hat' (huser _ hb), fun hb => hat' (hpass _ hb)⟩,
      ⟨fun hb => hq (hnames _ (huser _ hb)), fun hb => hq (hnames _ (hpass _ hb))⟩,
      ⟨fun hb => hz (hnames _ (huser _ hb)), fun hb => hz (hnames _ (hpass _ hb))⟩⟩
  · cases h
    exact ⟨fun _ _ h => (by cases h), fun _ => hat, hq, hz⟩

variable {u : UriImpl}

theorem port_of_not_mem (h : PartsOk u) (hc : colon ∉ u.fullpath) : u.port = -1 := by
  have hport := h.port
  simp only [loadPort, count_eq_zero_of_not_mem hc, hc] at hport
  simpa using (congrArg (Option.map Prod.fst) hport).symm

/-- The search for colons goes on into the queries. -/
theorem checkFullpathValidty_append (h : PartsOk u) (tail : Bytes) :
    checkFullpathValidty u.fullpath (u.fullpath ++ tail) u.port = decide (colon ∉ tail) := by
  have hvalid := h.valid
  simp only [checkFullpathValidty, Bool.and_eq_true] at hvalid ⊢
  obtain ⟨⟨hempty, hcolon⟩, hall⟩ := hvalid
  rw [hempty, hall, count_append]
  by_cases htail : colon ∈ tail
  · have hpos := count_pos_iff.mpr htail
    by_cases hpath : colon ∈ u.fullpath
    · have := count_pos_iff.mpr hpath
      simp only [htail, not_true_eq_false, decide_false, Bool.true_and, Bool.and_true,
        Bool.or_eq_false_iff, Bool.and_eq_false_iff, decide_eq_false_iff_not]
      exact ⟨by omega, .inr (by omega)⟩
    · simp only [htail, port_of_not_mem h hpath, not_true_eq_false, decide_false, Bool.true_and,
        Bool.and_true, Bool.or_eq_false_iff, Bool.and_eq_false_iff, decide_eq_false_iff_not]
      exact ⟨by omega, .inl (by omega)⟩
  · simpa [htail, count_eq_zero_of_not_mem htail] using hcolon

theorem cstr_append (h : zero ∉ l) (r : Bytes) : cstr (l ++ r) = l ++ cstr r := by
  induction l with
  | nil => rfl
  | cons b l ih =>
      obtain ⟨hb, hl⟩ := ne_and_not_mem_of_not_mem_cons h
      simp only [cstr, cons_append, upTo, Ne.symm hb, if_false] at ih ⊢
      rw [ih hl]

/-- What stands in front of the queries. -/
def front (u : UriImpl) : Bytes :=
  u.scheme ++ [colon, slash, slash] ++ printUser u.userPasswd ++ u.fullpath

/-- What stands behind the full path: nothing, or the queries. -/
def Tail (tail : Bytes) : Prop := tail = [] ∨ ∃ rest, tail = question :: rest

theorem not_mem_printUser (h : PartsOk u) :
    zero ∉ printUser u.userPasswd ∧ question ∉ printUser u.userPasswd := by
  cases hup : u.userPasswd with
  | none => simp [printUser]
  | some p =>
      have hok := h.user p.1 p.2 hup
      simp [printUser, hok.zero, hok.question, show zero ≠ colon by decide,
        show zero ≠ atSign by decide, show question ≠ colon by decide,
        show question ≠ atSign by decide]

theorem zero_not_mem_front (h : PartsOk u) : zero ∉ front u := by
  simp [front, h.schemeZero, (not_mem_printUser h).1, h.zero, show zero ≠ colon by decide,
    show zero ≠ slash by decide]

theorem fullpath_ne_nil (h : PartsOk u) : u.fullpath ≠ [] := by
  have hvalid := h.valid
  simp only [checkFullpathValidty, Bool.and_eq_true, decide_eq_true_eq] at hvalid
  exact hvalid.1.1

theorem upTo_question (h : PartsOk u) {tail : Bytes} (htail : Tail tail) :
    upTo question (printUser u.userPasswd ++ u.fullpath ++ tail) =
      printUser u.userPasswd ++ u.fullpath := by
  have hnot : question ∉ printUser u.userPasswd ++ u.fullpath := by
    simp [(not_mem_printUser h).2, h.question]
  rcases htail with rfl | ⟨rest, rfl⟩
  · rw [append_nil, upTo_of_not_mem hnot]
  · exact upTo_append hnot rest

/-- A text is cut into the parts and what stands behind them in one way. -/
theorem front_unique {u' : UriImpl} (h : PartsOk u) (h' : PartsOk u') {tail tail' : Bytes}
    (htail : Tail tail) (htail' : Tail tail') (heq : front u ++ tail = front u' ++ tail') :
    u.scheme = u'.scheme ∧ u.userPasswd = u'.userPasswd ∧ u.fullpath = u'.fullpath ∧
      tail = tail' := by
  have hsplit : ∀ {u : UriImpl} {tail : Bytes}, PartsOk u → splitScheme (front u ++ tail) =
      some (u.scheme, printUser u.userPasswd ++ u.fullpath ++ tail) := by
    intro u tail h
    rw [front, append_assoc, append_assoc,
      splitScheme_append (colon_not_mem_scheme h.scheme), append_assoc]
  have hscheme := @hsplit _ tail h
  rw [heq, hsplit h', Option.some.injEq, Prod.mk.injEq] at hscheme
  obtain ⟨hscheme, htext⟩ := hscheme
  have hnames := upTo_question h' htail'
  rw [htext, upTo_question h htail] at hnames
  have hparse := parseUserPasswd_print h.user h.noUser
  rw [hnames, parseUserPasswd_print h'.user h'.noUser, Option.some.injEq, Prod.mk.injEq] at hparse
  refine ⟨hscheme.symm, hparse.1.symm, hparse.2.symm, ?_⟩
  rw [hnames] at htext
  exact (append_cancel_left htext).symm

section Load

variable (signedChar : Bool) (Q : Qsort QueryItem) {u : UriImpl}

/-- **Parsing** what stands in front of the queries gives it back, and what stands behind it is
parsed as queries, unless a colon there has it rejected. -/
theorem load_front (h : PartsOk u) {tail : Bytes} (htail : Tail tail) (hzero : zero ∉ tail) :
    load signedChar Q (front u ++ tail) =
      if colon ∈ tail then some none
      else (loadKvPairs signedChar Q (tail.drop 1)).map fun queries =>
        some { u with queries := queries } := by
  have htext : cstr (front u ++ tail) =
      u.scheme ++ [colon, slash, slash] ++ (printUser u.userPasswd ++ u.fullpath ++ tail) := by
    have hnot : zero ∉ front u ++ tail := by
      simp [zero_not_mem_front h, hzero]
    rw [cstr, upTo_of_not_mem hnot, front]
    simp only [append_assoc]
  rw [load, htext, splitScheme_append (colon_not_mem_scheme h.scheme)]
  simp only [h.scheme, Bool.not_true, Bool.false_eq_true, if_false, loadRest, upTo_question h htail,
    append_eq_nil_iff, fullpath_ne_nil h, and_false, parseUserPasswd_print h.user h.noUser, h.port,
    checkFullpathValidty_append h, h.filename, drop_left]
  by_cases hc : colon ∈ tail
  · simp [hc]
  · simp [hc]

variable (s : Bytes)

theorem cstr_cstr : cstr (cstr s) = cstr s := upTo_of_not_mem (not_mem_upTo zero s)

/-- Only the C string counts. -/
theorem load_cstr : load signedChar Q (cstr s) = load signedChar Q s := by
  rw [load, load, cstr_cstr]

/-- **Parsing a printed uri** gives back everything but the queries, unless a colon in the
text of the queries has it rejected. -/
theorem load_tostring (h : PartsOk u) :
    load signedChar Q (tostring u) =
      if colon ∈ cstr (printQueries u.queries) then some none
      else (loadKvPairs signedChar Q (cstr (printQueries u.queries))).map fun queries =>
        some { u with queries := queries } := by
  -- what is left of the queries behind the full path
  obtain ⟨tail, htail, hdrop, hcolon, hquestion⟩ : ∃ tail,
      cstr (if u.queries = [] then [] else question :: printQueries u.queries) = tail ∧
      tail.drop 1 = cstr (printQueries u.queries) ∧
      (colon ∈ tail ↔ colon ∈ cstr (printQueries u.queries)) ∧ Tail tail := by
    refine ⟨_, rfl, ?_⟩
    unfold Tail
    cases hqs : u.queries with
    | nil => simp [cstr, printQueries]
    | cons q qs =>
        simp [cstr, upTo, show question ≠ zero by decide, show colon ≠ question by decide]
  have htext : cstr (tostring u) = front u ++ tail := by
    have hzero := zero_not_mem_front h
    unfold front at hzero
    rw [tostring, cstr_append hzero, htail]
    rfl
  have hzero : zero ∉ tail := htail ▸ not_mem_upTo zero _
  rw [← load_cstr, htext, load_front signedChar Q h hquestion hzero, hdrop]
  simp only [hcolon]

theorem checkFullpathValidty_of_append {fullpath tail : Bytes} {port : ℤ}
    (h : checkFullpathValidty fullpath (fullpath ++ tail) port = true) :
    checkFullpathValidty fullpath fullpath port = true := by
  simp only [checkFullpathValidty, Bool.and_eq_true, count_append, Bool.or_eq_true,
    decide_eq_true_eq] at h ⊢
  obtain ⟨⟨hempty, hcolon⟩, hall⟩ := h
  refine ⟨⟨hempty, ?_⟩, hall⟩
  rcases hcolon with hcolon | ⟨hpos, hcolon⟩
  · exact .inl (by omega)
  · by_cases hzero : List.count colon fullpath = 0
    · exact .inl hzero
    · exact .inr ⟨hpos, by omega⟩

theorem eq_of_parseUserPasswd {str fullpath : Bytes} {up : Option (Bytes × Bytes)}
    (h : parseUserPasswd str = some (up, fullpath)) : str = printUser up ++ fullpath := by
  unfold parseUserPasswd at h
  extract_lets names user at h
  split_ifs at h with hat hcolon hempty hlen
  · cases h
    have hnames : names = user ++ colon :: behind colon names := upTo_behind hcolon
    have hprint : printUser (some (user, behind colon names)) = names ++ [atSign] := by
      rw [printUser]
      conv_rhs => rw [hnames]
      rw [append_assoc, cons_append]
    rw [hprint, ← append_cons]
    exact upTo_behind hat
  · cases h
    rfl

/-- A text up to its first question mark, and the rest. -/
theorem tail_drop (text : Bytes) : Tail (text.drop (upTo question text).length) ∧
    text = upTo question text ++ text.drop (upTo question text).length := by
  by_cases hq : question ∈ text
  · have hdrop : text.drop (upTo question text).length = question :: behind question text := by
      have hcut : (upTo question text ++ question :: behind question text).drop
        (upTo question text).length = question :: behind question text := drop_left
      rwa [← upTo_behind hq] at hcut
    rw [hdrop]
    exact ⟨.inr ⟨_, rfl⟩, upTo_behind hq⟩
  · rw [upTo_of_not_mem hq, drop_length, append_nil]
    exact ⟨.inl rfl, rfl⟩

/-- **What is not rejected** begins with parts that the parser accepts, without a colon behind
them. -/
theorem load_cases : load signedChar Q s = some none ∨
    ∃ u tail, PartsOk u ∧ cstr s = front u ++ tail ∧ Tail tail ∧ zero ∉ tail ∧ colon ∉ tail := by
  unfold load
  split
  · exact .inl rfl
  · next scheme text hsplit =>
      have heq := eq_of_splitScheme hsplit
      have hz : zero ∉ scheme ++ [colon, slash, slash] ++ text := by
        rw [← heq]
        exact not_mem_upTo zero s
      simp only [mem_append, not_or] at hz
      obtain ⟨⟨hzs, -⟩, hzt⟩ := hz
      split_ifs with hscheme
      · exact .inl rfl
      unfold loadRest
      extract_lets str tail
      split_ifs with hstr
      · exact .inl rfl
      split
      · exact .inl rfl
      · next up fullpath huser =>
          have hq : question ∉ str := not_mem_upTo question text
          have hz : zero ∉ str := fun hb => hzt (mem_of_mem_upTo hb)
          obtain ⟨hup, hno, hqp, hzp⟩ := partsOk_of_parseUserPasswd huser hq hz
          split
          · exact .inl rfl
          · next port portStartColon hport =>
              split_ifs with hvalid
              · exact .inl rfl
              split
              · exact .inl rfl
              · next filename hfile =>
                  have hvalid' : checkFullpathValidty fullpath (fullpath ++ tail) port = true := by
                    simpa using hvalid
                  have hparts : PartsOk ⟨scheme, up, fullpath, port, portStartColon, filename, []⟩ :=
                    ⟨by simpa using hscheme, hzs, hup, hno, hqp, hzp, hport,
                      checkFullpathValidty_of_append hvalid', hfile⟩
                  have hcolon := checkFullpathValidty_append hparts tail
                  obtain ⟨htail, htext⟩ := tail_drop text
                  refine .inr ⟨_, tail, hparts, ?_, htail,
                    fun hb => hzt (mem_of_mem_drop hb), of_decide_eq_true (hcolon ▸ hvalid')⟩
                  replace htext : text = str ++ tail := htext
                  have hnames : str = printUser up ++ fullpath := eq_of_parseUserPasswd huser
                  rw [heq, htext, hnames]
                  simp only [front, append_assoc]

theorem PartsOk.setQueries (h : PartsOk u) (queries : List QueryItem) :
    PartsOk { u with queries := queries } :=
  ⟨h.scheme, h.schemeZero, h.user, h.noUser, h.question, h.zero, h.port, h.valid, h.filename⟩

/-- **The texts that are parsed**: acceptable parts, and queries without a colon behind them. -/
theorem load_eq_some_iff {s : Bytes} : load signedChar Q s = some (some u) ↔
    PartsOk u ∧ ∃ tail, cstr s = front u ++ tail ∧ Tail tail ∧ zero ∉ tail ∧ colon ∉ tail ∧
      loadKvPairs signedChar Q (tail.drop 1) = some u.queries := by
  constructor
  · intro h
    obtain hnone | ⟨u', tail, hparts, heq, htail, hzero, hcolon⟩ := load_cases signedChar Q s
    · cases hnone.symm.trans h
    · rw [← load_cstr, heq, load_front signedChar Q hparts htail hzero, if_neg hcolon] at h
      obtain ⟨queries, hkv, hu⟩ := Option.map_eq_some_iff.mp h
      cases hu
      exact ⟨hparts.setQueries queries, tail, heq, htail, hzero, hcolon, hkv⟩
  · rintro ⟨hparts, tail, heq, htail, hzero, hcolon, hkv⟩
    rw [← load_cstr, heq, load_front signedChar Q hparts htail hzero, if_neg hcolon, hkv]
    rfl

/-- A parsed uri: its parts are acceptable, its queries those of the parser. -/
theorem load_eq_some {s : Bytes} (h : load signedChar Q s = some (some u)) :
    PartsOk u ∧ ∃ str, zero ∉ str ∧ loadKvPairs signedChar Q str = some u.queries := by
  obtain ⟨hparts, tail, -, -, hzero, -, hkv⟩ := (load_eq_some_iff signedChar Q).mp h
  exact ⟨hparts, tail.drop 1, fun hb => hzero (mem_of_mem_drop hb), hkv⟩

end Load

/-! ## Values -/

theorem hexDigit_hexChar : ∀ n < 16, hexDigit (hexChar n) = some n := by decide

theorem hexChar_ne_percent : ∀ n < 16, hexChar n ≠ percent := by decide

section Values

variable (signedChar : Bool)

theorem decodeValue_hexByte (b : UInt8) (t : Bytes) :
    decodeValue signedChar 0 0 (hexByte b ++ t) =
      (decodeValue signedChar 0 0 t).map fun r => (b :: r.1, true) := by
  have hb : b.toNat < 256 := b.toNat_lt
  have hhi : b.toNat / 16 < 16 := by omega
  have hlo : b.toNat % 16 < 16 := by omega
  have hbyte : UInt8.ofNat ((0 * 16 + b.toNat / 16) * 16 + b.toNat % 16) = b := by
    rw [show (0 * 16 + b.toNat / 16) * 16 + b.toNat % 16 = b.toNat by omega, UInt8.ofNat_toNat]
  simp only [hexByte, cons_append, nil_append, decodeValue, if_true, ne_eq,
    not_true_eq_false, if_false, hexChar_ne_percent _ hhi, hexChar_ne_percent _ hlo,
    hexDigit_hexChar _ hhi, hexDigit_hexChar _ hlo, hbyte]
  cases decodeValue signedChar 0 0 t <;> simp

/-- What is written as escapes is read as it was. -/
theorem decodeValue_flatMap_hexByte (v : Bytes) :
    decodeValue signedChar 0 0 (v.flatMap hexByte) = some (v, decide (v ≠ [])) := by
  induction v with
  | nil => rfl
  | cons b v ih => simp [decodeValue_hexByte, ih]

/-- What has no escapes is read as it is. -/
theorem decodeValue_plain {v : Bytes} (h : percent ∉ v) (c : ℕ) :
    decodeValue signedChar c 0 v = some (v, v.any (high signedChar)) := by
  induction v with
  | nil => rfl
  | cons b v ih =>
      obtain ⟨hb, hv⟩ := ne_and_not_mem_of_not_mem_cons h
      simp [decodeValue, Ne.symm hb, ih hv, Bool.or_comm]

/-! ## The loop over the queries -/

theorem loadKvLoop_append {key : Bytes} (hkey : key ≠ []) (heq : equals ∉ key) {rest value : Bytes}
    {utf8 : Bool} (hvalue : decodeValue signedChar 0 0 (upTo amp rest) = some (value, utf8))
    (fuel : ℕ) (list : List QueryItem) :
    loadKvLoop signedChar (fuel + 1) list (key ++ equals :: rest) =
      loadKvLoop signedChar fuel (⟨key, value, utf8⟩ :: list) (behind amp rest) := by
  have hstr : key ++ equals :: rest ≠ [] := by simp
  have hup := upTo_append heq rest
  have hbehind := behind_append heq rest
  have hmem : equals ∈ key ++ equals :: rest := by simp
  generalize key ++ equals :: rest = str at *
  cases str with
  | nil => exact absurd rfl hstr
  | cons c cs => simp [loadKvLoop, hup, hbehind, hkey, hmem, hvalue]

variable {list' : List QueryItem}

/-- A round of the loop, read backwards. -/
theorem loadKvLoop_eq_some {fuel : ℕ} {list : List QueryItem} {str : Bytes}
    (h : loadKvLoop signedChar fuel list str = some (some list')) :
    (str = [] ∧ list' = list) ∨
    ∃ fuel' key rest value utf8, fuel = fuel' + 1 ∧ str = key ++ equals :: rest ∧ key ≠ [] ∧
      equals ∉ key ∧ decodeValue signedChar 0 0 (upTo amp rest) = some (value, utf8) ∧
      loadKvLoop signedChar fuel' (⟨key, value, utf8⟩ :: list) (behind amp rest) =
        some (some list') := by
  cases str with
  | nil =>
      rw [loadKvLoop] at h
      cases h
      exact .inl ⟨rfl, rfl⟩
  | cons c cs =>
      cases fuel with
      | zero => cases h
      | succ fuel =>
          right
          rw [loadKvLoop] at h
          dsimp only at h
          split_ifs at h with hkey hmem
          · cases h
          split at h
          · cases h
          · next value utf8 hvalue =>
              exact ⟨fuel, _, _, value, utf8, rfl, upTo_behind hmem, hkey,
                not_mem_upTo equals _, hvalue, h⟩

/-- A value that is not marked stands in the text as it is. -/
theorem plain_of_decodeValue {c : ℕ} {t v : Bytes}
    (h : decodeValue signedChar c 0 t = some (v, false)) :
    v = t ∧ ∀ b ∈ t, b ≠ percent ∧ high signedChar b = false := by
  induction t generalizing v with
  | nil =>
      cases h
      simp
  | cons b t ih =>
      by_cases hb : b = percent
      · -- an escape marks the value
        simp [decodeValue, hb] at h
      · simp only [decodeValue, hb, if_false, ne_eq, not_true_eq_false, Option.map_eq_some_iff,
          Prod.mk.injEq, Bool.or_eq_false_iff] at h
        obtain ⟨⟨w, f⟩, hw, rfl, hf, hhigh⟩ := h
        simp only at hf
        subst hf
        obtain ⟨rfl, ht⟩ := ih hw
        exact ⟨rfl, forall_mem_cons.mpr ⟨⟨hb, hhigh⟩, ht⟩⟩

/-- A query as the loop finds it in a text whose bytes meet a condition. -/
structure Found (ok : UInt8 → Prop) (q : QueryItem) : Prop where
  key : q.key ≠ [] ∧ equals ∉ q.key
  keyBytes : ∀ b ∈ q.key, ok b
  plain : q.utf8 = false → ∀ b ∈ q.value,
    ok b ∧ b ≠ percent ∧ b ≠ amp ∧ high signedChar b = false

/-- The queries the loop finds. -/
theorem found_of_loadKvLoop {ok : UInt8 → Prop} {fuel : ℕ} {list : List QueryItem} {str : Bytes}
    (h : loadKvLoop signedChar fuel list str = some (some list')) (hok : ∀ b ∈ str, ok b)
    (hlist : ∀ q ∈ list, Found signedChar ok q) : ∀ q ∈ list', Found signedChar ok q := by
  induction fuel generalizing list str with
  | zero =>
      rcases loadKvLoop_eq_some signedChar h with ⟨-, rfl⟩ | ⟨fuel', _, _, _, _, hfuel, -⟩
      · exact hlist
      · omega
  | succ fuel ih =>
      rcases loadKvLoop_eq_some signedChar h with
        ⟨-, rfl⟩ | ⟨fuel', key, rest, value, utf8, hfuel, rfl, hkey, heq, hvalue, hrest⟩
      · exact hlist
      · cases hfuel
        simp only [forall_mem_append, forall_mem_cons] at hok
        obtain ⟨hokKey, -, hokRest⟩ := hok
        refine ih hrest (fun b hb => hokRest b (mem_of_mem_behind hb))
          (forall_mem_cons.mpr ⟨⟨⟨hkey, heq⟩, hokKey, ?_⟩, hlist⟩)
        intro hutf b hb
        simp only at hutf hb
        subst hutf
        obtain ⟨rfl, hplain⟩ := plain_of_decodeValue signedChar hvalue
        have hamp : b ≠ amp := fun h => not_mem_upTo amp rest (h ▸ hb)
        exact ⟨hokRest b (mem_of_mem_upTo hb), (hplain b hb).1, hamp, (hplain b hb).2⟩

end Values

/-! ## Queries that come back -/

/-- A query that does not clash with the syntax. -/
structure ItemOk (signedChar : Bool) (q : QueryItem) : Prop where
  key : equals ∉ q.key ∧ colon ∉ q.key
  /-- `tostring` writes the escapes of a value up to its first zero byte -/
  escaped : q.utf8 = true → zero ∉ q.value
  /-- and any other value as it is -/
  plain : q.utf8 = false → ∀ b ∈ q.value,
    b ≠ zero ∧ b ≠ percent ∧ b ≠ amp ∧ b ≠ colon ∧ high signedChar b = false

/-- A query as it comes back: an empty value is not marked. -/
def reparsed (q : QueryItem) : QueryItem := { q with utf8 := q.utf8 && decide (q.value ≠ []) }

theorem printValue_reparsed (q : QueryItem) : printValue (reparsed q) = printValue q := by
  unfold printValue reparsed
  by_cases hv : q.value = []
  · simp [hv, cstr]
  · simp [hv]

theorem printItem_reparsed (q : QueryItem) : printItem (reparsed q) = printItem q := by
  simp only [printItem, printValue_reparsed]
  rfl

theorem printQueries_map_reparsed (qs : List QueryItem) :
    printQueries (qs.map reparsed) = printQueries qs := by
  induction qs with
  | nil => rfl
  | cons q qs ih =>
      cases qs with
      | nil => simp [printQueries, printItem_reparsed]
      | cons q' qs => simpa [printQueries, printItem_reparsed] using ih

theorem mem_hexByte {b : UInt8} (h : c ∈ hexByte b) : c = percent ∨ ∃ n < 16, c = hexChar n := by
  have hb : b.toNat < 256 := b.toNat_lt
  simp only [hexByte, mem_cons, not_mem_nil, or_false] at h
  rcases h with rfl | rfl | rfl
  · exact .inl rfl
  · exact .inr ⟨_, by omega, rfl⟩
  · exact .inr ⟨_, by omega, rfl⟩

theorem hexChar_plain : ∀ n < 16, hexChar n ≠ amp ∧ hexChar n ≠ colon ∧ hexChar n ≠ zero := by decide

/-- Escapes clash with nothing. -/
theorem not_mem_flatMap_hexByte (v : Bytes) :
    amp ∉ v.flatMap hexByte ∧ colon ∉ v.flatMap hexByte ∧ zero ∉ v.flatMap hexByte := by
  have hplain : ∀ c ∈ v.flatMap hexByte, c ≠ amp ∧ c ≠ colon ∧ c ≠ zero := by
    intro c hc
    obtain ⟨b, -, hc⟩ := mem_flatMap.mp hc
    rcases mem_hexByte hc with rfl | ⟨n, hn, rfl⟩
    · decide
    · exact hexChar_plain n hn
  exact ⟨fun h => (hplain _ h).1 rfl, fun h => (hplain _ h).2.1 rfl, fun h => (hplain _ h).2.2 rfl⟩

section Items

variable {signedChar : Bool}

theorem ItemOk.printValue {q : QueryItem} (h : ItemOk signedChar q) :
    amp ∉ printValue q ∧ colon ∉ printValue q ∧ zero ∉ printValue q := by
  unfold Uri.printValue
  cases hu : q.utf8 with
  | true => exact not_mem_flatMap_hexByte _
  | false =>
      have hp := h.plain hu
      exact ⟨fun hb => (hp _ hb).2.2.1 rfl, fun hb => (hp _ hb).2.2.2.1 rfl, fun hb => (hp _ hb).1 rfl⟩

/-- The value of a query comes back. -/
theorem ItemOk.decodeValue {q : QueryItem} (h : ItemOk signedChar q) :
    decodeValue signedChar 0 0 (Uri.printValue q) = some (q.value, (reparsed q).utf8) := by
  unfold Uri.printValue reparsed
  cases hu : q.utf8 with
  | true =>
      rw [if_pos rfl, cstr, upTo_of_not_mem (h.escaped hu), decodeValue_flatMap_hexByte]
      simp
  | false =>
      have hp := h.plain hu
      have hhigh : q.value.any (high signedChar) = false := by
        rw [any_eq_false]
        intro b hb
        simpa using (hp b hb).2.2.2.2
      rw [if_neg (by simp), decodeValue_plain signedChar (fun hb => (hp _ hb).2.1 rfl), hhigh]
      rfl

/-- **The loop over printed queries** finds them, the last one first. -/
theorem loadKvLoop_printQueries {qs : List QueryItem} (hqs : ∀ q ∈ qs, ItemOk signedChar q)
    (hkeys : ∀ q ∈ qs, q.key ≠ []) {fuel : ℕ} (hfuel : qs.length ≤ fuel) (list : List QueryItem) :
    loadKvLoop signedChar fuel list (printQueries qs) =
      some (some ((qs.map reparsed).reverse ++ list)) := by
  induction qs generalizing fuel list with
  | nil => simp [printQueries, loadKvLoop]
  | cons q qs ih =>
      obtain ⟨hq, hqs'⟩ := forall_mem_cons.mp hqs
      obtain ⟨hkey, hkeys'⟩ := forall_mem_cons.mp hkeys
      obtain ⟨fuel, rfl⟩ := Nat.exists_eq_add_of_lt (show 0 < fuel by simp at hfuel; omega)
      have hfuel' : qs.length ≤ fuel := by simp at hfuel; omega
      rw [Nat.zero_add]
      cases qs with
      | nil =>
          have hvalue := hq.decodeValue
          rw [← upTo_of_not_mem hq.printValue.1] at hvalue
          simp only [printQueries, printItem]
          rw [loadKvLoop_append signedChar hkey hq.key.1 hvalue, behind_of_not_mem hq.printValue.1]
          simp [loadKvLoop, reparsed]
      | cons q' qs =>
          have hvalue := hq.decodeValue
          rw [← upTo_append hq.printValue.1 (printQueries (q' :: qs))] at hvalue
          simp only [printQueries, printItem, append_assoc, cons_append]
          rw [loadKvLoop_append signedChar hkey hq.key.1 hvalue, behind_append hq.printValue.1,
            ih hqs' hkeys' hfuel']
          simp [reparsed]

end Items

end V2I.Uri
