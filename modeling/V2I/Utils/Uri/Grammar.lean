import V2I.Utils.Uri.Inverse

/-!
# V2I.Utils.Uri.Grammar

Which texts the parser accepts, and which it should:
`scheme://[user:password@]fullpath[?k1=v1&k2=v2...]`.

The parser follows the grammar unless the password is empty, a `:` stands in the queries, or the
queries are not well formed: then it accepts, or it leaves the text.
-/

namespace V2I.Uri

open List Option

/-! ## values -/

/-- A value without its escapes. -/
def unescape : Bytes → Option Bytes
  | [] => some []
  | b :: bs =>
      if b = percent then
        match bs with
        | h :: l :: rest =>
            match hexDigit h, hexDigit l with
            | some x, some y => (unescape rest).map (UInt8.ofNat (x * 16 + y) :: ·)
            | _, _ => none
        | _ => none
      else (unescape bs).map (b :: ·)

theorem hexDigit_ne_percent {h : UInt8} {x : ℕ} (hx : hexDigit h = some x) : h ≠ percent := by
  rintro rfl
  have hnone : hexDigit percent = none := by decide
  cases hnone.symm.trans hx

/-- The decoder finds what a well-formed value stands for. -/
theorem decodeValue_of_unescape (signedChar : Bool) {v w : Bytes} (h : unescape v = some w) :
    ∃ utf8, decodeValue signedChar 0 0 v = some (w, utf8) := by
  fun_induction unescape v generalizing w with
  | case1 =>
      cases h
      exact ⟨false, rfl⟩
  | case2 h' l rest x y hx hy ih =>
      obtain ⟨w', hw', rfl⟩ := map_eq_some_iff.mp h
      obtain ⟨utf8, hrest⟩ := ih hw'
      refine ⟨true, ?_⟩
      simp [decodeValue, hexDigit_ne_percent hx, hexDigit_ne_percent hy, hx, hy, hrest]
  | case3 => cases h
  | case4 => cases h
  | case5 b bs hb ih =>
      obtain ⟨w', hw', rfl⟩ := map_eq_some_iff.mp h
      obtain ⟨utf8, hrest⟩ := ih hw'
      exact ⟨utf8 || high signedChar b, by simp [decodeValue, hb, hrest]⟩

/-- Escapes stand for what they were made of. -/
theorem unescape_flatMap_hexByte (v : Bytes) : unescape (v.flatMap hexByte) = some v := by
  induction v with
  | nil => rfl
  | cons b v ih =>
      have hb : b.toNat < 256 := b.toNat_lt
      have hbyte : UInt8.ofNat (b.toNat / 16 * 16 + b.toNat % 16) = b := by
        rw [show b.toNat / 16 * 16 + b.toNat % 16 = b.toNat by omega, UInt8.ofNat_toNat]
      simp only [flatMap_cons, hexByte, cons_append, nil_append, unescape, if_true,
        hexDigit_hexChar _ (show b.toNat / 16 < 16 by omega),
        hexDigit_hexChar _ (show b.toNat % 16 < 16 by omega), ih, map_some, hbyte]

/-! ## queries -/

/-- A key and a value as they stand in the text. -/
structure PairOk (p : Bytes × Bytes) : Prop where
  key : p.1 ≠ [] ∧ equals ∉ p.1
  value : amp ∉ p.2
  escapes : (unescape p.2).isSome

def pairText (p : Bytes × Bytes) : Bytes := p.1 ++ equals :: p.2

/-- `k1=v1&k2=v2...` -/
def pairsText : List (Bytes × Bytes) → Bytes
  | [] => []
  | [p] => pairText p
  | p :: p' :: ps => pairText p ++ amp :: pairsText (p' :: ps)

/-- What a pair stands for. -/
def decoded (p : Bytes × Bytes) : Bytes × Bytes := (p.1, (unescape p.2).getD [])

variable {signedChar : Bool} {Q : Qsort QueryItem}

theorem length_le_pairsText (ps : List (Bytes × Bytes)) : ps.length ≤ (pairsText ps).length := by
  induction ps with
  | nil => exact Nat.le_refl 0
  | cons p ps ih =>
      cases ps with
      | nil =>
          simp only [pairsText, pairText, length_append, length_cons, length_nil]
          omega
      | cons p' ps =>
          simp only [pairsText, length_append, length_cons] at ih ⊢
          omega

variable {ps : List (Bytes × Bytes)}

/-- **The loop over well-formed queries** finds them, the last one first. -/
theorem loadKvLoop_pairsText (hps : ∀ p ∈ ps, PairOk p) {fuel : ℕ} (hfuel : ps.length ≤ fuel)
    (list : List QueryItem) :
    ∃ items : List QueryItem,
      loadKvLoop signedChar fuel list (pairsText ps) = some (some (items.reverse ++ list)) ∧
      items.map QueryItem.pair = ps.map decoded := by
  induction ps generalizing fuel list with
  | nil => exact ⟨[], by simp [pairsText, loadKvLoop], rfl⟩
  | cons p ps ih =>
      obtain ⟨hp, hps'⟩ := forall_mem_cons.mp hps
      obtain ⟨fuel, rfl⟩ := Nat.exists_eq_add_of_lt (show 0 < fuel by simp at hfuel; omega)
      have hfuel' : ps.length ≤ fuel := by simp at hfuel; omega
      obtain ⟨w, hw⟩ := isSome_iff_exists.mp hp.escapes
      obtain ⟨utf8, hvalue⟩ := decodeValue_of_unescape signedChar hw
      have hdecoded : decoded p = (p.1, w) := by rw [decoded, hw, getD_some]
      rw [Nat.zero_add]
      cases ps with
      | nil =>
          rw [← upTo_of_not_mem hp.value] at hvalue
          refine ⟨[⟨p.1, w, utf8⟩], ?_, by simp [hdecoded, QueryItem.pair]⟩
          simp only [pairsText, pairText]
          rw [loadKvLoop_append signedChar hp.key.1 hp.key.2 hvalue, behind_of_not_mem hp.value]
          simp [loadKvLoop]
      | cons p' ps =>
          rw [← upTo_append hp.value (pairsText (p' :: ps))] at hvalue
          obtain ⟨items, hrun, hitems⟩ := ih hps' hfuel' (⟨p.1, w, utf8⟩ :: list)
          refine ⟨⟨p.1, w, utf8⟩ :: items, ?_, ?_⟩
          · simp only [pairsText, pairText, append_assoc, cons_append]
            rw [loadKvLoop_append signedChar hp.key.1 hp.key.2 hvalue, behind_append hp.value, hrun]
            simp
          · rw [map_cons, hitems, map_cons (a := p), hdecoded]
            rfl

/-- Well-formed queries are loaded decoded, in the order that the sort leaves. -/
theorem loadKvPairs_pairsText (hps : ∀ p ∈ ps, PairOk p) :
    ∃ qs, loadKvPairs signedChar Q (pairsText ps) = some qs ∧
      (qs.map QueryItem.pair).Perm (ps.map decoded) := by
  obtain ⟨items, hrun, hitems⟩ :=
    @loadKvLoop_pairsText signedChar _ hps _ (length_le_pairsText ps) []
  refine ⟨Q.sort queryCompare (items.reverse ++ []), by rw [loadKvPairs, hrun], ?_⟩
  rw [← hitems, append_nil]
  exact ((Q.perm _ _).trans (reverse_perm items)).map _

/-! ## the grammar -/

/-- The pairs of the queries behind the full path: there are none, or some behind `?`. -/
def QueriesOk (tail : Bytes) (ps : List (Bytes × Bytes)) : Prop :=
  (tail = [] ∧ ps = []) ∨ (tail = question :: pairsText ps ∧ ps ≠ [] ∧ ∀ p ∈ ps, PairOk p)

/-- A text of the grammar: parts that are acceptable, with a password that is not empty where there
is one, and queries that are well formed. -/
def InGrammar (s : Bytes) (ps : List (Bytes × Bytes)) : Prop :=
  ∃ u tail, PartsOk u ∧ cstr s = front u ++ tail ∧ (∀ user, u.userPasswd ≠ some (user, [])) ∧
    QueriesOk tail ps

/-- The parser follows the grammar: it stays in the text, accepts what the grammar says, and the
queries are the decoded pairs. -/
def Parses (signedChar : Bool) (Q : Qsort QueryItem) (s : Bytes) : Prop :=
  ∃ r, load signedChar Q s = some r ∧ (r.isSome ↔ ∃ ps, InGrammar s ps) ∧
    ∀ u ∈ r, ∃ ps, InGrammar s ps ∧ (u.queries.map QueryItem.pair).Perm (ps.map decoded)

/-- Where the parts are acceptable: the password is not empty and the queries are well formed and
without a `:`, or there is a `:` in the queries and the text is not of the grammar. -/
def Followed (s : Bytes) : Prop :=
  ∀ u tail, PartsOk u → cstr s = front u ++ tail → Tail tail →
    if colon ∈ tail then ¬ ((∀ user, u.userPasswd ≠ some (user, [])) ∧ ∃ ps, QueriesOk tail ps)
    else (∀ user, u.userPasswd ≠ some (user, [])) ∧ ∃ ps, QueriesOk tail ps

theorem QueriesOk.tail {tail : Bytes} (h : QueriesOk tail ps) : Tail tail := by
  obtain ⟨rfl, -⟩ | ⟨rfl, -⟩ := h
  · exact .inl rfl
  · exact .inr ⟨_, rfl⟩

/-- Of a text with acceptable parts, the rest decides. -/
theorem inGrammar_iff {s tail : Bytes} {u : UriImpl} (h : PartsOk u)
    (heq : cstr s = front u ++ tail) (htail : Tail tail) :
    InGrammar s ps ↔ (∀ user, u.userPasswd ≠ some (user, [])) ∧ QueriesOk tail ps := by
  constructor
  · rintro ⟨u', tail', h', heq', hpasswd, hqueries⟩
    obtain ⟨-, huser, -, rfl⟩ := front_unique h h' htail hqueries.tail (heq.symm.trans heq')
    exact ⟨by rwa [huser], hqueries⟩
  · rintro ⟨hpasswd, hqueries⟩
    exact ⟨u, tail, h, heq, hpasswd, hqueries⟩

/-- **The parser follows the grammar** exactly for these texts. -/
theorem parses_iff (signedChar : Bool) (Q : Qsort QueryItem) (s : Bytes) :
    Parses signedChar Q s ↔ Followed s := by
  by_cases hparts : ∃ u tail, PartsOk u ∧ cstr s = front u ++ tail ∧ Tail tail
  · obtain ⟨u, tail, h, heq, htail⟩ := hparts
    have hzero : zero ∉ tail := by
      have hnot : zero ∉ cstr s := not_mem_upTo zero s
      rw [heq, mem_append, not_or] at hnot
      exact hnot.2
    have hload := load_front signedChar Q h htail hzero
    rw [← heq, load_cstr] at hload
    have hgrammar : (∃ ps, InGrammar s ps) ↔
        (∀ user, u.userPasswd ≠ some (user, [])) ∧ ∃ ps, QueriesOk tail ps := by
      simp only [inGrammar_iff h heq htail, exists_and_left]
    have hfollowed : Followed s ↔ if colon ∈ tail then
        ¬ ((∀ user, u.userPasswd ≠ some (user, [])) ∧ ∃ ps, QueriesOk tail ps)
        else (∀ user, u.userPasswd ≠ some (user, [])) ∧ ∃ ps, QueriesOk tail ps := by
      constructor
      · exact fun hall => hall u tail h heq htail
      · intro hthis u' tail' h' heq' htail'
        obtain ⟨-, huser, -, rfl⟩ := front_unique h h' htail htail' (heq.symm.trans heq')
        rwa [← huser]
    rw [hfollowed]
    by_cases hcolon : colon ∈ tail
    · rw [if_pos hcolon] at hload ⊢
      constructor
      · rintro ⟨r, hr, hiff, -⟩ hgood
        cases hload.symm.trans hr
        cases hiff.mpr (hgrammar.mpr hgood)
      · intro hbad
        exact ⟨none, hload, ⟨nofun, fun hgood => absurd (hgrammar.mp hgood) hbad⟩, nofun⟩
    · rw [if_neg hcolon] at hload ⊢
      constructor
      · rintro ⟨r, hr, hiff, -⟩
        rw [hload] at hr
        obtain ⟨queries, -, rfl⟩ := map_eq_some_iff.mp hr
        exact hgrammar.mp (hiff.mp rfl)
      · rintro ⟨hpasswd, ps, hps⟩
        obtain ⟨qs, hqs, hperm⟩ : ∃ qs, loadKvPairs signedChar Q (tail.drop 1) = some qs ∧
            (qs.map QueryItem.pair).Perm (ps.map decoded) := by
          obtain ⟨rfl, rfl⟩ | ⟨rfl, -, hok⟩ := hps
          · exact ⟨Q.sort queryCompare [], rfl, (Q.perm _ _).map _⟩
          · exact loadKvPairs_pairsText hok
        rw [hqs, map_some] at hload
        have hin := (inGrammar_iff h heq htail).mpr ⟨hpasswd, hps⟩
        refine ⟨_, hload, ⟨fun _ => ⟨ps, hin⟩, fun _ => rfl⟩, fun v hv => ?_⟩
        cases hv
        exact ⟨ps, hin, hperm⟩
  · -- the parts are rejected
    have hnone : load signedChar Q s = some none := by
      obtain hnone | ⟨u, tail, h, heq, htail, -⟩ := load_cases signedChar Q s
      · exact hnone
      · exact absurd ⟨u, tail, h, heq, htail⟩ hparts
    refine iff_of_true ⟨none, hnone, ⟨nofun, ?_⟩, nofun⟩ ?_
    · rintro ⟨ps, u, tail, h, heq, -, hqueries⟩
      exact absurd ⟨u, tail, h, heq, hqueries.tail⟩ hparts
    · exact fun u tail h heq htail => absurd ⟨u, tail, h, heq, htail⟩ hparts

/-- The text `a://u:@h`, whose password is empty, is accepted; at the end of `a://h?k` the parser
leaves the text. -/
theorem not_parses :
    ¬ Parses true (Qsort.insertion QueryItem) [97, 58, 47, 47, 117, 58, 64, 104] ∧
      ¬ Parses true (Qsort.insertion QueryItem) [97, 58, 47, 47, 104, 63, 107] := by
  constructor
  · have hparts : PartsOk ⟨[97], some ([117], []), [104], -1, 0, none, []⟩ := by
      refine ⟨by decide, by decide, ?_, nofun, by decide, by decide, by decide, by decide,
        by decide⟩
      intro user passwd hup
      cases hup
      exact ⟨by decide, by decide, by decide, by decide, by decide⟩
    have hload : load true (Qsort.insertion QueryItem) [97, 58, 47, 47, 117, 58, 64, 104] =
      some (some ⟨[97], some ([117], []), [104], -1, 0, none, []⟩) := by decide +kernel
    rintro ⟨r, hr, hiff, -⟩
    cases hload.symm.trans hr
    obtain ⟨ps, u, tail, h, heq, hpasswd, hqueries⟩ := hiff.mp rfl
    obtain ⟨-, huser, -, -⟩ := front_unique hparts h (.inl rfl) hqueries.tail
      (Eq.trans (by decide) heq)
    exact hpasswd [117] huser.symm
  · have hload : load true (Qsort.insertion QueryItem) [97, 58, 47, 47, 104, 63, 107] = none := by
      decide +kernel
    rintro ⟨r, hr, -⟩
    cases hload.symm.trans hr

end V2I.Uri
