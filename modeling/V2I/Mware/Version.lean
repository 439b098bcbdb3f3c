import Mathlib.Algebra.BigOperators.Group.Finset.Basic
import Mathlib.Data.List.GetD
import Mathlib.Tactic.IntervalCases
import V2I.Lib.Lists

/-!
# V2I.Mware.Version

The version of a service: `parse_verson` (`servicemgr.cpp`) packs the components of a string
like `1.2.3` into the bytes of a word, the first one into the highest byte.

A string is the list of its characters before the terminating null. A shift by the width of the
word or more has no defined result, nor has a function that needs one: it is `none`.
-/

namespace V2I.Mware

open List UInt32

/-! ## The code -/

/-- `*c == '.' || (*c >= '0' && *c <= '9')` -/
def isVersionChar (c : Char) : Bool := c == '.' || ('0' ≤ c && c ≤ '9')

/-- `*p - '0'` -/
def digitOf (c : Char) : ℕ := c.toNat - '0'.toNat

/-- The number in the characters `p`, unless it exceeds 255. -/
def convert (n : UInt32) : List Char → Option UInt32
  | [] => some n
  | c :: p =>
      let n := n * 10 + (digitOf c).toUInt32
      if 255 < n then none else convert n p

/-- The loop over the components: `c` begins at one of them. -/
def parseComponents (c : List Char) (i result : UInt32) : Except ℤ (UInt32 × UInt32) :=
  let p := c.takeWhile (· != '.')
  if p.isEmpty then .error (-2)
  else
    match convert 0 p with
    | none => .error (-3)
    | some n =>
        let result := result <<< 8 ||| n
        match h : c.dropWhile (· != '.') with
        | [] => .ok (i + 1, result)
        | _ :: next => parseComponents next (i + 1) result
termination_by c.length
decreasing_by
  have hlen : (c.dropWhile (· != '.')).length ≤ c.length := (dropWhile_suffix _).length_le
  rw [h, length_cons] at hlen
  omega

/-- `a << s` -/
def shiftLeft (a s : UInt32) : Option UInt32 := if s < 32 then some (a <<< s) else none

/-- `parse_verson`. An empty string has no component for the loop to look at. -/
def parseVerson (verstr : List Char) : Option (Except ℤ UInt32) :=
  if !verstr.all isVersionChar then some (.error (-1))
  else
    match if verstr.isEmpty then .ok (0, 0) else parseComponents verstr 0 0 with
    | .error e => some (.error e)
    | .ok (i, result) =>
        if 4 < i then some (.error (-4)) else (shiftLeft result ((4 - i) * 8)).map .ok

/-! ## Versions -/

/-- The number that digits stand for. -/
def decimal (p : List Char) : ℕ := p.foldl (fun n c => n * 10 + digitOf c) 0

/-- A non-empty decimal number of value at most 255. -/
structure Numeral (p : List Char) : Prop where
  nonempty : p ≠ []
  digits : ∀ c ∈ p, '0' ≤ c ∧ c ≤ '9'
  le : decimal p ≤ 255

/-- The string is `n1.n2...nk` with at most four components. -/
structure IsVersion (s : List Char) (ns : List ℕ) : Prop where
  numerals : ∀ p ∈ s.splitOn '.', Numeral p
  length_le : (s.splitOn '.').length ≤ 4
  values : ns = (s.splitOn '.').map decimal

/-- The sum of `ni * 256^(4-i)`; a missing component counts as 0. -/
def versionValue (ns : List ℕ) : ℕ := ∑ i ∈ Finset.range 4, ns.getD i 0 * 256 ^ (3 - i)

/-- Component by component, the first one that differs is smaller. -/
def Before (ns ms : List ℕ) : Prop :=
  ∃ i, (∀ j < i, ns.getD j 0 = ms.getD j 0) ∧ ns.getD i 0 < ms.getD i 0

/-- `parse_verson` takes versions and nothing else, and the words it makes of them are ordered as
the versions are. -/
structure ParsesVersion (s : List Char) : Prop where
  defined : parseVerson s ≠ none
  succeeds : ∀ ver, parseVerson s = some (.ok ver) ↔
    ∃ ns, IsVersion s ns ∧ ver.toNat = versionValue ns
  compares : ∀ t ns ms v w, IsVersion s ns → IsVersion t ms → parseVerson s = some (.ok v) →
    parseVerson t = some (.ok w) → (v < w ↔ Before ns ms)

variable {c d : Char} {p s t rest : List Char} {ns ms : List ℕ}

/-! ## One component -/

theorem digitOf_le (h : '0' ≤ c ∧ c ≤ '9') : digitOf c ≤ 9 := by
  have hc : c.toNat ≤ '9'.toNat := h.2
  have hnine : '9'.toNat = 57 := rfl
  have hzero : '0'.toNat = 48 := rfl
  rw [digitOf]
  omega

/-- More digits do not make a number smaller. -/
theorem le_foldl_digits (n : ℕ) (p : List Char) :
    n ≤ p.foldl (fun n c => n * 10 + digitOf c) n := by
  induction p generalizing n with
  | nil => exact le_rfl
  | cons c p ih =>
      have hstep := ih (n * 10 + digitOf c)
      rw [foldl_cons]
      omega

theorem convert_of_le {n : UInt32} (hn : n.toNat ≤ 255) (hp : ∀ c ∈ p, '0' ≤ c ∧ c ≤ '9') :
    convert n p = if p.foldl (fun n c => n * 10 + digitOf c) n.toNat ≤ 255 then
      some (p.foldl (fun n c => n * 10 + digitOf c) n.toNat).toUInt32 else none := by
  induction p generalizing n with
  | nil => rw [foldl_nil, if_pos hn, convert]; simp
  | cons c p ih =>
      rw [forall_mem_cons] at hp
      have hdigit := digitOf_le hp.1
      have hnat : (n * 10 + (digitOf c).toUInt32).toNat = n.toNat * 10 + digitOf c := by
        simp
        omega
      rw [convert, foldl_cons, ← hnat]
      by_cases hle : (n * 10 + (digitOf c).toUInt32).toNat ≤ 255
      · rw [if_neg (by simpa [lt_iff_toNat_lt] using hle), ih hle hp.2]
      · have hfold := le_foldl_digits (n * 10 + (digitOf c).toUInt32).toNat p
        rw [if_pos (by simpa [lt_iff_toNat_lt] using hle), if_neg (by omega)]

theorem convert_zero (hp : ∀ c ∈ p, '0' ≤ c ∧ c ≤ '9') :
    convert 0 p = if decimal p ≤ 255 then some (decimal p).toUInt32 else none :=
  convert_of_le (by decide) hp

/-! ## The components of a string -/

theorem digits_takeWhile (hs : ∀ c ∈ s, isVersionChar c) :
    ∀ c ∈ s.takeWhile (· != '.'), '0' ≤ c ∧ c ≤ '9' := by
  intro c hc
  have hchar := hs c ((takeWhile_sublist _).subset hc)
  have hdot : c ≠ '.' := by simpa using mem_takeWhile_imp hc
  simpa [isVersionChar, hdot] using hchar

/-- What the shifts and the disjunctions make of the components. -/
def pack (result : UInt32) (ns : List ℕ) : UInt32 :=
  ns.foldl (fun result n => result <<< 8 ||| n.toUInt32) result

theorem pack_cons (result : UInt32) (n : ℕ) (ns : List ℕ) :
    pack result (n :: ns) = pack (result <<< 8 ||| n.toUInt32) ns := rfl

/-- A component that is converted is a numeral. -/
theorem numeral_of_convert {n : UInt32} (hp : ∀ c ∈ p, '0' ≤ c ∧ c ≤ '9') (hne : ¬ p.isEmpty)
    (hconv : convert 0 p = some n) : Numeral p ∧ n = (decimal p).toUInt32 := by
  rw [convert_zero hp] at hconv
  split at hconv
  · next hle =>
      exact ⟨⟨fun h => hne (isEmpty_iff.mpr h), hp, hle⟩, (Option.some_inj.mp hconv).symm⟩
  · cases hconv

/-- **The loop makes a word of numerals**, and says how many they are; anything else it
refuses. -/
theorem parseComponents_spec (i result : UInt32) (hs : ∀ c ∈ s, isVersionChar c) :
    (∀ p ∈ s.splitOn '.', Numeral p) ∧ parseComponents s i result =
      .ok (i + (s.splitOn '.').length.toUInt32, pack result ((s.splitOn '.').map decimal)) ∨
    (¬ ∀ p ∈ s.splitOn '.', Numeral p) ∧ ∃ e, parseComponents s i result = .error e := by
  have hmem := takeWhile_mem_splitOn '.' s
  have hdigits := digits_takeWhile hs
  fun_induction parseComponents s i result with
  | case1 s i result p hp =>
      exact .inr ⟨fun hnum => (hnum p hmem).nonempty (isEmpty_iff.mp hp), -2, rfl⟩
  | case2 s i result p hp hconv =>
      refine .inr ⟨fun hnum => ?_, -3, rfl⟩
      rw [convert_zero hdigits, if_pos (hnum p hmem).le] at hconv
      cases hconv
  | case3 s i result p hp n hconv result' hdrop =>
      obtain ⟨hp', hn⟩ := numeral_of_convert hdigits hp hconv
      rw [splitOn_of_dropWhile_nil hdrop]
      refine .inl ⟨forall_mem_singleton.mpr hp', ?_⟩
      rw [map_singleton, pack_cons]
      simp only [result', hn]
      rfl
  | case4 s i result p hp n hconv result' d rest hdrop ih =>
      obtain ⟨hp', hn⟩ := numeral_of_convert hdigits hp hconv
      have hrest : ∀ c ∈ rest, isVersionChar c := fun c hc =>
        hs c ((dropWhile_suffix _).subset (hdrop ▸ mem_cons_of_mem d hc))
      rw [splitOn_of_dropWhile_cons hdrop, forall_mem_cons]
      rcases ih hrest (takeWhile_mem_splitOn _ rest) (digits_takeWhile hrest) with
        ⟨hnum, hok⟩ | ⟨hnum, herr⟩
      · refine .inl ⟨⟨hp', hnum⟩, ?_⟩
        have hcount : (1 : UInt32) + (rest.splitOn '.').length.toUInt32 =
            ((rest.splitOn '.').length + 1).toUInt32 := by
          rw [UInt32.add_comm]
          exact (UInt32.ofNat_add _ 1).symm
        rw [hok, map_cons, pack_cons, length_cons, ← hcount, UInt32.add_assoc]
        simp only [result', hn]
      · exact .inr ⟨fun h => hnum h.2, herr⟩

/-! ## Versions -/

/-- Numerals have the characters of versions only. -/
theorem isVersionChar_of_numerals (hnum : ∀ p ∈ s.splitOn '.', Numeral p) :
    ∀ c ∈ s, isVersionChar c := by
  intro c hc
  have hjoin : ['.'].intercalate (s.splitOn '.') = s := intercalate_splitOn '.'
  rw [← hjoin] at hc
  obtain rfl | ⟨p, hp, hc⟩ := mem_intercalate hc
  · rfl
  · simp [isVersionChar, (hnum p hp).digits c hc]

theorem ne_nil_of_numerals (hnum : ∀ p ∈ s.splitOn '.', Numeral p) : s ≠ [] := by
  rintro rfl
  exact (hnum [] (by simp)).nonempty rfl

theorem parseVerson_of_numerals (hnum : ∀ p ∈ s.splitOn '.', Numeral p) : parseVerson s =
    if 4 < (s.splitOn '.').length.toUInt32 then some (.error (-4))
    else (shiftLeft (pack 0 ((s.splitOn '.').map decimal))
      ((4 - (s.splitOn '.').length.toUInt32) * 8)).map .ok := by
  have hs := isVersionChar_of_numerals hnum
  have hne := ne_nil_of_numerals hnum
  rcases parseComponents_spec 0 0 hs with ⟨-, hok⟩ | ⟨hnot, -⟩
  · rw [UInt32.zero_add] at hok
    simp [parseVerson, all_eq_true.mpr hs, hne, hok]
  · exact absurd hnum hnot

theorem parseVerson_of_not (hne : s ≠ []) (hnum : ¬ ∀ p ∈ s.splitOn '.', Numeral p) :
    ∃ e, parseVerson s = some (.error e) := by
  by_cases hs : ∀ c ∈ s, isVersionChar c
  · rcases parseComponents_spec 0 0 hs with ⟨hyes, -⟩ | ⟨-, e, herr⟩
    · exact absurd hyes hnum
    · exact ⟨e, by simp [parseVerson, all_eq_true.mpr hs, hne, herr]⟩
  · exact ⟨-1, by simp [parseVerson, hs]⟩

/-! ## Their values -/

/-- One more component in the lowest byte. -/
theorem toNat_shiftLeft_or {result : UInt32} {n : ℕ} (hresult : result.toNat < 256 ^ 3)
    (hn : n ≤ 255) : (result <<< 8 ||| n.toUInt32).toNat = result.toNat * 256 + n := by
  have hshift : (result <<< 8).toNat = result.toNat <<< 8 := by
    have height : (8 : UInt32).toNat = 8 := rfl
    rw [UInt32.toNat_shiftLeft, height, Nat.mod_eq_of_lt (by decide : 8 < 32), Nat.shiftLeft_eq]
    omega
  have hnat : n.toUInt32.toNat = n := UInt32.toNat_ofNat_of_lt (by omega : n < 2 ^ 32)
  rw [UInt32.toNat_or, hshift, hnat, ← Nat.shiftLeft_add_eq_or_of_lt (by omega), Nat.shiftLeft_eq]

theorem toNat_pack {result : UInt32} {j : ℕ} (hresult : result.toNat < 256 ^ j)
    (hj : j + ns.length ≤ 4) (hns : ∀ n ∈ ns, n ≤ 255) :
    (pack result ns).toNat = ns.foldl (fun v n => v * 256 + n) result.toNat ∧
      (pack result ns).toNat < 256 ^ (j + ns.length) := by
  induction ns generalizing result j with
  | nil => exact ⟨rfl, hresult⟩
  | cons n ns ih =>
      rw [forall_mem_cons] at hns
      rw [length_cons] at hj
      have hlt : result.toNat < 256 ^ 3 :=
        hresult.trans_le (Nat.pow_le_pow_right (by decide) (by omega))
      have hstep := toNat_shiftLeft_or hlt hns.1
      have hnext : (result <<< 8 ||| n.toUInt32).toNat < 256 ^ (j + 1) := by
        rw [hstep, pow_succ]
        omega
      obtain ⟨hval, hbound⟩ := ih hnext (by omega) hns.2
      rw [pack_cons, foldl_cons, ← hstep, length_cons]
      exact ⟨hval, by rwa [Nat.add_right_comm] at hbound⟩

theorem versionValue_eq (hlen : ns.length ≤ 4) :
    versionValue ns = ns.foldl (fun v n => v * 256 + n) 0 * 256 ^ (4 - ns.length) := by
  match ns with
  | [] | [_] | [_, _] | [_, _, _] | [_, _, _, _] =>
      simp only [versionValue, Finset.sum_range_succ, Finset.sum_range_zero, foldl_cons, foldl_nil,
        length_cons, length_nil, getD_cons_zero, getD_cons_succ, getD_nil]
      omega
  | _ :: _ :: _ :: _ :: _ :: _ =>
      simp only [length_cons] at hlen
      omega

/-- **The word of at most four components has their value.** -/
theorem shiftLeft_pack (hne : ns ≠ []) (hlen : ns.length ≤ 4) (hns : ∀ n ∈ ns, n ≤ 255) :
    ∃ w, shiftLeft (pack 0 ns) ((4 - ns.length.toUInt32) * 8) = some w ∧
      w.toNat = versionValue ns := by
  have hpos : 0 < ns.length := length_pos_iff.mpr hne
  have hshift : ((4 - ns.length.toUInt32) * 8).toNat = (4 - ns.length) * 8 := by
    generalize ns.length = k at hlen
    interval_cases k <;> rfl
  have hzero : (0 : UInt32).toNat < 256 ^ 0 := by decide
  obtain ⟨hval, hlt⟩ := toNat_pack hzero (by omega) hns
  rw [Nat.zero_add] at hlt
  refine ⟨_, if_pos ?_, ?_⟩
  · rw [lt_iff_toNat_lt, hshift]
    change _ < 32
    omega
  · have hpow : 2 ^ ((4 - ns.length) * 8) = 256 ^ (4 - ns.length) := by
      rw [Nat.mul_comm, pow_mul]
      rfl
    have hfits : (pack 0 ns).toNat * 256 ^ (4 - ns.length) < 2 ^ 32 :=
      calc (pack 0 ns).toNat * 256 ^ (4 - ns.length)
        _ < 256 ^ ns.length * 256 ^ (4 - ns.length) :=
            Nat.mul_lt_mul_of_pos_right hlt (by positivity)
        _ = 256 ^ 4 := by rw [← pow_add, Nat.add_sub_cancel' hlen]
    rw [UInt32.toNat_shiftLeft, hshift, Nat.mod_eq_of_lt (by omega : (4 - ns.length) * 8 < 32),
      Nat.shiftLeft_eq, hpow, Nat.mod_eq_of_lt hfits, versionValue_eq hlen, hval]
    rfl

theorem IsVersion.le (h : IsVersion s ns) : ∀ n ∈ ns, n ≤ 255 := by
  rw [h.values, forall_mem_map]
  exact fun p hp => (h.numerals p hp).le

theorem IsVersion.length (h : IsVersion s ns) : ns.length = (s.splitOn '.').length := by
  rw [h.values, length_map]

theorem IsVersion.getD_le (h : IsVersion s ns) (i : ℕ) : ns.getD i 0 ≤ 255 := by
  by_cases hi : i < ns.length
  · rw [getD_eq_getElem _ _ hi]
    exact h.le _ (getElem_mem hi)
  · rw [getD_eq_default _ _ (not_lt.mp hi)]
    omega

theorem IsVersion.getD_eq_zero (h : IsVersion s ns) {i : ℕ} (hi : 4 ≤ i) : ns.getD i 0 = 0 :=
  getD_eq_default _ _ (h.length ▸ h.length_le.trans hi)

/-- **Versions are ordered as their values are.** -/
theorem versionValue_lt_iff (h : IsVersion s ns) (h' : IsVersion t ms) :
    versionValue ns < versionValue ms ↔ Before ns ms := by
  have hns := h.getD_le
  have hms := h'.getD_le
  have hns0 := hns 0; have hns1 := hns 1; have hns2 := hns 2; have hns3 := hns 3
  have hms0 := hms 0; have hms1 := hms 1; have hms2 := hms 2; have hms3 := hms 3
  simp only [versionValue, Finset.sum_range_succ, Finset.sum_range_zero]
  constructor
  · intro hlt
    by_cases h0 : ns.getD 0 0 = ms.getD 0 0
    · by_cases h1 : ns.getD 1 0 = ms.getD 1 0
      · by_cases h2 : ns.getD 2 0 = ms.getD 2 0
        · exact ⟨3, fun j hj => by interval_cases j <;> assumption, by omega⟩
        · exact ⟨2, fun j hj => by interval_cases j <;> assumption, by omega⟩
      · exact ⟨1, fun j hj => by interval_cases j; assumption, by omega⟩
    · exact ⟨0, fun j hj => absurd hj (Nat.not_lt_zero j), by omega⟩
  · rintro ⟨i, hsame, hlt⟩
    have hi : i < 4 := by
      by_contra hi
      rw [h.getD_eq_zero (not_lt.mp hi), h'.getD_eq_zero (not_lt.mp hi)] at hlt
      exact absurd hlt (lt_irrefl 0)
    have h0 := hsame 0
    have h1 := hsame 1
    have h2 := hsame 2
    interval_cases i <;> omega

/-! ## What is parsed -/

/-- **A version is parsed to its value.** -/
theorem parseVerson_of_isVersion (h : IsVersion s ns) :
    ∃ w, parseVerson s = some (.ok w) ∧ w.toNat = versionValue ns := by
  have hne : ns ≠ [] := by
    rw [h.values, ne_eq, map_eq_nil_iff]
    exact splitOn_ne_nil _ _
  have hlen := h.length_le
  obtain ⟨w, hw, hval⟩ := shiftLeft_pack hne (h.length ▸ hlen) h.le
  refine ⟨w, ?_, hval⟩
  have hcount : ¬ 4 < (s.splitOn '.').length.toUInt32 := by
    have hsize : (s.splitOn '.').length < UInt32.size := hlen.trans_lt (by decide)
    have hnat : (s.splitOn '.').length.toUInt32.toNat = (s.splitOn '.').length :=
      UInt32.toNat_ofNat_of_lt hsize
    rw [lt_iff_toNat_lt, hnat]
    exact not_lt.mpr hlen
  rw [parseVerson_of_numerals h.numerals, if_neg hcount, ← h.values, ← h.length, hw]
  rfl

theorem ParsesVersion.of_succeeds (hdefined : parseVerson s ≠ none)
    (hsucceeds : ∀ ver, parseVerson s = some (.ok ver) → ∃ ns, IsVersion s ns) :
    ParsesVersion s where
  defined := hdefined
  succeeds ver := by
    constructor
    · intro hver
      obtain ⟨ns, hns⟩ := hsucceeds ver hver
      obtain ⟨w, hw, hval⟩ := parseVerson_of_isVersion hns
      rw [hver, Option.some_inj, Except.ok.injEq] at hw
      exact ⟨ns, hns, hw ▸ hval⟩
    · rintro ⟨ns, hns, hver⟩
      obtain ⟨w, hw, hval⟩ := parseVerson_of_isVersion hns
      rw [hw, UInt32.toNat_inj.mp (hval.trans hver.symm)]
  compares t ns ms v w hns hms hv hw := by
    obtain ⟨v', hv', hvalv⟩ := parseVerson_of_isVersion hns
    obtain ⟨w', hw', hvalw⟩ := parseVerson_of_isVersion hms
    rw [hv, Option.some_inj, Except.ok.injEq] at hv'
    rw [hw, Option.some_inj, Except.ok.injEq] at hw'
    rw [lt_iff_toNat_lt, hv', hw', hvalv, hvalw, versionValue_lt_iff hns hms]

/-- **When versions are parsed**: the string is not empty, and its numerals are not so many that
their count, in 32 bits, is 4 or less again. -/
theorem parsesVersion_iff (s : List Char) : ParsesVersion s ↔ s ≠ [] ∧
    ¬ ((∀ p ∈ s.splitOn '.', Numeral p) ∧ 2 ^ 32 ≤ (s.splitOn '.').length ∧
      (s.splitOn '.').length % 2 ^ 32 ≤ 4) := by
  have hcount : (s.splitOn '.').length.toUInt32.toNat = (s.splitOn '.').length % 2 ^ 32 :=
    toNat_ofNat'
  have hfour : (4 : UInt32).toNat = 4 := rfl
  constructor
  · intro hparses
    refine ⟨?_, ?_⟩
    · rintro rfl
      exact hparses.defined rfl
    · rintro ⟨hnum, hmany, hfew⟩
      have hparse := parseVerson_of_numerals hnum
      rw [if_neg (by rw [lt_iff_toNat_lt, hcount]; omega)] at hparse
      cases hshift : shiftLeft (pack 0 ((s.splitOn '.').map decimal))
          ((4 - (s.splitOn '.').length.toUInt32) * 8) with
      | none => exact hparses.defined (by rw [hparse, hshift]; rfl)
      | some w =>
          obtain ⟨ns, hns, -⟩ := (hparses.succeeds w).mp (by rw [hparse, hshift]; rfl)
          have hlen := hns.length_le
          omega
  · rintro ⟨hne, hcond⟩
    by_cases hnum : ∀ p ∈ s.splitOn '.', Numeral p
    · by_cases hlen : (s.splitOn '.').length ≤ 4
      · have hversion : IsVersion s ((s.splitOn '.').map decimal) := ⟨hnum, hlen, rfl⟩
        obtain ⟨w, hw, -⟩ := parseVerson_of_isVersion hversion
        exact .of_succeeds (by simp [hw]) fun _ _ => ⟨_, hversion⟩
      · have hparse := parseVerson_of_numerals hnum
        have hmany : ¬ (s.splitOn '.').length % 2 ^ 32 ≤ 4 := by
          intro hfew
          by_cases hbig : 2 ^ 32 ≤ (s.splitOn '.').length
          · exact hcond ⟨hnum, hbig, hfew⟩
          · omega
        rw [if_pos (by rw [lt_iff_toNat_lt, hcount]; omega)] at hparse
        exact .of_succeeds (by simp [hparse]) (by simp [hparse])
    · obtain ⟨e, herr⟩ := parseVerson_of_not hne hnum
      exact .of_succeeds (by simp [herr]) (by simp [herr])

/-- The empty string needs a shift by the whole word. -/
theorem not_parsesVersion_empty : ¬ ParsesVersion [] := fun h => h.defined rfl

end V2I.Mware
