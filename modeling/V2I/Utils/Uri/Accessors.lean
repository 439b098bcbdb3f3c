import Mathlib.Data.Nat.Digits.Defs
import V2I.Utils.Uri.RoundTrip

/-!
# V2I.Utils.Uri.Accessors

What `get_host`, `get_port` and `get_filename` say of the full path of a parsed uri.
-/

namespace V2I.Uri

/-- `get_port()` -/
def getPort (u : UriImpl) : ℤ := u.port

/-- `get_filename()` -/
def getFilename (u : UriImpl) : Option Bytes := u.filename.map u.fullpath.drop

/-! ## the port -/

/-- The number that digits stand for. -/
def decimal (digits : Bytes) : ℕ := Nat.ofDigits 10 (digits.reverse.map fun c => c.toNat - 48)

theorem decimal_cons (c : UInt8) (digits : Bytes) :
    decimal (c :: digits) = (c.toNat - 48) * 10 ^ digits.length + decimal digits := by
  rw [decimal, List.reverse_cons, List.map_append, Nat.ofDigits_append, List.length_map,
    List.length_reverse, List.map_singleton, Nat.ofDigits_singleton, Nat.mul_comm, Nat.add_comm]
  rfl

theorem readPort_eq_some {p q : ℕ} {digits : Bytes} (h : readPort p digits = some q) :
    digits.all isDigit = true ∧ q = p * 10 ^ digits.length + decimal digits := by
  induction digits generalizing p with
  | nil =>
      cases h
      exact ⟨rfl, by simp [decimal]⟩
  | cons c cs ih =>
      rw [readPort] at h
      dsimp only at h
      split_ifs at h with hdigit hmax
      obtain ⟨hall, hq⟩ := ih h
      have hc : isDigit c = true := by simpa using hdigit
      refine ⟨by rw [List.all_cons, hc, hall]; rfl, ?_⟩
      rw [hq, decimal_cons, List.length_cons, pow_succ]
      ring

variable {fullpath : Bytes}

/-- **The port** is the number behind the only colon. -/
theorem loadPort_eq_some {port : ℤ} {start : ℕ} (h : loadPort fullpath = some (port, start)) :
    (colon ∉ fullpath ∧ port = -1 ∧ start = 0) ∨
      (colon ∈ fullpath ∧ (upTo slash (behind colon fullpath)).all isDigit = true ∧
        port = decimal (upTo slash (behind colon fullpath)) ∧
        start = (upTo colon fullpath).length) := by
  unfold loadPort at h
  dsimp only at h
  split_ifs at h with hone hcolon hlong
  · obtain ⟨q, hq, heq⟩ := Option.map_eq_some_iff.mp h
    obtain ⟨n, hn, hcast⟩ := Option.bind_eq_some_iff.mp hq
    obtain ⟨hall, hval⟩ := readPort_eq_some hn
    cases hcast
    cases heq
    refine .inr ⟨hcolon, hall, ?_, rfl⟩
    rw [hval, Nat.zero_mul, Nat.zero_add]
  · cases h
    exact .inl ⟨hcolon, rfl, rfl⟩

/-! ## the file name -/

/-- What stands behind the last slash. -/
def lastPart (fullpath : Bytes) : Bytes := (upTo slash fullpath.reverse).reverse

theorem eq_append_lastPart (h : slash ∈ fullpath) :
    ∃ dir, fullpath = dir ++ slash :: lastPart fullpath := by
  have hcut := upTo_behind (List.mem_reverse.mpr h)
  refine ⟨(behind slash fullpath.reverse).reverse, ?_⟩
  have hrev := congrArg List.reverse hcut
  rw [List.reverse_reverse, List.reverse_append, List.reverse_cons, List.append_assoc] at hrev
  exact hrev

/-- **The file name** is what stands behind the last slash, and there is a directory in front of
it. -/
theorem loadFilename_eq_some {filename : Option ℕ} (h : loadFilename fullpath = some filename) :
    (filename = none ∧ (slash ∉ fullpath ∨ lastPart fullpath = [])) ∨
      (slash ∈ fullpath ∧ lastPart fullpath ≠ [] ∧
        ∃ dir, fullpath = dir ++ slash :: lastPart fullpath ∧ filename = some (dir.length + 1)) := by
  unfold loadFilename at h
  dsimp only at h
  split_ifs at h with hslash hroot hname
  · cases h
    refine .inl ⟨rfl, .inr ?_⟩
    rw [lastPart, hname]
    rfl
  · cases h
    obtain ⟨dir, hdir⟩ := eq_append_lastPart hslash
    have hlen := congrArg List.length hdir
    rw [List.length_append, List.length_cons, lastPart, List.length_reverse] at hlen
    refine .inr ⟨hslash, fun hnil => hname (List.reverse_eq_nil_iff.mp hnil), dir, hdir,
      congrArg some ?_⟩
    omega
  · cases h
    exact .inl ⟨rfl, .inl hslash⟩

/-! ## the three accessors -/

/-- The accessors take the full path apart. -/
structure Decomposed (u : UriImpl) : Prop where
  host : getHost u = some (upTo slash (upTo colon u.fullpath))
  hostNonempty : upTo slash (upTo colon u.fullpath) ≠ []
  port : colon ∈ u.fullpath → (upTo slash (behind colon u.fullpath)).all isDigit = true ∧
    getPort u = decimal (upTo slash (behind colon u.fullpath))
  noPort : colon ∉ u.fullpath → getPort u = -1
  filename : getFilename u =
    if slash ∈ u.fullpath ∧ lastPart u.fullpath ≠ [] then some (lastPart u.fullpath) else none

variable {u : UriImpl}

theorem getFilename_eq (h : PartsOk u) : getFilename u =
    if slash ∈ u.fullpath ∧ lastPart u.fullpath ≠ [] then some (lastPart u.fullpath) else none := by
  unfold getFilename
  obtain ⟨hnone, hno⟩ | ⟨hslash, hname, dir, hdir, hsome⟩ := loadFilename_eq_some h.filename
  · rw [hnone, if_neg fun hboth => hno.elim (fun hslash => hslash hboth.1) hboth.2]
    rfl
  · rw [hsome, if_pos ⟨hslash, hname⟩, Option.map_some]
    conv_lhs => rw [hdir]
    rw [List.append_cons, List.drop_left' (by simp)]

/-- The host as it is computed. -/
theorem getHost_eq (h : PartsOk u) : getHost u =
    if colon ∈ u.fullpath then
      if upTo colon u.fullpath = [] then none else some (upTo colon u.fullpath)
    else some (u.fullpath.take (u.filename.getD u.fullpath.length)) := by
  unfold getHost
  obtain ⟨hcolon, hport, -⟩ | ⟨hcolon, -, hport, hstart⟩ := loadPort_eq_some h.port
  · rw [hport, if_neg (by decide), if_neg hcolon]
    cases u.filename with
    | none => rw [Option.getD_none, List.take_length]
    | some i => rfl
  · have htake : u.fullpath.take (upTo colon u.fullpath).length = upTo colon u.fullpath := by
      have hcut : (upTo colon u.fullpath ++ colon :: behind colon u.fullpath).take
        (upTo colon u.fullpath).length = upTo colon u.fullpath := List.take_left
      rwa [← upTo_behind hcolon] at hcut
    rw [hport, hstart, if_pos (Nat.cast_nonneg _), if_pos hcolon, htake]
    simp only [List.length_eq_zero_iff]

/-- The port as it is computed. -/
theorem getPort_eq (h : PartsOk u) :
    (colon ∈ u.fullpath → (upTo slash (behind colon u.fullpath)).all isDigit = true ∧
        getPort u = decimal (upTo slash (behind colon u.fullpath))) ∧
      (colon ∉ u.fullpath → getPort u = -1) := by
  obtain ⟨hcolon, hport, -⟩ | ⟨hcolon, hall, hport, -⟩ := loadPort_eq_some h.port
  · exact ⟨fun hmem => absurd hmem hcolon, fun _ => hport⟩
  · exact ⟨fun _ => ⟨hall, hport⟩, fun hno => absurd hcolon hno⟩

theorem upTo_eq_self_iff {c : UInt8} {l : Bytes} : l = upTo c l ↔ c ∉ l := by
  constructor
  · intro h
    rw [h]
    exact not_mem_upTo c l
  · exact fun h => (upTo_of_not_mem h).symm

/-- **The accessors are right** exactly where there is a host, and no slash, in front of the colon:
without a colon, no slash at all. -/
theorem decomposed_iff (signedChar : Bool) (Q : Qsort QueryItem) {s : Bytes} {u : UriImpl}
    (hload : load signedChar Q s = some (some u)) :
    Decomposed u ↔ upTo colon u.fullpath ≠ [] ∧ slash ∉ upTo colon u.fullpath := by
  obtain ⟨h, -⟩ := load_eq_some signedChar Q hload
  obtain ⟨hport, hnoPort⟩ := getPort_eq h
  have hhost := getHost_eq h
  constructor
  · intro hdec
    have hget := hdec.host
    rw [hhost] at hget
    by_cases hcolon : colon ∈ u.fullpath
    · rw [if_pos hcolon] at hget
      split_ifs at hget with hnil
      exact ⟨hnil, upTo_eq_self_iff.mp (Option.some.inj hget)⟩
    · rw [if_neg hcolon, upTo_of_not_mem hcolon] at hget
      have hne := hdec.hostNonempty
      rw [upTo_of_not_mem hcolon] at hne ⊢
      refine ⟨fun hnil => hne (by rw [hnil]; rfl), ?_⟩
      obtain ⟨hnone, -⟩ | ⟨-, -, dir, hdir, hsome⟩ := loadFilename_eq_some h.filename
      · rw [hnone, Option.getD_none, List.take_length] at hget
        exact upTo_eq_self_iff.mp (Option.some.inj hget)
      · -- the directory of the file name ends with a slash
        rw [hsome, Option.getD_some] at hget
        have htake : u.fullpath.take (dir.length + 1) = dir ++ [slash] := by
          conv_lhs => rw [hdir, List.append_cons]
          exact List.take_left' (by simp)
        rw [htake] at hget
        have hno := not_mem_upTo slash u.fullpath
        rw [← Option.some.inj hget] at hno
        exact absurd (by simp) hno
  · rintro ⟨hne, hslash⟩
    refine ⟨?_, by rwa [upTo_of_not_mem hslash], hport, hnoPort, getFilename_eq h⟩
    rw [hhost, upTo_of_not_mem hslash]
    by_cases hcolon : colon ∈ u.fullpath
    · rw [if_pos hcolon, if_neg hne]
    · rw [if_neg hcolon]
      rw [upTo_of_not_mem hcolon] at hslash ⊢
      obtain ⟨hnone, -⟩ | ⟨hmem, -⟩ := loadFilename_eq_some h.filename
      · rw [hnone, Option.getD_none, List.take_length]
      · exact absurd hmem hslash

/-- The uri of `a://h:80/f` -/
def portUri : UriImpl where
  scheme := [97]
  userPasswd := none
  fullpath := [104, 58, 56, 48, 47, 102]
  port := 80
  portStartColon := 1
  filename := some 5
  queries := []

theorem decomposed_iff_port :
    load true (Qsort.insertion QueryItem) [97, 58, 47, 47, 104, 58, 56, 48, 47, 102] =
        some (some portUri) ∧
      (Decomposed portUri ↔
        upTo colon portUri.fullpath ≠ [] ∧ slash ∉ upTo colon portUri.fullpath) := by
  have hload : load true (Qsort.insertion QueryItem) [97, 58, 47, 47, 104, 58, 56, 48, 47, 102] =
    some (some portUri) := by decide +kernel
  exact ⟨hload, decomposed_iff true _ hload⟩

/-- The uri of `a://h/f`, whose host is said to be `h/`, and that of `a://:1`, for which the
assertion fails. -/
theorem not_decomposed :
    (∃ u, load true (Qsort.insertion QueryItem) [97, 58, 47, 47, 104, 47, 102] = some (some u) ∧
      getHost u = some [104, 47] ∧ ¬ Decomposed u) ∧
    (∃ u, load true (Qsort.insertion QueryItem) [97, 58, 47, 47, 58, 49] = some (some u) ∧
      getHost u = none ∧ ¬ Decomposed u) := by
  refine ⟨⟨⟨[97], none, [104, 47, 102], -1, 0, some 2, []⟩, by decide +kernel, by decide, ?_⟩,
    ⟨⟨[97], none, [58, 49], 1, 0, none, []⟩, by decide +kernel, by decide, ?_⟩⟩
  · exact fun h => absurd h.host (by decide)
  · exact fun h => absurd h.host (by decide)

end V2I.Uri

/-!
## Setting a full path

`uri_impl::set_fullpath`, on a copy of a uri, against parsing the text with the new path.

* `Pointed` — a uri whose file name is a pointer: it may point anywhere;
* `load_replaced` — the text with another full path is parsed to the parts with that path, unless
  the path would be cut at a `?`, or at a `@` where there are no names;
* `sameParts_iff` — the two uris are the same when the path is not cut and has a file name.
-/

namespace V2I.Uri

/-- `uri_impl` with its pointer `_filename`, as the distance from the characters of `_fullpath`.
Nothing keeps it in there. -/
structure Pointed where
  scheme : Bytes
  userPasswd : Option (Bytes × Bytes)
  fullpath : Bytes
  port : ℤ
  portStartColon : ℕ
  filename : Option ℤ
  queries : List QueryItem
  deriving DecidableEq

/-- A parsed uri. -/
def UriImpl.pointed (u : UriImpl) : Pointed where
  scheme := u.scheme
  userPasswd := u.userPasswd
  fullpath := u.fullpath
  port := u.port
  portStartColon := u.portStartColon
  filename := u.filename.map Nat.cast
  queries := u.queries

namespace Pointed

/-- The copy constructor: `_port_start_colon` is not copied, and `_filename` still points into the
string of the original. -/
def copy (i : Pointed) (portStartColon : ℕ) (distance : ℤ) : Pointed :=
  { i with portStartColon := portStartColon, filename := i.filename.map (· + distance) }

/-- `get_filename()`, none when it points out of the full path. -/
def getFilename (i : Pointed) : Option (Option Bytes) :=
  match i.filename with
  | none => some none
  | some d =>
      if 0 ≤ d ∧ d ≤ i.fullpath.length then some (some (i.fullpath.drop d.toNat)) else none

/-- `get_host()`, none when its assertion fails. The distance to the file name is converted to a
`size_t`, so a negative one is more than the full path has. -/
def getHost (i : Pointed) : Option Bytes :=
  if 0 ≤ i.port then
    if i.portStartColon = 0 then none else some (i.fullpath.take i.portStartColon)
  else
    match i.filename with
    | some d => some (if 0 ≤ d then i.fullpath.take d.toNat else i.fullpath)
    | none => some i.fullpath

/-- `uri_impl::set_fullpath(newpath)`, none when it fails. The characters of the local string
`fullpath` are at the address `buf`; where the path has no file name, `_filename` is made from the
difference of a null pointer and this address. -/
def setFullpath (buf : ℕ+) (i : Pointed) (newpath : Bytes) : Option Pointed :=
  let fullpath := cstr newpath
  match loadPort fullpath with
  | none => none
  | some (port, portStartColon) =>
      if !checkFullpathValidty fullpath fullpath port then none
      else
        match loadFilename fullpath with
        | none => none
        | some filename =>
            some { i with
              fullpath := fullpath
              filename := some (filename.elim (-(buf : ℤ)) Nat.cast)
              port := port
              portStartColon := portStartColon }

/-- Two uris are the same in every component. -/
structure SameParts (i j : Pointed) : Prop where
  scheme : i.scheme = j.scheme
  userPasswd : i.userPasswd = j.userPasswd
  fullpath : i.fullpath = j.fullpath
  host : i.getHost = j.getHost
  port : i.port = j.port
  filename : i.getFilename = j.getFilename
  queries : i.queries = j.queries

/-- What stands in front of the full path. -/
def names (i : Pointed) : Bytes := i.scheme ++ [colon, slash, slash] ++ printUser i.userPasswd

/-- A text of the uri with its full path replaced. -/
def replaceFullpath (i : Pointed) (s newpath : Bytes) : Bytes :=
  i.names ++ cstr newpath ++ (cstr s).drop (i.names ++ i.fullpath).length

/-- The path is one that `set_fullpath` takes. -/
def Acceptable (path : Bytes) : Prop :=
  ∃ port start filename, loadPort path = some (port, start) ∧
    checkFullpathValidty path path port = true ∧ loadFilename path = some filename

/-- The path is not cut where it stands in the text, and it has a file name. -/
structure Replaceable (i : Pointed) (path : Bytes) : Prop where
  question : question ∉ path
  atSign : i.userPasswd = none → atSign ∉ path
  filename : ∃ n, loadFilename path = some (some n)

end Pointed

open Uri.Pointed

/-! ## the parsed uri -/

theorem loadFilename_le {path : Bytes} {n : ℕ} (h : loadFilename path = some (some n)) :
    n ≤ path.length := by
  obtain ⟨hnone, -⟩ | ⟨-, -, dir, hdir, hsome⟩ := loadFilename_eq_some h
  · cases hnone
  · cases hsome
    have hlen := congrArg List.length hdir
    rw [List.length_append, List.length_cons] at hlen
    omega

/-- Where there is a file name, it lies in the full path. -/
theorem getFilename_of_eq {i : Pointed} {n : ℕ} (h : i.filename = some (n : ℤ))
    (hle : n ≤ i.fullpath.length) : i.getFilename = some (some (i.fullpath.drop n)) := by
  have hle' : (n : ℤ) ≤ i.fullpath.length := by exact_mod_cast hle
  simp only [Pointed.getFilename, h, Int.natCast_nonneg, hle', and_self, if_true, Int.toNat_natCast]

/-- A parsed uri has its file name in its full path, or none. -/
theorem getFilename_pointed {u : UriImpl} (h : PartsOk u) : u.pointed.getFilename ≠ none := by
  cases hname : u.filename with
  | none => simp [Pointed.getFilename, UriImpl.pointed, hname]
  | some n =>
      have hle := loadFilename_le (hname ▸ h.filename)
      have heq : u.pointed.filename = some (n : ℤ) := by
        rw [UriImpl.pointed, hname, Option.map_some]
      rw [getFilename_of_eq heq hle]
      exact nofun

/-! ## texts -/

section

variable (signedChar : Bool) (Q : Qsort QueryItem)

/-- A text of a uri: it is parsed to the same parts and queries. Where the file name points does
not matter. -/
def TextOf (s : Bytes) (i : Pointed) : Prop :=
  ∃ u, load signedChar Q s = some (some u) ∧ u.scheme = i.scheme ∧
    u.userPasswd = i.userPasswd ∧ u.fullpath = i.fullpath ∧ u.queries = i.queries

variable {i : Pointed} {s : Bytes}

/-- A text and what a replaced path stands in. -/
theorem exists_tail (h : TextOf signedChar Q s i) :
    ∃ u tail, PartsOk u ∧ u.scheme = i.scheme ∧ u.userPasswd = i.userPasswd ∧ Tail tail ∧
      zero ∉ tail ∧ colon ∉ tail ∧ loadKvPairs signedChar Q (tail.drop 1) = some i.queries ∧
      ∀ newpath, i.replaceFullpath s newpath = i.names ++ cstr newpath ++ tail := by
  obtain ⟨u, hload, hscheme, huser, hpath, hqueries⟩ := h
  obtain ⟨hparts, tail, heq, htail, hzero, hcolon, hkv⟩ :=
    (load_eq_some_iff signedChar Q).mp hload
  refine ⟨u, tail, hparts, hscheme, huser, htail, hzero, hcolon, hqueries ▸ hkv, fun newpath => ?_⟩
  have hfront : i.names ++ i.fullpath = front u := by
    rw [names, front, hscheme, huser, hpath]
  rw [replaceFullpath, hfront, heq, List.drop_left]

variable {signedChar Q}

/-- **The replaced text** is parsed to the parts with the new path, when the path is not cut. -/
theorem load_replaced {newpath : Bytes} (h : TextOf signedChar Q s i) {port : ℤ} {start : ℕ}
    {filename : Option ℕ} (hport : loadPort (cstr newpath) = some (port, start))
    (hvalid : checkFullpathValidty (cstr newpath) (cstr newpath) port = true)
    (hfile : loadFilename (cstr newpath) = some filename) (hquestion : question ∉ cstr newpath)
    (hat : i.userPasswd = none → atSign ∉ cstr newpath) :
    load signedChar Q (i.replaceFullpath s newpath) =
      some (some ⟨i.scheme, i.userPasswd, cstr newpath, port, start, filename, i.queries⟩) := by
  obtain ⟨u, tail, hparts, hscheme, huser, htail, hzero, hcolon, hkv, htext⟩ :=
    exists_tail signedChar Q h
  have hnew : PartsOk ⟨i.scheme, i.userPasswd, cstr newpath, port, start, filename, i.queries⟩ :=
    ⟨hscheme ▸ hparts.scheme, hscheme ▸ hparts.schemeZero, huser ▸ hparts.user, hat, hquestion,
      not_mem_upTo zero newpath, hport, hvalid, hfile⟩
  refine (load_eq_some_iff signedChar Q).mpr ⟨hnew, tail, ?_, htail, hzero, hcolon, hkv⟩
  have hnot := zero_not_mem_front hnew
  rw [htext, front, ← names] at *
  exact upTo_of_not_mem (by simp only [List.mem_append, not_or] at hnot ⊢; exact ⟨hnot, hzero⟩)

/-- **Setting the full path** gives what parsing the replaced text gives exactly for a path that is
not cut and has a file name. -/
theorem sameParts_iff {buf : ℕ+} {newpath : Bytes} {i' : Pointed} {portStartColon : ℕ}
    {distance : ℤ} (h : TextOf signedChar Q s i)
    (hset : (i.copy portStartColon distance).setFullpath buf newpath = some i') :
    (∃ v, load signedChar Q (i.replaceFullpath s newpath) = some (some v) ∧
      SameParts i' v.pointed) ↔ Replaceable i (cstr newpath) := by
  unfold setFullpath copy at hset
  dsimp only at hset
  split at hset
  · cases hset
  · next port start hport =>
      split_ifs at hset with hvalid
      split at hset
      · cases hset
      · next filename hfile =>
          cases hset
          replace hvalid : checkFullpathValidty (cstr newpath) (cstr newpath) port = true := by
            simpa using hvalid
          constructor
          · rintro ⟨v, hload, hsame⟩
            obtain ⟨hparts, -⟩ := (load_eq_some_iff signedChar Q).mp hload
            have hpath : v.fullpath = cstr newpath := hsame.fullpath.symm
            have huser : v.userPasswd = i.userPasswd := hsame.userPasswd.symm
            refine ⟨hpath ▸ hparts.question, fun hnone => hpath ▸ hparts.noUser (huser.trans hnone),
              ?_⟩
            cases filename with
            | some n => exact ⟨n, hfile⟩
            | none =>
                -- the pointer is not one into the path
                refine absurd (hsame.filename.symm.trans ?_) (getFilename_pointed hparts)
                have hneg : ¬ (0 : ℤ) ≤ -(buf : ℕ) := by
                  have := buf.pos
                  omega
                simp only [Pointed.getFilename, Option.elim_none, hneg, false_and, if_false]
          · rintro ⟨hquestion, hat, n, hname⟩
            cases hfile.symm.trans hname
            refine ⟨_, load_replaced h hport hvalid hfile hquestion hat, rfl, rfl, rfl, ?_, rfl, ?_,
              rfl⟩
            · rfl
            · rfl

end

/-- The path is taken, or it is not acceptable. -/
theorem setFullpath_isSome_iff {buf : ℕ+} {i : Pointed} {newpath : Bytes} :
    (i.setFullpath buf newpath).isSome ↔ Acceptable (cstr newpath) := by
  unfold setFullpath Acceptable
  dsimp only
  split
  · next hport => simp [hport]
  · next port start hport =>
      cases hvalid : checkFullpathValidty (cstr newpath) (cstr newpath) port with
      | false => simp [hport, hvalid]
      | true => cases hfile : loadFilename (cstr newpath) <;> simp [hport, hvalid]

end V2I.Uri
