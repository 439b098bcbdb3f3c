import V2I.Utils.Uri.Grammar

/-!
# V2I.Utils.Uri.Digest

The text that `digest` hashes, and which uris it tells apart.

The queries follow each other without a separator, so that only the first key can be read off it.
-/

namespace V2I.Uri

open List

/-- The queries as `digest` puts them: each `key=value`, with nothing between. -/
def concatenated (qs : List QueryItem) : Bytes := qs.flatMap fun q => q.key ++ equals :: q.value

/-- What `digest` hashes. -/
def input (u : UriImpl) : Bytes :=
  front u ++ if u.queries = [] then [] else question :: concatenated u.queries

/-- `digest(d)` -/
def digest {δ : Type*} (sha256 : Bytes → δ) (u : UriImpl) : δ := sha256 (input u)

/-- The same scheme, names, full path and queries. -/
structure SameUri (u v : UriImpl) : Prop where
  scheme : u.scheme = v.scheme
  userPasswd : u.userPasswd = v.userPasswd
  fullpath : u.fullpath = v.fullpath
  queries : u.queries.map QueryItem.pair = v.queries.map QueryItem.pair

/-- What may stand as a key in a text. -/
def KeyOk (key : Bytes) : Prop := key ≠ [] ∧ ∀ b ∈ key, b ≠ equals ∧ b ≠ colon ∧ b ≠ zero

/-- There is no query; or there is one, and no key that can be read in its value, in front of a
`=`, would stand behind its own in the order of the keys. -/
def Unambiguous (qs : List QueryItem) : Prop :=
  qs = [] ∨ ∃ q, qs = [q] ∧ ∀ value key rest, q.value = value ++ (key ++ equals :: rest) →
    KeyOk key → ¬ (compare q.key key).isLE

/-- No other accepted uri has the digest, whatever order a sort leaves equal keys in. -/
def Identifies {δ : Type*} (signedChar : Bool) (sha256 : Bytes → δ) (u : UriImpl) : Prop :=
  ∀ (Q : Qsort QueryItem) (s : Bytes) (v : UriImpl), load signedChar Q s = some (some v) →
    digest sha256 v = digest sha256 u → SameUri v u

/-! ## what the text says -/

theorem tail_input (u : UriImpl) :
    Tail (if u.queries = [] then [] else question :: concatenated u.queries) := by
  split_ifs
  · exact .inl rfl
  · exact .inr ⟨_, rfl⟩

variable {qs : List QueryItem}

theorem concatenated_eq_nil_iff : concatenated qs = [] ↔ qs = [] := by
  cases qs with
  | nil => exact iff_of_true rfl rfl
  | cons q qs => simp [concatenated]

/-- **The parts** in front of the queries can be read off the text, and so can the text of the
queries. -/
theorem input_parts {u v : UriImpl} (hu : PartsOk u) (hv : PartsOk v) (h : input u = input v) :
    u.scheme = v.scheme ∧ u.userPasswd = v.userPasswd ∧ u.fullpath = v.fullpath ∧
      concatenated u.queries = concatenated v.queries := by
  obtain ⟨hscheme, huser, hpath, htail⟩ := front_unique hu hv (tail_input u) (tail_input v) h
  refine ⟨hscheme, huser, hpath, ?_⟩
  split_ifs at htail with hun hvn hvn
  · rw [hun, hvn]
  · exact (List.cons.inj htail).2

/-- The text of queries with the same pairs is the same. -/
theorem concatenated_congr {qs' : List QueryItem}
    (h : qs.map QueryItem.pair = qs'.map QueryItem.pair) : concatenated qs = concatenated qs' := by
  have hpair : ∀ qs : List QueryItem,
      concatenated qs = (qs.map QueryItem.pair).flatMap fun p => p.1 ++ equals :: p.2 := by
    intro qs
    rw [flatMap_map]
    rfl
  rw [hpair, hpair, h]

/-- **The first key** can be read off the text. -/
theorem concatenated_cons {q q' : QueryItem} {qs' : List QueryItem} (hq : equals ∉ q.key)
    (hq' : equals ∉ q'.key) (h : concatenated (q :: qs) = concatenated (q' :: qs')) :
    q.key = q'.key ∧ q.value ++ concatenated qs = q'.value ++ concatenated qs' := by
  have hsplit : ∀ (q : QueryItem) (qs : List QueryItem),
      concatenated (q :: qs) = q.key ++ equals :: (q.value ++ concatenated qs) := by
    intro q qs
    rw [concatenated, flatMap_cons, append_assoc, cons_append]
    rfl
  rw [hsplit, hsplit] at h
  have hkey := congrArg (upTo equals) h
  have hrest := congrArg (behind equals) h
  rw [upTo_append hq, upTo_append hq'] at hkey
  rw [behind_append hq, behind_append hq'] at hrest
  exact ⟨hkey, hrest⟩

section

variable {signedChar : Bool} {Q : Qsort QueryItem} {u : UriImpl} {s : Bytes}

/-- The keys of a parsed uri can stand in a text. -/
theorem keyOk_of_load (h : load signedChar Q s = some (some u)) : ∀ q ∈ u.queries, KeyOk q.key := by
  obtain ⟨-, tail, -, -, hzero, hcolon, hkv⟩ := (load_eq_some_iff signedChar Q).mp h
  unfold loadKvPairs at hkv
  split at hkv
  · cases hkv
  · have hnil : u.queries = [] := (Option.some.inj hkv).symm
    rw [hnil]
    exact nofun
  · next list hloop =>
      have hok : ∀ b ∈ tail.drop 1, InText b := fun b hb =>
        ⟨fun heq => hzero (mem_of_mem_drop (heq ▸ hb)),
          fun heq => hcolon (mem_of_mem_drop (heq ▸ hb))⟩
      have hfound := found_of_loadKvLoop signedChar hloop hok nofun
      intro q hq
      rw [← Option.some.inj hkv] at hq
      have hthis := hfound q ((Q.perm queryCompare list).mem_iff.mp hq)
      exact ⟨hthis.key.1, fun b hb => ⟨fun heq => hthis.key.2 (heq ▸ hb),
        (hthis.keyBytes b hb).2, (hthis.keyBytes b hb).1⟩⟩

/-- A uri that is not ambiguous is the only one with its text. -/
theorem sameUri_of_input {s' : Bytes} {v : UriImpl} {Q' : Qsort QueryItem}
    (hu : load signedChar Q s = some (some u)) (hv : load signedChar Q' s' = some (some v))
    (hok : Unambiguous u.queries) (h : input v = input u) : SameUri v u := by
  obtain ⟨hparts, -⟩ := (load_eq_some_iff signedChar Q).mp hu
  obtain ⟨hparts', -⟩ := (load_eq_some_iff signedChar Q').mp hv
  obtain ⟨hscheme, huser, hpath, hqueries⟩ := input_parts hparts' hparts h
  have hkeys := keyOk_of_load hu
  have hkeys' := keyOk_of_load hv
  have hsorted := (wellFormed_of_load signedChar hv).sorted
  refine ⟨hscheme, huser, hpath, ?_⟩
  obtain hnil | ⟨q, hq, hvalues⟩ := hok
  · rw [hnil] at hqueries ⊢
    rw [concatenated_eq_nil_iff.mp hqueries]
  · rw [hq] at hqueries hkeys ⊢
    cases hvs : v.queries with
    | nil =>
        rw [hvs] at hqueries
        exact absurd (concatenated_eq_nil_iff.mp hqueries.symm) (cons_ne_nil _ _)
    | cons r rs =>
        rw [hvs] at hqueries hkeys' hsorted
        have hne : ∀ {key : Bytes}, KeyOk key → equals ∉ key := fun hkey hb => (hkey.2 _ hb).1 rfl
        obtain ⟨hkey, hvalue⟩ := concatenated_cons (hne (hkeys' r mem_cons_self))
          (hne (hkeys q mem_cons_self)) hqueries
        rw [show concatenated [] = [] from rfl, append_nil] at hvalue
        cases rs with
        | nil =>
            rw [show concatenated [] = [] from rfl, append_nil] at hvalue
            simp only [map_cons, map_nil, QueryItem.pair, hkey, hvalue]
        | cons r' rs =>
            -- the second key would stand in the value of the only query
            have hsecond := hkeys' r' (by simp)
            have hle := (pairwise_cons.mp hsorted).1 r'.key (by simp)
            refine absurd ?_ (hvalues r.value r'.key (r'.value ++ concatenated rs) ?_ hsecond)
            · rwa [← hkey]
            · rw [← hvalue, concatenated, flatMap_cons, append_assoc, cons_append]
              rfl

/-! ## another uri with the same text -/

/-- A value as escapes, so that it may hold any bytes. -/
def escapedPair (p : Bytes × Bytes) : Bytes × Bytes := (p.1, p.2.flatMap hexByte)

theorem pairOk_escapedPair {p : Bytes × Bytes} (h : KeyOk p.1) : PairOk (escapedPair p) where
  key := ⟨h.1, fun hb => (h.2 _ hb).1 rfl⟩
  value := (not_mem_flatMap_hexByte p.2).1
  escapes := by rw [escapedPair, unescape_flatMap_hexByte, Option.isSome_some]

theorem map_decoded_escapedPair (ps : List (Bytes × Bytes)) :
    (ps.map escapedPair).map decoded = ps := by
  rw [map_map]
  refine (map_congr_left fun p _ => ?_).trans (map_id ps)
  simp [decoded, escapedPair, unescape_flatMap_hexByte]

theorem forall_mem_pairsText {ok : UInt8 → Prop} (heq : ok equals) (hamp : ok amp)
    {ps : List (Bytes × Bytes)} (hkey : ∀ p ∈ ps, ∀ b ∈ p.1, ok b)
    (hvalue : ∀ p ∈ ps, ∀ b ∈ p.2, ok b) : ∀ b ∈ pairsText ps, ok b := by
  induction ps with
  | nil => exact nofun
  | cons p ps ih =>
      simp only [forall_mem_cons] at hkey hvalue
      have hrest := ih hkey.2 hvalue.2
      have hpair : ∀ b ∈ pairText p, ok b := by
        simp only [pairText, forall_mem_append, forall_mem_cons]
        exact ⟨hkey.1, heq, hvalue.1⟩
      cases ps with
      | nil => exact hpair
      | cons p' ps =>
          simp only [pairsText, forall_mem_append, forall_mem_cons]
          exact ⟨hpair, hamp, hrest⟩

/-- **Any pairs** can be the queries of a uri with given parts, in the order in which the sort
leaves them. -/
theorem load_escaped (hu : PartsOk u) {ps : List (Bytes × Bytes)} (h : ∀ p ∈ ps, KeyOk p.1) :
    ∃ items : List QueryItem, items.map QueryItem.pair = ps ∧
      load signedChar Q (front u ++ question :: pairsText (ps.map escapedPair)) =
        some (some { u with queries := Q.sort queryCompare items.reverse }) := by
  have hps : ∀ p ∈ ps.map escapedPair, PairOk p :=
    forall_mem_map.mpr fun p hp => pairOk_escapedPair (h p hp)
  obtain ⟨items, hrun, hitems⟩ :=
    @loadKvLoop_pairsText signedChar _ hps _ (length_le_pairsText _) []
  have hplain : ∀ b ∈ question :: pairsText (ps.map escapedPair), InText b := by
    refine forall_mem_cons.mpr ⟨⟨by decide, by decide⟩, ?_⟩
    refine forall_mem_pairsText ⟨by decide, by decide⟩ ⟨by decide, by decide⟩ ?_ ?_
    · exact forall_mem_map.mpr fun p hp b hb =>
        ⟨((h p hp).2 b hb).2.2, ((h p hp).2 b hb).2.1⟩
    · refine forall_mem_map.mpr fun p hp b hb => ?_
      obtain ⟨-, hcolon, hzero⟩ := not_mem_flatMap_hexByte p.2
      exact ⟨fun heq => hzero (heq ▸ hb), fun heq => hcolon (heq ▸ hb)⟩
  refine ⟨items, hitems.trans (map_decoded_escapedPair ps), ?_⟩
  rw [load_front signedChar Q hu (.inr ⟨_, rfl⟩) (fun hb => (hplain _ hb).1 rfl),
    if_neg (fun hb => (hplain _ hb).2 rfl), drop_one, tail_cons, loadKvPairs, hrun,
    append_nil]
  rfl

/-- A text has other queries behind the parts of the uri, which the digest puts in the same way. -/
def HasOther (signedChar : Bool) (u : UriImpl) : Prop :=
  ∃ (Q : Qsort QueryItem) (s : Bytes) (qs : List QueryItem),
    load signedChar Q s = some (some { u with queries := qs }) ∧ qs ≠ [] ∧
      concatenated qs = concatenated u.queries ∧
      qs.map QueryItem.pair ≠ u.queries.map QueryItem.pair

/-- Pairs in the order of their keys, with the text of the queries. -/
theorem hasOther_of_pairs (hparts : PartsOk u) {ps : List (Bytes × Bytes)} (hne : ps ≠ [])
    (hkeys : ∀ p ∈ ps, KeyOk p.1)
    (horder : (ps.map Prod.fst).Pairwise fun a b => (compare a b).isLE)
    (htext : concatenated (ps.map fun p => ⟨p.1, p.2, false⟩) = concatenated u.queries)
    (hpairs : ps ≠ u.queries.map QueryItem.pair) : HasOther signedChar u := by
  have hreverse : ∀ p ∈ ps.reverse, KeyOk p.1 := fun p hp => hkeys p (mem_reverse.mp hp)
  obtain ⟨items, hitems, hload⟩ :=
    @load_escaped signedChar (Qsort.insertion QueryItem) _ hparts _ hreverse
  have hread : items.reverse.map QueryItem.pair = ps := by
    rw [map_reverse, hitems, reverse_reverse]
  have hsorted : (Qsort.insertion QueryItem).sort queryCompare items.reverse =
      items.reverse := by
    refine List.Pairwise.insertionSort_eq ?_
    have hkeys := congrArg (List.map Prod.fst) hread
    rw [map_map] at hkeys
    rw [← hkeys] at horder
    exact pairwise_map.mp horder
  rw [hsorted] at hload
  refine ⟨_, _, _, hload, ?_, ?_, ?_⟩
  · intro hnil
    rw [hnil] at hread
    exact hne hread.symm
  · rw [← htext]
    refine concatenated_congr (hread.trans ?_)
    rw [map_map]
    exact (map_id ps).symm
  · rwa [hread]

/-- One query with the text of several in its value. -/
theorem hasOther_of_two_le (hparts : PartsOk u) {q q' : QueryItem} (hqs : u.queries = q :: q' :: qs)
    (hkey : KeyOk q.key) : HasOther signedChar u := by
  refine @hasOther_of_pairs signedChar u hparts [(q.key, q.value ++ concatenated (q' :: qs))]
    (cons_ne_nil _ _) (by simpa using hkey) (pairwise_singleton _ _) ?_ ?_
  · simp only [hqs, concatenated, map_cons, map_nil, flatMap_cons,
      flatMap_nil, append_nil, append_assoc, cons_append]
  · rw [hqs]
    exact fun heq => absurd (congrArg List.length heq) (by simp)

/-- Two queries for one whose value holds the second. -/
theorem hasOther_of_value (hparts : PartsOk u) {q : QueryItem} (hqs : u.queries = [q])
    (hkey : KeyOk q.key) {value key rest : Bytes}
    (hvalue : q.value = value ++ (key ++ equals :: rest)) (hkey' : KeyOk key)
    (hle : (compare q.key key).isLE) : HasOther signedChar u := by
  refine @hasOther_of_pairs signedChar u hparts [(q.key, value), (key, rest)]
    (cons_ne_nil _ _) (by simpa using ⟨hkey, hkey'⟩) (by simpa using hle) ?_ ?_
  · simp only [hqs, concatenated, map_cons, map_nil, flatMap_cons,
      flatMap_nil, append_nil, append_assoc, cons_append, hvalue]
  · rw [hqs]
    exact fun heq => absurd (congrArg List.length heq) (by simp)

/-- An ambiguous uri has another one with the same text. -/
theorem exists_same_input (hu : load signedChar Q s = some (some u))
    (hambiguous : ¬ Unambiguous u.queries) : ∃ (Q' : Qsort QueryItem) (s' : Bytes) (v : UriImpl),
      load signedChar Q' s' = some (some v) ∧ input v = input u ∧ ¬ SameUri v u := by
  obtain ⟨hparts, -⟩ := (load_eq_some_iff signedChar Q).mp hu
  have hkeys := keyOk_of_load hu
  have hne : u.queries ≠ [] := fun hnil => hambiguous (.inl hnil)
  have hother : HasOther signedChar u := by
    cases hqs : u.queries with
    | nil => exact absurd hqs hne
    | cons q qs =>
        have hkey := hkeys q (hqs ▸ mem_cons_self)
        cases qs with
        | cons q' qs => exact hasOther_of_two_le hparts hqs hkey
        | nil =>
            rw [hqs] at hambiguous
            obtain ⟨value, key, rest, hvalue, hkey', hle⟩ : ∃ value key rest,
                q.value = value ++ (key ++ equals :: rest) ∧ KeyOk key ∧
                  (compare q.key key).isLE := by
              by_contra hno
              simp only [not_exists, not_and] at hno
              exact hambiguous (.inr ⟨q, rfl, fun value key rest hvalue hkey' =>
                hno value key rest hvalue hkey'⟩)
            exact hasOther_of_value hparts hqs hkey hvalue hkey' hle
  obtain ⟨Q', s', qs, hload, hqs, htext, hpairs⟩ := hother
  refine ⟨Q', s', _, hload, ?_, fun hsame => hpairs hsame.queries⟩
  simp only [input, if_neg hqs, if_neg hne, htext]
  rfl

/-- **The digest identifies a uri** exactly when its queries are not ambiguous, for a hash function
of which no two texts have the same value. -/
theorem identifies_iff {δ : Type*} (sha256 : Bytes → δ) (hsha256 : Function.Injective sha256)
    {s : Bytes} {u : UriImpl} (hu : load signedChar Q s = some (some u)) :
    Identifies signedChar sha256 u ↔ Unambiguous u.queries := by
  constructor
  · intro h
    by_contra hambiguous
    obtain ⟨Q', s', v, hv, hinput, hother⟩ := exists_same_input hu hambiguous
    exact hother (h Q' s' v hv (congrArg sha256 hinput))
  · exact fun hok Q' s' v hv heq => sameUri_of_input hu hv hok (hsha256 heq)

/-- No other uri has the digest of `a://h?k=1`. The digests of a fixed length are finitely many, so no
function like the real one tells all texts apart; the text itself does. -/
theorem identifies_iff_one :
    load true (Qsort.insertion QueryItem) [97, 58, 47, 47, 104, 63, 107, 61, 49] =
        some (some ⟨[97], none, [104], -1, 0, none, [⟨[107], [49], false⟩]⟩) ∧
      Identifies true id ⟨[97], none, [104], -1, 0, none, [⟨[107], [49], false⟩]⟩ := by
  have hu : load true (Qsort.insertion QueryItem) [97, 58, 47, 47, 104, 63, 107, 61, 49] =
      some (some ⟨[97], none, [104], -1, 0, none, [⟨[107], [49], false⟩]⟩) := by decide +kernel
  refine ⟨hu, (identifies_iff id Function.injective_id hu).mpr (.inr ⟨_, rfl, ?_⟩)⟩
  -- a value of one byte has no room for a key and a `=`
  intro value key rest hvalue hkey
  have hlen := congrArg List.length hvalue
  have hpos := length_pos_iff.mpr hkey.1
  simp only [length_append, length_cons, length_nil] at hlen
  omega

/-- The uris `a://h?k=1&m=2` and `a://h?k=1m%3d2` have the same digest, whatever the hash
function. -/
theorem not_identifies : ∃ u v : UriImpl,
    load true (Qsort.insertion QueryItem)
      [97, 58, 47, 47, 104, 63, 107, 61, 49, 38, 109, 61, 50] = some (some u) ∧
    load true (Qsort.insertion QueryItem)
      [97, 58, 47, 47, 104, 63, 107, 61, 49, 109, 37, 51, 100, 50] = some (some v) ∧
    (∀ sha256 : Bytes → Bytes, digest sha256 u = digest sha256 v) ∧ ¬ SameUri u v := by
  refine ⟨⟨[97], none, [104], -1, 0, none, [⟨[107], [49], false⟩, ⟨[109], [50], false⟩]⟩,
    ⟨[97], none, [104], -1, 0, none, [⟨[107], [49, 109, 61, 50], true⟩]⟩, by decide +kernel,
    by decide +kernel, fun sha256 => congrArg sha256 (by decide), fun hsame => ?_⟩
  exact absurd hsame.queries (by decide)

end

end V2I.Uri
