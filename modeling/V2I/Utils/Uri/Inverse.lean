import V2I.Utils.Uri.RoundTrip

/-!
# V2I.Utils.Uri.Inverse

When printing and parsing are inverse on a uri.

A uri object comes from `load`, `add_query` and `change_query` (`Obtained`). Its text is
parsed to the same uri (`RoundTrips`), whatever `qsort` does with equal keys, exactly when
no query clashes with the syntax and repeated keys have one value (`Printable`).
-/

namespace V2I.Uri

open List

/-- The key and the value of a query. -/
def QueryItem.pair (q : QueryItem) : Bytes × Bytes := (q.key, q.value)

section Char

variable (signedChar : Bool)

/-- Parsing the text of a uri yields the same uri and, printed again, the same text. -/
def RoundTrips (Q : Qsort QueryItem) (u : UriImpl) : Prop :=
  ∃ v, load signedChar Q (tostring u) = some (some v) ∧
    v.scheme = u.scheme ∧ v.fullpath = u.fullpath ∧ getHost v = getHost u ∧ v.port = u.port ∧
    v.filename = u.filename ∧ v.queries.map QueryItem.pair = u.queries.map QueryItem.pair ∧
    tostring v = tostring u

/-- No query of the uri clashes with the syntax, and repeated keys have one value. -/
structure Printable (u : UriImpl) : Prop where
  item : ∀ q ∈ u.queries, ItemOk signedChar q
  repeated : ∀ q ∈ u.queries, ∀ q' ∈ u.queries, q.key = q'.key →
    q.value = q'.value ∧ (q.value = [] ∨ q.utf8 = q'.utf8)

/-! ## Uri objects -/

/-- The invariant of a uri object. -/
structure WellFormed (u : UriImpl) : Prop where
  parts : PartsOk u
  keys : ∀ key ∈ u.queries.map QueryItem.key, key ≠ [] ∧ zero ∉ key
  sorted : (u.queries.map QueryItem.key).Pairwise fun a b => (compare a b).isLE

instance : Std.TransCmp queryCompare := inferInstanceAs (Std.TransCmp (compareOn QueryItem.key))

/-- The keys of sorted queries are in order. -/
theorem sorted_keys (Q : Qsort QueryItem) (list : List QueryItem) :
    ((Q.sort queryCompare list).map QueryItem.key).Pairwise fun a b => (compare a b).isLE :=
  pairwise_map.mpr (Q.sorted queryCompare inferInstance list)

theorem keys_setValue {key value : Bytes} {qs qs' : List QueryItem}
    (h : setValue key value qs = some qs') : qs'.map QueryItem.key = qs.map QueryItem.key := by
  induction qs generalizing qs' with
  | nil => cases h
  | cons q qs ih =>
      rw [setValue] at h
      split_ifs at h with hkey
      · cases h
        rfl
      · obtain ⟨r, hr, rfl⟩ := Option.map_eq_some_iff.mp h
        simp [ih hr]

variable {Q : Qsort QueryItem} {u : UriImpl}

theorem wellFormed_of_load {s : Bytes} (h : load signedChar Q s = some (some u)) :
    WellFormed u := by
  obtain ⟨hparts, str, hz, hkv⟩ := load_eq_some signedChar Q h
  unfold loadKvPairs at hkv
  split at hkv
  · cases hkv
  · have hqs : u.queries = [] := (Option.some.inj hkv).symm
    exact ⟨hparts, by simp [hqs], by simp [hqs]⟩
  · next list hloop =>
      have hqs : u.queries = Q.sort queryCompare list := (Option.some.inj hkv).symm
      have hok : ∀ b ∈ str, b ≠ zero := fun b hb heq => hz (heq ▸ hb)
      have hfound := found_of_loadKvLoop signedChar hloop hok (by simp)
      refine ⟨hparts, ?_, by rw [hqs]; exact sorted_keys Q list⟩
      simp only [hqs, forall_mem_map]
      intro q hq
      have hq' := hfound q ((Q.perm queryCompare list).mem_iff.mp hq)
      exact ⟨hq'.key.1, fun hb => hq'.keyBytes _ hb rfl⟩

theorem wellFormed_of_addQuery {u' : UriImpl} {key value : Bytes} (hu : WellFormed u)
    (h : addQuery signedChar Q u key value = some u') : WellFormed u' := by
  unfold addQuery at h
  extract_lets ckey cvalue at h
  split_ifs at h with hempty
  split at h
  · cases h
  · next tmp utf8 hvalue =>
      cases h
      refine ⟨hu.parts.setQueries _, ?_, sorted_keys Q _⟩
      have hkeys := hu.keys
      simp only [forall_mem_map] at hkeys ⊢
      intro q hq
      rw [(Q.perm _ _).mem_iff, mem_append, mem_singleton] at hq
      rcases hq with hq | rfl
      · exact hkeys q hq
      · exact ⟨fun hkey => hempty (.inl hkey), not_mem_upTo zero key⟩

/-- **Every uri object** is well formed. -/
theorem wellFormed_of_obtained (h : Obtained signedChar Q u) : WellFormed u := by
  induction h with
  | load h => exact wellFormed_of_load signedChar h
  | addQuery _ h ih => exact wellFormed_of_addQuery signedChar ih h
  | changeQuery _ h ih =>
      obtain ⟨qs, hqs, rfl⟩ := Option.map_eq_some_iff.mp h
      have hkeys := keys_setValue hqs
      exact ⟨ih.parts.setQueries _, by simpa only [hkeys] using ih.keys,
        by simpa only [hkeys] using ih.sorted⟩

/-! ## The text of the queries -/

/-- What `tostring` writes behind a query. -/
def printMore : List QueryItem → Bytes
  | [] => []
  | qs => amp :: printQueries qs

theorem printQueries_cons (q : QueryItem) (qs : List QueryItem) :
    printQueries (q :: qs) = q.key ++ equals :: (printValue q ++ printMore qs) := by
  cases qs with
  | nil => simp [printQueries, printItem, printMore]
  | cons q' qs => simp [printQueries, printItem, printMore]

theorem forall_mem_printQueries {ok : UInt8 → Prop} (heq : ok equals) (hamp : ok amp)
    {qs : List QueryItem} (hkey : ∀ q ∈ qs, ∀ b ∈ q.key, ok b)
    (hvalue : ∀ q ∈ qs, ∀ b ∈ printValue q, ok b) : ∀ b ∈ printQueries qs, ok b := by
  induction qs with
  | nil => simp [printQueries]
  | cons q qs ih =>
      simp only [forall_mem_cons] at hkey hvalue
      have hmore : ∀ b ∈ printMore qs, ok b := by
        cases qs with
        | nil => simp [printMore]
        | cons q' qs => simpa [printMore, hamp] using ih hkey.2 hvalue.2
      simp only [printQueries_cons, forall_mem_append, forall_mem_cons]
      exact ⟨hkey.1, heq, hvalue.1, hmore⟩

theorem length_le_printQueries (qs : List QueryItem) : qs.length ≤ (printQueries qs).length := by
  induction qs with
  | nil => simp [printQueries]
  | cons q qs ih =>
      have hmore : qs.length ≤ (printMore qs).length := by
        cases qs with
        | nil => simp
        | cons q' qs => simp only [printMore, length_cons] at ih ⊢; omega
      simp only [printQueries_cons, length_append, length_cons]
      omega

/-- The queries come back from their own text. -/
def Returns (Q : Qsort QueryItem) (qs : List QueryItem) : Prop :=
  colon ∉ cstr (printQueries qs) ∧ ∃ vs, loadKvPairs signedChar Q (cstr (printQueries qs)) = some vs ∧
    vs.map QueryItem.pair = qs.map QueryItem.pair ∧ printQueries vs = printQueries qs

/-- Only the queries may fail to come back. -/
theorem roundTrips_iff (h : PartsOk u) :
    RoundTrips signedChar Q u ↔ Returns signedChar Q u.queries := by
  unfold RoundTrips Returns
  rw [load_tostring signedChar Q h]
  have hprint : ∀ vs, vs.map QueryItem.pair = u.queries.map QueryItem.pair →
      (tostring { u with queries := vs } = tostring u ↔ printQueries vs = printQueries u.queries) := by
    intro vs hpairs
    have hlen : vs.length = u.queries.length := by simpa using congrArg List.length hpairs
    have hempty : vs = [] ↔ u.queries = [] := by
      rw [← length_eq_zero_iff, hlen, length_eq_zero_iff]
    by_cases hqs : u.queries = []
    · simp [tostring, hqs, hempty.mpr hqs]
    · simp [tostring, hqs, mt hempty.mp hqs]
  split_ifs with hcolon
  · simp [hcolon]
  · constructor
    · rintro ⟨v, hv, -, -, -, -, -, hpairs, htext⟩
      obtain ⟨vs, hvs, heq⟩ := Option.map_eq_some_iff.mp hv
      cases heq
      exact ⟨hcolon, vs, hvs, hpairs, (hprint vs hpairs).mp htext⟩
    · rintro ⟨-, vs, hvs, hpairs, htext⟩
      exact ⟨{ u with queries := vs }, by simp [hvs], rfl, rfl, rfl, rfl, rfl, hpairs,
        (hprint vs hpairs).mpr htext⟩

/-! ## Printable queries come back -/

theorem reparsed_eq_iff {q q' : QueryItem} (hkey : q.key = q'.key) :
    reparsed q = reparsed q' ↔ q.value = q'.value ∧ (q.value = [] ∨ q.utf8 = q'.utf8) := by
  obtain ⟨key, value, utf8⟩ := q
  obtain ⟨key', value', utf8'⟩ := q'
  simp only [reparsed, QueryItem.mk.injEq, show key = key' from hkey, true_and]
  constructor
  · rintro ⟨rfl, hflag⟩
    by_cases hv : value = []
    · simp [hv]
    · simpa [hv] using hflag
  · rintro ⟨rfl, hv | rfl⟩
    · simp [hv]
    · simp

section Forward

variable {signedChar} {qs : List QueryItem} (Q : Qsort QueryItem)

/-- What `load_kv_pairs` makes of the text of queries that do not clash with the syntax. -/
theorem loadKvPairs_printQueries (hitem : ∀ q ∈ qs, ItemOk signedChar q)
    (hkey : ∀ q ∈ qs, q.key ≠ []) :
    loadKvPairs signedChar Q (printQueries qs) =
      some (Q.sort queryCompare (qs.map reparsed).reverse) := by
  rw [loadKvPairs, loadKvLoop_printQueries hitem hkey (length_le_printQueries qs), append_nil]

theorem plain_printQueries (hitem : ∀ q ∈ qs, ItemOk signedChar q) (hzero : ∀ q ∈ qs, zero ∉ q.key)
    : zero ∉ printQueries qs ∧ colon ∉ printQueries qs := by
  have hok : ∀ b ∈ printQueries qs, b ≠ zero ∧ b ≠ colon := by
    refine forall_mem_printQueries (by decide) (by decide) (fun q hq b hb => ⟨?_, ?_⟩)
      (fun q hq b hb => ⟨?_, ?_⟩)
    · exact fun h => hzero q hq (h ▸ hb)
    · exact fun h => (hitem q hq).key.2 (h ▸ hb)
    · exact fun h => (hitem q hq).printValue.2.2 (h ▸ hb)
    · exact fun h => (hitem q hq).printValue.2.1 (h ▸ hb)
  exact ⟨fun h => (hok _ h).1 rfl, fun h => (hok _ h).2 rfl⟩

/-- Equal keys have equal queries, so there is only one way to sort them. -/
theorem sort_reparsed (hsorted : (qs.map QueryItem.key).Pairwise fun a b => (compare a b).isLE)
    (hrep : ∀ q ∈ qs, ∀ q' ∈ qs, q.key = q'.key → reparsed q = reparsed q') :
    Q.sort queryCompare (qs.map reparsed).reverse = qs.map reparsed := by
  have hperm : (Q.sort queryCompare (qs.map reparsed).reverse).Perm (qs.map reparsed) :=
    (Q.perm _ _).trans (reverse_perm _)
  refine List.Perm.eq_of_pairwise ?_ (Q.sorted queryCompare inferInstance _)
    (pairwise_map.mpr (pairwise_map.mp hsorted)) hperm
  intro a b ha hb hab hba
  obtain ⟨q, hq, rfl⟩ := mem_map.mp (hperm.mem_iff.mp ha)
  obtain ⟨q', hq', rfl⟩ := mem_map.mp hb
  have hkey : compare q.key q'.key = .eq := Std.OrientedCmp.isLE_antisymm hab hba
  exact hrep q hq q' hq' (Std.LawfulEqOrd.eq_of_compare hkey)

theorem returns_of_printable (hu : WellFormed u) (h : Printable signedChar u) :
    Returns signedChar Q u.queries := by
  have hkeys := forall_mem_map.mp hu.keys
  have hplain := plain_printQueries h.item fun q hq => (hkeys q hq).2
  have hsort := sort_reparsed Q hu.sorted fun q hq q' hq' hkey =>
    (reparsed_eq_iff hkey).mpr (h.repeated q hq q' hq' hkey)
  unfold Returns
  rw [cstr, upTo_of_not_mem hplain.1]
  refine ⟨hplain.2, u.queries.map reparsed, ?_, ?_, printQueries_map_reparsed _⟩
  · rw [loadKvPairs_printQueries Q h.item fun q hq => (hkeys q hq).1, hsort]
  · simp [QueryItem.pair, reparsed]

end Forward

/-! ## Only printable queries come back -/

/-- A value that is longer than nothing is not its own list of escapes. -/
theorem eq_nil_of_append_eq {x r r' : Bytes} (hr : ∀ b ∈ r.head?, b = amp)
    (h : x ++ r = x.flatMap hexByte ++ r') : x = [] := by
  have hlen : (x.flatMap hexByte).length = 3 * x.length := by
    simp [length_flatMap, hexByte, Nat.mul_comm]
  by_contra hx
  have hpos := length_pos_iff.mpr hx
  rcases append_eq_append_iff.mp h with ⟨a, ha, hra⟩ | ⟨c, hc, -⟩
  · -- the byte behind the value is one of the escapes
    cases a with
    | nil => simp [ha] at hlen; omega
    | cons b a =>
        have hb : b = amp := hr b (by simp [hra])
        refine (not_mem_flatMap_hexByte x).1 ?_
        rw [ha, hb]
        simp
  · have := congrArg List.length hc
    simp only [length_append] at this
    omega

section Backward

variable {signedChar}

/-- Bytes that may stand in a text that comes back. -/
def InText (b : UInt8) : Prop := b ≠ zero ∧ b ≠ colon

variable {vs : List QueryItem}

/-- What `tostring` writes for queries of the parser has no zero byte. -/
theorem zero_not_mem_of_found (hvs : ∀ v ∈ vs, Found signedChar InText v) :
    zero ∉ printQueries vs := by
  have hok : ∀ b ∈ printQueries vs, b ≠ zero := by
    refine forall_mem_printQueries (by decide) (by decide)
      (fun v hv b hb => ((hvs v hv).keyBytes b hb).1) (fun v hv b hb => ?_)
    unfold printValue at hb
    split_ifs at hb with hu
    · exact fun h => (not_mem_flatMap_hexByte _).2.2 (h ▸ hb)
    · exact ((hvs v hv).plain (by simpa using hu) b hb).1.1
  exact fun h => hok _ h rfl

theorem head?_printMore (qs : List QueryItem) : ∀ b ∈ (printMore qs).head?, b = amp := by
  cases qs with
  | nil => simp [printMore]
  | cons q qs => simp [printMore]

variable {qs : List QueryItem}

theorem printMore_eq_iff (hlen : vs.length = qs.length) :
    printMore vs = printMore qs ↔ printQueries vs = printQueries qs := by
  cases vs with
  | nil =>
      cases qs with
      | nil => simp
      | cons q qs => cases hlen
  | cons v vs =>
      cases qs with
      | nil => cases hlen
      | cons q qs => simp [printMore]

/-- One query: the same value in the same text has the same mark. -/
theorem reparsed_eq_of_text {v q : QueryItem} (hpair : v.pair = q.pair)
    (hv : Found signedChar InText v) {r r' : Bytes} (hr : ∀ b ∈ r.head?, b = amp)
    (hr' : ∀ b ∈ r'.head?, b = amp) (hz : zero ∉ printValue q)
    (h : printValue v ++ r = printValue q ++ r') : reparsed v = reparsed q := by
  obtain ⟨key, x, f⟩ := v
  obtain ⟨key', x', f'⟩ := q
  obtain ⟨rfl, rfl⟩ : key = key' ∧ x = x' := by simpa [QueryItem.pair] using hpair
  rw [reparsed_eq_iff (by rfl)]
  refine ⟨rfl, ?_⟩
  cases f with
  | false =>
      cases f' with
      | false => exact .inr rfl
      | true =>
          have hx : zero ∉ x := fun hb => ((hv.plain rfl) _ hb).1.1 rfl
          simp only [printValue, Bool.false_eq_true, if_false, if_true, cstr, upTo_of_not_mem hx] at h
          exact .inl (eq_nil_of_append_eq hr h)
  | true =>
      cases f' with
      | false =>
          have hx : zero ∉ x := by simpa [printValue] using hz
          simp only [printValue, Bool.false_eq_true, if_false, if_true, cstr, upTo_of_not_mem hx] at h
          exact .inl (eq_nil_of_append_eq hr' h.symm)
      | true => exact .inr rfl

/-- **The text determines the marks** of queries of the parser. -/
theorem map_reparsed_eq (hvs : ∀ v ∈ vs, Found signedChar InText v)
    (hpairs : vs.map QueryItem.pair = qs.map QueryItem.pair)
    (htext : printQueries vs = printQueries qs) : vs.map reparsed = qs.map reparsed := by
  have hz : zero ∉ printQueries qs := htext ▸ zero_not_mem_of_found hvs
  induction vs generalizing qs with
  | nil =>
      have : qs = [] := by simpa using hpairs.symm
      rw [this]
  | cons v vs ih =>
      cases qs with
      | nil => cases hpairs
      | cons q qs =>
          obtain ⟨hpair, hpairs'⟩ := List.cons.inj hpairs
          have hkey : v.key = q.key := congrArg Prod.fst hpair
          have hlen : vs.length = qs.length := by simpa using congrArg List.length hpairs'
          obtain ⟨hv, hvs'⟩ := forall_mem_cons.mp hvs
          rw [printQueries_cons, printQueries_cons, hkey, append_cancel_left_eq,
            List.cons.injEq] at htext
          rw [printQueries_cons] at hz
          simp only [mem_append, mem_cons, not_or] at hz
          obtain ⟨-, -, hzv, -⟩ := hz
          have hhead := reparsed_eq_of_text hpair hv (head?_printMore vs) (head?_printMore qs) hzv
            htext.2
          have hvalue : printValue v = printValue q := by
            rw [← printValue_reparsed v, hhead, printValue_reparsed]
          have hmore : printMore vs = printMore qs := by
            rw [hvalue] at htext
            exact append_cancel_left htext.2
          have htail := (printMore_eq_iff hlen).mp hmore
          rw [map_cons, map_cons, hhead, ih hvs' hpairs' htail ?_]
          exact htail ▸ zero_not_mem_of_found hvs'

/-- The queries found in the text of queries that come back. -/
theorem Returns.found (h : Returns signedChar Q qs) (hne : qs ≠ []) :
    cstr (printQueries qs) = printQueries qs ∧ ∃ list,
      loadKvLoop signedChar (printQueries qs).length [] (printQueries qs) = some (some list) ∧
      (∀ v ∈ list, Found signedChar InText v) ∧
      (Q.sort queryCompare list).map QueryItem.pair = qs.map QueryItem.pair ∧
      (Q.sort queryCompare list).map reparsed = qs.map reparsed := by
  obtain ⟨hcolon, vs, hload, hpairs, htext⟩ := h
  unfold loadKvPairs at hload
  split at hload
  · cases hload
  · cases hload
    exact absurd (by simpa using hpairs.symm) hne
  · next list hloop =>
      cases hload
      have hok : ∀ b ∈ cstr (printQueries qs), InText b := fun b hb =>
        ⟨fun h => not_mem_upTo zero _ (h ▸ hb), fun h => hcolon (h ▸ hb)⟩
      have hlist := found_of_loadKvLoop signedChar hloop hok (by simp)
      have hvs : ∀ v ∈ Q.sort queryCompare list, Found signedChar InText v :=
        fun v hv => hlist v ((Q.perm _ _).mem_iff.mp hv)
      have hz := zero_not_mem_of_found hvs
      rw [htext] at hz
      have hcstr : cstr (printQueries qs) = printQueries qs := upTo_of_not_mem hz
      rw [hcstr] at hloop
      exact ⟨hcstr, list, hloop, hlist, hpairs, map_reparsed_eq hvs hpairs htext⟩

/-- A query with its value cut at the first zero byte, as `tostring` writes it. -/
def cut (q : QueryItem) : QueryItem := { q with value := cstr q.value }

theorem printQueries_map_cut (h : ∀ q ∈ qs, q.utf8 = false → zero ∉ q.value) :
    printQueries (qs.map cut) = printQueries qs := by
  have hvalue : ∀ q ∈ qs, printValue (cut q) = printValue q := by
    intro q hq
    unfold printValue cut
    cases hu : q.utf8 with
    | true => simp [cstr, not_mem_upTo]
    | false => simp [cstr, h q hq hu]
  clear h
  induction qs with
  | nil => rfl
  | cons q qs ih =>
      obtain ⟨hq, hqs⟩ := forall_mem_cons.mp hvalue
      have hmore := (printMore_eq_iff (by simp)).mpr (ih hqs)
      rw [map_cons, printQueries_cons, printQueries_cons, hq, hmore]
      rfl

/-- Queries that come back do not clash with the syntax. -/
theorem Returns.itemOk (h : Returns signedChar Q qs) :
    ∀ q ∈ qs, ItemOk signedChar q ∧ q.key ≠ [] := by
  by_cases hne : qs = []
  · simp [hne]
  obtain ⟨-, list, hloop, hlist, hpairs, hreparsed⟩ := h.found hne
  have hmem : ∀ v, v ∈ Q.sort queryCompare list ↔ v ∈ list := fun v => (Q.perm _ _).mem_iff
  -- everything but the zero bytes comes from the query the parser finds
  have hfound : ∀ q ∈ qs, (q.key ≠ [] ∧ equals ∉ q.key ∧ colon ∉ q.key) ∧
      (q.utf8 = false → ∀ b ∈ q.value,
        b ≠ zero ∧ b ≠ percent ∧ b ≠ amp ∧ b ≠ colon ∧ high signedChar b = false) := by
    intro q hq
    have hin : reparsed q ∈ (Q.sort queryCompare list).map reparsed := by
      rw [hreparsed]
      exact mem_map_of_mem hq
    obtain ⟨v, hv, heq⟩ := mem_map.mp hin
    have hkey : v.key = q.key := show (reparsed v).key = (reparsed q).key by rw [heq]
    obtain ⟨hvalue, hflag⟩ := (reparsed_eq_iff hkey).mp heq
    have hv' := hlist v ((hmem v).mp hv)
    rw [← hkey, ← hvalue]
    refine ⟨⟨hv'.key.1, hv'.key.2, fun hb => (hv'.keyBytes _ hb).2 rfl⟩, fun hu b hb => ?_⟩
    have hplain := hv'.plain ((hflag.resolve_left (ne_nil_of_mem hb)).trans hu) b hb
    exact ⟨hplain.1.1, hplain.2.1, hplain.2.2.1, hplain.1.2, hplain.2.2.2⟩
  -- the parser finds the values cut, so there was nothing to cut
  have hcut : ∀ q ∈ qs.map cut, ItemOk signedChar q := by
    rw [forall_mem_map]
    intro q hq
    obtain ⟨hkey, hplain⟩ := hfound q hq
    exact ⟨hkey.2, fun _ => not_mem_upTo zero _, fun hu b hb => hplain hu b (mem_of_mem_upTo hb)⟩
  have hprint := printQueries_map_cut fun q hq hu hb => ((hfound q hq).2 hu _ hb).1 rfl
  have hloop' := loadKvLoop_printQueries hcut (forall_mem_map.mpr fun q hq => (hfound q hq).1.1)
    (length_le_printQueries _) []
  rw [hprint, hloop] at hloop'
  have hzero : ∀ v ∈ list, zero ∉ v.value := by
    cases hloop'
    simp only [append_nil, mem_reverse, forall_mem_map]
    exact fun q _ => not_mem_upTo zero q.value
  intro q hq
  obtain ⟨hkey, hplain⟩ := hfound q hq
  refine ⟨⟨hkey.2, fun _ => ?_, hplain⟩, hkey.1⟩
  have hin : q.pair ∈ (Q.sort queryCompare list).map QueryItem.pair := by
    rw [hpairs]
    exact mem_map_of_mem hq
  obtain ⟨v, hv, heq⟩ := mem_map.mp hin
  have hvalue : v.value = q.value := congrArg Prod.snd heq
  exact hvalue ▸ hzero v ((hmem v).mp hv)

/-- An order on queries with the same key. -/
def tieCompare : QueryItem → QueryItem → Ordering :=
  compareLex (compareOn QueryItem.value) (compareOn QueryItem.utf8)

instance : Std.TransCmp tieCompare :=
  inferInstanceAs (Std.TransCmp (compareLex (compareOn QueryItem.value) (compareOn QueryItem.utf8)))

theorem eq_of_tieCompare {a b : QueryItem} (hkey : a.key = b.key) (h : tieCompare a b = .eq) :
    a = b := by
  obtain ⟨key, value, utf8⟩ := a
  obtain ⟨key', value', utf8'⟩ := b
  simp only [tieCompare, compareLex, Ordering.then_eq_eq, compareOn, Std.compare_eq_iff_eq] at h
  simp_all

/-- Two ways to sort the queries give one list only when repeated keys have one value. -/
theorem one_value_of_returns (h : ∀ Q, Returns signedChar Q qs) :
    ∀ q ∈ qs, ∀ q' ∈ qs, q.key = q'.key → reparsed q = reparsed q' := by
  by_cases hne : qs = []
  · simp [hne]
  have hsort : ∀ Q : Qsort QueryItem,
      Q.sort queryCompare (qs.map reparsed).reverse = qs.map reparsed := by
    intro Q
    have hitem := (h Q).itemOk
    obtain ⟨-, list, hloop, -, -, hreparsed⟩ := (h Q).found hne
    rw [loadKvLoop_printQueries (fun q hq => (hitem q hq).1) (fun q hq => (hitem q hq).2)
      (length_le_printQueries qs), append_nil] at hloop
    cases hloop
    -- what the parser returns is not changed by another round
    have hid : ∀ v ∈ Q.sort queryCompare (qs.map reparsed).reverse, reparsed v = v := by
      intro v hv
      rw [(Q.perm _ _).mem_iff, mem_reverse] at hv
      obtain ⟨q, -, rfl⟩ := mem_map.mp hv
      simp [reparsed]
    rwa [map_congr_left hid, map_id''] at hreparsed
    exact fun _ => rfl
  have hup := Qsort.sorted_breaking queryCompare tieCompare (qs.map reparsed).reverse
  have hdown := Qsort.sorted_breaking queryCompare (fun a b => tieCompare b a)
    (qs.map reparsed).reverse
  rw [hsort] at hup hdown
  have hpair : (qs.map reparsed).Pairwise fun a b => a.key = b.key → a = b := by
    refine (hup.and hdown).imp ?_
    intro a b hab hkey
    apply eq_of_tieCompare hkey
    have heq : queryCompare a b = .eq := by simp [queryCompare, hkey]
    simp only [compareLex, heq, Ordering.eq_then] at hab
    exact Std.OrientedCmp.isLE_antisymm hab.1 hab.2
  intro q hq q' hq' hkey
  have hflip : (qs.map reparsed).Pairwise (flip fun a b => a.key = b.key → a = b) := by
    refine hpair.imp ?_
    intro a b hab hkey
    exact (hab hkey.symm).symm
  exact hpair.forall_of_forall_of_flip (fun _ _ _ => rfl) hflip (mem_map_of_mem hq)
    (mem_map_of_mem hq') hkey

end Backward

/-! ## The round trip -/

/-- **Printing and parsing are inverse** on a uri object, with every `qsort`, exactly when
it is printable. -/
theorem roundTrips_iff_printable {Q : Qsort QueryItem} {u : UriImpl}
    (hu : Obtained signedChar Q u) :
    (∀ Q', RoundTrips signedChar Q' u) ↔ Printable signedChar u := by
  have hwell := wellFormed_of_obtained signedChar hu
  simp only [roundTrips_iff signedChar hwell.parts]
  constructor
  · intro h
    refine ⟨fun q hq => ((h Q).itemOk q hq).1, fun q hq q' hq' hkey => ?_⟩
    exact (reparsed_eq_iff hkey).mp (one_value_of_returns h q hq q' hq' hkey)
  · exact fun h Q' => returns_of_printable Q' hwell h

end Char

/-- The uri of `a://h/f?k=%41&m=1` -/
def twoQueries : UriImpl where
  scheme := [97]
  userPasswd := none
  fullpath := [104, 47, 102]
  port := -1
  portStartColon := 0
  filename := some 2
  queries := [⟨[107], [65], true⟩, ⟨[109], [49], false⟩]

theorem roundTrips_iff_printable_twoQueries :
    Obtained true (Qsort.insertion QueryItem) twoQueries ∧ Printable true twoQueries ∧
      ∀ Q', RoundTrips true Q' twoQueries := by
  have hobtained : Obtained true (Qsort.insertion QueryItem) twoQueries :=
    .load (s := [97, 58, 47, 47, 104, 47, 102, 63, 107, 61, 37, 52, 49, 38, 109, 61, 49])
      (by decide +kernel)
  have hprintable : Printable true twoQueries := by
    refine ⟨?_, by decide⟩
    simp only [twoQueries, forall_mem_cons]
    refine ⟨⟨by decide, by decide, fun h => by cases h⟩, ⟨by decide, by decide, fun _ => ?_⟩, by simp⟩
    exact forall_mem_singleton.mpr (by decide)
  exact ⟨hobtained, hprintable, (roundTrips_iff_printable true hobtained).mpr hprintable⟩

/-- The uri of `a://h?k=1&k=2`: the list of queries is built at its front, and a stable sort
keeps the later query first. -/
def repeatedKey : UriImpl where
  scheme := [97]
  userPasswd := none
  fullpath := [104]
  port := -1
  portStartColon := 0
  filename := none
  queries := [⟨[107], [50], false⟩, ⟨[107], [49], false⟩]

/-- The uri of `a://h?k=1` after `add_query("m", "%26")`: the value is `&` without a mark. -/
def addedQuery : UriImpl where
  scheme := [97]
  userPasswd := none
  fullpath := [104]
  port := -1
  portStartColon := 0
  filename := none
  queries := [⟨[107], [49], false⟩, ⟨[109], [38], false⟩]

theorem not_roundTrips_repeatedKey :
    (Obtained true (Qsort.insertion QueryItem) repeatedKey ∧
      ¬ RoundTrips true (Qsort.insertion QueryItem) repeatedKey) ∧
    (Obtained true (Qsort.insertion QueryItem) addedQuery ∧
      ¬ RoundTrips true (Qsort.insertion QueryItem) addedQuery) := by
  have hrepeated : load true (Qsort.insertion QueryItem) (tostring repeatedKey) =
      some (some { repeatedKey with queries := repeatedKey.queries.reverse }) := by decide +kernel
  have hadded : load true (Qsort.insertion QueryItem) (tostring addedQuery) = some (some
      { addedQuery with queries := [⟨[107], [49], false⟩, ⟨[109], [], false⟩] }) := by
    decide +kernel
  have hload : Obtained true (Qsort.insertion QueryItem)
      { addedQuery with queries := [⟨[107], [49], false⟩] } :=
    .load (s := [97, 58, 47, 47, 104, 63, 107, 61, 49]) (by decide +kernel)
  have hadd : addQuery true (Qsort.insertion QueryItem)
      { addedQuery with queries := [⟨[107], [49], false⟩] } [109] [37, 50, 54] = some addedQuery := by
    decide +kernel
  refine ⟨⟨.load (s := [97, 58, 47, 47, 104, 63, 107, 61, 49, 38, 107, 61, 50])
    (by decide +kernel), ?_⟩, ⟨.addQuery hload hadd, ?_⟩⟩
  · rintro ⟨v, hv, -, -, -, -, -, hpairs, -⟩
    rw [hrepeated] at hv
    cases hv
    exact absurd hpairs (by decide)
  · rintro ⟨v, hv, -, -, -, -, -, hpairs, -⟩
    rw [hadded] at hv
    cases hv
    exact absurd hpairs (by decide)

end V2I.Uri
