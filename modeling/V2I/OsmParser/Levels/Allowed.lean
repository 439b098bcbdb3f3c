import V2I.OsmParser.Levels

/-!
# V2I.OsmParser.Levels.Allowed

What the levels allow after the configuration is loaded. The list of a level holds the types read
for it and copies of the lists before it; it is in order on every level but the last but one, and
the types of the last item of the file are never read.
-/

namespace V2I.OsmParser

open List

/-! ## What is configured -/

/-- The level an item is for. -/
def itemLevel (jitem : Jsonobject) : ℤ := asInt (jitem.getMember "level").toNumber

/-- The type that an entry of `road-types` names. -/
def namedType : Jsonobject → Option ℤ
  | .string name => getHighwayType name
  | _ => none

/-- The types of a list, each once. -/
def namedTypes (jtypes : List Jsonobject) : List ℤ :=
  (jtypes.filterMap namedType).foldl addType []

/-- The types that an item names. -/
def itemTypes (jitem : Jsonobject) : List ℤ :=
  match jitem.getMember "road-types" with
  | .array jtypes => namedTypes jtypes
  | _ => []

/-- The item of a level; a file that is accepted has exactly one. -/
def levelItem (jlevels : List Jsonobject) (l : ℕ) : Option Jsonobject :=
  jlevels.find? fun jitem => itemLevel jitem = l

/-- The types configured for a level. -/
def configuredTypes (jlevels : List Jsonobject) (l : ℕ) : List ℤ :=
  match levelItem jlevels l with
  | some jitem => itemTypes jitem
  | none => []

/-- A type configured for a level or one before it. -/
def Configured (jlevels : List Jsonobject) (l : ℕ) (type : ℤ) : Prop :=
  ∃ k ≤ l, type ∈ configuredTypes jlevels k

/-- The levels allow what is configured. -/
structure AllowsConfigured (maplevels : List MapLevel) (jlevels : List Jsonobject) : Prop where
  below : ∀ l, l + 1 < jlevels.length → ∀ type,
    (maplevels.getD l {}).allowedType type ↔ Configured jlevels l type
  last : ∀ l, l + 1 = jlevels.length → ∀ type,
    (maplevels.getD l {}).allowedType type ↔ IsHighwayType type
  grows : ∀ k l, k ≤ l → l < jlevels.length → ∀ type,
    (maplevels.getD k {}).allowedType type → (maplevels.getD l {}).allowedType type

/-! ## What is gathered -/

section Gather

variable (q : Qsort ℤ) (types : ℕ → List ℤ)

/-- The lists below a level but for the one just before it, each sorted, and the list of the level
when the types of the levels before it have been copied to it. -/
def gather : ℕ → List ℤ × List ℤ
  | 0 => ([], types 0)
  | l + 1 =>
      ((gather l).1 ++ q.sort typesSorter (gather l).2,
        types (l + 1) ++ ((gather l).1 ++ (gather l).2))

/-- The list of a level when the types of the levels before it have been copied to it. -/
def gathered (l : ℕ) : List ℤ := (gather q types l).2

end Gather

/-- The types that are read: those of all items but the last of the file. -/
def readTypesOf (jlevels : List Jsonobject) (l : ℕ) : List ℤ :=
  configuredTypes jlevels.dropLast l

/-- The types configured up to a level can be found there. -/
structure Findable (q : Qsort ℤ) (jlevels : List Jsonobject) (l : ℕ) : Prop where
  /-- An empty list allows every type. -/
  empty : (∀ k ≤ l, readTypesOf jlevels k = []) → ∀ type, IsHighwayType type →
    Configured jlevels l type
  /-- No type is left unread. -/
  read : (∃ k ≤ l, readTypesOf jlevels k ≠ []) → ∀ type, Configured jlevels l type →
    ∃ k ≤ l, type ∈ readTypesOf jlevels k
  /-- On the last but one level the binary search reaches a copy of each type. -/
  reached : l + 2 = jlevels.length → (∃ k ≤ l, readTypesOf jlevels k ≠ []) → ∀ type,
    Configured jlevels l type → ∃ p, (gathered q (readTypesOf jlevels) l)[p]? = some type ∧
      Bisects (gathered q (readTypesOf jlevels) l) p

/-! ## Sorting -/

variable {q : Qsort ℤ} {types : ℕ → List ℤ}

theorem sorted_sort (l : List ℤ) : (q.sort typesSorter l).Pairwise (· ≤ ·) := by
  have hcmp : ∀ aa bb, typesSorter aa bb =
      if id bb < id aa then .gt else if id aa < id bb then .lt else .eq := fun _ _ => rfl
  exact q.pairwise_sort hcmp l

/-- A list of numbers can be sorted in one way only. -/
theorem sort_sort (l : List ℤ) : q.sort typesSorter (q.sort typesSorter l) = q.sort typesSorter l :=
  (q.perm typesSorter _).eq_of_pairwise (fun _ _ _ _ => le_antisymm) (sorted_sort _) (sorted_sort l)

variable {type : ℤ}

theorem mem_sort {l : List ℤ} : type ∈ q.sort typesSorter l ↔ type ∈ l :=
  (q.perm typesSorter l).mem_iff

theorem mem_gather (l : ℕ) (type : ℤ) :
    (type ∈ (gather q types l).2 ↔ ∃ k ≤ l, type ∈ types k) ∧
      (type ∈ (gather q types l).1 → type ∈ (gather q types l).2) := by
  induction l with
  | zero => simp [gather]
  | succ l ih =>
    have hown : type ∈ (gather q types (l + 1)).2 ↔
        type ∈ types (l + 1) ∨ type ∈ (gather q types l).2 := by
      simp only [gather, mem_append]
      constructor
      · rintro (h | h | h)
        · exact .inl h
        · exact .inr (ih.2 h)
        · exact .inr h
      · rintro (h | h)
        · exact .inl h
        · exact .inr (.inr h)
    refine ⟨?_, fun h => ?_⟩
    · rw [hown, ih.1]
      constructor
      · rintro (h | ⟨k, hk, h⟩)
        · exact ⟨l + 1, le_rfl, h⟩
        · exact ⟨k, Nat.le_succ_of_le hk, h⟩
      · rintro ⟨k, hk, h⟩
        rcases Nat.le_succ_iff.mp hk with hk | rfl
        · exact .inr ⟨k, hk, h⟩
        · exact .inl h
    · simp only [gather, mem_append, mem_sort] at h
      rw [hown]
      exact .inr (h.elim ih.2 id)

variable {l : ℕ}

theorem mem_gathered : type ∈ gathered q types l ↔ ∃ k ≤ l, type ∈ types k :=
  (mem_gather l type).1

/-- What is copied into a level: the lists below it, of which only the one before it is not yet
sorted. -/
theorem gather_fst (l : ℕ) : (gather q types l).1 =
    (List.range l).flatMap fun k => q.sort typesSorter (gathered q types k) := by
  induction l with
  | zero => rfl
  | succ l ih => simp [gather, ih, range_succ, gathered]

/-! ## Reading the items -/

variable {jtypes : List Jsonobject}

theorem readTypes_eq {types types' : List ℤ} (h : readTypes jtypes types = .ok types') :
    types' = (jtypes.filterMap namedType).foldl addType types := by
  induction jtypes generalizing types with
  | nil =>
    cases h
    rfl
  | cons jtype jtypes ih =>
    cases jtype with
    | string name =>
      rw [readTypes] at h
      cases hname : getHighwayType name with
      | none => simp [hname] at h
      | some tid =>
        simp only [hname] at h
        have hnamed : namedType (.string name) = some tid := hname
        rw [ih h, filterMap_cons_some hnamed, foldl_cons]
    | _ => simp [readTypes] at h

/-- The types of a list that have been read are road types. -/
theorem isHighwayType_of_mem (h : type ∈ namedTypes jtypes) : IsHighwayType type := by
  have hfold : ∀ (named init : List ℤ), (∀ t ∈ named, IsHighwayType t) →
      (∀ t ∈ init, IsHighwayType t) → ∀ t ∈ named.foldl addType init, IsHighwayType t := by
    intro named
    induction named with
    | nil => exact fun init _ hinit => hinit
    | cons tid named ih =>
      intro init hnamed hinit
      refine ih _ (fun t ht => hnamed t (.tail _ ht)) ?_
      rw [addType]
      split
      · exact hinit
      · intro t ht
        rcases mem_append.mp ht with ht | ht
        · exact hinit t ht
        · exact hnamed t (mem_singleton.mp ht ▸ mem_cons_self)
  refine hfold _ [] (fun t ht => ?_) (by simp) type h
  obtain ⟨jtype, -, hjtype⟩ := mem_filterMap.mp ht
  cases jtype with
  | string name => exact isHighwayType_of_name hjtype
  | _ => cases hjtype

variable {jlevels : List Jsonobject}

theorem Configured.isHighwayType (h : Configured jlevels l type) : IsHighwayType type := by
  obtain ⟨k, -, hk⟩ := h
  unfold configuredTypes itemTypes at hk
  split at hk
  · split at hk
    · exact isHighwayType_of_mem hk
    · cases hk
  · cases hk

/-- The type list of a level. -/
def typesAt (maplevels : List MapLevel) (l : ℕ) : List ℤ := (maplevels.getD l {}).types

variable {m m' : List MapLevel} {cnt : ℕ}

/-- **One item** sets its level, which no item has set before. -/
theorem parseItem_spec {i : ℕ} {jitem : Jsonobject} (h : parseItem cnt i jitem m = .ok m') :
    ∃ (l : ℕ) (level : MapLevel), itemLevel jitem = l ∧ l < cnt ∧ (m.getD l {}).row = 0 ∧
      m' = m.set l level ∧ level.row ≠ 0 ∧
      (i + 1 ≠ cnt → level.types = itemTypes jitem) ∧
      (i + 1 = cnt → typesAt m l = [] → level.types = []) := by
  unfold parseItem at h
  split at h
  · next members =>
    split at h
    · next valueint _ hlevel =>
      have hitem : itemLevel (.object members) = asInt valueint := by
        rw [itemLevel, hlevel, Jsonobject.toNumber]
      dsimp only at h
      split at h
      · cases h
      · next hrange =>
        rw [not_or, not_lt, ge_iff_le, not_le] at hrange
        have hnat : ((asInt valueint).toNat : ℤ) = asInt valueint := Int.toNat_of_nonneg hrange.1
        split at h
        · cases h
        · next hrow =>
          split at h
          · cases h
          · next newTypes htypes =>
            cases h
            refine ⟨_, _, hitem.trans hnat.symm, by omega, not_not.mp hrow, rfl, by simp, ?_, ?_⟩
            · intro hlast
              unfold parseTypes at htypes
              unfold itemTypes
              split at htypes
              · simp [hlast] at htypes
              · next items hitems =>
                rw [hitems]
                simp only [hlast, decide_false, Bool.false_eq_true, if_false] at htypes
                exact readTypes_eq htypes
              · cases htypes
            · intro hlast hnil
              unfold parseTypes at htypes
              split at htypes
              · simp only [hlast, decide_true, if_true, Except.ok.injEq] at htypes
                exact htypes ▸ hnil
              · simp only [hlast, decide_true, if_true, Except.ok.injEq] at htypes
                exact htypes.symm
              · cases htypes
    · cases h
  · cases h

theorem getD_set (hl : l < m.length) (level : MapLevel) (k : ℕ) :
    (m.set l level).getD k {} = if k = l then level else m.getD k {} := by
  rw [getD_eq_getElem?_getD, getD_eq_getElem?_getD, getElem?_set]
  split
  · next h => simp [← h]
  · next h => rw [if_neg (Ne.symm h)]

/-- The levels after the items `pre`, of which none is the last of the file. -/
structure Loaded (cnt : ℕ) (pre : List Jsonobject) (m : List MapLevel) : Prop where
  length : m.length = cnt + 1
  types : ∀ l < cnt, typesAt m l = configuredTypes pre l
  row : ∀ l < cnt, (m.getD l {}).row = 0 → levelItem pre l = none

theorem Loaded.init (cnt : ℕ) : Loaded cnt [] (List.replicate (cnt + 1) {}) where
  length := length_replicate
  types l hl := by
    simp [typesAt, configuredTypes, levelItem, getD_eq_getElem?_getD, Nat.lt_succ_of_lt hl]
  row _ _ _ := rfl

theorem levelItem_concat (pre : List Jsonobject) (jitem : Jsonobject) (l : ℕ) :
    levelItem (pre ++ [jitem]) l =
      (levelItem pre l).or (if itemLevel jitem = l then some jitem else none) := by
  rw [levelItem, find?_append, find?_singleton, levelItem]
  simp only [decide_eq_true_eq]

theorem Loaded.step {pre : List Jsonobject} {jitem : Jsonobject} (hm : Loaded cnt pre m)
    (hlast : pre.length + 1 ≠ cnt) (h : parseItem cnt pre.length jitem m = .ok m') :
    Loaded cnt (pre ++ [jitem]) m' := by
  obtain ⟨l, level, hitem, hl, hrow, rfl, hset, htypes, -⟩ := parseItem_spec h
  have hlen : l < m.length := by rw [hm.length]; omega
  have hnone := hm.row l hl hrow
  refine ⟨by rw [length_set, hm.length], fun k hk => ?_, fun k hk => ?_⟩
  · rw [typesAt, getD_set hlen, configuredTypes, levelItem_concat, hitem]
    split
    · next hkl => simp [hkl, hnone, htypes hlast]
    · next hkl =>
      rw [if_neg (fun e => hkl (Int.ofNat_inj.mp e).symm), Option.or_none]
      exact hm.types k hk
  · rw [getD_set hlen, levelItem_concat, hitem]
    split
    · exact fun h0 => absurd h0 hset
    · next hkl =>
      rw [if_neg (fun e => hkl (Int.ofNat_inj.mp e).symm), Option.or_none]
      exact hm.row k hk

/-- **The items** give each level the types that are read for it. -/
theorem parseItems_spec {rest : List Jsonobject} (pre : List Jsonobject)
    (hcnt : cnt = pre.length + rest.length) (hrest : rest ≠ []) (hm : Loaded cnt pre m)
    (h : parseItems cnt pre.length rest m = .ok m') :
    m'.length = cnt + 1 ∧ ∀ l < cnt, typesAt m' l = readTypesOf (pre ++ rest) l := by
  induction rest generalizing pre m with
  | nil => exact absurd rfl hrest
  | cons jitem rest ih =>
    rw [parseItems] at h
    split at h
    · cases h
    · next m₁ hitem =>
      cases rest with
      | nil =>
        cases h
        obtain ⟨l, level, -, hl, hrow, rfl, -, -, htypes⟩ := parseItem_spec hitem
        have hlen : l < m.length := by rw [hm.length]; omega
        have hnil : typesAt m l = [] := by
          rw [hm.types l hl, configuredTypes, hm.row l hl hrow]
        refine ⟨by rw [length_set, hm.length], fun k hk => ?_⟩
        rw [readTypesOf, dropLast_concat, ← hm.types k hk, typesAt, getD_set hlen]
        split
        · next hkl => rw [htypes (by simpa using hcnt.symm) hnil, hkl, hnil]
        · rfl
      | cons jitem' rest =>
        have hstep := hm.step (by simp only [length_cons] at hcnt; omega) hitem
        have hrun := ih (pre ++ [jitem]) (by simp at hcnt ⊢; omega) (by simp) hstep
          (by rw [length_append]; exact h)
        rw [append_assoc] at hrun
        exact hrun

/-! ## Copying and sorting -/

theorem typesAt_copyTypes {idx i : ℕ} (hidx : idx < m.length) (hi : i < idx) (l : ℕ) :
    typesAt (copyTypes q idx m i) l =
      if l = i then q.sort typesSorter (typesAt m i)
      else if l = idx then typesAt m idx ++ typesAt m i
      else typesAt m l := by
  simp only [typesAt, copyTypes, getD_eq_getElem?_getD, getElem?_modify]
  split
  · next h =>
    subst h
    simp [hi.ne', getElem?_eq_getElem (hi.trans hidx)]
  · next h =>
    split
    · next h' =>
      subst h'
      simp [Ne.symm h, getElem?_eq_getElem hidx]
    · next h' => simp [Ne.symm h, Ne.symm h']

theorem length_copyTypes (m : List MapLevel) (idx i : ℕ) :
    (copyTypes q idx m i).length = m.length := by
  simp [copyTypes]

/-- The loop of `fix_level_highway_types` over the first `k` levels. -/
theorem foldl_copyTypes (q : Qsort ℤ) {idx k : ℕ} (hidx : idx < m.length) (hk : k ≤ idx) :
    ((List.range k).foldl (copyTypes q idx) m).length = m.length ∧
      ∀ l, typesAt ((List.range k).foldl (copyTypes q idx) m) l =
        if l < k then q.sort typesSorter (typesAt m l)
        else if l = idx then typesAt m idx ++ (List.range k).flatMap (typesAt m)
        else typesAt m l := by
  induction k with
  | zero => simp
  | succ k ih =>
    obtain ⟨hlen, htypes⟩ := ih (by omega)
    rw [range_succ, foldl_append, foldl_cons, foldl_nil]
    refine ⟨by rw [length_copyTypes, hlen], fun l => ?_⟩
    have hidx_eq := htypes idx
    have hk_eq := htypes k
    rw [if_neg (by omega), if_pos rfl] at hidx_eq
    rw [if_neg (lt_irrefl k), if_neg (by omega)] at hk_eq
    rw [typesAt_copyTypes (by omega) (by omega), hidx_eq, hk_eq, htypes]
    rcases lt_trichotomy l k with h | h | h
    · rw [if_neg h.ne, if_neg (by omega), if_pos h, if_pos (by omega)]
    · rw [if_pos h, if_pos (by omega), h]
    · have hlk : ¬ l < k + 1 := by omega
      rw [if_neg h.ne', if_neg hlk]
      by_cases hl : l = idx
      · simp [hl, flatMap_append]
      · rw [if_neg hl, if_neg (by omega), if_neg hl, if_neg hl]

/-- The last round of a loop that may fail. -/
theorem foldlM_range_succ {f : List MapLevel → ℕ → Except LevelFault (List MapLevel)} {n : ℕ}
    (h : (List.range (n + 1)).foldlM f m = .ok m') :
    ∃ m₁, (List.range n).foldlM f m = .ok m₁ ∧ f m₁ n = .ok m' := by
  rw [range_succ, foldlM_append] at h
  cases hrun : (List.range n).foldlM f m with
  | error e => simp [hrun, bind, Except.bind] at h
  | ok m₁ =>
    refine ⟨m₁, rfl, ?_⟩
    cases hround : f m₁ n with
    | error e => simp [hrun, hround, bind, Except.bind] at h
    | ok m₂ => simpa [hrun, hround, bind, Except.bind, pure, Except.pure] using h

/-- **The rounds** that verify the first `n` levels, of which none is the last: the lists before
the last round's level are in order, the list of that level is as it was gathered. -/
theorem verify_spec {n : ℕ} (hn : n < cnt) (hlen : m.length = cnt + 1)
    (hm : ∀ l < cnt, typesAt m l = types l)
    (h : (List.range n).foldlM (verifyLevel q cnt) m = .ok m') :
    m'.length = cnt + 1 ∧ ∀ l < cnt, typesAt m' l =
      if l + 1 < n then q.sort typesSorter (gathered q types l)
      else if l + 1 = n then gathered q types l
      else types l := by
  induction n generalizing m' with
  | zero =>
    cases h
    exact ⟨hlen, fun l hl => by simp [hm l hl]⟩
  | succ n ih =>
    obtain ⟨m₁, h₁, h₂⟩ := foldlM_range_succ h
    obtain ⟨hlen₁, htypes₁⟩ := ih (by omega) h₁
    rw [verifyLevel] at h₂
    split at h₂
    · cases h₂
    · rw [fixLevelHighwayTypes, if_neg (by omega)] at h₂
      cases h₂
      obtain ⟨hlen₂, htypes₂⟩ := foldl_copyTypes q (show n < m₁.length by omega) le_rfl
      refine ⟨by rw [hlen₂, hlen₁], fun l hl => ?_⟩
      rw [htypes₂]
      rcases lt_trichotomy l n with h | h | h
      · rw [if_pos h, if_pos (by omega), htypes₁ l hl]
        split
        · exact sort_sort _
        · rw [if_pos (by omega)]
      · -- the copies of the lists before it are what is gathered
        subst h
        rw [if_neg (by omega), if_pos rfl, if_neg (by omega), if_pos rfl,
          htypes₁ l hl, if_neg (by omega), if_neg (by omega)]
        cases l with
        | zero => simp [gathered, gather]
        | succ l =>
          rw [gathered, gather, gather_fst, range_succ, flatMap_append]
          congr 2
          · refine flatMap_congr fun k hk => ?_
            have hk := mem_range.mp hk
            rw [htypes₁ k (by omega), if_pos (by omega)]
          · simp [htypes₁ l (by omega), gathered]
      · rw [if_neg (by omega), if_neg (by omega), if_neg (by omega), if_neg (by omega),
          htypes₁ l hl, if_neg (by omega), if_neg (by omega)]

/-- What an accepted configuration leaves in the lists. -/
theorem load_types {parser parser' : CmdlineParser} {jobj : Jsonobject}
    (hosm : parser.srcfileType = .osm) (hlevels : jobj.getMember "levels" = .array jlevels)
    (hload : loadConfigfileParseLevel q parser jobj = .ok parser') :
    ∃ m, parser'.maplevels = some m ∧ ∀ l < jlevels.length, typesAt m l =
      if l + 2 < jlevels.length then q.sort typesSorter (gathered q (readTypesOf jlevels) l)
      else if l + 2 = jlevels.length then gathered q (readTypesOf jlevels) l
      else [] := by
  rw [loadConfigfileParseLevel, if_neg (not_not.mpr hosm), hlevels] at hload
  simp only at hload
  split at hload
  · cases hload
  · next hcnt =>
    have hne : jlevels ≠ [] := fun e => hcnt (by simp [e])
    cases hparse : parseItems jlevels.length 0 jlevels
        (List.replicate (jlevels.length + 1) {}) with
    | error e => simp [hparse, bind, Except.bind] at hload
    | ok m₁ =>
      cases hverify : (List.range jlevels.length).foldlM (verifyLevel q jlevels.length) m₁ with
      | error e => simp [hparse, hverify, bind, Except.bind] at hload
      | ok m =>
        simp only [hparse, hverify, bind, Except.bind, pure, Except.pure, Except.ok.injEq] at hload
        subst hload
        refine ⟨m, rfl, ?_⟩
        obtain ⟨hlen₁, htypes₁⟩ := parseItems_spec [] (by simp) hne (.init _) hparse
        rw [nil_append] at htypes₁
        obtain ⟨n, hn⟩ := Nat.exists_eq_succ_of_ne_zero hcnt
        have hrounds : (List.range (n + 1)).foldlM (verifyLevel q jlevels.length) m₁ = .ok m := by
          rw [← Nat.succ_eq_add_one, ← hn]
          exact hverify
        obtain ⟨m₂, hrun, hround⟩ := foldlM_range_succ hrounds
        obtain ⟨-, htypes₂⟩ := verify_spec (by omega) hlen₁ htypes₁ hrun
        -- the last round copies nothing
        obtain ⟨hnil, rfl⟩ : typesAt m₂ n = [] ∧ m₂ = m := by
          rw [verifyLevel] at hround
          split at hround
          · cases hround
          · rw [fixLevelHighwayTypes, if_pos (by omega)] at hround
            split at hround
            · next hnil =>
              cases hround
              exact ⟨hnil, rfl⟩
            · cases hround
        intro l hl
        by_cases hln : l = n
        · rw [hln, hnil, if_neg (by omega), if_neg (by omega)]
        · rw [htypes₂ l hl]
          split
          · rw [if_pos (by omega)]
          · rw [if_pos (by omega), if_neg (by omega), if_pos (by omega)]

/-! ## What is allowed -/

variable {level : MapLevel}

theorem allowedType_of_ne (h : level.types ≠ []) (type : ℤ) :
    level.allowedType type = bisect level.types type 0 level.types.length := by
  rw [MapLevel.allowedType, if_neg h]

theorem allowedType_of_nil (h : level.types = []) (type : ℤ) :
    level.allowedType type ↔ IsHighwayType type := by
  simp [MapLevel.allowedType, h]

/-- What is read for a level is configured for it. -/
theorem configured_of_read (h : ∃ k ≤ l, type ∈ readTypesOf jlevels k) :
    Configured jlevels l type := by
  obtain ⟨k, hk, hread⟩ := h
  refine ⟨k, hk, ?_⟩
  unfold readTypesOf configuredTypes at hread
  split at hread
  · next jitem hjitem =>
    have hitem : levelItem jlevels k = some jitem := by
      unfold levelItem at hjitem ⊢
      exact (List.dropLast_prefix jlevels).find?_eq_some hjitem
    rw [configuredTypes, hitem]
    exact hread
  · cases hread

/-- **One level** allows what is configured up to it when all of that can be found there. -/
theorem findable_iff
    (htypes : level.types =
      if l + 2 < jlevels.length then q.sort typesSorter (gathered q (readTypesOf jlevels) l)
      else gathered q (readTypesOf jlevels) l)
    (hl : l + 1 < jlevels.length) :
    (∀ type, level.allowedType type ↔ Configured jlevels l type) ↔ Findable q jlevels l := by
  have hmem : ∀ type, type ∈ level.types ↔ ∃ k ≤ l, type ∈ readTypesOf jlevels k := by
    intro type
    rw [htypes]
    split
    · rw [mem_sort, mem_gathered]
    · rw [mem_gathered]
  by_cases hnone : ∀ k ≤ l, readTypesOf jlevels k = []
  · have hread : ¬ ∃ k ≤ l, readTypesOf jlevels k ≠ [] := fun ⟨k, hk, h⟩ => h (hnone k hk)
    have hnil : level.types = [] := by
      refine eq_nil_iff_forall_not_mem.mpr fun type h => ?_
      obtain ⟨k, hk, hread⟩ := (hmem type).mp h
      rw [hnone k hk] at hread
      cases hread
    simp only [allowedType_of_nil hnil]
    refine ⟨fun h => ⟨fun _ type => (h type).mp, fun h' => absurd h' hread,
      fun _ h' => absurd h' hread⟩, fun h type => ⟨h.empty hnone type, Configured.isHighwayType⟩⟩
  · have hread : ∃ k ≤ l, readTypesOf jlevels k ≠ [] := by
      push Not at hnone
      exact hnone
    have hne : level.types ≠ [] := by
      obtain ⟨k, hk, hk_ne⟩ := hread
      obtain ⟨type, htype⟩ := exists_mem_of_ne_nil _ hk_ne
      exact ne_nil_of_mem ((hmem type).mpr ⟨k, hk, htype⟩)
    simp only [allowedType_of_ne hne]
    by_cases hlast : l + 2 = jlevels.length
    · rw [if_neg (by omega)] at htypes
      constructor
      · intro h
        refine ⟨fun h' => absurd h' hnone, fun _ type hconf => ?_, fun _ _ type hconf => ?_⟩
        · exact (hmem type).mp (mem_of_bisect ((h type).mpr hconf))
        · rw [← htypes]
          exact bisect_iff.mp ((h type).mpr hconf)
      · intro h type
        refine ⟨fun hfound => configured_of_read ((hmem type).mp (mem_of_bisect hfound)),
          fun hconf => ?_⟩
        obtain ⟨p, hp⟩ := h.reached hlast hread type hconf
        rw [← htypes] at hp
        exact bisect_iff.mpr ⟨p, hp⟩
    · rw [if_pos (by omega)] at htypes
      have hfound : ∀ type, bisect level.types type 0 level.types.length ↔
          ∃ k ≤ l, type ∈ readTypesOf jlevels k := fun type => by
        rw [bisect_iff_mem (htypes ▸ sorted_sort _), hmem]
      simp only [hfound]
      exact ⟨fun h => ⟨fun h' => absurd h' hnone, fun _ type => (h type).mpr,
          fun h' => absurd h' hlast⟩,
        fun h type => ⟨configured_of_read, h.read hread type⟩⟩

/-- **The levels allow what is configured** exactly when on every level before the last all of that
can be found. -/
theorem allowsConfigured_iff (q : Qsort ℤ) (parser : CmdlineParser) {parser' : CmdlineParser}
    {jobj : Jsonobject} {jlevels : List Jsonobject} (hosm : parser.srcfileType = .osm)
    (hlevels : jobj.getMember "levels" = .array jlevels)
    (hload : loadConfigfileParseLevel q parser jobj = .ok parser') :
    ∃ m, parser'.maplevels = some m ∧
      (AllowsConfigured m jlevels ↔ ∀ l, l + 1 < jlevels.length → Findable q jlevels l) := by
  obtain ⟨m, hm, htypes⟩ := load_types hosm hlevels hload
  refine ⟨m, hm, ?_⟩
  have hbelow : ∀ l, l + 1 < jlevels.length → (m.getD l {}).types =
      if l + 2 < jlevels.length then q.sort typesSorter (gathered q (readTypesOf jlevels) l)
      else gathered q (readTypesOf jlevels) l := by
    intro l hl
    have hl' := htypes l (by omega)
    split at hl'
    · next h => rw [if_pos h]; exact hl'
    · next h => rw [if_neg h]; rwa [if_pos (by omega)] at hl'
  have hlast : ∀ l, l + 1 = jlevels.length → ∀ type,
      (m.getD l {}).allowedType type ↔ IsHighwayType type := by
    intro l hl
    have hl' := htypes l (by omega)
    rw [if_neg (by omega), if_neg (by omega)] at hl'
    exact allowedType_of_nil hl'
  constructor
  · exact fun h l hl => (findable_iff (hbelow l hl) hl).mp (h.below l hl)
  · intro h
    have hallowed := fun l hl => (findable_iff (hbelow l hl) hl).mpr (h l hl)
    refine ⟨hallowed, hlast, fun k l hkl hl type hk => ?_⟩
    rcases hkl.eq_or_lt with rfl | hkl
    · exact hk
    · have hconf := (hallowed k (by omega) type).mp hk
      rcases (Nat.succ_le_of_lt hl).eq_or_lt with hll | hll
      · exact (hlast l hll type).mpr hconf.isHighwayType
      · obtain ⟨j, hj, hconf⟩ := hconf
        exact (hallowed l hll type).mpr ⟨j, by omega, hconf⟩

/-- The items of a file with two levels, the types of the first in descending order. -/
def twoLevels : List Jsonobject := [
  .object [("level", .number 0 0), ("road-types", .array [.string "trunk", .string "motorway"])],
  .object [("level", .number 1 1)]]

def twoLevelsFile : Jsonobject := .object [("levels", .array twoLevels)]

theorem getMember_twoLevelsFile : twoLevelsFile.getMember "levels" = .array twoLevels := by
  simp [twoLevelsFile, Jsonobject.getMember]

theorem load_twoLevelsFile :
    loadConfigfileParseLevel (.insertion ℤ) ⟨.osm, none, false⟩ twoLevelsFile =
      .ok ⟨.osm, some [⟨-1, -1, 0, [1, 0]⟩, ⟨-1, -1, 0, []⟩, {}], true⟩ := by
  decide +kernel

theorem allowsConfigured_iff_twoLevels :
    ∃ m, some [⟨-1, -1, 0, [1, 0]⟩, ⟨-1, -1, 0, []⟩, {}] = some m ∧
      (AllowsConfigured m twoLevels ↔
        ∀ l, l + 1 < twoLevels.length → Findable (.insertion ℤ) twoLevels l) :=
  allowsConfigured_iff (.insertion ℤ) ⟨.osm, none, false⟩ rfl getMember_twoLevelsFile
    load_twoLevelsFile

/-- The type `motorway`, configured for the first level, is not found there. -/
theorem not_allowsConfigured : ¬ ∀ (q : Qsort ℤ) (parser parser' : CmdlineParser)
    (jobj : Jsonobject) (jlevels : List Jsonobject), parser.srcfileType = .osm →
    jobj.getMember "levels" = .array jlevels →
    loadConfigfileParseLevel q parser jobj = .ok parser' →
    ∃ m, parser'.maplevels = some m ∧ AllowsConfigured m jlevels := by
  intro h
  obtain ⟨m, hm, hallows⟩ := h (.insertion ℤ) ⟨.osm, none, false⟩ _ _ _ rfl
    getMember_twoLevelsFile load_twoLevelsFile
  obtain rfl := Option.some.inj hm
  have hconf : Configured twoLevels 0 TagHighway.motorway.toInt := ⟨0, le_rfl, by decide +kernel⟩
  have hallowed := (hallows.below 0 (by decide) _).mpr hconf
  have hnumber : TagHighway.motorway.toInt = 0 := rfl
  rw [hnumber] at hallowed
  simp [MapLevel.allowedType, bisect] at hallowed

end V2I.OsmParser
