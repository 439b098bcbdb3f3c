import Mathlib.Data.Finset.Union
import V2I.Lib.SortedSet
import V2I.MapCore.StoredMap
import V2I.MapCore.TileCache.Query

/-!
# V2I.MapCore.TileCache.Roadobjects

`extract_roadobjects(pts, categories, objects)`: the road objects of some types in the blocks
that a polygon meets. The blocks are visited in the order of their ids, and each visit clears
what the ones before have found.

A road object is known by its tile and its place in the table of the tile. A call has no result
where an assertion fails or a pointer leads nowhere.
-/

namespace V2I.TileCache

open V2I.MapCore List Option
open V2I.StoredMap (robjtypeUnknown robjtypeUnclassfied robjtypeSignalLight robjtypeMax)

/-- A road object: the address of its tile and its index. -/
abbrev Roadobject := ℕ × ℕ

/-- Negative return values of `rendermap_impl::extract_roadobjects`. -/
inductive RoadobjectsError where
  | einvalid
  | enotfound
  deriving DecidableEq

/-- `check_classified_type_validty(categories)` -/
def checkClassifiedTypeValidty (categories : Finset ℕ) : Bool :=
  decide (∀ cat ∈ categories, ¬ cat ≤ robjtypeUnknown ∧ ¬ robjtypeMax ≤ cat)

/-- `getblock(blkid)`: the assertion fails for a tile without blocks. -/
def Rendermap.getblock (map : Rendermap) (blkid : ℕ) : Option (Option Block) :=
  if map.persistence then some map.blocks[blkid]?
  else if map.blocks = [] then none
  else some ((find map.blkids (UInt32.ofNat blkid)).bind (map.blocks[·]?))

/-- The road object that a slot of a tile points to. -/
def pointee (s : TilecacheImpl) (addr : ℕ) : Slot → Option Roadobject
  | .own idx => some (addr, idx)
  | .referring _ => none
  | .object map idx => (getmapByaddrUnlocked s map).map fun _ => (map, idx)

section Calls

variable (g : Grid) (s : TilecacheImpl) (type : Roadobject → ℕ) (categories : Finset ℕ)

/-- Is the road object inserted? -/
def accepts (ro : Roadobject) : Bool :=
  !(type ro = robjtypeUnclassfied) && decide (type ro ∈ categories)

/-- `extract_roadobjects_from_block(block, categories, objects)` -/
def extractRoadobjectsFromBlock (addr : ℕ) :
    List Slot → Finset Roadobject → Option (Finset Roadobject)
  | [], objects => some objects
  | slot :: slots, objects =>
      (pointee s addr slot).bind fun ro =>
        extractRoadobjectsFromBlock addr slots
          (if accepts type categories ro then insert ro objects else objects)

/-- `rendermap_impl::extract_roadobjects(blkid, categories, objects, reset)`: an error leaves
`objects` as they are. -/
def RendermapImpl.extractRoadobjects (map : RendermapImpl) (blkid : ℕ) (objects : Finset Roadobject)
    (reset : Bool) : Option (Except RoadobjectsError (Finset Roadobject)) :=
  if categories = ∅ then some (.error .einvalid)
  else if !checkClassifiedTypeValidty categories then some (.error .einvalid)
  else
    (map.map.getblock blkid).bind fun
      | none => some (.error .enotfound)
      | some block =>
          (extractRoadobjectsFromBlock s type categories map.addr block.roadObjs
            (if reset then ∅ else objects)).map .ok

/-- The loop over the blocks. -/
def extractEach : List ℕ → Finset Roadobject →
    Option (Except RoadobjectsError (Finset Roadobject))
  | [], objects => some (.ok objects)
  | blkid :: blkids, objects =>
      (s.blocks.find (UInt32.ofNat blkid)).bind fun cache =>
        (getmapByaddrUnlocked s cache.map).bind fun map =>
          (map.extractRoadobjects s type categories blkid objects true).bind fun
            | .error e => some (.error e)
            | .ok objects => extractEach blkids objects

/-- `tilecache_impl::extract_roadobjects(pts, categories, objects)` -/
def extractRoadobjects (pts : List (Point ℚ)) (objects : Finset Roadobject) :
    Option (Except Error Unit × Finset Roadobject) :=
  (queryLoadedBlocks g pts).bind fun
    | .error e => some (.error e, objects)
    | .ok blkids =>
        (extractEach s type categories (SortedSet.ofList (fun blkid => blkid) blkids) ∅).map fun
          | .error _ => (.error .einvalid, ∅)
          | .ok objects => (.ok (), objects)

/-! ## The union over the blocks -/

/-- The road objects of a loaded block, which its tile has under this id. -/
def roadobjsOf (blkid : ℕ) : Option (List Roadobject) :=
  (s.blocks.find (UInt32.ofNat blkid)).bind fun cache =>
    (getmapByaddrUnlocked s cache.map).bind fun map =>
      (map.map.getblock blkid).bind fun block =>
        block.bind fun block => block.roadObjs.mapM (pointee s map.addr)

/-- A loaded block has the road object. -/
def Holds (blkid : ℕ) (ro : Roadobject) : Prop := ∃ ros, roadobjsOf s blkid = some ros ∧ ro ∈ ros

/-- A road object of the categories, in a loaded block of the grid that the polygon meets. -/
def Gathered (pts : List (Point ℚ)) (ro : Roadobject) : Prop :=
  type ro ∈ categories ∧ ∃ blkid < g.rows * g.cols,
    blockInPolygon g (normalizePolygon pts) blkid = true ∧ Holds s blkid ro

/-- A call returns 0 and the road objects of all blocks. -/
def GathersUnion (pts : List (Point ℚ)) (objects : Finset Roadobject) : Prop :=
  ∃ objects', extractRoadobjects g s type categories pts objects = some (.ok (), objects') ∧
    ∀ ro, ro ∈ objects' ↔ Gathered g s type categories pts ro

/-- `query_loaded_blocks` reports the block. -/
def Reported (pts : List (Point ℚ)) (blkid : ℕ) : Prop :=
  ∃ blkids, queryLoadedBlocks g pts = some (.ok blkids) ∧ blkid ∈ blkids

/-- The bounding box is in reach, the blocks reported are loaded, and the last of them has what
is to be gathered. -/
structure LastHasAll (pts : List (Point ℚ)) : Prop where
  inReach : BoxInReach g (normalizePolygon pts)
  loaded : ∀ blkid, Reported g pts blkid → (roadobjsOf s blkid).isSome
  last : ∀ ro, Gathered g s type categories pts ro → type ro ≠ robjtypeUnclassfied ∧
    ∃ blkid, IsGreatest { id | Reported g pts id } blkid ∧ Holds s blkid ro

end Calls

variable {g : Grid} {s : TilecacheImpl} {type : Roadobject → ℕ} {categories : Finset ℕ}

theorem accepts_iff {ro : Roadobject} :
    accepts type categories ro = true ↔ type ro ≠ robjtypeUnclassfied ∧ type ro ∈ categories := by
  simp [accepts]

/-! ## One block -/

variable {objects : Finset Roadobject}

/-- The loop over a table inserts the accepted ones. -/
theorem extractRoadobjectsFromBlock_eq {addr : ℕ} {slots : List Slot} :
    extractRoadobjectsFromBlock s type categories addr slots objects =
      (slots.mapM (pointee s addr)).map fun ros =>
        objects ∪ (ros.filter (accepts type categories)).toFinset := by
  induction slots generalizing objects with
  | nil => simp [extractRoadobjectsFromBlock]
  | cons slot slots ih =>
      rw [extractRoadobjectsFromBlock, mapM_cons]
      cases pointee s addr slot with
      | none => rfl
      | some ro =>
          simp only [Option.bind_some, ih, Option.bind_eq_bind, Option.pure_def]
          cases slots.mapM (pointee s addr) with
          | none => rfl
          | some ros =>
              simp only [Option.map_some, Option.bind_some, List.filter_cons]
              split_ifs with h
              · simp
              · rfl

variable {objects' : Finset Roadobject} {blkid : ℕ}

/-- A visit with `reset`. -/
theorem extractRoadobjects_reset (hne : categories ≠ ∅)
    (hvalid : checkClassifiedTypeValidty categories = true) {map : RendermapImpl} :
    map.extractRoadobjects s type categories blkid objects true = some (.ok objects') ↔
      ∃ ros, ((map.map.getblock blkid).bind fun block =>
        block.bind fun block => block.roadObjs.mapM (pointee s map.addr)) = some ros ∧
      objects' = (ros.filter (accepts type categories)).toFinset := by
  rw [RendermapImpl.extractRoadobjects, if_neg hne, if_neg (by simp [hvalid])]
  cases map.map.getblock blkid with
  | none => simp
  | some block =>
      cases block with
      | none => simp
      | some block =>
          simp only [Option.bind_some, if_true, extractRoadobjectsFromBlock_eq, Finset.empty_union,
            Option.map_map, Option.map_eq_some_iff, Function.comp_apply, Except.ok.injEq]
          exact exists_congr fun ros => and_congr_right fun _ => eq_comm

/-! ## The loop -/

variable {blkids : List ℕ}

/-- One round: what was there before is gone. -/
theorem extractEach_cons (hne : categories ≠ ∅)
    (hvalid : checkClassifiedTypeValidty categories = true) :
    extractEach s type categories (blkid :: blkids) objects = some (.ok objects') ↔
      ∃ ros, roadobjsOf s blkid = some ros ∧ extractEach s type categories blkids
        (ros.filter (accepts type categories)).toFinset = some (.ok objects') := by
  rw [extractEach, roadobjsOf]
  cases s.blocks.find (UInt32.ofNat blkid) with
  | none => simp
  | some cache =>
      simp only [Option.bind_some]
      cases getmapByaddrUnlocked s cache.map with
      | none => simp
      | some map =>
          simp only [Option.bind_some]
          constructor
          · intro h
            obtain ⟨r, hr, h⟩ := bind_eq_some_iff.mp h
            cases r with
            | error e => cases h
            | ok objects₁ =>
                obtain ⟨ros, hros, rfl⟩ := (extractRoadobjects_reset hne hvalid).mp hr
                exact ⟨ros, hros, h⟩
          · rintro ⟨ros, hros, h⟩
            rw [(extractRoadobjects_reset hne hvalid).mpr ⟨ros, hros, rfl⟩]
            exact h

/-- **The loop over the blocks** succeeds when all of them are loaded, and leaves the objects of
the last one. -/
theorem extractEach_concat (hne : categories ≠ ∅)
    (hvalid : checkClassifiedTypeValidty categories = true) {last : ℕ} :
    extractEach s type categories (blkids ++ [last]) objects = some (.ok objects') ↔
      (∀ blkid ∈ blkids, (roadobjsOf s blkid).isSome) ∧ ∃ ros, roadobjsOf s last = some ros ∧
        objects' = (ros.filter (accepts type categories)).toFinset := by
  induction blkids generalizing objects with
  | nil =>
      rw [nil_append, extractEach_cons hne hvalid]
      simp only [extractEach, not_mem_nil, false_imp_iff, implies_true, true_and,
        some.injEq, Except.ok.injEq]
      exact exists_congr fun ros => and_congr_right fun _ => eq_comm
  | cons blkid blkids ih =>
      rw [cons_append, extractEach_cons hne hvalid, forall_mem_cons, isSome_iff_exists]
      simp only [ih, ← and_assoc, exists_and_right]

/-! ## A call -/

variable {pts : List (Point ℚ)}

/-- The blocks reported are blocks of the grid that the polygon meets. -/
theorem of_reported (h : Reported g pts blkid) :
    blkid < g.rows * g.cols ∧ blockInPolygon g (normalizePolygon pts) blkid = true := by
  obtain ⟨blkids, hquery, hmem⟩ := h
  unfold queryLoadedBlocks at hquery
  split_ifs at hquery
  · cases hquery
  obtain ⟨⟨ix, iy⟩, hbox, heq⟩ := map_eq_some_iff.mp hquery
  cases heq
  obtain ⟨hcols, -⟩ := getBoundingBlocks_covers hbox
  obtain ⟨⟨⟨-, hrow⟩, -⟩, hmeets⟩ := (mem_getLoadedBlkidsetUnlocked hcols).mp hmem
  refine ⟨?_, hmeets⟩
  simp only [getBoundingBlocks, Option.bind_eq_bind, bind_eq_some_iff] at hbox
  obtain ⟨_, -, _, hy, heq⟩ := hbox
  cases heq
  have hrows := (boundingIndices_spans g.height_pos g.rows_fit (bounds_le _) hy).capped
  rw [Nat.mul_comm]
  exact (Nat.div_lt_iff_lt_mul g.cols_pos).mp (by omega) |>.trans_eq (Nat.mul_comm _ _)

/-- The query returns exactly when the bounding box is in reach. -/
theorem queryLoadedBlocks_eq_some_iff (hpts : 3 ≤ pts.length) :
    (∃ blkids, queryLoadedBlocks g pts = some (.ok blkids)) ↔
      BoxInReach g (normalizePolygon pts) := by
  rw [← getBoundingBlocks_isSome, queryLoadedBlocks, if_neg (not_lt.mpr hpts), isSome_iff_exists]
  simp only [Option.map_eq_some_iff, Except.ok.injEq]
  constructor
  · rintro ⟨_, r, hr, -⟩
    exact ⟨r, hr⟩
  · rintro ⟨r, hr⟩
    exact ⟨_, r, hr, rfl⟩

/-- The ids of a `std::set` in their order. -/
theorem mem_ofList_id : blkid ∈ SortedSet.ofList (fun id => id) blkids ↔ blkid ∈ blkids := by
  constructor
  · exact SortedSet.mem_of_mem_ofList
  · intro h
    obtain ⟨_, hmem, rfl⟩ := SortedSet.exists_mem_ofList (fun id => id) h
    exact hmem

/-- A call whose query returns is the loop over the blocks in the order of their ids. -/
theorem gathersUnion_iff_extractEach (hquery : queryLoadedBlocks g pts = some (.ok blkids)) :
    GathersUnion g s type categories pts objects ↔ ∃ objects',
      extractEach s type categories (SortedSet.ofList (fun id => id) blkids) ∅ =
        some (.ok objects') ∧ ∀ ro, ro ∈ objects' ↔ Gathered g s type categories pts ro := by
  unfold GathersUnion extractRoadobjects
  rw [hquery, Option.bind_some]
  refine exists_congr fun objects' => and_congr_left fun _ => ?_
  rw [Option.map_eq_some_iff]
  constructor
  · rintro ⟨r, hr, h⟩
    cases r <;> cases h
    exact hr
  · exact fun h => ⟨_, h, rfl⟩

theorem reported_iff {id : ℕ} (hquery : queryLoadedBlocks g pts = some (.ok blkids)) :
    Reported g pts id ↔ id ∈ SortedSet.ofList (fun id => id) blkids := by
  rw [mem_ofList_id]
  constructor
  · rintro ⟨_, hquery', hmem⟩
    cases hquery.symm.trans hquery'
    exact hmem
  · exact fun hmem => ⟨blkids, hquery, hmem⟩

/-- Where no block is reported, nothing may be there to gather. -/
theorem lastHasAll_iff_of_none (hreach : BoxInReach g (normalizePolygon pts))
    (hnone : ∀ id, ¬ Reported g pts id) :
    LastHasAll g s type categories pts ↔ ∀ ro, ¬ Gathered g s type categories pts ro := by
  constructor
  · intro h ro hro
    obtain ⟨-, id, hid, -⟩ := h.last ro hro
    exact hnone id hid.1
  · intro h
    exact ⟨hreach, fun id hid => absurd hid (hnone id), fun ro hro => absurd hro (h ro)⟩

/-- Where `last` is the last block reported, its objects of the categories are what is there to
gather. -/
theorem lastHasAll_iff_of_last {last : ℕ} (hreach : BoxInReach g (normalizePolygon pts))
    (hlast : IsGreatest { id | Reported g pts id } last) :
    LastHasAll g s type categories pts ↔
      (∀ id, Reported g pts id → (roadobjsOf s id).isSome) ∧
        ∃ ros, roadobjsOf s last = some ros ∧
          ∀ ro, ro ∈ (ros.filter (accepts type categories)).toFinset ↔
            Gathered g s type categories pts ro := by
  constructor
  · intro h
    obtain ⟨ros, hros⟩ := isSome_iff_exists.mp (h.loaded last hlast.1)
    refine ⟨h.loaded, ros, hros, fun ro => ?_⟩
    rw [List.mem_toFinset, mem_filter, accepts_iff]
    constructor
    · rintro ⟨hro, -, htype⟩
      obtain ⟨hlt, hmeets⟩ := of_reported hlast.1
      exact ⟨htype, last, hlt, hmeets, ros, hros, hro⟩
    · intro hro
      obtain ⟨htype, id, hid, ros', hros', hmem⟩ := h.last ro hro
      rw [hid.unique hlast, hros, some.injEq] at hros'
      exact ⟨hros' ▸ hmem, htype, hro.1⟩
  · rintro ⟨hloaded, ros, hros, hmem⟩
    refine ⟨hreach, hloaded, fun ro hro => ?_⟩
    have hro := (hmem ro).mpr hro
    rw [List.mem_toFinset, mem_filter, accepts_iff] at hro
    exact ⟨hro.2.1, last, hlast, ros, hros, hro.1⟩

theorem gathersUnion_iff_of_query (hne : categories ≠ ∅)
    (hvalid : checkClassifiedTypeValidty categories = true)
    (hreach : BoxInReach g (normalizePolygon pts))
    (hquery : queryLoadedBlocks g pts = some (.ok blkids)) :
    GathersUnion g s type categories pts objects ↔ LastHasAll g s type categories pts := by
  have hreported : ∀ id, Reported g pts id ↔ id ∈ SortedSet.ofList (fun id => id) blkids :=
    fun _ => reported_iff hquery
  have hsorted : (SortedSet.ofList (fun id => id) blkids).Pairwise (· < ·) :=
    SortedSet.ofList_sorted blkids
  rw [gathersUnion_iff_extractEach hquery]
  rcases eq_nil_or_concat (SortedSet.ofList (fun id => id) blkids) with
    hnil | ⟨init, last, hset⟩
  · rw [hnil] at hreported ⊢
    rw [lastHasAll_iff_of_none hreach fun id hid => not_mem_nil ((hreported id).mp hid)]
    simp only [extractEach, some.injEq, Except.ok.injEq, exists_eq_left',
      Finset.notMem_empty, false_iff]
  · rw [concat_eq_append] at hset
    rw [hset] at hreported hsorted ⊢
    have hlast : IsGreatest { id | Reported g pts id } last := by
      refine ⟨(hreported last).mpr (by simp), fun id hid => ?_⟩
      rcases mem_append.mp ((hreported id).mp hid) with hid | hid
      · exact ((pairwise_append.mp hsorted).2.2 id hid last (by simp)).le
      · exact (mem_singleton.mp hid).le
    rw [lastHasAll_iff_of_last hreach hlast]
    simp only [extractEach_concat hne hvalid, hreported, forall_mem_append, forall_mem_singleton]
    constructor
    · rintro ⟨_, ⟨hinit, ros, hros, rfl⟩, hmem⟩
      exact ⟨⟨hinit, by rw [hros]; rfl⟩, ros, hros, hmem⟩
    · rintro ⟨⟨hinit, -⟩, ros, hros, hmem⟩
      exact ⟨_, ⟨hinit, ros, hros, rfl⟩, hmem⟩

/-- **`extract_roadobjects`** gathers the road objects of all blocks exactly when the last of
them has what is to be gathered. -/
theorem gathersUnion_iff (g : Grid) (s : TilecacheImpl) (type : Roadobject → ℕ)
    (categories : Finset ℕ) (pts : List (Point ℚ)) (objects : Finset Roadobject)
    (hpts : 3 ≤ pts.length) (hne : categories ≠ ∅)
    (hvalid : ∀ cat ∈ categories, robjtypeUnknown < cat ∧ cat < robjtypeMax) :
    GathersUnion g s type categories pts objects ↔ LastHasAll g s type categories pts := by
  have hcheck : checkClassifiedTypeValidty categories = true := by
    rw [checkClassifiedTypeValidty, decide_eq_true_iff]
    exact fun cat hcat => ⟨not_le.mpr (hvalid cat hcat).1, not_le.mpr (hvalid cat hcat).2⟩
  by_cases hreach : BoxInReach g (normalizePolygon pts)
  · obtain ⟨blkids, hquery⟩ := (queryLoadedBlocks_eq_some_iff hpts).mpr hreach
    exact gathersUnion_iff_of_query hne hcheck hreach hquery
  · refine iff_of_false ?_ fun h => hreach h.inReach
    rintro ⟨_, hcall, -⟩
    obtain ⟨r, hquery, hcall⟩ := bind_eq_some_iff.mp hcall
    cases r with
    | error e => cases hcall
    | ok blkids => exact hreach ((queryLoadedBlocks_eq_some_iff hpts).mp ⟨blkids, hquery⟩)

/-- A tile with two blocks beside each other, each of which has a road object. -/
def twoRoadobjects : TilecacheImpl where
  blocks := (StdMap.empty.insert 0 ⟨false, 1, 0⟩).insert 1 ⟨false, 1, 1⟩
  inactiveBlocks := .empty
  approachs := .empty
  maplist := [⟨1, 0, 2, ⟨false, false, 1, 2,
    [⟨0, 0, [], [], [.own 0], []⟩, ⟨0, 1, [], [], [.own 1], []⟩], [], [], [7, 8]⟩⟩]
  mapinfo := 1

/-- A triangle over the first two blocks. -/
def wideTriangle : List (Point ℚ) := [⟨2, 2⟩, ⟨18, 2⟩, ⟨2, 8⟩]

/-- Signal lights, in the first block alone. -/
theorem gathersUnion_iff_inner : 3 ≤ innerTriangle.length ∧
    (GathersUnion fourBlocks twoRoadobjects (fun _ => robjtypeSignalLight) {robjtypeSignalLight}
        innerTriangle ∅ ↔
      LastHasAll fourBlocks twoRoadobjects (fun _ => robjtypeSignalLight) {robjtypeSignalLight}
        innerTriangle) :=
  ⟨by decide, gathersUnion_iff _ _ _ _ _ _ (by decide) (by decide) (by decide)⟩

/-- The object of the first block is lost. -/
theorem not_gathersUnion_wide : 3 ≤ wideTriangle.length ∧
    extractRoadobjects fourBlocks twoRoadobjects (fun _ => robjtypeSignalLight)
      {robjtypeSignalLight} wideTriangle ∅ = some (.ok (), {(1, 1)}) ∧
    ¬ GathersUnion fourBlocks twoRoadobjects (fun _ => robjtypeSignalLight)
      {robjtypeSignalLight} wideTriangle ∅ := by
  have hcall : extractRoadobjects fourBlocks twoRoadobjects (fun _ => robjtypeSignalLight)
      {robjtypeSignalLight} wideTriangle ∅ = some (.ok (), {(1, 1)}) := by
    decide +kernel
  refine ⟨by decide, hcall, ?_⟩
  rintro ⟨objects', hcall', hmem⟩
  obtain rfl : {(1, 1)} = objects' := by simpa [hcall] using hcall'
  have hlost : Gathered fourBlocks twoRoadobjects (fun _ => robjtypeSignalLight)
      {robjtypeSignalLight} wideTriangle (1, 0) :=
    ⟨by decide, 0, by decide, by decide +kernel, [(1, 0)], by decide, by decide⟩
  exact absurd ((hmem (1, 0)).mpr hlost) (by decide)

end V2I.TileCache
