import V2I.MapCore.TileCache.FixBlocks

/-!
# V2I.MapCore.TileCache.AddTile

`add_tile`, and what is left of a tile that it does not accept.

Two results of `add_tile` go through `fix_blocks_unlocked`; `addTile_spec` says what both
of them do to the cache. A tile that fails is taken out again with all of its block ids,
also those that another tile has brought, and references that it has already taken stay
counted.
-/

namespace V2I.TileCache

open List Option

/-- A state of the cache after some calls. -/
def Reachable (s : TilecacheImpl) : Prop :=
  ∃ calls replies, Machine.run step .new calls = some (s, replies)

/-- The addresses of the tiles in the list. -/
def TilecacheImpl.addrs (s : TilecacheImpl) : List ℕ := s.maplist.map RendermapImpl.addr

theorem alloc_not_mem (s : TilecacheImpl) : alloc s ∉ s.addrs := by
  have hbound : ∀ l : List ℕ, ∀ a ∈ l, a ≤ l.foldr max 0 := by
    intro l
    induction l with
    | nil => simp
    | cons b l ih =>
        simp only [forall_mem_cons, foldr_cons]
        exact ⟨le_max_left _ _, fun a ha => (ih a ha).trans (le_max_right _ _)⟩
  intro h
  have := hbound _ _ h
  simp only [alloc, TilecacheImpl.addrs] at this
  omega

/-! ## Loading -/

/-- The uuid of a tile is the one of the cache, or the cache has no tile. -/
def UuidFits (s : TilecacheImpl) (map : Rendermap) : Prop := s.maplist = [] ∨ s.mapinfo = map.uuid

/-- A tile as `add_tile` puts it into the list. -/
def newMap (s : TilecacheImpl) (map : Rendermap) : RendermapImpl := ⟨alloc s, 0, map.blocks.length, map⟩

/-- The cache with a tile whose references are resolved. -/
def loaded (s : TilecacheImpl) (map : Rendermap) (blocks : List Block) (n : ℕ → ℕ) : TilecacheImpl :=
  addApproach { (checkUuidUnlocked s map).2 with
    blocks := (cachesOf (newMap s map)).foldl (fun m e => m.insert e.1 e.2) s.blocks
    maplist := charge n s.maplist ++ [{ newMap s map with map := { map with blocks := blocks } }] } map

/-- The cache without a tile that could not be loaded. -/
def rejected (s : TilecacheImpl) (map : Rendermap) (n : ℕ → ℕ) : TilecacheImpl :=
  { s with
    blocks := map.blkids.foldl StdMap.erase
      ((cachesOf (newMap s map)).foldl (fun m e => m.insert e.1 e.2) s.blocks)
    maplist := charge n s.maplist
    mapinfo := if s.maplist = [] then 0 else s.mapinfo }

variable {s : TilecacheImpl}

theorem checkUuidUnlocked_eq {map : Rendermap} (h : UuidFits s map) :
    ∃ mapinfo, checkUuidUnlocked s map = (true, { s with mapinfo := mapinfo }) ∧
      (s.maplist ≠ [] → mapinfo = s.mapinfo) := by
  unfold checkUuidUnlocked
  by_cases hlist : s.maplist = []
  · by_cases hinfo : s.mapinfo = 0
    · exact ⟨map.uuid, by rw [if_pos hlist, if_pos hinfo], fun h => absurd hlist h⟩
    · exact ⟨s.mapinfo, by rw [if_pos hlist, if_neg hinfo], fun _ => rfl⟩
  · have huuid : s.mapinfo = map.uuid := h.resolve_left hlist
    exact ⟨s.mapinfo, by rw [if_neg hlist, decide_eq_true huuid], fun _ => rfl⟩

/-- **`add_tile` on a tile with blocks**: it is loaded when all of its references resolve,
and thrown out again otherwise. -/
theorem addTile_spec (hs : s.addrs.Nodup) {tile : TileBuffer} (hp : tile.persistence = false)
    (hinfo : tile.mapinfoOnly = false) (huuid : UuidFits s tile.toRendermap) :
    ∃ n, (∃ blocks, addTile s (.ok tile) =
        some (loaded s tile.toRendermap blocks n, .ok tile.blocks.length) ∧
      (∀ ref ∈ tile.references, Resolves s.maplist ref) ∧
      objects (blocks.flatMap Block.slots) = n ∧
      (∀ blk ∈ blocks, ∀ slot ∈ blk.slots, Fixed s.maplist slot) ∧
      ∀ cols, blocks.map (blkid cols) = tile.blocks.map (blkid cols)) ∨
    (addTile s (.ok tile) = some (rejected s tile.toRendermap n, .error .fix) ∧
      Fails s.maplist tile.references n) := by
  have hfresh := alloc_not_mem s
  obtain ⟨mapinfo, hcheck, hmapinfo⟩ := checkUuidUnlocked_eq huuid
  have hpays := @fixBlocks_pays s.maplist (newMap s tile.toRendermap) hs hfresh _ tile.closed
  obtain ⟨n, hn⟩ := hpays 0
  rw [charge_zero, zero_add] at hn
  have hne : ∀ m ∈ charge n s.maplist, m.addr ≠ alloc s := by
    intro m hm heq
    refine hfresh ?_
    rw [TilecacheImpl.addrs, ← addr_charge n, ← heq]
    exact List.mem_map_of_mem hm
  refine ⟨n, ?_⟩
  rcases hn with ⟨blocks, hfix, hres, hpaid, hobj, hfixed, hids⟩ | ⟨hfix, hfails⟩
  · refine .inl ⟨blocks, ?_, hres, hobj, hfixed, hids⟩
    have hmap : (charge n s.maplist).map (fun m => if m.addr = alloc s then
        { m with map := { m.map with blocks := blocks } } else m) = charge n s.maplist := by
      conv_rhs => rw [← map_id (charge n s.maplist)]
      refine List.map_congr_left fun m hm => ?_
      rw [if_neg (hne m hm)]
      rfl
    simp only [addTile, hp, hinfo, hcheck, Bool.false_eq_true, if_false, updateBlockmapUnlocked]
    simp only [newMap] at hfix
    rw [hfix]
    simp only [TilecacheImpl.updateMap, map_append, hmap, loaded, hcheck, newMap]
    simp
  · refine .inr ⟨?_, hfails⟩
    have hfilter : (charge n s.maplist ++ [newMap s tile.toRendermap]).filter
        (fun m => m.addr ≠ alloc s) = charge n s.maplist := by
      rw [filter_append, filter_eq_self.mpr fun m hm => by simpa using hne m hm]
      simp [newMap]
    have hempty : charge n s.maplist = [] ↔ s.maplist = [] := by simp [charge]
    simp only [addTile, hp, hinfo, hcheck, Bool.false_eq_true, if_false, updateBlockmapUnlocked]
    simp only [newMap] at hfix hfilter
    rw [hfix]
    simp only [releaseMapUnlocked, removeBlockmapUnlocked, hfilter, hempty, rejected, newMap]
    by_cases hlist : s.maplist = []
    · simp [hlist]
    · simp [hlist, hmapinfo hlist]

/-! ## The addresses of the tiles -/

theorem addrs_updateMap {addr : ℕ} {f : RendermapImpl → RendermapImpl}
    (hf : ∀ m, (f m).addr = m.addr) : (s.updateMap addr f).addrs = s.addrs := by
  simp only [TilecacheImpl.addrs, TilecacheImpl.updateMap, List.map_map]
  refine List.map_congr_left fun m _ => ?_
  simp only [Function.comp_apply]
  split <;> simp [hf]

variable {s' : TilecacheImpl}

theorem addrs_releaseMapUnlocked {map : RendermapImpl} (h : releaseMapUnlocked s map = some s') :
    s'.addrs.Sublist s.addrs := by
  unfold releaseMapUnlocked at h
  extract_lets t maplist at h
  split at h
  · cases h
  · cases h
    exact filter_sublist.map _

theorem addrs_checkRelease {addr : ℕ} (h : checkReleaseRendermapUnlocked s addr = some s') :
    s'.addrs.Sublist s.addrs := by
  unfold checkReleaseRendermapUnlocked at h
  split at h
  · cases h
  · split_ifs at h
    · cases h
      exact List.Sublist.refl _
    · exact addrs_releaseMapUnlocked h

theorem addrs_releaseRefs {own : ℕ} {slots : List Slot} (h : releaseRefs own s slots = some s') :
    s'.addrs.Sublist s.addrs := by
  induction slots generalizing s with
  | nil =>
      cases h
      exact List.Sublist.refl _
  | cons slot slots ih =>
      cases slot with
      | own idx => exact ih h
      | referring id => cases h
      | object map idx =>
          rw [releaseRefs] at h
          split_ifs at h
          · exact ih h
          · split at h
            · cases h
            · split at h
              · cases h
              · next t ht =>
                  have hsub := addrs_checkRelease ht
                  rw [addrs_updateMap (by intro m; rfl)] at hsub
                  exact (ih h).trans hsub

theorem addrs_releaseBlockUnlocked {cache : BlockCache} (h : releaseBlockUnlocked s cache = some s')
    : s'.addrs.Sublist s.addrs := by
  unfold releaseBlockUnlocked at h
  simp only [bind_eq_bind, bind_eq_some_iff] at h
  obtain ⟨blk, -, s₁, h₁, s₂, h₂, s₃, h₃, h₄⟩ := h
  have hsub := addrs_checkRelease h₄
  rw [addrs_updateMap (by intro m; rfl)] at hsub
  exact hsub.trans ((addrs_releaseRefs h₃).trans ((addrs_releaseRefs h₂).trans (addrs_releaseRefs h₁)))

/-- What one id does to the addresses, a list of ids does. -/
theorem addrs_foldlM {f : TilecacheImpl → UInt32 → Option TilecacheImpl}
    (hf : ∀ s id s', f s id = some s' → s'.addrs.Sublist s.addrs) {ids : List UInt32}
    (h : ids.foldlM f s = some s') : s'.addrs.Sublist s.addrs := by
  induction ids generalizing s with
  | nil =>
      cases h
      exact List.Sublist.refl _
  | cons id ids ih =>
      simp only [foldlM_cons, bind_eq_bind, bind_eq_some_iff] at h
      obtain ⟨t, ht, h⟩ := h
      exact (ih h).trans (hf s id t ht)

theorem addrs_unlockBlock (s : TilecacheImpl) (id : UInt32) (s' : TilecacheImpl)
    (h : unlockBlock s id = some s') : s'.addrs.Sublist s.addrs := by
  unfold unlockBlock at h
  split at h
  · split at h
    · cases h
      exact List.Sublist.refl _
    · have hsub := addrs_releaseBlockUnlocked h
      exact hsub
  · cases h
    exact List.Sublist.refl _

theorem addrs_releaseBlock (s : TilecacheImpl) (id : UInt32) (s' : TilecacheImpl)
    (h : releaseBlock s id = some s') : s'.addrs.Sublist s.addrs := by
  unfold releaseBlock at h
  split at h
  · cases h
    exact List.Sublist.refl _
  · split_ifs at h
    · cases h
      exact List.Sublist.refl _
    · have hsub := addrs_releaseBlockUnlocked h
      exact hsub

theorem addTile_of_not_uuidFits {tile : TileBuffer} (hp : tile.persistence = false)
    (huuid : ¬ UuidFits s tile.toRendermap) : addTile s (.ok tile) = none := by
  obtain ⟨hlist, hinfo⟩ := not_or.mp huuid
  have hcheck : checkUuidUnlocked s tile.toRendermap = (false, s) := by
    rw [checkUuidUnlocked, if_neg hlist, decide_eq_false hinfo]
  have hall : s.maplist.all (fun m => m.addr ≠ alloc s) = true := by
    rw [List.all_eq_true]
    intro m hm
    have hmem : m.addr ∈ s.addrs := List.mem_map_of_mem hm
    simpa using fun heq : m.addr = alloc s => alloc_not_mem s (heq ▸ hmem)
  simp only [addTile, hp, hcheck, Bool.false_eq_true, if_false, releaseMapUnlocked,
    removeBlockmapUnlocked, hall, if_true, map_none]

variable {buffer : Except Error TileBuffer} {reply : Except Error ℕ}

/-- **What `add_tile` does when it returns**: it leaves the blocks and the tiles as they are, or
it has loaded a tile, or it has thrown it out again. -/
theorem addTile_cases (h : addTile s buffer = some (s', reply)) (hs : s.addrs.Nodup) :
    (s'.blocks = s.blocks ∧ s'.maplist = s.maplist) ∨
    ∃ tile n, buffer = .ok tile ∧ tile.persistence = false ∧ tile.mapinfoOnly = false ∧
      ((∃ blocks, s' = loaded s tile.toRendermap blocks n ∧
        (∀ blk ∈ blocks, ∀ slot ∈ blk.slots, Fixed s.maplist slot) ∧
        ∀ cols, blocks.map (blkid cols) = tile.blocks.map (blkid cols)) ∨
      (s' = rejected s tile.toRendermap n ∧ Fails s.maplist tile.references n)) := by
  cases buffer with
  | error e =>
      cases h
      exact .inl ⟨rfl, rfl⟩
  | ok tile =>
      cases hp : tile.persistence with
      | true =>
          simp only [addTile, hp, if_true] at h
          cases h
          exact .inl ⟨rfl, rfl⟩
      | false =>
          by_cases huuid : UuidFits s tile.toRendermap
          · cases hinfo : tile.mapinfoOnly with
            | true =>
                obtain ⟨mapinfo, hcheck, -⟩ := checkUuidUnlocked_eq huuid
                simp only [addTile, hp, hcheck, hinfo, Bool.false_eq_true, if_false, if_true] at h
                cases h
                exact .inl ⟨rfl, rfl⟩
            | false =>
                obtain ⟨n, ⟨blocks, heq, -, -, hfixed, hids⟩ | ⟨heq, hfails⟩⟩ :=
                  addTile_spec hs hp hinfo huuid
                · rw [heq] at h
                  cases h
                  exact .inr ⟨tile, n, rfl, hp, hinfo, .inl ⟨blocks, rfl, hfixed, hids⟩⟩
                · rw [heq] at h
                  cases h
                  exact .inr ⟨tile, n, rfl, hp, hinfo, .inr ⟨rfl, hfails⟩⟩
          · rw [addTile_of_not_uuidFits hp huuid] at h
            cases h

theorem nodup_addTile (h : addTile s buffer = some (s', reply)) (hs : s.addrs.Nodup) :
    s'.addrs.Nodup := by
  obtain ⟨-, hmaps⟩ | ⟨tile, n, -, -, -, ⟨blocks, rfl, -⟩ | ⟨rfl, -⟩⟩ := addTile_cases h hs
  · rwa [TilecacheImpl.addrs, hmaps]
  · have hfresh := alloc_not_mem s
    simp only [TilecacheImpl.addrs, loaded, addApproach, map_append, addr_charge,
      newMap] at hs hfresh ⊢
    exact hs.append (by simp) (by simpa using hfresh)
  · simpa [TilecacheImpl.addrs, rejected] using hs

/-- **Tiles have different addresses** in every reachable state. -/
theorem Reachable.nodup (h : Reachable s) : s.addrs.Nodup := by
  obtain ⟨calls, replies, hrun⟩ := h
  refine (Machine.run_invariant (I := fun s => s.addrs.Nodup) (Q := fun _ => True) ?_ hrun
    nodup_nil).1
  intro s call s' reply hstep hs
  refine ⟨?_, trivial⟩
  cases call with
  | addTile buffer => exact nodup_addTile hstep hs
  | lockBlocks blkids =>
      have hmaps : (lockBlocks s blkids).1.addrs = s.addrs := by
        unfold lockBlocks
        split_ifs <;> rfl
      have hfst : (lockBlocks s blkids).1 = s' := congrArg Prod.fst (some.inj hstep)
      rwa [← hfst, hmaps]
  | unlockBlocks blkids =>
      simp only [step, unlockBlocks] at hstep
      split_ifs at hstep
      · cases hstep
        exact hs
      · cases hstep
        exact hs
      · obtain ⟨t, ht, heq⟩ := map_eq_some_iff.mp hstep
        cases heq
        exact (addrs_foldlM addrs_unlockBlock ht).nodup hs
  | releaseBlocks blkids =>
      simp only [step, releaseBlocks] at hstep
      split_ifs at hstep
      · cases hstep
        exact hs
      · obtain ⟨t, ht, heq⟩ := map_eq_some_iff.mp hstep
        cases heq
        exact (addrs_foldlM addrs_releaseBlock ht).nodup hs

/-! ## Tiles that are not accepted -/

/-- The same blocks, the same tiles, and the same reference counts. -/
structure SameCache (s s' : TilecacheImpl) : Prop where
  blocks : ∀ id, s'.blocks.find id = s.blocks.find id
  maps : s'.maplist.map RendermapImpl.addr = s.maplist.map RendermapImpl.addr
  refcnt : s'.maplist.map RendermapImpl.refcnt = s.maplist.map RendermapImpl.refcnt

/-- `add_tile` returns, and a cache that has returned an error is as it was. -/
def KeepsCacheOnError (s : TilecacheImpl) (buffer : Except Error TileBuffer) : Prop :=
  ∃ s' reply, addTile s buffer = some (s', reply) ∧ ((∃ e, reply = .error e) → SameCache s s')

/-- The tile has the uuid of the cache, and where a reference does not resolve, it is the
first one, and no block of the tile is in the cache. -/
def ErrorSafe (s : TilecacheImpl) : Except Error TileBuffer → Prop
  | .error _ => True
  | .ok tile => tile.persistence = true ∨ (UuidFits s tile.toRendermap ∧
      (tile.mapinfoOnly = true ∨ (∀ ref ∈ tile.references, Resolves s.maplist ref) ∨
        ((∀ ref ∈ tile.references.head?, ¬ Resolves s.maplist ref) ∧
          ∀ id ∈ tile.blkids, id ∉ s.blocks.keys)))

theorem keys_cachesOf (rmap : RendermapImpl) : (cachesOf rmap).map Prod.fst = rmap.map.blkids := by
  refine List.ext_getElem? fun i => ?_
  simp only [cachesOf, Rendermap.blkids, List.getElem?_map, List.getElem?_mapIdx, Option.map_map]
  rfl

/-- The blocks of a tile that was thrown out are gone, whoever has brought them. -/
theorem find_blocks_rejected (s : TilecacheImpl) (map : Rendermap) (n : ℕ → ℕ) (id : UInt32) :
    (rejected s map n).blocks.find id = if id ∈ map.blkids then none else s.blocks.find id := by
  simp only [rejected, StdMap.find_foldl_erase]
  split_ifs with hid
  · rfl
  · exact StdMap.find_foldl_insert_of_not_mem (by rwa [keys_cachesOf]) _

variable {n : ℕ → ℕ} {maps : List RendermapImpl}

theorem refcnt_charge_eq_iff :
    (charge n maps).map RendermapImpl.refcnt = maps.map RendermapImpl.refcnt ↔
      ∀ m ∈ maps, n m.addr = 0 := by
  simp [charge, map_inj_left]

/-- A tile that was thrown out leaves the cache as it was when it paid for nothing and had
new blocks only. -/
theorem sameCache_rejected_iff {map : Rendermap} :
    SameCache s (rejected s map n) ↔
      (∀ m ∈ s.maplist, n m.addr = 0) ∧ ∀ id ∈ map.blkids, id ∉ s.blocks.keys := by
  constructor
  · intro h
    refine ⟨refcnt_charge_eq_iff.mp h.refcnt, fun id hid => ?_⟩
    have hfind := h.blocks id
    rw [find_blocks_rejected, if_pos hid] at hfind
    exact StdMap.find_eq_none_iff.mp hfind.symm
  · rintro ⟨hn, hids⟩
    refine ⟨fun id => ?_, by simp [rejected], refcnt_charge_eq_iff.mpr hn⟩
    rw [find_blocks_rejected]
    split_ifs with hid
    · exact (StdMap.find_eq_none_iff.mpr (hids id hid)).symm
    · rfl

/-- Nothing was paid for when the first reference does not resolve. -/
theorem fails_unpaid_iff {refs : List Ref} (h : Fails maps refs n) :
    (∀ m ∈ maps, n m.addr = 0) ↔ ∀ ref ∈ refs.head?, ¬ Resolves maps ref := by
  obtain ⟨paid, ref, rest, rfl, hres, hnot, hpaid⟩ := h
  cases paid with
  | nil => simp [hpaid.1 rfl, hnot]
  | cons p paid =>
      obtain ⟨m, hm, hpos⟩ := hpaid.2 (by simp)
      have hp : Resolves maps p := hres p (by simp)
      simp only [cons_append, head?_cons, mem_some_iff, forall_eq', hp,
        not_true_eq_false, iff_false]
      exact fun h => hpos.ne' (h m hm)

/-- **An error keeps the cache** exactly for the tiles of `ErrorSafe`. -/
theorem keepsCacheOnError_iff {s : TilecacheImpl} (hs : Reachable s)
    (buffer : Except Error TileBuffer) : KeepsCacheOnError s buffer ↔ ErrorSafe s buffer := by
  have hrefl : SameCache s s := ⟨fun _ => rfl, rfl, rfl⟩
  cases buffer with
  | error e => exact ⟨fun _ => trivial, fun _ => ⟨s, .error e, rfl, fun _ => hrefl⟩⟩
  | ok tile =>
      cases hp : tile.persistence with
      | true =>
          have heq : addTile s (.ok tile) = some (s, .error .enotsupport) := by
            simp only [addTile, hp, if_true]
          exact ⟨fun _ => .inl hp, fun _ => ⟨s, _, heq, fun _ => hrefl⟩⟩
      | false =>
          by_cases huuid : UuidFits s tile.toRendermap
          · cases hinfo : tile.mapinfoOnly with
            | true =>
                obtain ⟨mapinfo, hcheck, -⟩ := checkUuidUnlocked_eq huuid
                have heq : addTile s (.ok tile) = some ({ s with mapinfo := mapinfo }, .ok 0) := by
                  simp only [addTile, hp, hcheck, hinfo, Bool.false_eq_true, if_false, if_true]
                exact ⟨fun _ => .inr ⟨huuid, .inl hinfo⟩,
                  fun _ => ⟨_, _, heq, fun ⟨_, h⟩ => by cases h⟩⟩
            | false =>
                obtain ⟨n, ⟨blocks, heq, hres, -⟩ | ⟨heq, hfails⟩⟩ :=
                  addTile_spec hs.nodup hp hinfo huuid
                · exact ⟨fun _ => .inr ⟨huuid, .inr (.inl hres)⟩,
                    fun _ => ⟨_, _, heq, fun ⟨_, h⟩ => by cases h⟩⟩
                · -- some reference does not resolve, so the second case of `ErrorSafe` is out
                  have hnot : ¬ ∀ ref ∈ tile.references, Resolves s.maplist ref := by
                    obtain ⟨paid, ref, rest, hrefs, -, hnot, -⟩ := hfails
                    exact fun h => hnot (h ref (by simp [hrefs]))
                  have hsame : KeepsCacheOnError s (.ok tile) ↔
                      SameCache s (rejected s tile.toRendermap n) := by
                    simp [KeepsCacheOnError, heq]
                  rw [hsame, sameCache_rejected_iff, fails_unpaid_iff hfails]
                  simp only [ErrorSafe, hp, hinfo, huuid, hnot, Bool.false_eq_true, false_or, true_and]
          · have heq := addTile_of_not_uuidFits hp huuid
            simp [KeepsCacheOnError, ErrorSafe, heq, hp, huuid]

/-- A tile with one block in row 0. -/
def oneBlock (col : Int32) (roadSegs : List Slot) (roadsegs : List UInt32)
    (h : ∀ slot ∈ roadSegs, ∀ map idx, slot ≠ .object map idx) : TileBuffer where
  persistence := false
  mapinfoOnly := false
  uuid := 1
  cols := 4
  blocks := [⟨0, col, roadSegs, [], [], []⟩]
  roadsegs := roadsegs
  lanesecs := []
  roadobjs := []
  closed := by simpa [Block.slots] using h

/-- A tile with block 0 and a road segment of its own. -/
def ownSegment : TileBuffer := oneBlock 0 [.own 0] [7] (by simp)

/-- The cache with this tile. -/
def oneTile : TilecacheImpl where
  blocks := StdMap.empty.insert 0 ⟨false, 1, 0⟩
  inactiveBlocks := .empty
  approachs := .empty
  maplist := [⟨1, 0, 1, ownSegment.toRendermap⟩]
  mapinfo := 1

theorem reachable_oneTile : Reachable oneTile :=
  ⟨[.addTile (.ok ownSegment)], [.ok 1], by rfl⟩

/-- Block 1 refers to the segment of `ownSegment`, but first to one that is not there. -/
theorem keepsCacheOnError_iff_oneTile :
    KeepsCacheOnError oneTile (.ok (oneBlock 1 [.referring 7, .referring 9] [] (by simp))) :=
  (keepsCacheOnError_iff reachable_oneTile _).mpr
    (.inr ⟨.inr rfl, .inr (.inr ⟨by decide, forall_mem_singleton.mpr (by decide)⟩)⟩)

/-- In the other order the reference that resolves stays counted. And a tile that brings
block 0 again takes it out of the cache. -/
theorem not_keepsCacheOnError_oneTile : Reachable oneTile ∧
    ¬ KeepsCacheOnError oneTile (.ok (oneBlock 1 [.referring 9, .referring 7] [] (by simp))) ∧
    ¬ KeepsCacheOnError oneTile (.ok (oneBlock 0 [.referring 9] [] (by simp))) := by
  refine ⟨reachable_oneTile, ?_, ?_⟩
  · rintro ⟨s', reply, hadd, hsame⟩
    cases hadd
    exact absurd (hsame ⟨_, rfl⟩).refcnt (by decide)
  · rintro ⟨s', reply, hadd, hsame⟩
    cases hadd
    exact absurd ((hsame ⟨_, rfl⟩).blocks 0) (by decide)

end V2I.TileCache
