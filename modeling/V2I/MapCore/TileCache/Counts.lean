import V2I.MapCore.TileCache.AddTile
import V2I.MapCore.TileCache.Ledger

/-!
# V2I.MapCore.TileCache.Counts

The counts of the tile cache are exact (`CountsExact`) in every run whose tiles fit
(`Fits`).

A tile fits when its blocks are new to the cache: a block id that a loaded tile has
brought, also one that was released since, is counted or taken out twice. And it fits when
`add_tile` does not fail in the middle of its references.
-/

namespace V2I.TileCache

open List Machine StdMap

/-! ## Live blocks -/

/-- The blocks in `_blocks` and in `_inactive_blocks`. -/
def TilecacheImpl.live (s : TilecacheImpl) : List Live :=
  (s.blocks.entries ++ s.inactiveBlocks.entries).map fun e => ⟨e.1, e.2.map, e.2.block⟩

/-- The blocks of a tile that are live. -/
def liveBlocks (s : TilecacheImpl) (addr : ℕ) : ℕ := (s.live.map Live.map).count addr

/-- The references that live blocks of other tiles hold into a tile. -/
def references (s : TilecacheImpl) (addr : ℕ) : ℕ :=
  objects (held s.maplist (s.live.filter fun l => l.map ≠ addr)) addr

/-- What the counts of the loaded tiles say. -/
structure CountsExact (s : TilecacheImpl) : Prop where
  refcnt : ∀ m ∈ s.maplist, m.refcnt = references s m.addr
  active : ∀ m ∈ s.maplist, m.activeBlkcnt = liveBlocks s m.addr
  blocks : ∀ id cache, s.blocks.find id = some cache → cache.map ∈ s.addrs
  /-- A tile is released exactly when both counts are zero. -/
  released : ∀ addr, addr ∈ s.addrs ↔ 0 < liveBlocks s addr ∨ 0 < references s addr

/-- The ledger of a cache between two calls. -/
def Balanced (s : TilecacheImpl) : Prop := Ledger s.maplist s.live [] none none

variable {s : TilecacheImpl}

theorem references_eq (h : Balanced s) (addr : ℕ) :
    references s addr = objects (held s.maplist s.live) addr := by
  have hown : ∀ l ∈ s.live, l.map = addr → objects (slotsAt s.maplist l) addr = 0 := by
    intro l hl hmap
    by_contra hpos
    obtain ⟨idx, hidx⟩ := objects_pos_iff.mp (Nat.pos_of_ne_zero hpos)
    exact (h.sound l hl _ hidx).2 hmap.symm
  unfold references
  generalize s.live = live at hown
  induction live with
  | nil => rfl
  | cons l live ih =>
      obtain ⟨hl, hlive⟩ := forall_mem_cons.mp hown
      have hcons : objects (held s.maplist (l :: live)) addr =
          objects (slotsAt s.maplist l) addr + objects (held s.maplist live) addr := by
        rw [held, flatMap_cons, objects_append]
        rfl
      by_cases hmap : l.map = addr
      · rw [filter_cons_of_neg (by simpa using hmap), ih hlive, hcons, hl hmap, zero_add]
      · rw [filter_cons_of_pos (by simpa using hmap), held, flatMap_cons, objects_append,
          Pi.add_apply, hcons, ← ih hlive]
        rfl

/-- **A balanced ledger** makes the counts exact. -/
theorem Balanced.countsExact (h : Balanced s) : CountsExact s := by
  have hrefcnt : ∀ m ∈ s.maplist, m.refcnt = references s m.addr := by
    intro m hm
    rw [references_eq h, h.refcnt m hm, append_nil]
  have hactive : ∀ m ∈ s.maplist, m.activeBlkcnt = liveBlocks s m.addr := by
    intro m hm
    rw [h.active m hm]
    simp [liveBlocks]
  have hloaded : ∀ l ∈ s.live, l.map ∈ s.addrs := fun l hl => Ledger.mem_addrs h hl
  refine ⟨hrefcnt, hactive, ?_, ?_⟩
  · intro id cache hfind
    rw [find_eq_some_iff] at hfind
    exact hloaded _ (mem_map_of_mem (mem_append_left _ hfind))
  · intro addr
    constructor
    · intro haddr
      obtain ⟨m, hm, rfl⟩ := mem_map.mp haddr
      have hpos := (h.positive m hm).resolve_left (by simp)
      rw [hactive m hm, hrefcnt m hm] at hpos
      omega
    · rintro (hpos | hpos)
      · obtain ⟨l, hl, rfl⟩ := mem_map.mp (count_pos_iff.mp hpos)
        exact hloaded l hl
      · rw [references_eq h] at hpos
        obtain ⟨idx, hidx⟩ := objects_pos_iff.mp hpos
        obtain ⟨l, hl, hslot⟩ := mem_held.mp hidx
        exact (h.sound l hl _ hslot).1

/-! ## Releasing a block -/

/-- The maps of blocks of two caches are the same. -/
def SameBlocks (s s' : TilecacheImpl) : Prop :=
  s'.blocks = s.blocks ∧ s'.inactiveBlocks = s.inactiveBlocks

theorem SameBlocks.trans {s' s'' : TilecacheImpl} (h : SameBlocks s s') (h' : SameBlocks s' s'') :
    SameBlocks s s'' :=
  ⟨h'.1.trans h.1, h'.2.trans h.2⟩

/-- `check_release_rendermap_unlocked` settles a tile that may have no count left. -/
theorem checkRelease_spec {pend : List Slot} {owner : Option ℕ} {a : ℕ}
    (h : Ledger s.maplist s.live pend owner (some a)) (ha : a ∈ s.addrs) :
    ∃ s', checkReleaseRendermapUnlocked s a = some s' ∧ SameBlocks s s' ∧
      Ledger s'.maplist s'.live pend owner none := by
  obtain ⟨m, hm, rfl⟩ := mem_map.mp ha
  have hfind : getmapByaddrUnlocked s m.addr = some m := find?_addr h.addrs hm
  rw [checkReleaseRendermapUnlocked, hfind]
  by_cases hpos : 0 < m.activeBlkcnt ∨ 0 < m.refcnt
  · refine ⟨s, if_pos hpos, ⟨rfl, rfl⟩, h.keep fun m' hm' heq => ?_⟩
    have hfind' : getmapByaddrUnlocked s m'.addr = some m' := find?_addr h.addrs hm'
    rw [heq, hfind] at hfind'
    exact Option.some.inj hfind' ▸ hpos
  · obtain ⟨hledger, hids⟩ := h.release hm hpos
    have hblocks : m.map.blkids.foldl StdMap.erase s.blocks = s.blocks := by
      refine ext_entries ?_
      rw [entries_foldl_erase, filter_eq_self]
      intro e he
      have hl : (⟨e.1, e.2.map, e.2.block⟩ : Live) ∈ s.live :=
        mem_map_of_mem (mem_append_left _ he)
      simpa using hids _ hl
    have hin : ¬ (s.maplist.all fun m' => m'.addr ≠ m.addr) = true := by
      simp only [List.all_eq_true, not_forall]
      exact ⟨m, hm, by simp⟩
    dsimp only
    rw [if_neg hpos]
    simp only [releaseMapUnlocked, removeBlockmapUnlocked, hblocks, if_neg hin]
    exact ⟨_, rfl, ⟨rfl, rfl⟩, hledger⟩

/-- The loops of `release_block_unlocked` give the references back. -/
theorem releaseRefs_spec {own : ℕ} {slots pend : List Slot}
    (h : Ledger s.maplist s.live (slots ++ pend) (some own) none) :
    ∃ s', releaseRefs own s slots = some s' ∧ SameBlocks s s' ∧
      Ledger s'.maplist s'.live pend (some own) none := by
  induction slots generalizing s with
  | nil => exact ⟨s, rfl, ⟨rfl, rfl⟩, h⟩
  | cons slot slots ih =>
      obtain ⟨own', heq, hsound⟩ := h.pending slot (by simp)
      cases heq
      cases slot with
      | own idx => exact ih h.skip
      | referring id => exact absurd hsound not_false
      | object a idx =>
          obtain ⟨m, hm, rfl⟩ := mem_map.mp hsound.1
          have hfind : getmapByaddrUnlocked s m.addr = some m := find?_addr h.addrs hm
          have haddrs : m.addr ∈ (s.updateMap m.addr fun m => { m with refcnt := m.refcnt - 1 }).addrs := by
            rw [addrs_updateMap (by intro m; rfl)]
            exact hsound.1
          obtain ⟨s₁, hcheck, hsame, hledger⟩ := checkRelease_spec (s := s.updateMap m.addr _)
            h.giveBack haddrs
          obtain ⟨s', hrest, hsame', hledger'⟩ := ih hledger
          refine ⟨s', ?_, SameBlocks.trans hsame hsame', hledger'⟩
          rw [releaseRefs, if_neg hsound.2, hfind]
          dsimp only
          rw [hcheck]
          exact hrest

theorem blockOf_eq (s : TilecacheImpl) (cache : BlockCache) :
    blockOf s cache = (tileAt s.maplist cache.map).bind fun t => t.blocks[cache.block]? := by
  rw [blockOf, tileAt, Option.bind_map]
  rfl

variable {cache : BlockCache} {id : UInt32}

/-- **`release_block_unlocked`** on a block that was just taken out. -/
theorem releaseBlockUnlocked_spec
    (h : Ledger s.maplist (⟨id, cache.map, cache.block⟩ :: s.live) [] none none) :
    ∃ s', releaseBlockUnlocked s cache = some s' ∧ Balanced s' := by
  obtain ⟨t, blk, ht, hblk, -⟩ := h.placed _ mem_cons_self
  have hblock : blockOf s cache = some blk := by
    rw [blockOf_eq, ht]
    exact hblk
  have htake := h.take
  have hslots : slotsAt s.maplist ⟨id, cache.map, cache.block⟩ =
      blk.roadSegs ++ (blk.laneSecs ++ (blk.roadObjs ++ [])) := by
    rw [slotsAt, ht]
    simp only at hblk
    simp [hblk, Block.slots]
  rw [hslots] at htake
  obtain ⟨s₁, h₁, hsame₁, hledger₁⟩ := releaseRefs_spec htake
  obtain ⟨s₂, h₂, hsame₂, hledger₂⟩ := releaseRefs_spec hledger₁
  obtain ⟨s₃, h₃, hsame₃, hledger₃⟩ := releaseRefs_spec hledger₂
  let t₃ : TilecacheImpl := { s₃ with approachs :=
    (blk.junctions.flatMap Junction.approachs).foldl StdMap.erase s₃.approachs }
  let s₄ := t₃.updateMap cache.map fun m => { m with activeBlkcnt := m.activeBlkcnt - 1 }
  have howned : cache.map ∈ s₄.addrs := by
    rw [addrs_updateMap (by intro m; rfl)]
    exact hledger₃.owned _ rfl
  obtain ⟨s', hcheck, -, hledger'⟩ := checkRelease_spec (s := s₄) hledger₃.retire howned
  refine ⟨s', ?_, hledger'⟩
  simp only [releaseBlockUnlocked, hblock, h₁, h₂, h₃, Option.bind_eq_bind, Option.bind_some]
  exact hcheck

/-! ## The calls -/

/-- A block of the active list, and the others. -/
theorem live_erase_blocks (h : s.blocks.find id = some cache) :
    s.live.Perm (⟨id, cache.map, cache.block⟩ :: { s with blocks := s.blocks.erase id }.live) := by
  have hperm := (perm_erase h).append_right s.inactiveBlocks.entries
  exact hperm.map fun e => (⟨e.1, e.2.map, e.2.block⟩ : Live)

/-- A block of the inactive list, and the others. -/
theorem live_erase_inactiveBlocks (h : s.inactiveBlocks.find id = some cache) :
    s.live.Perm (⟨id, cache.map, cache.block⟩ ::
      { s with inactiveBlocks := s.inactiveBlocks.erase id }.live) := by
  have hperm := ((perm_erase h).append_left s.blocks.entries).trans perm_middle
  exact hperm.map fun e => (⟨e.1, e.2.map, e.2.block⟩ : Live)

/-- The lock of a block does not show. -/
theorem live_modify (s : TilecacheImpl) (id : UInt32) (locked : Bool) :
    { s with blocks := s.blocks.modify id fun c => { c with locked := locked } }.live = s.live := by
  simp only [TilecacheImpl.live, StdMap.modify, List.map_append, List.map_map]
  congr 1
  refine List.map_congr_left fun e _ => ?_
  simp only [Function.comp_apply]
  split <;> rfl

/-- `release_blocks` on one id. -/
theorem releaseBlock_spec (h : Balanced s) (id : UInt32) :
    ∃ s', releaseBlock s id = some s' ∧ Balanced s' := by
  unfold releaseBlock
  cases hfind : s.blocks.find id with
  | none => exact ⟨s, rfl, h⟩
  | some cache =>
      have hperm := live_erase_blocks hfind
      have hledger := Ledger.perm h hperm
      dsimp only
      split_ifs with hlocked
      · -- the id is not in the inactive list: it would be live twice
        have hnew : id ∉ s.inactiveBlocks.keys := by
          intro hmem
          have hnodup := hledger.ids
          simp only [List.map_cons, nodup_cons] at hnodup
          refine hnodup.1 ?_
          simp only [TilecacheImpl.live, List.map_map, List.map_append]
          exact List.mem_append_right _ hmem
        refine ⟨_, rfl, Ledger.perm hledger ?_⟩
        simp only [TilecacheImpl.live, entries_insert hnew, List.map_append, List.map_cons,
          map_nil, ← append_assoc]
        exact (perm_append_singleton _ _).symm
      · exact releaseBlockUnlocked_spec hledger

/-- `unlock_blocks` on one id. -/
theorem unlockBlock_spec (h : Balanced s) (id : UInt32) :
    ∃ s', unlockBlock s id = some s' ∧ Balanced s' := by
  unfold unlockBlock
  cases hfind : s.blocks.find id with
  | none =>
      cases hinactive : s.inactiveBlocks.find id with
      | none => exact ⟨s, rfl, h⟩
      | some cache =>
          exact releaseBlockUnlocked_spec (Ledger.perm h (live_erase_inactiveBlocks hinactive))
  | some cache =>
      refine ⟨_, rfl, ?_⟩
      rw [Balanced, live_modify]
      exact h

/-- What one id keeps, a list of ids keeps. -/
theorem foldlM_spec {f : TilecacheImpl → UInt32 → Option TilecacheImpl}
    (hf : ∀ s, Balanced s → ∀ id, ∃ s', f s id = some s' ∧ Balanced s') (h : Balanced s)
    (ids : List UInt32) : ∃ s', ids.foldlM f s = some s' ∧ Balanced s' := by
  induction ids generalizing s with
  | nil => exact ⟨s, rfl, h⟩
  | cons id ids ih =>
      obtain ⟨s₁, h₁, hs₁⟩ := hf s h id
      obtain ⟨s', hs', hbalanced⟩ := ih hs₁
      exact ⟨s', by simp [h₁, hs'], hbalanced⟩

theorem lockBlocks_spec (h : Balanced s) (blkids : List UInt32) :
    Balanced (lockBlocks s blkids).1 := by
  have hlive : ∀ (ids : List UInt32) (s : TilecacheImpl), Balanced s → Balanced
      { s with blocks := ids.foldl (fun m id => m.modify id fun c => { c with locked := true }) s.blocks } := by
    intro ids
    induction ids with
    | nil => exact fun s h => h
    | cons id ids ih =>
        intro s h
        refine ih { s with blocks := s.blocks.modify id fun c => { c with locked := true } } ?_
        rw [Balanced, live_modify]
        exact h
  unfold lockBlocks
  split_ifs
  · exact h
  · exact h
  · exact hlive blkids s h

/-! ## Tiles that fit -/

/-- A tile that does not upset the counts: its blocks are new, or it fails at its first
reference. -/
def TileFits (s : TilecacheImpl) (map : Rendermap) : Prop :=
  UuidFits s map ∧ (map.mapinfoOnly = true ∨
    ((∀ ref ∈ map.references, Resolves s.maplist ref) ∧ map.blocks ≠ [] ∧ map.blkids.Nodup ∧
      ∀ m ∈ s.maplist, ∀ id ∈ map.blkids, id ∉ m.map.blkids) ∨
    ((∃ ref ∈ map.references.head?, ¬ Resolves s.maplist ref) ∧
      ∀ id ∈ map.blkids, id ∉ s.blocks.keys))

/-- The condition on a call. -/
def Fits (s : TilecacheImpl) : Call → Prop
  | .addTile (.ok tile) => tile.persistence = true ∨ TileFits s tile.toRendermap
  | _ => True

theorem liveOf_eq (rmap : RendermapImpl) :
    liveOf rmap = rmap.map.blkids.mapIdx fun i id => ⟨id, rmap.addr, i⟩ := by
  refine List.ext_getElem? fun i => ?_
  simp only [liveOf, Rendermap.blkids, List.getElem?_mapIdx, List.getElem?_map, Option.map_map]
  rfl

theorem cachesOf_live (rmap : RendermapImpl) :
    (cachesOf rmap).map (fun e => (⟨e.1, e.2.map, e.2.block⟩ : Live)) = liveOf rmap := by
  refine List.ext_getElem? fun i => ?_
  simp only [liveOf, cachesOf, List.getElem?_mapIdx, List.getElem?_map, Option.map_map]
  rfl

/-- A tile with new blocks is loaded. -/
theorem balanced_loaded (h : Balanced s) {map : Rendermap} {blocks : List Block}
    (hne : map.blocks ≠ []) (hnodup : map.blkids.Nodup)
    (hnew : ∀ m ∈ s.maplist, ∀ id ∈ map.blkids, id ∉ m.map.blkids)
    (hfixed : ∀ blk ∈ blocks, ∀ slot ∈ blk.slots, Fixed s.maplist slot)
    (hids : ∀ cols, blocks.map (blkid cols) = map.blocks.map (blkid cols)) :
    Balanced (loaded s map blocks (objects (blocks.flatMap Block.slots))) := by
  let new : RendermapImpl := { newMap s map with map := { map with blocks := blocks } }
  have hblkids : new.map.blkids = map.blkids := hids map.cols
  have hlen : blocks.length = map.blocks.length := by
    simpa using congrArg List.length (hids map.cols)
  have hledger : Ledger (charge (objects (blocks.flatMap Block.slots)) s.maplist ++ [new])
      (s.live ++ liveOf new) [] none none := by
    refine Ledger.load h (alloc_not_mem s) (by rwa [hblkids]) (by rwa [hblkids]) ?_ hfixed ?_ rfl
    · rwa [← length_pos_iff, show new.map.blocks = blocks from rfl, hlen, length_pos_iff]
    · rw [show new.map.blocks = blocks from rfl, hlen]
      rfl
  have hkeys : ∀ e ∈ cachesOf (newMap s map), e.1 ∉ s.blocks.keys := by
    intro e he hkey
    have hid : e.1 ∈ map.blkids := by
      rw [← show (newMap s map).map.blkids = map.blkids from rfl, ← keys_cachesOf]
      exact mem_map_of_mem he
    obtain ⟨e', he', heq⟩ := mem_map.mp hkey
    obtain ⟨m, hm, -, hmem⟩ :=
      Ledger.exists_tile h (mem_map_of_mem (mem_append_left _ he'))
    exact hnew m hm e.1 hid (heq ▸ hmem)
  have hentries := entries_foldl_insert (by rw [keys_cachesOf]; exact hnodup) hkeys
  have hlive : (loaded s map blocks (objects (blocks.flatMap Block.slots))).live.Perm
      (s.live ++ liveOf new) := by
    obtain ⟨mapinfo, hcheck⟩ : ∃ mapinfo, (checkUuidUnlocked s map).2 = { s with mapinfo := mapinfo } := by
      unfold checkUuidUnlocked
      split_ifs
      · exact ⟨map.uuid, rfl⟩
      · exact ⟨s.mapinfo, rfl⟩
      · exact ⟨s.mapinfo, rfl⟩
    have hliveOf : liveOf (newMap s map) = liveOf new := by
      rw [liveOf_eq, liveOf_eq, hblkids]
      rfl
    simp only [TilecacheImpl.live, loaded, addApproach, hcheck, hentries, List.map_append, cachesOf_live,
      hliveOf, append_assoc]
    exact perm_append_comm.append_left _
  exact Ledger.perm hledger hlive.symm

/-- A tile that fails at its first reference leaves nothing behind. -/
theorem balanced_rejected (h : Balanced s) {map : Rendermap} {n : ℕ → ℕ}
    (hn : ∀ m ∈ s.maplist, n m.addr = 0) (hids : ∀ id ∈ map.blkids, id ∉ s.blocks.keys) :
    Balanced (rejected s map n) := by
  have hmaps : charge n s.maplist = s.maplist := by
    conv_rhs => rw [← charge_zero s.maplist]
    refine charge_congr fun a ha => ?_
    obtain ⟨m, hm, rfl⟩ := mem_map.mp ha
    exact hn m hm
  have hblocks : map.blkids.foldl StdMap.erase
      ((cachesOf (newMap s map)).foldl (fun m e => m.insert e.1 e.2) s.blocks) = s.blocks := by
    have hkeys : (cachesOf (newMap s map)).map Prod.fst = map.blkids := keys_cachesOf _
    rw [← hkeys]
    exact foldl_erase_foldl_insert (by rwa [hkeys])
  simp only [Balanced, rejected, hmaps, hblocks]
  exact h

/-- **`add_tile`** with a tile that fits. -/
theorem addTile_balanced (h : Balanced s) {buffer : Except Error TileBuffer}
    (hfits : Fits s (.addTile buffer)) :
    ∃ s' reply, addTile s buffer = some (s', reply) ∧ Balanced s' := by
  cases buffer with
  | error e => exact ⟨s, .error e, rfl, h⟩
  | ok tile =>
      cases hp : tile.persistence with
      | true => exact ⟨s, .error .enotsupport, by simp only [addTile, hp, if_true], h⟩
      | false =>
          obtain ⟨huuid, hfits⟩ : TileFits s tile.toRendermap := hfits.resolve_left (by simp [hp])
          cases hinfo : tile.mapinfoOnly with
          | true =>
              obtain ⟨mapinfo, hcheck, -⟩ := checkUuidUnlocked_eq huuid
              refine ⟨{ s with mapinfo := mapinfo }, .ok 0, ?_, h⟩
              simp only [addTile, hp, hcheck, hinfo, Bool.false_eq_true, if_false, if_true]
          | false =>
              obtain ⟨n, ⟨blocks, heq, hres, hobj, hfixed, hids⟩ | ⟨heq, hfails⟩⟩ :=
                addTile_spec h.addrs hp hinfo huuid
              · refine ⟨_, _, heq, ?_⟩
                subst hobj
                rcases hfits with hinfo' | ⟨-, hne, hnodup, hnew⟩ | ⟨⟨ref, href, hnot⟩, -⟩
                · simp [hinfo] at hinfo'
                · exact balanced_loaded h hne hnodup hnew hfixed hids
                · exact absurd (hres ref (mem_of_mem_head? href)) hnot
              · refine ⟨_, _, heq, ?_⟩
                rcases hfits with hinfo' | ⟨hres, -⟩ | ⟨⟨ref, href, hnot⟩, hnew⟩
                · simp [hinfo] at hinfo'
                · obtain ⟨paid, ref, rest, hrefs, -, hnot, -⟩ := hfails
                  exact absurd (hres ref (by simp [hrefs])) hnot
                · refine balanced_rejected h ((fails_unpaid_iff hfails).mpr ?_) hnew
                  intro ref' href'
                  rwa [Option.mem_unique href' href]

/-- **Every call** keeps the ledger balanced. -/
theorem step_balanced (h : Balanced s) {call : Call} (hfits : Fits s call) :
    ∃ s' reply, step s call = some (s', reply) ∧ Balanced s' := by
  cases call with
  | addTile buffer => exact addTile_balanced h hfits
  | lockBlocks blkids => exact ⟨_, _, rfl, lockBlocks_spec h blkids⟩
  | unlockBlocks blkids =>
      simp only [step, unlockBlocks]
      split_ifs
      · exact ⟨_, _, rfl, h⟩
      · exact ⟨_, _, rfl, h⟩
      · obtain ⟨s', hs', hbalanced⟩ := foldlM_spec (fun s h => unlockBlock_spec h) h blkids
        exact ⟨s', .ok 0, by rw [hs']; rfl, hbalanced⟩
  | releaseBlocks blkids =>
      simp only [step, releaseBlocks]
      split_ifs
      · exact ⟨_, _, rfl, h⟩
      · obtain ⟨s', hs', hbalanced⟩ := foldlM_spec (fun s h => releaseBlock_spec h) h blkids
        exact ⟨s', .ok 0, by rw [hs']; rfl, hbalanced⟩

theorem balanced_new : Balanced .new where
  addrs := nodup_nil
  ids := nodup_nil
  placed := by simp [TilecacheImpl.live, TilecacheImpl.new, StdMap.empty]
  apart := by simp [TilecacheImpl.new, tileAt]
  sound := by simp [TilecacheImpl.live, TilecacheImpl.new, StdMap.empty]
  pending := by simp
  owned := by simp
  refcnt := by simp [TilecacheImpl.new]
  active := by simp [TilecacheImpl.new]
  positive := by simp [TilecacheImpl.new]

/-- **The counts are exact** in every state of a run whose tiles fit, and the run goes
through. -/
theorem countsExact_of_fits {calls : List Call} (h : Guarded step Fits .new calls) :
    ∃ s replies, run step .new calls = some (s, replies) ∧ CountsExact s := by
  obtain ⟨s, replies, hrun, hbalanced⟩ :=
    run_guarded (fun s call h hfits => step_balanced h hfits) balanced_new h
  exact ⟨s, replies, hrun, hbalanced.countsExact⟩

/-- Block 1 refers to the tile of block 0, which goes first; the lock keeps block 1 until it
is unlocked. -/
def sharedSegment : List Call :=
  [.addTile (.ok ownSegment), .addTile (.ok (oneBlock 1 [.referring 7] [] (by simp))),
    .releaseBlocks [0], .lockBlocks [1], .releaseBlocks [1], .unlockBlocks [1]]

theorem countsExact_of_fits_sharedSegment :
    Guarded step Fits .new sharedSegment ∧
      ∃ s replies, run step .new sharedSegment = some (s, replies) ∧ CountsExact s := by
  have hguarded : Guarded step Fits .new sharedSegment := by
    refine ⟨.inr ⟨.inl rfl, .inr (.inl ⟨by decide, by decide, by decide, forall_mem_nil _⟩)⟩, ?_⟩
    intro s₁ reply₁ h₁
    cases h₁
    refine ⟨.inr ⟨.inr rfl, .inr (.inl ⟨by decide, by decide, by decide,
      forall_mem_singleton.mpr (forall_mem_singleton.mpr (by decide))⟩)⟩, ?_⟩
    intro s₂ reply₂ h₂
    exact ⟨trivial, fun _ _ _ => ⟨trivial, fun _ _ _ => ⟨trivial, fun _ _ _ => ⟨trivial, fun _ _ _ => trivial⟩⟩⟩⟩
  exact ⟨hguarded, countsExact_of_fits hguarded⟩

/-- **No pointer dangles** in such a run: a live block is in its tile, which is loaded, and nowhere
else; its pointers lead to objects of its own tile or of other ones that are loaded, and no id is
left to be resolved. The node that `release_blocks` and `unlock_blocks` read behind its `erase` is
not among these pointers. -/
theorem pointers_valid {calls : List Call} (h : Guarded step Fits .new calls) :
    ∃ s replies, run step .new calls = some (s, replies) ∧ (s.live.map Live.id).Nodup ∧
      ∀ l ∈ s.live, ∃ t blk, tileAt s.maplist l.map = some t ∧ t.blocks[l.block]? = some blk ∧
        blkid t.cols blk = l.id ∧ ∀ slot ∈ blk.slots, (∀ id, slot ≠ .referring id) ∧
          ∀ map idx, slot = .object map idx → map ≠ l.map ∧ map ∈ s.addrs := by
  obtain ⟨s, replies, hrun, hbalanced⟩ :=
    run_guarded (fun s call h hfits => step_balanced h hfits) balanced_new h
  refine ⟨s, replies, hrun, hbalanced.ids, fun l hl => ?_⟩
  obtain ⟨t, blk, htile, hblk, hid⟩ := hbalanced.placed l hl
  refine ⟨t, blk, htile, hblk, hid, fun slot hslot => ?_⟩
  have hslots : slotsAt s.maplist l = blk.slots := by
    rw [slotsAt, htile, Option.bind_some, hblk]
    rfl
  have hsound : Sound s.maplist l.map slot := hbalanced.sound l hl slot (hslots ▸ hslot)
  constructor
  · rintro id rfl
    exact hsound
  · rintro map idx rfl
    exact ⟨hsound.2, hsound.1⟩

/-- The tile of a block that has been released stays for the pointer of another one. -/
theorem pointers_valid_released : ∃ s replies, run step .new
    [.addTile (.ok ownSegment), .addTile (.ok (oneBlock 1 [.referring 7] [] (by simp))),
      .releaseBlocks [0]] = some (s, replies) ∧ (s.live.map Live.id).Nodup ∧
    ∀ l ∈ s.live, ∃ t blk, tileAt s.maplist l.map = some t ∧ t.blocks[l.block]? = some blk ∧
      blkid t.cols blk = l.id ∧ ∀ slot ∈ blk.slots, (∀ id, slot ≠ .referring id) ∧
        ∀ map idx, slot = .object map idx → map ≠ l.map ∧ map ∈ s.addrs := by
  refine pointers_valid ⟨.inr ⟨.inl rfl, .inr (.inl ⟨by decide, by decide, by decide,
    forall_mem_nil _⟩)⟩, fun s₁ _ h₁ => ?_⟩
  cases h₁
  exact ⟨.inr ⟨.inr rfl, .inr (.inl ⟨by decide, by decide, by decide,
    forall_mem_singleton.mpr (forall_mem_singleton.mpr (by decide))⟩)⟩,
    fun _ _ _ => ⟨trivial, fun _ _ _ => trivial⟩⟩

/-- The second tile fails with a reference taken. -/
def lostReference : List Call :=
  [.addTile (.ok ownSegment), .addTile (.ok (oneBlock 1 [.referring 9, .referring 7] [] (by simp)))]

/-- A tile with blocks 0 and 1. -/
def twoBlocks : TileBuffer where
  persistence := false
  mapinfoOnly := false
  uuid := 1
  cols := 4
  blocks := [⟨0, 0, [], [], [], []⟩, ⟨0, 1, [], [], [], []⟩]
  roadsegs := []
  lanesecs := []
  roadobjs := []
  closed := by simp [Block.slots]

/-- Block 0 is released and comes again with another tile; it goes with the first one. -/
def lostBlock : List Call :=
  [.addTile (.ok twoBlocks), .releaseBlocks [0], .addTile (.ok ownSegment), .releaseBlocks [1]]

theorem not_countsExact_lostReference :
    (∃ s replies, run step .new lostReference = some (s, replies) ∧ ¬ CountsExact s) ∧
    ∃ s replies, run step .new lostBlock = some (s, replies) ∧ ¬ CountsExact s := by
  constructor
  · obtain ⟨⟨s, replies⟩, hrun, hwrong⟩ := exists_of_any
      (show (run step .new lostReference).any (fun p =>
        !decide (∀ m ∈ p.1.maplist, m.refcnt = (references p.1 m.addr : ℤ))) = true by decide +kernel)
    have hnot : ¬ ∀ m ∈ s.maplist, m.refcnt = references s m.addr := by simpa using hwrong
    exact ⟨s, replies, hrun, fun h => hnot h.refcnt⟩
  · obtain ⟨⟨s, replies⟩, hrun, hwrong⟩ := exists_of_any
      (show (run step .new lostBlock).any (fun p =>
        !decide (∀ m ∈ p.1.maplist, m.activeBlkcnt = (liveBlocks p.1 m.addr : ℤ))) = true by decide +kernel)
    have hnot : ¬ ∀ m ∈ s.maplist, m.activeBlkcnt = liveBlocks s m.addr := by simpa using hwrong
    exact ⟨s, replies, hrun, fun h => hnot h.active⟩

end V2I.TileCache
