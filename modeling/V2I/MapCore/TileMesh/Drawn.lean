import Mathlib.Data.Finset.Card
import V2I.MapCore.TileCache.Ledger
import V2I.MapCore.TileMesh.Draw
import V2I.MapCore.TileMesh.Entrust

/-!
# V2I.MapCore.TileMesh.Drawn

No object is drawn twice, and none is lost: what runs of `add_tile`, `get_mesh` and
`release_mesh` have to keep to for this.

`Drawn` is the invariant. The meshes and the owners agree, `referred_blkids` are the blocks
with a mesh that refer to the object, and for an object without an owner, a block that refers
to it is on the list of expired meshes.
-/

namespace V2I.TileMesh

open TileCache List Option Function Machine

/-! ## The objects of a block -/

/-- The objects that a block of the cache refers to. -/
def objectsAt (t : TilecacheImpl) (blkid : UInt32) : List Obj :=
  (t.blocks.find blkid).elim [] fun c => (blockOf t c).elim [] (blockObjects c.map)

variable {t : TilecacheImpl}

theorem mem_objectsAt {blkid : UInt32} {o : Obj} : o ∈ objectsAt t blkid ↔
    ∃ c blk, t.blocks.find blkid = some c ∧ blockOf t c = some blk ∧
      o ∈ blockObjects c.map blk := by
  unfold objectsAt
  cases t.blocks.find blkid with
  | none => simp
  | some c =>
      cases hblk : blockOf t c with
      | none => simp [hblk]
      | some blk => simp [hblk]

theorem blockOf_eq (t : TilecacheImpl) (c : BlockCache) :
    blockOf t c = (tileAt t.maplist c.map).bind fun map => map.blocks[c.block]? := by
  unfold blockOf getmapByaddrUnlocked tileAt
  cases t.maplist.find? fun m => m.addr = c.map <;> rfl

/-! ## Tiles in the cache -/

/-- The tiles and the blocks of the cache. -/
structure Placed (t : TilecacheImpl) : Prop where
  addrs : t.addrs.Nodup
  placed : ∀ id c, t.blocks.find id = some c → ∃ map blk, tileAt t.maplist c.map = some map ∧
    map.blocks[c.block]? = some blk ∧ blkid map.cols blk = id
  fixed : ∀ a map, tileAt t.maplist a = some map → ∀ blk ∈ map.blocks, ∀ slot ∈ blk.slots,
    Fixed t.maplist slot

/-- The blocks and the tiles that were there are there. -/
structure Extends (t t' : TilecacheImpl) : Prop where
  blocks : ∀ id c, t.blocks.find id = some c → t'.blocks.find id = some c
  tiles : ∀ a ∈ t.addrs, tileAt t'.maplist a = tileAt t.maplist a

variable {c : BlockCache} {id : UInt32}

theorem Placed.blockOf (h : Placed t) (hc : t.blocks.find id = some c) :
    ∃ map blk, tileAt t.maplist c.map = some map ∧
      blk ∈ map.blocks ∧ blockOf t c = some blk ∧ blkid map.cols blk = id := by
  obtain ⟨map, blk, hmap, hblk, hid⟩ := h.placed id c hc
  exact ⟨map, blk, hmap, mem_of_getElem? hblk, by rw [blockOf_eq, hmap]; exact hblk, hid⟩

/-- A block refers to objects of loaded tiles. -/
theorem Placed.mem_addrs (h : Placed t) {o : Obj} (ho : o ∈ objectsAt t id) : o.map ∈ t.addrs := by
  obtain ⟨c, blk, hc, hblk, ho⟩ := mem_objectsAt.mp ho
  obtain ⟨map, blk', hmap, hmem, hblk', -⟩ := h.blockOf hc
  obtain rfl : blk' = blk := some.inj (hblk'.symm.trans hblk)
  have hslot : ∀ kind slot, slot ∈ blk'.slots → objOf c.map kind slot = some o → o.map ∈ t.addrs := by
    intro kind slot hslot hobj
    have hfixed := h.fixed c.map map hmap blk' hmem slot hslot
    cases slot with
    | own idx =>
        cases hobj
        exact mem_addrs_of_tileAt hmap
    | referring id => cases hobj
    | object a idx =>
        cases hobj
        exact hfixed
  rcases mem_append.mp ho with ho | ho
  · obtain ⟨slot, hmem', hobj⟩ := mem_filterMap.mp ho
    exact hslot _ slot (by simp [Block.slots, hmem']) hobj
  · obtain ⟨slot, hmem', hobj⟩ := mem_filterMap.mp ho
    exact hslot _ slot (by simp [Block.slots, hmem']) hobj

theorem Extends.objectsAt {t' : TilecacheImpl} (h : Placed t) (he : Extends t t')
    (hc : t.blocks.find id = some c) : objectsAt t' id = objectsAt t id := by
  obtain ⟨map, blk, hmap, -⟩ := h.placed id c hc
  have htile := he.tiles c.map (mem_addrs_of_tileAt hmap)
  rw [TileMesh.objectsAt, TileMesh.objectsAt, he.blocks id c hc, hc]
  simp only [elim_some, blockOf_eq, htile]

theorem fixed_charge {maps : List RendermapImpl} {n : ℕ → ℕ} {slot : Slot} (h : Fixed maps slot)
    (more : List RendermapImpl) : Fixed (charge n maps ++ more) slot := by
  cases slot with
  | own idx => trivial
  | referring id => exact h
  | object map idx =>
      have hmap : map ∈ maps.map RendermapImpl.addr := h
      simp only [Fixed, map_append, addr_charge, mem_append]
      exact .inl hmap

/-- A tile that does not take out blocks of others when it is thrown out. -/
def TileMeets (t : TilecacheImpl) (tile : TileBuffer) : Prop :=
  tile.persistence = true ∨ tile.mapinfoOnly = true ∨
    (∀ ref ∈ tile.references, Resolves t.maplist ref) ∨ ∀ id ∈ tile.blkids, id ∉ t.blocks.keys

/-- **`add_tile`** only adds. -/
theorem addTile_placed {t' : TilecacheImpl} (h : Placed t) {buffer : Except Error TileBuffer}
    {ret : Except Error ℕ} (hadd : TileCache.addTile t buffer = some (t', ret))
    (hmeets : ∀ tile, buffer = .ok tile → TileMeets t tile) : Placed t' ∧ Extends t t' := by
  have hnodup := nodup_addTile hadd h.addrs
  obtain ⟨hblocks, hmaps⟩ | ⟨tile, n, rfl, hp, hinfo, ⟨blocks, rfl, hfixed, hids⟩ | ⟨rfl, hfails⟩⟩ :=
    addTile_cases hadd h.addrs
  · refine ⟨⟨hnodup, ?_, ?_⟩, ⟨fun id c hc => by rw [hblocks]; exact hc, fun a _ => by rw [hmaps]⟩⟩
    · rw [hblocks, hmaps]
      exact h.placed
    · rw [hmaps]
      exact h.fixed
  · -- the tile is loaded
    generalize hrd : ({ newMap t tile.toRendermap with
      map := { tile.toRendermap with blocks := blocks } } : RendermapImpl) = rd at *
    have hmaplist : (loaded t tile.toRendermap blocks n).maplist = charge n t.maplist ++ [rd] := by
      rw [← hrd]
      rfl
    have haddr : rd.addr = alloc t := by rw [← hrd]; rfl
    have hrdmap : rd.map = { tile.toRendermap with blocks := blocks } := by rw [← hrd]
    have hnew : rd.addr ∉ t.maplist.map RendermapImpl.addr := haddr ▸ alloc_not_mem t
    have htile := tileAt_load hnew n
    have hold : ∀ a ∈ t.addrs, tileAt (charge n t.maplist ++ [rd]) a = tileAt t.maplist a := by
      intro a ha
      rw [htile, if_neg fun heq : a = rd.addr => hnew (heq ▸ ha)]
    have hfind : ∀ id, (loaded t tile.toRendermap blocks n).blocks.find id = (t.blocks.find id).or
        (((cachesOf (newMap t tile.toRendermap)).find? fun e => e.1 = id).map Prod.snd) :=
      fun id => StdMap.find_foldl_insert Prod.fst Prod.snd _ t.blocks id
    refine ⟨⟨hnodup, fun id c hc => ?_, fun a map hmap blk hblk slot hslot => ?_⟩,
      ⟨fun id c hc => by rw [hfind, hc]; rfl, fun a ha => by rw [hmaplist]; exact hold a ha⟩⟩
    · rw [hmaplist]
      rw [hfind, or_eq_some_iff] at hc
      rcases hc with hc | ⟨-, hc⟩
      · obtain ⟨map, blk, hmap, hblk, hid⟩ := h.placed id c hc
        exact ⟨map, blk, by rw [hold _ (mem_addrs_of_tileAt hmap)]; exact hmap, hblk, hid⟩
      · obtain ⟨e, he, rfl⟩ := map_eq_some_iff.mp hc
        have hid : e.1 = id := by simpa using find?_some he
        obtain ⟨i, hi, rfl⟩ := mem_mapIdx.mp (mem_of_find?_eq_some he)
        -- the block has its id also after its references are resolved
        have hlen : blocks.length = tile.blocks.length := by
          simpa using congrArg List.length (hids tile.cols)
        have hi' : i < blocks.length := hlen ▸ hi
        refine ⟨rd.map, blocks[i], ?_, ?_, ?_⟩
        · rw [htile, if_pos (show (newMap t tile.toRendermap).addr = rd.addr from haddr.symm)]
        · rw [hrdmap]
          exact getElem?_eq_getElem hi'
        · have hmapi := congrArg (·[i]?) (hids tile.cols)
          simp only [getElem?_map, getElem?_eq_getElem hi', map_some] at hmapi
          rw [← hid, hrdmap]
          have hi'' : i < tile.blocks.length := hi
          rw [getElem?_eq_getElem hi'', map_some] at hmapi
          exact some.inj hmapi
    · rw [hmaplist] at hmap ⊢
      rw [htile] at hmap
      split_ifs at hmap with ha
      · cases hmap
        rw [hrdmap] at hblk
        exact fixed_charge (hfixed blk hblk slot hslot) _
      · exact fixed_charge (h.fixed a map hmap blk hblk slot hslot) _
  · -- the tile is thrown out
    have hids : ∀ id ∈ tile.blkids, id ∉ t.blocks.keys := by
      rcases hmeets tile rfl with hp' | hinfo' | hres | hids
      · simp [hp] at hp'
      · simp [hinfo] at hinfo'
      · obtain ⟨paid, ref, rest, hrefs, -, hnot, -⟩ := hfails
        exact absurd (hres ref (by simp [hrefs])) hnot
      · exact hids
    have hblocks : ∀ id, (rejected t tile.toRendermap n).blocks.find id = t.blocks.find id := by
      intro id
      rw [find_blocks_rejected]
      split_ifs with hid
      · exact (StdMap.find_eq_none_iff.mpr (hids id hid)).symm
      · rfl
    have htile : tileAt (rejected t tile.toRendermap n).maplist = tileAt t.maplist :=
      tileAt_map (f := fun m => { m with refcnt := m.refcnt + n m.addr }) (fun m => ⟨rfl, rfl⟩)
        t.maplist
    refine ⟨⟨hnodup, fun id c hc => ?_, fun a map hmap blk hblk slot hslot => ?_⟩,
      ⟨fun id c hc => by rw [hblocks]; exact hc, fun a _ => by rw [htile]⟩⟩
    · rw [htile]
      rw [hblocks] at hc
      exact h.placed id c hc
    · rw [htile] at hmap
      have hfix := fixed_charge (n := n) (h.fixed a map hmap blk hblk slot hslot) []
      rwa [append_nil] at hfix

/-! ## The invariant -/

/-- The objects that have something to draw. -/
def Drawable (s : Cache) (o : Obj) : Prop := (s.data o).unclassified = false ∧ (s.data o).key ≠ none

/-- The block has a mesh in the cache. -/
def HasMesh (s : Cache) (blkid : UInt32) : Prop := ∃ a, (s.meshbuf a blkid).isSome

/-- **No object is lost**: an object is in one mesh at most, and when a block that refers to
it has a mesh, it is in the mesh of its owner, or a block that refers to it is to be drawn
again. -/
structure NoneLost (s : Cache) : Prop where
  once : ∀ a blkid mesh a' blkid' mesh', s.meshbuf a blkid = some mesh →
    s.meshbuf a' blkid' = some mesh' → ∀ o ∈ mesh, o ∈ mesh' → a = a' ∧ blkid = blkid'
  kept : ∀ o, Drawable s o → ∀ blkid, o ∈ objectsAt s.tiles blkid → HasMesh s blkid →
    (∃ a owner mesh, (s.ext o).meshgenBlockid = UInt32.toNat owner ∧
      s.meshbuf a owner = some mesh ∧ o ∈ mesh) ∨
    ∃ blkid', o ∈ objectsAt s.tiles blkid' ∧ blkid' ∈ s.expired

structure Drawn (s : Cache) : Prop where
  tiles : Placed s.tiles
  lane : ∀ o, o.kind = .laneSec → (s.data o).unclassified = false
  meshes : ∀ a blkid mesh, s.meshbuf a blkid = some mesh →
    ∃ c, s.tiles.blocks.find blkid = some c ∧ c.map = a
  drawn : ∀ a blkid mesh, s.meshbuf a blkid = some mesh →
    ∀ o ∈ mesh, (s.ext o).meshgenBlockid = blkid.toNat
  owner : ∀ o, 0 ≤ (s.ext o).meshgenBlockid → ∃ a blkid mesh,
    (s.ext o).meshgenBlockid = UInt32.toNat blkid ∧ s.meshbuf a blkid = some mesh ∧
      blkid ∈ (s.ext o).refs ∧ (Drawable s o → o ∈ mesh)
  refs : ∀ o blkid, blkid ∈ (s.ext o).refs ↔
    HasMesh s blkid ∧ o ∈ objectsAt s.tiles blkid ∧ (s.data o).unclassified = false
  orphan : ∀ o, (s.ext o).meshgenBlockid < 0 → (s.ext o).refs ≠ [] →
    ∃ blkid ∈ s.expired, o ∈ objectsAt s.tiles blkid

variable {s s' : Cache}

theorem toNat_ne {a b : UInt32} (h : a ≠ b) : (a.toNat : ℤ) ≠ b.toNat := fun heq =>
  h (UInt32.toNat_inj.mp (by exact_mod_cast heq))

theorem Drawn.noneLost (h : Drawn s) : NoneLost s where
  once a blkid mesh a' blkid' mesh' hm hm' o ho ho' := by
    have heq := (h.drawn a blkid mesh hm o ho).symm.trans (h.drawn a' blkid' mesh' hm' o ho')
    obtain rfl : blkid = blkid' := by
      by_contra hne
      exact toNat_ne hne heq
    obtain ⟨c, hc, rfl⟩ := h.meshes a blkid mesh hm
    obtain ⟨c', hc', rfl⟩ := h.meshes a' blkid mesh' hm'
    rw [hc] at hc'
    cases hc'
    exact ⟨rfl, rfl⟩
  kept o ho blkid hobj hmesh := by
    have href := (h.refs o blkid).mpr ⟨hmesh, hobj, ho.1⟩
    by_cases hneg : (s.ext o).meshgenBlockid < 0
    · obtain ⟨blkid', hexp, hmem⟩ := h.orphan o hneg (ne_nil_of_mem href)
      exact .inr ⟨blkid', hmem, hexp⟩
    · obtain ⟨a, owner, mesh, heq, hmesh, -, hin⟩ := h.owner o (by omega)
      exact .inl ⟨a, owner, mesh, heq, hmesh, hin ho⟩

/-- The owner of an object refers to it. -/
theorem Drawn.owner_mem (h : Drawn s) {o : Obj} {blkid : UInt32}
    (ho : (s.ext o).meshgenBlockid = blkid.toNat) : blkid ∈ (s.ext o).refs := by
  obtain ⟨a, owner, mesh, heq, -, hmem, -⟩ := h.owner o (by omega)
  obtain rfl : owner = blkid := by
    by_contra hne
    exact toNat_ne hne (heq.symm.trans ho)
  exact hmem

variable {m : ℕ → UInt32 → Option Mesh}

theorem meshbuf_update {a a' : ℕ} {blkid blkid' : UInt32} {mesh : Option Mesh}
    (h : ¬ (a' = a ∧ blkid' = blkid)) :
    update m a (update (m a) blkid mesh) a' blkid' = m a' blkid' := by
  by_cases ha : a' = a
  · subst ha
    have hne : blkid' ≠ blkid := fun heq => h ⟨rfl, heq⟩
    simp [hne]
  · simp [ha]

theorem meshbuf_update_self {a : ℕ} {blkid : UInt32} {mesh : Option Mesh} :
    update m a (update (m a) blkid mesh) a blkid = mesh := by simp

/-! ## Releasing a mesh -/

/-- An object that the block has drawn, and that other blocks with a mesh refer to, has among them
the last that refers to any such object, or a block that refers to it is on the list. -/
def ReleaseMeets (s : Cache) (blkid : UInt32) : Prop :=
  ∀ o ∈ objectsAt s.tiles blkid, (s.ext o).meshgenBlockid = blkid.toNat →
    (∃ id ∈ (s.ext o).refs, id ≠ blkid) →
      (∃ id ∈ (s.ext o).refs, id ≠ blkid ∧
        LastSharing blkid s.ext (objectsAt s.tiles blkid) id) ∨
        ∃ id ∈ s.expired, o ∈ objectsAt s.tiles id

variable {reply : Reply}

/-- **`release_mesh`** -/
theorem releaseMesh_drawn (h : Drawn s) {blkid : UInt32}
    (hstep : releaseMesh s blkid = some (s', reply)) (hmeets : ReleaseMeets s blkid) :
    Drawn s' := by
  unfold releaseMesh at hstep
  cases hc : s.tiles.blocks.find blkid with
  | none =>
      simp only [hc] at hstep
      cases hstep
      exact h
  | some c =>
      simp only [hc, bind_eq_bind, bind_eq_some_iff] at hstep
      obtain ⟨blk, hblk, lanesecs, hlane, roadobjs, hobj, heq⟩ := hstep
      cases heq
      have hobjs : objectsAt s.tiles blkid = lanesecs ++ roadobjs := by
        rw [objects_append hlane hobj, objectsAt, hc, elim_some, hblk, elim_some]
      obtain ⟨hleft, hpend⟩ := entrustMesh_spec s.ext (fun o => h.owner_mem) lanesecs
        roadobjs
      rw [← hobjs] at hleft hpend
      rw [ReleaseMeets] at hmeets
      generalize entrustMeshUnlocked blkid lanesecs roadobjs s.ext = r at hleft hpend ⊢
      obtain ⟨ext', pending⟩ := r
      simp only at hleft hpend ⊢
      -- the block leaves every object that it refers to
      have howner : ∀ o, (ext' o).meshgenBlockid =
          if (s.ext o).meshgenBlockid = blkid.toNat then -1 else (s.ext o).meshgenBlockid := by
        intro o
        rw [hleft]
        split_ifs with hmem hown
        · rw [owner_detach h.owner_mem, if_pos hown]
        · rw [owner_detach h.owner_mem, if_neg hown]
        · exact absurd ((h.refs o blkid).mp (h.owner_mem ‹_›)).2.1 hmem
        · rfl
      have hrefs : ∀ o id, id ∈ (ext' o).refs ↔ id ∈ (s.ext o).refs ∧ id ≠ blkid := by
        intro o id
        rw [hleft]
        split_ifs with hmem
        · exact mem_refs_detach
        · refine ⟨fun hid => ⟨hid, ?_⟩, And.left⟩
          rintro rfl
          exact hmem ((h.refs o id).mp hid).2.1
      have hmeshbuf : ∀ a id mesh, update s.meshbuf c.map
          (update (s.meshbuf c.map) blkid none) a id = some mesh ↔
            s.meshbuf a id = some mesh ∧ id ≠ blkid := by
        intro a id mesh
        by_cases hid : id = blkid
        · subst hid
          simp only [ne_eq, not_true_eq_false, and_false, iff_false]
          by_cases ha : a = c.map
          · subst ha
            rw [meshbuf_update_self]
            simp
          · rw [meshbuf_update (by simp [ha])]
            intro hmesh
            obtain ⟨c', hc', rfl⟩ := h.meshes a id mesh hmesh
            rw [hc] at hc'
            cases hc'
            exact ha rfl
        · rw [meshbuf_update (by simp [hid])]
          simp [hid]
      refine ⟨h.tiles, h.lane, fun a id mesh hm => ?_, fun a id mesh hm o ho => ?_, fun o ho => ?_,
        fun o id => ?_, fun o ho hid => ?_⟩
      · exact h.meshes a id mesh ((hmeshbuf a id mesh).mp hm).1
      · obtain ⟨hm, hne⟩ := (hmeshbuf a id mesh).mp hm
        have hown := h.drawn a id mesh hm o ho
        rw [howner, if_neg (by rw [hown]; exact toNat_ne hne), hown]
      · simp only [howner] at ho ⊢
        split_ifs at ho with hown
        · omega
        · rw [if_neg hown]
          obtain ⟨a, id, mesh, heq, hm, hid, hin⟩ := h.owner o ho
          have hne : id ≠ blkid := by
            rintro rfl
            exact hown heq
          exact ⟨a, id, mesh, heq, (hmeshbuf a id mesh).mpr ⟨hm, hne⟩, (hrefs o id).mpr ⟨hid, hne⟩,
            hin⟩
      · simp only [hrefs, h.refs, HasMesh, isSome_iff_exists, hmeshbuf]
        grind
      · simp only [howner] at ho
        obtain ⟨id, hid⟩ := exists_mem_of_ne_nil _ hid
        obtain ⟨hid, hne⟩ := (hrefs o id).mp hid
        have hold : (∃ e ∈ s.expired, o ∈ objectsAt s.tiles e) →
            ∃ e ∈ s.expired ∪ pending, o ∈ objectsAt s.tiles e := by
          rintro ⟨e, hexp, hobj⟩
          exact ⟨e, Finset.mem_union_left _ hexp, hobj⟩
        split_ifs at ho with hown
        · have hobjmem := ((h.refs o blkid).mp (h.owner_mem hown)).2.1
          rcases hmeets o hobjmem hown ⟨id, hid, hne⟩ with ⟨e, he, hene, hlast⟩ | hexp
          · have hp := hpend o hobjmem hown e he hene hlast
            exact ⟨e, Finset.mem_union_right _ hp, ((h.refs o e).mp he).2.1⟩
          · exact hold hexp
        · exact hold (h.orphan o ho (ne_nil_of_mem hid))

/-! ## Drawing a mesh -/

/-- The objects that a block draws when it is drawn. -/
def drawnAt (s : Cache) (blkid : UInt32) : List Obj :=
  (objectsAt s.tiles blkid).filter fun o => !(s.data o).unclassified && Takes blkid (s.ext o)

/-- A block is drawn from the block that the cache has under its id, which is below 2^31; every
object that it draws finds its road, and no two of them have one key. -/
def DrawMeets (s : Cache) (blkid : UInt32) (c : BlockCache) : Prop :=
  ∀ m ∈ getmapByaddrUnlocked s.tiles c.map,
    ∀ blk ∈ (getblock m.map blkid).bind (m.map.blocks[·]?), blkid < 0x80000000 ∧ blockOf s.tiles c = some blk ∧
      ∀ roads ∈ roadsegIds s.tiles c.map blk, ∀ o ∈ drawnAt s blkid,
        (find roads (s.data o).roadid).isSome ∧
          ∀ o' ∈ drawnAt s blkid, (s.data o).key ≠ none → Clash s.data o' o → o' = o

/-- The mesh of a block is there, here or with a caller, and is not expired. -/
def Current (s : Cache) (blkid : UInt32) (outside : Bool) (c : BlockCache) : Prop :=
  (s.mesh blkid && ((s.meshbuf c.map blkid).isSome || outside)) = true ∧ blkid ∉ s.expired

/-- What `generate_mesh` does to the cache. -/
structure Generated (s s' : Cache) (addr : ℕ) (blkid : UInt32) (mesh : Mesh) : Prop where
  tiles : s'.tiles = s.tiles
  data : s'.data = s.data
  expired : s'.expired = s.expired
  meshbuf : s'.meshbuf =
    update s.meshbuf addr (update (s.meshbuf addr) blkid (some mesh))
  ext : ∀ o, s'.ext o = if o ∈ objectsAt s.tiles blkid ∧ (s.data o).unclassified = false
    then (s.ext o).attach blkid else s.ext o
  only : ∀ o ∈ mesh, o ∈ drawnAt s blkid
  drawn : ∀ o ∈ drawnAt s blkid, (s.data o).key ≠ none → o ∈ mesh

theorem generateMesh_spec (h : Placed s.tiles)
    (hlane : ∀ o, o.kind = .laneSec → (s.data o).unclassified = false) {blkid : UInt32}
    (hc : s.tiles.blocks.find blkid = some c) {r : Option Mesh}
    (hgen : generateMesh s c.map blkid = some (s', r)) (hmeets : DrawMeets s blkid c) :
    (s' = s ∧ r = none) ∨ ∃ mesh, r = some mesh ∧ Generated s s' c.map blkid mesh := by
  simp only [generateMesh, bind_eq_bind, bind_eq_some_iff] at hgen
  obtain ⟨m, hm, hgen⟩ := hgen
  cases hp : m.map.persistence with
  | true =>
      simp only [hp, if_true] at hgen
      cases hgen
      exact .inl ⟨rfl, rfl⟩
  | false =>
      simp only [hp, Bool.false_eq_true, if_false] at hgen
      cases hget : (getblock m.map blkid).bind (m.map.blocks[·]?) with
      | none =>
          simp only [hget] at hgen
          cases hgen
          exact .inl ⟨rfl, rfl⟩
      | some blk =>
          simp only [hget, bind_eq_some_iff] at hgen
          obtain ⟨roads, hroads, lanesecs, hlanes, roadobjs, hobjs, hgen⟩ := hgen
          obtain ⟨hlt, hblk, hdraw⟩ := hmeets m hm blk hget
          specialize hdraw roads hroads
          have hobjects : objectsAt s.tiles blkid = lanesecs ++ roadobjs := by
            rw [objects_append hlanes hobjs, objectsAt, hc, elim_some, hblk, elim_some]
          have hid : (blk.row * m.map.cols + blk.col).toUInt32 = blkid := by
            obtain ⟨map, blk', hmap, -, hblk', hid⟩ := h.blockOf hc
            obtain rfl : blk' = blk := some.inj (hblk'.symm.trans hblk)
            have hm' : s.tiles.maplist.find? (fun m => m.addr = c.map) = some m := hm
            obtain rfl : m.map = map := by
              rw [tileAt, hm'] at hmap
              exact some.inj hmap
            exact hid
          have hclass : ∀ o ∈ lanesecs, (s.data o).unclassified = false := by
            intro o ho
            rw [mapM_eq_some_filterMap hlanes] at ho
            obtain ⟨slot, -, hobj⟩ := mem_filterMap.mp ho
            refine hlane o ?_
            cases slot <;> cases hobj <;> rfl
          have hmem : ∀ o, o ∈ drawnAt s blkid ↔
              (o ∈ lanesecs ++ roadobjs ∧ (s.data o).unclassified = false) ∧
                Takes blkid (s.ext o) := by
            intro o
            rw [drawnAt, hobjects, mem_filter]
            simp [and_assoc]
          obtain ⟨ext₁, odrm₁, ext₂, odrm₂, heq₁, heq₂, hdes⟩ := deserializeBlock_spec
            (toInt_of_toUInt32 hid hlt) hid lanesecs roadobjs s.ext hclass
            fun o ho hcl ht => (hdraw o ((hmem o).mpr ⟨⟨ho, hcl⟩, ht⟩)).1
          simp only [heq₁, heq₂] at hgen
          cases hgen
          refine .inr ⟨odrm₂, rfl, rfl, rfl, rfl, rfl, fun o => ?_, fun o ho => ?_,
            fun o ho hkey => ?_⟩
          · simp only [hdes.joined, hobjects, mem_filter, Bool.not_eq_true']
          · obtain hnil | ⟨hin, ht⟩ := hdes.only o ho
            · cases hnil
            · obtain ⟨hin, hcl⟩ := mem_filter.mp hin
              exact (hmem o).mpr ⟨⟨hin, by simpa using hcl⟩, ht⟩
          · obtain ⟨hin, ht⟩ := (hmem o).mp ho
            obtain ⟨o', ho', hclash⟩ :=
              hdes.drawn o (mem_filter.mpr ⟨hin.1, by simpa using hin.2⟩) ht hkey
            -- the object that is in the mesh under this key is this one
            have hdrawn' : o' ∈ drawnAt s blkid := by
              obtain hnil | ⟨hin', ht'⟩ := hdes.only o' ho'
              · cases hnil
              · obtain ⟨hin', hcl'⟩ := mem_filter.mp hin'
                exact (hmem o').mpr ⟨⟨hin', by simpa using hcl'⟩, ht'⟩
            exact (hdraw o ho).2 o' hdrawn' hkey hclash ▸ ho'

/-- **A block that is drawn** joins its objects and is off the list. -/
theorem generated_drawn (h : Drawn s) {blkid : UInt32} {mesh : Mesh}
    (hc : s.tiles.blocks.find blkid = some c) (hgen : Generated s s' c.map blkid mesh)
    (b : UInt32 → Bool) : Drawn { s' with mesh := b, expired := s'.expired.erase blkid } := by
  obtain ⟨htiles, hdata, hexpired, hmeshbuf, hext, honly, hdrawn⟩ := hgen
  have hmeshes : ∀ a id m, s'.meshbuf a id = some m ↔
      (a = c.map ∧ id = blkid ∧ m = mesh) ∨ (id ≠ blkid ∧ s.meshbuf a id = some m) := by
    intro a id m
    rw [hmeshbuf]
    by_cases hid : id = blkid
    · subst hid
      by_cases ha : a = c.map
      · subst ha
        rw [meshbuf_update_self]
        simp [eq_comm]
      · rw [meshbuf_update (by simp [ha])]
        simp only [ha, false_and, ne_eq, not_true_eq_false, false_or, iff_false]
        intro hm
        obtain ⟨c', hc', rfl⟩ := h.meshes a id m hm
        rw [hc] at hc'
        cases hc'
        exact ha rfl
    · rw [meshbuf_update (by simp [hid])]
      simp [hid]
  have hown : ∀ o, (s'.ext o).meshgenBlockid =
      if (o ∈ objectsAt s.tiles blkid ∧ (s.data o).unclassified = false) ∧
        (s.ext o).meshgenBlockid < 0 then (blkid.toNat : ℤ) else (s.ext o).meshgenBlockid := by
    intro o
    rw [hext]
    split_ifs with hmem hboth hboth
    · rw [owner_attach, if_pos hboth.2]
    · rw [owner_attach, if_neg fun hneg => hboth ⟨hmem, hneg⟩]
    · exact absurd hboth.1 hmem
    · rfl
  have hrefs : ∀ o id, id ∈ (s'.ext o).refs ↔
      (id = blkid ∧ o ∈ objectsAt s.tiles blkid ∧ (s.data o).unclassified = false) ∨
        id ∈ (s.ext o).refs := by
    intro o id
    rw [hext]
    split_ifs with hmem
    · rw [mem_refs_attach]
      grind
    · grind
  have hdraw : ∀ o, o ∈ drawnAt s blkid ↔
      (o ∈ objectsAt s.tiles blkid ∧ (s.data o).unclassified = false) ∧ Takes blkid (s.ext o) := by
    intro o
    rw [drawnAt, mem_filter]
    simp [and_assoc]
  -- an object that the block has drawn before is drawn again
  have hagain : ∀ o, (s.ext o).meshgenBlockid = blkid.toNat → o ∈ drawnAt s blkid := by
    intro o ho
    obtain ⟨-, hobj, hcl⟩ := (h.refs o blkid).mp (h.owner_mem ho)
    exact (hdraw o).mpr ⟨⟨hobj, hcl⟩, .inr ho⟩
  refine ⟨by rw [htiles]; exact h.tiles, by simpa only [hdata] using h.lane,
    fun a id m hm => ?_, fun a id m hm o ho => ?_, fun o ho => ?_,
    fun o id => ?_, fun o ho hid => ?_⟩
  · simp only [htiles]
    rcases (hmeshes a id m).mp hm with ⟨rfl, rfl, -⟩ | ⟨-, hm⟩
    · exact ⟨c, hc, rfl⟩
    · exact h.meshes a id m hm
  · simp only [hown]
    rcases (hmeshes a id m).mp hm with ⟨rfl, rfl, rfl⟩ | ⟨-, hm⟩
    · obtain ⟨hmem, hneg | heq⟩ := (hdraw o).mp (honly o ho)
      · rw [if_pos ⟨hmem, hneg⟩]
      · rw [if_neg (by omega), heq]
    · have heq := h.drawn a id m hm o ho
      rw [if_neg (by omega), heq]
  · simp only [hown] at ho ⊢
    have hdrawable :
        Drawable { s' with mesh := b, expired := s'.expired.erase blkid } o → Drawable s o := by
      simp only [Drawable, hdata]
      exact id
    split_ifs at ho ⊢ with htake
    · refine ⟨c.map, blkid, mesh, rfl, (hmeshes _ _ _).mpr (.inl ⟨rfl, rfl, rfl⟩),
        (hrefs o blkid).mpr (.inl ⟨rfl, htake.1⟩), fun hkey => ?_⟩
      exact hdrawn o ((hdraw o).mpr ⟨htake.1, .inl htake.2⟩) (hdrawable hkey).2
    · obtain ⟨a, id, m, heq, hm, hid, hin⟩ := h.owner o ho
      by_cases hblk : id = blkid
      · subst hblk
        refine ⟨c.map, id, mesh, heq, (hmeshes _ _ _).mpr (.inl ⟨rfl, rfl, rfl⟩),
          (hrefs o id).mpr (.inr hid), fun hkey => ?_⟩
        exact hdrawn o (hagain o heq) (hdrawable hkey).2
      · exact ⟨a, id, m, heq, (hmeshes _ _ _).mpr (.inr ⟨hblk, hm⟩), (hrefs o id).mpr (.inr hid),
          fun hkey => hin (hdrawable hkey)⟩
  · simp only [hrefs, h.refs, HasMesh, isSome_iff_exists, hmeshes, htiles, hdata]
    grind
  · simp only [hown] at ho
    split_ifs at ho with htake
    · omega
    · have hnot : ¬ (o ∈ objectsAt s.tiles blkid ∧ (s.data o).unclassified = false) :=
        fun hmem => htake ⟨hmem, ho⟩
      have hsame : s'.ext o = s.ext o := by rw [hext, if_neg hnot]
      simp only [hsame] at hid
      obtain ⟨e, hexp, hobj⟩ := h.orphan o ho hid
      simp only [hexpired, htiles, Finset.mem_erase]
      refine ⟨e, ⟨?_, hexp⟩, hobj⟩
      rintro rfl
      obtain ⟨id, hid⟩ := exists_mem_of_ne_nil _ hid
      exact hnot ⟨hobj, ((h.refs o id).mp hid).2.2⟩

/-- **`get_mesh`** -/
theorem getMesh_drawn (h : Drawn s) {blkid : UInt32} {outside : Bool}
    (hstep : getMesh s blkid outside = some (s', reply))
    (hmeets : ∀ c ∈ s.tiles.blocks.find blkid, Current s blkid outside c ∨ DrawMeets s blkid c) :
    Drawn s' := by
  unfold getMesh at hstep
  cases hc : s.tiles.blocks.find blkid with
  | none =>
      simp only [hc] at hstep
      cases hstep
      exact h
  | some c =>
      simp only [hc] at hstep
      split_ifs at hstep with hcurrent
      · cases hstep
        exact h
      · have hdraw := (hmeets c hc).resolve_left hcurrent
        cases hgen : generateMesh s c.map blkid with
        | none =>
            simp only [hgen] at hstep
            cases hstep
        | some p =>
            obtain ⟨s₁, r⟩ := p
            simp only [hgen] at hstep
            rcases generateMesh_spec h.tiles h.lane hc hgen hdraw with
              ⟨rfl, rfl⟩ | ⟨mesh, rfl, hgenerated⟩
            · cases hstep
              exact h
            · cases hstep
              exact generated_drawn h hc hgenerated _

/-! ## Adding a tile -/

/-- **New objects** have no owner, and no block with a mesh refers to them. -/
theorem drawn_of_extends (h : Drawn s) (htiles : Placed s'.tiles)
    (he : Extends s.tiles s'.tiles) {addr : ℕ} (haddr : addr ∉ s.tiles.addrs)
    (hlane : ∀ o, o.kind = .laneSec → (s'.data o).unclassified = false)
    (hdata : ∀ o, o.map ≠ addr → s'.data o = s.data o)
    (hext : ∀ o, s'.ext o = if o.map = addr then .new else s.ext o)
    (hmeshbuf : ∀ a id, s'.meshbuf a id = if a = addr then none else s.meshbuf a id)
    (hexpired : s'.expired = s.expired) : Drawn s' := by
  have hmeshes : ∀ a id mesh, s'.meshbuf a id = some mesh ↔ s.meshbuf a id = some mesh := by
    intro a id mesh
    rw [hmeshbuf]
    split_ifs with ha
    · refine ⟨fun hm => (by cases hm), fun hm => ?_⟩
      obtain ⟨c, hc, rfl⟩ := h.meshes a id mesh hm
      obtain ⟨map, blk, hmap, -⟩ := h.tiles.placed id c hc
      exact absurd (mem_addrs_of_tileAt hmap) (ha ▸ haddr)
    · rfl
  -- a block with a mesh refers to the same objects as before
  have hobjs : ∀ id, HasMesh s id → objectsAt s'.tiles id = objectsAt s.tiles id := by
    rintro id ⟨a, hm⟩
    obtain ⟨mesh, hm⟩ := isSome_iff_exists.mp hm
    obtain ⟨c, hc, -⟩ := h.meshes a id mesh hm
    exact he.objectsAt h.tiles hc
  have hold : ∀ o id, o ∈ objectsAt s.tiles id → o.map ≠ addr := fun o id ho heq =>
    haddr (heq ▸ h.tiles.mem_addrs ho)
  have hrefsold : ∀ o id, id ∈ (s.ext o).refs → o.map ≠ addr := fun o id hid =>
    hold o id ((h.refs o id).mp hid).2.1
  have hnew : Extinfo.new.refs = [] := rfl
  have hext' : ∀ o, 0 ≤ (s'.ext o).meshgenBlockid → s'.ext o = s.ext o := by
    intro o ho
    rw [hext] at ho ⊢
    split_ifs at ho ⊢ with hmap
    · simp [Extinfo.new] at ho
    · rfl
  refine ⟨htiles, hlane, fun a id mesh hm => ?_, fun a id mesh hm o ho => ?_, fun o ho => ?_,
    fun o id => ?_, fun o ho hid => ?_⟩
  · obtain ⟨c, hc, hmap⟩ := h.meshes a id mesh ((hmeshes a id mesh).mp hm)
    exact ⟨c, he.blocks id c hc, hmap⟩
  · have hown := h.drawn a id mesh ((hmeshes a id mesh).mp hm) o ho
    rw [hext, if_neg (hrefsold o id (h.owner_mem hown)), hown]
  · have hsame := hext' o ho
    rw [hsame] at ho ⊢
    obtain ⟨a, id, mesh, heq, hm, hid, hin⟩ := h.owner o ho
    refine ⟨a, id, mesh, heq, (hmeshes a id mesh).mpr hm, hid, fun hdraw => hin ?_⟩
    rwa [Drawable, hdata o (hrefsold o id hid)] at hdraw
  · have hmesh : HasMesh s' id ↔ HasMesh s id := by
      simp only [HasMesh, isSome_iff_exists, hmeshes]
    rw [hext, hmesh]
    split_ifs with hmap
    · rw [hnew]
      simp only [not_mem_nil, false_iff, not_and]
      intro hm ho
      rw [hobjs id hm] at ho
      exact absurd hmap (hold o id ho)
    · rw [h.refs, hdata o hmap]
      exact and_congr_right fun hm => by rw [hobjs id hm]
  · rw [hext] at ho hid
    split_ifs at ho hid with hmap
    · exact absurd hnew hid
    · rw [hexpired]
      obtain ⟨e, hexp, hobj⟩ := h.orphan o ho hid
      obtain ⟨c, blk, hc, -⟩ := mem_objectsAt.mp hobj
      exact ⟨e, hexp, by rwa [he.objectsAt h.tiles hc]⟩

/-- **`add_tile`** -/
theorem addTile_drawn (h : Drawn s) {buffer : Except Error MeshTile}
    (hstep : addTile s buffer = some (s', reply))
    (hmeets : ∀ tile, buffer = .ok tile → TileMeets s.tiles tile.toTileBuffer) : Drawn s' := by
  unfold addTile at hstep
  cases hadd : TileCache.addTile s.tiles (buffer.map MeshTile.toTileBuffer) with
  | none =>
      simp only [hadd] at hstep
      cases hstep
  | some p =>
      obtain ⟨tiles, ret⟩ := p
      simp only [hadd] at hstep
      have hfresh := alloc_not_mem s.tiles
      cases buffer with
      | error e =>
          cases hadd
          cases hstep
          exact ⟨h.tiles, h.lane, h.meshes, h.drawn, h.owner, h.refs, h.orphan⟩
      | ok tile =>
          obtain ⟨hplaced, he⟩ := addTile_placed h.tiles hadd fun tile' heq => by
            cases heq
            exact hmeets tile rfl
          cases hstep
          refine drawn_of_extends h hplaced he hfresh (fun o ho => ?_) (fun o ho => if_neg ho)
            (fun o => rfl) (fun a id => ?_) rfl
          · simp only
            split_ifs
            · rw [ho]
              rfl
            · exact h.lane o ho
          · by_cases ha : a = alloc s.tiles
            · simp [ha]
            · simp [ha]

/-! ## Runs -/

/-- What the calls have to keep to. -/
def Meets (s : Cache) : Call → Prop
  | .addTile (.error _) => True
  | .addTile (.ok tile) => TileMeets s.tiles tile.toTileBuffer
  | .getMesh blkid outside =>
      ∀ c ∈ s.tiles.blocks.find blkid, Current s blkid outside c ∨ DrawMeets s blkid c
  | .releaseMesh blkid => ReleaseMeets s blkid

/-- **Every call** keeps the meshes and the owners together. -/
theorem step_drawn (s : Cache) (call : Call) (s' : Cache) (reply : Reply) (h : Drawn s)
    (hstep : step s call = some (s', reply)) (hmeets : Meets s call) : Drawn s' := by
  cases call with
  | addTile buffer =>
      refine addTile_drawn h hstep fun tile heq => ?_
      subst heq
      exact hmeets
  | getMesh blkid outside => exact getMesh_drawn h hstep hmeets
  | releaseMesh blkid => exact releaseMesh_drawn h hstep hmeets

theorem drawn_new : Drawn .new where
  tiles := ⟨nodup_nil, by simp [Cache.new, TilecacheImpl.new],
    by simp [Cache.new, TilecacheImpl.new, tileAt]⟩
  lane := by simp [Cache.new]
  meshes := by simp [Cache.new]
  drawn := by simp [Cache.new]
  owner := by simp [Cache.new, Extinfo.new]
  refs := by simp [Cache.new, Extinfo.new, Extinfo.refs, HasMesh]
  orphan := by simp [Cache.new, Extinfo.new, Extinfo.refs]

/-- **No object is lost** in any state of a run whose calls keep to `Meets`. -/
theorem noneLost_of_meets {calls : List Call} (hmeets : Guarded step Meets .new calls)
    {replies : List Reply} (hrun : run step .new calls = some (s, replies)) : NoneLost s :=
  (guarded_invariant step_drawn drawn_new hmeets hrun).noneLost

/-- A tile with blocks 0, 1 and 2 on one road. -/
def threeBlocks (first second third : List ℕ) (lanesecs : List UInt32) : MeshTile where
  persistence := false
  mapinfoOnly := false
  uuid := 1
  cols := 4
  blocks := [⟨0, 0, [.own 0], first.map .own, [], []⟩, ⟨0, 1, [.own 0], second.map .own, [], []⟩,
    ⟨0, 2, [.own 0], third.map .own, [], []⟩]
  roadsegs := [7]
  lanesecs := lanesecs
  roadobjs := []
  closed := by simp [Block.slots]
  lanesecData idx := ⟨7, idx⟩
  roadobjData _ := ⟨false, 7, none⟩

/-- Two lane sections are drawn by block 0, and by block 2 when block 0 goes. -/
def handedOver : List Call :=
  [.addTile (.ok (threeBlocks [0, 1] [0] [0, 1] [1, 2])), .getMesh 0 false, .getMesh 1 false,
    .getMesh 2 true, .releaseMesh 0, .getMesh 2 false, .getMesh 0 false, .releaseMesh 1]

-- not by trying all numbers
local instance (priority := 2000) decidableForallIds {p : UInt32 → Prop} [DecidablePred p]
    (ids : List UInt32) : Decidable (∀ id ∈ ids, p id) := List.decidableBAll p ids

local instance (priority := 2000) decidableExistsIds {p : UInt32 → Prop} [DecidablePred p]
    (ids : List UInt32) : Decidable (∃ id ∈ ids, p id) := List.decidableBEx p ids

local instance (priority := 2000) decidableExistsExpired {p : UInt32 → Prop} [DecidablePred p]
    (ids : Finset UInt32) : Decidable (∃ id ∈ ids, p id) := Finset.decidableExistsAndFinset

instance (s : Cache) : DecidablePred (Meets s)
  | .addTile (.error _) => inferInstanceAs (Decidable True)
  | .addTile (.ok _) => inferInstanceAs (Decidable (_ ∨ _))
  | .getMesh blkid _ => inferInstanceAs (Decidable (∀ c ∈ s.tiles.blocks.find blkid,
      (_ ∧ _) ∨ ∀ m ∈ getmapByaddrUnlocked s.tiles c.map,
        ∀ blk ∈ (getblock m.map blkid).bind (m.map.blocks[·]?), _ ∧ _ ∧
          ∀ roads ∈ roadsegIds s.tiles c.map blk, ∀ o ∈ drawnAt s blkid,
            _ ∧ ∀ o' ∈ drawnAt s blkid, _))
  | .releaseMesh blkid => inferInstanceAs (Decidable (∀ o ∈ objectsAt s.tiles blkid, _))

theorem noneLost_of_meets_handedOver : ∃ s replies,
    run step .new handedOver = some (s, replies) ∧ NoneLost s := by
  obtain ⟨⟨s, replies⟩, hrun, -⟩ := exists_of_any
    (show (run step .new handedOver).any (fun p => p.2.length = 8) = true by decide +kernel)
  exact ⟨s, replies, hrun, noneLost_of_meets (by decide +kernel) hrun⟩

/-- Of the lane sections of block 0, one is shared with block 1 and two with block 2, and only
block 2 comes on the list. -/
def differentCounts : List Call :=
  [.addTile (.ok (threeBlocks [0, 1, 2] [0] [1, 2] [1, 2, 3])), .getMesh 0 false,
    .getMesh 1 false, .getMesh 2 false, .releaseMesh 0]

/-- The first lane section: nobody draws it, block 1 has a mesh, and is not on the list. -/
theorem lost_differentCounts : ∃ s replies,
    run step .new differentCounts = some (s, replies) ∧ ¬ NoneLost s := by
  let o : Obj := ⟨.laneSec, 1, 0⟩
  obtain ⟨⟨s, replies⟩, hrun, hlost⟩ := exists_of_any
    (show (run step .new differentCounts).any (fun p => decide
      (((p.1.data o).unclassified = false ∧ (p.1.data o).key ≠ none) ∧
        o ∈ objectsAt p.1.tiles 1 ∧ (p.1.meshbuf 1 1).isSome ∧ (p.1.ext o).meshgenBlockid = -1 ∧
        p.1.expired.filter (o ∈ objectsAt p.1.tiles ·) = ∅)) = true by decide +kernel)
  obtain ⟨hdraw, hobj, hmesh, hown, hexp⟩ := of_decide_eq_true hlost
  refine ⟨s, replies, hrun, fun hnone => ?_⟩
  rcases hnone.kept o hdraw 1 hobj ⟨1, hmesh⟩ with ⟨_, owner, _, heq, -⟩ | ⟨id, hmem, hid⟩
  · have hnone := hown.symm.trans heq
    omega
  · exact Finset.filter_eq_empty_iff.mp hexp hid hmem

end V2I.TileMesh
