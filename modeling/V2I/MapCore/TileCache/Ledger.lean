import V2I.MapCore.TileCache.FixBlocks

/-!
# V2I.MapCore.TileCache.Ledger

The accounts of the tile cache: which blocks are live, which tiles they belong to, and
which tiles they refer to.

`Ledger` is the invariant of the counts. It holds between two calls with nothing pending.
While a block is released, the references it still has to give back are pending, its tile
owes it one block (`owner`), and a tile that has just lost a reference may have none left
(`free`). Each small step of the code is one lemma about the ledger: a block is taken
(`Ledger.take`), a reference is given back (`Ledger.giveBack`), the block is off the tile's
count (`Ledger.retire`), a tile is kept or freed (`Ledger.keep`, `Ledger.release`), a tile
is loaded (`Ledger.load`).
-/

namespace V2I.TileCache

open List

/-- A block that is live: its id, the address of its tile, and its index in the tile. -/
structure Live where
  id : UInt32
  map : ℕ
  block : ℕ
  deriving DecidableEq

/-- The tile at an address. -/
def tileAt (maps : List RendermapImpl) (addr : ℕ) : Option Rendermap :=
  (maps.find? fun m => m.addr = addr).map RendermapImpl.map

/-- The pointers of a live block. -/
def slotsAt (maps : List RendermapImpl) (l : Live) : List Slot :=
  ((tileAt maps l.map).bind fun t => t.blocks[l.block]?).elim [] Block.slots

/-- The pointers of all live blocks. -/
def held (maps : List RendermapImpl) (live : List Live) : List Slot := live.flatMap (slotsAt maps)

/-- A pointer of a block of the tile at `own`. -/
def Sound (maps : List RendermapImpl) (own : ℕ) : Slot → Prop
  | .own _ => True
  | .referring _ => False
  | .object map _ => map ∈ maps.map RendermapImpl.addr ∧ map ≠ own

/-- The invariant of the counts. -/
structure Ledger (maps : List RendermapImpl) (live : List Live) (pend : List Slot)
    (owner free : Option ℕ) : Prop where
  addrs : (maps.map RendermapImpl.addr).Nodup
  ids : (live.map Live.id).Nodup
  placed : ∀ l ∈ live, ∃ t blk, tileAt maps l.map = some t ∧ t.blocks[l.block]? = some blk ∧
    blkid t.cols blk = l.id
  apart : ∀ a b t t', tileAt maps a = some t → tileAt maps b = some t' →
    ∀ id ∈ t.blkids, id ∈ t'.blkids → a = b
  sound : ∀ l ∈ live, ∀ slot ∈ slotsAt maps l, Sound maps l.map slot
  pending : ∀ slot ∈ pend, ∃ own, owner = some own ∧ Sound maps own slot
  owned : ∀ own ∈ owner, own ∈ maps.map RendermapImpl.addr
  refcnt : ∀ m ∈ maps, m.refcnt = objects (held maps live ++ pend) m.addr
  active : ∀ m ∈ maps, m.activeBlkcnt = ((live.map Live.map).count m.addr + owner.toList.count m.addr : ℕ)
  positive : ∀ m ∈ maps, free = some m.addr ∨ 0 < m.activeBlkcnt ∨ 0 < m.refcnt

/-! ## Tiles by their address -/

variable {maps : List RendermapImpl} {addr : ℕ}

theorem tileAt_eq_some {t : Rendermap} (h : tileAt maps addr = some t) :
    ∃ m ∈ maps, m.addr = addr ∧ m.map = t := by
  obtain ⟨m, hm, rfl⟩ := Option.map_eq_some_iff.mp h
  exact ⟨m, mem_of_find?_eq_some hm, by simpa using find?_some hm, rfl⟩

theorem mem_addrs_of_tileAt {t : Rendermap} (h : tileAt maps addr = some t) :
    addr ∈ maps.map RendermapImpl.addr := by
  obtain ⟨m, hm, rfl, -⟩ := tileAt_eq_some h
  exact List.mem_map_of_mem hm

theorem find?_addr (hnodup : (maps.map RendermapImpl.addr).Nodup) {m : RendermapImpl}
    (hm : m ∈ maps) : maps.find? (fun m' => m'.addr = m.addr) = some m := by
  induction maps with
  | nil => cases hm
  | cons m' maps ih =>
      simp only [map_cons, nodup_cons] at hnodup
      rcases mem_cons.mp hm with rfl | hm
      · simp
      · have hne : m'.addr ≠ m.addr := fun h => hnodup.1 (h ▸ List.mem_map_of_mem hm)
        simp [hne, ih hnodup.2 hm]

theorem tileAt_of_mem (hnodup : (maps.map RendermapImpl.addr).Nodup) {m : RendermapImpl}
    (hm : m ∈ maps) : tileAt maps m.addr = some m.map := by
  rw [tileAt, find?_addr hnodup hm]
  rfl

/-- Changes of the counts do not show. -/
theorem tileAt_map {f : RendermapImpl → RendermapImpl} (hf : ∀ m, (f m).addr = m.addr ∧ (f m).map = m.map)
    (maps : List RendermapImpl) : tileAt (maps.map f) = tileAt maps := by
  funext addr
  have hpred : ((fun m : RendermapImpl => decide (m.addr = addr)) ∘ f) = fun m => decide (m.addr = addr) := by
    funext m
    simp [(hf m).1]
  have hmap : RendermapImpl.map ∘ f = RendermapImpl.map := funext fun m => (hf m).2
  rw [tileAt, tileAt, List.find?_map, hpred, Option.map_map, hmap]

theorem tileAt_filter {a : ℕ} (h : addr ≠ a) :
    tileAt (maps.filter fun m => m.addr ≠ a) addr = tileAt maps addr := by
  have hfind : (maps.filter fun m => m.addr ≠ a).find? (fun m => m.addr = addr) =
      maps.find? fun m => m.addr = addr := by
    induction maps with
    | nil => rfl
    | cons m maps ih =>
        by_cases hm : m.addr = a
        · have hne : m.addr ≠ addr := fun h' => h (h' ▸ hm)
          simp only [hm, ne_eq, not_true_eq_false, decide_false, Bool.false_eq_true,
            not_false_eq_true, filter_cons_of_neg, find?_cons]
          rw [decide_eq_false (hm ▸ hne)]
          simpa using ih
        · simp only [ne_eq, hm, not_false_eq_true, decide_true, filter_cons_of_pos, find?_cons]
          rw [show (maps.filter fun m => ¬ m.addr = a) = maps.filter fun m => m.addr ≠ a from rfl, ih]
  rw [tileAt, tileAt, hfind]

theorem tileAt_append {new : RendermapImpl} (hnew : new.addr ∉ maps.map RendermapImpl.addr)
    (addr : ℕ) :
    tileAt (maps ++ [new]) addr = if addr = new.addr then some new.map else tileAt maps addr := by
  rw [tileAt, tileAt, find?_append]
  split_ifs with haddr
  · have hnone : maps.find? (fun m => m.addr = addr) = none := by
      rw [find?_eq_none]
      intro m hm
      simpa [haddr] using fun h : m.addr = new.addr => hnew (h ▸ List.mem_map_of_mem hm)
    rw [hnone]
    simp [haddr]
  · simp [Ne.symm haddr]

/-! ## Objects -/

theorem objects_perm {l l' : List Slot} (h : l.Perm l') : objects l = objects l' := by
  funext a
  exact h.countP_eq _

theorem objects_pos_iff {l : List Slot} : 0 < objects l addr ↔ ∃ idx, .object addr idx ∈ l := by
  rw [objects, countP_pos_iff]
  constructor
  · rintro ⟨slot, hslot, h⟩
    cases slot with
    | own idx => cases h
    | referring id => cases h
    | object map idx =>
        have hmap : map = addr := by simpa using h
        exact ⟨idx, hmap ▸ hslot⟩
  · rintro ⟨idx, hidx⟩
    exact ⟨_, hidx, by simp⟩

/-! ## The steps -/

section Steps

variable {maps : List RendermapImpl} {live live' : List Live} {pend : List Slot} {owner free : Option ℕ}

theorem mem_held {slot : Slot} : slot ∈ held maps live ↔ ∃ l ∈ live, slot ∈ slotsAt maps l :=
  mem_flatMap

variable {l : Live}

/-- A live block is one of a loaded tile. -/
theorem Ledger.exists_tile (h : Ledger maps live pend owner free) (hl : l ∈ live) :
    ∃ m ∈ maps, m.addr = l.map ∧ l.id ∈ m.map.blkids := by
  obtain ⟨t, blk, ht, hblk, hblkid⟩ := h.placed l hl
  obtain ⟨m, hm, haddr, rfl⟩ := tileAt_eq_some ht
  exact ⟨m, hm, haddr, mem_map.mpr ⟨blk, mem_of_getElem? hblk, hblkid⟩⟩

theorem Ledger.mem_addrs (h : Ledger maps live pend owner free) (hl : l ∈ live) :
    l.map ∈ maps.map RendermapImpl.addr := by
  obtain ⟨m, hm, haddr, -⟩ := h.exists_tile hl
  exact haddr ▸ List.mem_map_of_mem hm

/-- The order of the blocks does not matter. -/
theorem Ledger.perm (h : Ledger maps live pend owner free) (hp : live.Perm live') :
    Ledger maps live' pend owner free where
  addrs := h.addrs
  ids := (hp.map _).nodup_iff.mp h.ids
  placed l hl := h.placed l (hp.mem_iff.mpr hl)
  apart := h.apart
  sound l hl := h.sound l (hp.mem_iff.mpr hl)
  pending := h.pending
  owned := h.owned
  refcnt m hm := by
    have hheld : (held maps live).Perm (held maps live') := hp.flatMap_right _
    rw [h.refcnt m hm, objects_perm (hheld.append_right pend)]
  active m hm := by rw [h.active m hm, (hp.map _).count_eq]
  positive := h.positive

/-- Only the counts change. -/
theorem Ledger.map {f : RendermapImpl → RendermapImpl}
    (hf : ∀ m, (f m).addr = m.addr ∧ (f m).map = m.map) (h : Ledger maps live pend owner free)
    {pend' : List Slot} {owner' free' : Option ℕ}
    (hpend : ∀ slot ∈ pend', ∃ own, owner' = some own ∧ Sound maps own slot)
    (howned : ∀ own ∈ owner', own ∈ maps.map RendermapImpl.addr)
    (hrefcnt : ∀ m ∈ maps, (f m).refcnt = objects (held maps live ++ pend') m.addr)
    (hactive : ∀ m ∈ maps,
      (f m).activeBlkcnt = ((live.map Live.map).count m.addr + owner'.toList.count m.addr : ℕ))
    (hpos : ∀ m ∈ maps, free' = some m.addr ∨ 0 < (f m).activeBlkcnt ∨ 0 < (f m).refcnt) :
    Ledger (maps.map f) live pend' owner' free' := by
  have haddr : (maps.map f).map RendermapImpl.addr = maps.map RendermapImpl.addr := by
    rw [List.map_map]
    exact List.map_congr_left fun m _ => (hf m).1
  have htile := tileAt_map hf maps
  have hslots : slotsAt (maps.map f) = slotsAt maps := by
    funext l
    rw [slotsAt, slotsAt, htile]
  have hsound : ∀ own slot, Sound (maps.map f) own slot ↔ Sound maps own slot := by
    intro own slot
    cases slot <;> simp only [Sound, haddr]
  refine ⟨by rw [haddr]; exact h.addrs, h.ids, ?_, ?_, ?_, ?_, by rw [haddr]; exact howned, ?_, ?_, ?_⟩
  · rw [htile]
    exact h.placed
  · rw [htile]
    exact h.apart
  · simpa only [hslots, hsound] using h.sound
  · simpa only [hsound] using hpend
  · rw [List.forall_mem_map]
    intro m hm
    have hheld : held (maps.map f) live = held maps live := by rw [held, hslots, held]
    rw [hrefcnt m hm, hheld, (hf m).1]
  · rw [List.forall_mem_map]
    intro m hm
    rw [hactive m hm, (hf m).1]
  · rw [List.forall_mem_map]
    intro m hm
    rw [(hf m).1]
    exact hpos m hm

/-- A block is taken out; its references are still counted. -/
theorem Ledger.take (h : Ledger maps (l :: live) [] none none) :
    Ledger maps live (slotsAt maps l) (some l.map) none where
  addrs := h.addrs
  ids := (nodup_cons.mp h.ids).2
  placed l' hl' := h.placed l' (mem_cons_of_mem _ hl')
  apart := h.apart
  sound l' hl' := h.sound l' (mem_cons_of_mem _ hl')
  pending slot hslot := ⟨l.map, rfl, h.sound l mem_cons_self slot hslot⟩
  owned own hown := by
    cases hown
    exact h.mem_addrs mem_cons_self
  refcnt m hm := by
    rw [h.refcnt m hm, append_nil, held, flatMap_cons, objects_perm perm_append_comm]
    rfl
  active m hm := by
    rw [h.active m hm, map_cons, count_cons]
    simp [count_singleton]
  positive := h.positive

/-- A pointer to an own object is nothing to give back. -/
theorem Ledger.skip {idx : ℕ} (h : Ledger maps live (.own idx :: pend) owner free) :
    Ledger maps live pend owner free where
  addrs := h.addrs
  ids := h.ids
  placed := h.placed
  apart := h.apart
  sound := h.sound
  pending slot hslot := h.pending slot (mem_cons_of_mem _ hslot)
  owned := h.owned
  refcnt m hm := by
    rw [h.refcnt m hm, objects_append, objects_append, objects_cons, objects_own, zero_add]
  active := h.active
  positive := h.positive

/-- A reference is given back; its tile may have none left. -/
theorem Ledger.giveBack {a idx : ℕ} (h : Ledger maps live (.object a idx :: pend) owner none) :
    Ledger (maps.map fun m => if m.addr = a then { m with refcnt := m.refcnt - 1 } else m) live pend
      owner (some a) := by
  refine h.map (fun m => by split <;> exact ⟨rfl, rfl⟩)
    (fun slot hslot => h.pending slot (mem_cons_of_mem _ hslot)) h.owned ?_ ?_ ?_
  · intro m hm
    have hcount := h.refcnt m hm
    rw [objects_append, objects_cons, objects_object] at hcount
    rw [objects_append]
    split_ifs with ha
    · simp only [Pi.add_apply, ha, Pi.single_eq_same] at hcount ⊢
      omega
    · simp only [Pi.add_apply, Pi.single_eq_of_ne ha] at hcount ⊢
      omega
  · intro m hm
    have hactive := h.active m hm
    split_ifs <;> exact hactive
  · intro m hm
    by_cases ha : m.addr = a
    · exact .inl (by rw [ha])
    · rw [if_neg ha]
      exact .inr ((h.positive m hm).resolve_left (by simp))

/-- The block is off the count of its tile. -/
theorem Ledger.retire {own : ℕ} (h : Ledger maps live [] (some own) none) :
    Ledger (maps.map fun m => if m.addr = own then { m with activeBlkcnt := m.activeBlkcnt - 1 } else m)
      live [] none (some own) := by
  refine h.map (fun m => by split <;> exact ⟨rfl, rfl⟩) (by simp) (by simp) ?_ ?_ ?_
  · intro m hm
    have hrefcnt := h.refcnt m hm
    split_ifs <;> exact hrefcnt
  · intro m hm
    have hcount := h.active m hm
    simp only [Option.toList_some, count_singleton, Option.toList_none, count_nil] at hcount ⊢
    split_ifs with ha
    · simp only [ha, beq_self_eq_true, if_true] at hcount ⊢
      omega
    · simp only [beq_iff_eq, Ne.symm ha, if_false] at hcount
      omega
  · intro m hm
    by_cases ha : m.addr = own
    · exact .inl (by rw [ha])
    · rw [if_neg ha]
      exact .inr ((h.positive m hm).resolve_left (by simp))

/-- A tile that still has blocks or references is kept. -/
theorem Ledger.keep {a : ℕ} (h : Ledger maps live pend owner (some a))
    (ha : ∀ m ∈ maps, m.addr = a → 0 < m.activeBlkcnt ∨ 0 < m.refcnt) :
    Ledger maps live pend owner none where
  addrs := h.addrs
  ids := h.ids
  placed := h.placed
  apart := h.apart
  sound := h.sound
  pending := h.pending
  owned := h.owned
  refcnt := h.refcnt
  active := h.active
  positive m hm := by
    rcases h.positive m hm with hfree | hpos
    · exact .inr (ha m hm (Option.some.inj hfree).symm)
    · exact .inr hpos

/-- A tile with both counts at zero: no live block is its own, and none points into it. -/
theorem Ledger.unused {m : RendermapImpl} (h : Ledger maps live pend owner free) (hm : m ∈ maps)
    (hzero : ¬ (0 < m.activeBlkcnt ∨ 0 < m.refcnt)) :
    (∀ l ∈ live, l.map ≠ m.addr) ∧ owner ≠ some m.addr ∧
      ∀ idx, .object m.addr idx ∉ held maps live ++ pend := by
  have hactive := h.active m hm
  have hrefcnt := h.refcnt m hm
  simp only [not_or, not_lt] at hzero
  refine ⟨fun l hl heq => ?_, fun howner => ?_, fun idx hidx => ?_⟩
  · have hpos : 0 < (live.map Live.map).count m.addr :=
      count_pos_iff.mpr (heq ▸ List.mem_map_of_mem hl)
    omega
  · simp only [howner, Option.toList_some, count_singleton_self] at hactive
    omega
  · have hpos : 0 < objects (held maps live ++ pend) m.addr := objects_pos_iff.mpr ⟨idx, hidx⟩
    omega

/-- **A tile with both counts at zero is freed**: the others stay as they are. Its block
ids are not those of live blocks. -/
theorem Ledger.release {m : RendermapImpl} (h : Ledger maps live pend owner (some m.addr))
    (hm : m ∈ maps) (hzero : ¬ (0 < m.activeBlkcnt ∨ 0 < m.refcnt)) :
    Ledger (maps.filter fun m' => m'.addr ≠ m.addr) live pend owner none ∧
      ∀ l ∈ live, l.id ∉ m.map.blkids := by
  obtain ⟨hlive, howner, hobj⟩ := h.unused hm hzero
  have hslots : ∀ l ∈ live, slotsAt (maps.filter fun m' => m'.addr ≠ m.addr) l = slotsAt maps l := by
    intro l hl
    rw [slotsAt, slotsAt, tileAt_filter (hlive l hl)]
  have hheld : held (maps.filter fun m' => m'.addr ≠ m.addr) live = held maps live := by
    rw [held, held, flatMap_def, flatMap_def, List.map_congr_left hslots]
  have hmem : ∀ a, a ∈ maps.map RendermapImpl.addr → a ≠ m.addr →
      a ∈ (maps.filter fun m' => m'.addr ≠ m.addr).map RendermapImpl.addr := by
    intro a ha hne
    obtain ⟨m', hm', rfl⟩ := mem_map.mp ha
    exact List.mem_map_of_mem (mem_filter.mpr ⟨hm', by simpa using hne⟩)
  have hsound : ∀ own slot, slot ∈ held maps live ++ pend → Sound maps own slot →
      Sound (maps.filter fun m' => m'.addr ≠ m.addr) own slot := by
    intro own slot hslot hs
    cases slot with
    | own idx => trivial
    | referring id => exact hs
    | object a idx => exact ⟨hmem a hs.1 fun heq => hobj idx (heq ▸ hslot), hs.2⟩
  have htile : ∀ a t, tileAt (maps.filter fun m' => m'.addr ≠ m.addr) a = some t →
      tileAt maps a = some t := by
    intro a t ht
    obtain ⟨m', hm', rfl, rfl⟩ := tileAt_eq_some ht
    exact tileAt_of_mem h.addrs (mem_filter.mp hm').1
  refine ⟨⟨(filter_sublist.map _).nodup h.addrs, h.ids, ?_, ?_, ?_, ?_, ?_, ?_, ?_, ?_⟩, ?_⟩
  · intro l hl
    rw [tileAt_filter (hlive l hl)]
    exact h.placed l hl
  · intro a b t t' ht ht'
    exact h.apart a b t t' (htile a t ht) (htile b t' ht')
  · intro l hl slot hslot
    rw [hslots l hl] at hslot
    exact hsound l.map slot (mem_append_left _ (mem_held.mpr ⟨l, hl, hslot⟩)) (h.sound l hl slot hslot)
  · intro slot hslot
    obtain ⟨own, hown, hs⟩ := h.pending slot hslot
    exact ⟨own, hown, hsound own slot (mem_append_right _ hslot) hs⟩
  · intro own hown
    exact hmem own (h.owned own hown) fun heq => howner (heq ▸ hown)
  · intro m' hm'
    rw [hheld]
    exact h.refcnt m' (mem_filter.mp hm').1
  · intro m' hm'
    exact h.active m' (mem_filter.mp hm').1
  · intro m' hm'
    obtain ⟨hm', hne⟩ := mem_filter.mp hm'
    refine .inr ((h.positive m' hm').resolve_left fun heq => ?_)
    exact absurd (Option.some.inj heq).symm (by simpa using hne)
  · intro l hl hid
    obtain ⟨m', hm', haddr, hid'⟩ := h.exists_tile hl
    refine hlive l hl (haddr ▸ ?_)
    exact h.apart _ _ _ _ (tileAt_of_mem h.addrs hm') (tileAt_of_mem h.addrs hm) l.id hid' hid

/-- The live blocks of a tile that was just loaded. -/
def liveOf (rmap : RendermapImpl) : List Live :=
  rmap.map.blocks.mapIdx fun i blk => ⟨blkid rmap.map.cols blk, rmap.addr, i⟩

theorem map_liveOf (rmap : RendermapImpl) :
    (liveOf rmap).map Live.id = rmap.map.blkids ∧ ∀ l ∈ liveOf rmap, l.map = rmap.addr := by
  refine ⟨List.ext_getElem? fun i => ?_, fun l hl => ?_⟩
  · simp only [liveOf, Rendermap.blkids, List.getElem?_map, List.getElem?_mapIdx, Option.map_map]
    rfl
  · obtain ⟨i, hi, rfl⟩ := List.mem_mapIdx.mp hl
    rfl

theorem exists_block_of_mem_liveOf {rmap : RendermapImpl} (hl : l ∈ liveOf rmap) :
    ∃ blk, rmap.map.blocks[l.block]? = some blk ∧ blkid rmap.map.cols blk = l.id := by
  obtain ⟨i, hi, rfl⟩ := List.mem_mapIdx.mp hl
  exact ⟨_, getElem?_eq_getElem hi, rfl⟩

theorem count_map_liveOf (rmap : RendermapImpl) (addr : ℕ) :
    ((liveOf rmap).map Live.map).count addr =
      if addr = rmap.addr then rmap.map.blocks.length else 0 := by
  have hrep : (liveOf rmap).map Live.map = List.replicate rmap.map.blocks.length rmap.addr := by
    refine List.eq_replicate_iff.mpr ⟨by simp [liveOf], ?_⟩
    rw [List.forall_mem_map]
    exact (map_liveOf rmap).2
  rw [hrep, List.count_replicate]
  simp only [beq_iff_eq, @eq_comm _ rmap.addr]

section Load

variable {new : RendermapImpl} (hnew : new.addr ∉ maps.map RendermapImpl.addr) (n : ℕ → ℕ)

include hnew

theorem tileAt_load (addr : ℕ) :
    tileAt (charge n maps ++ [new]) addr = if addr = new.addr then some new.map else tileAt maps addr := by
  rw [tileAt_append (by rwa [addr_charge]), charge, tileAt_map (by intro m; exact ⟨rfl, rfl⟩)]

/-- The pointers of the new blocks. -/
theorem held_liveOf : held (charge n maps ++ [new]) (liveOf new) = new.map.blocks.flatMap Block.slots := by
  have hslots : (liveOf new).map (slotsAt (charge n maps ++ [new])) = new.map.blocks.map Block.slots := by
    refine List.ext_getElem? fun i => ?_
    simp only [liveOf, List.getElem?_map, List.getElem?_mapIdx, Option.map_map]
    cases hblk : new.map.blocks[i]? with
    | none => rfl
    | some blk => simp [slotsAt, tileAt_load hnew n, hblk]
  rw [held, flatMap_def, hslots, ← flatMap_def]

theorem slotsAt_load {l : Live} (hl : l.map ∈ maps.map RendermapImpl.addr) :
    slotsAt (charge n maps ++ [new]) l = slotsAt maps l := by
  have hne : l.map ≠ new.addr := fun heq => hnew (heq ▸ hl)
  rw [slotsAt, slotsAt, tileAt_load hnew n, if_neg hne]

theorem Ledger.held_load (h : Ledger maps live pend owner free) :
    held (charge n maps ++ [new]) (live ++ liveOf new) =
      held maps live ++ new.map.blocks.flatMap Block.slots := by
  have hslots : ∀ l ∈ live, slotsAt (charge n maps ++ [new]) l = slotsAt maps l :=
    fun l hl => slotsAt_load hnew n (h.mem_addrs hl)
  rw [← held_liveOf hnew n]
  simp only [held, flatMap_append]
  rw [flatMap_def, List.map_congr_left hslots, ← flatMap_def]

end Load

/-- **A tile is loaded**: its blocks are live, and the tiles they point into are charged. -/
theorem Ledger.load {new : RendermapImpl} (h : Ledger maps live [] none none)
    (hnew : new.addr ∉ maps.map RendermapImpl.addr) (hids : new.map.blkids.Nodup)
    (hfresh : ∀ m ∈ maps, ∀ id ∈ new.map.blkids, id ∉ m.map.blkids) (hne : new.map.blocks ≠ [])
    (hfixed : ∀ blk ∈ new.map.blocks, ∀ slot ∈ blk.slots, Fixed maps slot)
    (hactive : new.activeBlkcnt = new.map.blocks.length) (hrefcnt : new.refcnt = 0) :
    Ledger (charge (objects (new.map.blocks.flatMap Block.slots)) maps ++ [new])
      (live ++ liveOf new) [] none none := by
  generalize hn : objects (new.map.blocks.flatMap Block.slots) = n
  have htile := tileAt_load hnew n
  have haddr : (charge n maps ++ [new]).map RendermapImpl.addr =
      maps.map RendermapImpl.addr ++ [new.addr] := by simp
  obtain ⟨hliveids, hlivemap⟩ := map_liveOf new
  -- nothing points into the new tile
  have hunused : objects (held maps live ++ new.map.blocks.flatMap Block.slots) new.addr = 0 := by
    by_contra hpos
    obtain ⟨idx, hidx⟩ := objects_pos_iff.mp (Nat.pos_of_ne_zero hpos)
    rcases mem_append.mp hidx with hidx | hidx
    · obtain ⟨l, hl, hslot⟩ := mem_held.mp hidx
      exact hnew (h.sound l hl _ hslot).1
    · obtain ⟨blk, hblk, hslot⟩ := mem_flatMap.mp hidx
      exact hnew (hfixed blk hblk _ hslot)
  have hnocount : (live.map Live.map).count new.addr = 0 := by
    refine count_eq_zero_of_not_mem fun hmem => ?_
    obtain ⟨l, hl, heq⟩ := mem_map.mp hmem
    exact hnew (heq ▸ h.mem_addrs hl)
  refine ⟨?_, ?_, ?_, ?_, ?_, by simp, by simp, ?_, ?_, ?_⟩
  · rw [haddr]
    exact h.addrs.append (by simp) (by simpa using hnew)
  · rw [map_append, hliveids]
    refine h.ids.append hids fun id hid hid' => ?_
    obtain ⟨l, hl, rfl⟩ := mem_map.mp hid
    obtain ⟨m, hm, -, hmem⟩ := h.exists_tile hl
    exact hfresh m hm l.id hid' hmem
  · rw [forall_mem_append]
    constructor
    · intro l hl
      rw [htile, if_neg fun heq : l.map = new.addr => hnew (heq ▸ h.mem_addrs hl)]
      exact h.placed l hl
    · intro l hl
      obtain ⟨blk, hblk, hblkid⟩ := exists_block_of_mem_liveOf hl
      exact ⟨new.map, blk, by rw [htile, if_pos (hlivemap l hl)], hblk, hblkid⟩
  · intro a b t t' ht ht' id hid hid'
    rw [htile] at ht ht'
    split_ifs at ht ht' with ha hb hb
    · rw [ha, hb]
    · cases ht
      obtain ⟨m, hm, -, rfl⟩ := tileAt_eq_some ht'
      exact absurd hid' (hfresh m hm id hid)
    · cases ht'
      obtain ⟨m, hm, -, rfl⟩ := tileAt_eq_some ht
      exact absurd hid (hfresh m hm id hid')
    · exact h.apart a b t t' ht ht' id hid hid'
  · rw [forall_mem_append]
    constructor
    · intro l hl slot hslot
      rw [slotsAt_load hnew n (h.mem_addrs hl)] at hslot
      have hs := h.sound l hl slot hslot
      cases slot with
      | own idx => trivial
      | referring id => exact hs
      | object a idx => exact ⟨by rw [haddr]; exact mem_append_left _ hs.1, hs.2⟩
    · intro l hl slot hslot
      obtain ⟨blk, hblk, -⟩ := exists_block_of_mem_liveOf hl
      have hmem : slot ∈ blk.slots := by
        simpa [slotsAt, htile, hlivemap l hl, hblk] using hslot
      have hs := hfixed blk (mem_of_getElem? hblk) slot hmem
      cases slot with
      | own idx => trivial
      | referring id => exact hs
      | object a idx =>
          refine ⟨by rw [haddr]; exact mem_append_left _ hs, ?_⟩
          rw [hlivemap l hl]
          exact fun heq => hnew (heq ▸ hs)
  · rw [forall_mem_append, append_nil, h.held_load hnew n]
    constructor
    · rw [charge, List.forall_mem_map]
      intro m hm
      have hcnt := h.refcnt m hm
      rw [append_nil] at hcnt
      simp only [objects_append, Pi.add_apply, hcnt, ← hn]
      omega
    · simp only [forall_mem_singleton, hunused, hrefcnt]
      rfl
  · rw [forall_mem_append]
    constructor
    · rw [charge, List.forall_mem_map]
      intro m hm
      have hne : m.addr ≠ new.addr := fun heq => hnew (heq ▸ List.mem_map_of_mem hm)
      simp only [h.active m hm, map_append, count_append, count_map_liveOf, hne, if_false]
      simp
    · simp only [forall_mem_singleton, map_append, count_append,
        count_map_liveOf, hnocount, hactive]
      simp
  · rw [forall_mem_append]
    constructor
    · rw [charge, List.forall_mem_map]
      intro m hm
      have hpos := (h.positive m hm).resolve_left (by simp)
      simp only
      omega
    · simp only [forall_mem_singleton, hactive]
      have := length_pos_iff.mpr hne
      omega

end Steps

end V2I.TileCache
