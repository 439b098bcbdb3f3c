import V2I.MapCore.StoredMap.ExtractBlocks

/-!
# V2I.MapCore.StoredMap.OneCopy

What a tile of `extract_blocks` has in it. Its index tables are in order and have what they are
to have, and its searches find it. Each object is there once, and all its blocks refer to that
one copy, as long as no object that is copied is in two of the blocks.
-/

namespace V2I.StoredMap

open List Option

variable {rows cols : ℕ} {α : Type} [DecidableEq α]

/-- A kind of objects: their table in a block of the map, in a block of the tile and in the
tile, and their ids. -/
structure Kind (n : ℕ) (α : Type) where
  table : Block n → List α
  key : α → UInt32
  refs : TileBlock n → List (Ref α)
  objects : Tile n → List (Copy α)

def roads (n : ℕ) : Kind n Roadseg := ⟨(·.roadSegs), (·.id), (·.roadSegs), (·.roadsegs)⟩

def lanesecs (n : ℕ) : Kind n (Lanesec n) := ⟨(·.laneSecs), (·.id), (·.laneSecs), (·.lanesecs)⟩

def roadobjs (n : ℕ) : Kind n (RoadObject n) :=
  ⟨(·.roadObjs), (·.id), (·.roadObjs), (·.roadobjs)⟩

namespace Rendermap

section Kinds

variable (map : Rendermap rows cols) (K : Kind (rows * cols) α) (blkset shrblkset : Finset ℕ)

/-- An object of a shared block. -/
def InShared (x : α) : Prop :=
  ∃ s : Fin (rows * cols), s.val ∈ shrblkset ∧ x ∈ K.table (map.block s)

/-- An object that belongs into the tile: one of its blocks has it, and no shared block. -/
def Wanted (x : α) : Prop :=
  (∃ b : Fin (rows * cols), b.val ∈ blkset ∧ x ∈ K.table (map.block b)) ∧
    ¬ map.InShared K shrblkset x

/-- The tile has one copy of each object of the kind that belongs into it, which is found. -/
structure OneCopy (t : Tile (rows * cols)) : Prop where
  sorted : ((K.objects t).map fun c => K.key c.obj).Pairwise (· < ·)
  once : ∀ x, map.Wanted K blkset shrblkset x →
    ((copies K.refs t.blocks).map (·.obj)).count x = 1
  only : ∀ c ∈ copies K.refs t.blocks, map.Wanted K blkset shrblkset c.obj
  refers : ∀ tb ∈ t.blocks, ∀ b : Fin (rows * cols), tb.row * cols + tb.col = b.val →
    Forall₂ (fun x ref =>
      (map.InShared K shrblkset x → ref = .referring (K.key x)) ∧
        (¬ map.InShared K shrblkset x → ∃ c ∈ K.objects t, c.obj = x ∧ ref = .own c))
      (K.table (map.block b)) (K.refs tb)
  finds : ∀ uid, (TileCache.find ((K.objects t).map fun c => K.key c.obj) uid).isSome ↔
    ∃ x, map.Wanted K blkset shrblkset x ∧ K.key x = uid

/-- An object that two of the blocks have is in a shared block as well. -/
def NoneTwice : Prop :=
  ∀ b b' : Fin (rows * cols), b.val ∈ blkset → b'.val ∈ blkset → b ≠ b' →
    ∀ x ∈ K.table (map.block b), x ∈ K.table (map.block b') → map.InShared K shrblkset x

/-- What the map says of a kind of objects. -/
structure Lawful : Prop where
  sorted : ∀ b, (K.table (map.block b)).Pairwise fun x y => K.key x < K.key y
  unique : ∀ b b', ∀ x ∈ K.table (map.block b), ∀ y ∈ K.table (map.block b'),
    K.key x = K.key y → x = y

/-- The table of a block in the tile: references to the objects of shared blocks, and copies of
the others. -/
def Copied (b : Fin (rows * cols)) (tb : TileBlock (rows * cols)) : Prop :=
  Forall₂ (fun x ref =>
    (map.InShared K shrblkset x ∧ ref = .referring (K.key x)) ∨
      (¬ map.InShared K shrblkset x ∧ ∃ pos, ref = .own ⟨pos, x⟩))
    (K.table (map.block b)) (K.refs tb)

end Kinds

variable (map : Rendermap rows cols)

theorem lawful_roads : map.Lawful (roads (rows * cols)) :=
  ⟨map.roadSegs_sorted, map.roadSegs_unique⟩

theorem lawful_lanesecs : map.Lawful (lanesecs (rows * cols)) :=
  ⟨map.laneSecs_sorted, map.laneSecs_unique⟩

theorem lawful_roadobjs : map.Lawful (roadobjs (rows * cols)) :=
  ⟨map.roadObjs_sorted, map.roadObjs_unique⟩

variable {z : Sizeof} {map : Rendermap rows cols} {K : Kind (rows * cols) α}
  {blkset shrblkset : Finset ℕ}

/-! ## The objects of shared blocks -/

omit [DecidableEq α] in
theorem Lawful.ids_sorted (h : map.Lawful K) (b : Fin (rows * cols)) :
    ((K.table (map.block b)).map K.key).Pairwise (· < ·) :=
  pairwise_map.mpr (h.sorted b)

variable {b : Fin (rows * cols)}

omit [DecidableEq α] in
/-- The search in the shared blocks finds the objects in them. -/
theorem existsInSharedBlocks_iff (h : map.Lawful K) {x : α} (hx : x ∈ K.table (map.block b)) :
    map.existsInSharedBlocks (fun blk => (K.table blk).map K.key) shrblkset (K.key x) = true ↔
      map.InShared K shrblkset x := by
  simp only [existsInSharedBlocks, List.any_eq_true, Finset.mem_sort, InShared]
  constructor
  · rintro ⟨s, hs, hfind⟩
    split at hfind
    · next hlt =>
        rw [TileCache.find_isSome_iff (h.ids_sorted _), List.mem_map] at hfind
        obtain ⟨y, hy, hkey⟩ := hfind
        exact ⟨⟨s, hlt⟩, hs, h.unique _ _ y hy x hx hkey ▸ hy⟩
    · cases hfind
  · rintro ⟨s, hs, hxs⟩
    refine ⟨s, hs, ?_⟩
    rw [dif_pos s.isLt, TileCache.find_isSome_iff (h.ids_sorted s)]
    exact List.mem_map_of_mem hxs

omit [DecidableEq α] in
/-- A test of the shared blocks comes first in two of the three functions; it makes no
difference. -/
theorem card_and_existsInSharedBlocks (ids : Block (rows * cols) → List UInt32) (uid : UInt32) :
    (shrblkset.card ≠ 0 && map.existsInSharedBlocks ids shrblkset uid) =
      map.existsInSharedBlocks ids shrblkset uid := by
  by_cases h : shrblkset = ∅
  · subst h
    simp [existsInSharedBlocks]
  · simp [h]

/-! ## Extracting -/

variable {pos : ℕ} {bytes : α → Option ℕ} {shared : UInt32 → Bool} {r : List (Ref α) × ℕ}

omit [DecidableEq α] in
theorem extractTable_spec {key : α → UInt32} {isShared : α → Prop} {xs : List α}
    (hshared : ∀ x ∈ xs, shared (key x) = true ↔ isShared x)
    (h : extractTable shared key bytes xs pos = some r) :
    pos ≤ r.2 ∧ Forall₂ (fun x ref =>
      (isShared x ∧ ref = .referring (key x)) ∨
        (¬ isShared x ∧ ∃ p, ref = .own ⟨p, x⟩)) xs r.1 := by
  induction xs generalizing pos r with
  | nil =>
      cases h
      exact ⟨le_rfl, .nil⟩
  | cons x xs ih =>
      obtain ⟨hx, hxs⟩ := forall_mem_cons.mp hshared
      rw [extractTable] at h
      split_ifs at h with hin
      · obtain ⟨r', hr', rfl⟩ := map_eq_some_iff.mp h
        obtain ⟨hle, hall⟩ := ih hxs hr'
        exact ⟨hle, .cons (.inl ⟨hx.mp hin, rfl⟩) hall⟩
      · obtain ⟨sz, -, h⟩ := bind_eq_some_iff.mp h
        obtain ⟨r', hr', rfl⟩ := map_eq_some_iff.mp h
        obtain ⟨hle, hall⟩ := ih hxs hr'
        exact ⟨(Nat.le_add_right pos sz).trans hle,
          .cons (.inr ⟨fun hP => hin (hx.mpr hP), pos, rfl⟩) hall⟩

omit [DecidableEq α] in
/-- The objects of a block, extracted. -/
theorem extractObjects_spec (hlaw : map.Lawful K)
    (hshared : ∀ uid, shared uid =
      map.existsInSharedBlocks (fun blk => (K.table blk).map K.key) shrblkset uid)
    (h : extractObjects z shared K.key bytes (K.table (map.block b)) pos = some r) :
    pos ≤ r.2 ∧ Forall₂ (fun x ref =>
      (map.InShared K shrblkset x ∧ ref = .referring (K.key x)) ∨
        (¬ map.InShared K shrblkset x ∧ ∃ p, ref = .own ⟨p, x⟩))
      (K.table (map.block b)) r.1 := by
  rw [extractObjects] at h
  split_ifs at h with hnil
  · rw [length_eq_zero_iff] at hnil
    cases h
    exact ⟨le_rfl, hnil ▸ .nil⟩
  · have hiff : ∀ x ∈ K.table (map.block b),
        (shared (K.key x) = true ↔ map.InShared K shrblkset x) := by
      intro x hx
      rw [hshared, existsInSharedBlocks_iff hlaw hx]
    obtain ⟨hle, hall⟩ := extractTable_spec hiff h
    exact ⟨(Nat.le_add_right _ _).trans hle, hall⟩

/-- A block of the tile for a block of the map. -/
structure Extracted (map : Rendermap rows cols) (shrblkset : Finset ℕ) (b : Fin (rows * cols))
    (tb : TileBlock (rows * cols)) : Prop where
  row : tb.row = b / cols
  col : tb.col = b % cols
  roads : map.Copied (roads (rows * cols)) shrblkset b tb
  lanesecs : map.Copied (lanesecs (rows * cols)) shrblkset b tb
  roadobjs : map.Copied (roadobjs (rows * cols)) shrblkset b tb

theorem Extracted.id_eq {tb : TileBlock (rows * cols)} (h : map.Extracted shrblkset b tb) :
    tb.row * cols + tb.col = b.val := by
  rw [h.row, h.col, Nat.mul_comm]
  exact Nat.div_add_mod b.val cols

/-- One pass of the loop over the blocks. -/
theorem extractBlock_extracted {r : TileBlock (rows * cols) × ℕ}
    (h : map.extractBlock z shrblkset b pos = some r) :
    r.1.pos = pos ∧ pos < r.2 ∧ map.Extracted shrblkset b r.1 := by
  obtain ⟨roads, hroads, h⟩ := bind_eq_some_iff.mp h
  obtain ⟨lanesecs, hlanesecs, h⟩ := bind_eq_some_iff.mp h
  obtain ⟨roadobjs, hroadobjs, h⟩ := bind_eq_some_iff.mp h
  cases h
  obtain ⟨hpos, hroads⟩ := extractObjects_spec map.lawful_roads
    (card_and_existsInSharedBlocks _) hroads
  obtain ⟨hpos', hlanesecs⟩ := extractObjects_spec map.lawful_lanesecs
    (card_and_existsInSharedBlocks _) hlanesecs
  obtain ⟨hpos'', hroadobjs⟩ := extractObjects_spec map.lawful_roadobjs
    (fun _ => rfl) hroadobjs
  have hblockinfo := z.blockinfo_pos
  exact ⟨rfl, by dsimp only; omega, rfl, rfl, hroads, hlanesecs, hroadobjs⟩

/-- The loop: the blocks one after the other in the buffer. -/
theorem extractEach_extracted {ids : List (Fin (rows * cols))}
    {blks : List (TileBlock (rows * cols))} (h : map.extractEach z shrblkset ids pos = some blks) :
    Forall₂ (map.Extracted shrblkset) ids blks ∧
      (∀ tb ∈ blks, pos ≤ tb.pos) ∧ blks.Pairwise (·.pos < ·.pos) := by
  induction ids generalizing pos blks with
  | nil =>
      cases h
      exact ⟨.nil, fun _ hmem => absurd hmem not_mem_nil, .nil⟩
  | cons b ids ih =>
      obtain ⟨r, hr, h⟩ := bind_eq_some_iff.mp h
      obtain ⟨blks', hblks', rfl⟩ := map_eq_some_iff.mp h
      obtain ⟨hpos, hlt, hext⟩ := extractBlock_extracted hr
      obtain ⟨hall, hle, hsorted⟩ := ih hblks'
      refine ⟨.cons hext hall, forall_mem_cons.mpr ⟨hpos.ge, ?_⟩,
        pairwise_cons.mpr ⟨?_, hsorted⟩⟩
      · exact fun tb htb => hlt.le.trans (hle tb htb)
      · exact fun tb htb => hpos ▸ hlt.trans_le (hle tb htb)

/-! ## The copies -/

section Classical

open Classical

omit [DecidableEq α] in
/-- The copies that a block refers to are those of its objects that no shared block has. -/
theorem Copied.map_obj {tb : TileBlock (rows * cols)} (h : map.Copied K shrblkset b tb) :
    ((K.refs tb).filterMap Ref.copy?).map (·.obj) =
      (K.table (map.block b)).filter fun x => ¬ map.InShared K shrblkset x := by
  unfold Copied at h
  generalize K.table (map.block b) = xs at h ⊢
  generalize K.refs tb = refs at h ⊢
  induction h with
  | nil => rfl
  | cons hxy _ ih =>
      rcases hxy with ⟨hin, rfl⟩ | ⟨hout, pos, rfl⟩
      · rw [filter_cons_of_neg (by simpa using hin), ← ih]
        rfl
      · rw [filter_cons_of_pos (by simpa using hout), ← ih]
        rfl

variable {blks : List (TileBlock (rows * cols))}

omit [DecidableEq α] in
/-- The copies are made block by block. -/
theorem copies_map_obj {ids : List (Fin (rows * cols))}
    (h : Forall₂ (map.Copied K shrblkset) ids blks) :
    (copies K.refs blks).map (·.obj) = ids.flatMap fun b =>
      (K.table (map.block b)).filter fun x => ¬ map.InShared K shrblkset x := by
  induction h with
  | nil => rfl
  | cons hcopied _ ih =>
      rw [flatMap_cons, ← ih, ← hcopied.map_obj]
      simp [copies]

omit [DecidableEq α] in
theorem mem_blkids : b ∈ (blkids blkset : List (Fin (rows * cols))) ↔ b.val ∈ blkset := by
  simp only [blkids, mem_filterMap, Finset.mem_sort]
  constructor
  · rintro ⟨id, hid, h⟩
    split_ifs at h
    cases h
    exact hid
  · intro h
    exact ⟨b, h, dif_pos b.isLt⟩

omit [DecidableEq α] in
/-- The objects copied are the wanted ones. -/
theorem mem_copies (h : Forall₂ (map.Copied K shrblkset) (blkids blkset) blks) {x : α} :
    x ∈ (copies K.refs blks).map (·.obj) ↔ map.Wanted K blkset shrblkset x := by
  simp only [copies_map_obj h, mem_flatMap, mem_filter, mem_blkids, decide_eq_true_iff, Wanted]
  constructor
  · rintro ⟨b, hb, hx, hout⟩
    exact ⟨⟨b, hb, hx⟩, hout⟩
  · rintro ⟨⟨b, hb, hx⟩, hout⟩
    exact ⟨b, hb, hx, hout⟩

theorem map_val_blkids (hvalid : ∀ id ∈ blkset, id < rows * cols) :
    (blkids blkset : List (Fin (rows * cols))).map (·.val) = blkset.sort (· ≤ ·) := by
  rw [blkids, map_filterMap]
  conv_rhs => rw [← filterMap_some (l := blkset.sort (· ≤ ·))]
  refine filterMap_congr fun id hid => ?_
  rw [dif_pos (hvalid id ((Finset.mem_sort _).mp hid))]
  rfl

theorem nodup_blkids (hvalid : ∀ id ∈ blkset, id < rows * cols) :
    (blkids blkset : List (Fin (rows * cols))).Nodup := by
  refine List.Nodup.of_map (·.val) ?_
  rw [map_val_blkids hvalid]
  exact Finset.sort_nodup blkset (· ≤ ·)

omit [DecidableEq α] in
theorem Lawful.nodup (h : map.Lawful K) (b : Fin (rows * cols)) :
    (K.table (map.block b)).Nodup := by
  refine (h.sorted b).imp fun hlt heq => ?_
  rw [heq] at hlt
  exact UInt32.lt_irrefl _ hlt

omit [DecidableEq α] in
/-- No object is copied twice exactly when none that is copied is in two of the blocks. -/
theorem nodup_copies_iff (hlaw : map.Lawful K) (hvalid : ∀ id ∈ blkset, id < rows * cols)
    (h : Forall₂ (map.Copied K shrblkset) (blkids blkset) blks) :
    ((copies K.refs blks).map (·.obj)).Nodup ↔ map.NoneTwice K blkset shrblkset := by
  rw [copies_map_obj h, nodup_flatMap, NoneTwice]
  constructor
  · rintro ⟨-, hpair⟩ b b' hb hb' hne x hx hx'
    by_contra hout
    have hsymm : Std.Symm (Function.onFun List.Disjoint fun b : Fin (rows * cols) =>
        (K.table (map.block b)).filter fun x => ¬ map.InShared K shrblkset x) :=
      ⟨fun _ _ hdis => hdis.symm⟩
    have hdis := hpair.forall (mem_blkids.mpr hb) (mem_blkids.mpr hb') hne
    exact hdis (mem_filter.mpr ⟨hx, decide_eq_true hout⟩)
      (mem_filter.mpr ⟨hx', decide_eq_true hout⟩)
  · intro hnone
    refine ⟨fun b _ => (hlaw.nodup b).filter _, ?_⟩
    refine (nodup_blkids hvalid).imp_of_mem fun hb hb' hne x hx hx' => ?_
    obtain ⟨hx, hout⟩ := mem_filter.mp hx
    exact of_decide_eq_true hout
      (hnone _ _ (mem_blkids.mp hb) (mem_blkids.mp hb') hne x hx (mem_filter.mp hx').1)

end Classical

/-! ## One kind of objects -/

variable {blks : List (TileBlock (rows * cols))}

omit [DecidableEq α] in
/-- Where no object is copied twice, the `std::set` keeps all the copies. -/
theorem mem_objects_of_nodup (hlaw : map.Lawful K)
    (h : Forall₂ (map.Copied K shrblkset) (blkids blkset) blks)
    (hnodup : ((copies K.refs blks).map (·.obj)).Nodup) {c : Copy α} (hc : c ∈ copies K.refs blks) :
    c ∈ SortedSet.ofList (fun c => (K.key c.obj).toNat) (copies K.refs blks) := by
  obtain ⟨c', hc', hkey⟩ := SortedSet.exists_mem_ofList (fun c => (K.key c.obj).toNat) hc
  have hmem' := SortedSet.mem_of_mem_ofList hc'
  obtain ⟨⟨b, -, hb⟩, -⟩ := (mem_copies h).mp (List.mem_map_of_mem (f := (·.obj)) hc)
  obtain ⟨⟨b', -, hb'⟩, -⟩ := (mem_copies h).mp (List.mem_map_of_mem (f := (·.obj)) hmem')
  have hobj : c'.obj = c.obj := hlaw.unique b' b _ hb' _ hb (UInt32.toNat_inj.mp hkey)
  exact inj_on_of_nodup_map hnodup hmem' hc hobj ▸ hc'

variable {t : Tile (rows * cols)}

/-- The table of the tile is that of the `std::set`. -/
theorem oneCopy_iff (hlaw : map.Lawful K) (hvalid : ∀ id ∈ blkset, id < rows * cols)
    (hext : Forall₂ (fun b tb => tb.row * cols + tb.col = b.val ∧
      map.Copied K shrblkset b tb) (blkids blkset) blks)
    (hblocks : t.blocks = blks)
    (hobjects : K.objects t = SortedSet.ofList (fun c => (K.key c.obj).toNat) (copies K.refs blks))
    : map.OneCopy K blkset shrblkset t ↔ map.NoneTwice K blkset shrblkset := by
  subst hblocks
  have hcopied := hext.imp fun _ _ h => h.2
  rw [← nodup_copies_iff hlaw hvalid hcopied]
  constructor
  · intro h
    refine nodup_iff_count_le_one.mpr fun x => ?_
    by_cases hx : x ∈ (copies K.refs t.blocks).map (·.obj)
    · exact (h.once x ((mem_copies hcopied).mp hx)).le
    · rw [count_eq_zero_of_not_mem hx]
      exact Nat.zero_le 1
  · intro hnodup
    have hsorted : ((K.objects t).map fun c => K.key c.obj).Pairwise (· < ·) := by
      rw [hobjects, pairwise_map]
      simp only [UInt32.lt_iff_toNat_lt]
      exact SortedSet.ofList_sorted (copies K.refs t.blocks)
    refine ⟨hsorted, fun x hx => ?_, fun c hc => ?_, fun tb htb b hid => ?_, fun uid => ?_⟩
    · exact count_eq_one_of_mem hnodup ((mem_copies hcopied).mpr hx)
    · exact (mem_copies hcopied).mp (List.mem_map_of_mem hc)
    · obtain ⟨b', hid', hcop⟩ := exists_of_forall₂ hext htb
      obtain rfl : b' = b := Fin.ext (hid'.symm.trans hid)
      refine forall₂_iff_zip.mpr ⟨hcop.length_eq, fun {x ref} hzip => ?_⟩
      rcases forall₂_zip hcop hzip with ⟨hin, rfl⟩ | ⟨hout, pos, rfl⟩
      · exact ⟨fun _ => rfl, fun h => absurd hin h⟩
      · have hmem : ⟨pos, x⟩ ∈ copies K.refs t.blocks := mem_filterMap.mpr
          ⟨_, mem_flatMap.mpr ⟨tb, htb, (of_mem_zip hzip).2⟩, rfl⟩
        exact ⟨fun h => absurd h hout, fun _ =>
          ⟨_, hobjects ▸ mem_objects_of_nodup hlaw hcopied hnodup hmem, rfl, rfl⟩⟩
    · rw [TileCache.find_isSome_iff hsorted, List.mem_map]
      constructor
      · rintro ⟨c, hc, rfl⟩
        rw [hobjects] at hc
        exact ⟨c.obj, (mem_copies hcopied).mp
          (List.mem_map_of_mem (SortedSet.mem_of_mem_ofList hc)), rfl⟩
      · rintro ⟨x, hx, rfl⟩
        obtain ⟨c, hc, rfl⟩ := mem_map.mp ((mem_copies hcopied).mpr hx)
        obtain ⟨c', hc', hkey⟩ := SortedSet.exists_mem_ofList
          (fun c => (K.key c.obj).toNat) hc
        exact ⟨c', hobjects ▸ hc', UInt32.toNat_inj.mp hkey⟩

/-! ## The tile -/

/-- The tile has the blocks of the set, and one copy of each object. -/
structure Right (map : Rendermap rows cols) (blkset shrblkset : Finset ℕ)
    (t : Tile (rows * cols)) : Prop where
  blocks : t.blocks.map (fun tb => tb.row * cols + tb.col) = blkset.sort (· ≤ ·)
  getblock : ∀ blkid, (t.getblock cols blkid).isSome ↔ blkid.toNat ∈ blkset
  roads : map.OneCopy (roads (rows * cols)) blkset shrblkset t
  lanesecs : map.OneCopy (lanesecs (rows * cols)) blkset shrblkset t
  roadobjs : map.OneCopy (roadobjs (rows * cols)) blkset shrblkset t

/-- `getblock` finds the blocks of a tile. -/
theorem getblock_isSome_iff
    (hblocks : t.blocks.map (fun tb => tb.row * cols + tb.col) = blkset.sort (· ≤ ·))
    (hvalid : ∀ id ∈ blkset, id < 2 ^ 32) {blkid : UInt32} :
    (t.getblock cols blkid).isSome ↔ blkid.toNat ∈ blkset := by
  have hids : (t.blocks.map fun tb => UInt32.ofNat (tb.row * cols + tb.col)) =
      (blkset.sort (· ≤ ·)).map UInt32.ofNat := by
    rw [← hblocks, List.map_map]
    rfl
  have hsorted : ((blkset.sort (· ≤ ·)).map UInt32.ofNat).Pairwise (· < ·) := by
    refine pairwise_map.mpr ((Finset.sortedLT_sort blkset).pairwise.imp_of_mem ?_)
    intro i j hi hj hlt
    rw [UInt32.lt_iff_toNat_lt, UInt32.toNat_ofNat_of_lt' (hvalid i ((Finset.mem_sort _).mp hi)),
      UInt32.toNat_ofNat_of_lt' (hvalid j ((Finset.mem_sort _).mp hj))]
    exact hlt
  have hfind : (t.getblock cols blkid).isSome ↔
      (TileCache.find ((blkset.sort (· ≤ ·)).map UInt32.ofNat) blkid).isSome := by
    rw [Tile.getblock, hids]
    cases hf : TileCache.find ((blkset.sort (· ≤ ·)).map UInt32.ofNat) blkid with
    | none => rfl
    | some i =>
        have hlt := (List.getElem?_eq_some_iff.mp (TileCache.findLoop_eq_some hf)).1
        rw [← hids, List.length_map] at hlt
        simp [hlt]
  rw [hfind, TileCache.find_isSome_iff hsorted, List.mem_map]
  constructor
  · rintro ⟨id, hid, rfl⟩
    have hid := (Finset.mem_sort _).mp hid
    rwa [UInt32.toNat_ofNat_of_lt' (hvalid id hid)]
  · intro h
    exact ⟨blkid.toNat, (Finset.mem_sort _).mpr h, UInt32.ofNat_toNat⟩

/-- **`extract_blocks`**: a tile is right exactly when no object that is copied is in two of
its blocks. -/
theorem extracted_iff {t : Tile (rows * cols)}
    (hret : map.extractBlocks z blkset shrblkset = .ok (.tile t)) :
    map.Right blkset shrblkset t ↔
      map.NoneTwice (roads (rows * cols)) blkset shrblkset ∧
        map.NoneTwice (lanesecs (rows * cols)) blkset shrblkset ∧
        map.NoneTwice (roadobjs (rows * cols)) blkset shrblkset := by
  rw [extractBlocks] at hret
  split_ifs at hret with _ hvalid
  · cases hret
  push Not at hvalid
  split at hret
  · cases hret
  · next blks hblks =>
      cases hret
      obtain ⟨hext, -, hpos⟩ := extractEach_extracted hblks
      have hblocks : (assemble blks).blocks = blks := SortedSet.ofList_of_sorted hpos
      have hids : blks.map (fun tb => tb.row * cols + tb.col) = blkset.sort (· ≤ ·) := by
        rw [← map_val_blkids hvalid, ← forall₂_eq_eq_eq, forall₂_map_left_iff,
          forall₂_map_right_iff]
        exact hext.flip.imp fun _ _ h => h.id_eq
      have hbound : ∀ id ∈ blkset, id < 2 ^ 32 := by
        intro id hid
        have := hvalid id hid
        have := map.fits
        omega
      have hroads := oneCopy_iff map.lawful_roads hvalid
        (hext.imp fun _ _ h => ⟨h.id_eq, h.roads⟩) hblocks rfl
      have hlanesecs := oneCopy_iff map.lawful_lanesecs hvalid
        (hext.imp fun _ _ h => ⟨h.id_eq, h.lanesecs⟩) hblocks rfl
      have hroadobjs := oneCopy_iff map.lawful_roadobjs hvalid
        (hext.imp fun _ _ h => ⟨h.id_eq, h.roadobjs⟩) hblocks rfl
      rw [← hroads, ← hlanesecs, ← hroadobjs]
      constructor
      · intro h
        exact ⟨h.roads, h.lanesecs, h.roadobjs⟩
      · rintro ⟨hr, hl, ho⟩
        have hids' := hblocks.symm ▸ hids
        exact ⟨hids', fun _ => getblock_isSome_iff hids' hbound, hr, hl, ho⟩

end Rendermap

/-- Each of the structures takes 8 bytes. -/
def eightBytes : Sizeof := ⟨8, 8, 8, 8, 8, 8, 8, 8, 8, 8, 8, 8, by decide⟩

/-- Three blocks with one lane section, the first of which has another one. -/
def threeBlocks : Rendermap 1 3 where
  block b := ⟨[], ⟨1, 8, [0, 1, 2]⟩ :: if b = 0 then [⟨2, 8, [0]⟩] else [], []⟩
  fits := by decide
  roadSegs_sorted := by decide
  laneSecs_sorted := by decide
  roadObjs_sorted := by decide
  roadSegs_unique := by decide
  laneSecs_unique := by decide
  roadObjs_unique := by decide
  laneSecs_referred := by decide
  roadObjs_referred := by decide

/-- The receiver has the last block, and the lane section in it. -/
theorem extracted_two : ∃ t, threeBlocks.extractBlocks eightBytes {0, 1} {2} = .ok (.tile t) ∧
    threeBlocks.Right {0, 1} {2} t := by
  have hids : Rendermap.blkids {0, 1} = ([0, 1] : List (Fin (1 * 3))) := by
    rw [Rendermap.blkids, Finset.sort_insert (· ≤ ·) (by simp) (by simp), Finset.sort_singleton]
    rfl
  have hret : threeBlocks.extractBlocks eightBytes {0, 1} {2} =
      .ok (.tile ⟨[⟨8, 0, 0, [], [.referring 1, .own ⟨32, 2, 8, [0]⟩], []⟩,
        ⟨48, 0, 1, [], [.referring 1], []⟩], [], [⟨32, 2, 8, [0]⟩], []⟩) := by
    rw [Rendermap.extractBlocks, hids, if_neg (by simp), if_neg (by simp)]
    simp only [Rendermap.extractEach, Rendermap.extractBlock, Rendermap.extractLanesecs,
      Rendermap.lanesecExistsInSharedBlocks, Rendermap.existsInSharedBlocks, Finset.sort_singleton]
    rfl
  refine ⟨_, hret, (Rendermap.extracted_iff hret).mpr ⟨?_, ?_, ?_⟩⟩
  · exact fun _ _ _ _ _ _ hx _ => absurd hx (not_mem_nil)
  · intro b b' _ _ hne x hx hx'
    refine ⟨2, Finset.mem_singleton_self _, ?_⟩
    revert x b b'
    decide
  · exact fun _ _ _ _ _ _ hx _ => absurd hx (not_mem_nil)

/-- With both blocks there are two copies of the lane section. -/
theorem not_extracted_both : ∃ t, sharedLanesec.extractBlocks eightBytes {0, 1} ∅ = .ok (.tile t) ∧
    ¬ sharedLanesec.Right {0, 1} ∅ t := by
  have hids : Rendermap.blkids {0, 1} = ([0, 1] : List (Fin (1 * 2))) := by
    rw [Rendermap.blkids, Finset.sort_insert (· ≤ ·) (by simp) (by simp), Finset.sort_singleton]
    rfl
  have hret : sharedLanesec.extractBlocks eightBytes {0, 1} ∅ =
      .ok (.tile ⟨[⟨8, 0, 0, [], [.own ⟨24, 1, 8, [0, 1]⟩], []⟩,
        ⟨40, 0, 1, [], [.own ⟨56, 1, 8, [0, 1]⟩], []⟩], [], [⟨24, 1, 8, [0, 1]⟩], []⟩) := by
    rw [Rendermap.extractBlocks, hids, if_neg (by simp), if_neg (by simp)]
    rfl
  refine ⟨_, hret, fun h => ?_⟩
  have hwanted : sharedLanesec.Wanted (lanesecs (1 * 2)) {0, 1} ∅ ⟨1, 8, [0, 1]⟩ := by
    refine ⟨⟨0, by simp, mem_singleton_self _⟩, ?_⟩
    rintro ⟨s, hs, -⟩
    exact Finset.notMem_empty _ hs
  exact absurd (h.lanesecs.once _ hwanted) (by decide)

end V2I.StoredMap
