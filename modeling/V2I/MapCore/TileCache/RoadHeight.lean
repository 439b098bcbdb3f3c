import V2I.MapCore.TileCache.Query

/-!
# V2I.MapCore.TileCache.RoadHeight

`get_road_height`: the height of the road at a point, by the mesh of its block or, so it is meant,
of the blocks in rings around it.
-/

namespace V2I.TileCache

open V2I.MapCore

/-- What `get_road_height` reads of `_mapinfo`: the grid, and where the map ends. -/
structure MapGrid extends Grid where
  xmax : ℚ
  ymax : ℚ

/-- The height that a mesh has at a point. -/
abbrev Mesh := ℚ → ℚ → ℚ

/-- How a call ends: with a height, with undefined behaviour, or not within the fuel. -/
inductive Outcome where
  | returns (height : ℚ)
  | undefined
  | unfinished
  deriving DecidableEq

/-- The column and the row of a point, as `int`s. -/
def cellOf (g : MapGrid) (x y : ℚ) : Option (ℤ × ℤ) := do
  let px ← toInt ((x - g.xmin) / g.blockWidth)
  let py ← toInt ((y - g.ymin) / g.blockHeight)
  some (px, py)

/-- `(py * _mapinfo.cols) + px` -/
def blockIdOf (g : MapGrid) (cell : ℤ × ℤ) : Option UInt32 :=
  ((asInt (cell.2 * g.cols)).bind fun n => asInt (n + cell.1)).map UInt32.ofInt

/-- The point is not in the map. -/
def Outside (g : MapGrid) (x y : ℚ) : Prop := x < g.xmin ∨ y < g.ymin ∨ g.xmax < x ∨ g.ymax < y

instance (g : MapGrid) (x y : ℚ) : Decidable (Outside g x y) :=
  inferInstanceAs (Decidable (_ ∨ _))

/-- The variables of the search. -/
structure Search where
  blockId : UInt32
  height : ℚ
  deriving DecidableEq

section

variable (s : TilecacheImpl) (meshes : UInt32 → Option Mesh) (x y : ℚ)

/-- The height that a loaded block with a mesh has at the point. The tile of a block is never
null. -/
def reported (blockId : UInt32) : Option ℚ :=
  (s.blocks.find blockId).bind fun _ => (meshes blockId).map fun mesh => mesh x y

/-- The inner loop: the block id runs on, and a positive height ends it. -/
def scanRow (blockIndex i : ℕ) : List ℕ → Search → Search
  | [], v => v
  | j :: js, v =>
      let blockId := v.blockId + UInt32.ofNat (i * blockIndex + j)
      match reported s meshes x y blockId with
      | none => scanRow blockIndex i js ⟨blockId, v.height⟩
      | some height =>
          if 0 < height then ⟨blockId, height⟩ else scanRow blockIndex i js ⟨blockId, height⟩

/-- The two loops over a square. -/
def scan (blockIndex : ℕ) (v : Search) : Search :=
  (List.range blockIndex).foldl
    (fun v i => scanRow s meshes x y blockIndex i (List.range blockIndex) v) v

/-- `while (height == 0.0)`. The counter is made anew in every round, and `startBlockId` is not
used. -/
def heightLoop : ℕ → Search → Option ℚ
  | 0, _ => none
  | fuel + 1, v =>
      if v.height ≠ 0 then some v.height
      else
        let blockIndex := 1
        let v := scan s meshes x y blockIndex v
        let blockIndex := blockIndex + 2
        if 12 < blockIndex then some v.height else heightLoop fuel v

/-- `get_road_height(x, y)`. A block that is not found and a mesh that is not there are used all
the same. -/
def getRoadHeight (g : MapGrid) (fuel : ℕ) : Outcome :=
  if s.blocks.entries.length = 0 ∨ ¬ mapAvailable s then .returns 0
  else if Outside g x y then .returns 0
  else
    match (cellOf g x y).bind (blockIdOf g) with
    | none => .undefined
    | some blockId =>
        match s.blocks.find blockId with
        | none => .undefined
        | some _ =>
            match meshes blockId with
            | none => .undefined
            | some mesh =>
                match heightLoop s meshes x y fuel ⟨blockId, mesh x y⟩ with
                | none => .unfinished
                | some height => .returns height

/-! ## what the search is for -/

/-- The blocks in a ring around the block of a point of the map: that block itself, and the blocks
of the grid that are so many columns or rows away. The search is meant to go through the squares of
up to 11 by 11 blocks. -/
def Near (g : MapGrid) (r : ℕ) (blockId : UInt32) : Prop :=
  ¬ Outside g x y ∧ r ≤ 5 ∧ ∃ cell, cellOf g x y = some cell ∧
    ((r = 0 ∧ blockIdOf g cell = some blockId) ∨
      ∃ col row : ℤ, max |col - cell.1| |row - cell.2| = r ∧ 0 ≤ col ∧ col < g.cols ∧ 0 ≤ row ∧
        row < g.rows ∧ blockIdOf g (col, row) = some blockId)

/-- A loaded block has a mesh with this height, and it is positive. -/
def HasHeight (blockId : UInt32) (height : ℚ) : Prop :=
  reported s meshes x y blockId = some height ∧ 0 < height

/-- The height of the road: that of the nearest ring with a positive one, or else 0. -/
def IsRoadHeight (g : MapGrid) (height : ℚ) : Prop :=
  (height = 0 ∧ ∀ r blockId h, Near x y g r blockId → ¬ HasHeight s meshes x y blockId h) ∨
    ∃ r blockId, Near x y g r blockId ∧ HasHeight s meshes x y blockId height ∧
      ∀ r' < r, ∀ blockId' h, Near x y g r' blockId' → ¬ HasHeight s meshes x y blockId' h

/-- The call comes back with the height of the road. -/
def ReturnsHeight (g : MapGrid) : Prop :=
  ∃ n height, (∀ fuel ≥ n, getRoadHeight s meshes x y g fuel = .returns height) ∧
    IsRoadHeight s meshes x y g height

/-- The block of the point has a mesh with a positive height. -/
def OwnHeight (g : MapGrid) : Prop :=
  ∃ cell blockId height, cellOf g x y = some cell ∧ blockIdOf g cell = some blockId ∧
    HasHeight s meshes x y blockId height

variable {s meshes x y}

/-- **A round** looks at one block, the one of the round before. -/
theorem round_eq {v : Search} (h : reported s meshes x y v.blockId = some v.height) :
    scan s meshes x y 1 v = v := by
  have hsame : v.blockId + UInt32.ofNat (0 * 1 + 0) = v.blockId := UInt32.add_zero _
  simp only [scan, List.range_one, List.foldl_cons, List.foldl_nil, scanRow, hsame, h]
  split_ifs <;> rfl

/-- **A height of 0** keeps the loop going. -/
theorem heightLoop_eq_none {blockId : UInt32} (h : reported s meshes x y blockId = some 0)
    (fuel : ℕ) : heightLoop s meshes x y fuel ⟨blockId, 0⟩ = none := by
  induction fuel with
  | zero => rfl
  | succ fuel ih =>
      have hround : scan s meshes x y 1 ⟨blockId, 0⟩ = ⟨blockId, 0⟩ := round_eq h
      rw [heightLoop, if_neg (not_not.mpr rfl)]
      simp only [hround]
      exact ih

/-- What the call does for a point whose block has a mesh. -/
theorem getRoadHeight_of_reported {g : MapGrid} (hblocks : s.blocks.entries.length ≠ 0)
    (hbound : mapAvailable s = true) (hin : ¬ Outside g x y) {cell : ℤ × ℤ} {blockId : UInt32}
    {height : ℚ} (hcell : cellOf g x y = some cell) (hid : blockIdOf g cell = some blockId)
    (h : reported s meshes x y blockId = some height) (fuel : ℕ) :
    getRoadHeight s meshes x y g fuel =
      match heightLoop s meshes x y fuel ⟨blockId, height⟩ with
      | none => .unfinished
      | some height => .returns height := by
  obtain ⟨entry, hfind, hheight⟩ := Option.bind_eq_some_iff.mp h
  obtain ⟨mesh, hmesh, rfl⟩ := Option.map_eq_some_iff.mp hheight
  simp only [getRoadHeight, hblocks, hbound, hin, hcell, hid, hfind, hmesh, not_true_eq_false,
    or_self, if_false, Option.bind_some]

/-- Where the call comes back from the search, the block of the point has a mesh, whose height is
not 0. -/
theorem exists_reported {g : MapGrid} (hblocks : s.blocks.entries.length ≠ 0)
    (hbound : mapAvailable s = true) (hin : ¬ Outside g x y) {fuel : ℕ} {height : ℚ}
    (h : getRoadHeight s meshes x y g (fuel + 1) = .returns height) :
    ∃ cell blockId, cellOf g x y = some cell ∧ blockIdOf g cell = some blockId ∧
      reported s meshes x y blockId = some height ∧ height ≠ 0 := by
  simp only [getRoadHeight, hblocks, hbound, hin, not_true_eq_false, or_self, if_false] at h
  split at h
  · cases h
  · next blockId hid =>
      obtain ⟨cell, hcell, hid⟩ := Option.bind_eq_some_iff.mp hid
      split at h
      · cases h
      · next entry hfind =>
          split at h
          · cases h
          · next mesh hmesh =>
              have hreported : reported s meshes x y blockId = some (mesh x y) := by
                rw [reported, hfind, Option.bind_some, hmesh, Option.map_some]
              by_cases hzero : mesh x y = 0
              · rw [hzero] at h hreported
                rw [heightLoop_eq_none hreported] at h
                cases h
              · rw [heightLoop, if_pos hzero] at h
                cases h
                exact ⟨cell, blockId, hcell, hid, hreported, hzero⟩

/-- **The height is right** exactly where there is nothing to search, or the block of the point has
a mesh with a positive height. -/
theorem roadHeight_iff (s : TilecacheImpl) (meshes : UInt32 → Option Mesh) (g : MapGrid) (x y : ℚ)
    (hbound : mapAvailable s = true) : ReturnsHeight s meshes x y g ↔
      s.blocks.entries.length = 0 ∨ Outside g x y ∨ OwnHeight s meshes x y g := by
  by_cases hblocks : s.blocks.entries.length = 0
  · refine iff_of_true ⟨0, 0, fun fuel _ => if_pos (.inl hblocks), .inl ⟨rfl, ?_⟩⟩ (.inl hblocks)
    rintro r blockId h - ⟨hreported, -⟩
    obtain ⟨entry, hfind, -⟩ := Option.bind_eq_some_iff.mp hreported
    rw [StdMap.find_eq_some_iff, List.length_eq_zero_iff.mp hblocks] at hfind
    cases hfind
  by_cases hin : Outside g x y
  · refine iff_of_true ⟨0, 0, fun fuel _ => ?_, .inl ⟨rfl, ?_⟩⟩ (.inr (.inl hin))
    · simp only [getRoadHeight, hblocks, hbound, hin, not_true_eq_false, or_self, if_false, if_true]
    · exact fun r blockId h hnear => absurd hin hnear.1
  constructor
  · rintro ⟨n, height, hret, hheight⟩
    obtain ⟨cell, blockId, hcell, hid, hreported, hne⟩ :=
      exists_reported hblocks hbound hin (hret (n + 1) (Nat.le_succ n))
    obtain ⟨hzero, -⟩ | ⟨r, blockId', -, hpos, -⟩ := hheight
    · exact absurd hzero hne
    · exact .inr (.inr ⟨cell, blockId, height, hcell, hid, hreported, hpos.2⟩)
  · rintro (hnone | hout | ⟨cell, blockId, height, hcell, hid, hreported, hpos⟩)
    · exact absurd hnone hblocks
    · exact absurd hout hin
    · refine ⟨1, height, fun fuel hfuel => ?_, .inr ⟨0, blockId, ?_, ⟨hreported, hpos⟩, ?_⟩⟩
      · obtain ⟨fuel, rfl⟩ := Nat.exists_eq_add_of_le' hfuel
        rw [getRoadHeight_of_reported hblocks hbound hin hcell hid hreported, heightLoop,
          if_pos hpos.ne']
      · exact ⟨hin, Nat.zero_le 5, cell, hcell, .inl ⟨rfl, hid⟩⟩
      · exact fun r hr => absurd hr (Nat.not_lt_zero r)

end

/-- Two rows of two blocks of ten by ten. -/
def twoByTwo : MapGrid := { fourBlocks with xmax := 20, ymax := 20 }

/-- A cache with one block of a map. -/
def oneBlockCache (blockId : UInt32) : TilecacheImpl :=
  { TilecacheImpl.new with blocks := StdMap.empty.insert blockId ⟨false, 1, 0⟩, mapinfo := 1 }

/-- A point in the loaded block, whose mesh has the height 3. -/
theorem roadHeight_iff_three :
    ReturnsHeight (oneBlockCache 3) (fun _ => some fun _ _ => 3) 15 15 twoByTwo := by
  refine (roadHeight_iff (oneBlockCache 3) _ twoByTwo _ _ (by decide)).mpr (.inr (.inr ?_))
  exact ⟨(1, 1), 3, 3, by decide +kernel, by decide +kernel, by decide +kernel, by decide⟩

/-- With one block loaded, the call does not come back at a point of another block, nor at one of
its own where its mesh has the height 0. -/
theorem not_returnsHeight :
    ¬ ReturnsHeight (oneBlockCache 3) (fun _ => some fun _ _ => 3) 5 5 twoByTwo ∧
      ¬ ReturnsHeight (oneBlockCache 3) (fun _ => some fun _ _ => 0) 15 15 twoByTwo := by
  constructor
  · rintro ⟨n, height, hret, -⟩
    have hundefined : ∀ fuel, getRoadHeight (oneBlockCache 3) (fun _ => some fun _ _ => 3) 5 5
        twoByTwo fuel = .undefined := by
      intro fuel
      have hid : (cellOf twoByTwo 5 5).bind (blockIdOf twoByTwo) = some 0 := by decide +kernel
      have hin : ¬ Outside twoByTwo 5 5 := by decide +kernel
      have hblocks : ¬ ((oneBlockCache 3).blocks.entries.length = 0 ∨
          ¬ mapAvailable (oneBlockCache 3)) := by
        decide
      rw [getRoadHeight, if_neg hblocks, if_neg hin, hid]
      rfl
    cases (hundefined n).symm.trans (hret n (Nat.le_refl n))
  · rintro ⟨n, height, hret, -⟩
    obtain ⟨cell, blockId, -, -, hreported, hne⟩ :=
      exists_reported (by decide) (by decide) (by decide +kernel) (hret (n + 1) (Nat.le_succ n))
    obtain ⟨entry, -, hmesh⟩ := Option.bind_eq_some_iff.mp hreported
    cases hmesh
    exact hne rfl

end V2I.TileCache
