import V2I.Lib.Lists
import V2I.OsmParser.OsmMap.References
import V2I.OsmParser.Planning

/-!
# V2I.OsmParser.Planning.RoundTrip

What `deserial_planningmap` makes of the file of `serial_planningmap`: the levels, blocks, nodes and
edges in their order (`deserial_serial`), but every node with an index one too high, so that exactly
the maps without nodes come back as they were.
-/

namespace V2I.OsmParser

open List Option

open OsmMap (toInt toInt_le toInt_lt toInt_of_lt)

variable {F : Type}

/-! ## Tables -/

/-- The records stand one behind the other from the address on. -/
abbrev Holds (file : List (FileRecord F)) (addr : ℕ) (records : List (FileRecord F)) : Prop :=
  Records.Holds FileRecord.size file addr records

theorem total_nodeinfo (ns : List (FileNodeinfo F)) :
    Records.total FileRecord.size (ns.map .nodeinfo) = 44 * ns.length := by
  rw [Records.total_const (z := 44), length_map]
  exact forall_mem_map.mpr fun _ _ => rfl

theorem total_blockinfo (bs : List (FileBlockinfo F)) :
    Records.total FileRecord.size (bs.map .blockinfo) = 64 * bs.length := by
  rw [Records.total_const (z := 64), length_map]
  exact forall_mem_map.mpr fun _ _ => rfl

theorem total_level (ls : List (FileLevel F)) :
    Records.total FileRecord.size (ls.map .level) = 105 * ls.length := by
  rw [Records.total_const (z := 105), length_map]
  exact forall_mem_map.mpr fun _ _ => rfl

theorem total_edge (es : List (FileEdge F)) :
    Records.total FileRecord.size (es.map .edge) = 40 * es.length := by
  rw [Records.total_const (z := 40), length_map]
  exact forall_mem_map.mpr fun _ _ => rfl

theorem length_serialLevel (blksz : ℕ) (m : PlanningMap F) :
    (serialLevel blksz m).length = m.length := by
  induction m generalizing blksz with
  | nil => rfl
  | cons lvl m ih => rw [serialLevel, length_cons, ih, length_cons]

theorem length_serialBlock (startAddr nodecountsz : ℕ) (blks : List (PlanningMapBlock F)) :
    (serialBlock startAddr nodecountsz blks).length = blks.length := by
  induction blks generalizing nodecountsz with
  | nil => rfl
  | cons blk blks ih => rw [serialBlock, length_cons, ih, length_cons]

theorem length_serialNodes (edgestartsz : ℕ) (nodes : List (PlanningMapNode F)) :
    (serialNodes edgestartsz nodes).length = nodes.length := by
  induction nodes generalizing edgestartsz with
  | nil => rfl
  | cons node nodes ih => rw [serialNodes, length_cons, ih, length_cons]

/-- The number of edges of the nodes. -/
def edgeCount : List (PlanningMapNode F) → ℕ
  | [] => 0
  | node :: nodes => node.edgelist.length + edgeCount nodes

theorem serialNodes_append (edgestartsz : ℕ) (ns ns' : List (PlanningMapNode F)) :
    serialNodes edgestartsz (ns ++ ns') =
      serialNodes edgestartsz ns ++ serialNodes (edgestartsz + 40 * edgeCount ns) ns' := by
  induction ns generalizing edgestartsz with
  | nil => rfl
  | cons node ns ih =>
      rw [cons_append, serialNodes, ih, serialNodes, cons_append, edgeCount, Nat.mul_add,
        Nat.add_assoc]

theorem serialBlock_append (startAddr nodecountsz : ℕ) (bs bs' : List (PlanningMapBlock F)) :
    serialBlock startAddr nodecountsz (bs ++ bs') =
      serialBlock startAddr nodecountsz bs ++
        serialBlock startAddr
          (nodecountsz + (bs.flatMap PlanningMapBlock.nodelist).length) bs' := by
  induction bs generalizing nodecountsz with
  | nil => rfl
  | cons blk bs ih =>
      rw [cons_append, serialBlock, ih, serialBlock, cons_append, flatMap_cons,
        length_append, Nat.add_assoc]

/-! ## Loading -/

section Load

variable {file : List (FileRecord F)} {addr : ℕ}

theorem deserialEdges_spec {es : List (FileEdge F)} (h : Holds file addr (es.map .edge)) :
    deserialEdges file es.length addr = some (es.map generateMapedge) := by
  induction es generalizing addr with
  | nil => rfl
  | cons e es ih =>
      obtain ⟨he, hes⟩ := h
      have hrest : deserialEdges file es.length (addr + 40) =
          some (es.map generateMapedge) := ih hes
      rw [length_cons, deserialEdges, recordAt, he]
      simp only
      rw [hrest]
      rfl

/-- A node as it is loaded, before the ends of its edges are found. -/
def loadNode (lvl : PlanningMapLevel F) (node : PlanningMapNode F) (nodecnt : ℕ) :
    PlanningMapNode F where
  uid := node.uid
  lat := node.lat
  lon := node.lon
  blockid := node.blockid
  inblockindex := (nodecnt + 1) % 2 ^ 32
  edgelist := (node.edgelist.map lvl.fileEdge).map generateMapedge

def loadNodes (lvl : PlanningMapLevel F) : List (PlanningMapNode F) → ℕ → List (PlanningMapNode F)
  | [], _ => []
  | node :: nodes, nodecnt => loadNode lvl node nodecnt :: loadNodes lvl nodes (nodecnt + 1)

def loadBlock (lvl : PlanningMapLevel F) (blk : PlanningMapBlock F) : PlanningMapBlock F :=
  { blk with nodelist := loadNodes lvl blk.nodelist 0 }

/-- A level as it is loaded, before the ends of the edges are found. -/
def loadLevel (lvl : PlanningMapLevel F) : PlanningMapLevel F :=
  { lvl with gblAvlnode := [], blocks := lvl.blocks.map (loadBlock lvl) }

theorem toInt_toNat {n : ℕ} (h : n < 2 ^ 31) : (toInt n).toNat = n := by
  rw [toInt_of_lt h, Int.toNat_natCast]

/-- The edges of the nodes, as they are written. -/
def fileEdges (lvl : PlanningMapLevel F) (nodes : List (PlanningMapNode F)) : List (FileEdge F) :=
  nodes.flatMap fun node => node.edgelist.map lvl.fileEdge

variable (lvl : PlanningMapLevel F)

theorem length_fileEdges (nodes : List (PlanningMapNode F)) :
    (fileEdges lvl nodes).length = edgeCount nodes := by
  induction nodes with
  | nil => rfl
  | cons node nodes ih =>
      rw [fileEdges, flatMap_cons, length_append, length_map, edgeCount, ← ih]
      rfl

variable {edgestartsz : ℕ}

theorem deserialNodes_spec (nodecnt : ℕ) {nodes : List (PlanningMapNode F)}
    (hnodes : Holds file addr ((serialNodes edgestartsz nodes).map .nodeinfo))
    (hedges : Holds file edgestartsz ((fileEdges lvl nodes).map .edge))
    (hcount : ∀ node ∈ nodes, node.edgelist.length < 2 ^ 31) :
    deserialNodes file nodes.length addr nodecnt = some (loadNodes lvl nodes nodecnt) := by
  induction nodes generalizing addr edgestartsz nodecnt with
  | nil => rfl
  | cons node nodes ih =>
      obtain ⟨hnode, hnodes⟩ := hnodes
      obtain ⟨hc, hcount⟩ := forall_mem_cons.mp hcount
      rw [fileEdges, flatMap_cons, map_append, Holds, Records.holds_append, total_edge,
        length_map] at hedges
      have hown := deserialEdges_spec hedges.1
      rw [length_map] at hown
      have hrest : deserialNodes file nodes.length (addr + 44) (nodecnt + 1) =
          some (loadNodes lvl nodes (nodecnt + 1)) := ih (nodecnt + 1) hnodes hedges.2 hcount
      rw [length_cons, deserialNodes, recordAt, hnode]
      simp only
      rw [toInt_toNat hc, hown]
      simp only
      rw [hrest]
      rfl

/-- The counts in the file are `int`s. -/
def SmallBlock (blk : PlanningMapBlock F) : Prop :=
  blk.nodelist.length < 2 ^ 31 ∧ ∀ node ∈ blk.nodelist, node.edgelist.length < 2 ^ 31

theorem deserialBlock_spec {startAddr nodecountsz : ℕ} {blks : List (PlanningMapBlock F)}
    (hblocks : Holds file addr ((serialBlock startAddr nodecountsz blks).map .blockinfo))
    (hnodes : Holds file (44 * nodecountsz + startAddr)
      ((serialNodes edgestartsz (blks.flatMap PlanningMapBlock.nodelist)).map .nodeinfo))
    (hedges : Holds file edgestartsz
      ((fileEdges lvl (blks.flatMap PlanningMapBlock.nodelist)).map .edge))
    (hsmall : ∀ blk ∈ blks, SmallBlock blk) :
    deserialBlock file blks.length addr = some (blks.map (loadBlock lvl)) := by
  induction blks generalizing addr nodecountsz edgestartsz with
  | nil => rfl
  | cons blk blks ih =>
      obtain ⟨hblock, hblocks⟩ := hblocks
      obtain ⟨⟨hc, hcount⟩, hsmall⟩ := forall_mem_cons.mp hsmall
      rw [flatMap_cons, serialNodes_append, map_append, Holds, Records.holds_append,
        total_nodeinfo, length_serialNodes] at hnodes
      rw [flatMap_cons, fileEdges, flatMap_append, map_append, Holds,
        Records.holds_append, total_edge] at hedges
      obtain ⟨hown, hnodes⟩ := hnodes
      obtain ⟨hedge, hedges⟩ := hedges
      have hlength := length_fileEdges lvl blk.nodelist
      rw [fileEdges] at hlength
      rw [hlength] at hedges
      have haddr : 44 * nodecountsz + startAddr + 44 * blk.nodelist.length =
          44 * (nodecountsz + blk.nodelist.length) + startAddr := by omega
      rw [haddr] at hnodes
      have hrest : deserialBlock file blks.length (addr + 64) = some (blks.map (loadBlock lvl)) :=
        ih hblocks hnodes hedges hsmall
      rw [length_cons, deserialBlock, recordAt, hblock]
      simp only
      rw [toInt_toNat hc, deserialNodes_spec lvl 0 hown hedge hcount]
      simp only
      rw [hrest]
      rfl

/-- The counts in the file are `int`s. -/
structure Small (m : PlanningMap F) : Prop where
  levels : m.length < 2 ^ 31
  blocks : ∀ lvl ∈ m, lvl.blocks.length < 2 ^ 31
  nodes : ∀ lvl ∈ m, ∀ blk ∈ lvl.blocks, SmallBlock blk

theorem deserialLevel_spec {blksz startAddr : ℕ} (nodecountsz : ℕ) {m : PlanningMap F}
    (hlevels : Holds file addr ((serialLevel blksz m).map .level))
    (hblocks : Holds file blksz
      ((serialBlock startAddr nodecountsz (m.flatMap PlanningMapLevel.blocks)).map .blockinfo))
    (hnodes : Holds file (44 * nodecountsz + startAddr)
      ((serialNodes edgestartsz (m.flatMap PlanningMapLevel.nodes)).map .nodeinfo))
    (hedges : Holds file edgestartsz ((m.flatMap PlanningMapLevel.serialEdges).map .edge))
    (hblockCount : ∀ lvl ∈ m, lvl.blocks.length < 2 ^ 31)
    (hsmall : ∀ lvl ∈ m, ∀ blk ∈ lvl.blocks, SmallBlock blk) :
    deserialLevel file m.length addr =
      some (m.map fun lvl => (loadLevel lvl).createPlanningMapEdge) := by
  induction m generalizing addr blksz nodecountsz edgestartsz with
  | nil => rfl
  | cons lvl m ih =>
      obtain ⟨hlevel, hlevels⟩ := hlevels
      obtain ⟨hc, hblockCount⟩ := forall_mem_cons.mp hblockCount
      obtain ⟨hs, hsmall⟩ := forall_mem_cons.mp hsmall
      rw [flatMap_cons, serialBlock_append, map_append, Holds, Records.holds_append,
        total_blockinfo, length_serialBlock] at hblocks
      rw [flatMap_cons, serialNodes_append, map_append, Holds, Records.holds_append,
        total_nodeinfo, length_serialNodes] at hnodes
      rw [flatMap_cons, map_append, Holds, Records.holds_append, total_edge] at hedges
      have hlength : lvl.serialEdges.length = edgeCount lvl.nodes := length_fileEdges lvl lvl.nodes
      rw [hlength] at hedges
      have haddr : 44 * nodecountsz + startAddr + 44 * lvl.nodes.length =
          44 * (nodecountsz + lvl.nodes.length) + startAddr := by omega
      rw [haddr] at hnodes
      have hrest : deserialLevel file m.length (addr + 105) =
          some (m.map fun lvl => (loadLevel lvl).createPlanningMapEdge) :=
        ih _ hlevels hblocks.2 hnodes.2 hedges.2 hblockCount hsmall
      rw [length_cons, deserialLevel, recordAt, hlevel]
      simp only
      rw [toInt_toNat hc, deserialBlock_spec lvl hblocks.1 hnodes.1 hedges.1 hs]
      simp only
      rw [hrest]
      rfl

end Load

theorem size_pos (e : FileRecord F) : 0 < e.size := by
  cases e <;> simp [FileRecord.size]

/-- **The four tables** are read back as they are written: only the in-block indices change. -/
theorem deserial_serial {m : PlanningMap F} (h : Small m) :
    deserialPlanningmap (serialPlanningmap m) =
      some (m.map fun lvl => (loadLevel lvl).createPlanningMapEdge) := by
  have hself := Records.holds_self size_pos (serialPlanningmap m)
  rw [serialPlanningmap] at hself
  obtain ⟨hheader, hrest⟩ := hself
  simp only [Records.holds_append, total_level, total_blockinfo, total_nodeinfo, length_serialLevel,
    length_serialBlock, length_serialNodes, FileRecord.size, Nat.zero_add] at hrest
  obtain ⟨hlevels, hblocks, hnodes, hedges⟩ := hrest
  rw [deserialPlanningmap, recordAt]
  simp only [serialPlanningmap]
  rw [hheader]
  simp only
  rw [toInt_toNat h.levels]
  exact deserialLevel_spec 0 hlevels hblocks (by simpa using hnodes) hedges
    h.blocks h.nodes

/-! ## Maps without nodes -/

/-- The level without the tree, which the file does not have. -/
def PlanningMapLevel.forgetTree (lvl : PlanningMapLevel F) : PlanningMapLevel F :=
  { lvl with gblAvlnode := [] }

/-- The map comes back from its file, and gives the same file again. -/
def RoundTrip (m : PlanningMap F) : Prop :=
  ∃ m', deserialPlanningmap (serialPlanningmap m) = some m' ∧
    m'.map PlanningMapLevel.forgetTree = m.map PlanningMapLevel.forgetTree ∧
    serialPlanningmap m' = serialPlanningmap m

theorem serialLevel_forgetTree (blksz : ℕ) (m : PlanningMap F) :
    serialLevel blksz (m.map PlanningMapLevel.forgetTree) = serialLevel blksz m := by
  induction m generalizing blksz with
  | nil => rfl
  | cons lvl m ih =>
      rw [map_cons, serialLevel, serialLevel, ← ih]
      rfl

theorem serialPlanningmap_forgetTree (m : PlanningMap F) :
    serialPlanningmap (m.map PlanningMapLevel.forgetTree) = serialPlanningmap m := by
  have hblocks : (m.map PlanningMapLevel.forgetTree).flatMap PlanningMapLevel.blocks =
      m.flatMap PlanningMapLevel.blocks := flatMap_map _ _ m
  have hnodes : (m.map PlanningMapLevel.forgetTree).flatMap PlanningMapLevel.nodes =
      m.flatMap PlanningMapLevel.nodes := flatMap_map _ _ m
  have hedges : (m.map PlanningMapLevel.forgetTree).flatMap PlanningMapLevel.serialEdges =
      m.flatMap PlanningMapLevel.serialEdges := flatMap_map _ _ m
  simp only [serialPlanningmap, hblocks, hnodes, hedges, serialLevel_forgetTree, length_map]

variable {lvl : PlanningMapLevel F}

theorem nodes_eq_nil_iff :
    lvl.nodes = [] ↔ ∀ blk ∈ lvl.blocks, blk.nodelist = [] := flatMap_eq_nil_iff

theorem setNodelist_eq_self {blk : PlanningMapBlock F} (h : blk.nodelist = []) :
    { blk with nodelist := [] } = blk := by
  rw [← h]

/-- A level without nodes is loaded as it was. -/
theorem load_of_nodes_eq_nil (h : lvl.nodes = []) :
    (loadLevel lvl).createPlanningMapEdge = lvl.forgetTree := by
  have hblk : ∀ blk ∈ lvl.blocks, loadBlock lvl blk = blk := by
    intro blk hblk
    have hnil := nodes_eq_nil_iff.mp h blk hblk
    rw [loadBlock, hnil]
    exact setNodelist_eq_self hnil
  have hload : loadLevel lvl = lvl.forgetTree := by
    rw [loadLevel, List.map_congr_left hblk, List.map_id']
    rfl
  rw [hload]
  simp only [PlanningMapLevel.createPlanningMapEdge, PlanningMapLevel.forgetTree]
  congr 1
  refine (List.map_congr_left fun blk hblk => ?_).trans (map_id _)
  have hnil := nodes_eq_nil_iff.mp h blk hblk
  rw [hnil]
  exact setNodelist_eq_self hnil

/-! ## In-block indices -/

/-- Nodes have their positions as in-block indices, shifted by some number. -/
def Indexed (d : ℕ) (lvl : PlanningMapLevel F) : Prop :=
  ∀ (b : ℕ) (blk : PlanningMapBlock F), lvl.blocks[b]? = some blk →
    ∀ (k : ℕ) (node : PlanningMapNode F), blk.nodelist[k]? = some node →
      node.inblockindex = (k + d) % 2 ^ 32

section Loaded

variable {file : List (FileRecord F)} {addr : ℕ}

theorem deserialNodes_indexed {n nodecnt : ℕ} {nodes : List (PlanningMapNode F)}
    (h : deserialNodes file n addr nodecnt = some nodes) :
    ∀ (k : ℕ) (node : PlanningMapNode F), nodes[k]? = some node →
      node.inblockindex = (nodecnt + k + 1) % 2 ^ 32 := by
  induction n generalizing addr nodecnt nodes with
  | zero =>
      cases h
      intro k node hk
      simp at hk
  | succ n ih =>
      rw [deserialNodes] at h
      split at h
      · split at h
        · cases h
        · obtain ⟨rest, hrest, rfl⟩ := map_eq_some_iff.mp h
          intro k node hk
          cases k with
          | zero =>
              cases hk
              rfl
          | succ k =>
              rw [getElem?_cons_succ] at hk
              rw [ih hrest k node hk]
              congr 1
              omega
      · cases h

theorem deserialBlock_indexed {n : ℕ} {blks : List (PlanningMapBlock F)}
    (h : deserialBlock file n addr = some blks) :
    ∀ blk ∈ blks, ∀ (k : ℕ) (node : PlanningMapNode F), blk.nodelist[k]? = some node →
      node.inblockindex = (k + 1) % 2 ^ 32 := by
  induction n generalizing addr blks with
  | zero =>
      cases h
      exact fun blk hblk => (not_mem_nil hblk).elim
  | succ n ih =>
      rw [deserialBlock] at h
      split at h
      · split at h
        · cases h
        · rename_i nodes hnodes
          obtain ⟨rest, hrest, rfl⟩ := map_eq_some_iff.mp h
          refine forall_mem_cons.mpr ⟨fun k node hk => ?_, ih hrest⟩
          rw [deserialNodes_indexed hnodes k node hk, Nat.zero_add]
      · cases h

/-- To find the ends of the edges leaves the nodes with their indices. -/
theorem indexed_createPlanningMapEdge {d : ℕ} {lvl : PlanningMapLevel F} (h : Indexed d lvl) :
    Indexed d lvl.createPlanningMapEdge := by
  intro b blk hblk k node hnode
  simp only [PlanningMapLevel.createPlanningMapEdge, getElem?_map] at hblk
  obtain ⟨blk', hblk', rfl⟩ := map_eq_some_iff.mp hblk
  simp only [getElem?_map] at hnode
  obtain ⟨node', hnode', rfl⟩ := map_eq_some_iff.mp hnode
  exact h b blk' hblk' k node' hnode'

theorem deserialLevel_indexed {n : ℕ} {m : PlanningMap F} (h : deserialLevel file n addr = some m) :
    m.length = n ∧ ∀ lvl ∈ m, Indexed 1 lvl := by
  induction n generalizing addr m with
  | zero =>
      cases h
      exact ⟨rfl, fun lvl hlvl => (not_mem_nil hlvl).elim⟩
  | succ n ih =>
      rw [deserialLevel] at h
      split at h
      · split at h
        · cases h
        · rename_i blocks hblocks
          obtain ⟨rest, hrest, rfl⟩ := map_eq_some_iff.mp h
          obtain ⟨hlength, hindexed⟩ := ih hrest
          refine ⟨by rw [length_cons, hlength], forall_mem_cons.mpr ⟨?_, hindexed⟩⟩
          refine indexed_createPlanningMapEdge fun b blk hblk => ?_
          exact deserialBlock_indexed hblocks blk (mem_of_getElem? hblk)
      · cases h

end Loaded

/-! ## Built maps -/

/-- What the calls keep of a level. -/
structure BuiltLevel (lvl : PlanningMapLevel F) : Prop where
  indexed : Indexed 0 lvl
  blocks : lvl.blocks.length < 2 ^ 31

variable {lvl : PlanningMapLevel F}

theorem BuiltLevel.addEdge (hl : BuiltLevel lvl) (place : ℕ × ℕ) (e : PlanningMapEdge F) :
    BuiltLevel (lvl.addEdge place e) := by
  refine ⟨fun b blk hblk k n hn => ?_, ?_⟩
  · simp only [PlanningMapLevel.addEdge, PlanningMapLevel.modifyBlock, getElem?_modify] at hblk
    obtain ⟨blk', hblk', rfl⟩ := map_eq_some_iff.mp hblk
    split_ifs at hn
    · simp only [getElem?_modify] at hn
      obtain ⟨n', hn', rfl⟩ := map_eq_some_iff.mp hn
      rw [← hl.indexed b blk' hblk' k n' hn']
      split_ifs <;> rfl
    · exact hl.indexed b blk' hblk' k n hn
  · simpa [PlanningMapLevel.addEdge, PlanningMapLevel.modifyBlock] using hl.blocks

theorem BuiltLevel.generateEdge (hl : BuiltLevel lvl) (distance : F → F → F → F → F)
    (node : OsmNode F) : BuiltLevel (lvl.generateEdge distance node) := by
  rw [PlanningMapLevel.generateEdge]
  split
  · exact hl
  · rename_i place hplace
    clear hplace
    induction node.wayrefList generalizing lvl with
    | nil => exact hl
    | cons wref wrefs ih =>
        rw [foldl_cons]
        refine ih ?_
        rw [PlanningMapLevel.generateWayref]
        split
        · exact hl
        · split
          · split_ifs
            · exact hl.addEdge _ _
            · exact (hl.addEdge _ _).addEdge _ _
          · exact hl

/-- A loaded node has not the index that it had. -/
theorem nodes_eq_nil_of_forgetTree {m m' : PlanningMap F} (hm : ∀ lvl ∈ m, Indexed 0 lvl)
    (hm' : ∀ lvl ∈ m', Indexed 1 lvl)
    (heq : m'.map PlanningMapLevel.forgetTree = m.map PlanningMapLevel.forgetTree) :
    ∀ lvl ∈ m, lvl.nodes = [] := by
  intro lvl hlvl
  have hmem : lvl.forgetTree ∈ m'.map PlanningMapLevel.forgetTree := by
    rw [heq]
    exact mem_map_of_mem hlvl
  obtain ⟨lvl', hlvl', hforget⟩ := mem_map.mp hmem
  have hblocks : lvl'.forgetTree.blocks = lvl.forgetTree.blocks := by rw [hforget]
  refine nodes_eq_nil_iff.mpr fun blk hblk => ?_
  obtain ⟨b, hb⟩ := getElem?_of_mem hblk
  rw [eq_nil_iff_length_eq_zero]
  by_contra hpos
  -- the first node
  have hfirst : blk.nodelist[0]? = some blk.nodelist[0] := getElem?_eq_getElem (by omega)
  have hbuilt := hm lvl hlvl b blk hb 0 _ hfirst
  have hloaded := hm' lvl' hlvl' b blk (hblocks ▸ hb) 0 _ hfirst
  rw [hbuilt] at hloaded
  exact absurd hloaded (by decide)

section Built

variable [Double F] {lvl : PlanningMapLevel F}

theorem builtLevel_generateLevel {scope : MapScope F} {row col lvlid : ℤ}
    (h : generateLevel scope row col lvlid = some lvl) : BuiltLevel lvl := by
  rw [generateLevel] at h
  split_ifs at h with hbad
  cases h
  refine ⟨fun b blk hblk k node hnode => ?_, ?_⟩
  · obtain ⟨i, -, hmem⟩ := mem_flatMap.mp (mem_of_getElem? hblk)
    obtain ⟨j, -, rfl⟩ := mem_map.mp hmem
    simp [generateBlock] at hnode
  · simp only [length_flatMap_range]
    obtain ⟨-, hlt⟩ := not_or.mp hbad
    rcases Int.lt_or_le row 0 with hrow | hrow
    · rw [Int.toNat_of_nonpos (Int.le_of_lt hrow), Nat.zero_mul]
      decide
    rcases Int.lt_or_le col 0 with hcol | hcol
    · rw [Int.toNat_of_nonpos (Int.le_of_lt hcol), Nat.mul_zero]
      decide
    have hcast : ((row.toNat * col.toNat : ℕ) : ℤ) = row * col := by
      rw [Int.natCast_mul, Int.toNat_of_nonneg hrow, Int.toNat_of_nonneg hcol]
    generalize row.toNat * col.toNat = x at hcast ⊢
    generalize row * col = y at hcast hlt
    omega

theorem BuiltLevel.generateNode {lvl' : PlanningMapLevel F} {node : OsmNode F} (hl : BuiltLevel lvl)
    (h : lvl.generateNode node = some lvl') : BuiltLevel lvl' := by
  rw [PlanningMapLevel.generateNode] at h
  split at h
  · split at h
    · cases h
      exact hl
    · cases h
    · split at h
      · cases h
      · rename_i b _ _ blk hblk
        cases h
        refine ⟨fun b' blk' hblk' k n hn => ?_, by simpa using hl.blocks⟩
        simp only [getElem?_set] at hblk'
        split_ifs at hblk' with hb
        · -- the new node is behind the others
          cases hblk'
          simp only at hn
          rw [getElem?_append] at hn
          split_ifs at hn with hk
          · exact hl.indexed b blk hblk k n hn
          · have hk' : k = blk.nodelist.length := by
              have := (List.getElem?_eq_some_iff.mp hn).1
              simp at this
              omega
            subst hk'
            simp only [Nat.sub_self, getElem?_cons_zero, some_inj] at hn
            rw [← hn]
            rfl
        · exact hl.indexed b' blk' hblk' k n hn
  · cases h
    exact hl

/-- Every level of a built map has its nodes in their positions. -/
theorem Built.levels {distance : F → F → F → F → F} {m : PlanningMap F} (h : Built distance m) :
    ∀ lvl ∈ m, BuiltLevel lvl := by
  obtain ⟨calls, rs, hrun⟩ := h
  refine (Machine.run_invariant (I := fun m => ∀ lvl ∈ m, BuiltLevel lvl) (Q := fun _ => True)
    ?_ hrun (fun lvl hlvl => (not_mem_nil hlvl).elim)).1
  intro m c m' r hstep hm
  refine ⟨?_, trivial⟩
  cases c with
  | generateLevel scope row col lvlid =>
      obtain ⟨lvl, hlvl, heq⟩ := map_eq_some_iff.mp hstep
      cases heq
      rw [forall_mem_append]
      exact ⟨hm, forall_mem_singleton.mpr (builtLevel_generateLevel hlvl)⟩
  | generateNode lvlid node =>
      simp only [planningStep] at hstep
      split at hstep
      · cases hstep
      · split at hstep
        · cases hstep
        · rename_i i _ lvl hlvl
          obtain ⟨lvl', hlvl', heq⟩ := map_eq_some_iff.mp hstep
          cases heq
          intro l hl
          rcases mem_or_eq_of_mem_set hl with hl | rfl
          · exact hm l hl
          · exact (hm lvl (mem_of_getElem? hlvl)).generateNode hlvl'
  | generateEdge node =>
      cases hstep
      exact forall_mem_map.mpr fun lvl hlvl => (hm lvl hlvl).generateEdge distance node

end Built

/-- **Writing and loading** a planning map are inverse for exactly the maps without nodes (and with
an `int` of levels). -/
theorem roundTrip_iff [Double F] (distance : F → F → F → F → F) (m : PlanningMap F)
    (hm : Built distance m) : RoundTrip m ↔ m.length < 2 ^ 31 ∧ ∀ lvl ∈ m, lvl.nodes = [] := by
  constructor
  · rintro ⟨m', hload, hsame, -⟩
    have hheader : recordAt (serialPlanningmap m) 0 = some (.header (toInt m.length) 28) := rfl
    simp only [deserialPlanningmap, hheader] at hload
    obtain ⟨hlength, hindexed⟩ := deserialLevel_indexed hload
    refine ⟨?_, nodes_eq_nil_of_forgetTree (fun lvl hlvl => (hm.levels lvl hlvl).indexed)
      hindexed hsame⟩
    have hlength' : m'.length = m.length := by simpa using congrArg List.length hsame
    have := toInt_lt m.length
    omega
  · rintro ⟨hlength, hnodes⟩
    have hsmall : Small m := by
      refine ⟨hlength, fun lvl hlvl => (hm.levels lvl hlvl).blocks, fun lvl hlvl blk hblk => ?_⟩
      have hnil := nodes_eq_nil_iff.mp (hnodes lvl hlvl) blk hblk
      rw [SmallBlock, hnil]
      exact ⟨by simp, fun node hnode => (not_mem_nil hnode).elim⟩
    have hload : m.map (fun lvl => (loadLevel lvl).createPlanningMapEdge) =
        m.map PlanningMapLevel.forgetTree :=
      List.map_congr_left fun lvl hlvl => load_of_nodes_eq_nil (hnodes lvl hlvl)
    refine ⟨_, deserial_serial hsmall, ?_, ?_⟩
    · rw [hload, List.map_map]
      rfl
    · rw [hload, serialPlanningmap_forgetTree]

/-- Two levels of two blocks, the second one with a node in each and edges between them. -/
private def twoLevelCalls : List (PlanningCall ℚ) :=
  [.generateLevel ⟨0, 0, 2, 1⟩ 2 1 1, .generateLevel ⟨0, 0, 2, 1⟩ 2 1 2,
    .generateNode 2 ⟨7, 0, 0, true, []⟩, .generateNode 2 ⟨8, 3 / 2, 0, true, []⟩,
    .generateEdge ⟨7, 0, 0, true, [⟨false, 0, [(7, true), (8, true)]⟩]⟩]

/-- They go through; the map has nodes, so it does not come back. -/
theorem roundTrip_iff_twoLevels : ∃ m rs,
    Machine.run (planningStep fun _ _ _ _ => (1 : ℚ)) [] twoLevelCalls = some (m, rs) ∧
      m.map (fun lvl => lvl.nodes.map (·.edgelist.length)) = [[], [1, 1]] ∧
      (RoundTrip m ↔ m.length < 2 ^ 31 ∧ ∀ lvl ∈ m, lvl.nodes = []) := by
  have hrun : (Machine.run (planningStep fun _ _ _ _ => (1 : ℚ)) [] twoLevelCalls).any
      (fun p => p.1.map (fun lvl => lvl.nodes.map (·.edgelist.length)) == [[], [1, 1]]) = true := by
    decide +kernel
  obtain ⟨⟨m, rs⟩, h, hedges⟩ := Machine.exists_of_any hrun
  exact ⟨m, rs, h, beq_iff_eq.mp hedges, roundTrip_iff _ m ⟨twoLevelCalls, rs, h⟩⟩

/-- A level of one block with one node. -/
private def oneNode : PlanningMap ℚ :=
  [⟨1, 1, 1, 1, 1, 0, 1, 0, 1, [(7, 0, 0)], [⟨0, 0, 0, 1, 1, [⟨7, 0, 0, 0, 0, []⟩]⟩]⟩]

private theorem built_oneNode : Built (fun _ _ _ _ => 0) oneNode :=
  ⟨[.generateLevel ⟨0, 0, 1, 1⟩ 1 1 1, .generateNode 1 ⟨7, 0, 0, true, []⟩], [(), ()],
    by decide +kernel⟩

/-- The node comes back with index 1. -/
theorem not_roundTrip_oneNode : ¬ ∀ m : PlanningMap ℚ, Built (fun _ _ _ _ => 0) m → m ≠ [] →
    RoundTrip m := by
  intro h
  obtain ⟨m', hload, hsame, -⟩ := h oneNode built_oneNode (cons_ne_nil _ _)
  cases hload
  simp [PlanningMapLevel.forgetTree, PlanningMapLevel.createPlanningMapEdge, oneNode] at hsame

end V2I.OsmParser
