import Mathlib.Algebra.Order.Ring.Int
import V2I.MapCore.TileCache

/-!
# V2I.MapCore.TileCache.FixBlocks

What `fix_blocks_unlocked` does to the reference counts.

Every reference that is resolved adds one to the count of the tile it leads into. `Pays`
says this of a computation: it succeeds when all of its references resolve, and otherwise
it stops at the first that does not, with the ones before it paid for.
-/

namespace V2I.TileCache

open List

/-! ## References -/

/-- A reference to an object of a table. -/
abbrev Ref := Table × UInt32

/-- The ids in a list of slots, in the order of the walk. -/
def idsOf : List Slot → List UInt32
  | [] => []
  | .referring id :: slots => idsOf slots ++ [id]
  | _ :: slots => idsOf slots

/-- The references of a block, in the order in which they are resolved. -/
def Block.references (blk : Block) : List Ref :=
  (idsOf blk.roadSegs).map (Table.roadsegs, ·) ++ (idsOf blk.laneSecs).map (Table.lanesecs, ·) ++
    (idsOf blk.roadObjs).map (Table.roadobjs, ·)

/-- The references of a tile, in the order in which they are resolved. -/
def Rendermap.references (map : Rendermap) : List Ref := map.blocks.flatMap Block.references

/-- Some tile of the list has the object. -/
def Resolves (maps : List RendermapImpl) (ref : Ref) : Prop :=
  ∃ m ∈ maps, (find (m.map.table ref.1) ref.2).isSome

instance (maps : List RendermapImpl) : DecidablePred (Resolves maps) := fun _ =>
  inferInstanceAs (Decidable (∃ m ∈ maps, _))

/-- The slots that point into a tile. -/
def objects (slots : List Slot) (addr : ℕ) : ℕ :=
  slots.countP fun slot => match slot with
    | .object map _ => map = addr
    | _ => false

@[simp]
theorem objects_append (l l' : List Slot) : objects (l ++ l') = objects l + objects l' := by
  funext a
  simp [objects]

theorem objects_cons (slot : Slot) (l : List Slot) : objects (slot :: l) = objects [slot] + objects l :=
  objects_append [slot] l

@[simp]
theorem objects_object (map idx : ℕ) : objects [.object map idx] = Pi.single map 1 := by
  funext a
  by_cases h : map = a
  · simp [objects, h]
  · simp [objects, h, Ne.symm h]

@[simp]
theorem objects_own (idx : ℕ) : objects [.own idx] = 0 := rfl

/-- A slot of a loaded tile: an own object, or one of the tiles of the list. -/
def Fixed (maps : List RendermapImpl) : Slot → Prop
  | .own _ => True
  | .referring _ => False
  | .object map _ => map ∈ maps.map RendermapImpl.addr

/-! ## Charging tiles -/

/-- Add references to tiles. -/
def charge (n : ℕ → ℕ) (maps : List RendermapImpl) : List RendermapImpl :=
  maps.map fun m => { m with refcnt := m.refcnt + n m.addr }

@[simp]
theorem charge_zero (maps : List RendermapImpl) : charge 0 maps = maps := by
  simp [charge]

@[simp]
theorem addr_charge (n : ℕ → ℕ) (maps : List RendermapImpl) :
    (charge n maps).map RendermapImpl.addr = maps.map RendermapImpl.addr := by
  simp [charge]

theorem charge_congr {n n' : ℕ → ℕ} {maps : List RendermapImpl}
    (h : ∀ a ∈ maps.map RendermapImpl.addr, n a = n' a) : charge n maps = charge n' maps := by
  refine map_congr_left fun m hm => ?_
  rw [h m.addr (mem_map_of_mem hm)]

section Fix

variable {base : List RendermapImpl} {rd : RendermapImpl}

/-- **One reference**: it is taken from a tile of the list, which is charged for it, or no
tile has the object. -/
theorem fixLoop_charge (hnodup : (base.map RendermapImpl.addr).Nodup)
    (hrd : rd.addr ∉ base.map RendermapImpl.addr) (table : Table) (id : UInt32) (k : ℕ → ℕ) :
    (Resolves base (table, id) ∧ ∃ map idx, map ∈ base.map RendermapImpl.addr ∧
      fixLoop table rd.addr id (charge k base ++ [rd]) =
        (some (.object map idx), charge (k + Pi.single map 1) base ++ [rd])) ∨
    (¬ Resolves base (table, id) ∧
      fixLoop table rd.addr id (charge k base ++ [rd]) = (none, charge k base ++ [rd])) := by
  induction base with
  | nil => simp [Resolves, charge, fixLoop]
  | cons m base ih =>
      simp only [map_cons, nodup_cons, mem_cons, not_or] at hnodup hrd
      cases hfind : find (m.map.table table) id with
      | some idx =>
          have hloop : fixLoop table rd.addr id (charge k (m :: base) ++ [rd]) =
              (some (.object m.addr idx),
                { m with refcnt := m.refcnt + k m.addr + 1 } :: (charge k base ++ [rd])) := by
            simp [charge, fixLoop, Ne.symm hrd.1, hfind]
          refine .inl ⟨⟨m, by simp, by simp [hfind]⟩, m.addr, idx, by simp, ?_⟩
          have hbase : charge (k + Pi.single m.addr 1) base = charge k base := by
            refine charge_congr fun a ha => ?_
            simp [show a ≠ m.addr from fun h => hnodup.1 (h ▸ ha)]
          rw [hloop]
          simp only [charge, map_cons] at hbase ⊢
          rw [hbase]
          simp [add_assoc]
      | none =>
          have hloop : fixLoop table rd.addr id (charge k (m :: base) ++ [rd]) =
              ((fixLoop table rd.addr id (charge k base ++ [rd])).1,
                { m with refcnt := m.refcnt + k m.addr } ::
                  (fixLoop table rd.addr id (charge k base ++ [rd])).2) := by
            simp [charge, fixLoop, Ne.symm hrd.1, hfind]
          rw [hloop]
          rcases ih hnodup.2 hrd.2 with ⟨hres, map, idx, hmap, heq⟩ | ⟨hres, heq⟩
          · obtain ⟨m', hm', hfind'⟩ := hres
            refine .inl ⟨⟨m', by simp [hm'], hfind'⟩, map, idx, by simp [hmap], ?_⟩
            have hne : m.addr ≠ map := fun h => hnodup.1 (h ▸ hmap)
            rw [heq]
            simp [charge, Pi.single_apply, hne]
          · refine .inr ⟨?_, ?_⟩
            · rintro ⟨m', hm', hfind'⟩
              rcases mem_cons.mp hm' with rfl | hm'
              · simp [hfind] at hfind'
              · exact hres ⟨m', hm', hfind'⟩
            · rw [heq]
              rfl

/-- References that are paid for: some tile is charged when there are any. -/
def Paid (base : List RendermapImpl) (refs : List Ref) (n : ℕ → ℕ) : Prop :=
  (refs = [] → n = 0) ∧ (refs ≠ [] → ∃ m ∈ base, 0 < n m.addr)

theorem Paid.append {refs refs' : List Ref} {n n' : ℕ → ℕ} (h : Paid base refs n)
    (h' : Paid base refs' n') : Paid base (refs ++ refs') (n + n') := by
  constructor
  · intro hnil
    obtain ⟨hl, hr⟩ := append_eq_nil_iff.mp hnil
    rw [h.1 hl, h'.1 hr, add_zero]
  · intro hne
    by_cases hrefs : refs = []
    · obtain ⟨m, hm, hpos⟩ := h'.2 (by simpa [hrefs] using hne)
      exact ⟨m, hm, by simp only [Pi.add_apply]; omega⟩
    · obtain ⟨m, hm, hpos⟩ := h.2 hrefs
      exact ⟨m, hm, by simp only [Pi.add_apply]; omega⟩

/-- The first reference that does not resolve, with those before it paid for. -/
def Fails (base : List RendermapImpl) (refs : List Ref) (n : ℕ → ℕ) : Prop :=
  ∃ paid ref rest, refs = paid ++ ref :: rest ∧ (∀ p ∈ paid, Resolves base p) ∧
    ¬ Resolves base ref ∧ Paid base paid n

variable {α : Type}

theorem Fix.bind_apply {β : Type} (x : Fix α) (f : α → Fix β) (maps : List RendermapImpl) :
    (x >>= f) maps = match x maps with
      | (some v, maps) => f v maps
      | (none, maps) => (none, maps) := by
  have hbind : (x >>= f) maps = (match (x maps).1 with
      | some v => f v
      | none => (Pure.pure none : StateM (List RendermapImpl) (Option β))) (x maps).2 := rfl
  rw [hbind]
  obtain ⟨v, maps'⟩ := x maps
  cases v <;> rfl

/-- What a computation of `Fix` does from a list of charged tiles: it returns a value with
`Q` of the value and of what it charged, or it fails. -/
def Pays (base : List RendermapImpl) (rd : RendermapImpl) (refs : List Ref) (x : Fix α)
    (Q : α → (ℕ → ℕ) → Prop) : Prop :=
  ∀ k, ∃ n,
    (∃ v, x (charge k base ++ [rd]) = (some v, charge (k + n) base ++ [rd]) ∧
      (∀ ref ∈ refs, Resolves base ref) ∧ Paid base refs n ∧ Q v n) ∨
    (x (charge k base ++ [rd]) = (none, charge (k + n) base ++ [rd]) ∧ Fails base refs n)

variable {Q : α → (ℕ → ℕ) → Prop}

theorem Pays.pure {v : α} (h : Q v 0) : Pays base rd [] (pure v) Q := by
  intro k
  refine ⟨0, .inl ⟨v, ?_, by simp, ⟨fun _ => rfl, fun h => absurd rfl h⟩, h⟩⟩
  rw [add_zero]
  rfl

theorem Pays.bind {β : Type} {refs refs' : List Ref} {x : Fix α} {f : α → Fix β}
    {R : β → (ℕ → ℕ) → Prop} (hx : Pays base rd refs x Q)
    (hf : ∀ v n, Q v n → Pays base rd refs' (f v) fun w n' => R w (n + n')) :
    Pays base rd (refs ++ refs') (x >>= f) R := by
  intro k
  obtain ⟨n, ⟨v, heq, hres, hpaid, hQ⟩ | ⟨heq, paid, ref, rest, rfl, hres, hnot, hpaid⟩⟩ := hx k
  · obtain ⟨n', ⟨w, heq', hres', hpaid', hR⟩ |
      ⟨heq', paid, ref, rest, rfl, hres', hnot, hpaid'⟩⟩ := hf v n hQ (k + n)
    · refine ⟨n + n', .inl ⟨w, ?_, ?_, hpaid.append hpaid', hR⟩⟩
      · rw [Fix.bind_apply, heq, ← add_assoc]
        exact heq'
      · exact forall_mem_append.mpr ⟨hres, hres'⟩
    · refine ⟨n + n', .inr ⟨?_, refs ++ paid, ref, rest, by simp, ?_, hnot, hpaid.append hpaid'⟩⟩
      · rw [Fix.bind_apply, heq, ← add_assoc]
        exact heq'
      · exact forall_mem_append.mpr ⟨hres, hres'⟩
  · refine ⟨n, .inr ⟨?_, paid, ref, rest ++ refs', by simp, hres, hnot, hpaid⟩⟩
    rw [Fix.bind_apply, heq]

/-! ## The walks -/

section Walk

variable (hnodup : (base.map RendermapImpl.addr).Nodup) (hrd : rd.addr ∉ base.map RendermapImpl.addr)

include hnodup hrd

theorem fixId_pays (table : Table) (id : UInt32) :
    Pays base rd [(table, id)] (fixId table rd.addr id) fun slot n =>
      objects [slot] = n ∧ Fixed base slot := by
  intro k
  rcases fixLoop_charge hnodup hrd table id k with ⟨hres, map, idx, hmap, heq⟩ | ⟨hres, heq⟩
  · obtain ⟨m, hm, rfl⟩ := mem_map.mp hmap
    refine ⟨Pi.single m.addr 1, .inl ⟨.object m.addr idx, heq, by simpa using hres, ?_, by simp, hmap⟩⟩
    exact ⟨by simp, fun _ => ⟨m, hm, by simp⟩⟩
  · refine ⟨0, .inr ⟨by rw [add_zero]; exact heq, [], (table, id), [], rfl, by simp, hres, ?_⟩⟩
    exact ⟨fun _ => rfl, fun h => absurd rfl h⟩

theorem fixSlots_pays (table : Table) {slots : List Slot}
    (hslots : ∀ slot ∈ slots, ∀ map idx, slot ≠ .object map idx) :
    Pays base rd ((idsOf slots).map (table, ·)) (fixSlots (fixId table rd.addr) slots)
      fun slots' n => objects slots' = n ∧ ∀ slot ∈ slots', Fixed base slot := by
  induction slots with
  | nil => exact Pays.pure ⟨rfl, by simp⟩
  | cons slot slots ih =>
      obtain ⟨hslot, hrest⟩ := forall_mem_cons.mp hslots
      rw [fixSlots]
      cases slot with
      | own idx =>
          simp only [idsOf]
          rw [← append_nil ((idsOf slots).map (table, ·))]
          refine (ih hrest).bind fun slots' n hn => Pays.pure ?_
          exact ⟨by rw [objects_cons, hn.1, objects_own, zero_add, add_zero], forall_mem_cons.mpr ⟨trivial, hn.2⟩⟩
      | referring id =>
          simp only [idsOf, map_append, map_cons, map_nil]
          refine (ih hrest).bind fun slots' n hn => ?_
          rw [← append_nil [(table, id)]]
          refine (fixId_pays hnodup hrd table id).bind fun slot n' hn' => Pays.pure ?_
          refine ⟨?_, forall_mem_cons.mpr ⟨hn'.2, hn.2⟩⟩
          rw [objects_cons, hn.1, hn'.1, add_zero, add_comm]
      | object map idx => exact absurd rfl (hslot map idx)

/-- **The references of a block**. -/
theorem fixBlock_pays {blk : Block} (hblk : ∀ slot ∈ blk.slots, ∀ map idx, slot ≠ .object map idx) :
    Pays base rd blk.references (fixBlock rd.addr blk) fun blk' n =>
      objects blk'.slots = n ∧ (∀ slot ∈ blk'.slots, Fixed base slot) ∧
        ∀ cols, blkid cols blk' = blkid cols blk := by
  simp only [Block.slots, forall_mem_append] at hblk
  obtain ⟨⟨hroad, hlane⟩, hobj⟩ := hblk
  rw [Block.references, ← append_nil (_ ++ _), append_assoc, append_assoc]
  refine (fixSlots_pays hnodup hrd .roadsegs hroad).bind fun roadSegs n hn => ?_
  refine (fixSlots_pays hnodup hrd .lanesecs hlane).bind fun laneSecs n' hn' => ?_
  refine (fixSlots_pays hnodup hrd .roadobjs hobj).bind fun roadObjs n'' hn'' => Pays.pure ?_
  refine ⟨?_, ?_, fun cols => rfl⟩
  · simp only [Block.slots, objects_append, hn.1, hn'.1, hn''.1, add_zero, add_assoc]
  · simp only [Block.slots, forall_mem_append]
    exact ⟨⟨hn.2, hn'.2⟩, hn''.2⟩

/-- **The references of a tile**. -/
theorem fixBlocks_pays {blks : List Block}
    (hblks : ∀ blk ∈ blks, ∀ slot ∈ blk.slots, ∀ map idx, slot ≠ .object map idx) :
    Pays base rd (blks.flatMap Block.references) (fixBlocksUnlocked rd.addr blks) fun blks' n =>
      objects (blks'.flatMap Block.slots) = n ∧
        (∀ blk ∈ blks', ∀ slot ∈ blk.slots, Fixed base slot) ∧
        ∀ cols, blks'.map (blkid cols) = blks.map (blkid cols) := by
  induction blks with
  | nil => exact Pays.pure ⟨rfl, by simp, fun _ => rfl⟩
  | cons blk blks ih =>
      obtain ⟨hblk, hblks⟩ := forall_mem_cons.mp hblks
      rw [fixBlocksUnlocked, flatMap_cons]
      refine (fixBlock_pays hnodup hrd hblk).bind fun blk' n hn => ?_
      rw [← append_nil (blks.flatMap Block.references)]
      refine (ih hblks).bind fun blks' n' hn' => Pays.pure ?_
      refine ⟨?_, forall_mem_cons.mpr ⟨hn.2.1, hn'.2.1⟩, fun cols => ?_⟩
      · rw [flatMap_cons, objects_append, hn.1, hn'.1, add_zero]
      · rw [map_cons, map_cons, hn.2.2 cols, hn'.2.2 cols]

end Walk

end Fix

end V2I.TileCache
