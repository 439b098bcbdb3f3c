import V2I.Lib.MapM
import V2I.MapCore.TileMesh

/-!
# V2I.MapCore.TileMesh.Draw

What drawing a block does: the block joins all of its objects, and the mesh has those that
it then owns, when each of them finds its road and no two of them have one key.
-/

namespace V2I.TileMesh

open TileCache List

/-- An object that a block draws or leaves to its owner: it has one block more, and the block
is the owner when there was none. -/
def Extinfo.attach (e : Extinfo) (blkid : UInt32) : Extinfo :=
  { e.addReferredBlockid blkid with
    meshgenBlockid := if e.meshgenBlockid < 0 then blkid.toNat else e.meshgenBlockid }

/-- The block draws the object. -/
def Takes (blkid : UInt32) (e : Extinfo) : Prop :=
  e.meshgenBlockid < 0 ∨ e.meshgenBlockid = blkid.toNat

instance {blkid : UInt32} : DecidablePred (Takes blkid) := fun _ =>
  inferInstanceAs (Decidable (_ ∨ _))

variable {blkid : UInt32}

theorem mem_keys_insert {κ α : Type} [DecidableEq κ] {m : StdMap κ α} {k k' : κ} {v : α} :
    k' ∈ (m.insert k v).keys ↔ k' = k ∨ k' ∈ m.keys := by
  by_cases hk : k ∈ m.keys
  · rw [StdMap.insert_of_mem hk]
    grind
  · rw [StdMap.keys, StdMap.entries_insert hk, map_append, mem_append, StdMap.keys]
    simp [or_comm]

theorem mem_refs_attach {e : Extinfo} {id : UInt32} :
    id ∈ (e.attach blkid).refs ↔ id = blkid ∨ id ∈ e.refs := by
  obtain ⟨owner, refs⟩ := e
  cases refs with
  | none =>
      have hempty : (StdMap.empty : StdMap UInt32 Unit).keys = [] := rfl
      simp [Extinfo.attach, Extinfo.addReferredBlockid, Extinfo.refs, mem_keys_insert, hempty]
  | some refs => simp [Extinfo.attach, Extinfo.addReferredBlockid, Extinfo.refs, mem_keys_insert]

theorem owner_attach (e : Extinfo) : (e.attach blkid).meshgenBlockid =
    if e.meshgenBlockid < 0 then (blkid.toNat : ℤ) else e.meshgenBlockid := rfl

theorem takes_attach_iff {e : Extinfo} : Takes blkid (e.attach blkid) ↔ Takes blkid e := by
  rw [Takes, Takes, owner_attach]
  split_ifs with h
  · simp [h]
  · simp

theorem attach_attach (e : Extinfo) : (e.attach blkid).attach blkid = e.attach blkid := by
  have hrefs : ∀ m : StdMap UInt32 Unit, (m.insert blkid ()).insert blkid () = m.insert blkid () :=
    fun m => StdMap.insert_of_mem (mem_keys_insert.mpr (.inl rfl)) ()
  simp only [Extinfo.attach, Extinfo.addReferredBlockid, Option.getD_some, hrefs]
  grind

/-- Two objects that a road cannot hold both. -/
def Clash (data : Obj → ObjData) (o o' : Obj) : Prop :=
  o.kind = o'.kind ∧ (data o).roadid = (data o').roadid ∧ (data o).key = (data o').key

instance {data : Obj → ObjData} : DecidableRel (Clash data) := fun _ _ =>
  inferInstanceAs (Decidable (_ ∧ _))

variable {data : Obj → ObjData}

/-- Nothing else comes into the mesh. -/
theorem mem_insertObject {odrm : Mesh} {o o' : Obj} :
    o' ∈ insertObject data odrm o → o' ∈ odrm ∨ o' = o := by
  unfold insertObject
  split_ifs
  · exact .inl
  · simp

theorem subset_insertObject {odrm : Mesh} {o o' : Obj} (h : o' ∈ odrm) :
    o' ∈ insertObject data odrm o := by
  unfold insertObject
  split_ifs
  · exact h
  · exact mem_append_left _ h

/-- An object with data comes in, or one with its key is there. -/
theorem insertObject_self (odrm : Mesh) {o : Obj} (h : (data o).key ≠ none) :
    ∃ o' ∈ insertObject data odrm o, Clash data o' o := by
  unfold insertObject
  split_ifs with hkey
  · obtain ⟨o', ho', hclash⟩ := hkey.resolve_left h
    exact ⟨o', ho', hclash⟩
  · exact ⟨o, by simp, rfl, rfl, rfl⟩

section Deserialize

variable {data : Obj → ObjData} {roads : List UInt32} {cur : Int32}

/-- A loop that finds all of its roads. -/
structure Deserialized (data : Obj → ObjData) (blkid : UInt32) (os : List Obj)
    (ext ext' : Obj → Extinfo) (odrm odrm' : Mesh) : Prop where
  joined : ∀ o, ext' o = if o ∈ os then (ext o).attach blkid else ext o
  only : ∀ o ∈ odrm', o ∈ odrm ∨ (o ∈ os ∧ Takes blkid (ext o))
  old : ∀ o ∈ odrm, o ∈ odrm'
  drawn : ∀ o ∈ os, Takes blkid (ext o) → (data o).key ≠ none → ∃ o' ∈ odrm', Clash data o' o

/-- **The loop**. -/
theorem deserialize_spec (hcur : cur.toInt = blkid.toNat) (hid : cur.toUInt32 = blkid)
    (os : List Obj) (ext : Obj → Extinfo) (odrm : Mesh)
    (hroads : ∀ o ∈ os, Takes blkid (ext o) → (find roads (data o).roadid).isSome) :
    ∃ ext' odrm', deserialize data roads cur os ext odrm = (ext', some odrm') ∧
      Deserialized data blkid os ext ext' odrm odrm' := by
  induction os generalizing ext odrm with
  | nil => exact ⟨ext, odrm, rfl, by simp, fun o ho => .inl ho, fun o ho => ho, by simp⟩
  | cons o os ih =>
      -- each branch is one of these two, with the object joined
      have hstep : deserialize data roads cur (o :: os) ext odrm =
          deserialize data roads cur os (Function.update ext o ((ext o).attach blkid))
            (if Takes blkid (ext o) then insertObject data odrm o else odrm) := by
        have hfind := hroads o mem_cons_self
        rcases hext : ext o with ⟨owner, refs⟩
        rw [hext] at hfind
        simp only [deserialize, hext, hid, hcur, Extinfo.attach]
        by_cases hneg : owner < 0
        · obtain ⟨i, hi⟩ := Option.isSome_iff_exists.mp (hfind (.inl hneg))
          simp [hneg, hi, Takes]
        · by_cases hown : owner = blkid.toNat
          · obtain ⟨i, hi⟩ := Option.isSome_iff_exists.mp (hfind (.inr hown))
            simp [hown, hi, Takes, Extinfo.addReferredBlockid]
          · simp [hneg, hown, Takes, Extinfo.addReferredBlockid]
      rw [hstep]
      generalize hext₁ : Function.update ext o ((ext o).attach blkid) = ext₁
      generalize hodrm₁ : (if Takes blkid (ext o) then insertObject data odrm o else odrm) = odrm₁
      have hself : ext₁ o = (ext o).attach blkid := by rw [← hext₁, Function.update_self]
      have hother : ∀ o', o' ≠ o → ext₁ o' = ext o' := fun o' hne => by
        rw [← hext₁, Function.update_of_ne hne]
      have htakes : ∀ o', Takes blkid (ext₁ o') ↔ Takes blkid (ext o') := by
        intro o'
        by_cases heq : o' = o
        · rw [heq, hself, takes_attach_iff]
        · rw [hother o' heq]
      obtain ⟨ext', odrm', heq, hjoined, honly, hold, hdrawn⟩ := ih ext₁ odrm₁ fun o' ho' ht =>
        hroads o' (mem_cons_of_mem _ ho') ((htakes o').mp ht)
      have hodrm : ∀ o' ∈ odrm, o' ∈ odrm₁ := by
        intro o' ho'
        rw [← hodrm₁]
        split_ifs
        · exact subset_insertObject ho'
        · exact ho'
      refine ⟨ext', odrm', heq, fun o' => ?_, fun o' ho' => ?_,
        fun o' ho' => hold o' (hodrm o' ho'), fun o' ho' ht hkey => ?_⟩
      · rw [hjoined]
        by_cases hoo : o' = o
        · subst hoo
          simp [hself, attach_attach]
        · simp [hoo, hother o' hoo]
      · rcases honly o' ho' with hmem | ⟨hmem, ht⟩
        · rw [← hodrm₁] at hmem
          split_ifs at hmem with htake
          · rcases mem_insertObject hmem with hmem | rfl
            · exact .inl hmem
            · exact .inr ⟨mem_cons_self, htake⟩
          · exact .inl hmem
        · exact .inr ⟨mem_cons_of_mem _ hmem, (htakes o').mp ht⟩
      · rcases mem_cons.mp ho' with rfl | ho'
        · obtain ⟨o₁, ho₁, hclash⟩ := insertObject_self odrm hkey
          rw [if_pos ht] at hodrm₁
          exact ⟨o₁, hold o₁ (hodrm₁ ▸ ho₁), hclash⟩
        · exact hdrawn o' ho' ((htakes o').mpr ht) hkey

end Deserialize

/-- The objects of a block of the tile at `own`. -/
def blockObjects (own : ℕ) (blk : Block) : List Obj :=
  blk.laneSecs.filterMap (objOf own .laneSec) ++ blk.roadObjs.filterMap (objOf own .roadObj)

/-- The objects of a block whose pointers all lead somewhere. -/
theorem objects_append {own : ℕ} {blk : Block} {lanesecs roadobjs : List Obj}
    (hlane : objects own blk .laneSec = some lanesecs)
    (hobj : objects own blk .roadObj = some roadobjs) :
    lanesecs ++ roadobjs = blockObjects own blk := by
  rw [mapM_eq_some_filterMap hlane, mapM_eq_some_filterMap hobj]
  rfl

/-- An id below 2^31 is the same signed and unsigned. -/
theorem toInt_of_toUInt32 {cur : Int32} (hid : cur.toUInt32 = blkid) (h : blkid < 0x80000000) :
    cur.toInt = blkid.toNat := by
  subst hid
  have hlt : cur.toBitVec.toNat < 2 ^ 31 := UInt32.lt_iff_toNat_lt.mp h
  rw [Int32.toInt, BitVec.toInt_eq_toNat_of_lt (by omega)]
  rfl

/-- **Drawing a block** from objects that all find their roads. -/
theorem deserializeBlock_spec {roads : List UInt32} {cur : Int32} (hcur : cur.toInt = blkid.toNat)
    (hid : cur.toUInt32 = blkid) (lanesecs roadobjs : List Obj) (ext : Obj → Extinfo)
    (hlane : ∀ o ∈ lanesecs, (data o).unclassified = false)
    (hroads : ∀ o ∈ lanesecs ++ roadobjs, (data o).unclassified = false → Takes blkid (ext o) →
      (find roads (data o).roadid).isSome) :
    ∃ ext₁ odrm₁ ext₂ odrm₂,
      deserializeBlockLanesecs data roads cur lanesecs ext [] = (ext₁, some odrm₁) ∧
      deserializeBlockRoadobjs data roads cur roadobjs ext₁ odrm₁ = (ext₂, some odrm₂) ∧
      Deserialized data blkid ((lanesecs ++ roadobjs).filter fun o => !(data o).unclassified) ext ext₂
        [] odrm₂ := by
  obtain ⟨ext₁, odrm₁, heq₁, hjoined₁, honly₁, hold₁, hdrawn₁⟩ :=
    deserialize_spec hcur hid lanesecs ext [] fun o ho =>
      hroads o (mem_append_left _ ho) (hlane o ho)
  have htakes : ∀ o, Takes blkid (ext₁ o) ↔ Takes blkid (ext o) := by
    intro o
    rw [hjoined₁]
    split_ifs
    · exact takes_attach_iff
    · rfl
  obtain ⟨ext₂, odrm₂, heq₂, hjoined₂, honly₂, hold₂, hdrawn₂⟩ :=
    deserialize_spec hcur hid (roadobjs.filter fun o => !(data o).unclassified) ext₁ odrm₁
      fun o ho ht => by
        obtain ⟨hmem, hclass⟩ := mem_filter.mp ho
        exact hroads o (mem_append_right _ hmem) (by simpa using hclass) ((htakes o).mp ht)
  have hfilter : (lanesecs ++ roadobjs).filter (fun o => !(data o).unclassified) =
      lanesecs ++ roadobjs.filter fun o => !(data o).unclassified := by
    rw [filter_append, filter_eq_self.mpr (by simpa using hlane)]
  refine ⟨ext₁, odrm₁, ext₂, odrm₂, heq₁, heq₂, ?_⟩
  rw [hfilter]
  refine ⟨fun o => ?_, fun o ho => ?_, by simp, fun o ho ht hkey => ?_⟩
  · rw [hjoined₂, hjoined₁]
    by_cases h₁ : o ∈ lanesecs
    · simp [h₁, attach_attach]
    · simp [h₁]
  · rcases honly₂ o ho with hmem | ⟨hmem, ht⟩
    · obtain hnil | ⟨hmem, ht⟩ := honly₁ o hmem
      · cases hnil
      · exact .inr ⟨mem_append_left _ hmem, ht⟩
    · exact .inr ⟨mem_append_right _ hmem, (htakes o).mp ht⟩
  · rcases mem_append.mp ho with hmem | hmem
    · obtain ⟨o', ho', hclash⟩ := hdrawn₁ o hmem ht hkey
      exact ⟨o', hold₂ o' ho', hclash⟩
    · exact hdrawn₂ o hmem ((htakes o).mpr ht) hkey

end V2I.TileMesh
