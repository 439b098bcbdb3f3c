import V2I.MapCore.TileMesh

/-!
# V2I.MapCore.TileMesh.Entrust

What `entrust_mesh_unlocked` does: the block leaves all of its objects, and of the blocks
that still refer to an object it has owned, the last is put on the list.

`Merged` is the invariant of the walk over the objects. It names the shared objects in the
order of their bits, and says which blocks `refmap` has: those that refer to one of them.
-/

namespace V2I.TileMesh

open TileCache List StdMap

/-! ## Maps in order -/

section InOrder

variable {κ α : Type} [DecidableEq κ] [LE κ] [DecidableLE κ]

omit [DecidableEq κ] in
theorem mem_inOrder {m : StdMap κ α} {e : κ × α} : e ∈ inOrder m ↔ e ∈ m.entries :=
  mem_insertionSort _

omit [DecidableEq κ] in
theorem perm_keys_inOrder (m : StdMap κ α) : ((inOrder m).map Prod.fst).Perm m.keys :=
  (perm_insertionSort _ _).map _

omit [DecidableEq κ] in
theorem pairwise_inOrder (htotal : ∀ a b : κ, a ≤ b ∨ b ≤ a)
    (htrans : ∀ a b c : κ, a ≤ b → b ≤ c → a ≤ c) (m : StdMap κ α) : (inOrder m).Pairwise fun e e' => e.1 ≤ e'.1 := by
  have : Std.Total fun e e' : κ × α => e.1 ≤ e'.1 := ⟨fun e e' => htotal e.1 e'.1⟩
  have : IsTrans (κ × α) fun e e' => e.1 ≤ e'.1 := ⟨fun e e' e'' => htrans e.1 e'.1 e''.1⟩
  exact pairwise_insertionSort _ _

end InOrder

/-! ## Leaving an object -/

/-- An object that the block leaves: it has one block less, and no owner if the block was. -/
def Extinfo.detach (e : Extinfo) (blkid : UInt32) : Extinfo :=
  match e.referredBlkids with
  | none => e
  | some refs =>
      ⟨if e.meshgenBlockid = blkid.toNat then -1 else e.meshgenBlockid, some (refs.erase blkid)⟩

variable {blkid : UInt32}

theorem mem_refs_detach {e : Extinfo} {id : UInt32} :
    id ∈ (e.detach blkid).refs ↔ id ∈ e.refs ∧ id ≠ blkid := by
  unfold Extinfo.detach Extinfo.refs
  split
  · next hrefs => simp [hrefs]
  · next refs hrefs => simp [hrefs, mem_keys_erase]

theorem detach_detach (e : Extinfo) : (e.detach blkid).detach blkid = e.detach blkid := by
  obtain ⟨owner, refs⟩ := e
  cases refs with
  | none => rfl
  | some refs =>
      have herase : (refs.erase blkid).erase blkid = refs.erase blkid :=
        ext_entries (by simp [StdMap.erase])
      have howner : (if owner = (blkid.toNat : ℤ) then -1 else owner) ≠ blkid.toNat := by
        split_ifs with h
        · omega
        · exact h
      simp [Extinfo.detach, herase, howner]

/-- The owner leaves. -/
theorem owner_detach {e : Extinfo} (h : e.meshgenBlockid = blkid.toNat → blkid ∈ e.refs) :
    (e.detach blkid).meshgenBlockid =
      if e.meshgenBlockid = blkid.toNat then -1 else e.meshgenBlockid := by
  obtain ⟨owner, refs⟩ := e
  cases refs with
  | none =>
      have hne : owner ≠ blkid.toNat := fun heq => by simpa [Extinfo.refs] using h heq
      simp [Extinfo.detach, hne]
  | some refs => rfl

/-! ## Marking the blocks of an object -/

/-- The entry of a block after one more object. -/
def markedRef (total : ℕ) (index : ℤ) (id : UInt32) : Option RefBitmap → RefBitmap
  | none => ⟨id, 1, (Bitmap.zeros total).setbit index.toNat⟩
  | some ref => { ref with bmp := ref.bmp.setbit index.toNat, refcnt := ref.refcnt + 1 }

theorem find_markRef (total : ℕ) (index : ℤ) (refmap : StdMap UInt32 RefBitmap) (id k : UInt32) :
    (markRef total index refmap id).find k =
      if k = id then some (markedRef total index id (refmap.find id)) else refmap.find k := by
  unfold markRef
  cases hfind : refmap.find id with
  | none =>
      simp only [markedRef]
      split_ifs with hk
      · subst hk
        rw [find_eq_some_iff, entries_insert (find_eq_none_iff.mp hfind)]
        simp
      · exact find_insert_of_ne hk _
  | some ref =>
      simp only [find_modify, markedRef]
      split_ifs with hk
      · subst hk
        rw [hfind]
        rfl
      · rfl

/-- An object that other blocks refer to: each of them is marked once. -/
theorem mergeRefs_spec (blkid : UInt32) (total : ℕ) {size : ℕ} (hsize : size ≠ 1) {ids : List UInt32}
    (hnodup : ids.Nodup) (refmap : StdMap UInt32 RefBitmap) (index : ℤ) :
    (mergeRefs blkid total size ids (refmap, index)).2 = index ∧
      ∀ k, (mergeRefs blkid total size ids (refmap, index)).1.find k =
        if k ∈ ids ∧ k ≠ blkid then some (markedRef total index k (refmap.find k))
        else refmap.find k := by
  induction ids generalizing refmap with
  | nil => exact ⟨rfl, fun k => by simp [mergeRefs]⟩
  | cons id ids ih =>
      obtain ⟨hid, hnodup⟩ := nodup_cons.mp hnodup
      by_cases hblk : id = blkid
      · simp only [mergeRefs, if_pos hblk, if_neg hsize]
        refine ⟨(ih hnodup refmap).1, fun k => ?_⟩
        have hiff : k ∈ id :: ids ∧ k ≠ blkid ↔ k ∈ ids ∧ k ≠ blkid := by
          simp only [mem_cons, hblk]
          grind
        simp only [hiff]
        exact (ih hnodup refmap).2 k
      · simp only [mergeRefs, if_neg hblk]
        obtain ⟨hindex, hfind⟩ := ih hnodup (markRef total index refmap id)
        refine ⟨hindex, fun k => ?_⟩
        rw [hfind, find_markRef]
        by_cases hk : k = id
        · subst hk
          simp [hid, hblk]
        · simp [hk]

/-- An object that no other block refers to takes no bit. -/
theorem mergeRefs_singleton (total : ℕ) (refmap : StdMap UInt32 RefBitmap) (index : ℤ) :
    mergeRefs blkid total 1 [blkid] (refmap, index) = (refmap, index - 1) := by
  simp [mergeRefs]

/-! ## The walk -/

/-- An object of the block that other blocks refer to. -/
def Shared (blkid : UInt32) (e : Extinfo) : Prop :=
  e.meshgenBlockid = blkid.toNat ∧ ∃ id ∈ e.refs, id ≠ blkid

/-- The invariant of the walk: `done` are the objects so far, and `os` are the shared ones
among them, in the order of their bits. -/
structure Merged (blkid : UInt32) (ext : Obj → Extinfo) (done os : List Obj)
    (m : Merge) : Prop where
  left : ∀ o, m.ext o = if o ∈ done then (ext o).detach blkid else ext o
  nodup : os.Nodup
  shared : ∀ o, o ∈ os ↔ o ∈ done ∧ Shared blkid (ext o)
  index : m.index = os.length
  found : ∀ id, (m.refmap.find id).isSome ↔ id ≠ blkid ∧ ∃ o ∈ os, id ∈ (ext o).refs
  ref : ∀ id r, m.refmap.find id = some r → r.id = id

section Walk

variable {total : ℕ} {ext : Obj → Extinfo} {done os : List Obj} {m : Merge}

/-- Only the objects change. -/
theorem Merged.skip (h : Merged blkid ext done os m) {o : Obj}
    (ho : o ∈ done ∨ ¬ Shared blkid (ext o)) {ext' : Obj → Extinfo} {index : ℤ}
    (hindex : index = m.index) (hext' : ext' = Function.update m.ext o ((ext o).detach blkid)) :
    Merged blkid ext (done ++ [o]) os ⟨ext', m.refmap, index⟩ where
  left o' := by
    subst hext'
    by_cases heq : o' = o
    · subst heq
      simp
    · simp [heq, h.left o']
  nodup := h.nodup
  shared o' := by
    rw [h.shared, mem_append, mem_singleton]
    grind
  index := hindex.trans h.index
  found := h.found
  ref := h.ref

/-- A shared object takes the next bit. -/
theorem Merged.mark (h : Merged blkid ext done os m) {o : Obj} (hdone : o ∉ done)
    (hshared : Shared blkid (ext o)) {refmap : StdMap UInt32 RefBitmap}
    (hfind : ∀ k, refmap.find k = if k ∈ (ext o).refs ∧ k ≠ blkid then
      some (markedRef total m.index k (m.refmap.find k)) else m.refmap.find k) :
    Merged blkid ext (done ++ [o]) (os ++ [o])
      ⟨Function.update m.ext o ((ext o).detach blkid), refmap, m.index + 1⟩ := by
  have hos : o ∉ os := fun ho => hdone ((h.shared o).mp ho).1
  refine ⟨fun o' => ?_, ?_, fun o' => ?_, ?_, fun id => ?_, fun id r hr => ?_⟩
  · by_cases heq : o' = o
    · subst heq
      simp
    · simp [heq, h.left o']
  · exact h.nodup.append (by simp) (by simpa using hos)
  · rw [mem_append, mem_append, h.shared, mem_singleton]
    grind
  · simp [h.index]
  · have hfound := h.found id
    rw [hfind]
    split_ifs with hid
    · simp only [Option.isSome_some, true_iff]
      exact ⟨hid.2, o, by simp, hid.1⟩
    · rw [hfound]
      simp only [mem_append, mem_singleton]
      grind
  · rw [hfind] at hr
    split_ifs at hr with hid
    · cases hr
      cases hold : m.refmap.find id with
      | none => rfl
      | some r => exact h.ref id r hold
    · exact h.ref id r hr

/-- **One object**. -/
theorem mergeObject_spec (h : Merged blkid ext done os m)
    (howner : ∀ o, (ext o).meshgenBlockid = blkid.toNat → blkid ∈ (ext o).refs) (o : Obj) :
    ∃ os', Merged blkid ext (done ++ [o]) os' (mergeObject blkid total m o) := by
  have hdetach : m.ext o = ext o ∨ (o ∈ done ∧ m.ext o = (ext o).detach blkid) := by
    rw [h.left]
    split_ifs with ho
    · exact .inr ⟨ho, rfl⟩
    · exact .inl rfl
  -- a block leaves an object that it has left already as it is
  have hagain : (m.ext o).detach blkid = (ext o).detach blkid := by
    rcases hdetach with heq | ⟨-, heq⟩
    · rw [heq]
    · rw [heq, detach_detach]
  unfold mergeObject
  cases hrefs : (m.ext o).referredBlkids with
  | none =>
      have hsame : m.ext o = (ext o).detach blkid := by
        rw [← hagain, Extinfo.detach, hrefs]
      have hnot : o ∈ done ∨ ¬ Shared blkid (ext o) := by
        rcases hdetach with heq | ⟨ho, -⟩
        · refine .inr ?_
          rintro ⟨-, id, hid, -⟩
          simp [← heq, Extinfo.refs, hrefs] at hid
        · exact .inl ho
      exact ⟨os, h.skip hnot rfl (by rw [← hsame, Function.update_eq_self])⟩
  | some refs =>
      simp only
      have hdet : (m.ext o).detach blkid =
          ⟨if (m.ext o).meshgenBlockid = blkid.toNat then -1 else (m.ext o).meshgenBlockid,
            some (refs.erase blkid)⟩ := by rw [Extinfo.detach, hrefs]
      by_cases hown : (m.ext o).meshgenBlockid = blkid.toNat
      · rw [if_neg (by simpa using hown)]
        rw [if_pos hown] at hdet
        -- the object is seen for the first time
        have hfirst : o ∉ done ∧ m.ext o = ext o := by
          have hne : ((ext o).detach blkid).meshgenBlockid ≠ blkid.toNat := by
            rw [owner_detach (howner o)]
            split_ifs with hcase
            · omega
            · exact hcase
          rcases hdetach with heq | ⟨-, heq⟩
          · refine ⟨fun ho => hne ?_, heq⟩
            rw [← hown, h.left, if_pos ho]
          · exact absurd (heq ▸ hown) hne
        have hkeys : (ext o).refs = refs.keys := by
          rw [← hfirst.2, Extinfo.refs, hrefs]
          rfl
        have hperm := perm_keys_inOrder refs
        have hnodup : ((inOrder refs).map Prod.fst).Nodup := hperm.nodup_iff.mpr refs.nodup
        have hmem : blkid ∈ refs.keys := hkeys ▸ howner o (hfirst.2 ▸ hown)
        by_cases hsize : refs.keys.length = 1
        · have hsingle : refs.keys = [blkid] := by
            obtain ⟨id, hid⟩ := length_eq_one_iff.mp hsize
            rw [hid, mem_singleton] at hmem
            rw [hid, hmem]
          have horder : (inOrder refs).map Prod.fst = [blkid] :=
            perm_singleton.mp (hsingle ▸ hperm)
          rw [hsize, horder, mergeRefs_singleton]
          refine ⟨os, h.skip (.inr ?_) (by omega) (by rw [← hagain, hdet])⟩
          rintro ⟨-, id, hid, hne⟩
          rw [hkeys, hsingle, mem_singleton] at hid
          exact hne hid
        · obtain ⟨hindex, hfind⟩ := mergeRefs_spec blkid total hsize hnodup m.refmap m.index
          have hshared : Shared blkid (ext o) := by
            refine ⟨hfirst.2 ▸ hown, ?_⟩
            by_contra hall
            push Not at hall
            refine hsize (length_eq_one_iff.mpr ⟨blkid, ?_⟩)
            refine perm_singleton.mp ((perm_ext_iff_of_nodup refs.nodup (by simp)).mpr ?_)
            intro id
            rw [mem_singleton]
            exact ⟨fun hid => hall id (hkeys ▸ hid), fun heq => heq ▸ hmem⟩
          rcases hres : mergeRefs blkid total refs.keys.length ((inOrder refs).map Prod.fst)
            (m.refmap, m.index) with ⟨refmap, index⟩
          rw [hres] at hindex hfind
          obtain rfl : index = m.index := hindex
          have hmarked : ∀ k, refmap.find k = if k ∈ (ext o).refs ∧ k ≠ blkid then
              some (markedRef total m.index k (m.refmap.find k)) else m.refmap.find k := by
            intro k
            rw [hfind, hkeys]
            simp only [hperm.mem_iff]
          have hmark := h.mark hfirst.1 hshared hmarked
          rw [← hagain, hdet] at hmark
          exact ⟨os ++ [o], hmark⟩
      · rw [if_pos hown]
        rw [if_neg hown] at hdet
        have hnot : o ∈ done ∨ ¬ Shared blkid (ext o) := by
          rcases hdetach with heq | ⟨ho, -⟩
          · exact .inr fun hsh => hown (heq ▸ hsh.1)
          · exact .inl ho
        exact ⟨os, h.skip hnot rfl (by rw [← hagain, hdet])⟩

/-- **A table of objects**. -/
theorem mergeBlockObjects_spec (h : Merged blkid ext done os m)
    (howner : ∀ o, (ext o).meshgenBlockid = blkid.toNat → blkid ∈ (ext o).refs) (tbl : List Obj) :
    ∃ os', Merged blkid ext (done ++ tbl) os' (mergeBlockObjectsUnlocked blkid total tbl m) := by
  induction tbl generalizing done os m with
  | nil => exact ⟨os, by rwa [append_nil]⟩
  | cons o tbl ih =>
      obtain ⟨os₁, h₁⟩ := mergeObject_spec h howner o
      rw [append_cons]
      exact ih h₁

end Walk

/-! ## The choice of the blocks -/

/-- No block behind this one refers to an object that the block has drawn. -/
def LastSharing (blkid : UInt32) (ext : Obj → Extinfo) (os : List Obj) (id : UInt32) : Prop :=
  ∀ o ∈ os, (ext o).meshgenBlockid = blkid.toNat → ∀ id' ∈ (ext o).refs, id' ≠ blkid → id' ≤ id

-- not by trying all numbers
local instance (priority := 2000) decidableForallRefs {p : UInt32 → Prop} [DecidablePred p]
    (ids : List UInt32) : Decidable (∀ id ∈ ids, p id) := List.decidableBAll p ids

instance {blkid : UInt32} {ext : Obj → Extinfo} {os : List Obj} :
    DecidablePred (LastSharing blkid ext os) := fun _ =>
  inferInstanceAs (Decidable (∀ o ∈ os, _))

/-- `refset` is the block that no other one is behind. -/
theorem refsetOf_eq {refmap : StdMap UInt32 RefBitmap} {id : UInt32} {r : RefBitmap}
    (hr : refmap.find id = some r) (hlast : ∀ id' r', refmap.find id' = some r' → id' ≤ id) :
    refsetOf refmap = [r] := by
  have hmem : (id, r) ∈ inOrder refmap := mem_inOrder.mpr (find_eq_some_iff.mp hr)
  have hsorted := pairwise_inOrder UInt32.le_total (fun _ _ _ => UInt32.le_trans) refmap
  rcases eq_nil_or_concat (inOrder refmap) with hnil | ⟨front, ⟨id', r'⟩, hsplit⟩
  · rw [hnil] at hmem
    cases hmem
  rw [concat_eq_append] at hsplit
  have hr' : refmap.find id' = some r' := by
    rw [find_eq_some_iff, ← mem_inOrder, hsplit]
    simp
  have hle : id ≤ id' := by
    rw [hsplit, mem_append, mem_singleton] at hmem
    rw [hsplit, pairwise_append] at hsorted
    rcases hmem with hmem | heq
    · exact hsorted.2.2 _ hmem _ (mem_singleton_self _)
    · exact UInt32.le_of_eq (congrArg Prod.fst heq)
  obtain rfl : id = id' := UInt32.le_antisymm hle (hlast id' r' hr')
  obtain rfl : r = r' := Option.some_inj.mp (hr.symm.trans hr')
  simp [refsetOf, hsplit]

/-- **Handing over**: the block leaves its objects, and the last block that refers to a shared one
is on the list. -/
theorem entrustMesh_spec (ext : Obj → Extinfo)
    (howner : ∀ o, (ext o).meshgenBlockid = blkid.toNat → blkid ∈ (ext o).refs)
    (lanesecs roadobjs : List Obj) :
    (∀ o, (entrustMeshUnlocked blkid lanesecs roadobjs ext).1 o =
      if o ∈ lanesecs ++ roadobjs then (ext o).detach blkid else ext o) ∧
    ∀ o ∈ lanesecs ++ roadobjs, (ext o).meshgenBlockid = blkid.toNat →
      ∀ id ∈ (ext o).refs, id ≠ blkid → LastSharing blkid ext (lanesecs ++ roadobjs) id →
        id ∈ (entrustMeshUnlocked blkid lanesecs roadobjs ext).2 := by
  unfold entrustMeshUnlocked
  extract_lets n total m₁ m₂
  split_ifs with hn hzero
  · have hnil : lanesecs ++ roadobjs = [] := by
      refine length_eq_zero_iff.mp ?_
      rw [length_append]
      exact hn
    simp [hnil]
  all_goals
    have hstart : Merged blkid ext [] [] ⟨ext, .empty, 0⟩ :=
      ⟨by simp, nodup_nil, by simp, rfl, by simp, by simp⟩
    obtain ⟨os₁, h₁⟩ := mergeBlockObjects_spec hstart howner lanesecs
    obtain ⟨os, h⟩ := mergeBlockObjects_spec h₁ howner roadobjs
    rw [nil_append] at h
    change Merged blkid ext (lanesecs ++ roadobjs) os m₂ at h
    refine ⟨h.left, fun o ho hown id hid hne hlast => ?_⟩
    have hos : o ∈ os := (h.shared o).mpr ⟨ho, hown, id, hid, hne⟩
  · have hlen : os.length = 0 := by
      have hindex := h.index
      omega
    simp [length_eq_zero_iff.mp hlen] at hos
  · obtain ⟨r, hr⟩ := Option.isSome_iff_exists.mp ((h.found id).mpr ⟨hne, o, hos, hid⟩)
    have hset : refsetOf m₂.refmap = [r] := by
      refine refsetOf_eq hr fun id' r' hr' => ?_
      obtain ⟨hne', o', ho', hid'⟩ := (h.found id').mp (by rw [hr']; rfl)
      obtain ⟨hmem', hown', -⟩ := (h.shared o').mp ho'
      exact hlast o' hmem' hown' id' hid' hne'
    simp [hset, fillPending, h.ref id r hr]

end V2I.TileMesh
