import Mathlib.Data.List.Nodup
import V2I.OsmParser.OsmMap

/-!
# V2I.OsmParser.OsmMap.References

The references between ways and nodes after `finalize_highway`: an entry that has become a node
has its reference, and there are no others. Each step of `associate_node` keeps this (`Refs`), and
what becomes of the node set of a way is given by `Associated`.
-/

namespace V2I.OsmParser.OsmMap

open List Option Function

/-- The references are those of the entries that are nodes. -/
structure Refs (s : OsmMap) : Prop where
  object : ∀ n r, r ∈ s.wayrefList n → s.wayref r = some ⟨r.1, r.2⟩
  entry : ∀ n w i, (w, i) ∈ s.wayrefList n ↔
    ∃ way, s.way w = some way ∧ way.nodeSet[i]? = some (.node n)
  once : ∀ n, (s.wayrefList n).Nodup
  listed : ∀ n, s.wayrefList n ≠ [] → n ∈ s.highwayNodeList
  inTree : ∀ w way n, s.way w = some way → .node n ∈ way.nodeSet → n ∈ s.nodeTree

/-- An entry is still an id. -/
def IsId (e : NodeRef) : Prop := ∃ nid, e = .id nid

theorem refs_append (nodes : List NodeId) (highways : List Highway) :
    Refs (append nodes highways) := by
  have hids : ∀ w way n, (append nodes highways).way w = some way → .node n ∉ way.nodeSet := by
    intro w way n hway hmem
    obtain ⟨h, -, rfl⟩ := map_eq_some_iff.mp hway
    obtain ⟨nid, -, heq⟩ := mem_map.mp hmem
    cases heq
  refine ⟨fun n r hr => (not_mem_nil hr).elim, fun n w i => ?_, fun n => nodup_nil,
    fun n hn => absurd rfl hn, fun w way n hway hmem => absurd hmem (hids w way n hway)⟩
  refine ⟨fun hr => (not_mem_nil hr).elim, ?_⟩
  rintro ⟨way, hway, hi⟩
  exact absurd (mem_of_getElem? hi) (hids w way n hway)

section Entry

variable {s : OsmMap} {w : WayPtr} {way : OsmWay} {i : ℕ} {nid : NodeId}

/-- A new reference is of a position that had none. -/
theorem Refs.addWayref (h : Refs s) (hway : s.way w = some way)
    (hi : way.nodeSet[i]? = some (.id nid)) (hnid : nid ∈ s.nodeTree) :
    Refs (s.addWayref w way i nid) := by
  have hnew : ∀ n, (w, i) ∉ s.wayrefList n := by
    intro n hmem
    obtain ⟨way', hway', hi'⟩ := (h.entry n w i).mp hmem
    rw [hway, some_inj] at hway'
    rw [← hway', hi] at hi'
    cases hi'
  obtain ⟨hlength, hid⟩ := List.getElem?_eq_some_iff.mp hi
  have hmem : ∀ n r, r ∈ (s.addWayref w way i nid).wayrefList n ↔
      r ∈ s.wayrefList n ∨ n = nid ∧ r = (w, i) := by
    intro n r
    simp only [OsmMap.addWayref, update_apply]
    split_ifs with heq
    · simp [heq]
    · simp [heq]
  refine ⟨?_, ?_, ?_, ?_, ?_⟩
  · intro n r hr
    simp only [OsmMap.addWayref, update_apply]
    rcases (hmem n r).mp hr with hr | ⟨-, rfl⟩
    · rw [if_neg fun heq : r = (w, i) => hnew n (heq ▸ hr), h.object n r hr]
    · rw [if_pos rfl]
  · intro n w' i'
    rw [hmem, h.entry]
    simp only [OsmMap.addWayref, update_apply]
    by_cases hw : w' = w
    · subst hw
      simp only [hway, if_true, some_inj, exists_eq_left', getElem?_set]
      by_cases hi' : i = i'
      · subst hi'
        simp [hid, hlength, eq_comm]
      · have hne : i' ≠ i := fun heq => hi' heq.symm
        simp [hi', hne]
    · simp [hw]
  · intro n
    simp only [OsmMap.addWayref, update_apply]
    split_ifs
    · refine nodup_append.mpr ⟨h.once nid, nodup_singleton _, ?_⟩
      intro a ha b hb
      cases mem_singleton.mp hb
      exact fun heq => hnew nid (heq ▸ ha)
    · exact h.once n
  · intro n hn
    obtain ⟨r, hr⟩ := exists_mem_of_ne_nil _ hn
    simp only [OsmMap.addWayref]
    rcases (hmem n r).mp hr with hr | ⟨rfl, -⟩
    · have hlisted := h.listed n (ne_nil_of_mem hr)
      split_ifs
      · exact hlisted
      · exact mem_append_left _ hlisted
    · split_ifs with hlisted
      · exact hlisted
      · simp
  · intro w' way' n hway' hn
    simp only [OsmMap.addWayref, update_apply] at hway'
    split_ifs at hway' with hw
    · cases hway'
      rcases mem_or_eq_of_mem_set hn with hn | hn
      · exact h.inTree w way n hway hn
      · cases hn
        exact hnid
    · exact h.inTree w' way' n hway' hn

/-- What an association of the way leaves as it is. -/
structure Frame (w : WayPtr) (s t : OsmMap) : Prop where
  nodeTree : t.nodeTree = s.nodeTree
  highwayList : t.highwayList = s.highwayList
  highwayCount : t.highwayCount = s.highwayCount
  way : ∀ w' ≠ w, t.way w' = s.way w'

theorem Frame.refl (w : WayPtr) (s : OsmMap) : Frame w s s := ⟨rfl, rfl, rfl, fun _ _ => rfl⟩

theorem Frame.trans {t u : OsmMap} (h : Frame w s t) (h' : Frame w t u) : Frame w s u :=
  ⟨h'.nodeTree.trans h.nodeTree, h'.highwayList.trans h.highwayList,
    h'.highwayCount.trans h.highwayCount, fun w' hw => (h'.way w' hw).trans (h.way w' hw)⟩

/-- An id becomes the node that it names, if there is one. -/
def resolve (nodeTree : List NodeId) : NodeRef → NodeRef
  | .id nid => if nid ∈ nodeTree then .node nid else .id nid
  | e => e

theorem associateEntry_spec (h : Refs s) (hway : s.way w = some way)
    (hi : way.nodeSet[i]? = some (.id nid)) :
    Refs (associateEntry w s i) ∧ Frame w s (associateEntry w s i) ∧
      ∃ way', (associateEntry w s i).way w = some way' ∧ way'.attr = way.attr ∧
        way'.name = way.name ∧
        way'.nodeSet = way.nodeSet.set i (resolve s.nodeTree (.id nid)) := by
  simp only [associateEntry, hway, hi, resolve]
  split_ifs with hnid
  · exact ⟨h.addWayref hway hi hnid,
      ⟨rfl, rfl, rfl, fun w' hw => update_of_ne hw _ _⟩,
      { way with
        nodeSet := way.nodeSet.set i (.node nid)
        wrefList := way.wrefList ++ [(w, i)] }, update_self _ _ _, rfl, rfl, rfl⟩
  · refine ⟨h, Frame.refl w s, way, hway, rfl, rfl, ?_⟩
    obtain ⟨hlength, heq⟩ := List.getElem?_eq_some_iff.mp hi
    rw [← heq, List.set_getElem_self]

/-- The first entries of a way after that many turns of the loop. -/
theorem associateEntries_spec (h : Refs s) (hway : s.way w = some way)
    (hids : ∀ e ∈ way.nodeSet, IsId e) (k : ℕ) (hk : k ≤ way.nodeSet.length) :
    Refs ((List.range k).foldl (associateEntry w) s) ∧
      Frame w s ((List.range k).foldl (associateEntry w) s) ∧
      ∃ way', ((List.range k).foldl (associateEntry w) s).way w = some way' ∧
        way'.attr = way.attr ∧ way'.name = way.name ∧
        way'.nodeSet = (way.nodeSet.take k).map (resolve s.nodeTree) ++ way.nodeSet.drop k := by
  induction k with
  | zero => exact ⟨h, Frame.refl w s, way, hway, rfl, rfl, by simp⟩
  | succ k ih =>
      obtain ⟨hrefs, hframe, way', hway', hattr, hname, hset⟩ := ih (by omega)
      obtain ⟨nid, hnid⟩ := hids way.nodeSet[k] (getElem_mem _)
      have hlength : ((way.nodeSet.take k).map (resolve s.nodeTree)).length = k := by
        rw [length_map, length_take, Nat.min_eq_left (by omega)]
      have hdrop : way.nodeSet.drop k = .id nid :: way.nodeSet.drop (k + 1) := by
        rw [← hnid, ← drop_eq_getElem_cons]
      have hk' : way'.nodeSet[k]? = some (.id nid) := by
        rw [hset, getElem?_append_right (by omega), hlength, Nat.sub_self, hdrop]
        rfl
      obtain ⟨hrefs', hframe', way'', hway'', hattr', hname', hset'⟩ :=
        associateEntry_spec hrefs hway' hk'
      rw [range_succ, foldl_append]
      refine ⟨hrefs', hframe.trans hframe', way'', hway'', hattr'.trans hattr,
        hname'.trans hname, ?_⟩
      have htake : way.nodeSet.take (k + 1) = way.nodeSet.take k ++ [.id nid] := by
        rw [take_add_one, getElem?_eq_getElem (by omega), hnid]
        rfl
      rw [hset', hset, hframe.nodeTree, set_append_right _ _ (by omega), hlength, Nat.sub_self,
        hdrop, set_cons_zero, htake, map_append, append_assoc]
      rfl

end Entry

/-! ## Ways -/

theorem toInt_le (n : ℕ) : toInt n ≤ n := by
  rw [toInt]
  split_ifs <;> omega

theorem toInt_lt (n : ℕ) : toInt n < 2 ^ 31 := by
  rw [toInt]
  split_ifs <;> omega

theorem toInt_of_lt {n : ℕ} (h : n < 2 ^ 31) : toInt n = n := by
  rw [toInt]
  split_ifs <;> omega

/-- What `associate_node` makes of a way. -/
structure Associated (nodeTree : List NodeId) (way way' : OsmWay) : Prop where
  nonempty : way.nodeSet ≠ []
  count : 1 ≤ toInt way.nodeSet.length
  name : way'.name = way.name
  attr : way'.attr = (detectLoop way (toInt way.nodeSet.length).toNat).1.attr
  nodeSet : way'.nodeSet =
    ((detectLoop way (toInt way.nodeSet.length).toNat).1.nodeSet.take
      (detectLoop way (toInt way.nodeSet.length).toNat).2).map (resolve nodeTree) ++
    (detectLoop way (toInt way.nodeSet.length).toNat).1.nodeSet.drop
      (detectLoop way (toInt way.nodeSet.length).toNat).2

section Node

variable {s t : OsmMap} {w : WayPtr} {way : OsmWay}

theorem detectLoop_subset (way : OsmWay) (count : ℕ) :
    (detectLoop way count).1.nodeSet ⊆ way.nodeSet := by
  rw [detectLoop]
  split_ifs
  · exact dropLast_subset way.nodeSet
  · exact fun _ h => h

theorem detectLoop_count (way : OsmWay) {count : ℕ} (h : count ≤ way.nodeSet.length) :
    (detectLoop way count).2 ≤ (detectLoop way count).1.nodeSet.length := by
  rw [detectLoop]
  split_ifs
  · simp only [length_dropLast]
    omega
  · exact h

theorem detectLoop_name (way : OsmWay) (count : ℕ) : (detectLoop way count).1.name = way.name := by
  rw [detectLoop]
  split_ifs <;> rfl

/-- A way of ids is put for a way of ids. -/
theorem Refs.setWay (h : Refs s) (hway : s.way w = some way) (hids : ∀ e ∈ way.nodeSet, IsId e)
    {way' : OsmWay} (hids' : ∀ e ∈ way'.nodeSet, IsId e) : Refs (s.setWay w way') := by
  have hnone : ∀ {way : OsmWay}, (∀ e ∈ way.nodeSet, IsId e) → ∀ n, .node n ∉ way.nodeSet := by
    intro way hids n hmem
    obtain ⟨nid, heq⟩ := hids _ hmem
    cases heq
  refine ⟨h.object, fun n w' i => ?_, h.once, h.listed, fun w' way'' n hway'' hn => ?_⟩
  · refine (h.entry n w' i).trans ?_
    simp only [OsmMap.setWay, update_apply]
    split_ifs with heq
    · subst heq
      simp only [hway, some_inj, exists_eq_left']
      exact iff_of_false (fun hi => hnone hids n (mem_of_getElem? hi))
        fun hi => hnone hids' n (mem_of_getElem? hi)
    · exact Iff.rfl
  · simp only [OsmMap.setWay, update_apply] at hway''
    split_ifs at hway''
    · cases hway''
      exact absurd hn (hnone hids' n)
    · exact h.inTree w' way'' n hway'' hn

theorem associateNode_spec (h : Refs s) (hway : s.way w = some way)
    (hids : ∀ e ∈ way.nodeSet, IsId e) (ht : associateNode s w = some t) :
    Refs t ∧ Frame w s t ∧ ∃ way', t.way w = some way' ∧ Associated s.nodeTree way way' := by
  simp only [associateNode, hway] at ht
  split_ifs at ht with hbad
  obtain ⟨hnonempty, hcount⟩ := not_or.mp hbad
  have hle : (toInt way.nodeSet.length).toNat ≤ way.nodeSet.length := by
    have := toInt_le way.nodeSet.length
    omega
  have hids' : ∀ e ∈ (detectLoop way (toInt way.nodeSet.length).toNat).1.nodeSet, IsId e :=
    fun e he => hids e (detectLoop_subset way _ he)
  have hset : (s.setWay w (detectLoop way (toInt way.nodeSet.length).toNat).1).way w =
      some (detectLoop way (toInt way.nodeSet.length).toNat).1 := update_self _ _ _
  obtain ⟨hrefs, hframe, way', hway', hattr, hname, hnodes⟩ :=
    associateEntries_spec (h.setWay hway hids hids') hset hids' _ (detectLoop_count way hle)
  have hfirst : Frame w s (s.setWay w (detectLoop way (toInt way.nodeSet.length).toNat).1) :=
    ⟨rfl, rfl, rfl, fun w' hw => update_of_ne hw _ _⟩
  cases ht
  exact ⟨hrefs, hfirst.trans hframe, way', hway', hnonempty, by omega,
    hname.trans (detectLoop_name way _), hattr, hnodes⟩

theorem associateNode_isSome (hway : s.way w = some way) (hnonempty : way.nodeSet ≠ [])
    (hlength : way.nodeSet.length < 2 ^ 31) : ∃ t, associateNode s w = some t := by
  have hpos := length_pos_of_ne_nil hnonempty
  simp only [associateNode, hway, toInt_of_lt hlength]
  rw [if_neg (not_or.mpr ⟨hnonempty, by omega⟩)]
  exact ⟨_, rfl⟩

end Node

/-! ## All ways -/

/-- The maps before and after a part of `finalize_highway`. -/
structure Finalized (l : List WayPtr) (s t : OsmMap) : Prop where
  refs : Refs t
  nodeTree : t.nodeTree = s.nodeTree
  highwayList : t.highwayList = s.highwayList
  highwayCount : t.highwayCount = s.highwayCount
  others : ∀ w ∉ l, t.way w = s.way w
  ways : ∀ w ∈ l, ∀ way, s.way w = some way →
    ∃ way', t.way w = some way' ∧ Associated s.nodeTree way way'

theorem associateNodes_spec {l : List WayPtr} {s t : OsmMap} (h : Refs s) (hl : l.Nodup)
    (hways : ∀ w ∈ l, ∃ way, s.way w = some way ∧ ∀ e ∈ way.nodeSet, IsId e)
    (ht : l.foldlM associateNode s = some t) : Finalized l s t := by
  induction l generalizing s with
  | nil =>
      cases ht
      exact ⟨h, rfl, rfl, rfl, fun _ _ => rfl, fun w hw => (not_mem_nil hw).elim⟩
  | cons w l ih =>
      obtain ⟨hnot, hl⟩ := nodup_cons.mp hl
      obtain ⟨s', hs', ht⟩ := bind_eq_some_iff.mp (foldlM_cons.symm.trans ht)
      obtain ⟨way, hway, hids⟩ := hways w mem_cons_self
      obtain ⟨hrefs, hframe, way', hway', hdone⟩ := associateNode_spec h hway hids hs'
      have hothers : ∀ w' ∈ l, s'.way w' = s.way w' := fun w' hw' =>
        hframe.way w' fun heq => hnot (heq ▸ hw')
      have hrest := ih hrefs hl (fun w' hw' => by
        rw [hothers w' hw']
        exact hways w' (mem_cons_of_mem w hw')) ht
      refine ⟨hrest.refs, hrest.nodeTree.trans hframe.nodeTree,
        hrest.highwayList.trans hframe.highwayList,
        hrest.highwayCount.trans hframe.highwayCount, fun w' hw' => ?_, fun w' hw' way₁ hway₁ => ?_⟩
      · obtain ⟨hne, hnotin⟩ := not_or.mp (fun hor => hw' (mem_cons.mpr hor))
        rw [hrest.others w' hnotin, hframe.way w' hne]
      · rcases mem_cons.mp hw' with rfl | hmem
        · rw [hway, some_inj] at hway₁
          subst hway₁
          exact ⟨way', (hrest.others w' hnot).trans hway', hdone⟩
        · rw [← hframe.nodeTree]
          exact hrest.ways w' hmem way₁ ((hothers w' hmem).trans hway₁)

theorem associateNodes_isSome {l : List WayPtr} {s : OsmMap} (h : Refs s) (hl : l.Nodup)
    (hways : ∀ w ∈ l, ∃ way, s.way w = some way ∧ (∀ e ∈ way.nodeSet, IsId e) ∧
      way.nodeSet ≠ [] ∧ way.nodeSet.length < 2 ^ 31) :
    ∃ t, l.foldlM associateNode s = some t := by
  induction l generalizing s with
  | nil => exact ⟨s, rfl⟩
  | cons w l ih =>
      obtain ⟨hnot, hl⟩ := nodup_cons.mp hl
      obtain ⟨way, hway, hids, hnonempty, hlength⟩ := hways w mem_cons_self
      obtain ⟨s', hs'⟩ := associateNode_isSome hway hnonempty hlength
      obtain ⟨hrefs, hframe, -⟩ := associateNode_spec h hway hids hs'
      obtain ⟨t, ht⟩ := ih hrefs hl fun w' hw' => by
        rw [hframe.way w' fun heq => hnot (heq ▸ hw')]
        exact hways w' (mem_cons_of_mem w hw')
      exact ⟨t, foldlM_cons.trans (bind_eq_some_iff.mpr ⟨s', hs', ht⟩)⟩

end V2I.OsmParser.OsmMap
