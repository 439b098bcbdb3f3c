import V2I.Lib.Lists
import V2I.OsmParser.OsmMap.References

/-!
# V2I.OsmParser.OsmMap.Merge

What the references and the ways keep through `finalize_highway` and each `merge_roads`
(`Kept`), and the files for which they do (`Meets`): those where there is nothing to merge. A
`merge_roads` always joins a node to itself, as it adds the shared node a second time.
-/

namespace V2I.OsmParser

open List Option

/-- The last node of the way is its first. -/
def Highway.CloseLoop (h : Highway) : Prop := 1 < h.nd.length ∧ h.nd.head? = h.nd.getLast?

instance (h : Highway) : Decidable h.CloseLoop := inferInstanceAs (Decidable (_ ∧ _))

/-- A one-way road starts where another of its name and type ends. -/
def Highway.Continues (h1 h2 : Highway) : Prop :=
  h1.isOneway = true ∧ h2.isOneway = true ∧ ¬ h1.CloseLoop ∧ ¬ h2.CloseLoop ∧
    h1.nd.getLast? = h2.nd.head? ∧ h1.createWay.wayCouldMerge h2.createWay = true

namespace OsmMap

/-- The consecutive nodes of all ways. -/
def pairs (s : OsmMap) : List (NodeRef × NodeRef) :=
  s.highwayList.flatMap fun w => ((s.way w).map OsmWay.pairs).getD []

/-- Ways, nodes and references fit together. -/
structure WellFormed (s : OsmMap) : Prop where
  reference : ∀ node, ∀ r ∈ s.wayrefList node, ∃ ref way, s.wayref r = some ref ∧
    s.way ref.way = some way ∧ way.nodeSet[ref.ndrefIndex]? = some (.node node)
  position : ∀ w ∈ s.highwayList, ∀ way, s.way w = some way → ∀ i < way.nodeSet.length,
    ∃! r, (∃ node, r ∈ s.wayrefList node) ∧ s.wayref r = some ⟨w, i⟩
  count : s.highwayCount = s.highwayList.length
  apart : ∀ p ∈ s.pairs, p.1 ≠ p.2
  nodes : ∀ w ∈ s.highwayList, ∃ way, s.way w = some way ∧
    ∀ e ∈ way.nodeSet, ∃ n ∈ s.nodeTree, e = .node n

/-- The map is well formed after `finalize_highway` and after each `merge_roads`, and these keep
the pairs of consecutive nodes. -/
def Kept (nodes : List NodeId) (highways : List Highway) : Prop :=
  ∃ s, (append nodes highways).finalizeHighway = some s ∧ WellFormed s ∧
    ∃ t ss, s.mergeWays = some (t, ss) ∧ ∀ s' ∈ ss, WellFormed s' ∧ s'.pairs.Perm s.pairs

/-- The condition on the file. -/
structure Meets (nodes : List NodeId) (highways : List Highway) : Prop where
  nonempty : ∀ h ∈ highways, h.nd ≠ []
  size : ∀ h ∈ highways, h.nd.length < 2 ^ 31
  found : ∀ h ∈ highways, ∀ nid ∈ h.nd, nid ∈ nodes
  apart : ∀ h ∈ highways, ∀ p ∈ h.nd.zip h.nd.tail, p.1 ≠ p.2
  -- no way has exactly one to merge with
  unmerged : ∀ h ∈ highways, ¬ ∃! k : ℕ, ∃ h', highways[k]? = some h' ∧ h.Continues h'

/-! ## Finalized ways -/

section Way

variable {nodes : List NodeId} {h : Highway} {way : OsmWay}

theorem length_createWay (h : Highway) : h.createWay.nodeSet.length = h.nd.length := by
  simp [Highway.createWay]

/-- The nodes of a way, without the last of a close loop. -/
def body (h : Highway) : List NodeId := if h.CloseLoop then h.nd.dropLast else h.nd

theorem detectLoop_createWay (h : Highway) :
    detectLoop h.createWay h.nd.length =
      ({ h.createWay with
        attr := { h.createWay.attr with closeLoop := decide h.CloseLoop }
        nodeSet := (body h).map .id }, (body h).length) := by
  have hiff : h.createWay.nodeSet[0]? = h.createWay.nodeSet[h.nd.length - 1]? ∧
      1 < h.nd.length ↔ h.CloseLoop := by
    have hinj : Function.Injective (Option.map NodeRef.id) :=
      map_injective fun a b hab => by cases hab; rfl
    rw [Highway.CloseLoop, head?_eq_getElem?, List.getLast?_eq_getElem?]
    simp only [Highway.createWay, getElem?_map, hinj.eq_iff]
    exact and_comm
  rw [detectLoop]
  by_cases hclose : h.CloseLoop
  · rw [if_pos (hiff.mpr hclose)]
    simp [body, hclose, Highway.createWay, map_dropLast]
  · rw [if_neg fun hand => hclose (hiff.mp hand)]
    simp [body, hclose, Highway.createWay]

/-- A way whose size is an `int`. -/
theorem Associated.of_small (ha : Associated nodes h.createWay way) (hsize : h.nd.length < 2 ^ 31) :
    way.nodeSet = (body h).map (fun nid => resolve nodes (.id nid)) ∧
      way.attr = { h.createWay.attr with closeLoop := decide h.CloseLoop } ∧
      way.name = h.name := by
  have hcount : (toInt h.createWay.nodeSet.length).toNat = h.nd.length := by
    rw [length_createWay, toInt_of_lt hsize, Int.toNat_natCast]
  have hattr := ha.attr
  have hnodes := ha.nodeSet
  rw [hcount, detectLoop_createWay] at hattr hnodes
  refine ⟨hnodes.trans ?_, hattr, ha.name⟩
  rw [List.take_of_length_le (by simp), List.drop_of_length_le (by simp), List.append_nil,
    List.map_map]
  rfl

/-- The loop over the nodes has seen all entries, where none is an id. -/
theorem Associated.small (ha : Associated nodes h.createWay way)
    (hnodes : ∀ e ∈ way.nodeSet, ¬ IsId e) : h.nd.length < 2 ^ 31 := by
  have hcount := ha.count
  rw [length_createWay] at hcount
  have hlt := toInt_lt h.nd.length
  by_contra hlarge
  have hset := ha.nodeSet
  rw [length_createWay] at hset
  -- an entry behind the counted ones
  have hbehind : ((detectLoop h.createWay (toInt h.nd.length).toNat).1.nodeSet.drop
      (detectLoop h.createWay (toInt h.nd.length).toNat).2) ≠ [] := by
    rw [Ne, drop_eq_nil_iff, detectLoop]
    split_ifs
    · simp only [length_dropLast, length_createWay]
      omega
    · simp only [length_createWay]
      omega
  obtain ⟨e, he⟩ := exists_mem_of_ne_nil _ hbehind
  refine hnodes e ?_ ?_
  · rw [hset]
    exact mem_append_right _ he
  · obtain ⟨nid, -, heq⟩ :=
      mem_map.mp (detectLoop_subset h.createWay _ (mem_of_mem_drop he))
    exact ⟨nid, heq.symm⟩

end Way

/-! ## Pairs -/

/-- The pairs of a finalized way are those in the file. -/
theorem pairs_associated {nodes : List NodeId} {h : Highway} {way : OsmWay}
    (ha : Associated nodes h.createWay way) (hsize : h.nd.length < 2 ^ 31) :
    way.pairs = (h.nd.zip h.nd.tail).map fun p =>
      (resolve nodes (.id p.1), resolve nodes (.id p.2)) := by
  obtain ⟨hset, hattr, -⟩ := ha.of_small hsize
  have hzip : ∀ l : List NodeId, (l.map fun nid => resolve nodes (.id nid)).zip
      (l.map fun nid => resolve nodes (.id nid)).tail =
      (l.zip l.tail).map fun p => (resolve nodes (.id p.1), resolve nodes (.id p.2)) := by
    intro l
    rw [← map_tail, zip_map]
    rfl
  rw [OsmWay.pairs, hset, hattr, hzip]
  by_cases hclose : h.CloseLoop
  · obtain ⟨hlength, hends⟩ := hclose
    have hclose : h.CloseLoop := ⟨hlength, hends⟩
    obtain ⟨l, b, hl⟩ : ∃ l b, h.nd = l ++ [b] :=
      ⟨_, _, (dropLast_concat_getLast (ne_nil_of_length_pos (by omega))).symm⟩
    have hbody : body h = l := by simp [body, hclose, hl]
    obtain ⟨c, l', rfl⟩ : ∃ c l', l = c :: l' := by
      cases l with
      | nil => rw [hl] at hlength; simp at hlength
      | cons c l' => exact ⟨c, l', rfl⟩
    rw [hl, getLast?_concat] at hends
    obtain rfl : c = b := some_inj.mp hends
    obtain ⟨a, hlast⟩ : ∃ a, (c :: l').getLast? = some a :=
      ⟨_, getLast?_eq_some_getLast (by simp)⟩
    have hlast' : ((c :: l').map fun nid => resolve nodes (.id nid)).getLast? =
        some (resolve nodes (.id a)) := by
      rw [getLast?_map, hlast]
      rfl
    rw [hbody, hlast', hl, zip_tail_concat hlast, map_append]
    simp [hclose]
  · simp [hclose, body]

/-- A node that is added a second time is joined to itself. -/
theorem mem_pairs_joinWays {way1 way2 : OsmWay} {e : NodeRef} (h1 : way1.nodeSet.getLast? = some e)
    (h2 : way2.nodeSet.head? = some e) : (e, e) ∈ (joinWays way1 way2).pairs := by
  obtain ⟨a, ha⟩ := getLast?_eq_some_iff.mp h1
  obtain ⟨b, hb⟩ := head?_eq_some_iff.mp h2
  have happend : way1.nodeSet ++ way2.nodeSet = a ++ e :: e :: b := by
    rw [ha, hb, append_assoc]
    rfl
  rw [joinWays, happend]
  split_ifs with hclose
  · rw [OsmWay.pairs, mem_append]
    rcases eq_nil_or_concat b with rfl | ⟨b, x, rfl⟩
    · -- only the shared node is added, and taken off again
      right
      have hlast : (a ++ [e, e]).dropLast = a ++ [e] := by
        have happ : a ++ [e, e] = (a ++ [e]) ++ [e] := by simp
        rw [happ, dropLast_concat]
      have hhead : (a ++ [e]).head? = some e := by
        have heq : some e = (a ++ [e, e]).head? := by simpa using hclose
        cases a with
        | nil => rfl
        | cons x a => exact heq.symm
      simp [hlast, hhead]
    · left
      have hlast : (a ++ e :: e :: b.concat x).dropLast = a ++ e :: e :: b := by
        have happ : a ++ e :: e :: b.concat x = (a ++ e :: e :: b) ++ [x] := by simp
        rw [happ, dropLast_concat]
      simp only [hlast]
      exact mem_zip_tail a b e e
  · exact mem_append_left _ (mem_zip_tail a b e e)

/-- After a `merge_roads` a node is joined to itself. -/
theorem not_apart_of_mergeRoads {s s' : OsmMap} {w1 w2 : WayPtr} {way1 : OsmWay}
    (h : s.mergeRoads w1 w2 = some s') (hway1 : s.way w1 = some way1)
    (hnonempty : way1.nodeSet ≠ []) (hw1 : w1 ∈ s.highwayList) : ∃ e, (e, e) ∈ s'.pairs := by
  cases hway2 : s.way w2 with
  | none => simp [mergeRoads, hway1, hway2] at h
  | some way2 =>
      simp only [mergeRoads, hway1, hway2] at h
      split_ifs at h with hbad
      obtain ⟨hshared, hne⟩ := not_or.mp hbad
      obtain ⟨e, he⟩ : ∃ e, way1.nodeSet.getLast? = some e :=
        ⟨_, getLast?_eq_some_getLast hnonempty⟩
      have hhead : way2.nodeSet.head? = some e := by rw [← not_ne_iff.mp hshared, he]
      cases h
      refine ⟨e, mem_flatMap.mpr ⟨w1, (mem_erase_of_ne hne).mpr hw1, ?_⟩⟩
      simp only [Function.update_self, map_some, getD_some]
      exact mem_pairs_joinWays he hhead

/-! ## Merging -/

section Target

variable (s : OsmMap) (w1 : WayPtr)

/-- The ways that could be merged with, over the references of a node. -/
def candidates (l : List WayrefPtr) : List WayPtr :=
  l.filterMap fun r => (s.inoutWay .fanOut r).filter (s.couldMerge w1)

theorem candidates_cons (r : WayrefPtr) (l : List WayrefPtr) :
    s.candidates w1 (r :: l) =
      ((s.inoutWay .fanOut r).filter (s.couldMerge w1)).toList ++ s.candidates w1 l := by
  rw [candidates, filterMap_cons]
  cases (s.inoutWay .fanOut r).filter (s.couldMerge w1) <;> rfl

/-- The loop ends with a way if it has one and there is no other. -/
theorem mergeTarget_eq (target : Option WayPtr) (l : List WayrefPtr) :
    s.mergeTarget w1 target l =
      match target.toList ++ s.candidates w1 l with
      | [w] => some w
      | _ => none := by
  induction l generalizing target with
  | nil => cases target <;> rfl
  | cons r l ih =>
      rw [candidates_cons, mergeTarget]
      cases hr : s.inoutWay .fanOut r with
      | none => exact ih target
      | some w2 =>
          simp only [filter_some]
          split_ifs with hcould
          · cases target with
            | none => exact ih (some w2)
            | some w => rfl
          · exact ih target

end Target

/-- Nothing is merged at the node. -/
def Idle (s : OsmMap) (node : NodeId) : Prop :=
  ∀ r ∈ s.wayrefList node, ∀ w1, s.inoutWay .fanIn r = some w1 →
    s.mergeTarget w1 none (s.wayrefList node) = none

theorem mergeNode_cases (s : OsmMap) (node : NodeId) (l : List WayrefPtr) :
    ((∀ r ∈ l, ∀ w1, s.inoutWay .fanIn r = some w1 →
      s.mergeTarget w1 none (s.wayrefList node) = none) ∧ mergeNode node l s = some (s, [])) ∨
    ∃ r ∈ l, ∃ w1 w2, s.inoutWay .fanIn r = some w1 ∧
      s.mergeTarget w1 none (s.wayrefList node) = some w2 ∧
      ∀ t ss, mergeNode node l s = some (t, ss) → ∃ s' ∈ ss, s.mergeRoads w1 w2 = some s' := by
  induction l with
  | nil => exact .inl ⟨fun r hr => (not_mem_nil hr).elim, rfl⟩
  | cons r l ih =>
      rw [mergeNode]
      -- a reference that merges nothing leaves the map as it is
      have hskip : (∀ w1, s.inoutWay .fanIn r = some w1 →
          s.mergeTarget w1 none (s.wayrefList node) = none) →
          ((∀ r' ∈ r :: l, ∀ w1, s.inoutWay .fanIn r' = some w1 →
            s.mergeTarget w1 none (s.wayrefList node) = none) ∧
            mergeNode node l s = some (s, [])) ∨
          ∃ r' ∈ r :: l, ∃ w1 w2, s.inoutWay .fanIn r' = some w1 ∧
            s.mergeTarget w1 none (s.wayrefList node) = some w2 ∧
            ∀ t ss, mergeNode node l s = some (t, ss) →
              ∃ s' ∈ ss, s.mergeRoads w1 w2 = some s' := by
        intro hr
        rcases ih with ⟨hidle, hrun⟩ | ⟨r', hr', hmerge⟩
        · exact .inl ⟨forall_mem_cons.mpr ⟨hr, hidle⟩, hrun⟩
        · exact .inr ⟨r', mem_cons_of_mem r hr', hmerge⟩
      cases hin : s.inoutWay .fanIn r with
      | none => exact hskip fun w1 hw1 => by rw [hin] at hw1; cases hw1
      | some w1 =>
          simp only
          cases htarget : s.mergeTarget w1 none (s.wayrefList node) with
          | none =>
              refine hskip fun w hw => ?_
              rw [hin, some_inj] at hw
              rwa [← hw]
          | some w2 =>
              refine .inr ⟨r, mem_cons_self, w1, w2, hin, htarget, fun t ss hrun => ?_⟩
              simp only at hrun
              cases hmerge : s.mergeRoads w1 w2 with
              | none => rw [hmerge] at hrun; cases hrun
              | some s' =>
                  rw [hmerge] at hrun
                  obtain ⟨p, -, heq⟩ := map_eq_some_iff.mp hrun
                  cases heq
                  exact ⟨s', mem_cons_self, rfl⟩

theorem mergeNodes_cases (s : OsmMap) (nodes : List NodeId) :
    ((∀ node ∈ nodes, s.Idle node) ∧ mergeNodes nodes s = some (s, [])) ∨
    ∃ node ∈ nodes, ∃ r ∈ s.wayrefList node, ∃ w1 w2, s.inoutWay .fanIn r = some w1 ∧
      s.mergeTarget w1 none (s.wayrefList node) = some w2 ∧
      ∀ t ss, mergeNodes nodes s = some (t, ss) → ∃ s' ∈ ss, s.mergeRoads w1 w2 = some s' := by
  induction nodes with
  | nil => exact .inl ⟨fun node hnode => (not_mem_nil hnode).elim, rfl⟩
  | cons node nodes ih =>
      rw [mergeNodes]
      rcases mergeNode_cases s node (s.wayrefList node) with
        ⟨hidle, hrun⟩ | ⟨r, hr, w1, w2, hin, htarget, hmerge⟩
      · rw [hrun]
        rcases ih with ⟨hidles, hruns⟩ | ⟨node', hnode', r, hr, w1, w2, hin, htarget, hmerge⟩
        · exact .inl ⟨forall_mem_cons.mpr ⟨hidle, hidles⟩, by simp [hruns]⟩
        · refine .inr ⟨node', mem_cons_of_mem node hnode', r, hr, w1, w2, hin, htarget, ?_⟩
          intro t ss hrun
          obtain ⟨p, hp, heq⟩ := map_eq_some_iff.mp hrun
          cases heq
          simpa using hmerge p.1 p.2 hp
      · refine .inr ⟨node, mem_cons_self, r, hr, w1, w2, hin, htarget, fun t ss hruns => ?_⟩
        cases hrun : mergeNode node (s.wayrefList node) s with
        | none => rw [hrun] at hruns; cases hruns
        | some p =>
            rw [hrun] at hruns
            obtain ⟨p', -, heq⟩ := map_eq_some_iff.mp hruns
            cases heq
            obtain ⟨s', hs', hmerged⟩ := hmerge p.1 p.2 hrun
            exact ⟨s', mem_append_left _ hs', hmerged⟩

/-! ## The finalized map -/

theorem isId_createWay (h : Highway) : ∀ e ∈ h.createWay.nodeSet, IsId e := by
  intro e he
  obtain ⟨nid, -, rfl⟩ := mem_map.mp he
  exact ⟨nid, rfl⟩

/-- The map after `finalize_highway`. -/
abbrev FinalMap (nodes : List NodeId) (highways : List Highway) (s : OsmMap) : Prop :=
  Finalized (List.range highways.length) (append nodes highways) s

section Final

variable {nodes : List NodeId} {highways : List Highway} {s : OsmMap} {w : WayPtr}

theorem way_append (nodes : List NodeId) (hw : w ∈ List.range highways.length) :
    ∃ h ∈ highways, highways[w]? = some h ∧ (append nodes highways).way w = some h.createWay := by
  have hlt := mem_range.mp hw
  refine ⟨highways[w], getElem_mem hlt, getElem?_eq_getElem hlt, ?_⟩
  simp [append, getElem?_eq_getElem hlt]

theorem finalMap_of_finalize (h : (append nodes highways).finalizeHighway = some s) :
    FinalMap nodes highways s := by
  refine associateNodes_spec (refs_append nodes highways) nodup_range (fun w hw => ?_) h
  obtain ⟨h, -, -, hway⟩ := way_append nodes hw
  exact ⟨_, hway, isId_createWay h⟩

theorem FinalMap.way (hfin : FinalMap nodes highways s) {h : Highway} (hw : highways[w]? = some h) :
    ∃ way, s.way w = some way ∧ Associated nodes h.createWay way := by
  refine hfin.ways w ?_ h.createWay (by simp [append, hw])
  exact List.mem_range.mpr (List.getElem?_eq_some_iff.mp hw).1

theorem FinalMap.highway_of_way (hfin : FinalMap nodes highways s) {way : OsmWay}
    (hway : s.way w = some way) :
    ∃ h, highways[w]? = some h ∧ Associated nodes h.createWay way := by
  cases hw : highways[w]? with
  | none =>
      have hnone : s.way w = none := by
        rw [hfin.others w (by simpa using getElem?_eq_none_iff.mp hw)]
        simp [append, hw]
      rw [hnone] at hway
      cases hway
  | some h =>
      obtain ⟨way', hway', ha⟩ := hfin.way hw
      rw [hway, some_inj] at hway'
      exact ⟨h, rfl, hway' ▸ ha⟩

theorem FinalMap.mem_highwayList (hfin : FinalMap nodes highways s) :
    w ∈ s.highwayList ↔ ∃ h, highways[w]? = some h := by
  rw [hfin.highwayList]
  constructor
  · intro hw
    obtain ⟨h, -, hw', -⟩ := way_append nodes hw
    exact ⟨h, hw'⟩
  · rintro ⟨h, hw⟩
    exact List.mem_range.mpr (List.getElem?_eq_some_iff.mp hw).1

/-- The files whose nodes are all there. -/
structure Complete (nodes : List NodeId) (highways : List Highway) : Prop where
  size : ∀ h ∈ highways, h.nd.length < 2 ^ 31
  found : ∀ h ∈ highways, ∀ nid ∈ h.nd, nid ∈ nodes

theorem body_subset (h : Highway) : body h ⊆ h.nd := by
  rw [body]
  split_ifs
  · exact dropLast_subset h.nd
  · exact fun _ hmem => hmem

theorem Complete.nodeSet (hc : Complete nodes highways) {h : Highway} (hh : h ∈ highways)
    {way : OsmWay} (ha : Associated nodes h.createWay way) : way.nodeSet = (body h).map .node := by
  rw [(ha.of_small (hc.size h hh)).1]
  refine map_congr_left fun nid hnid => ?_
  exact if_pos (hc.found h hh nid (body_subset h hnid))

variable {n : NodeId}

theorem FinalMap.mem_wayrefList (hfin : FinalMap nodes highways s) (hc : Complete nodes highways)
    {i : ℕ} : (w, i) ∈ s.wayrefList n ↔ ∃ h, highways[w]? = some h ∧ (body h)[i]? = some n := by
  have hnode : ∀ l : List NodeId, (l.map NodeRef.node)[i]? = some (.node n) ↔ l[i]? = some n := by
    intro l
    rw [getElem?_map, map_eq_some_iff]
    simp
  rw [hfin.refs.entry]
  constructor
  · rintro ⟨way, hway, hi⟩
    obtain ⟨h, hw, ha⟩ := hfin.highway_of_way hway
    rw [hc.nodeSet (mem_of_getElem? hw) ha, hnode] at hi
    exact ⟨h, hw, hi⟩
  · rintro ⟨h, hw, hi⟩
    obtain ⟨way, hway, ha⟩ := hfin.way hw
    refine ⟨way, hway, ?_⟩
    rwa [hc.nodeSet (mem_of_getElem? hw) ha, hnode]

theorem FinalMap.inoutWay_iff (hfin : FinalMap nodes highways s) (hc : Complete nodes highways)
    {w' : WayPtr} {i : ℕ} {inout : FanInout} (hr : (w, i) ∈ s.wayrefList n) :
    s.inoutWay inout (w, i) = some w' ↔
      w' = w ∧ ∃ h, highways[w]? = some h ∧ h.isOneway = true ∧ ¬ h.CloseLoop ∧
        match inout with
        | .fanIn => i + 1 = h.nd.length
        | .fanOut => i = 0 := by
  obtain ⟨h, hw, -⟩ := (hfin.mem_wayrefList hc).mp hr
  obtain ⟨way, hway, ha⟩ := hfin.way hw
  have hh := mem_of_getElem? hw
  obtain ⟨-, hattr, -⟩ := ha.of_small (hc.size h hh)
  have hset := hc.nodeSet hh ha
  have hone : way.attr.isOneway = h.isOneway := by rw [hattr]; rfl
  have hclose : way.attr.closeLoop = decide h.CloseLoop := by rw [hattr]
  simp only [inoutWay, hfin.refs.object n _ hr, hway, hone, hclose, hw, some_inj, exists_eq_left']
  by_cases hloop : h.CloseLoop
  · simp [hloop]
  · have hlength : way.nodeSet.length = h.nd.length := by simp [hset, body, hloop]
    cases hoo : h.isOneway with
    | false => simp [hloop]
    | true =>
        cases inout <;> simp only [hloop, hlength, decide_false, Bool.not_true, Bool.or_self,
          Bool.false_eq_true, if_false, not_false_eq_true, true_and] <;>
          split_ifs with hif <;> simp [hif, eq_comm]

variable {w1 : WayPtr} {h1 : Highway} {w2 : WayPtr}

theorem FinalMap.couldMerge_eq (hfin : FinalMap nodes highways s) (hc : Complete nodes highways)
    {h2 : Highway} (hw1 : highways[w1]? = some h1) (hw2 : highways[w2]? = some h2)
    (hloop1 : ¬ h1.CloseLoop) (hloop2 : ¬ h2.CloseLoop) :
    s.couldMerge w1 w2 = h1.createWay.wayCouldMerge h2.createWay := by
  obtain ⟨way1, hway1, ha1⟩ := hfin.way hw1
  obtain ⟨way2, hway2, ha2⟩ := hfin.way hw2
  obtain ⟨-, hattr1, hname1⟩ := ha1.of_small (hc.size h1 (mem_of_getElem? hw1))
  obtain ⟨-, hattr2, hname2⟩ := ha2.of_small (hc.size h2 (mem_of_getElem? hw2))
  simp only [couldMerge, hway1, hway2, OsmWay.wayCouldMerge, OsmWay.sameType, hattr1, hattr2,
    hname1, hname2, hloop1, hloop2, decide_false]
  rfl

theorem FinalMap.mem_candidates (hfin : FinalMap nodes highways s) (hc : Complete nodes highways)
    (hw1 : highways[w1]? = some h1) (hone1 : h1.isOneway = true) (hloop1 : ¬ h1.CloseLoop)
    (hlast : h1.nd.getLast? = some n) :
    w2 ∈ s.candidates w1 (s.wayrefList n) ↔ ∃ h2, highways[w2]? = some h2 ∧ h1.Continues h2 := by
  have hhead : ∀ {h : Highway}, ¬ h.CloseLoop → (body h)[0]? = h.nd.head? := by
    intro h hloop
    rw [body, if_neg hloop, head?_eq_getElem?]
  rw [candidates, mem_filterMap]
  simp only [filter_eq_some_iff]
  constructor
  · rintro ⟨⟨w, i⟩, hr, hout, hcould⟩
    obtain ⟨rfl, h2, hw2, hone2, hloop2, rfl⟩ := (hfin.inoutWay_iff hc hr).mp hout
    obtain ⟨h2', hw2', hfirst⟩ := (hfin.mem_wayrefList hc).mp hr
    rw [hw2, some_inj] at hw2'
    subst hw2'
    rw [hfin.couldMerge_eq hc hw1 hw2 hloop1 hloop2] at hcould
    exact ⟨h2, hw2, hone1, hone2, hloop1, hloop2, by rw [hlast, ← hhead hloop2, hfirst], hcould⟩
  · rintro ⟨h2, hw2, -, hone2, -, hloop2, hjoin, hcould⟩
    have hr : (w2, 0) ∈ s.wayrefList n :=
      (hfin.mem_wayrefList hc).mpr ⟨h2, hw2, by rw [hhead hloop2, ← hjoin, hlast]⟩
    refine ⟨(w2, 0), hr, (hfin.inoutWay_iff hc hr).mpr ⟨rfl, h2, hw2, hone2, hloop2, rfl⟩, ?_⟩
    rwa [hfin.couldMerge_eq hc hw1 hw2 hloop1 hloop2]

theorem FinalMap.candidates_nodup (hfin : FinalMap nodes highways s) (hc : Complete nodes highways)
    (w1 : WayPtr) (n : NodeId) : (s.candidates w1 (s.wayrefList n)).Nodup := by
  refine pairwise_filterMap.mpr ((hfin.refs.once n).imp_of_mem ?_)
  rintro ⟨w, i⟩ ⟨w', i'⟩ hr hr' hne b hb b' hb' rfl
  obtain ⟨hout, -⟩ := filter_eq_some_iff.mp hb
  obtain ⟨hout', -⟩ := filter_eq_some_iff.mp hb'
  obtain ⟨rfl, -, -, -, -, rfl⟩ := (hfin.inoutWay_iff hc hr).mp hout
  obtain ⟨rfl, -, -, -, -, rfl⟩ := (hfin.inoutWay_iff hc hr').mp hout'
  exact hne rfl

/-- A way is merged at its last node where exactly one continues it. -/
theorem FinalMap.exists_mergeTarget_iff (hfin : FinalMap nodes highways s)
    (hc : Complete nodes highways) (hw1 : highways[w1]? = some h1) (hone1 : h1.isOneway = true)
    (hloop1 : ¬ h1.CloseLoop) (hlast : h1.nd.getLast? = some n) :
    (∃ w2, s.mergeTarget w1 none (s.wayrefList n) = some w2) ↔
      ∃! k : ℕ, ∃ h2, highways[k]? = some h2 ∧ h1.Continues h2 := by
  have hmem : ∀ w2, w2 ∈ s.candidates w1 (s.wayrefList n) ↔
      ∃ h2, highways[w2]? = some h2 ∧ h1.Continues h2 :=
    fun _ => hfin.mem_candidates hc hw1 hone1 hloop1 hlast
  have hnodup := hfin.candidates_nodup hc w1 n
  rw [mergeTarget_eq, toList_none, nil_append]
  simp only [← hmem]
  generalize s.candidates w1 (s.wayrefList n) = l at hnodup ⊢
  match l with
  | [] => simp
  | [w] => simp
  | w :: w' :: l =>
      refine iff_of_false (by simp) ?_
      rintro ⟨k, -, hk⟩
      have hne : w ≠ w' := fun heq => (nodup_cons.mp hnodup).1 (heq ▸ mem_cons_self)
      exact hne ((hk w (by simp)).trans (hk w' (by simp)).symm)

/-- Ways, nodes and references of a complete file fit together. -/
theorem FinalMap.wellFormed (hfin : FinalMap nodes highways s) (hc : Complete nodes highways)
    (hapart : ∀ h ∈ highways, ∀ p ∈ h.nd.zip h.nd.tail, p.1 ≠ p.2) : WellFormed s where
  reference := by
    rintro n ⟨w, i⟩ hr
    obtain ⟨way, hway, hi⟩ := (hfin.refs.entry n w i).mp hr
    exact ⟨⟨w, i⟩, way, hfin.refs.object n _ hr, hway, hi⟩
  position := by
    intro w hw way hway i hi
    obtain ⟨h, hwh, ha⟩ := hfin.highway_of_way hway
    have hset := hc.nodeSet (mem_of_getElem? hwh) ha
    rw [hset, length_map] at hi
    have hr : (w, i) ∈ s.wayrefList (body h)[i] :=
      (hfin.mem_wayrefList hc).mpr ⟨h, hwh, getElem?_eq_getElem hi⟩
    refine ⟨(w, i), ⟨⟨_, hr⟩, hfin.refs.object _ _ hr⟩, ?_⟩
    rintro ⟨w', i'⟩ ⟨⟨n, hr'⟩, hobject⟩
    rw [hfin.refs.object n _ hr', some_inj] at hobject
    cases hobject
    rfl
  count := by
    rw [hfin.highwayCount, hfin.highwayList]
    exact length_range.symm
  apart := by
    intro p hp
    obtain ⟨w, hw, hp⟩ := mem_flatMap.mp hp
    obtain ⟨h, hwh⟩ := hfin.mem_highwayList.mp hw
    obtain ⟨way, hway, ha⟩ := hfin.way hwh
    have hh := mem_of_getElem? hwh
    rw [hway, map_some, getD_some, pairs_associated ha (hc.size h hh)] at hp
    obtain ⟨⟨a, b⟩, hab, rfl⟩ := mem_map.mp hp
    have hfound : ∀ {n}, n ∈ h.nd → resolve nodes (.id n) = .node n := fun hn =>
      if_pos (hc.found h hh _ hn)
    rw [hfound (of_mem_zip hab).1, hfound (mem_of_mem_tail (of_mem_zip hab).2)]
    intro heq
    cases heq
    exact hapart h hh _ hab rfl
  nodes := by
    intro w hw
    obtain ⟨h, hwh⟩ := hfin.mem_highwayList.mp hw
    obtain ⟨way, hway, ha⟩ := hfin.way hwh
    have hh := mem_of_getElem? hwh
    refine ⟨way, hway, fun e he => ?_⟩
    rw [hc.nodeSet hh ha] at he
    obtain ⟨n, hn, rfl⟩ := mem_map.mp he
    refine ⟨n, ?_, rfl⟩
    rw [hfin.nodeTree]
    exact hc.found h hh n (body_subset h hn)

/-- A well-formed map is that of a complete file. -/
theorem FinalMap.complete (hfin : FinalMap nodes highways s) (hwf : WellFormed s) :
    Complete nodes highways := by
  have hways : ∀ h ∈ highways, ∃ way, Associated nodes h.createWay way ∧
      ∀ e ∈ way.nodeSet, ∃ n ∈ nodes, e = .node n := by
    intro h hh
    obtain ⟨w, hw⟩ := getElem?_of_mem hh
    obtain ⟨way, hway, ha⟩ := hfin.way hw
    obtain ⟨way', hway', hnodes⟩ := hwf.nodes w (hfin.mem_highwayList.mpr ⟨h, hw⟩)
    rw [hway, some_inj] at hway'
    rw [hfin.nodeTree, ← hway'] at hnodes
    exact ⟨way, ha, hnodes⟩
  have hsize : ∀ h ∈ highways, h.nd.length < 2 ^ 31 := by
    intro h hh
    obtain ⟨way, ha, hnodes⟩ := hways h hh
    refine ha.small fun e he => ?_
    rintro ⟨nid, rfl⟩
    obtain ⟨n, -, heq⟩ := hnodes _ he
    cases heq
  refine ⟨hsize, fun h hh nid hnid => ?_⟩
  obtain ⟨way, ha, hnodes⟩ := hways h hh
  have hset := (ha.of_small (hsize h hh)).1
  have hbody : ∀ m ∈ body h, m ∈ nodes := by
    intro m hm
    obtain ⟨n, hn, heq⟩ := hnodes (resolve nodes (.id m))
      (by rw [hset]; exact mem_map_of_mem hm)
    rw [resolve] at heq
    split_ifs at heq with hmem
    exact hmem
  -- the last node of a close loop is its first
  by_cases hloop : h.CloseLoop
  · rw [body, if_pos hloop] at hbody
    obtain ⟨hlength, hends⟩ := hloop
    have hne := ne_nil_of_length_pos (by omega : 0 < h.nd.length)
    rw [← dropLast_concat_getLast hne] at hnid
    rcases mem_append.mp hnid with hnid | hnid
    · exact hbody nid hnid
    · obtain rfl := mem_singleton.mp hnid
      rw [getLast?_eq_some_getLast hne] at hends
      refine hbody _ ?_
      generalize h.nd.getLast hne = last at hends ⊢
      obtain ⟨l, hl⟩ := head?_eq_some_iff.mp hends
      cases l with
      | nil => rw [hl] at hlength; simp at hlength
      | cons b l =>
          rw [hl]
          simp
  · rw [body, if_neg hloop] at hbody
    exact hbody nid hnid

/-- A reference at the end of a one-way road. -/
theorem FinalMap.fanIn_iff (hfin : FinalMap nodes highways s) (hc : Complete nodes highways) :
    (∃ r ∈ s.wayrefList n, s.inoutWay .fanIn r = some w1) ↔
      ∃ h, highways[w1]? = some h ∧ h.isOneway = true ∧ ¬ h.CloseLoop ∧
        h.nd.getLast? = some n := by
  constructor
  · rintro ⟨⟨w, i⟩, hr, hin⟩
    obtain ⟨rfl, h, hw, hone, hloop, hi⟩ := (hfin.inoutWay_iff hc hr).mp hin
    obtain ⟨h', hw', hn⟩ := (hfin.mem_wayrefList hc).mp hr
    rw [hw, some_inj] at hw'
    subst hw'
    refine ⟨h, hw, hone, hloop, ?_⟩
    rw [body, if_neg hloop] at hn
    rwa [List.getLast?_eq_getElem?, ← hi, Nat.add_sub_cancel]
  · rintro ⟨h, hw, hone, hloop, hlast⟩
    rw [List.getLast?_eq_getElem?] at hlast
    have hlength := (List.getElem?_eq_some_iff.mp hlast).1
    have hr : (w1, h.nd.length - 1) ∈ s.wayrefList n :=
      (hfin.mem_wayrefList hc).mpr ⟨h, hw, by rwa [body, if_neg hloop]⟩
    exact ⟨_, hr, (hfin.inoutWay_iff hc hr).mpr ⟨rfl, h, hw, hone, hloop, by omega⟩⟩

/-- Something is merged exactly where a way has one way that continues it. -/
theorem FinalMap.not_idle_iff (hfin : FinalMap nodes highways s) (hc : Complete nodes highways) :
    (∃ node ∈ s.highwayNodeList, ¬ s.Idle node) ↔
      ∃ h ∈ highways, ∃! k : ℕ, ∃ h', highways[k]? = some h' ∧ h.Continues h' := by
  constructor
  · rintro ⟨node, -, hidle⟩
    obtain ⟨r, hr, w1, hin, htarget⟩ : ∃ r ∈ s.wayrefList node, ∃ w1,
        s.inoutWay .fanIn r = some w1 ∧ s.mergeTarget w1 none (s.wayrefList node) ≠ none := by
      simpa [Idle] using hidle
    obtain ⟨h, hw, hone, hloop, hlast⟩ := (hfin.fanIn_iff hc).mp ⟨r, hr, hin⟩
    exact ⟨h, mem_of_getElem? hw, (hfin.exists_mergeTarget_iff hc hw hone hloop hlast).mp
      (ne_none_iff_exists'.mp htarget)⟩
  · rintro ⟨h, hh, hunique⟩
    obtain ⟨w1, hw⟩ := getElem?_of_mem hh
    obtain ⟨k, h', hk, hone, -, hloop, -, hjoin, -⟩ := hunique.exists
    -- the last node of the way is the first of another
    obtain ⟨way, -, ha⟩ := hfin.way hw
    have hne : h.nd ≠ [] := fun hnil => ha.nonempty (by simp [Highway.createWay, hnil])
    have hlast := getLast?_eq_some_getLast hne
    obtain ⟨r, hr, hin⟩ := (hfin.fanIn_iff hc).mpr ⟨h, hw, hone, hloop, hlast⟩
    obtain ⟨w2, htarget⟩ := (hfin.exists_mergeTarget_iff hc hw hone hloop hlast).mpr hunique
    refine ⟨_, hfin.refs.listed _ (ne_nil_of_mem hr), fun hidle => ?_⟩
    rw [hidle r hr w1 hin] at htarget
    cases htarget

/-- A map in which something is merged is not well formed afterwards. -/
theorem FinalMap.not_wellFormed (hfin : FinalMap nodes highways s) (hc : Complete nodes highways)
    {node : NodeId} {r : WayrefPtr} {s' : OsmMap} (hr : r ∈ s.wayrefList node)
    (hin : s.inoutWay .fanIn r = some w1) (hmerge : s.mergeRoads w1 w2 = some s') :
    ¬ WellFormed s' := by
  intro hwf
  obtain ⟨h, hw, -, hloop, hlast⟩ := (hfin.fanIn_iff hc).mp ⟨r, hr, hin⟩
  obtain ⟨way, hway, ha⟩ := hfin.way hw
  have hnonempty : way.nodeSet ≠ [] := by
    rw [hc.nodeSet (mem_of_getElem? hw) ha, body, if_neg hloop]
    intro hnil
    rw [map_eq_nil_iff.mp hnil] at hlast
    cases hlast
  obtain ⟨e, he⟩ :=
    not_apart_of_mergeRoads hmerge hway hnonempty (hfin.mem_highwayList.mpr ⟨h, hw⟩)
  exact hwf.apart _ he rfl

theorem mergeWays_of_idle (h : ∀ node ∈ s.highwayNodeList, s.Idle node) :
    s.mergeWays = some (s, []) := by
  rcases mergeNodes_cases s s.highwayNodeList with ⟨-, hrun⟩ | ⟨node, hnode, r, hr, w1, w2, hin,
    htarget, -⟩
  · exact hrun
  · rw [h node hnode r hr w1 hin] at htarget
    cases htarget

end Final

/-- **References and ways** fit together through `finalize_highway` and `merge_ways` for exactly
the files that name nodes which are there, no node twice in a row, and nothing to merge. -/
theorem kept_iff (nodes : List NodeId) (highways : List Highway) :
    Kept nodes highways ↔ Meets nodes highways := by
  constructor
  · rintro ⟨s, hs, hwf, t, ss, hrun, hall⟩
    have hfin := finalMap_of_finalize hs
    have hc := hfin.complete hwf
    refine ⟨fun h hh => ?_, hc.size, hc.found, fun h hh p hp => ?_, fun h hh hunique => ?_⟩
    · obtain ⟨w, hw⟩ := getElem?_of_mem hh
      obtain ⟨way, -, ha⟩ := hfin.way hw
      exact fun hnil => ha.nonempty (by simp [Highway.createWay, hnil])
    · obtain ⟨w, hw⟩ := getElem?_of_mem hh
      obtain ⟨way, hway, ha⟩ := hfin.way hw
      intro heq
      refine hwf.apart (resolve nodes (.id p.1), resolve nodes (.id p.2)) ?_ (by rw [heq])
      refine mem_flatMap.mpr ⟨w, hfin.mem_highwayList.mpr ⟨h, hw⟩, ?_⟩
      rw [hway, map_some, getD_some, pairs_associated ha (hc.size h hh)]
      exact mem_map_of_mem hp
    · obtain ⟨node, hnode, hidle⟩ := (hfin.not_idle_iff hc).mpr ⟨h, hh, hunique⟩
      rcases mergeNodes_cases s s.highwayNodeList with ⟨hidles, -⟩ | ⟨node, -, r, hr, w1, w2, hin,
        -, hmerge⟩
      · exact hidle (hidles node hnode)
      · obtain ⟨s', hs', hmerged⟩ := hmerge t ss hrun
        exact hfin.not_wellFormed hc hr hin hmerged (hall s' hs').1
  · intro hm
    have hc : Complete nodes highways := ⟨hm.size, hm.found⟩
    obtain ⟨s, hs⟩ : ∃ s, (append nodes highways).finalizeHighway = some s := by
      refine associateNodes_isSome (refs_append nodes highways) nodup_range fun w hw => ?_
      obtain ⟨h, hh, -, hway⟩ := way_append nodes hw
      refine ⟨_, hway, isId_createWay h, ?_, ?_⟩
      · simpa [Highway.createWay] using hm.nonempty h hh
      · rw [length_createWay]
        exact hm.size h hh
    have hfin := finalMap_of_finalize hs
    refine ⟨s, hs, hfin.wellFormed hc hm.apart, s, [], ?_, fun s' hs' =>
      (not_mem_nil hs').elim⟩
    refine mergeWays_of_idle fun node hnode => ?_
    by_contra hidle
    obtain ⟨h, hh, hunique⟩ := (hfin.not_idle_iff hc).mp ⟨node, hnode, hidle⟩
    exact hm.unmerged h hh hunique

/-- A road in two one-way parts. -/
private def twoParts : List Highway :=
  [⟨none, true, false, 0, 0, 0, [1, 2]⟩, ⟨none, true, false, 0, 0, 0, [2, 3]⟩]

/-- The parts are merged, and node 2 is joined to itself. -/
theorem not_kept_twoParts : ¬ Kept [1, 2, 3] twoParts := by
  rintro ⟨s, hs, -, t, ss, hrun, hall⟩
  cases hs
  cases hrun
  exact (hall _ mem_cons_self).1.apart (.node 2, .node 2) (by decide) rfl

end OsmMap

end V2I.OsmParser
