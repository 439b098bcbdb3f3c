import V2I.Lib.MapM
import V2I.MapCore.HdmapQuery.Nearest
import V2I.MapCore.Sdmap

/-!
# V2I.MapCore.Sdmap.NearestLinks

`search_nearest_links`: for each of the nodes nearest to a point its nearest link, in the order of
their distances. A node without links has the distance -1, and so comes first.
-/

namespace V2I.Sdmap

open Plane List Option
open Kdtree (Node kdtree2dSearch descend)
open HdmapQuery (searches)

variable {K : Type} [Field K] [LinearOrder K]

/-- `DEF_SEARCH_NODES` -/
def defSearchNodes : ℤ := 16

/-- `MAX_SEARCH_NODES` -/
def maxSearchNodes : ℤ := 256

/-- `MAX_SEARCH_LINKS` -/
def maxSearchLinks : ℤ := 256

/-- What the searches use of `sdmap_impl`: the scope of the file, the tree of its nodes, by latitude
and longitude, and the links of each node. The root of a file that is loaded is a node. -/
structure SdmapImpl (K : Type) where
  minlon : K
  minlat : K
  maxlon : K
  maxlat : K
  tree : Kdtree.Tree K
  root : tree.isNull = false
  links : ℕ → List (Link K)

/-- `sdmap_nearest_link_impl` -/
structure NearestLink (K : Type) where
  link : Option (Link K)
  node : Node K
  projection : K × K
  distance : K
  deriving DecidableEq

/-- `sdmap_nearest_link_compare` -/
def nearestLinkCompare (a b : NearestLink K) : Ordering :=
  if b.distance < a.distance then .gt else if a.distance < b.distance then .lt else .eq

/-- The link, the point and the distance that are kept: `dist` is `DBL_MAX` before the first. -/
def nearer (metric : Metric K) (src : K × K) (best : Option (Link K × (K × K) × K))
    (link : Link K) : Option (Option (Link K × (K × K) × K)) :=
  (pointToLink metric link src).map fun r =>
    match best with
    | none => some (link, r)
    | some b => if r.2 < b.2.2 then some (link, r) else some b

/-- `get_node_nearest_link`, none where it divides by zero. -/
def getNodeNearestLink (metric : Metric K) (links : List (Link K)) (src : K × K) :
    Option (Option (Link K × (K × K) × K)) :=
  links.foldlM (nearer metric src) none

/-- The number of nodes that are searched. -/
def nodeCount (nodeRange linkCount : ℤ) : ℤ :=
  let nodeRange :=
    if nodeRange = 0 then defSearchNodes
    else if maxSearchNodes < nodeRange then maxSearchNodes
    else nodeRange
  if nodeRange < linkCount then linkCount else nodeRange

namespace SdmapImpl

variable (m : SdmapImpl K)

/-- `in_scope` -/
def inScope (lat lon : K) : Bool := inRange m.minlon m.maxlon lon && inRange m.minlat m.maxlat lat

/-- The nodes that `search_nearest_nodes` stores, with clear flags before and behind it. -/
def searchedNodes (lat lon : K) (count : ℕ) : List (Node K) :=
  (searches m.tree ⟨lat, lon⟩ count fun _ => false).map Prod.fst

/-- What is kept for a node. -/
def nearestLink (metric : Metric K) (src : K × K) (node : Node K) : Option (NearestLink K) :=
  (getNodeNearestLink metric (m.links node.id) src).map fun
    | some (link, dst, dist) => ⟨some link, node, dst, dist⟩
    | none => ⟨none, node, (0, 0), -1⟩

/-- `search_nearest_links`: the return value, the links and `*nearest_node`. -/
def searchNearestLinks (metric : Metric K) (Q : Qsort (NearestLink K)) (lat lon : K)
    (nodeRange linkCount : ℤ) : Option (ℤ × List (NearestLink K) × Option (Node K)) :=
  if linkCount ≤ 0 ∨ maxSearchLinks < linkCount then some (-EBADPARM, [], none)
  else if !m.inScope lat lon then some (-EINVALID, [], none)
  else
    let nodeset := m.searchedNodes lat lon (nodeCount nodeRange linkCount).toNat
    (nodeset.mapM (m.nearestLink metric (lon, lat))).map fun linkset =>
      (0, (Q.sort nearestLinkCompare linkset).take linkCount.toNat, nodeset.head?)

/-! ## what is returned -/

/-- The call passes its checks. -/
def Accepts (lat lon : K) (linkCount : ℤ) : Prop :=
  0 < linkCount ∧ linkCount ≤ maxSearchLinks ∧ m.inScope lat lon = true

instance (lat lon : K) (linkCount : ℤ) : Decidable (m.Accepts lat lon linkCount) :=
  inferInstanceAs (Decidable (_ ∧ _))

/-- At least so many of the nodes have links. -/
def Enough (nodes : List (Node K)) (linkCount : ℤ) : Prop :=
  linkCount ≤ (nodes.countP fun node => m.links node.id ≠ [])

instance (nodes : List (Node K)) (linkCount : ℤ) : Decidable (m.Enough nodes linkCount) :=
  inferInstanceAs (Decidable (_ ≤ _))

/-- The links are returned in the order of their distances, and are links when enough of the nodes
have some. -/
def ReturnsLinks (metric : Metric K) (Q : Qsort (NearestLink K)) (lat lon : K)
    (nodeRange linkCount : ℤ) : Prop :=
  m.Accepts lat lon linkCount → ∃ links nearest,
    m.searchNearestLinks metric Q lat lon nodeRange linkCount = some (0, links, nearest) ∧
      links.length = linkCount ∧ (links.Pairwise fun a b => a.distance ≤ b.distance) ∧
      (m.Enough (m.searchedNodes lat lon (nodeCount nodeRange linkCount).toNat) linkCount →
        ∀ e ∈ links, e.link ≠ none)

/-- No link of the nodes has a constant longitude; and when enough of the nodes have links, all of
them have. -/
def Linked (nodes : List (Node K)) (linkCount : ℤ) : Prop :=
  (∀ node ∈ nodes, ∀ link ∈ m.links node.id, link.node1.1 ≠ link.node2.1) ∧
    (m.Enough nodes linkCount → ∀ node ∈ nodes, m.links node.id ≠ [])

/-- What is kept for a node is the nearest of all points of its links. -/
def NearestOf (metric : Metric K) (src : K × K) (e : NearestLink K) : Prop :=
  ∀ link ∈ e.link, link ∈ m.links e.node.id ∧
    Nearest metric link src (e.projection, e.distance) ∧
    ∀ link' ∈ m.links e.node.id, ∀ z ∈ segment K link'.node1 link'.node2,
      e.distance ≤ metric.distance src z

end SdmapImpl

/-! ## the nodes -/

omit [Field K] in
theorem descend_eq_cons (q : Point K) {t : Kdtree.Tree K} {path : List (Kdtree.Tree K)}
    (h : t.isNull = false ∨ ∃ l v s r rest, path = .node l v s r :: rest) :
    ∃ l v s r rest, descend q t path = .node l v s r :: rest := by
  induction t generalizing path with
  | null =>
      obtain hnull | ⟨l, v, s, r, rest, rfl⟩ := h
      · cases hnull
      · exact ⟨l, v, s, r, rest, rfl⟩
  | node l v s r ihl ihr =>
      rw [descend]
      split_ifs
      · exact ihl (.inr ⟨l, v, s, r, path, rfl⟩)
      · exact ihr (.inr ⟨l, v, s, r, path, rfl⟩)

/-- Every search of a tree returns a node. -/
theorem length_searches {t : Kdtree.Tree K} (ht : t.isNull = false) (q : Point K) (n : ℕ)
    (selected : ℕ → Bool) : (searches t q n selected).length = n := by
  induction n generalizing selected with
  | zero => rfl
  | succ n ih =>
      have hdescend : ∃ l v s r rest, descend q t [] = .node l v s r :: rest :=
        descend_eq_cons q (.inl ht)
      obtain ⟨l, v, s, r, rest, hpath⟩ := hdescend
      have hfound : ∃ v d selected', kdtree2dSearch selected q t = some ⟨some v, d, selected'⟩ := by
        rw [kdtree2dSearch, hpath]
        exact ⟨_, _, _, rfl⟩
      obtain ⟨v, d, selected', hfound⟩ := hfound
      rw [searches, hfound]
      simp only [length_cons, ih]

theorem SdmapImpl.length_searchedNodes (m : SdmapImpl K) (lat lon : K) (n : ℕ) :
    (m.searchedNodes lat lon n).length = n := by
  rw [searchedNodes, length_map, length_searches m.root]

theorem linkCount_le_nodeCount (nodeRange linkCount : ℤ) :
    linkCount ≤ nodeCount nodeRange linkCount := by
  unfold nodeCount
  dsimp only
  split_ifs <;> omega

/-! ## the link of a node -/

section

variable [IsStrictOrderedRing K] (metric : Metric K) (src : K × K) {link : Link K}

theorem pointToLink_isSome_iff :
    (pointToLink metric link src).isSome ↔ link.node1.1 ≠ link.node2.1 := by
  constructor
  · intro h hlon
    rw [pointToLink, if_pos (sub_eq_zero.mpr hlon)] at h
    cases h
  · intro hlon
    obtain ⟨t, -, -, hrun, -⟩ := metric.pointToLink_eq hlon src
    rw [hrun, isSome_some]

/-- The distance is that of the point. -/
theorem pointToLink_nonneg {r : (K × K) × K} (h : pointToLink metric link src = some r) :
    0 ≤ r.2 := by
  have hlon := (pointToLink_isSome_iff metric src).mp (isSome_of_eq_some h)
  obtain ⟨t, -, -, hrun, -⟩ := metric.pointToLink_eq hlon src
  cases hrun.symm.trans h
  exact metric.distance_nonneg _ _

/-- What is kept of some links: the least of what was found for them. -/
def Kept (metric : Metric K) (src : K × K) (links : List (Link K))
    (best : Option (Link K × (K × K) × K)) : Prop :=
  (∀ b ∈ best, b.1 ∈ links ∧ pointToLink metric b.1 src = some b.2) ∧
    ∀ link ∈ links, ∃ b ∈ best, ∀ r, pointToLink metric link src = some r → b.2.2 ≤ r.2

variable {best best' : Option (Link K × (K × K) × K)} {links : List (Link K)}

omit [IsStrictOrderedRing K] in
/-- **A round** keeps the least. -/
theorem kept_nearer (h : Kept metric src links best)
    (hstep : nearer metric src best link = some best') :
    Kept metric src (links ++ [link]) best' := by
  obtain ⟨r, hr, hbest⟩ := map_eq_some_iff.mp hstep
  obtain ⟨hmem, hleast⟩ := h
  have hsame : ∀ r', pointToLink metric link src = some r' → r' = r := fun r' hr' =>
    some.inj (hr'.symm.trans hr)
  have hlink : ∀ b ∈ (some (link, r)), b.1 ∈ links ++ [link] ∧
      pointToLink metric b.1 src = some b.2 := by
    rintro b hb
    cases hb
    exact ⟨by simp, hr⟩
  cases best with
  | none =>
      cases hbest
      refine ⟨hlink, fun link' hlink' => ?_⟩
      rcases mem_append.mp hlink' with hold | hnew
      · obtain ⟨b, hb, -⟩ := hleast link' hold
        cases hb
      · rw [mem_singleton.mp hnew]
        exact ⟨_, rfl, fun r' hr' => by rw [hsame r' hr']⟩
  | some b =>
      dsimp only at hbest
      split_ifs at hbest with hlt
      · cases hbest
        refine ⟨hlink, fun link' hlink' => ⟨_, rfl, fun r' hr' => ?_⟩⟩
        rcases mem_append.mp hlink' with hold | hnew
        · obtain ⟨b', hb', hle⟩ := hleast link' hold
          cases hb'
          exact hlt.le.trans (hle r' hr')
        · rw [hsame r' (mem_singleton.mp hnew ▸ hr')]
      · cases hbest
        refine ⟨fun b' hb' => ?_, fun link' hlink' => ⟨_, rfl, fun r' hr' => ?_⟩⟩
        · obtain ⟨hold, hfound⟩ := hmem b' hb'
          exact ⟨mem_append_left _ hold, hfound⟩
        · rcases mem_append.mp hlink' with hold | hnew
          · obtain ⟨b', hb', hle⟩ := hleast link' hold
            cases hb'
            exact hle r' hr'
          · rw [hsame r' (mem_singleton.mp hnew ▸ hr')]
            exact not_lt.mp hlt

omit [IsStrictOrderedRing K] in
theorem kept_foldlM {rest : List (Link K)} (h : Kept metric src links best)
    (hrun : rest.foldlM (nearer metric src) best = some best') :
    Kept metric src (links ++ rest) best' := by
  induction rest generalizing links best with
  | nil =>
      cases hrun
      rwa [append_nil]
  | cons link rest ih =>
      rw [foldlM_cons] at hrun
      obtain ⟨best₁, hstep, hrest⟩ := bind_eq_some_iff.mp hrun
      rw [append_cons]
      exact ih (kept_nearer metric src h hstep) hrest

omit [IsStrictOrderedRing K] in
/-- **The links of a node**: what is kept is the least. -/
theorem kept_getNodeNearestLink (h : getNodeNearestLink metric links src = some best) :
    Kept metric src links best := by
  have hnone : Kept metric src [] none :=
    ⟨fun _ hb => (by cases hb), fun _ hlink => (by cases hlink)⟩
  exact kept_foldlM metric src hnone h

/-- The loop over the links divides by zero at a link of constant longitude. -/
theorem getNodeNearestLink_isSome_iff :
    (getNodeNearestLink metric links src).isSome ↔
      ∀ link ∈ links, link.node1.1 ≠ link.node2.1 := by
  have hloop : ∀ best, (links.foldlM (nearer metric src) best).isSome ↔
      ∀ link ∈ links, link.node1.1 ≠ link.node2.1 := by
    induction links with
    | nil => simp
    | cons link links ih =>
        intro best
        rw [foldlM_cons, forall_mem_cons, ← pointToLink_isSome_iff metric src]
        cases hr : pointToLink metric link src with
        | none => simp [nearer, hr]
        | some r =>
            rw [nearer, hr, map_some, bind_eq_bind, bind_some, ih]
            simp
  exact hloop none

variable {m : SdmapImpl K} {node : Node K} {e : NearestLink K}

/-- **What is kept for a node**: the least of its links, or the distance -1 where it has none. -/
theorem nearestLink_spec (h : m.nearestLink metric src node = some e) :
    e.node = node ∧ ((e.link = none ∧ e.distance = -1 ∧ m.links node.id = []) ∨
      ∃ link, e.link = some link ∧ 0 ≤ e.distance ∧ link ∈ m.links node.id ∧
        pointToLink metric link src = some (e.projection, e.distance) ∧
        ∀ link' ∈ m.links node.id, ∀ r, pointToLink metric link' src = some r →
          e.distance ≤ r.2) := by
  obtain ⟨best, hbest, rfl⟩ := map_eq_some_iff.mp h
  obtain ⟨hmem, hleast⟩ := kept_getNodeNearestLink metric src hbest
  cases best with
  | none =>
      refine ⟨rfl, .inl ⟨rfl, rfl, eq_nil_iff_forall_not_mem.mpr fun link hlink => ?_⟩⟩
      obtain ⟨b, hb, -⟩ := hleast link hlink
      cases hb
  | some b =>
      obtain ⟨link, dst, dist⟩ := b
      obtain ⟨hlink, hfound⟩ := hmem _ rfl
      refine ⟨rfl, .inr ⟨link, rfl, pointToLink_nonneg metric src hfound, hlink, hfound, ?_⟩⟩
      intro link' hlink' r hr
      obtain ⟨b, hb, hle⟩ := hleast link' hlink'
      cases hb
      exact hle r hr

theorem nearestLink_isSome_iff :
    (m.nearestLink metric src node).isSome ↔
      ∀ link ∈ m.links node.id, link.node1.1 ≠ link.node2.1 := by
  rw [SdmapImpl.nearestLink, isSome_map, getNodeNearestLink_isSome_iff]

/-- A node has a link kept for it exactly when it has links. -/
theorem link_ne_none_iff (h : m.nearestLink metric src node = some e) :
    e.link ≠ none ↔ m.links node.id ≠ [] := by
  obtain ⟨-, ⟨hnone, -, hnil⟩ | ⟨link, hlink, -, hmem, -⟩⟩ := nearestLink_spec metric src h
  · exact iff_of_false (not_not.mpr hnone) (not_not.mpr hnil)
  · exact iff_of_true (by rw [hlink]; exact nofun) (ne_nil_of_mem hmem)

/-- **The link of a node** is the nearest of its links when all of them are measurable. -/
theorem nearestLink_nearest (h : m.nearestLink metric src node = some e)
    (hlinks : ∀ link ∈ m.links node.id, Measurable link src) : m.NearestOf metric src e := by
  obtain ⟨rfl, ⟨hnone, -⟩ | ⟨link, hlink, -, hmem, hfound, hleast⟩⟩ := nearestLink_spec metric src h
  · intro link hlink
    rw [hnone] at hlink
    cases hlink
  · intro link' hlink'
    cases hlink.symm.trans hlink'
    obtain ⟨r, hr, hnearest⟩ := (nearest_iff metric link src).mpr (hlinks link hmem)
    cases hr.symm.trans hfound
    refine ⟨hmem, hnearest, fun link' hmem' z hz => ?_⟩
    obtain ⟨r, hr, hnearest'⟩ := (nearest_iff metric link' src).mpr (hlinks link' hmem')
    exact (hleast link' hmem' r hr).trans (hnearest'.least z hz)

end

/-! ## the links that are returned -/

section

variable [IsStrictOrderedRing K] {metric : Metric K} {m : SdmapImpl K} {lat lon : K}
  {nodeRange linkCount : ℤ}

variable (Q : Qsort (NearestLink K))

omit [IsStrictOrderedRing K] in
/-- **A call that is accepted** returns the first of the sorted entries. -/
theorem searchNearestLinks_eq (h : m.Accepts lat lon linkCount) :
    m.searchNearestLinks metric Q lat lon nodeRange linkCount =
      ((m.searchedNodes lat lon (nodeCount nodeRange linkCount).toNat).mapM
        (m.nearestLink metric (lon, lat))).map fun linkset =>
          (0, (Q.sort nearestLinkCompare linkset).take linkCount.toNat,
            (m.searchedNodes lat lon (nodeCount nodeRange linkCount).toNat).head?) := by
  obtain ⟨hpos, hle, hin⟩ := h
  rw [SdmapImpl.searchNearestLinks, if_neg (by omega), hin]
  rfl

/-- The entry of a node without links comes first, and its link is null. -/
theorem link_none_of_head {src : K × K} {nodes : List (Node K)} {l : List (NearestLink K)}
    (hl : ∀ e, e ∈ l ↔ ∃ node ∈ nodes, m.nearestLink metric src node = some e)
    (hsorted : l.Pairwise fun a b => a.distance ≤ b.distance) {node : Node K}
    (hsome : (m.nearestLink metric src node).isSome) (hnode : node ∈ nodes)
    (hnil : m.links node.id = []) : ∃ e, l.head? = some e ∧ e.link = none := by
  obtain ⟨e, he⟩ := isSome_iff_exists.mp hsome
  have hmem := (hl e).mpr ⟨node, hnode, he⟩
  have hdist : e.distance = -1 := by
    obtain ⟨-, ⟨-, hdist, -⟩ | ⟨link, -, -, hlink, -⟩⟩ := nearestLink_spec metric src he
    · exact hdist
    · exact absurd hnil (ne_nil_of_mem hlink)
  cases l with
  | nil => cases hmem
  | cons first rest =>
      have hle : first.distance ≤ -1 := by
        rcases mem_cons.mp hmem with rfl | hrest
        · exact hdist.le
        · exact hdist ▸ rel_of_pairwise_cons hsorted hrest
      obtain ⟨node', -, hfirst⟩ := (hl first).mp mem_cons_self
      refine ⟨first, rfl, ?_⟩
      obtain ⟨-, ⟨hnone, -⟩ | ⟨link, -, hnonneg, -⟩⟩ := nearestLink_spec metric src hfirst
      · exact hnone
      · exact absurd (hnonneg.trans hle) (by simp)

/-- **The links are returned** in order and are links unless there is a link of constant longitude
or a node without links among enough others. -/
theorem returnsLinks_iff :
    m.ReturnsLinks metric Q lat lon nodeRange linkCount ↔
      (m.Accepts lat lon linkCount →
        m.Linked (m.searchedNodes lat lon (nodeCount nodeRange linkCount).toNat) linkCount) := by
  unfold SdmapImpl.ReturnsLinks
  refine forall_congr' fun haccepts => ?_
  rw [searchNearestLinks_eq Q haccepts]
  have hlength := m.length_searchedNodes lat lon (nodeCount nodeRange linkCount).toNat
  have hcount := linkCount_le_nodeCount nodeRange linkCount
  generalize hnodes : m.searchedNodes lat lon (nodeCount nodeRange linkCount).toNat = nodes
    at hlength ⊢
  have hall : (nodes.mapM (m.nearestLink metric (lon, lat))).isSome ↔
      ∀ node ∈ nodes, ∀ link ∈ m.links node.id, link.node1.1 ≠ link.node2.1 := by
    rw [mapM_isSome_iff]
    exact forall₂_congr fun _ _ => nearestLink_isSome_iff metric _
  unfold SdmapImpl.Linked
  rw [← hall]
  cases hlinkset : nodes.mapM (m.nearestLink metric (lon, lat)) with
  | none => simp
  | some linkset =>
      have hmem : ∀ e, e ∈ Q.sort nearestLinkCompare linkset ↔
          ∃ node ∈ nodes, m.nearestLink metric (lon, lat) node = some e := fun e =>
        (Q.perm _ _).mem_iff.trans (mem_of_mapM hlinkset)
      have hsorted : (Q.sort nearestLinkCompare linkset).Pairwise fun a b =>
          a.distance ≤ b.distance :=
        Q.pairwise_sort (fun _ _ => rfl) linkset
      have hsize : ((Q.sort nearestLinkCompare linkset).take linkCount.toNat).length =
          linkCount := by
        rw [length_take, Q.length_sort, length_mapM hlinkset, hlength]
        have := haccepts.1
        omega
      simp only [map_some, some.injEq, Prod.mk.injEq, true_and, isSome_some]
      constructor
      · rintro ⟨links, nearest, ⟨rfl, -⟩, -, -, hlinks⟩ henough node hnode hnil
        -- a node without links has the least distance, and its entry is returned
        have hsome := mapM_isSome_iff.mp (isSome_of_eq_some hlinkset) node hnode
        obtain ⟨first, hhead, hnone⟩ := link_none_of_head hmem hsorted hsome hnode hnil
        refine hlinks henough first (mem_of_mem_head? ?_) hnone
        rw [head?_take, if_neg (by have := haccepts.1; omega), hhead]
        rfl
      · intro hlinked
        refine ⟨_, _, ⟨rfl, rfl⟩, hsize, hsorted.sublist (take_sublist _ _), ?_⟩
        intro henough e he
        obtain ⟨node, hnode, hfound⟩ := (hmem e).mp (mem_of_mem_take he)
        exact (link_ne_none_iff metric _ hfound).mpr (hlinked henough node hnode)

/-- **The links returned** are the nearest of their nodes when all links of these are measurable. -/
theorem searchNearestLinks_nearest {Q : Qsort (NearestLink K)} {links : List (NearestLink K)}
    {nearest : Option (Node K)} (haccepts : m.Accepts lat lon linkCount)
    (hlinks : ∀ node ∈ m.searchedNodes lat lon (nodeCount nodeRange linkCount).toNat,
      ∀ link ∈ m.links node.id, Measurable link (lon, lat))
    (h : m.searchNearestLinks metric Q lat lon nodeRange linkCount = some (0, links, nearest)) :
    ∀ e ∈ links, m.NearestOf metric (lon, lat) e := by
  rw [searchNearestLinks_eq Q haccepts] at h
  obtain ⟨linkset, hlinkset, hreturned⟩ := map_eq_some_iff.mp h
  cases hreturned
  intro e he
  have hmem := (Q.perm _ _).mem_iff.mp (mem_of_mem_take he)
  obtain ⟨node, hnode, hfound⟩ := (mem_of_mapM hlinkset).mp hmem
  exact nearestLink_nearest metric _ hfound (hlinks node hnode)

end

/-- **The nearest point of a link** is found exactly when the link is measurable; and the links are
returned in order, and as links, exactly when no link of the searched nodes has a constant
longitude and enough nodes with links leave none without. -/
theorem nearestLinks_iff [IsStrictOrderedRing K] (metric : Metric K) (Q : Qsort (NearestLink K))
    (m : SdmapImpl K) :
    (∀ link src, (∃ r, pointToLink metric link src = some r ∧ Nearest metric link src r) ↔
      Measurable link src) ∧
    ∀ lat lon nodeRange linkCount,
      (m.ReturnsLinks metric Q lat lon nodeRange linkCount ↔
        (m.Accepts lat lon linkCount →
          m.Linked (m.searchedNodes lat lon (nodeCount nodeRange linkCount).toNat) linkCount)) ∧
      (m.Accepts lat lon linkCount →
        (∀ node ∈ m.searchedNodes lat lon (nodeCount nodeRange linkCount).toNat,
          ∀ link ∈ m.links node.id, Measurable link (lon, lat)) →
        ∀ links nearest,
          m.searchNearestLinks metric Q lat lon nodeRange linkCount = some (0, links, nearest) →
            ∀ e ∈ links, m.NearestOf metric (lon, lat) e) := by
  refine ⟨nearest_iff metric, fun lat lon nodeRange linkCount => ⟨returnsLinks_iff Q, ?_⟩⟩
  intro haccepts hlinks links nearest hsearch
  exact searchNearestLinks_nearest haccepts hlinks hsearch

/-- The square of the distance. -/
def squared : Metric ℚ where
  ofSq := id
  strictMono := strictMonoOn_id
  zero_le := le_rfl

/-- Two nodes of a map, at (0, 0) and at (3, 3). -/
def twoNodes (links : ℕ → List (Link ℚ)) : SdmapImpl ℚ where
  minlon := 0
  minlat := 0
  maxlon := 4
  maxlat := 4
  tree := .node .null ⟨0, ⟨0, 0⟩⟩ .x (.node .null ⟨1, ⟨3, 3⟩⟩ .x .null)
  root := rfl
  links := links

/-- A link that climbs. -/
def climbing : Link ℚ := ⟨(0, 0), (3, 3)⟩

/-- Both nodes have the link between them. -/
theorem nearestLinks_iff_climbing :
    (∃ r, pointToLink squared climbing (1, 0) = some r ∧ Nearest squared climbing (1, 0) r) ∧
      (twoNodes fun _ => [climbing]).ReturnsLinks squared (Qsort.insertion _) 0 1 2 2 := by
  have h := nearestLinks_iff squared (Qsort.insertion _) (twoNodes fun _ => [climbing])
  refine ⟨(h.1 climbing (1, 0)).mpr ⟨by decide, .inl (by decide)⟩, (h.2 0 1 2 2).1.mpr fun _ => ?_⟩
  refine ⟨fun node _ link hlink => ?_, fun _ node _ => cons_ne_nil _ _⟩
  rw [mem_singleton.mp hlink]
  decide

theorem searchedNodes_twoNodes (links : ℕ → List (Link ℚ)) :
    (twoNodes links).searchedNodes 1 1 2 = [⟨0, ⟨0, 0⟩⟩, ⟨1, ⟨3, 3⟩⟩] := by
  have hnearer : (2 : WithTop ℚ) < 8 := WithTop.coe_lt_coe.mpr (by norm_num : (2 : ℚ) < 8)
  have hfirst : kdtree2dSearch (fun _ => false) ⟨1, 1⟩ (twoNodes links).tree =
      some ⟨some ⟨0, ⟨0, 0⟩⟩, ((2 : ℚ) : WithTop ℚ), Function.update (fun _ => false) 0 true⟩ := by
    norm_num [twoNodes, kdtree2dSearch, descend, Kdtree.Split.coord, Kdtree.rewalk, Kdtree.tmp,
      Kdtree.distanceSq, Kdtree.crosses, Kdtree.farChild, Kdtree.Tree.isNull, Kdtree.improve,
      hnearer]
  have hsecond : kdtree2dSearch (Function.update (fun _ => false) 0 true) ⟨1, 1⟩
      (twoNodes links).tree = some ⟨some ⟨1, ⟨3, 3⟩⟩, ((8 : ℚ) : WithTop ℚ),
        Function.update (Function.update (fun _ => false) 0 true) 1 true⟩ := by
    norm_num [twoNodes, kdtree2dSearch, descend, Kdtree.Split.coord, Kdtree.rewalk, Kdtree.tmp,
      Kdtree.distanceSq, Kdtree.crosses, Kdtree.farChild, Kdtree.Tree.isNull, Kdtree.improve]
  simp only [SdmapImpl.searchedNodes, searches, hfirst, hsecond, map_cons, map_nil]

/-- An end of a link of constant latitude is returned for a source above its middle; a link of
constant longitude divides by zero; and a node without links comes before one that has a link. -/
theorem not_nearestLinks :
    (pointToLink squared ⟨(0, 0), (2, 0)⟩ (1, 1) = some ((2, 0), 2) ∧
      ¬ Nearest squared ⟨(0, 0), (2, 0)⟩ (1, 1) ((2, 0), 2)) ∧
    pointToLink squared ⟨(0, 0), (0, 2)⟩ (1, 1) = none ∧
    ((twoNodes fun id => if id = 0 then [climbing] else []).searchNearestLinks squared
        (Qsort.insertion _) 1 1 2 1 =
      some (0, [⟨none, ⟨1, ⟨3, 3⟩⟩, (0, 0), -1⟩], some ⟨0, ⟨0, 0⟩⟩) ∧
      ¬ (twoNodes fun id => if id = 0 then [climbing] else []).ReturnsLinks squared
        (Qsort.insertion _) 1 1 2 1) := by
  have hend : pointToLink squared ⟨(0, 0), (2, 0)⟩ (1, 1) = some ((2, 0), 2) := by decide +kernel
  have hcount : (nodeCount 2 1).toNat = 2 := by decide
  have haccepts : (twoNodes fun id => if id = 0 then [climbing] else []).Accepts 1 1 1 := by
    decide +kernel
  refine ⟨⟨hend, fun h => ?_⟩, by decide +kernel, ?_, fun h => ?_⟩
  · have hmeasurable := (nearest_iff squared _ _).mp ⟨_, hend, h⟩
    exact absurd hmeasurable (by decide +kernel)
  · rw [searchNearestLinks_eq _ haccepts, hcount, searchedNodes_twoNodes]
    decide +kernel
  · have hlinked := (returnsLinks_iff _).mp h haccepts
    rw [hcount, searchedNodes_twoNodes] at hlinked
    exact hlinked.2 (by decide +kernel) ⟨1, ⟨3, 3⟩⟩ (by decide) rfl

end V2I.Sdmap
