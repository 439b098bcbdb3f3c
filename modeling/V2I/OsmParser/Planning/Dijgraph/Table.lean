import V2I.OsmParser.Planning.Dijgraph

/-!
# V2I.OsmParser.Planning.Dijgraph.Table

The map of edges and the table of distances of `dijgraph`, as the search of `V2I.Lib.Dijkstra` sees
them.
-/

namespace V2I.OsmParser.Dijgraph

open List Option

/-! ## The edges of a vertex -/

theorem find_addedge (g : Dijgraph) (s e : ℤ) (w : ℚ) (u : ℤ) : (g.addedge s e w).adj.find u =
    if u = s then some ((g.adj.find s).getD [] ++ [⟨s, e, w⟩]) else g.adj.find u := by
  unfold addedge
  split
  · next edges hfind =>
    rw [StdMap.find_modify]
    split
    · next hu => rw [hu, hfind, map_some, getD_some]
    · rfl
  · next hfind =>
    rw [StdMap.find_set, hfind]
    rfl

theorem entered_concat (edges : List Edge) (edge : Edge) : entered (edges ++ [edge]) =
    (entered edges).addedge edge.sid edge.eid edge.w := by
  simp [entered]

theorem getD_find_entered (edges : List Edge) (u : ℤ) :
    ((entered edges).adj.find u).getD [] = edges.filter fun edge => edge.sid = u := by
  induction edges using reverseRecOn with
  | nil => rfl
  | append_singleton edges edge ih =>
    rw [entered_concat, find_addedge, filter_append]
    split
    · next hu =>
      subst hu
      rw [ih]
      simp
    · next hu =>
      rw [ih]
      simp [Ne.symm hu]

theorem mem_ids_entered {edges : List Edge} {u : ℤ} :
    u ∈ (entered edges).ids ↔ ∃ edge ∈ edges, edge.sid = u := by
  rw [ids, mem_insertionSort, ← not_iff_not, ← StdMap.find_eq_none_iff]
  induction edges using reverseRecOn with
  | nil => simp [entered]
  | append_singleton edges edge ih =>
    rw [entered_concat, find_addedge]
    split
    · next hu => simp [hu]
    · next hu => simp [ih, Ne.symm hu]

theorem ids_nodup (g : Dijgraph) : g.ids.Nodup :=
  (perm_insertionSort _ _).nodup_iff.mpr g.adj.nodup

/-! ## The table -/

section Table

variable {ids : List ℤ} {vertexes : List Vertex} {v : Vertex} {i : ℕ}

/-- The place at which a vertex is looked for. -/
theorem exists_place (hids : vertexes.map Vertex.id = ids) (hne : ids ≠ []) (x : ℤ) :
    ∃ v, vertexes[(vertexes.findIdx? fun v => v.id = x).getD 0]? = some v ∧
      v.id = place ids x := by
  subst hids
  cases hfind : vertexes.findIdx? fun v => v.id = x with
  | none =>
    have hx : x ∉ vertexes.map Vertex.id := by
      rw [findIdx?_eq_none_iff] at hfind
      simpa using hfind
    obtain ⟨v, vs, rfl⟩ := exists_cons_of_ne_nil fun h => hne (congrArg _ h)
    exact ⟨v, rfl, by rw [place, if_neg hx]; rfl⟩
  | some i =>
    obtain ⟨hi, hid, -⟩ := findIdx?_eq_some_iff_getElem.mp hfind
    have hid : vertexes[i].id = x := by simpa using hid
    refine ⟨vertexes[i], by simp [hi], ?_⟩
    rw [place, if_pos (hid ▸ mem_map_of_mem (getElem_mem hi)), hid]

theorem find?_of_getElem? (hnodup : (vertexes.map Vertex.id).Nodup) (hi : vertexes[i]? = some v) :
    vertexes.find? (fun u => u.id = v.id) = some v := by
  induction vertexes generalizing i with
  | nil => cases hi
  | cons u vertexes ih =>
    rw [map_cons, nodup_cons] at hnodup
    cases i with
    | zero =>
      obtain rfl : u = v := some.inj hi
      simp
    | succ i =>
      have hmem : v.id ∈ vertexes.map Vertex.id :=
        mem_map_of_mem (mem_of_getElem? hi)
      have hne : u.id ≠ v.id := fun h => hnodup.1 (h ▸ hmem)
      rw [find?_cons_of_neg (by simpa using hne)]
      exact ih hnodup.2 hi

theorem find?_set (hnodup : (vertexes.map Vertex.id).Nodup) (hi : vertexes[i]? = some v)
    (dist : ℚ) (k : ℤ) : (vertexes.set i ⟨v.id, dist⟩).find? (fun u => u.id = k) =
      if k = v.id then some ⟨v.id, dist⟩ else vertexes.find? fun u => u.id = k := by
  induction vertexes generalizing i with
  | nil => cases hi
  | cons u vertexes ih =>
    rw [map_cons, nodup_cons] at hnodup
    cases i with
    | zero =>
      obtain rfl : u = v := some.inj hi
      by_cases hk : k = u.id <;> simp [hk, eq_comm]
    | succ i =>
      have hmem : v.id ∈ vertexes.map Vertex.id :=
        mem_map_of_mem (mem_of_getElem? hi)
      rw [set_cons_succ, find?_cons, find?_cons, ih hnodup.2 hi]
      by_cases hu : u.id = k
      · have hk : k ≠ v.id := fun h => hnodup.1 (hu ▸ h ▸ hmem)
        simp [hu, hk]
      · simp [hu]

theorem map_id_set (hi : vertexes[i]? = some v) (dist : ℚ) :
    (vertexes.set i ⟨v.id, dist⟩).map Vertex.id = vertexes.map Vertex.id := by
  obtain ⟨hlt, rfl⟩ := List.getElem?_eq_some_iff.mp hi
  have hself := List.set_getElem_self (hlt.trans_eq (List.length_map Vertex.id).symm)
  rw [List.getElem_map] at hself
  rw [map_set]
  exact hself

end Table

/-! ## The search -/

variable {Q : MinQueue}

/-- The state of the search, by the vertices. -/
def State.toSearch (st : State Q) : Search ℤ ℚ where
  dist k := ((st.vertexes.find? fun u => u.id = k).map Vertex.dist).getD dblMax
  parent := st.parent.find
  settled k := st.shortest.find k = some true
  queue := (Q.items st.queue).map fun v => (v.id, v.dist)

/-- The table holds the vertices. -/
structure State.Tabled (st : State Q) (ids : List ℤ) : Prop where
  map_id : st.vertexes.map Vertex.id = ids
  nodup : ids.Nodup

variable {st : State Q} {ids : List ℤ} {v : Vertex} {i : ℕ}

theorem State.Tabled.dist (h : st.Tabled ids) (hi : st.vertexes[i]? = some v) :
    st.toSearch.dist v.id = v.dist := by
  have hfind := find?_of_getElem? (h.map_id ▸ h.nodup) hi
  simp only [State.toSearch, hfind, map_some, getD_some]

/-- A vertex that is not in the table stays as far as can be. -/
theorem State.Tabled.dist_of_notMem (h : st.Tabled ids) {k : ℤ} (hk : k ∉ ids) :
    st.toSearch.dist k = dblMax := by
  have hfind : (st.vertexes.find? fun u => u.id = k) = none := by
    rw [find?_eq_none]
    rintro u hu
    simpa using fun hid : u.id = k => hk (h.map_id ▸ hid ▸ mem_map_of_mem hu)
  simp only [State.toSearch, hfind, map_none, getD_none]

theorem State.improve_of_getElem? (hi : st.vertexes[i]? = some v) (dist : ℚ) :
    st.improve i dist = { st with
      vertexes := st.vertexes.set i ⟨v.id, dist⟩
      queue := Q.push st.queue ⟨v.id, dist⟩ } := by
  unfold State.improve
  split
  · next hnone => cases hnone.symm.trans hi
  · next u hsome =>
    cases hsome.symm.trans hi
    rfl

theorem State.Tabled.improve (h : st.Tabled ids) (hi : st.vertexes[i]? = some v) (dist : ℚ) :
    (st.improve i dist).Tabled ids := by
  rw [State.improve_of_getElem? hi]
  exact ⟨(map_id_set hi dist).trans h.map_id, h.nodup⟩

theorem State.Tabled.improve_dist (h : st.Tabled ids) (hi : st.vertexes[i]? = some v) (dist : ℚ) :
    (st.improve i dist).toSearch.dist = Function.update st.toSearch.dist v.id dist := by
  rw [State.improve_of_getElem? hi]
  funext k
  simp only [State.toSearch, find?_set (h.map_id ▸ h.nodup) hi]
  by_cases hk : k = v.id
  · rw [if_pos hk, hk, Function.update_self]
    rfl
  · rw [if_neg hk, Function.update_of_ne hk]

theorem State.improve_queue (hi : st.vertexes[i]? = some v) (dist : ℚ) :
    (st.improve i dist).toSearch.queue = (v.id, dist) ::ₘ st.toSearch.queue := by
  rw [State.improve_of_getElem? hi]
  simp only [State.toSearch, Q.items_push, Multiset.map_cons]

variable {minVertex : Vertex} {curEdge : Edge}

/-- An edge is relaxed in the table as it is in the search. -/
theorem State.Tabled.relax (h : st.Tabled ids) (hne : ids ≠ []) (edges : List Edge)
    (hmin : minVertex.id = curEdge.sid) :
    (relax minVertex st curEdge).Tabled ids ∧ (relax minVertex st curEdge).toSearch =
      st.toSearch.relax (roads edges) (place ids) minVertex.dist curEdge := by
  obtain ⟨v, hi, hid⟩ := exists_place h.map_id hne curEdge.eid
  rw [← State.findIdx?] at hi
  have hdist : st.toSearch.dist (place ids curEdge.eid) = v.dist := hid ▸ h.dist hi
  unfold Dijgraph.relax
  simp only [hi]
  rw [Search.relax]
  by_cases hlt : minVertex.dist + curEdge.w < v.dist
  · rw [if_pos hlt, if_pos (hdist ▸ hlt)]
    have himprove := h.improve hi (minVertex.dist + curEdge.w)
    refine ⟨⟨himprove.map_id, himprove.nodup⟩, Search.ext ?_ ?_ ?_ ?_⟩
    · exact (h.improve_dist hi _).trans (by rw [hid]; rfl)
    · funext x
      exact (StdMap.find_set ..).trans (by rw [hmin]; exact (Function.update_apply ..).symm)
    · rw [State.improve_of_getElem? hi]
      rfl
    · exact (State.improve_queue hi _).trans (by rw [hid]; rfl)
  · rw [if_neg hlt, if_neg (hdist ▸ hlt)]
    exact ⟨h, rfl⟩

theorem State.improve_shortest (st : State Q) (i : ℕ) (dist : ℚ) :
    (st.improve i dist).shortest = st.shortest := by
  unfold State.improve
  split <;> rfl

theorem relax_shortest (st : State Q) : (relax minVertex st curEdge).shortest = st.shortest := by
  unfold relax
  dsimp only
  split
  · rfl
  · split
    · exact State.improve_shortest ..
    · rfl

theorem foldl_relax_shortest (todo : List Edge) (st : State Q) :
    (todo.foldl (relax minVertex) st).shortest = st.shortest := by
  induction todo generalizing st with
  | nil => rfl
  | cons edge todo ih => rw [foldl_cons, ih, relax_shortest]

/-- The edges of a vertex, one after the other -/
theorem State.Tabled.foldl_relax (h : st.Tabled ids) (hne : ids ≠ []) (edges : List Edge)
    {todo : List Edge} (htodo : ∀ edge ∈ todo, edge.sid = minVertex.id) :
    (todo.foldl (Dijgraph.relax minVertex) st).Tabled ids ∧
      (todo.foldl (Dijgraph.relax minVertex) st).toSearch =
        todo.foldl (Search.relax (roads edges) (place ids) minVertex.dist) st.toSearch := by
  induction todo generalizing st with
  | nil => exact ⟨h, rfl⟩
  | cons edge todo ih =>
    obtain ⟨hedge, htodo⟩ := forall_mem_cons.mp htodo
    obtain ⟨hrelax, hsearch⟩ := h.relax hne edges hedge.symm
    obtain ⟨hfold, hfoldSearch⟩ := ih hrelax htodo
    exact ⟨hfold, hfoldSearch.trans (by rw [hsearch]; rfl)⟩

/-! ## Where the search begins -/

variable (g : Dijgraph)

theorem State.new_tabled : (State.new Q g).Tabled g.ids :=
  ⟨by simp [State.new, Function.comp_def], g.ids_nodup⟩

theorem State.new_dist : (State.new Q g).toSearch.dist = fun _ => dblMax := by
  funext k
  have hfar : ∀ v ∈ (State.new Q g).vertexes, v.dist = dblMax := by simp [State.new]
  simp only [State.toSearch]
  cases hfind : (State.new Q g).vertexes.find? fun u => u.id = k with
  | none => rfl
  | some v => exact hfar v (mem_of_find?_eq_some hfind)

theorem find_foldl_set_false (ids : List ℤ) (shortest : StdMap ℤ Bool) (k : ℤ)
    (h : shortest.find k ≠ some true) :
    (ids.foldl (fun shortest id => shortest.set id false) shortest).find k ≠ some true := by
  induction ids generalizing shortest with
  | nil => exact h
  | cons id ids ih =>
    refine ih _ ?_
    rw [StdMap.find_set]
    split
    · simp
    · exact h

theorem State.new_settled : (State.new Q g).toSearch.settled = fun _ => False :=
  funext fun k => eq_false (find_foldl_set_false _ _ k (by simp))

variable {g : Dijgraph} {s : ℤ}

theorem start_of_mem (hs : s ∈ g.ids) : ∃ i v,
    (State.new Q g).vertexes[i]? = some v ∧ v.id = s ∧
      start Q g s = (State.new Q g).improve i 0 := by
  have hids := (State.new_tabled (Q := Q) g).map_id
  cases hfind : (State.new Q g).findIdx? s with
  | none =>
    rw [State.findIdx?, findIdx?_eq_none_iff] at hfind
    rw [← hids] at hs
    obtain ⟨v, hv, hid⟩ := mem_map.mp hs
    exact absurd hid (by simpa using hfind v hv)
  | some i =>
    obtain ⟨hi, hid, -⟩ := findIdx?_eq_some_iff_getElem.mp hfind
    refine ⟨i, _, getElem?_eq_getElem hi, by simpa using hid, ?_⟩
    rw [start, hfind]

theorem start_tabled (hs : s ∈ g.ids) : (start Q g s).Tabled g.ids := by
  obtain ⟨i, v, hi, -, hstart⟩ := start_of_mem (Q := Q) hs
  rw [hstart]
  exact (State.new_tabled g).improve hi 0

theorem start_toSearch (hs : s ∈ g.ids) : (start Q g s).toSearch = Search.start s dblMax := by
  obtain ⟨i, v, hi, rfl, hstart⟩ := start_of_mem (Q := Q) hs
  rw [hstart]
  refine Search.ext ?_ ?_ ?_ ?_
  · rw [(State.new_tabled g).improve_dist hi, State.new_dist]
    rfl
  · rw [State.improve_of_getElem? hi]
    rfl
  · rw [State.improve_of_getElem? hi]
    exact State.new_settled (Q := Q) g
  · rw [State.improve_queue hi]
    have hempty : (State.new Q g).toSearch.queue = 0 := by
      simp only [State.toSearch, State.new, Q.items_empty, Multiset.map_zero]
    rw [hempty]
    rfl

theorem start_of_notMem (hs : s ∉ g.ids) : start Q g s = .new Q g := by
  have hids := (State.new_tabled (Q := Q) g).map_id
  have hfind : (State.new Q g).findIdx? s = none := by
    rw [State.findIdx?, findIdx?_eq_none_iff]
    intro v hv
    rw [← hids] at hs
    simpa using fun hid : v.id = s => hs (hid ▸ mem_map_of_mem hv)
  rw [start, hfind]

end V2I.OsmParser.Dijgraph
