import V2I.OsmParser.Planning.Dijgraph.Table

/-!
# V2I.OsmParser.Planning.Dijgraph.Shortest

The loop of `dijkstra` keeps the invariant of the search, ends, and leaves parents behind which
`print` leads back to the start.
-/

namespace V2I.OsmParser.Dijgraph

open List

variable {Q : MinQueue} {edges : List Edge} {s e : ℤ} {st : State Q} {ids : List ℤ}

theorem place_of_mem {id : ℤ} (h : id ∈ ids) : place ids id = id := if_pos h

/-- Only a vertex in the table is taken out of the queue. -/
theorem mem_ids_of_queue {bound : ℚ} {todo : List Edge} (htabled : st.Tabled ids)
    (h : Search.Invariant (roads edges) (place ids) s dblMax st.toSearch bound todo) {x : ℤ × ℚ}
    (hx : x ∈ st.toSearch.queue) : x.1 ∈ ids := by
  obtain ⟨-, hle, hlt⟩ := h.queue x hx
  by_contra hnot
  rw [htabled.dist_of_notMem hnot] at hle
  exact (hle.trans_lt hlt).false

/-! ## The loop -/

/-- The edges that the search can come to: it stops at its end. -/
def ahead (edges : List Edge) (e : ℤ) : List Edge := edges.filter fun edge => edge.sid ≠ e

theorem ahead_subset (edges : List Edge) (e : ℤ) : ahead edges e ⊆ edges := filter_subset_self _

theorem Measured.ahead (h : Measured edges) (e : ℤ) : Measured (ahead edges e) where
  nonneg edge hedge := h.nonneg edge (ahead_subset edges e hedge)
  below s es e' hwalk := h.below s es e' (hwalk.mono (g := roads edges) (ahead_subset edges e))

/-- What each round keeps -/
structure Keeps (edges : List Edge) (s e : ℤ) (st : State Q) : Prop where
  tabled : st.Tabled (entered edges).ids
  invariant : ∃ bound, Search.Invariant (roads (ahead edges e)) (place (entered edges).ids) s dblMax
    st.toSearch bound []

/-- The vertices that are not done with, and the entries of the queue -/
def left (edges : List Edge) (st : State Q) : ℕ × ℕ :=
  (((entered edges).ids.filter fun id => st.shortest.find id ≠ some true).length,
    (Q.items st.queue).card)

/-- What is taken out of the queue. -/
theorem queue_of_pop {minVertex : Vertex} {queue : Q.Queue}
    (hpop : Q.pop st.queue = some (minVertex, queue)) :
    st.toSearch.queue = (minVertex.id, minVertex.dist) ::ₘ
        (Q.items queue).map (fun v => (v.id, v.dist)) ∧
      ∀ x ∈ st.toSearch.queue, minVertex.dist ≤ x.2 := by
  obtain ⟨hitems, hmin⟩ := Q.items_of_some _ _ _ hpop
  constructor
  · simp only [State.toSearch, hitems, Multiset.map_cons]
  · intro x hx
    obtain ⟨v, hv, rfl⟩ := Multiset.mem_map.mp hx
    exact hmin v hv

theorem settle_toSearch (st : State Q) (id : ℤ) (queue : Q.Queue) : (st.settle id queue).toSearch =
    st.toSearch.settle id ((Q.items queue).map fun v => (v.id, v.dist)) := by
  refine Search.ext rfl rfl ?_ rfl
  funext k
  refine propext ?_
  simp only [State.toSearch, State.settle, Search.settle, StdMap.find_set]
  split
  · next hk => simp [hk]
  · next hk => simp [hk]

/-- One vertex less is left. -/
theorem length_unsettled_lt {shortest : StdMap ℤ Bool} {id : ℤ} (hid : id ∈ ids)
    (hfind : shortest.find id ≠ some true) :
    (ids.filter fun k => (shortest.set id true).find k ≠ some true).length <
      (ids.filter fun k => shortest.find k ≠ some true).length := by
  have hless : (ids.filter fun k => (shortest.set id true).find k ≠ some true) =
      (ids.filter fun k => shortest.find k ≠ some true).filter fun k => k ≠ id := by
    rw [filter_filter]
    refine filter_congr fun k _ => ?_
    rw [StdMap.find_set]
    by_cases hk : k = id <;> simp [hk]
  rw [hless, length_filter_lt_length_iff_exists]
  exact ⟨id, by simp [hid, hfind], by simp⟩

theorem Keeps.step (hedges : Measured edges) (hs : s ∈ (entered edges).ids)
    (h : Keeps edges s e st) {st' : State Q} (hstep : (entered edges).step e st = .inr st') :
    Keeps edges s e st' ∧ Prod.Lex (· < ·) (· < ·) (left edges st') (left edges st) := by
  obtain ⟨htabled, bound, hinv⟩ := h
  unfold Dijgraph.step at hstep
  split at hstep
  · cases hstep
  · next minVertex queue hpop =>
    obtain ⟨hqueue, hmin⟩ := queue_of_pop hpop
    split at hstep
    · cases hstep
    next hend =>
      split at hstep
      · next hsettled =>
        cases hstep
        refine ⟨⟨⟨htabled.map_id, htabled.nodup⟩, _, hinv.skip hqueue hmin hsettled⟩, ?_⟩
        have hitems := (Q.items_of_some _ _ _ hpop).1
        refine .right _ ?_
        rw [hitems, Multiset.card_cons]
        exact Nat.lt_succ_self _
      · next hsettled =>
        cases hstep
        have hpopped : (minVertex.id, minVertex.dist) ∈ st.toSearch.queue :=
          hqueue ▸ Multiset.mem_cons_self _ _
        have hmem := mem_ids_of_queue htabled hinv hpopped
        rw [getD_find_entered]
        have htodo : ∀ edge, edge ∈ edges.filter (fun edge => edge.sid = minVertex.id) ↔
            edge ∈ ahead edges e ∧ edge.sid = minVertex.id := by
          intro edge
          simp only [ahead, mem_filter, decide_eq_true_eq, and_assoc]
          exact and_congr_right fun _ => ⟨fun hsid => ⟨hsid ▸ hend, hsid⟩, fun h => h.2⟩
        have hfold := (hinv.settle hqueue hmin hsettled htodo).foldl_relax (place_of_mem hs)
          (hedges.ahead e).nonneg
        rw [← settle_toSearch] at hfold
        have hsettled' : (st.settle minVertex.id queue).Tabled (entered edges).ids :=
          ⟨htabled.map_id, htabled.nodup⟩
        obtain ⟨hfoldTabled, hfoldSearch⟩ := hsettled'.foldl_relax (ne_nil_of_mem hmem)
          (ahead edges e) fun edge hedge => ((htodo edge).mp hedge).2
        refine ⟨⟨hfoldTabled, _, hfoldSearch ▸ hfold⟩, .left _ _ ?_⟩
        rw [foldl_relax_shortest]
        exact length_unsettled_lt hmem hsettled

theorem dblMax_pos : 0 < dblMax :=
  sub_pos.mpr (pow_lt_pow_right₀ one_lt_two (by decide))

theorem keeps_start (hs : s ∈ (entered edges).ids) (e : ℤ) :
    Keeps edges s e (start Q (entered edges) s) where
  tabled := start_tabled hs
  invariant := ⟨0, start_toSearch (Q := Q) hs ▸ Search.invariant_start dblMax_pos⟩

variable {parent : StdMap ℤ ℤ}

/-- The loop is left with nothing in the queue that is nearer than the end. -/
theorem Keeps.ends (h : Keeps edges s e st) (hstep : (entered edges).step e st = .inl parent) :
    parent = st.parent ∧
      ∀ x ∈ st.toSearch.queue, st.toSearch.dist (place (entered edges).ids e) ≤ x.2 := by
  obtain ⟨htabled, bound, hinv⟩ := h
  unfold Dijgraph.step at hstep
  split at hstep
  · next hpop =>
    cases hstep
    refine ⟨rfl, fun x hx => ?_⟩
    rw [State.toSearch, Q.items_of_none _ hpop] at hx
    cases hx
  · next minVertex queue hpop =>
    obtain ⟨hqueue, hmin⟩ := queue_of_pop hpop
    split at hstep
    · next hid =>
      cases hstep
      subst hid
      have hpopped : (minVertex.id, minVertex.dist) ∈ st.toSearch.queue :=
        hqueue ▸ Multiset.mem_cons_self _ _
      rw [place_of_mem (mem_ids_of_queue htabled hinv hpopped)]
      exact ⟨rfl, fun x hx => (hinv.queue _ hpopped).2.1.trans (hmin x hx)⟩
    · split at hstep <;> cases hstep

/-- The loop ends, in a state that the rounds keep. -/
theorem exists_returns (hedges : Measured edges) (hs : s ∈ (entered edges).ids) (e : ℤ) :
    ∃ st : State Q, Keeps edges s e st ∧
      Loop.Returns ((entered edges).step (Q := Q) e) (start Q (entered edges) s) st.parent ∧
      ∀ x ∈ st.toSearch.queue, st.toSearch.dist (place (entered edges).ids e) ≤ x.2 := by
  have hwf : WellFounded (Prod.Lex (· < ·) (· < ·) : ℕ × ℕ → ℕ × ℕ → Prop) :=
    wellFounded_lt.prod_lex wellFounded_lt
  obtain ⟨parent, hreturns⟩ := Loop.exists_returns hwf (left edges)
    (fun st st' h hstep => h.step hedges hs hstep) (keeps_start (Q := Q) hs e)
  obtain ⟨st, hreaches, hend⟩ := Loop.returns_iff.mp hreturns
  have hkeeps := hreaches.invariant (fun st st' h hstep => (h.step hedges hs hstep).1)
    (keeps_start hs e)
  obtain ⟨rfl, hqueue⟩ := hkeeps.ends hend
  exact ⟨st, hkeeps, hreturns, hqueue⟩

theorem place_sid_ahead (e : ℤ) : ∀ edge ∈ ahead edges e,
    place (entered edges).ids edge.sid = edge.sid := fun edge hedge =>
  place_of_mem (mem_ids_entered.mpr ⟨edge, ahead_subset edges e hedge, rfl⟩)

variable {es : List Edge}

/-- A way to the end is as long as one that takes no edge out of it. -/
theorem exists_ahead (hedges : Measured edges) (hwalk : (roads edges).Walk id s es e) :
    ∃ first, (roads (ahead edges e)).Walk id s first e ∧
      (roads edges).length first ≤ (roads edges).length es := by
  obtain ⟨first, hpre, hfirst⟩ := hwalk.exists_first (ahead edges e)
    fun edge hedge hsid => mem_filter.mpr ⟨hedge, decide_eq_true hsid⟩
  exact ⟨first, hfirst, WeightedGraph.length_le_of_sublist (g := roads edges) hedges.nonneg
    hpre.sublist hwalk.subset⟩

/-! ## The nodes -/

theorem print_of_none (h : parent.find e = none) : print s parent 1 e = some [] := by
  rw [print, h]

/-- `print` goes back along a walk whose edges are the parents'. -/
theorem print_of_walk (hs : parent.find s = none) (hwalk : (roads edges).Walk id s es e)
    (hes : ∀ edge ∈ es, parent.find edge.eid = some edge.sid) :
    print s parent (es.length + 1) e = some (es.map Edge.eid) := by
  induction hwalk with
  | nil => exact print_of_none hs
  | @snoc es edge hwalk _ ih =>
    obtain ⟨hes, hedge⟩ := forall_mem_append.mp hes
    have hfind : parent.find edge.eid = some edge.sid := hedge edge (mem_singleton_self _)
    have hne : s ≠ edge.eid := by
      rintro rfl
      cases hs.symm.trans hfind
    have hprint : print s parent (es.length + 1) edge.sid = some (es.map Edge.eid) := ih hes
    rw [length_append, length_singleton, map_append, map_singleton]
    change print s parent (es.length + 1 + 1) edge.eid = _
    rw [print, hfind]
    dsimp only
    rw [if_neg hne, hprint, Option.map_some]

/-- A walk begins with an edge out of its start. -/
theorem exists_sid_of_walk (hwalk : (roads edges).Walk id s es e) :
    e = s ∨ ∃ edge ∈ edges, edge.sid = s := by
  induction hwalk with
  | nil => exact .inl rfl
  | @snoc es edge _ hedge ih =>
    rcases ih with hsid | hsid
    · exact .inr ⟨edge, hedge, hsid⟩
    · exact .inr hsid

/-- Nothing is found from a vertex that is not in the table. -/
theorem returns_of_notMem (hs : s ∉ (entered edges).ids) (e : ℤ) :
    (entered edges).Returns Q s e [] := by
  have hpop : Q.pop (start Q (entered edges) s).queue = none := by
    rw [start_of_notMem hs]
    cases hpop : Q.pop (State.new Q (entered edges)).queue with
    | none => rfl
    | some popped =>
      have hitems := (Q.items_of_some _ _ _ hpop).1
      rw [State.new, Q.items_empty] at hitems
      exact absurd hitems.symm (Multiset.cons_ne_zero)
  have hstep : (entered edges).step e (start Q (entered edges) s) = .inl .empty := by
    rw [step, hpop, start_of_notMem hs]
    rfl
  exact ⟨_, .of_inl hstep, 1, [], print_of_none (StdMap.find_empty e), rfl⟩

/-- It is enough that the weights together are below the largest double. -/
theorem measured_of_length (hweight : ∀ edge ∈ edges, 0 ≤ edge.w)
    (hlength : (roads edges).length edges < dblMax) : Measured edges where
  nonneg := hweight
  below _ _ _ hwalk hnodup :=
    (WeightedGraph.length_le_of_nodup (g := roads edges) hweight hwalk.subset hnodup).trans_lt
      hlength

/-- The search comes to no edge into a vertex outside of the table: no walk that is at most as long
as a way to the end, and does not pass the end, leads to the beginning of one. -/
theorem sound_of_table (hedges : Measured edges) (hse : s ≠ e) (hs : s ∈ (entered edges).ids)
    (h : ∀ es, ∀ edge ∈ ahead edges e, (roads (ahead edges e)).Walk id s es edge.sid →
      (∀ es', (roads edges).Walk id s es' e → (roads edges).length es ≤ (roads edges).length es') →
      edge.eid ∈ (entered edges).ids) :
    (roads (ahead edges e)).Sound (place (entered edges).ids) s e := by
  refine WeightedGraph.sound_of_place_eq (hedges.ahead e).nonneg hse (place_of_mem hs)
    (place_sid_ahead e) fun es edge hwalk hedge hbefore => ?_
  refine place_of_mem (h es edge hedge hwalk fun es' hwalk' => ?_)
  obtain ⟨first, hfirst, hle⟩ := exists_ahead hedges hwalk'
  exact (hbefore first hfirst).trans hle

/-- A shortest way is found where no shortest way of the search goes through the first place of the
table in the place of another vertex. -/
theorem findsShortest_of_sound (Q : MinQueue) (hedges : Measured edges) (hse : s ≠ e)
    (hsound : (roads (ahead edges e)).Sound (place (entered edges).ids) s e) :
    FindsShortest Q edges s e := by
  by_cases hs : s ∈ (entered edges).ids
  · obtain ⟨st, ⟨-, bound, hinv⟩, hreturns, hqueue⟩ := exists_returns (Q := Q) hedges hs e
    rcases hinv.answers (place_of_mem hs) (place_sid_ahead e) hse (hedges.ahead e).nonneg
      (fun es => (hedges.ahead e).below s es e) hqueue hsound with
      ⟨es, hshortest, hes⟩ | ⟨hno, hnone⟩
    · have hprint := print_of_walk hinv.start.2 hshortest.walk hes
      refine ⟨s :: es.map Edge.eid, ⟨_, hreturns, _, _, hprint, ?_⟩,
        .inl ⟨es, ⟨hshortest.walk.mono (g := roads edges) (ahead_subset edges e), ?_⟩, rfl⟩⟩
      · have hne : es ≠ [] := by
          rintro rfl
          rcases hshortest.walk.cases_snoc with ⟨-, hes⟩ | ⟨_, _, hnil, -⟩
          · exact hse hes.symm
          · simp at hnil
        rw [if_neg (by simpa using hne)]
      · intro es' hwalk'
        obtain ⟨first, hfirst, hle⟩ := exists_ahead hedges hwalk'
        exact (hshortest.le first hfirst).trans hle
    · refine ⟨[], ⟨_, hreturns, _, _, print_of_none hnone, rfl⟩, .inr ⟨fun es hwalk => ?_, rfl⟩⟩
      obtain ⟨first, hfirst, -⟩ := exists_ahead hedges hwalk
      exact hno first hfirst
  · refine ⟨[], returns_of_notMem hs e, .inr ⟨fun es hwalk => ?_, rfl⟩⟩
    rcases exists_sid_of_walk hwalk with hes | hsid
    · exact hse hes.symm
    · exact hs (mem_ids_entered.mpr hsid)

/-- The end is taken off before its edge to a vertex outside of the table is relaxed. -/
def stopsInTime : List Edge := [⟨2, 3, 1⟩, ⟨3, 9, 0⟩, ⟨1, 3, 0⟩]

theorem findsShortest_of_sound_stopsInTime :
    FindsShortest (PriorityQueue.ofList Vertex.dist) stopsInTime 2 3 := by
  have hedges : Measured stopsInTime := measured_of_length (by decide) (by decide +kernel)
  exact findsShortest_of_sound _ hedges (by decide) (sound_of_table hedges (by decide) (by decide)
    fun _ edge hedge _ _ => (by decide : ∀ edge ∈ ahead stopsInTime 3,
      edge.eid ∈ (entered stopsInTime).ids) edge hedge)

/-- A vertex without outgoing edges is not found. -/
theorem not_findsShortest : ¬ ∀ (Q : MinQueue) (edges : List Edge) (s e : ℤ),
    Measured edges → s ≠ e → FindsShortest Q edges s e := by
  intro h
  have hmeasured : Measured [⟨1, 2, 1⟩] := measured_of_length (by decide) (by decide +kernel)
  obtain ⟨plannodes, ⟨parent, hreturns, depth, nodes, hprint, hnodes⟩, hanswers⟩ :=
    h (PriorityQueue.ofList Vertex.dist) [⟨1, 2, 1⟩] 1 2 hmeasured (by decide)
  have hrun : Loop.Returns ((entered [⟨1, 2, 1⟩]).step (Q := PriorityQueue.ofList Vertex.dist) 2)
      (start _ (entered [⟨1, 2, 1⟩]) 1) .empty := ⟨3, by decide +kernel⟩
  obtain rfl := hreturns.unique hrun
  obtain rfl : nodes = [] := by
    cases depth with
    | zero => cases hprint
    | succ depth => exact (Option.some.inj hprint).symm
  rcases hanswers with ⟨es, -, hes⟩ | ⟨hno, -⟩
  · rw [if_pos rfl] at hnodes
    cases hnodes.symm.trans hes
  · have hwalk : (roads [⟨1, 2, 1⟩]).Walk id 1 ([] ++ [⟨1, 2, 1⟩]) (id 2) :=
      .snoc (e := (⟨1, 2, 1⟩ : Edge)) .nil (mem_singleton_self _)
    exact hno _ hwalk

end V2I.OsmParser.Dijgraph
