import V2I.Lib.Walk

/-!
# V2I.Lib.Dijkstra

A `std::priority_queue` with the least key on top. The standard leaves open which of several
elements with the least key is on top, so that a queue is anything with these operations.
-/

namespace V2I

universe u

/-- A queue, by what it holds. -/
structure PriorityQueue {α : Type u} {R : Type*} [LE R] (key : α → R) where
  Queue : Type u
  empty : Queue
  push : Queue → α → Queue
  /-- `top()` and `pop()`; none where `empty()` -/
  pop : Queue → Option (α × Queue)
  items : Queue → Multiset α
  items_empty : items empty = 0
  items_push : ∀ q a, items (push q a) = a ::ₘ items q
  items_of_none : ∀ q, pop q = none → items q = 0
  items_of_some : ∀ q a q', pop q = some (a, q') →
    items q = a ::ₘ items q' ∧ ∀ b ∈ items q, key a ≤ key b

namespace PriorityQueue

variable {α : Type u} {R : Type*} [LinearOrder R] (key : α → R)

/-- The first element with the least key, and the others. -/
def popList : List α → Option (α × List α)
  | [] => none
  | a :: l =>
      match popList l with
      | none => some (a, [])
      | some (b, l') => if key b < key a then some (b, a :: l') else some (a, b :: l')

variable {key}

theorem popList_eq_none {l : List α} (h : popList key l = none) : l = [] := by
  cases l with
  | nil => rfl
  | cons a l =>
    rw [popList] at h
    split at h
    · cases h
    · split at h <;> cases h

theorem popList_eq_some {l l' : List α} {a : α} (h : popList key l = some (a, l')) :
    l.Perm (a :: l') ∧ ∀ b ∈ l, key a ≤ key b := by
  induction l generalizing a l' with
  | nil => cases h
  | cons c l ih =>
    rw [popList] at h
    split at h
    · next hnone =>
      cases h
      rw [popList_eq_none hnone]
      exact ⟨.refl _, by simp⟩
    · next b l'' hsome =>
      obtain ⟨hperm, hmin⟩ := ih hsome
      split at h
      · next hlt =>
        cases h
        exact ⟨(hperm.cons c).trans (.swap ..), List.forall_mem_cons.mpr ⟨hlt.le, hmin⟩⟩
      · next hnot =>
        cases h
        refine ⟨hperm.cons c, List.forall_mem_cons.mpr ⟨le_rfl, fun d hd => ?_⟩⟩
        exact (not_lt.mp hnot).trans (hmin d hd)

variable (key)

/-- The queue as a list. -/
def ofList : PriorityQueue key where
  Queue := List α
  empty := []
  push q a := a :: q
  pop := popList key
  items q := q
  items_empty := rfl
  items_push _ _ := rfl
  items_of_none q h := by rw [popList_eq_none h]; rfl
  items_of_some q a q' h := by
    obtain ⟨hperm, hmin⟩ := popList_eq_some h
    exact ⟨Multiset.coe_eq_coe.mpr hperm, hmin⟩

end PriorityQueue

end V2I

/-!
## The search

Dijkstra's search with a queue that keeps the old entries of a vertex, over a table in which an
edge improves the distance at the place of its end. Where every vertex is its own place this is the
usual search; else a vertex may be overtaken at its place by another.

* `Invariant.settle`, `Invariant.skip`, `Invariant.relax` — the steps keep the invariant;
* `Invariant.dist_le` — no walk to a place is shorter than its distance once the queue holds
  nothing nearer;
* `Invariant.answers` — then the parents lead back along a shortest walk into a vertex, or there is
  none, as long as the places are `Sound` for the vertex.
-/

namespace V2I

/-- The state of a search: the distances and parents so far, the vertices done with, and the
entries of the queue. -/
@[ext]
structure Search (V R : Type*) where
  dist : V → R
  parent : V → Option V
  settled : V → Prop
  queue : Multiset (V × R)

namespace Search

variable {V E R : Type*} [AddCommMonoid R] [LinearOrder R]

/-- Only the start is known, and waits in the queue. -/
def start [DecidableEq V] (s : V) (top : R) : Search V R where
  dist := Function.update (fun _ => top) s 0
  parent _ := none
  settled _ := False
  queue := {(s, 0)}

/-- A vertex is done with. -/
def settle (st : Search V R) (v : V) (queue : Multiset (V × R)) : Search V R :=
  { st with settled := fun x => x = v ∨ st.settled x, queue := queue }

/-- An edge that begins at distance `d` leads to its end. -/
def improve [DecidableEq V] (g : WeightedGraph V E R) (place : V → V) (d : R) (st : Search V R)
    (e : E) : Search V R :=
  { st with
    dist := Function.update st.dist (place (g.dst e)) (d + g.weight e)
    parent := Function.update st.parent (g.dst e) (some (g.src e))
    queue := (place (g.dst e), d + g.weight e) ::ₘ st.queue }

def relax [DecidableEq V] (g : WeightedGraph V E R) (place : V → V) (d : R) (st : Search V R)
    (e : E) : Search V R :=
  if d + g.weight e < st.dist (place (g.dst e)) then st.improve g place d e else st

variable (g : WeightedGraph V E R) (place : V → V) (s : V) (top : R)

/-- A walk without a place twice, along the parents, each of whose edges gave its place the
distance that it has. -/
structure Tree (st : Search V R) (es : List E) (v : V) : Prop where
  walk : g.Walk place s es v
  nodup : (g.nodes place s es).Nodup
  edges : ∀ e ∈ es, st.settled (g.src e) ∧ st.parent (g.dst e) = some (g.src e) ∧
    st.dist (place (g.dst e)) = st.dist (g.src e) + g.weight e

/-- What came to the place of a vertex when an edge leads there at a distance: the edge has become
the parent, or the place is the start, or an edge into another vertex came there before. -/
def Arrived (st : Search V R) (e : E) : Prop :=
  st.parent (g.dst e) = some (g.src e) ∨ place (g.dst e) = s ∨
    ∃ e' ∈ g.edges, place (g.dst e') = place (g.dst e) ∧ g.dst e' ≠ g.dst e ∧
      st.settled (g.src e') ∧ st.dist (g.src e') ≤ st.dist (g.src e) ∧
      st.dist (g.src e') + g.weight e' ≤ st.dist (g.src e) + g.weight e

/-- What holds while the edges `todo` of the vertex settled last are still to be relaxed; all
vertices settled are within `bound`, and all entries of the queue beyond it. -/
structure Invariant (st : Search V R) (bound : R) (todo : List E) : Prop where
  start : st.dist s = 0 ∧ st.parent s = none
  nonneg : 0 ≤ bound
  le_top : ∀ v, st.dist v ≤ top
  settled : ∀ v, st.settled v → st.dist v ≤ bound ∧ st.dist v < top
  queue : ∀ x ∈ st.queue, bound ≤ x.2 ∧ st.dist x.1 ≤ x.2 ∧ x.2 < top
  queued : ∀ v, ¬ st.settled v → st.dist v < top → (v, st.dist v) ∈ st.queue
  of_todo : ∀ e ∈ todo, e ∈ g.edges ∧ st.settled (g.src e) ∧ st.dist (g.src e) = bound
  relaxed : ∀ e ∈ g.edges, st.settled (g.src e) → e ∉ todo →
    st.dist (place (g.dst e)) ≤ st.dist (g.src e) + g.weight e
  tree : ∀ v, st.dist v < top → ∃ es, st.Tree g place s es v
  /-- The edge of a parent came to its place before all that came there from further off. -/
  parent : ∀ x u, st.parent x = some u → st.settled u ∧ st.dist (place x) < top ∧ place x ≠ s ∧
    ∃ e ∈ g.edges, g.dst e = x ∧ g.src e = u ∧
      ∀ e' ∈ g.edges, place (g.dst e') = place x → st.settled (g.src e') →
        st.dist (g.src e') < st.dist u → st.dist u + g.weight e < st.dist (g.src e') + g.weight e'
  /-- No edge into a vertex is nearer than one that has arrived. -/
  arrived : ∀ e ∈ g.edges, st.settled (g.src e) → e ∉ todo →
    st.dist (g.src e) + g.weight e < top → ∃ e' ∈ g.edges, g.dst e' = g.dst e ∧
      st.settled (g.src e') ∧
      st.dist (g.src e') + g.weight e' ≤ st.dist (g.src e) + g.weight e ∧ st.Arrived g place s e'

variable {g place s top} {st : Search V R} {bound : R} {todo : List E}

/-! ## The steps -/

section Start

variable [DecidableEq V]

omit [LinearOrder R] in
theorem start_dist (s : V) (top : R) : (start s top).dist s = 0 := by
  simp [start]

omit [LinearOrder R] in
theorem start_dist_of_ne {s v : V} (h : v ≠ s) (top : R) : (start s top).dist v = top := by
  simp [start, h]

theorem invariant_start (htop : 0 < top) : Invariant g place s top (start s top) 0 [] where
  start := ⟨start_dist s top, rfl⟩
  nonneg := le_rfl
  le_top v := by
    by_cases hv : v = s
    · rw [hv, start_dist]
      exact htop.le
    · exact (start_dist_of_ne hv top).le
  settled v hv := hv.elim
  queue x hx := by
    obtain rfl := Multiset.mem_singleton.mp hx
    exact ⟨le_rfl, (start_dist s top).le, htop⟩
  queued v _ hlt := by
    by_cases hv : v = s
    · subst hv
      rw [start_dist]
      exact Multiset.mem_singleton_self _
    · rw [start_dist_of_ne hv] at hlt
      exact (lt_irrefl _ hlt).elim
  of_todo := by simp
  relaxed e _ hsettled := hsettled.elim
  tree v hlt := by
    by_cases hv : v = s
    · subst hv
      exact ⟨[], .nil, List.nodup_singleton v, by simp⟩
    · rw [start_dist_of_ne hv] at hlt
      exact (lt_irrefl _ hlt).elim
  parent x u h := by cases h
  arrived e _ hsettled := hsettled.elim

end Start

variable {v : V} {d : R} {q : Multiset (V × R)} {es : List E}

omit [LinearOrder R] in
/-- The distance of a vertex is the length of the walk to it. -/
theorem Tree.length_eq (h : st.Tree g place s es v) (hs : st.dist s = 0) :
    g.length es = st.dist v := by
  obtain ⟨hwalk, -, hedges⟩ := h
  induction hwalk with
  | nil => exact hs.symm
  | @snoc es e _ _ ih =>
    obtain ⟨hes, he⟩ := List.forall_mem_append.mp hedges
    rw [WeightedGraph.length_concat, ih hes, (he e (List.mem_singleton_self e)).2.2]

omit [LinearOrder R] in
theorem Tree.mono {st' : Search V R} (h : st.Tree g place s es v)
    (hsettled : ∀ u, st.settled u → st'.settled u)
    (hdist : ∀ u, u = v ∨ st.settled u → st'.dist u = st.dist u)
    (hparent : ∀ x u, st.parent x = some u → place x = v ∨ st.settled (place x) →
      st'.parent x = some u) : st'.Tree g place s es v := by
  refine ⟨h.walk, h.nodup, fun e he => ?_⟩
  obtain ⟨hsrc, hpar, htight⟩ := h.edges e he
  have hend : place (g.dst e) = v ∨ st.settled (place (g.dst e)) := by
    rcases h.walk.place_eq e he with hend | ⟨e', he', hnext⟩
    · exact .inl hend
    · exact .inr (hnext ▸ (h.edges e' he').1)
  refine ⟨hsettled _ hsrc, hparent _ _ hpar hend, ?_⟩
  rw [hdist _ hend, hdist _ (.inr hsrc), htight]

omit [LinearOrder R] in
/-- The places of such a walk are the start, its end, and vertices that are done with. -/
theorem Tree.of_mem_nodes (h : st.Tree g place s es v) {u : V} (hu : u ∈ g.nodes place s es) :
    u = s ∨ u = v ∨ st.settled u := by
  rcases List.mem_cons.mp hu with hu | hu
  · exact .inl hu
  · obtain ⟨e, he, rfl⟩ := List.mem_map.mp hu
    rcases h.walk.place_eq e he with hend | ⟨e', he', hnext⟩
    · exact .inr (.inl hend)
    · exact .inr (.inr (hnext ▸ (h.edges e' he').1))

/-- An entry of a vertex that is done with is left out. -/
theorem Invariant.skip (h : Invariant g place s top st bound []) (hq : st.queue = (v, d) ::ₘ q)
    (hmin : ∀ x ∈ st.queue, d ≤ x.2) (hv : st.settled v) :
    Invariant g place s top { st with queue := q } d [] := by
  have hpop : (v, d) ∈ st.queue := hq ▸ Multiset.mem_cons_self _ _
  have hrest : ∀ x ∈ q, x ∈ st.queue := fun x hx => hq ▸ Multiset.mem_cons_of_mem hx
  have hbound : bound ≤ d := (h.queue _ hpop).1
  exact {
    start := h.start
    nonneg := h.nonneg.trans hbound
    le_top := h.le_top
    settled := fun u hu => ⟨(h.settled u hu).1.trans hbound, (h.settled u hu).2⟩
    queue := fun x hx => ⟨hmin x (hrest x hx), (h.queue x (hrest x hx)).2⟩
    queued := by
      intro u hu hlt
      have hmem := h.queued u hu hlt
      rw [hq, Multiset.mem_cons, Prod.mk.injEq] at hmem
      rcases hmem with ⟨rfl, -⟩ | hmem
      · exact absurd hv hu
      · exact hmem
    of_todo := by simp
    relaxed := h.relaxed
    tree := by
      intro u hlt
      obtain ⟨es, htree⟩ := h.tree u hlt
      exact ⟨es, htree.mono (fun _ hu => hu) (fun _ _ => rfl) fun _ _ hpar _ => hpar⟩
    parent := h.parent
    arrived := h.arrived }

/-- The nearest entry of a vertex that is not done with holds its distance. -/
theorem Invariant.dist_eq (h : Invariant g place s top st bound []) (hpop : (v, d) ∈ st.queue)
    (hmin : ∀ x ∈ st.queue, d ≤ x.2) (hv : ¬ st.settled v) : st.dist v = d := by
  obtain ⟨-, hle, hlt⟩ := h.queue _ hpop
  exact le_antisymm hle (hmin _ (h.queued v hv (hle.trans_lt hlt)))

/-- A vertex is done with, and its edges are to be relaxed. -/
theorem Invariant.settle (h : Invariant g place s top st bound []) (hq : st.queue = (v, d) ::ₘ q)
    (hmin : ∀ x ∈ st.queue, d ≤ x.2) (hv : ¬ st.settled v)
    (htodo : ∀ e, e ∈ todo ↔ e ∈ g.edges ∧ g.src e = v) :
    Invariant g place s top (st.settle v q) d todo := by
  have hpop : (v, d) ∈ st.queue := hq ▸ Multiset.mem_cons_self _ _
  have hrest : ∀ x ∈ q, x ∈ st.queue := fun x hx => hq ▸ Multiset.mem_cons_of_mem hx
  have hdist := h.dist_eq hpop hmin hv
  have hbound : bound ≤ d := (h.queue _ hpop).1
  exact {
    start := h.start
    nonneg := h.nonneg.trans hbound
    le_top := h.le_top
    settled := by
      rintro u (rfl | hu)
      · exact ⟨hdist.le, hdist.trans_lt (h.queue _ hpop).2.2⟩
      · exact ⟨(h.settled u hu).1.trans hbound, (h.settled u hu).2⟩
    queue := fun x hx => ⟨hmin x (hrest x hx), (h.queue x (hrest x hx)).2⟩
    queued := by
      intro u hu hlt
      have hu' := not_or.mp hu
      have hmem := h.queued u hu'.2 hlt
      rw [hq, Multiset.mem_cons, Prod.mk.injEq] at hmem
      exact hmem.resolve_left fun heq => hu'.1 heq.1
    of_todo := by
      intro e he
      obtain ⟨he, rfl⟩ := (htodo e).mp he
      exact ⟨he, .inl rfl, hdist⟩
    relaxed := by
      rintro e he (hsrc | hsrc) hnot
      · exact absurd ((htodo e).mpr ⟨he, hsrc⟩) hnot
      · exact h.relaxed e he hsrc List.not_mem_nil
    tree := by
      intro u hlt
      obtain ⟨es, htree⟩ := h.tree u hlt
      exact ⟨es, htree.mono (fun _ => .inr) (fun _ _ => rfl) fun _ _ hpar _ => hpar⟩
    parent := by
      intro x u hpar
      obtain ⟨hu, hlt, hxs, e, he, hdst, hsrc, hfirst⟩ := h.parent x u hpar
      refine ⟨.inr hu, hlt, hxs, e, he, hdst, hsrc, ?_⟩
      rintro e' he' hplace (rfl | hsettled) hnear
      · exact absurd hnear ((h.settled u hu).1.trans (hbound.trans hdist.ge)).not_gt
      · exact hfirst e' he' hplace hsettled hnear
    arrived := by
      rintro e he (hsrc | hsrc) hnot hlt
      · exact absurd ((htodo e).mpr ⟨he, hsrc⟩) hnot
      · obtain ⟨e', he', hdst, hsettled, hle, harrived⟩ :=
          h.arrived e he hsrc List.not_mem_nil hlt
        refine ⟨e', he', hdst, .inr hsettled, hle, harrived.imp_right (.imp_right ?_)⟩
        rintro ⟨f, hf, hplace, hne, hf', hfirst⟩
        exact ⟨f, hf, hplace, hne, .inr hf', hfirst⟩ }

section Relax

variable [DecidableEq V] {e : E}

omit [LinearOrder R] in
theorem improve_dist (st : Search V R) (e : E) :
    (st.improve g place d e).dist (place (g.dst e)) = d + g.weight e :=
  Function.update_self ..

omit [LinearOrder R] in
theorem improve_dist_of_ne (h : v ≠ place (g.dst e)) :
    (st.improve g place d e).dist v = st.dist v :=
  Function.update_of_ne h ..

omit [LinearOrder R] in
theorem improve_parent (st : Search V R) (e : E) :
    (st.improve g place d e).parent (g.dst e) = some (g.src e) :=
  Function.update_self ..

omit [LinearOrder R] in
theorem improve_parent_of_ne (h : v ≠ g.dst e) : (st.improve g place d e).parent v = st.parent v :=
  Function.update_of_ne h ..

theorem improve_dist_le (st : Search V R) (h : d + g.weight e < st.dist (place (g.dst e)))
    (v : V) : (st.improve g place d e).dist v ≤ st.dist v := by
  by_cases hv : v = place (g.dst e)
  · rw [hv, improve_dist]
    exact h.le
  · exact (improve_dist_of_ne hv).le

variable [IsOrderedAddMonoid R]

/-- Neither the start nor a vertex that is done with is improved. -/
theorem Invariant.improve (hs : place s = s) (h : Invariant g place s top st bound (e :: todo))
    (hweight : 0 ≤ g.weight e) (hlt : bound + g.weight e < st.dist (place (g.dst e))) :
    Invariant g place s top (st.improve g place bound e) bound todo := by
  obtain ⟨⟨he, hsettled, hdist⟩, htodo⟩ := List.forall_mem_cons.mp h.of_todo
  have hne : ∀ v, st.dist v ≤ bound → v ≠ place (g.dst e) := by
    rintro v hv rfl
    exact (hv.trans (le_add_of_nonneg_right hweight)).not_gt hlt
  have hstart : s ≠ place (g.dst e) := hne s (h.start.1.trans_le h.nonneg)
  have hfixed : ∀ v, st.settled v → v ≠ place (g.dst e) := fun v hv => hne v (h.settled v hv).1
  have hsame : ∀ v, st.settled v → (st.improve g place bound e).dist v = st.dist v :=
    fun v hv => improve_dist_of_ne (hfixed v hv)
  have hle := improve_dist_le st hlt
  have htop : bound + g.weight e < top := hlt.trans_le (h.le_top _)
  have htree : ∀ es v, v ≠ place (g.dst e) → st.Tree g place s es v →
      (st.improve g place bound e).Tree g place s es v := by
    intro es v hv htree
    have hother : ∀ u, u = v ∨ st.settled u → u ≠ place (g.dst e) := by
      rintro u (rfl | hu)
      · exact hv
      · exact hfixed u hu
    refine htree.mono (fun _ hu => hu) (fun u hu => improve_dist_of_ne (hother u hu)) ?_
    intro x u hpar hx
    rw [improve_parent_of_ne (by rintro rfl; exact hother _ hx rfl)]
    exact hpar
  -- an edge relaxed before comes to the place from further than the edge that improves it
  have hfurther : ∀ e' ∈ g.edges, st.settled (g.src e') → e' ∉ e :: todo →
      place (g.dst e') = place (g.dst e) →
      bound + g.weight e < st.dist (g.src e') + g.weight e' := by
    intro e' he' hsrc hnot hplace
    exact hlt.trans_le (hplace ▸ h.relaxed e' he' hsrc hnot)
  exact {
    start := by
      refine ⟨(improve_dist_of_ne hstart).trans h.start.1, ?_⟩
      rw [improve_parent_of_ne (by rintro rfl; exact hstart hs.symm)]
      exact h.start.2
    nonneg := h.nonneg
    le_top := fun v => (hle v).trans (h.le_top v)
    settled := by
      intro v hv
      rw [hsame v hv]
      exact h.settled v hv
    queue := by
      intro x hx
      rcases Multiset.mem_cons.mp hx with rfl | hx
      · exact ⟨le_add_of_nonneg_right hweight, (improve_dist st e).le, htop⟩
      · obtain ⟨hbound, hdist, hlt⟩ := h.queue x hx
        exact ⟨hbound, (hle _).trans hdist, hlt⟩
    queued := by
      intro v hv hv'
      by_cases hve : v = place (g.dst e)
      · subst hve
        rw [improve_dist]
        exact Multiset.mem_cons_self _ _
      · rw [improve_dist_of_ne hve] at hv' ⊢
        exact Multiset.mem_cons_of_mem (h.queued v hv hv')
    of_todo := by
      intro e' he'
      obtain ⟨hmem, hsrc, hbound⟩ := htodo e' he'
      exact ⟨hmem, hsrc, (hsame _ hsrc).trans hbound⟩
    relaxed := by
      intro e' he' hsrc hnot
      rw [hsame _ hsrc]
      by_cases heq : e' = e
      · rw [heq, improve_dist, hdist]
      · exact (hle _).trans (h.relaxed e' he' hsrc (by simp [heq, hnot]))
    tree := by
      intro v hv
      by_cases hve : v = place (g.dst e)
      · subst hve
        obtain ⟨es, hes⟩ := h.tree _ (h.settled _ hsettled).2
        have hes' := htree es _ (hfixed _ hsettled) hes
        refine ⟨es ++ [e], .snoc hes.walk he, ?_, List.forall_mem_append.mpr ⟨hes'.edges, ?_⟩⟩
        · rw [WeightedGraph.nodes_concat]
          refine hes.nodup.append (List.nodup_singleton _) ?_
          rw [List.disjoint_singleton]
          intro hmem
          rcases hes.of_mem_nodes hmem with heq | heq | heq
          · exact hstart heq.symm
          · exact hfixed _ hsettled heq.symm
          · exact hfixed _ heq rfl
        · intro e' he'
          obtain rfl := List.mem_singleton.mp he'
          exact ⟨hsettled, improve_parent st e', by rw [improve_dist, hsame _ hsettled, hdist]⟩
      · rw [improve_dist_of_ne hve] at hv
        obtain ⟨es, hes⟩ := h.tree v hv
        exact ⟨es, htree es v hve hes⟩
    parent := by
      intro x u hpar
      by_cases hx : x = g.dst e
      · subst hx
        rw [improve_parent, Option.some_inj] at hpar
        subst hpar
        refine ⟨hsettled, (improve_dist st e).trans_lt htop, hstart.symm, e, he, rfl, rfl, ?_⟩
        intro e' he' hplace hsrc hnear
        rw [hsame _ hsrc, hsame _ hsettled, hdist] at hnear ⊢
        refine hfurther e' he' hsrc (fun hmem => ?_) hplace
        exact hnear.ne (h.of_todo e' hmem).2.2
      · rw [improve_parent_of_ne hx] at hpar
        obtain ⟨hu, hx', hxs, e', he', hdst, hsrc, hfirst⟩ := h.parent x u hpar
        refine ⟨hu, (hle _).trans_lt hx', hxs, e', he', hdst, hsrc, ?_⟩
        intro f hf hplace hsrc hnear
        rw [hsame _ hsrc, hsame _ hu] at hnear ⊢
        exact hfirst f hf hplace hsrc hnear
    arrived := by
      intro e₁ he₁ hsrc hnot hlt₁
      rw [hsame _ hsrc] at hlt₁ ⊢
      by_cases hdst : g.dst e₁ = g.dst e
      · refine ⟨e, he, hdst.symm, hsettled, ?_, .inl (improve_parent st e)⟩
        rw [hsame _ hsettled, hdist]
        by_cases heq : e₁ = e
        · rw [heq, hdist]
        · exact (hfurther e₁ he₁ hsrc (by simp [heq, hnot]) (congrArg place hdst)).le
      · have heq : e₁ ≠ e := fun heq => hdst (congrArg g.dst heq)
        obtain ⟨e', he', hdst', hsrc', hle', harrived⟩ :=
          h.arrived e₁ he₁ hsrc (by simp [heq, hnot]) hlt₁
        refine ⟨e', he', hdst', hsrc', by rwa [hsame _ hsrc'], ?_⟩
        rcases harrived with hpar | hplace | ⟨f, hf, hplace, hne', hf', hfirst⟩
        · left
          rw [improve_parent_of_ne (hdst' ▸ hdst)]
          exact hpar
        · exact .inr (.inl hplace)
        · refine .inr (.inr ⟨f, hf, hplace, hne', hf', ?_⟩)
          rwa [hsame _ hf', hsame _ hsrc'] }

omit [IsOrderedAddMonoid R] in
/-- An edge that does not improve the distance finds another one there. -/
theorem Invariant.arrived_of_not_lt (h : Invariant g place s top st bound (e :: todo))
    (hnot : ¬ bound + g.weight e < st.dist (place (g.dst e)))
    (htop : st.dist (g.src e) + g.weight e < top) : ∃ e' ∈ g.edges, g.dst e' = g.dst e ∧
      st.settled (g.src e') ∧
      st.dist (g.src e') + g.weight e' ≤ st.dist (g.src e) + g.weight e ∧
      st.Arrived g place s e' := by
  obtain ⟨he, hsettled, hdist⟩ := h.of_todo e List.mem_cons_self
  rw [← hdist, not_lt] at hnot
  obtain ⟨es, htree⟩ := h.tree _ (hnot.trans_lt htop)
  rcases htree.walk.cases_snoc with ⟨-, hplace⟩ | ⟨es', e', rfl, -, he', hplace⟩
  · exact ⟨e, he, rfl, hsettled, le_rfl, .inr (.inl hplace)⟩
  · obtain ⟨hsrc, hpar, htight⟩ := htree.edges e' (by simp)
    rw [hplace, htight] at hnot
    by_cases hdst : g.dst e' = g.dst e
    · exact ⟨e', he', hdst, hsrc, hnot, .inl hpar⟩
    · exact ⟨e, he, rfl, hsettled, le_rfl, .inr (.inr ⟨e', he', hplace.symm, hdst, hsrc,
        (h.settled _ hsrc).1.trans hdist.ge, hnot⟩)⟩

theorem Invariant.relax (hs : place s = s) (h : Invariant g place s top st bound (e :: todo))
    (hweight : 0 ≤ g.weight e) : Invariant g place s top (st.relax g place bound e) bound todo := by
  unfold Search.relax
  split
  · next hlt => exact h.improve hs hweight hlt
  · next hnot =>
    refine { h with
      of_todo := fun e' he' => h.of_todo e' (.tail _ he')
      relaxed := fun e' he' hsrc hnot' => ?_
      arrived := fun e' he' hsrc hnot' htop => ?_ }
    · by_cases heq : e' = e
      · rw [heq, (h.of_todo e List.mem_cons_self).2.2]
        exact not_lt.mp hnot
      · exact h.relaxed e' he' hsrc (by simp [heq, hnot'])
    · by_cases heq : e' = e
      · subst heq
        exact h.arrived_of_not_lt hnot htop
      · exact h.arrived e' he' hsrc (by simp [heq, hnot']) htop

/-- All edges of the vertex settled last. -/
theorem Invariant.foldl_relax (hs : place s = s) (hweight : ∀ e ∈ g.edges, 0 ≤ g.weight e)
    (h : Invariant g place s top st bound todo) :
    Invariant g place s top (todo.foldl (Search.relax g place bound) st) bound [] := by
  induction todo generalizing st with
  | nil => exact h
  | cons e todo ih =>
    exact ih (h.relax hs (hweight e (h.of_todo e List.mem_cons_self).1))

end Relax

/-! ## The end of the search -/

variable [IsOrderedAddMonoid R]

/-- A walk to a vertex is as long as its distance, or the queue holds something nearer. -/
theorem Invariant.dist_le (h : Invariant g place s top st bound [])
    (hweight : ∀ e ∈ g.edges, 0 ≤ g.weight e) {es : List E} (hwalk : g.Walk place s es v) :
    st.dist v ≤ g.length es ∨ ∃ x ∈ st.queue, x.2 ≤ g.length es := by
  induction hwalk with
  | nil => exact .inl h.start.1.le
  | @snoc es e _ he ih =>
    rw [WeightedGraph.length_concat]
    have hstep : g.length es ≤ g.length es + g.weight e := le_add_of_nonneg_right (hweight e he)
    rcases ih with hle | ⟨x, hx, hle⟩
    · by_cases hsettled : st.settled (g.src e)
      · left
        exact (h.relaxed e he hsettled List.not_mem_nil).trans (add_le_add_left hle _)
      · by_cases hlt : st.dist (g.src e) < top
        · exact .inr ⟨_, h.queued _ hsettled hlt, hle.trans hstep⟩
        · left
          calc st.dist (place (g.dst e)) ≤ top := h.le_top _
            _ ≤ st.dist (g.src e) := not_lt.mp hlt
            _ ≤ g.length es + g.weight e := hle.trans hstep
    · exact .inr ⟨x, hx, hle.trans hstep⟩

end Search

namespace WeightedGraph

variable {V E R : Type*} [AddMonoid R] [LE R] (g : WeightedGraph V E R) (place : V → V) (s t : V)

/-- Before an edge leads into a vertex behind a walk, another has come to the place of the vertex:
the place is the start, or the walk to the other edge is shorter, in the sense of `before`, and no
longer with the edge. -/
def Overtaken (before : R → R → Prop) (es : List E) (e : E) : Prop :=
  place t = s ∨ ∃ es' e', g.Walk place s es' (g.src e') ∧ e' ∈ g.edges ∧
    place (g.dst e') = place t ∧ g.dst e' ≠ t ∧ before (g.length es') (g.length es) ∧
    g.length es' + g.weight e' ≤ g.length es + g.weight e

/-- A vertex that no walk proper reaches is overtaken by another in its place whenever a walk leads
into it; else the shortest walks that lead into it are walks proper, and are not overtaken. -/
def Sound [LT R] : Prop :=
  ((∀ es, ¬ g.Walk id s es t) ∧
    ∀ es e, g.LeadsInto place s t es e → g.Overtaken place s t (· < ·) es e) ∨
  ∀ es e, g.ShortestInto place s t es e →
    g.Walk id s (es ++ [e]) t ∧ ¬ g.Overtaken place s t (· ≤ ·) es e

variable {g place s t}

/-- Where every vertex that can be reached before the end is its own place, the places make no
difference. -/
theorem sound_of_place_eq {R : Type*} [AddCommMonoid R] [LinearOrder R] [IsOrderedAddMonoid R]
    {g : WeightedGraph V E R} {place : V → V} {s t : V} (hweight : ∀ e ∈ g.edges, 0 ≤ g.weight e)
    (hst : s ≠ t) (hs : place s = s) (hsrc : ∀ e ∈ g.edges, place (g.src e) = g.src e)
    (hplace : ∀ es e, g.Walk id s es (g.src e) → e ∈ g.edges →
      (∀ es', g.Walk id s es' t → g.length es ≤ g.length es') → place (g.dst e) = g.dst e) :
    g.Sound place s t := by
  have hid : ∀ es v, g.Walk place s es v →
      (∀ es', g.Walk id s es' t → g.length es ≤ g.length es') → g.Walk id s es v := by
    intro es v h hbefore
    induction h with
    | nil => exact .nil
    | @snoc es e _ he ih =>
      have hes : ∀ es', g.Walk id s es' t → g.length es ≤ g.length es' := fun es' h' =>
        (le_add_of_nonneg_right (hweight e he)).trans
          (length_concat (g := g) es e ▸ hbefore es' h')
      rw [hplace es e (ih hes) he hes]
      exact .snoc (ih hes) he
  refine .inr fun es e hes => ?_
  obtain ⟨⟨hwalk, he, rfl⟩, -, hle⟩ := hes
  have hbefore : ∀ es', g.Walk id s es' (g.dst e) → g.length es ≤ g.length es' := by
    intro es' h'
    obtain ⟨es'', e'', rfl, hleads⟩ := h'.leadsInto hst hs hsrc
    rw [length_concat]
    exact (le_add_of_nonneg_right (hweight e he)).trans (hle es'' e'' hleads)
  have hown := hplace es e (hid _ _ hwalk hbefore) he hbefore
  refine ⟨.snoc (hid _ _ hwalk hbefore) he, ?_⟩
  rintro (hts | ⟨es', e', hwalk', he', hplace', hne, hes', -⟩)
  · exact hst (hown.symm.trans hts).symm
  · have hbefore' : ∀ es'', g.Walk id s es'' (g.dst e) → g.length es' ≤ g.length es'' :=
      fun es'' h'' => hes'.trans (hbefore es'' h'')
    exact hne (((hplace es' e' (hid _ _ hwalk' hbefore') he' hbefore').symm.trans hplace').trans
      hown)

end WeightedGraph

namespace Search

variable {V E R : Type*} [AddCommMonoid R] [LinearOrder R] [IsOrderedAddMonoid R]
  {g : WeightedGraph V E R} {place : V → V} {s t : V} {top bound : R} {st : Search V R}

/-- A vertex that is overtaken whenever a walk leads into it gets no parent. -/
theorem Invariant.parent_eq_none (h : Invariant g place s top st bound [])
    (hweight : ∀ e ∈ g.edges, 0 ≤ g.weight e)
    (hovertaken : ∀ es e, g.LeadsInto place s t es e → g.Overtaken place s t (· < ·) es e) :
    st.parent t = none := by
  refine Option.eq_none_iff_forall_ne_some.mpr fun u hpar => ?_
  obtain ⟨hu, -, hts, e, he, hdst, rfl, hfirst⟩ := h.parent t u hpar
  obtain ⟨hbound, hlt⟩ := h.settled _ hu
  obtain ⟨es, htree⟩ := h.tree _ hlt
  have hlength := htree.length_eq h.start.1
  rcases hovertaken es e ⟨htree.walk, he, hdst⟩ with
    hplace | ⟨es', e', hwalk', he', hplace, -, hbefore, hle⟩
  · exact hts hplace
  · rw [hlength] at hbefore hle
    have hnear : st.dist (g.src e') ≤ g.length es' := by
      rcases h.dist_le hweight hwalk' with hnear | ⟨x, hx, hnear⟩
      · exact hnear
      · exact absurd ((h.queue x hx).1.trans hnear) (hbefore.trans_le hbound).not_ge
    have hsettled : st.settled (g.src e') := by
      by_contra hnot
      have hmem := h.queued _ hnot ((hnear.trans_lt hbefore).trans hlt)
      exact absurd (h.queue _ hmem).1 ((hnear.trans_lt hbefore).trans_le hbound).not_ge
    have hlater := hfirst e' he' hplace hsettled (hnear.trans_lt hbefore)
    exact (hlater.trans_le ((add_le_add_left hnear _).trans hle)).false

/-- The parents lead back along a shortest walk into the vertex. -/
theorem Invariant.exists_shortestInto (h : Invariant g place s top st bound [])
    (hweight : ∀ e ∈ g.edges, 0 ≤ g.weight e) (hqueue : ∀ x ∈ st.queue, st.dist (place t) ≤ x.2)
    {es : List E} {e : E} (hes : g.ShortestInto place s t es e)
    (htop : g.length es + g.weight e < top)
    (hovertaken : ∀ es e, g.ShortestInto place s t es e → ¬ g.Overtaken place s t (· ≤ ·) es e) :
    ∃ es e, g.ShortestInto place s t es e ∧
      ∀ e' ∈ es ++ [e], st.parent (g.dst e') = some (g.src e') := by
  have hstep : g.length es ≤ g.length es + g.weight e :=
    le_add_of_nonneg_right (hweight e hes.leads.mem)
  have hknown : (st.settled (g.src e) ∧ st.dist (g.src e) ≤ g.length es) ∨
      st.dist (place t) ≤ g.length es := by
    rcases h.dist_le hweight hes.leads.walk with hle | ⟨x, hx, hle⟩
    · by_cases hsettled : st.settled (g.src e)
      · exact .inl ⟨hsettled, hle⟩
      · exact .inr ((hqueue _ (h.queued _ hsettled (hle.trans_lt (hstep.trans_lt htop)))).trans hle)
    · exact .inr ((hqueue x hx).trans hle)
  rcases hknown with ⟨hsettled, hle⟩ | hle
  · have hle₁ : st.dist (g.src e) + g.weight e ≤ g.length es + g.weight e := add_le_add_left hle _
    obtain ⟨e', he', hdst, hsettled', hle₂, harrived⟩ :=
      h.arrived e hes.leads.mem hsettled List.not_mem_nil (hle₁.trans_lt htop)
    obtain ⟨es', htree⟩ := h.tree _ (h.settled _ hsettled').2
    have hlength := htree.length_eq h.start.1
    have hdst' : g.dst e' = t := hdst.trans hes.leads.dst
    have hshortest : g.ShortestInto place s t es' e' := by
      refine ⟨⟨htree.walk, he', hdst'⟩, htree.nodup, fun es'' e'' h'' => ?_⟩
      rw [hlength]
      exact (hle₂.trans hle₁).trans (hes.le es'' e'' h'')
    have hnot := hovertaken es' e' hshortest
    rcases harrived with hpar | hplace | ⟨f, hf, hplace, hne, hsettled_f, hnear, hle_f⟩
    · refine ⟨es', e', hshortest,
        List.forall_mem_append.mpr ⟨fun f hf => ?_, by simpa using hpar⟩⟩
      exact (htree.edges f hf).2.1
    · exact absurd (.inl (hdst' ▸ hplace)) hnot
    · obtain ⟨es_f, htree_f⟩ := h.tree _ (h.settled _ hsettled_f).2
      rw [← htree_f.length_eq h.start.1, ← hlength] at hnear hle_f
      exact absurd (.inr ⟨es_f, f, htree_f.walk, hf, hdst' ▸ hplace, hdst' ▸ hne, hnear, hle_f⟩)
        hnot
  · have hnot := hovertaken es e hes
    obtain ⟨es', htree⟩ := h.tree (place t) (hle.trans_lt (hstep.trans_lt htop))
    have hlength := htree.length_eq h.start.1
    rcases htree.walk.cases_snoc with ⟨-, hplace⟩ | ⟨es'', e'', rfl, hwalk, he'', hplace⟩
    · exact absurd (.inl hplace) hnot
    · rw [WeightedGraph.length_concat] at hlength
      have hle' : g.length es'' + g.weight e'' ≤ g.length es := hlength.trans_le hle
      by_cases hdst : g.dst e'' = t
      · refine ⟨es'', e'', ⟨⟨hwalk, he'', hdst⟩, ?_, fun es₁ e₁ h₁ => ?_⟩, fun f hf => ?_⟩
        · exact (WeightedGraph.nodes_initial (List.prefix_append ..) s).sublist.nodup htree.nodup
        · exact (hle'.trans hstep).trans (hes.le es₁ e₁ h₁)
        · exact (htree.edges f hf).2.1
      · have hbefore : g.length es'' ≤ g.length es :=
          (le_add_of_nonneg_right (hweight e'' he'')).trans hle'
        exact absurd (.inr ⟨es'', e'', hwalk, he'', hplace.symm, hdst, hbefore,
          hle'.trans hstep⟩) hnot

/-- The parents lead back along a shortest walk, or there is none. -/
theorem Invariant.answers (h : Invariant g place s top st bound []) (hs : place s = s)
    (hplace : ∀ e ∈ g.edges, place (g.src e) = g.src e) (hst : s ≠ t)
    (hweight : ∀ e ∈ g.edges, 0 ≤ g.weight e)
    (htop : ∀ es, g.Walk id s es t → (g.nodes id s es).Nodup → g.length es < top)
    (hqueue : ∀ x ∈ st.queue, st.dist (place t) ≤ x.2) (hsound : g.Sound place s t) :
    (∃ es, g.Shortest id s t es ∧ ∀ e ∈ es, st.parent (g.dst e) = some (g.src e)) ∨
      (∀ es, ¬ g.Walk id s es t) ∧ st.parent t = none := by
  rcases hsound with ⟨hno, hovertaken⟩ | hsound
  · exact .inr ⟨hno, h.parent_eq_none hweight hovertaken⟩
  · by_cases hreached : ∃ es, g.Walk id s es t
    · left
      obtain ⟨es, hes⟩ := hreached
      obtain ⟨path, hpath, hnodup, -⟩ := hes.exists_path
      have hlt := htop path hpath hnodup
      obtain ⟨path, e, rfl, hleads⟩ := hpath.leadsInto hst hs hplace
      rw [WeightedGraph.length_concat] at hlt
      obtain ⟨es₁, e₁, h₁⟩ := WeightedGraph.exists_shortestInto hweight hleads
      obtain ⟨es₂, e₂, h₂, hparents⟩ := h.exists_shortestInto hweight hqueue h₁
        ((h₁.le _ _ hleads).trans_lt hlt) fun es e hes => (hsound es e hes).2
      refine ⟨es₂ ++ [e₂], ⟨(hsound es₂ e₂ h₂).1, fun es' hes' => ?_⟩, hparents⟩
      obtain ⟨es', e', rfl, hleads'⟩ := hes'.leadsInto hst hs hplace
      rw [WeightedGraph.length_concat, WeightedGraph.length_concat]
      exact h₂.le es' e' hleads'
    · refine .inr ⟨fun es hes => hreached ⟨es, hes⟩, ?_⟩
      refine Option.eq_none_iff_forall_ne_some.mpr fun u hpar => ?_
      obtain ⟨hu, -, -, e, he, hdst, rfl, -⟩ := h.parent t u hpar
      obtain ⟨es, htree⟩ := h.tree _ (h.settled _ hu).2
      obtain ⟨es₁, e₁, h₁⟩ :=
        WeightedGraph.exists_shortestInto hweight ⟨htree.walk, he, hdst⟩
      exact hreached ⟨_, (hsound es₁ e₁ h₁).1⟩

end Search

end V2I
