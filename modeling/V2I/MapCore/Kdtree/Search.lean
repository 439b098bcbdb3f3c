import Mathlib.Analysis.SpecialFunctions.Sqrt
import V2I.MapCore.Kdtree

/-!
# V2I.MapCore.Kdtree.Search

What `kdtree2d_search` finds in a tree of `build_kdtree`.

The search walks down one path and, coming back, jumps to the other side of a node's
splitting line when the circle reaches over it. Two places are never looked at: the
other side of the last node of the path, and the query's own side of a node that was
reached by a jump. `searched` lists the nodes that remain. Pruning is sound on them
(`bestOf_jump`), so the search returns the nearest unselected node of `searched`, and
this is the nearest of the whole table exactly when no unselected node that is left out
is nearer (`kdtree2d_search_nearest_iff`).
-/

namespace V2I.Kdtree

open List

variable {K : Type*}

/-! ## The tree that is built -/

section Build

variable [Field K] [LinearOrder K] (q : Qsort (Node K))

@[simp]
theorem doBuildKdtree_nil : doBuildKdtree q [] = .null := by
  rw [doBuildKdtree]
  rfl

theorem doBuildKdtree_eq_node {q : Qsort (Node K)} {l : List (Node K)} (hne : l.length ≠ 0)
    (hdrop : (chooseSplit q l).2.drop (l.length / 2) = v :: right) :
    doBuildKdtree q l = .node (doBuildKdtree q ((chooseSplit q l).2.take (l.length / 2))) v
      (chooseSplit q l).1 (doBuildKdtree q right) := by
  rw [doBuildKdtree, if_neg hne]
  split
  · next h => rw [hdrop] at h; cases h
  · next h =>
      rw [hdrop] at h
      injection h with hv hright
      rw [hv, hright]

/-- **Every node of the table is in the tree exactly once.** -/
theorem nodes_doBuildKdtree_perm (l : List (Node K)) : (doBuildKdtree q l).nodes.Perm l := by
  rw [doBuildKdtree_eq_by]
  exact nodes_doBuildKdtreeBy_perm _ q l

/-- **The tree is ordered.** -/
theorem ordered_doBuildKdtree (l : List (Node K)) : Ordered (doBuildKdtree q l) := by
  rw [doBuildKdtree_eq_by]
  exact ordered_doBuildKdtreeBy _ q l

end Build

/-! ## Distances -/

section Distance

variable [Field K] [LinearOrder K] [IsStrictOrderedRing K]

/-- A distance is at least the difference in either coordinate. -/
theorem coord_le_distanceSq (s : Split) (p q : Point K) :
    (s.coord p - s.coord q) * (s.coord p - s.coord q) ≤ distanceSq p q := by
  cases s with
  | x => exact le_add_of_nonneg_right (mul_self_nonneg _)
  | y => exact le_add_of_nonneg_left (mul_self_nonneg _)

/-- What lies behind a splitting line is at least as far away as the line. -/
theorem line_le_distanceSq {s : Split} {u v : Node K} {q : Point K}
    (h : (s.coord q ≤ s.coord v.pos ∧ s.coord v.pos ≤ s.coord u.pos) ∨
      (s.coord u.pos ≤ s.coord v.pos ∧ s.coord v.pos ≤ s.coord q)) :
    (s.coord v.pos - s.coord q) * (s.coord v.pos - s.coord q) ≤ distanceSq u.pos q := by
  refine le_trans ?_ (coord_le_distanceSq s u.pos q)
  apply abs_le_iff_mul_self_le.mp
  rcases h with ⟨hq, hu⟩ | ⟨hu, hq⟩
  · rw [abs_of_nonneg (sub_nonneg.mpr hq), abs_of_nonneg (sub_nonneg.mpr (hq.trans hu))]
    exact sub_le_sub_right hu _
  · rw [abs_of_nonpos (sub_nonpos.mpr hq), abs_of_nonpos (sub_nonpos.mpr (hu.trans hq))]
    exact neg_le_neg (sub_le_sub_right hu _)

end Distance

/-! ## What the search looks at -/

section Searched

variable [Field K] [LinearOrder K]

/-- The nodes a jump into a subtree can come to: its root, and then always the child on
the far side of the query. -/
def jumpChain (q : Point K) : Tree K → List (Node K)
  | .null => []
  | .node l v s r => v :: if s.coord q ≤ s.coord v.pos then jumpChain q r else jumpChain q l

/-- The nodes the search can come to: those of the path down, and the jump chains of all
of them but the last. -/
def searched (q : Point K) : Tree K → List (Node K)
  | .null => []
  | .node l v s r =>
      if (nearChild q l v s r).isNull then [v]
      else jumpChain q (.node l v s r) ++
        if s.coord q ≤ s.coord v.pos then searched q l else searched q r

variable (q : Point K)

omit [Field K] in
theorem jumpChain_node (l : Tree K) (v : Node K) (s : Split) (r : Tree K) :
    jumpChain q (.node l v s r) = v :: jumpChain q (farChild q l v s r) := by
  rw [jumpChain, farChild]
  split <;> rfl

omit [Field K] in
theorem searched_node (l : Tree K) (v : Node K) (s : Split) (r : Tree K) :
    searched q (.node l v s r) = if (nearChild q l v s r).isNull then [v]
      else jumpChain q (.node l v s r) ++ searched q (nearChild q l v s r) := by
  rw [searched]
  unfold nearChild
  split <;> rfl

omit [Field K] in
theorem jumpChain_subset (t : Tree K) : jumpChain q t ⊆ t.nodes := by
  induction t with
  | null => exact List.Subset.refl _
  | node l v s r ihl ihr =>
      rw [jumpChain, Tree.nodes]
      refine cons_subset.mpr ⟨by simp, ?_⟩
      split
      · exact fun u hu => by simp [ihr hu]
      · exact fun u hu => by simp [ihl hu]

omit [Field K] in
theorem searched_subset (t : Tree K) : searched q t ⊆ t.nodes := by
  induction t with
  | null => exact List.Subset.refl _
  | node l v s r ihl ihr =>
      rw [searched]
      split
      · simp [Tree.nodes]
      · refine append_subset.mpr ⟨jumpChain_subset q _, ?_⟩
        rw [Tree.nodes]
        split
        · exact fun u hu => by simp [ihl hu]
        · exact fun u hu => by simp [ihr hu]

omit [Field K] in
/-- The far child lies behind the splitting line. -/
theorem far_of_mem_farChild (h : Ordered (.node l v s r)) {q : Point K} {u : Node K}
    (hu : u ∈ (farChild q l v s r).nodes) :
    (s.coord q ≤ s.coord v.pos ∧ s.coord v.pos ≤ s.coord u.pos) ∨
      (s.coord u.pos ≤ s.coord v.pos ∧ s.coord v.pos ≤ s.coord q) := by
  obtain ⟨hl, hr, -, -⟩ := h
  unfold farChild at hu
  split at hu
  · next hq => exact Or.inl ⟨hq, hr u hu⟩
  · next hq => exact Or.inr ⟨hl u hu, (not_le.mp hq).le⟩

omit [Field K] in
theorem ordered_farChild (h : Ordered (.node l v s r)) (q : Point K) :
    Ordered (farChild q l v s r) := by
  unfold farChild
  split
  · exact h.2.2.2
  · exact h.2.2.1

end Searched

/-! ## The best node so far -/

section Best

variable [Field K] [LinearOrder K]

variable (selected : ℕ → Bool) (q : Point K)

/-- `b` is the nearest unselected node of `S`, or still holds `DBL_MAX` when there is
none. -/
def BestOf (S : List (Node K)) (b : Best K) : Prop :=
  (∀ u ∈ S, b.d ≤ tmp selected q u) ∧ (b.d = ⊤ ∨ b.nearest ∈ S ∧ b.d = tmp selected q b.nearest)

/-- The effect of popping one node, with everything its jump leads to. -/
def jump : Tree K → Best K → Best K
  | .null, b => b
  | .node l v s r, b =>
      if l.isNull ∧ r.isNull then improve selected q b v
      else if crosses q b v s then
        if s.coord q ≤ s.coord v.pos then jump r (improve selected q b v)
        else jump l (improve selected q b v)
      else b

theorem jump_node (l : Tree K) (v : Node K) (s : Split) (r : Tree K) (b : Best K) :
    jump selected q (.node l v s r) b =
      if l.isNull ∧ r.isNull then improve selected q b v
      else if crosses q b v s then jump selected q (farChild q l v s r) (improve selected q b v)
      else b := by
  rw [jump, farChild]
  split_ifs <;> rfl

/-- The stack is worked off jump by jump. -/
theorem rewalk_cons (t : Tree K) (path : List (Tree K)) (b : Best K) :
    rewalk selected q (t :: path) b = rewalk selected q path (jump selected q t b) := by
  induction t generalizing b with
  | null => rw [rewalk, jump]
  | node l v s r ihl ihr =>
      rw [rewalk, jump_node]
      split_ifs with hleaf hcross hnull
      · rfl
      · cases hfar : farChild q l v s r with
        | null => rw [jump]
        | node => rw [hfar] at hnull; exact absurd hnull (by simp [Tree.isNull])
      · unfold farChild
        split
        · exact ihr _
        · exact ihl _
      · rfl

theorem rewalk_append (path path' : List (Tree K)) (b : Best K) :
    rewalk selected q (path ++ path') b =
      rewalk selected q path' (rewalk selected q path b) := by
  induction path generalizing b with
  | nil => rw [rewalk, nil_append]
  | cons t path ih => rw [cons_append, rewalk_cons, rewalk_cons, ih]

variable {selected q} {S : List (Node K)} {b : Best K}

theorem bestOf_improve (h : BestOf selected q S b) (v : Node K) :
    BestOf selected q (v :: S) (improve selected q b v) := by
  obtain ⟨hle, hat⟩ := h
  unfold improve
  split
  · next hlt =>
      refine ⟨fun u hu => ?_, Or.inr ⟨mem_cons_self, rfl⟩⟩
      rcases mem_cons.mp hu with rfl | hu
      · exact le_rfl
      · exact hlt.le.trans (hle u hu)
  · next hge =>
      refine ⟨fun u hu => ?_, hat.imp_right fun h => ⟨mem_cons_of_mem _ h.1, h.2⟩⟩
      rcases mem_cons.mp hu with rfl | hu
      · exact not_lt.mp hge
      · exact hle u hu

/-- Nodes that are no nearer than the best one may be left out. -/
theorem BestOf.prune {T : List (Node K)} (h : BestOf selected q S b)
    (hT : ∀ u ∈ T, b.d ≤ tmp selected q u) : BestOf selected q (T ++ S) b := by
  refine ⟨fun u hu => ?_, h.2.imp_right fun h => ⟨mem_append_right _ h.1, h.2⟩⟩
  rcases mem_append.mp hu with hu | hu
  · exact hT u hu
  · exact h.1 u hu

theorem le_tmp_of_le_distanceSq {u : Node K} {d : WithTop K}
    (h : d ≤ ((distanceSq u.pos q : K) : WithTop K)) : d ≤ tmp selected q u := by
  unfold tmp
  split
  · exact le_top
  · exact h

variable [IsStrictOrderedRing K] {t : Tree K}

/-- **Pruning is sound**: a jump finds the nearest node of its chain, also where the
circle does not reach the line and the chain is cut. -/
theorem bestOf_jump (ht : Ordered t) (h : BestOf selected q S b) :
    BestOf selected q (jumpChain q t ++ S) (jump selected q t b) := by
  induction t generalizing S b with
  | null => rwa [jumpChain, nil_append, jump]
  | node l v s r ihl ihr =>
      rw [jumpChain_node, jump_node]
      split_ifs with hleaf hcross
      · have hnil : jumpChain q (farChild q l v s r) = [] := by
          obtain ⟨hl, hr⟩ := hleaf
          cases l with
          | node => exact absurd hl (by simp [Tree.isNull])
          | null =>
              cases r with
              | node => exact absurd hr (by simp [Tree.isNull])
              | null => rw [farChild, ite_self, jumpChain]
        rw [hnil]
        exact bestOf_improve h v
      · have himp := bestOf_improve h v
        have hfar : BestOf selected q (jumpChain q (farChild q l v s r) ++ v :: S)
            (jump selected q (farChild q l v s r) (improve selected q b v)) := by
          have hord := ordered_farChild ht q
          unfold farChild at hord ⊢
          split at hord
          · next hq => simpa [hq] using ihr hord himp
          · next hq => simpa [hq] using ihl hord himp
        have hmem : ∀ u, u ∈ v :: jumpChain q (farChild q l v s r) ++ S ↔
            u ∈ jumpChain q (farChild q l v s r) ++ v :: S := by
          intro u
          simp only [mem_append, mem_cons]
          tauto
        exact ⟨fun u hu => hfar.1 u ((hmem u).mp hu),
          hfar.2.imp_right fun h => ⟨(hmem _).mpr h.1, h.2⟩⟩
      · -- The circle stays on this side of the line, so the whole chain is too far away.
        apply h.prune
        intro u hu
        apply le_tmp_of_le_distanceSq
        have hline : b.d ≤ (((s.coord v.pos - s.coord q) * (s.coord v.pos - s.coord q) : K) :
            WithTop K) := not_lt.mp hcross
        refine hline.trans (WithTop.coe_le_coe.mpr ?_)
        rcases mem_cons.mp hu with rfl | hu
        · exact coord_le_distanceSq s _ q
        · exact line_le_distanceSq (far_of_mem_farChild ht (jumpChain_subset q _ hu))

/-- Below a node, the path down ends in some last node, and re-walking the path finds the
nearest of the searched nodes. -/
theorem descend_spec (ht : Ordered t) (hne : t.isNull = false) (stack : List (Tree K)) :
    ∃ l v s r path, descend q t stack = .node l v s r :: (path ++ stack) ∧
      BestOf selected q (searched q t) (rewalk selected q path ⟨v, tmp selected q v⟩) := by
  induction t generalizing stack with
  | null => exact absurd hne (by simp [Tree.isNull])
  | node l v s r ihl ihr =>
      have hdesc : descend q (.node l v s r) stack =
          descend q (nearChild q l v s r) (.node l v s r :: stack) := by
        rw [descend, nearChild]
        split <;> rfl
      rw [hdesc, searched_node]
      cases hnear : (nearChild q l v s r).isNull with
      | true =>
          refine ⟨l, v, s, r, [], ?_, ?_⟩
          · cases h : nearChild q l v s r with
            | null => rw [descend]; rfl
            | node => rw [h] at hnear; exact absurd hnear (by simp [Tree.isNull])
          · rw [rewalk, if_pos rfl]
            exact ⟨fun u hu => by rw [mem_singleton.mp hu],
              Or.inr ⟨mem_singleton_self v, rfl⟩⟩
      | false =>
          have hih : ∃ l' v' s' r' path, descend q (nearChild q l v s r) (.node l v s r :: stack) =
              .node l' v' s' r' :: (path ++ .node l v s r :: stack) ∧
              BestOf selected q (searched q (nearChild q l v s r))
                (rewalk selected q path ⟨v', tmp selected q v'⟩) := by
            unfold nearChild at hnear ⊢
            split at hnear
            · next hq => simpa [hq] using ihl ht.2.2.1 hnear (.node l v s r :: stack)
            · next hq => simpa [hq] using ihr ht.2.2.2 hnear (.node l v s r :: stack)
          obtain ⟨l', v', s', r', path, hpath, hbest⟩ := hih
          refine ⟨l', v', s', r', path ++ [.node l v s r], ?_, ?_⟩
          · rw [hpath, append_assoc, singleton_append]
          · rw [rewalk_append, rewalk_cons, rewalk, if_neg (by simp)]
            exact bestOf_jump ht hbest

/-- **The search returns the nearest unselected node of those it looks at.** -/
theorem kdtree2dSearch_spec (ht : Ordered t) (hne : t.isNull = false) :
    ∃ b, kdtree2dSearch selected q t =
        some ⟨some b.nearest, b.d, Function.update selected b.nearest.id true⟩ ∧
      BestOf selected q (searched q t) b := by
  obtain ⟨l, v, s, r, path, hpath, hbest⟩ := @descend_spec _ _ _ selected q _ _ ht hne []
  refine ⟨_, ?_, hbest⟩
  rw [kdtree2dSearch, hpath, append_nil]

end Best

/-! ## The nearest unselected node of the table -/

section Nearest

variable [Field K] [LinearOrder K]

/-- The node `v` is not marked `KNN_selected`. -/
def Unselected (selected : ℕ → Bool) (v : Node K) : Prop :=
  selected v.id = false

/-- What a nearest-neighbour search over the nodes `S` has to return: an unselected node at
minimal distance with that distance, and no node when all are selected. -/
structure IsNearest (selected : ℕ → Bool) (q : Point K) (S : List (Node K)) (f : Found K) :
    Prop where
  some_of_unselected : (∃ u ∈ S, Unselected selected u) →
    ∃ v ∈ S, f.nearest = some v ∧ Unselected selected v ∧
      f.dist = ((distanceSq v.pos q : K) : WithTop K) ∧
      ∀ u ∈ S, Unselected selected u → distanceSq v.pos q ≤ distanceSq u.pos q
  none_of_selected : (∀ u ∈ S, ¬ Unselected selected u) → f.nearest = none

variable {selected : ℕ → Bool}

omit [LinearOrder K] in
theorem tmp_of_unselected {q : Point K} {v : Node K} (h : Unselected selected v) :
    tmp selected q v = ((distanceSq v.pos q : K) : WithTop K) := by
  rw [tmp, h]
  rfl

omit [LinearOrder K] in
theorem unselected_of_tmp {q : Point K} {v : Node K} (h : tmp selected q v ≠ ⊤) :
    Unselected selected v := by
  unfold tmp at h
  split at h
  · exact absurd rfl h
  · next hv => exact Bool.eq_false_iff.mpr hv

theorem doBuildKdtree_isNull_eq_false (qs : Qsort (Node K)) {l : List (Node K)} (h : l ≠ []) :
    (doBuildKdtree qs l).isNull = false := by
  cases hb : doBuildKdtree qs l with
  | node => rfl
  | null =>
      have hperm := nodes_doBuildKdtree_perm qs l
      rw [hb] at hperm
      exact absurd hperm.nil_eq.symm h

variable [IsStrictOrderedRing K]

/-- **When the search is right**: on the tree of any non-empty table, `kdtree2d_search`
returns the nearest unselected node if and only if some node is unselected and no
unselected node that the search leaves out is nearer than all unselected `searched` ones. -/
theorem kdtree2d_search_nearest_iff (qs : Qsort (Node K)) (p : Point K) (ps : List (Point K))
    (selected : ℕ → Bool) (q : Point K) :
    ∃ f, kdtree2dSearch selected q (buildKdtree qs (p :: ps)) = some f ∧
      (IsNearest selected q (table (p :: ps)) f ↔
        (∃ u ∈ table (p :: ps), Unselected selected u) ∧
        ∀ u ∈ table (p :: ps), Unselected selected u →
          ∃ v ∈ searched q (buildKdtree qs (p :: ps)), Unselected selected v ∧
            distanceSq v.pos q ≤ distanceSq u.pos q) := by
  have hne : table (p :: ps) ≠ [] := by simp [table]
  obtain ⟨b, hb, hle, hat⟩ := @kdtree2dSearch_spec _ _ _ selected q _ _
    (ordered_doBuildKdtree qs (table (p :: ps))) (doBuildKdtree_isNull_eq_false qs hne)
  have hmem : ∀ u ∈ searched q (buildKdtree qs (p :: ps)), u ∈ table (p :: ps) := fun u hu =>
    (nodes_doBuildKdtree_perm qs _).mem_iff.mp (searched_subset q _ hu)
  refine ⟨_, hb, ?_, ?_⟩
  · intro h
    have hex : ∃ u ∈ table (p :: ps), Unselected selected u := by
      by_contra hno
      have hnone := h.none_of_selected fun u hu hsel => hno ⟨u, hu, hsel⟩
      exact absurd hnone (by simp)
    refine ⟨hex, fun u hu hsel => ?_⟩
    obtain ⟨v, -, -, -, hdist, hmin⟩ := h.some_of_unselected hex
    have hd : b.d = ((distanceSq v.pos q : K) : WithTop K) := hdist
    rcases hat with htop | ⟨hsearched, htmp⟩
    · rw [htop] at hd
      exact absurd hd.symm (WithTop.coe_ne_top)
    · have hb' : Unselected selected b.nearest :=
        unselected_of_tmp (q := q) (by rw [← htmp, hd]; exact WithTop.coe_ne_top)
      refine ⟨b.nearest, hsearched, hb', ?_⟩
      rw [hd, tmp_of_unselected hb', WithTop.coe_inj] at htmp
      rw [← htmp]
      exact hmin u hu hsel
  · rintro ⟨⟨u₀, hu₀, hsel₀⟩, hcover⟩
    have hlt : ∀ u ∈ table (p :: ps), Unselected selected u →
        b.d ≤ ((distanceSq u.pos q : K) : WithTop K) := by
      intro u hu hsel
      obtain ⟨v, hv, hvsel, hvu⟩ := hcover u hu hsel
      have hbv := hle v hv
      rw [tmp_of_unselected hvsel] at hbv
      exact hbv.trans (WithTop.coe_le_coe.mpr hvu)
    have hfin : b.d ≠ ⊤ := ne_top_of_le_ne_top WithTop.coe_ne_top (hlt u₀ hu₀ hsel₀)
    obtain ⟨hsearched, htmp⟩ := hat.resolve_left hfin
    have hb' : Unselected selected b.nearest := unselected_of_tmp (q := q) (htmp ▸ hfin)
    have hd : b.d = ((distanceSq b.nearest.pos q : K) : WithTop K) :=
      htmp.trans (tmp_of_unselected hb')
    refine ⟨fun _ => ⟨b.nearest, hmem _ hsearched, rfl, hb', hd, ?_⟩, ?_⟩
    · intro u hu hsel
      have := hlt u hu hsel
      rwa [hd, WithTop.coe_le_coe] at this
    · intro hall
      exact absurd hsel₀ (hall u₀ hu₀)

/-- The tree of two points, split at the second one. -/
theorem buildKdtree_two : buildKdtree (Qsort.insertion (Node ℚ)) [⟨0, 0⟩, ⟨2, 1⟩] =
    .node (.node .null ⟨0, ⟨0, 0⟩⟩ .y .null) ⟨1, ⟨2, 1⟩⟩ .x .null := by
  have hone : chooseSplit (Qsort.insertion (Node ℚ)) [⟨0, ⟨0, 0⟩⟩] = (.y, [⟨0, ⟨0, 0⟩⟩]) := by
    norm_num [chooseSplit, variance, Split.coord, Qsort.insertion]
  have htwo : chooseSplit (Qsort.insertion (Node ℚ)) [⟨0, ⟨0, 0⟩⟩, ⟨1, ⟨2, 1⟩⟩] =
      (.x, [⟨0, ⟨0, 0⟩⟩, ⟨1, ⟨2, 1⟩⟩]) := by
    norm_num [chooseSplit, variance, Split.coord, Qsort.insertion, compareAt,
      List.insertionSort, List.orderedInsert]
  have hleaf : doBuildKdtree (Qsort.insertion (Node ℚ)) [⟨0, ⟨0, 0⟩⟩] =
      .node .null ⟨0, ⟨0, 0⟩⟩ .y .null := by
    rw [doBuildKdtree_eq_node (v := ⟨0, ⟨0, 0⟩⟩) (by simp) (by rw [hone]; rfl), hone]
    simp
  change doBuildKdtree _ [⟨0, ⟨0, 0⟩⟩, ⟨1, ⟨2, 1⟩⟩] = _
  rw [doBuildKdtree_eq_node (v := ⟨1, ⟨2, 1⟩⟩) (by simp) (by rw [htwo]; rfl), htwo]
  simp [hleaf]

/-- A query to the left of the root: both nodes are looked at, and the search is right. -/
theorem kdtree2d_search_nearest_iff_two :
    ∃ f, kdtree2dSearch (fun _ => false) (⟨1, 0⟩ : Point ℚ)
        (buildKdtree (Qsort.insertion _) [⟨0, 0⟩, ⟨2, 1⟩]) = some f ∧
      IsNearest (fun _ => false) ⟨1, 0⟩ (table [⟨0, 0⟩, ⟨2, 1⟩]) f := by
  obtain ⟨f, hf, hiff⟩ := kdtree2d_search_nearest_iff (Qsort.insertion _) (⟨0, 0⟩ : Point ℚ)
    [⟨2, 1⟩] (fun _ => false) ⟨1, 0⟩
  refine ⟨f, hf, hiff.mpr ⟨⟨⟨0, ⟨0, 0⟩⟩, by simp [table], rfl⟩, fun u hu _ => ?_⟩⟩
  have hsearched : searched (⟨1, 0⟩ : Point ℚ)
      (buildKdtree (Qsort.insertion _) [⟨0, 0⟩, ⟨2, 1⟩]) =
      [⟨1, ⟨2, 1⟩⟩, ⟨0, ⟨0, 0⟩⟩] := by
    rw [buildKdtree_two]
    norm_num [searched, jumpChain, nearChild, Tree.isNull, Split.coord]
  refine ⟨u, ?_, rfl, le_rfl⟩
  rw [hsearched]
  simpa [table, or_comm] using hu

/-- A query to the right of both points: the node on the left is never looked at, and the
search returns the farther one. -/
theorem kdtree2d_search_misses_left_child :
    ¬ ∀ f, kdtree2dSearch (fun _ => false) (⟨3, -5⟩ : Point ℚ)
        (buildKdtree (Qsort.insertion _) [⟨0, 0⟩, ⟨2, 1⟩]) = some f →
      IsNearest (fun _ => false) ⟨3, -5⟩ (table [⟨0, 0⟩, ⟨2, 1⟩]) f := by
  intro h
  have hfound : kdtree2dSearch (fun _ => false) (⟨3, -5⟩ : Point ℚ)
      (buildKdtree (Qsort.insertion _) [⟨0, 0⟩, ⟨2, 1⟩]) =
      some ⟨some ⟨1, ⟨2, 1⟩⟩, ((37 : ℚ) : WithTop ℚ), Function.update (fun _ => false) 1 true⟩ := by
    rw [buildKdtree_two]
    norm_num [kdtree2dSearch, descend, Split.coord, rewalk, tmp, distanceSq]
  obtain ⟨v, -, hv, -, -, hmin⟩ := (h _ hfound).some_of_unselected
    ⟨⟨0, ⟨0, 0⟩⟩, by simp [table], rfl⟩
  have hle := hmin ⟨0, ⟨0, 0⟩⟩ (by simp [table]) rfl
  rw [← Option.some.inj hv] at hle
  norm_num [distanceSq] at hle

end Nearest

end V2I.Kdtree
