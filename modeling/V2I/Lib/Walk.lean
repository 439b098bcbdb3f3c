import Mathlib.Algebra.Order.BigOperators.Group.List
import Mathlib.Data.List.Permutation
import Mathlib.Data.Set.Finite.Lemmas
import Mathlib.Data.Set.Finite.List

/-!
# V2I.Lib.Walk

Walks in a directed graph whose edges have weights. The edges of a walk need not meet: behind an
edge the walk goes on from the place of its end, so that a walk proper is one whose places are the
vertices themselves.

* `Walk.exists_path` — a walk can do without coming to a place twice;
* `exists_shortestInto` — where a walk leads into a vertex, there is a shortest one.
-/

namespace V2I

open List

/-- A directed graph with parallel edges. -/
structure WeightedGraph (V E R : Type*) where
  edges : List E
  src : E → V
  dst : E → V
  weight : E → R

namespace WeightedGraph

variable {V E R : Type*} (g : WeightedGraph V E R) (place : V → V) (s t : V)

/-- A walk from a vertex, by its edges, and the place it comes to. -/
inductive Walk : List E → V → Prop
  | nil : Walk [] s
  | snoc {es e} : Walk es (g.src e) → e ∈ g.edges → Walk (es ++ [e]) (place (g.dst e))

/-- The weight of a walk. -/
def length [AddMonoid R] (es : List E) : R := (es.map g.weight).sum

/-- The places that a walk comes to. -/
def nodes (es : List E) : List V := s :: es.map fun e => place (g.dst e)

/-- No walk to the place is shorter. -/
structure Shortest [AddMonoid R] [LE R] (es : List E) : Prop where
  walk : g.Walk place s es t
  le : ∀ es', g.Walk place s es' t → g.length es ≤ g.length es'

/-- A walk and an edge behind it, which ends in the vertex itself. -/
structure LeadsInto (es : List E) (e : E) : Prop where
  walk : g.Walk place s es (g.src e)
  mem : e ∈ g.edges
  dst : g.dst e = t

/-- A walk without a place twice and an edge behind it, such that nothing shorter leads into the
vertex. -/
structure ShortestInto [AddMonoid R] [LE R] (es : List E) (e : E) : Prop where
  leads : g.LeadsInto place s t es e
  nodup : (g.nodes place s es).Nodup
  le : ∀ es' e', g.LeadsInto place s t es' e' →
    g.length es + g.weight e ≤ g.length es' + g.weight e'

variable {g place s t} {v : V} {es : List E}

@[simp]
theorem length_concat [AddMonoid R] (es : List E) (e : E) :
    g.length (es ++ [e]) = g.length es + g.weight e := by simp [length]

theorem nodes_concat (s : V) (es : List E) (e : E) :
    g.nodes place s (es ++ [e]) = g.nodes place s es ++ [place (g.dst e)] := by simp [nodes]

theorem nodes_initial {es' : List E} (h : es' <+: es) (s : V) :
    g.nodes place s es' <+: g.nodes place s es :=
  cons_prefix_cons.mpr ⟨rfl, h.map _⟩

theorem Walk.subset (h : g.Walk place s es v) : es ⊆ g.edges := by
  induction h with
  | nil => exact nil_subset _
  | snoc _ he ih => exact append_subset.mpr ⟨ih, by simpa using he⟩

/-- A walk ends where it began, or behind its last edge. -/
theorem Walk.cases_snoc (h : g.Walk place s es v) : (es = [] ∧ v = s) ∨
    ∃ es' e, es = es' ++ [e] ∧ g.Walk place s es' (g.src e) ∧ e ∈ g.edges ∧
      v = place (g.dst e) := by
  cases h with
  | nil => exact .inl ⟨rfl, rfl⟩
  | snoc h he => exact .inr ⟨_, _, rfl, h, he, rfl⟩

/-- The place behind an edge of a walk is where the walk ends or where its next edge begins. -/
theorem Walk.place_eq (h : g.Walk place s es v) :
    ∀ e ∈ es, place (g.dst e) = v ∨ ∃ e' ∈ es, place (g.dst e) = g.src e' := by
  induction h with
  | nil => simp
  | @snoc es e h he ih =>
    intro e' he'
    rcases mem_append.mp he' with he' | he'
    · rcases ih e' he' with hend | ⟨f, hf, hnext⟩
      · exact .inr ⟨e, by simp, hend⟩
      · exact .inr ⟨f, mem_append_left _ hf, hnext⟩
    · obtain rfl := mem_singleton.mp he'
      exact .inl rfl

/-- Where a walk proper starts from vertices that are their own places, its edges meet for the
places as well. -/
theorem Walk.of_id (h : g.Walk id s es v) (hs : place s = s)
    (hplace : ∀ e ∈ g.edges, place (g.src e) = g.src e) : g.Walk place s es (place v) := by
  induction h with
  | nil =>
    rw [hs]
    exact .nil
  | snoc h he ih => exact .snoc (hplace _ he ▸ ih) he

/-- A walk to another vertex leads into it. -/
theorem Walk.leadsInto (h : g.Walk id s es t) (hst : s ≠ t) (hs : place s = s)
    (hplace : ∀ e ∈ g.edges, place (g.src e) = g.src e) :
    ∃ es' e, es = es' ++ [e] ∧ g.LeadsInto place s t es' e := by
  rcases h.cases_snoc with ⟨-, hts⟩ | ⟨es', e, rfl, h', he, hdst⟩
  · exact absurd hts.symm hst
  · exact ⟨es', e, rfl, hplace e he ▸ h'.of_id hs hplace, he, hdst.symm⟩

theorem Walk.mono {edges : List E} (h : { g with edges }.Walk place s es v)
    (hedges : edges ⊆ g.edges) : g.Walk place s es v := by
  induction h with
  | nil => exact .nil
  | snoc _ he ih => exact .snoc ih (hedges he)

/-- A walk up to where it first comes to its end takes no edge out of it. -/
theorem Walk.exists_first (edges : List E) (h : g.Walk place s es t)
    (hedges : ∀ e ∈ g.edges, g.src e ≠ t → e ∈ edges) :
    ∃ es', es' <+: es ∧ { g with edges }.Walk place s es' t := by
  have hfirst : ∀ {es v}, g.Walk place s es v → { g with edges }.Walk place s es v ∨
      ∃ es', es' <+: es ∧ { g with edges }.Walk place s es' t := by
    intro es v h
    induction h with
    | nil => exact .inl .nil
    | @snoc es e _ he ih =>
      rcases ih with hwalk | ⟨es', hprefix, hwalk⟩
      · by_cases hsrc : g.src e = t
        · exact .inr ⟨es, prefix_append .., hsrc ▸ hwalk⟩
        · exact .inl (.snoc (g := { g with edges }) hwalk (hedges e he hsrc))
      · exact .inr ⟨es', hprefix.trans (prefix_append ..), hwalk⟩
  exact (hfirst h).elim (fun hwalk => ⟨es, prefix_rfl, hwalk⟩) id

/-! ## Walks without a place twice -/

/-- A walk up to a place that it comes to. -/
theorem Walk.exists_initial (h : g.Walk place s es v) {u : V} (hu : u ∈ g.nodes place s es) :
    ∃ es', es' <+: es ∧ g.Walk place s es' u := by
  induction h with
  | nil =>
    obtain rfl : u = s := by simpa [nodes] using hu
    exact ⟨[], prefix_rfl, .nil⟩
  | @snoc es e h he ih =>
    rw [nodes_concat] at hu
    rcases mem_append.mp hu with hu | hu
    · obtain ⟨es', hinitial, hwalk⟩ := ih hu
      exact ⟨es', hinitial.trans (prefix_append ..), hwalk⟩
    · obtain rfl := mem_singleton.mp hu
      exact ⟨es ++ [e], prefix_rfl, .snoc h he⟩

theorem Walk.exists_path (h : g.Walk place s es v) :
    ∃ path, g.Walk place s path v ∧ (g.nodes place s path).Nodup ∧ path.Sublist es := by
  induction h with
  | nil => exact ⟨[], .nil, nodup_singleton s, .slnil⟩
  | @snoc es e h he ih =>
    obtain ⟨path, hpath, hnodup, hsublist⟩ := ih
    by_cases hu : place (g.dst e) ∈ g.nodes place s path
    · obtain ⟨path', hinitial, hpath'⟩ := hpath.exists_initial hu
      exact ⟨path', hpath', (nodes_initial hinitial s).sublist.nodup hnodup,
        (hinitial.sublist.trans hsublist).trans (sublist_append_left ..)⟩
    · refine ⟨path ++ [e], .snoc hpath he, ?_, hsublist.append (.refl _)⟩
      rw [nodes_concat]
      exact hnodup.append (nodup_singleton _) (by simpa using hu)

/-- Such a walk takes no edge twice. -/
theorem subperm_of_nodup (hes : es ⊆ g.edges) (h : (g.nodes place s es).Nodup) :
    es.Subperm g.edges :=
  subperm_of_subset (nodup_cons.mp h).2.of_map hes

/-- Only finitely many walks come to no place twice. -/
theorem finite_paths (g : WeightedGraph V E R) (place : V → V) (s : V) :
    {es | es ⊆ g.edges ∧ (g.nodes place s es).Nodup}.Finite := by
  refine (finite_toSet (g.edges.sublists.flatMap List.permutations)).subset ?_
  rintro es ⟨hes, hnodup⟩
  obtain ⟨l, hperm, hsublist⟩ := subperm_of_nodup hes hnodup
  exact mem_flatMap.mpr
    ⟨l, mem_sublists.mpr hsublist, mem_permutations.mpr hperm.symm⟩

section Order

variable [AddCommMonoid R] [LinearOrder R] [IsOrderedAddMonoid R]

theorem length_le_of_sublist (hweight : ∀ e ∈ g.edges, 0 ≤ g.weight e) {es' : List E}
    (h : es'.Sublist es) (hes : es ⊆ g.edges) : g.length es' ≤ g.length es := by
  refine (h.map g.weight).sum_le_sum fun r hr => ?_
  obtain ⟨e, he, rfl⟩ := mem_map.mp hr
  exact hweight e (hes he)

theorem length_le_of_nodup (hweight : ∀ e ∈ g.edges, 0 ≤ g.weight e) (hes : es ⊆ g.edges)
    (h : (g.nodes place s es).Nodup) : g.length es ≤ g.length g.edges := by
  obtain ⟨l, hperm, hsublist⟩ := subperm_of_nodup hes h
  calc g.length es = g.length l := ((hperm.map g.weight).sum_eq).symm
    _ ≤ g.length g.edges := length_le_of_sublist hweight hsublist (List.Subset.refl _)

theorem exists_shortestInto (hweight : ∀ e ∈ g.edges, 0 ≤ g.weight e) {e : E}
    (h : g.LeadsInto place s t es e) : ∃ es e, g.ShortestInto place s t es e := by
  let paths : Set (List E × E) :=
    {p | g.LeadsInto place s t p.1 p.2 ∧ (g.nodes place s p.1).Nodup}
  have hpath : ∀ es e, g.LeadsInto place s t es e → ∃ path, (path, e) ∈ paths ∧
      g.length path ≤ g.length es := by
    intro es e h
    obtain ⟨path, hpath, hnodup, hsublist⟩ := h.walk.exists_path
    exact ⟨path, ⟨⟨hpath, h.mem, h.dst⟩, hnodup⟩,
      length_le_of_sublist hweight hsublist h.walk.subset⟩
  have hfinite : paths.Finite :=
    ((g.finite_paths place s).prod (finite_toSet g.edges)).subset
      fun p hp => ⟨⟨hp.1.walk.subset, hp.2⟩, hp.1.mem⟩
  obtain ⟨path, hmem, -⟩ := hpath es e h
  obtain ⟨p, hp, hmin⟩ := paths.exists_min_image (fun p => g.length p.1 + g.weight p.2) hfinite
    ⟨_, hmem⟩
  refine ⟨p.1, p.2, hp.1, hp.2, fun es' e' h' => ?_⟩
  obtain ⟨path', hmem', hle⟩ := hpath es' e' h'
  exact (hmin _ hmem').trans (add_le_add_left hle _)

end Order

end WeightedGraph

end V2I
