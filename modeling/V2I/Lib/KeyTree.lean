import Mathlib.Data.List.Nodup
import Mathlib.Data.List.Perm.Basic

/-!
# V2I.Lib.KeyTree

A search tree over nodes by a key that the nodes have in memory, as the list of its nodes: to its
users a tree is the set of its nodes, and no two of them have one key.

The memory is the function `key`, so it may change under a tree: `find_congr` and `Keyed.congr`
say that only the keys of its own nodes matter.
-/

namespace V2I.Index

variable {ν κ : Type*} [DecidableEq ν] [DecidableEq κ] {key key' : ν → Option κ} {t : List ν}
  {n m : ν} {k : κ}

/-- The node with a key. -/
def find (key : ν → Option κ) (t : List ν) (k : κ) : Option ν := t.find? (key · = some k)

/-- A node goes in, or a node with its key is there. -/
def insert (key : ν → Option κ) (t : List ν) (n : ν) : Option (List ν) :=
  if t.any (key · = key n) then none else some (t ++ [n])

/-- Nodes that are different and have different keys. -/
structure Keyed (key : ν → Option κ) (t : List ν) : Prop where
  nodup : t.Nodup
  inj : ∀ m ∈ t, ∀ n ∈ t, key m = key n → m = n

omit [DecidableEq ν] in
theorem find_eq_none_iff : find key t k = none ↔ ∀ n ∈ t, key n ≠ some k := by
  simp [find]

omit [DecidableEq ν] in
theorem find_mem (h : find key t k = some n) : n ∈ t ∧ key n = some k :=
  ⟨List.mem_of_find?_eq_some h, by simpa using List.find?_some h⟩

omit [DecidableEq ν] in
theorem find_eq_some_iff (h : Keyed key t) : find key t k = some n ↔ n ∈ t ∧ key n = some k := by
  refine ⟨find_mem, fun ⟨hn, hk⟩ => ?_⟩
  cases hfind : find key t k with
  | none => exact absurd hk (find_eq_none_iff.mp hfind n hn)
  | some m =>
      obtain ⟨hm, hkm⟩ := find_mem hfind
      rw [h.inj m hm n hn (hkm.trans hk.symm)]

omit [DecidableEq ν] in
theorem find_congr (h : ∀ n ∈ t, key' n = key n) : find key' t k = find key t k := by
  induction t with
  | nil => rfl
  | cons m t ih =>
      obtain ⟨hm, ht⟩ := List.forall_mem_cons.mp h
      simp only [find, List.find?_cons, hm] at ih ⊢
      rw [ih ht]

omit [DecidableEq ν] [DecidableEq κ] in
theorem Keyed.congr (h : Keyed key t) (heq : ∀ n ∈ t, key' n = key n) : Keyed key' t where
  nodup := h.nodup
  inj := fun m hm n hn hk => h.inj m hm n hn ((heq m hm).symm.trans (hk.trans (heq n hn)))

omit [DecidableEq ν] in
theorem insert_eq_some (h : ∀ m ∈ t, key m ≠ key n) : insert key t n = some (t ++ [n]) :=
  if_neg (by simpa using h)

omit [DecidableEq ν] in
theorem insert_eq_none (hm : m ∈ t) (hk : key m = key n) : insert key t n = none :=
  if_pos (List.any_eq_true.mpr ⟨m, hm, by simpa using hk⟩)

omit [DecidableEq ν] [DecidableEq κ] in
theorem Keyed.append (h : Keyed key t) (hnot : n ∉ t) (hkey : ∀ m ∈ t, key m ≠ key n) :
    Keyed key (t ++ [n]) where
  nodup := h.nodup.append (List.nodup_singleton n) (by simpa using hnot)
  inj := by
    intro a ha b hb hk
    rcases List.mem_append.mp ha with ha | ha <;> rcases List.mem_append.mp hb with hb | hb
    · exact h.inj a ha b hb hk
    · rw [List.mem_singleton.mp hb] at hk
      exact absurd hk (hkey a ha)
    · rw [List.mem_singleton.mp ha] at hk
      exact absurd hk.symm (hkey b hb)
    · rw [List.mem_singleton.mp ha, List.mem_singleton.mp hb]

omit [DecidableEq κ] in
theorem Keyed.erase (h : Keyed key t) (n : ν) : Keyed key (t.erase n) where
  nodup := h.nodup.erase n
  inj := fun a ha b hb => h.inj a (List.mem_of_mem_erase ha) b (List.mem_of_mem_erase hb)

omit [DecidableEq ν] in
/-- A new node is found under its key, the others as before. -/
theorem find_append (h : Keyed key (t ++ [n])) (hk : key n = some k) (k' : κ) :
    find key (t ++ [n]) k' = if k' = k then some n else find key t k' := by
  split_ifs with heq
  · exact (find_eq_some_iff h).mpr ⟨by simp, heq ▸ hk⟩
  · rw [find, List.find?_append, find]
    simp [hk, Ne.symm heq]

/-- Without a node its key is not found, the others as before. -/
theorem find_erase (h : Keyed key t) (hn : n ∈ t) (hk : key n = some k) (k' : κ) :
    find key (t.erase n) k' = if k' = k then none else find key t k' := by
  split_ifs with heq
  · subst heq
    refine find_eq_none_iff.mpr fun m hm hkm => ?_
    obtain ⟨hne, hm⟩ := h.nodup.mem_erase_iff.mp hm
    exact hne (h.inj m hm n hn (hkm.trans hk.symm))
  · refine Option.ext fun m => ?_
    rw [find_eq_some_iff (h.erase n), find_eq_some_iff h, h.nodup.mem_erase_iff]
    refine and_congr_left fun hkm => and_iff_right ?_
    rintro rfl
    exact heq (Option.some.inj (hkm.symm.trans hk))

end V2I.Index

/-!
## In the order of their keys

A balanced search tree over keys that do not change, as the list of its elements in the order of
their keys: what a walk from the first element to the last one sees.

A tree is determined by its elements (`Ordered.eq_of_mem_iff`), so nothing that only walks it or
looks a key up depends on the order in which they went in.
-/

namespace V2I.KeyTree

variable {α κ : Type*} [LT κ] [DecidableLT κ] [DecidableEq κ] {key : α → κ} {x : α} {t t' : List α}

/-- An element goes in at its place; `none` where its key is there. -/
def insert (key : α → κ) (x : α) : List α → Option (List α)
  | [] => some [x]
  | y :: ys =>
      if key x < key y then some (x :: y :: ys)
      else if key x = key y then none
      else (insert key x ys).map (y :: ·)

/-- Elements that go in one after the other. -/
def insertAll (key : α → κ) : List α → List α → Option (List α)
  | t, [] => some t
  | t, x :: xs => (insert key x t).bind fun t => insertAll key t xs

/-- The elements stand in the order of their keys, and no two have the same. -/
def Ordered (key : α → κ) (t : List α) : Prop := t.Pairwise fun x y => key x < key y

theorem insert_perm (h : insert key x t = some t') : t'.Perm (x :: t) := by
  induction t generalizing t' with
  | nil =>
      obtain rfl := Option.some.inj h
      exact .refl _
  | cons y ys ih =>
      rw [insert] at h
      split at h
      · obtain rfl := Option.some.inj h
        exact .refl _
      · split at h
        · cases h
        · obtain ⟨zs, hzs, rfl⟩ := Option.map_eq_some_iff.mp h
          exact ((ih hzs).cons y).trans (.swap x y ys)

theorem insert_isSome (h : ∀ y ∈ t, key x ≠ key y) : ∃ t', insert key x t = some t' := by
  induction t with
  | nil => exact ⟨[x], rfl⟩
  | cons y ys ih =>
      obtain ⟨hy, hys⟩ := List.forall_mem_cons.mp h
      obtain ⟨zs, hzs⟩ := ih hys
      rw [insert, if_neg hy, hzs]
      split
      · exact ⟨_, rfl⟩
      · exact ⟨_, rfl⟩

theorem insertAll_perm {xs : List α} (h : insertAll key t xs = some t') : t'.Perm (t ++ xs) := by
  induction xs generalizing t with
  | nil =>
      obtain rfl := Option.some.inj h
      rw [List.append_nil]
  | cons x xs ih =>
      obtain ⟨t₁, hfirst, hrest⟩ := Option.bind_eq_some_iff.mp h
      refine (ih hrest).trans (((insert_perm hfirst).append_right xs).trans ?_)
      exact List.perm_middle.symm

/-- Elements with different keys go in. -/
theorem insertAll_isSome {xs : List α} (h : ((t ++ xs).map key).Nodup) :
    ∃ t', insertAll key t xs = some t' := by
  induction xs generalizing t with
  | nil => exact ⟨t, rfl⟩
  | cons x xs ih =>
      have hperm : (t ++ x :: xs).Perm (x :: t ++ xs) := List.perm_middle
      have hnodup := (hperm.map key).nodup_iff.mp h
      have hx : ∀ y ∈ t, key x ≠ key y := by
        rw [List.cons_append, List.map_cons, List.nodup_cons] at hnodup
        intro y hy heq
        exact hnodup.1 (heq ▸ List.mem_map_of_mem (List.mem_append_left xs hy))
      obtain ⟨t₁, hfirst⟩ := insert_isSome hx
      have hrest := (((insert_perm hfirst).append_right xs).map key).nodup_iff.mpr hnodup
      obtain ⟨t', ht'⟩ := ih hrest
      exact ⟨t', by rw [insertAll, hfirst, Option.bind_some, ht']⟩

section Order

variable [Trans (α := κ) (· < ·) (· < ·) (· < ·)] [Std.Trichotomous (α := κ) (· < ·)]

theorem insert_ordered (ht : Ordered key t) (h : insert key x t = some t') : Ordered key t' := by
  induction t generalizing t' with
  | nil =>
      obtain rfl := Option.some.inj h
      exact List.pairwise_singleton _ _
  | cons y ys ih =>
      obtain ⟨hy, hys⟩ := List.pairwise_cons.mp ht
      rw [insert] at h
      split at h
      · rename_i hlt
        obtain rfl := Option.some.inj h
        refine List.pairwise_cons.mpr ⟨List.forall_mem_cons.mpr ⟨hlt, fun z hz => ?_⟩, ht⟩
        exact Trans.trans hlt (hy z hz)
      · rename_i hnlt
        split at h
        · cases h
        · rename_i hne
          obtain ⟨zs, hzs, rfl⟩ := Option.map_eq_some_iff.mp h
          refine List.pairwise_cons.mpr ⟨fun z hz => ?_, ih hys hzs⟩
          obtain rfl | hz := List.mem_cons.mp ((insert_perm hzs).mem_iff.mp hz)
          · by_contra hngt
            exact hne (Std.Trichotomous.trichotomous _ _ hnlt hngt)
          · exact hy z hz

theorem insertAll_ordered {xs : List α} (ht : Ordered key t) (h : insertAll key t xs = some t') :
    Ordered key t' := by
  induction xs generalizing t with
  | nil =>
      obtain rfl := Option.some.inj h
      exact ht
  | cons x xs ih =>
      obtain ⟨t₁, hfirst, hrest⟩ := Option.bind_eq_some_iff.mp h
      exact ih (insert_ordered ht hfirst) hrest

end Order

omit [DecidableLT κ] [DecidableEq κ] in
/-- A tree is determined by its elements. -/
theorem Ordered.eq_of_mem_iff [Std.Asymm (α := κ) (· < ·)] (ht : Ordered key t)
    (ht' : Ordered key t') (h : ∀ x, x ∈ t ↔ x ∈ t') : t = t' := by
  have hnodup : ∀ {l}, Ordered key l → l.Nodup := by
    intro l hl
    refine List.Pairwise.imp (fun {a b} hlt heq => ?_) hl
    rw [heq] at hlt
    exact Std.Asymm.asymm _ _ hlt hlt
  have hperm : t.Perm t' := (List.perm_ext_iff_of_nodup (hnodup ht) (hnodup ht')).mpr h
  exact hperm.eq_of_pairwise (fun a b _ _ hab hba => absurd hba (Std.Asymm.asymm _ _ hab)) ht ht'

end V2I.KeyTree
