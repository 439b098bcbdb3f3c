import Mathlib.Data.List.Basic
import Mathlib.Tactic.NormNum

/-!
# V2I.Lib.Lookup

Looking up the entry of an ordered map at or before a key, as `upper_bound` and one step
back do on a `std::map`.
-/

namespace V2I

open Std List

variable {κ ν : Type*} [Ord κ] [TransOrd κ]

theorem getEntryLE?_eq_findRev? (t : ExtTreeMap κ ν) (k : κ) :
    t.getEntryLE? k = t.toList.findRev? fun e => (compare e.1 k).isLE := by
  obtain ⟨t⟩ := t
  induction t using ExtDTreeMap.inductionOn with
  | mk m =>
      change DTreeMap.Internal.Impl.Const.getEntryLE? k m.inner =
        (DTreeMap.Internal.Impl.Const.toList m.inner).findRev? _
      rw [DTreeMap.Internal.Impl.Const.getEntryLE?_eq_map,
        DTreeMap.Internal.Impl.getEntryLE?_eq_findRev? m.wf.ordered,
        DTreeMap.Internal.Impl.Const.toList_eq_toListModel_map, findRev?_eq_find?_reverse,
        findRev?_eq_find?_reverse, ← map_reverse, find?_map]
      rfl

theorem getEntryLE?_sound [LawfulEqOrd κ] {t : ExtTreeMap κ ν} {k : κ} {e : κ × ν}
    (h : t.getEntryLE? k = some e) :
    t[e.1]? = some e.2 ∧ (compare e.1 k).isLE ∧
      ∀ k' ∈ t, (compare k' k).isLE → (compare k' e.1).isLE := by
  rw [getEntryLE?_eq_findRev?, findRev?_eq_find?_reverse, find?_eq_some_iff_append] at h
  obtain ⟨hle, later, earlier, hsplit, hlater⟩ := h
  have hmem : ∀ e', e' ∈ t.toList ↔ e' ∈ later ++ e :: earlier := fun e' => by
    rw [← hsplit, mem_reverse]
  refine ⟨?_, hle, fun k' hk' hbefore => ?_⟩
  · exact ExtTreeMap.mem_toList_iff_getElem?_eq_some.mp ((hmem e).mpr (by simp))
  · obtain ⟨v', hv'⟩ := Option.isSome_iff_exists.mp (ExtTreeMap.mem_iff_isSome_getElem?.mp hk')
    have hin := (hmem (k', v')).mp (ExtTreeMap.mem_toList_iff_getElem?_eq_some.mpr hv')
    rcases mem_append.mp hin with hin | hin
    · simpa [hbefore] using hlater _ hin
    · rcases mem_cons.mp hin with rfl | hin
      · exact ReflCmp.isLE_rfl
      · have hsorted := pairwise_reverse.mpr t.ordered_keys_toList
        rw [hsplit, pairwise_append, pairwise_cons] at hsorted
        exact Ordering.isLE_of_eq_lt (hsorted.2.1.1 _ hin)

/-- **The entry found** is the last one not after the key. -/
theorem getEntryLE?_eq_some_iff [LawfulEqOrd κ] {t : ExtTreeMap κ ν} {k : κ} {e : κ × ν} :
    t.getEntryLE? k = some e ↔ t[e.1]? = some e.2 ∧ (compare e.1 k).isLE ∧
      ∀ k' ∈ t, (compare k' k).isLE → (compare k' e.1).isLE := by
  refine ⟨getEntryLE?_sound, fun ⟨he, hle, hlast⟩ => ?_⟩
  have hin := ExtTreeMap.mem_toList_iff_getElem?_eq_some.mpr he
  obtain ⟨e', he'⟩ : ∃ e', t.getEntryLE? k = some e' := by
    rw [getEntryLE?_eq_findRev?, findRev?_eq_find?_reverse, ← Option.isSome_iff_exists,
      find?_isSome]
    exact ⟨e, mem_reverse.mpr hin, hle⟩
  obtain ⟨hfound, hle', hlast'⟩ := getEntryLE?_sound he'
  have hmem : e.1 ∈ t ∧ e'.1 ∈ t := by
    simp only [ExtTreeMap.mem_iff_isSome_getElem?, he, hfound, Option.isSome_some, and_self]
  have hkey : e'.1 = e.1 := LawfulEqCmp.eq_of_compare
    (OrientedCmp.isLE_antisymm (hlast _ hmem.2 hle') (hlast' _ hmem.1 hle))
  rw [he', Option.some_inj]
  exact Prod.ext hkey (Option.some_inj.mp (hfound.symm.trans (hkey ▸ he)))

end V2I
