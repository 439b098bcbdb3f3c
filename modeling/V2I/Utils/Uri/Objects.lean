import Mathlib.Algebra.Order.BigOperators.Group.List
import V2I.Lib.Machine
import V2I.Lib.StdMap
import V2I.Utils.Uri.Accessors

/-!
# V2I.Utils.Uri.Objects

The `uri` objects, which share their values by counting references.
-/

namespace V2I.Uri

open Uri.Pointed List Option StdMap

/-- The values that live, each with its `_refcnt`. -/
abbrev Heap := StdMap ℕ (Pointed × ℤ)

/-- The objects with their `_data`, and the values. An object that is destroyed stays without a
value. -/
structure Objects where
  data : List (Option ℕ)
  heap : Heap
  deriving DecidableEq

/-- What the code does not determine: where `new` puts a value, where the characters of a local
string are, what a member that is not initialised holds, and how far apart two strings are. -/
structure Memory where
  alloc : Heap → ℕ
  fresh : ∀ heap : Heap, heap.find (alloc heap) = none
  buf : ℕ+
  portStartColon : ℕ
  distance : ℤ

/-- `addref()` -/
def addref (heap : Heap) (p : ℕ) : Heap :=
  match heap.find p with
  | none => heap
  | some (i, refcnt) => heap.set p (i, refcnt + 1)

/-- `release()` -/
def release (heap : Heap) (p : ℕ) : Heap :=
  match heap.find p with
  | none => heap
  | some (i, refcnt) => if refcnt - 1 ≤ 0 then heap.erase p else heap.set p (i, refcnt - 1)

/-- `if (self) self->release()` -/
def releaseData (heap : Heap) (self : Option ℕ) : Heap := self.elim heap (release heap)

namespace Objects

/-- No objects. -/
def new : Objects := ⟨[], .empty⟩

/-- `_data` of an object. -/
def self (σ : Objects) (o : ℕ) : Option ℕ := σ.data[o]?.join

/-- The value of an object. A value is only ever given to an object when it is loaded. -/
def value (σ : Objects) (o : ℕ) : Option Pointed :=
  (σ.self o).bind fun p => (σ.heap.find p).map Prod.fst

/-- `uri()` -/
def declare (σ : Objects) : Objects := { σ with data := σ.data ++ [none] }

/-- `operator=`. A copy is `uri()` and this. -/
def assign (σ : Objects) (o peer : ℕ) : Objects :=
  if o = peer then σ
  else
    let heap := releaseData σ.heap (σ.self o)
    match σ.self peer with
    | some p => ⟨σ.data.set o (some p), addref heap p⟩
    | none => ⟨σ.data.set o none, heap⟩

/-- `~uri()` -/
def destroy (σ : Objects) (o : ℕ) : Objects :=
  ⟨σ.data.set o none, releaseData σ.heap (σ.self o)⟩

/-- `add_query`, `change_query` and `clear_query` change the queries of the value in place. -/
def editQueries (σ : Objects) (o : ℕ) (edit : List QueryItem → List QueryItem) : Objects :=
  match σ.self o with
  | none => σ
  | some p =>
      { σ with heap := σ.heap.modify p fun e => ({ e.1 with queries := edit e.1.queries }, e.2) }

section

variable (signedChar : Bool) (Q : Qsort QueryItem) (mem : Memory)

/-- `change(uristr)`, none when the parser leaves the text. A uri made from a text is `uri()` and
this. -/
def change (σ : Objects) (o : ℕ) (uristr : Bytes) : Option (Objects × ℤ) :=
  let heap := releaseData σ.heap (σ.self o)
  match load signedChar Q uristr with
  | none => none
  | some none => some (⟨σ.data.set o none, heap⟩, 0)
  | some (some u) =>
      let p := mem.alloc heap
      some (⟨σ.data.set o (some p), heap.set p (u.pointed, 1)⟩, 1)

/-- `set_fullpath(newpath)`. The copy that it fails on is deleted. (An object whose value is gone,
for which there is an arbitrary result here, does not occur.) -/
def setFullpath (σ : Objects) (o : ℕ) (newpath : Option Bytes) : Objects × ℤ :=
  match newpath with
  | none => (σ, -EBADPARM)
  | some newpath =>
      if cstr newpath = [] then (σ, -EBADPARM)
      else
        match σ.self o with
        | none => (σ, -EINVALID)
        | some old =>
            match σ.heap.find old with
            | none => (σ, -EINVALID)
            | some (i, _) =>
                match (i.copy mem.portStartColon mem.distance).setFullpath mem.buf newpath with
                | none => (σ, -EBADPARM)
                | some i' =>
                    let p := mem.alloc σ.heap
                    (⟨σ.data.set o (some p), release (σ.heap.set p (i', 1)) old⟩, 0)

/-- The calls on objects. -/
inductive Call
  | declare
  | change (o : ℕ) (uristr : Bytes)
  | assign (o peer : ℕ)
  | destroy (o : ℕ)
  | editQueries (o : ℕ) (edit : List QueryItem → List QueryItem)
  | setFullpath (o : ℕ) (newpath : Option Bytes)

/-- The object that a call is made on. -/
def Call.object : Call → Option ℕ
  | .declare => none
  | .change o _ | .assign o _ | .destroy o | .editQueries o _ | .setFullpath o _ => some o

/-- One call, with its return value. It is made on an object that is there. -/
def step (σ : Objects) (c : Call) : Option (Objects × ℤ) :=
  if ∃ o ∈ c.object, σ.data.length ≤ o then none
  else
    match c with
    | .declare => some (σ.declare, 0)
    | .change o uristr => σ.change signedChar Q mem o uristr
    | .assign o peer => some (σ.assign o peer, 0)
    | .destroy o => some (σ.destroy o, 0)
    | .editQueries o edit => some (σ.editQueries o edit, 0)
    | .setFullpath o newpath => some (σ.setFullpath mem o newpath)

end

end Objects

/-! ## counting references -/

/-- The count of a value, 0 where there is none. -/
def refs (heap : Heap) (p : ℕ) : ℤ := (heap.find p).elim 0 Prod.snd

/-- The values have these counts, and one that lives has a positive count. -/
structure Counts (heap : Heap) (n : ℕ → ℤ) : Prop where
  refs : ∀ p, refs heap p = n p
  positive : ∀ p e, heap.find p = some e → 0 < e.2

theorem find_addref (heap : Heap) (p q : ℕ) : (addref heap p).find q =
    if q = p then (heap.find p).map fun e => (e.1, e.2 + 1) else heap.find q := by
  unfold addref
  cases hp : heap.find p with
  | none =>
      split_ifs with hq
      · rw [hq, hp]
        rfl
      · rfl
  | some e => exact find_set heap p q _

theorem find_release (heap : Heap) (p q : ℕ) : (release heap p).find q =
    if q = p then (heap.find p).bind fun e => if e.2 - 1 ≤ 0 then none else some (e.1, e.2 - 1)
    else heap.find q := by
  unfold release
  cases hp : heap.find p with
  | none =>
      split_ifs with hq
      · rw [hq, hp]
        rfl
      · rfl
  | some e =>
      dsimp only
      by_cases hlast : e.2 - 1 ≤ 0
      · simp only [hlast, if_true, bind_some]
        exact find_erase heap p q
      · simp only [hlast, if_false, bind_some]
        exact find_set heap p q _

/-- **Releasing** a value leaves it to those who still have it. -/
theorem map_find_release {heap : Heap} {p q : ℕ} (h : (release heap p).find q ≠ none) :
    ((release heap p).find q).map Prod.fst = (heap.find q).map Prod.fst := by
  rw [find_release] at h ⊢
  by_cases hq : q = p
  · rw [if_pos hq] at h ⊢
    rw [hq]
    cases hp : heap.find p with
    | none => rfl
    | some e =>
        rw [hp, bind_some] at h
        rw [bind_some]
        split_ifs at h ⊢ with hlast
        · exact absurd rfl h
        · rfl
  · rw [if_neg hq]

namespace Counts

variable {heap : Heap} {n m : ℕ → ℤ} {p : ℕ}

theorem congr (h : Counts heap n) (heq : ∀ q, n q = m q) : Counts heap m :=
  ⟨fun q => (h.refs q).trans (heq q), h.positive⟩

/-- A value with a count lives. -/
theorem exists_of_pos (h : Counts heap n) (hpos : 0 < n p) : ∃ e, heap.find p = some e := by
  have hrefs := h.refs p
  unfold Uri.refs at hrefs
  cases hp : heap.find p with
  | none =>
      rw [hp, elim_none] at hrefs
      omega
  | some e => exact ⟨e, rfl⟩

/-- A change of one value changes its count. -/
theorem update (h : Counts heap n) {heap' : Heap} {k : ℤ}
    (hother : ∀ q ≠ p, heap'.find q = heap.find q) (hcount : Uri.refs heap' p = n p + k)
    (hpos : ∀ e, heap'.find p = some e → 0 < e.2) :
    Counts heap' fun q => n q + if q = p then k else 0 := by
  constructor
  · intro q
    by_cases hq : q = p
    · rw [if_pos hq, hq, hcount]
    · rw [if_neg hq, add_zero, Uri.refs, hother q hq]
      exact h.refs q
  · intro q e he
    by_cases hq : q = p
    · exact hpos e (hq ▸ he)
    · exact h.positive q e (hother q hq ▸ he)

theorem addref (h : Counts heap n) (hpos : 0 < n p) :
    Counts (addref heap p) fun q => n q + if q = p then 1 else 0 := by
  obtain ⟨e, he⟩ := h.exists_of_pos hpos
  have hfind : (Uri.addref heap p).find p = some (e.1, e.2 + 1) := by
    rw [find_addref, if_pos rfl, he, map_some]
  refine h.update (fun q hq => by rw [find_addref, if_neg hq]) ?_ fun e' he' => ?_
  · rw [← h.refs p, Uri.refs, Uri.refs, hfind, he]
    rfl
  · cases hfind.symm.trans he'
    have := h.positive p e he
    dsimp only
    omega

theorem release (h : Counts heap n) (hpos : 0 < n p) :
    Counts (release heap p) fun q => n q - if q = p then 1 else 0 := by
  obtain ⟨e, he⟩ := h.exists_of_pos hpos
  have hcount : e.2 = n p := by
    rw [← h.refs p, Uri.refs, he]
    rfl
  have hfind : (Uri.release heap p).find p = if e.2 - 1 ≤ 0 then none else some (e.1, e.2 - 1) := by
    rw [find_release, if_pos rfl, he, bind_some]
  have hreleased : Counts (Uri.release heap p) fun q => n q + if q = p then -1 else 0 := by
    refine h.update (fun q hq => by rw [find_release, if_neg hq]) ?_ fun e' he' => ?_
    · rw [Uri.refs, hfind, ← hcount]
      split_ifs with hlast
      · rw [elim_none]
        omega
      · rfl
    · rw [hfind] at he'
      split_ifs at he' with hlast
      cases he'
      dsimp only
      omega
  refine hreleased.congr fun q => ?_
  split_ifs
  · rfl
  · rw [add_zero, sub_zero]

theorem releaseData (h : Counts heap n) {self : Option ℕ} (hpos : ∀ p ∈ self, 0 < n p) :
    Counts (releaseData heap self) fun q => n q - if self = some q then 1 else 0 := by
  cases self with
  | none => exact h.congr fun q => (sub_zero _).symm
  | some p =>
      refine (h.release (hpos p rfl)).congr fun q => ?_
      simp only [some.injEq, eq_comm]

theorem set (h : Counts heap n) (hp : heap.find p = none) (i : Pointed) :
    Counts (heap.set p (i, 1)) fun q => n q + if q = p then 1 else 0 := by
  refine h.update (fun q hq => by rw [find_set, if_neg hq]) ?_ fun e he => ?_
  · rw [← h.refs p, Uri.refs, Uri.refs, find_set, if_pos rfl, hp]
    rfl
  · rw [find_set, if_pos rfl] at he
    cases he
    exact one_pos

end Counts

namespace Objects

/-! ## every call keeps the counts -/

/-- The count of a value is the number of the objects that have it. -/
def Inv (σ : Objects) : Prop := Counts σ.heap fun p => σ.data.count (some p)

variable {signedChar : Bool} {Q : Qsort QueryItem} {mem : Memory} {σ : Objects} {o : ℕ}

theorem mem_of_self {p : ℕ} (h : σ.self o = some p) : some p ∈ σ.data :=
  mem_of_getElem? (Option.join_eq_some_iff.mp h)

theorem count_pos_of_mem {data : List (Option ℕ)} {p : ℕ} (h : some p ∈ data) :
    0 < (data.count (some p) : ℤ) := by
  exact_mod_cast count_pos_iff.mpr h

theorem count_set (ho : o < σ.data.length) (x : Option ℕ) (p : ℕ) :
    ((σ.data.set o x).count (some p) : ℤ) = σ.data.count (some p) -
      (if σ.self o = some p then 1 else 0) + if x = some p then 1 else 0 := by
  have hself : σ.self o = σ.data[o] := by
    rw [self, List.getElem?_eq_getElem ho, Option.join_some]
  have hcount := List.count_set ho (a := x) (b := some p)
  rw [hself]
  by_cases hold : σ.data[o] = some p
  · have hpos := count_pos_iff.mpr (hold ▸ getElem_mem ho)
    simp only [hcount, beq_iff_eq, hold, if_true]
    split_ifs <;> omega
  · simp only [hcount, beq_iff_eq, hold, if_false]
    split_ifs <;> omega

theorem count_set_none (ho : o < σ.data.length) (p : ℕ) :
    ((σ.data.set o none).count (some p) : ℤ) = σ.data.count (some p) -
      if σ.self o = some p then 1 else 0 := by
  rw [count_set ho, if_neg (some_ne_none p).symm, add_zero]

theorem inv_new : Inv new := ⟨fun _ => rfl, fun _ _ he => by cases he⟩

theorem inv_declare (h : Inv σ) : Inv σ.declare := by
  refine h.congr fun q => ?_
  rw [declare, count_append]
  simp

theorem live (σ : Objects) (o : ℕ) : ∀ p ∈ σ.self o, 0 < (σ.data.count (some p) : ℤ) :=
  fun _ hp => count_pos_of_mem (mem_of_self hp)

theorem inv_destroy (h : Inv σ) (ho : o < σ.data.length) : Inv (σ.destroy o) := by
  exact (h.releaseData (live σ o)).congr fun q => (count_set_none ho q).symm

theorem inv_assign (h : Inv σ) (ho : o < σ.data.length) (peer : ℕ) : Inv (σ.assign o peer) := by
  unfold assign
  split_ifs with hne
  · exact h
  have hrelease := h.releaseData (live σ o)
  cases hpeer : σ.self peer with
  | none =>
      exact hrelease.congr fun q => (count_set_none ho q).symm
  | some p =>
      have hpos : 0 < (σ.data.count (some p) : ℤ) - if σ.self o = some p then 1 else 0 := by
        have hmem : some p ∈ σ.data.set o none := by
          refine mem_of_getElem? (?_ : _[peer]? = _)
          rw [getElem?_set_ne hne]
          exact Option.join_eq_some_iff.mp hpeer
        rw [← count_set_none ho]
        exact count_pos_of_mem hmem
      refine (hrelease.addref hpos).congr fun q => ?_
      rw [count_set ho]
      simp only [some.injEq, eq_comm]

theorem inv_editQueries (h : Inv σ) (edit : List QueryItem → List QueryItem) :
    Inv (σ.editQueries o edit) := by
  unfold editQueries
  cases σ.self o with
  | none => exact h
  | some p =>
      constructor
      · intro q
        rw [← h.refs q, refs, refs, find_modify]
        split_ifs
        · cases σ.heap.find q <;> rfl
        · rfl
      · intro q e he
        rw [find_modify] at he
        split_ifs at he
        · obtain ⟨e', he', rfl⟩ := Option.map_eq_some_iff.mp he
          exact h.positive q e' he'
        · exact h.positive q e he

theorem inv_change (h : Inv σ) (ho : o < σ.data.length) {uristr : Bytes} {σ' : Objects} {r : ℤ}
    (hstep : σ.change signedChar Q mem o uristr = some (σ', r)) : Inv σ' := by
  have hrelease := h.releaseData (live σ o)
  unfold change at hstep
  dsimp only at hstep
  split at hstep
  · cases hstep
  · cases hstep
    exact inv_destroy h ho
  · next u hload =>
      cases hstep
      refine (hrelease.set (mem.fresh _) u.pointed).congr fun q => ?_
      rw [count_set ho]
      simp only [some.injEq, eq_comm]

theorem inv_setFullpath (h : Inv σ) (ho : o < σ.data.length) (newpath : Option Bytes) :
    Inv (σ.setFullpath mem o newpath).1 := by
  unfold setFullpath
  cases newpath with
  | none => exact h
  | some newpath =>
      dsimp only
      split_ifs
      · exact h
      cases hself : σ.self o with
      | none => exact h
      | some old =>
          cases hold : σ.heap.find old with
          | none => simpa only [hold] using h
          | some e =>
              dsimp only
              rw [hold]
              dsimp only
              split
              · exact h
              · next i' hset =>
                  have hpos := live σ o old hself
                  have hne : old ≠ mem.alloc σ.heap := by
                    intro heq
                    rw [heq, mem.fresh] at hold
                    cases hold
                  have hnew := h.set (mem.fresh σ.heap) i'
                  refine (hnew.release (p := old) ?_).congr fun q => ?_
                  · rwa [if_neg hne, add_zero]
                  · rw [count_set ho, hself]
                    simp only [some.injEq, eq_comm]
                    ring

/-- **Every call** keeps the counts. -/
theorem inv_step {σ' : Objects} {c : Call} {r : ℤ}
    (hstep : step signedChar Q mem σ c = some (σ', r)) (h : Inv σ) : Inv σ' := by
  unfold step at hstep
  split_ifs at hstep with hthere
  have ho : ∀ o ∈ c.object, o < σ.data.length := fun o hobject =>
    Nat.lt_of_not_le fun hle => hthere ⟨o, hobject, hle⟩
  cases c with
  | declare =>
      cases hstep
      exact inv_declare h
  | change o uristr => exact inv_change h (ho o rfl) hstep
  | assign o peer =>
      cases hstep
      exact inv_assign h (ho o rfl) peer
  | destroy o =>
      cases hstep
      exact inv_destroy h (ho o rfl)
  | editQueries o edit =>
      cases hstep
      exact inv_editQueries h edit
  | setFullpath o newpath =>
      have hsame : (σ.setFullpath mem o newpath).1 = σ' :=
        congrArg Prod.fst (some.inj hstep)
      exact hsame ▸ inv_setFullpath h (ho o rfl) newpath

theorem inv_run {cs : List Call} {rs : List ℤ}
    (hrun : Machine.run (step signedChar Q mem) new cs = some (σ, rs)) : Inv σ :=
  (Machine.run_invariant (Q := fun _ => True) (fun _ _ _ _ hstep h => ⟨inv_step hstep h, trivial⟩)
    hrun inv_new).1

/-! ## `set_fullpath` -/

theorem self_set_of_ne {o' : ℕ} (hne : o' ≠ o) (x : Option ℕ) (heap : Heap) :
    self ⟨σ.data.set o x, heap⟩ o' = σ.self o' := by
  rw [self, self, getElem?_set_ne hne.symm]

theorem self_set (ho : o < σ.data.length) (x : Option ℕ) (heap : Heap) :
    self ⟨σ.data.set o x, heap⟩ o = x := by
  rw [self, getElem?_set_self ho, Option.join_some]

variable {i : Pointed}

/-- An object with a value. -/
theorem exists_of_value (h : σ.value o = some i) :
    o < σ.data.length ∧ ∃ p e, σ.self o = some p ∧ σ.heap.find p = some e ∧ e.1 = i := by
  obtain ⟨p, hself, hmap⟩ := Option.bind_eq_some_iff.mp h
  obtain ⟨e, he, hi⟩ := Option.map_eq_some_iff.mp hmap
  have ho := (List.getElem?_eq_some_iff.mp (Option.join_eq_some_iff.mp hself)).1
  exact ⟨ho, p, e, hself, he, hi⟩

/-- The copy of a value with its new path. -/
def renewed (mem : Memory) (i : Pointed) (path : Bytes) : Option Pointed :=
  (i.copy mem.portStartColon mem.distance).setFullpath mem.buf path

variable {path : Bytes}

theorem cstr_ne_nil_of_renewed {i' : Pointed} (h : renewed mem i path = some i') :
    cstr path ≠ [] := by
  have hsome : (renewed mem i path).isSome := by rw [h, isSome_some]
  obtain ⟨port, start, filename, -, hvalid, -⟩ := setFullpath_isSome_iff.mp hsome
  simp only [checkFullpathValidty, Bool.and_eq_true, decide_eq_true_eq] at hvalid
  exact hvalid.1.1

/-- Where it fails, nothing changes. -/
theorem setFullpath_of_none (h : σ.value o = some i) (hnone : renewed mem i path = none) :
    σ.setFullpath mem o (some path) = (σ, -EBADPARM) := by
  obtain ⟨-, p, e, hself, he, rfl⟩ := exists_of_value h
  unfold renewed at hnone
  unfold setFullpath
  dsimp only
  split_ifs
  · rfl
  · simp only [hself, he, hnone]

/-- Where it does not, the object has the copy, and the others have what they had. -/
theorem setFullpath_of_some {i' : Pointed} (hinv : Inv σ) (h : σ.value o = some i)
    (hsome : renewed mem i path = some i') :
    (σ.setFullpath mem o (some path)).2 = 0 ∧
      (σ.setFullpath mem o (some path)).1.value o = some i' ∧
      ∀ o' ≠ o, (σ.setFullpath mem o (some path)).1.value o' = σ.value o' := by
  obtain ⟨ho, old, e, hself, he, rfl⟩ := exists_of_value h
  have hinv' : Inv (σ.setFullpath mem o (some path)).1 := inv_setFullpath hinv ho (some path)
  have hrun : σ.setFullpath mem o (some path) =
      (⟨σ.data.set o (some (mem.alloc σ.heap)),
        release (σ.heap.set (mem.alloc σ.heap) (i', 1)) old⟩, 0) := by
    unfold renewed at hsome
    simp only [setFullpath, if_neg (cstr_ne_nil_of_renewed hsome), hself, he, hsome]
  have hne : ∀ p, σ.heap.find p ≠ none → p ≠ mem.alloc σ.heap := by
    intro p hp heq
    exact hp (heq ▸ mem.fresh σ.heap)
  rw [hrun] at hinv' ⊢
  refine ⟨rfl, ?_, fun o' ho' => ?_⟩
  · have hold := hne old (by rw [he]; exact some_ne_none _)
    rw [value, self_set ho, bind_some, find_release, if_neg hold.symm, find_set, if_pos rfl]
    rfl
  · rw [value, value, self_set_of_ne ho']
    cases hself' : σ.self o' with
    | none => rfl
    | some p =>
        -- the object keeps its value from being deleted
        obtain ⟨e₀, he₀⟩ := hinv.exists_of_pos (live σ o' p hself')
        have hp := hne p (by rw [he₀]; exact some_ne_none _)
        obtain ⟨e₁, he₁⟩ := hinv'.exists_of_pos
          (live _ o' p ((self_set_of_ne ho' _ _).trans hself'))
        have hlive : (release (σ.heap.set (mem.alloc σ.heap) (i', 1)) old).find p ≠ none := by
          rw [he₁]
          exact some_ne_none _
        rw [bind_some, bind_some, map_find_release hlive, find_set, if_neg hp]

/-- What `set_fullpath` is for: it fails and changes nothing; or it gives the object the value that
the text with its full path replaced is parsed to, and leaves the other objects as they are. -/
def SetsFullpath (signedChar : Bool) (Q : Qsort QueryItem) (σ : Objects) (o : ℕ) (i : Pointed)
    (s : Bytes) (newpath : Option Bytes) (σ' : Objects) (ret : ℤ) : Prop :=
  (ret ≠ 0 ∧ ∀ o', σ'.value o' = σ.value o') ∨
    (ret = 0 ∧ (∃ path ∈ newpath, ∃ v i', load signedChar Q (i.replaceFullpath s path) =
        some (some v) ∧ σ'.value o = some i' ∧ SameParts i' v.pointed) ∧
      ∀ o' ≠ o, σ'.value o' = σ.value o')

/-- **Setting the full path** works exactly where the path is not acceptable, so that it fails, or
is not cut and has a file name. -/
theorem setFullpath_meets_iff {cs : List Call} {rs : List ℤ}
    (hrun : Machine.run (step signedChar Q mem) new cs = some (σ, rs)) {i : Pointed}
    (hvalue : σ.value o = some i) {s : Bytes} (htext : TextOf signedChar Q s i)
    (newpath : Option Bytes) :
    SetsFullpath signedChar Q σ o i s newpath (σ.setFullpath mem o newpath).1
        (σ.setFullpath mem o newpath).2 ↔
      ∀ path ∈ newpath, Acceptable (cstr path) → Replaceable i (cstr path) := by
  have hfails : ∀ σ' ret, (σ', ret) = (σ, -EBADPARM) →
      SetsFullpath signedChar Q σ o i s newpath σ' ret := by
    intro σ' ret heq
    cases heq
    exact .inl ⟨by decide, fun _ => rfl⟩
  cases newpath with
  | none => exact iff_of_true (hfails _ _ rfl) (by simp)
  | some path =>
      simp only [mem_some_iff, forall_eq']
      have haccept : (renewed mem i path).isSome ↔ Acceptable (cstr path) := setFullpath_isSome_iff
      cases hrenewed : renewed mem i path with
      | none =>
          rw [hrenewed] at haccept
          refine iff_of_true (hfails _ _ (setFullpath_of_none hvalue hrenewed)) fun hok => ?_
          exact absurd (haccept.mpr hok) (by decide)
      | some i' =>
          rw [hrenewed] at haccept
          obtain ⟨hret, hself, hothers⟩ := setFullpath_of_some (inv_run hrun) hvalue hrenewed
          have hsame := sameParts_iff htext hrenewed
          constructor
          · rintro (⟨hne, -⟩ | ⟨-, ⟨path', hpath', v, i'', hload, hi'', hparts⟩, -⟩) -
            · exact absurd hret hne
            · cases hpath'
              cases hself.symm.trans hi''
              exact hsame.mp ⟨v, hload, hparts⟩
          · intro hok
            obtain ⟨v, hload, hparts⟩ := hsame.mpr (hok (haccept.mp rfl))
            exact .inr ⟨hret, ⟨path, rfl, v, i', hload, hself, hparts⟩, hothers⟩

/-- A memory that puts a value behind all others. -/
def memory : Memory where
  alloc heap := heap.keys.sum + 1
  fresh _ := find_eq_none_iff.mpr fun h =>
    absurd (le_sum_of_mem h) (Nat.not_succ_le_self _)
  buf := ⟨1, Nat.one_pos⟩
  portStartColon := 0
  distance := 0

/-- `a://h/f?k=1` -/
def oneUri : Pointed where
  scheme := [97]
  userPasswd := none
  fullpath := [104, 47, 102]
  port := -1
  portStartColon := 0
  filename := some 2
  queries := [⟨[107], [49], false⟩]

/-- Its text. -/
def oneText : Bytes := [97, 58, 47, 47, 104, 47, 102, 63, 107, 61, 49]

/-- Two objects that share it. -/
def twoObjects : Objects := ⟨[some 1, some 1], StdMap.empty.set 1 (oneUri, 2)⟩

/-- The calls that make them. -/
def twoCalls : List Call := [.declare, .change 0 oneText, .declare, .assign 1 0]

/-- The path `g/n` for the first of them. -/
theorem setFullpath_meets_iff_two :
    SetsFullpath true (Qsort.insertion QueryItem) twoObjects 0 oneUri oneText
        (some [103, 47, 110]) (twoObjects.setFullpath memory 0 (some [103, 47, 110])).1
        (twoObjects.setFullpath memory 0 (some [103, 47, 110])).2 ∧
      (twoObjects.setFullpath memory 0 (some [103, 47, 110])).2 = 0 := by
  have hrun : Machine.run (step true (Qsort.insertion QueryItem) memory) new twoCalls =
      some (twoObjects, [0, 1, 0, 0]) := by decide +kernel
  have htext : TextOf true (Qsort.insertion QueryItem) oneText oneUri :=
    ⟨⟨[97], none, [104, 47, 102], -1, 0, some 2, [⟨[107], [49], false⟩]⟩, by decide +kernel, rfl,
      rfl, rfl, rfl⟩
  refine ⟨(setFullpath_meets_iff hrun rfl htext (some [103, 47, 110])).mpr ?_, by decide +kernel⟩
  rintro path hpath -
  cases hpath
  exact ⟨by decide, by decide, 2, by decide⟩

/-- The path `g`, which has no file name, leaves the first of them with a pointer to somewhere. -/
theorem not_setsFullpath :
    (Machine.run (step true (Qsort.insertion QueryItem) memory) new twoCalls).map Prod.fst =
        some twoObjects ∧
      twoObjects.value 0 = some oneUri ∧
      ¬ SetsFullpath true (Qsort.insertion QueryItem) twoObjects 0 oneUri oneText (some [103])
        (twoObjects.setFullpath memory 0 (some [103])).1
        (twoObjects.setFullpath memory 0 (some [103])).2 := by
  refine ⟨by decide +kernel, by decide +kernel, ?_⟩
  rintro (⟨hne, -⟩ | ⟨-, ⟨path, hpath, v, i', hload, hvalue, hparts⟩, -⟩)
  · exact absurd (by decide +kernel) hne
  · cases hpath
    have hreplaced : load true (Qsort.insertion QueryItem) (oneUri.replaceFullpath oneText [103]) =
        some (some ⟨[97], none, [103], -1, 0, none, [⟨[107], [49], false⟩]⟩) := by decide +kernel
    have hset : (twoObjects.setFullpath memory 0 (some [103])).1.value 0 =
        some ⟨[97], none, [103], -1, 0, some (-1), [⟨[107], [49], false⟩]⟩ := by decide +kernel
    cases hreplaced.symm.trans hload
    cases hset.symm.trans hvalue
    exact absurd hparts.filename (by decide)

end Objects

end V2I.Uri
