import Mathlib.Data.List.Chain
import Mathlib.Data.List.Nodup

/-!
# V2I.Lib.Ring

Intrusive circular lists: nodes that lie inside other objects and are linked by `next` and
`prev` pointers, as the macros of `std/list.h` link them. A list is reached through its
head, itself a node; a node in no list points to itself, so it is the head of an empty one.

* `Ring h r l` — from the head `r`, `next` leads through the members `l` back to `r`, and
  `prev` leads the other way;
* `Rings h R` — the live nodes are exactly the heads and the members of the rings `R`, which
  share none;
* `Rings.init`, `Rings.add`, `Rings.del`, `Rings.free` — what the operations make of them.
-/

namespace V2I

open List Option Function

/-- The memory of the nodes: which of them lie in a live object, and their pointers (`none`
for null). -/
structure ListHeap (N : Type*) where
  live : N → Bool
  next : N → Option N
  prev : N → Option N

namespace ListHeap

variable {N : Type*} [DecidableEq N]

/-! ## The operations

They have no result where a null pointer is followed or an object that is not live is used. -/

/-- No object is live. -/
def empty : ListHeap N := ⟨fun _ => false, fun _ => none, fun _ => none⟩

omit [DecidableEq N] in
/-- `x.next` -/
def getNext (h : ListHeap N) (x : N) : Option (Option N) :=
  if h.live x then some (h.next x) else none

omit [DecidableEq N] in
/-- `x.prev` -/
def getPrev (h : ListHeap N) (x : N) : Option (Option N) :=
  if h.live x then some (h.prev x) else none

/-- `x.next = p` -/
def setNext (h : ListHeap N) (x : N) (p : Option N) : Option (ListHeap N) :=
  if h.live x then some { h with next := update h.next x p } else none

/-- `x.prev = p` -/
def setPrev (h : ListHeap N) (x : N) (p : Option N) : Option (ListHeap N) :=
  if h.live x then some { h with prev := update h.prev x p } else none

/-- `new`: the node of a new object, whose pointers are null. -/
def alloc (h : ListHeap N) (x : N) : ListHeap N where
  live := update h.live x true
  next := update h.next x none
  prev := update h.prev x none

/-- `delete`: the object of the node is gone. -/
def free (h : ListHeap N) (x : N) : ListHeap N :=
  { h with live := update h.live x false }

/-- `listnode_init(x)` -/
def init (h : ListHeap N) (x : N) : Option (ListHeap N) := do
  let h ← h.setNext x (some x)
  h.setPrev x (some x)

/-- `listnode_add(head, x)` -/
def add (h : ListHeap N) (head x : N) : Option (ListHeap N) := do
  let h ← h.setPrev x (← h.getPrev head)
  let h ← h.setNext x (← h.getNext (← (← h.getPrev head)))
  let h ← h.setNext (← (← h.getPrev head)) (some x)
  h.setPrev head (some x)

/-- `listnode_del(x)` -/
def del (h : ListHeap N) (x : N) : Option (ListHeap N) := do
  let h ← h.setNext (← (← h.getPrev x)) (← h.getNext x)
  let h ← h.setPrev (← (← h.getNext x)) (← h.getPrev x)
  let h ← h.setNext x (some x)
  h.setPrev x (some x)

/-- `listnode_isempty(x)` -/
def isEmpty (h : ListHeap N) (x : N) : Option Bool :=
  (h.getNext x).map fun p => p = some x

/-! ## Rings -/

omit [DecidableEq N] in
/-- `b` comes after `a`. -/
def Link (h : ListHeap N) (a b : N) : Prop := h.next a = some b ∧ h.prev b = some a

omit [DecidableEq N] in
/-- The circular list of the head `r` has the members `l`. -/
structure Ring (h : ListHeap N) (r : N) (l : List N) : Prop where
  nodup : (r :: l).Nodup
  links : (r :: l ++ [r]).IsChain h.Link

omit [DecidableEq N] in
/-- The live nodes are the heads and members of the rings `R`, `none` for a node that is no
head. -/
structure Rings (h : ListHeap N) (R : N → Option (List N)) : Prop where
  ring : ∀ r l, R r = some l → h.Ring r l
  apart : ∀ r l r' l' x, R r = some l → R r' = some l' → x ∈ r :: l → x ∈ r' :: l' → r = r'
  live_iff : ∀ x, h.live x = true ↔ ∃ r l, R r = some l ∧ x ∈ r :: l

variable {h h' : ListHeap N} {R : N → Option (List N)} {r x p n : N} {l m l₁ l₂ : List N}

omit [DecidableEq N] in
/-- **Frame**: a chain needs the `next` of all its nodes but the last and the `prev` of all
but the first. -/
theorem isChain_congr (hm : m.IsChain h.Link) (hnext : ∀ a ∈ m.dropLast, h'.next a = h.next a)
    (hprev : ∀ b ∈ m.tail, h'.prev b = h.prev b) : m.IsChain h'.Link := by
  induction m with
  | nil => exact .nil
  | cons a m ih =>
      cases m with
      | nil => exact .singleton a
      | cons b m =>
          obtain ⟨hab, hm⟩ := isChain_cons_cons.mp hm
          refine isChain_cons_cons.mpr ⟨⟨?_, ?_⟩, ih hm ?_ ?_⟩
          · rw [hnext a (by simp), hab.1]
          · rw [hprev b (by simp), hab.2]
          · exact fun c hc => hnext c (by simp [hc])
          · exact fun c hc => hprev c (by simp [mem_of_mem_tail hc])

omit [DecidableEq N] in
theorem Ring.congr (hr : h.Ring r l) (hnext : ∀ a ∈ r :: l, h'.next a = h.next a)
    (hprev : ∀ a ∈ r :: l, h'.prev a = h.prev a) : h'.Ring r l := by
  refine ⟨hr.nodup, isChain_congr hr.links (fun a ha => hnext a ?_) fun a ha => hprev a ?_⟩
  · rwa [dropLast_concat] at ha
  · simpa [or_comm] using ha

omit [DecidableEq N] in
theorem Ring.nil_iff : h.Ring r [] ↔ h.next r = some r ∧ h.prev r = some r := by
  constructor
  · rintro ⟨-, hlinks⟩
    simpa [Link] using hlinks
  · intro hr
    exact ⟨by simp, by simpa [Link] using hr⟩

omit [DecidableEq N] in
/-- The head of a ring is linked. -/
theorem Ring.next_isSome (hr : h.Ring r l) : (h.next r).isSome := by
  cases l with
  | nil => rw [(Ring.nil_iff.mp hr).1]; rfl
  | cons b l => rw [(isChain_cons_cons.mp hr.links).1.1]; rfl

omit [DecidableEq N] in
/-- A head has one list of members. -/
theorem Ring.unique (hr : h.Ring r l) (hr' : h.Ring r m) : l = m := by
  have key : ∀ (a : N) (l m : List N), r ∉ l → r ∉ m → (a :: l ++ [r]).IsChain h.Link →
      (a :: m ++ [r]).IsChain h.Link → l = m := by
    intro a l
    induction l generalizing a with
    | nil =>
        intro m _ hrm hl hm
        cases m with
        | nil => rfl
        | cons b m =>
            have hr : h.next a = some r := (isChain_pair.mp hl).1
            have hb : h.next a = some b := (isChain_cons_cons.mp hm).1.1
            exact absurd (by simp [some_inj.mp (hr.symm.trans hb)]) hrm
    | cons c l ih =>
        intro m hrl hrm hl hm
        obtain ⟨⟨hc, -⟩, hl⟩ := isChain_cons_cons.mp hl
        cases m with
        | nil =>
            have hr : h.next a = some r := (isChain_pair.mp hm).1
            exact absurd (by simp [some_inj.mp (hr.symm.trans hc)]) hrl
        | cons b m =>
            obtain ⟨⟨hb, -⟩, hm⟩ := isChain_cons_cons.mp hm
            obtain rfl := some_inj.mp (hc.symm.trans hb)
            rw [ih c m (fun h => hrl (by simp [h])) (fun h => hrm (by simp [h])) hl hm]
  exact key r l m (nodup_cons.mp hr.nodup).1 (nodup_cons.mp hr'.nodup).1 hr.links hr'.links

/-! ## What the operations do -/

theorem init_of_live (hx : h.live x) : h.init x = some
    ⟨h.live, update h.next x (some x), update h.prev x (some x)⟩ := by
  simp [init, setNext, setPrev, hx]

theorem init_eq_some (hinit : h.init x = some h') : h.live x ∧
    h' = ⟨h.live, update h.next x (some x), update h.prev x (some x)⟩ := by
  by_cases hx : h.live x
  · rw [init_of_live hx, some_inj] at hinit
    exact ⟨hx, hinit.symm⟩
  · simp [init, setNext, hx] at hinit

theorem ring_of_init (hinit : h.init x = some h') : h'.Ring x [] := by
  obtain ⟨-, rfl⟩ := init_eq_some hinit
  exact Ring.nil_iff.mpr ⟨by simp, by simp⟩

theorem init_frame (hinit : h.init x = some h') (hy : n ≠ x) :
    h'.next n = h.next n ∧ h'.prev n = h.prev n := by
  obtain ⟨-, rfl⟩ := init_eq_some hinit
  simp [hy]

theorem live_init (hinit : h.init x = some h') : h'.live = h.live := by
  obtain ⟨-, rfl⟩ := init_eq_some hinit
  rfl

/-- The node of another new object may as well come later. -/
theorem init_alloc_comm (hxn : x ≠ n) : (h.alloc n).init x = (h.init x).map (alloc · n) := by
  by_cases hx : h.live x
  · rw [init_of_live hx, init_of_live (by simpa [alloc, hxn] using hx)]
    simp [alloc, update_comm hxn]
  · simp [init, setNext, alloc, hxn, hx]

theorem add_of_prev (hp : h.prev r = some p) (hr : h.live r) (hpl : h.live p) (hx : h.live x)
    (hxr : r ≠ x) : h.add r x = some
      ⟨h.live, update (update h.next x (h.next p)) p (some x),
        update (update h.prev x (some p)) r (some x)⟩ := by
  simp [add, setNext, setPrev, getNext, getPrev, hp, hr, hpl, hx, hxr]

theorem del_of_links (hp : h.prev x = some p) (hn : h.next x = some n) (hx : h.live x)
    (hpl : h.live p) (hnl : h.live n) (hpx : x ≠ p) : h.del x = some
      ⟨h.live, update (update h.next p (some n)) x (some x),
        update (update h.prev n (some p)) x (some x)⟩ := by
  simp [del, setNext, setPrev, getNext, getPrev, hp, hn, hx, hpl, hnl, hpx]

/-- A node that points to itself stays as it is. -/
theorem del_of_nil (hx : h.live x) (hr : h.Ring x []) : h.del x = some h := by
  obtain ⟨hn, hp⟩ := Ring.nil_iff.mp hr
  have hnext : update h.next x (some x) = h.next := update_eq_self_iff.mpr hn.symm
  have hprev : update h.prev x (some x) = h.prev := update_eq_self_iff.mpr hp.symm
  simp [del, setNext, setPrev, getNext, getPrev, hx, hn, hp, hnext, hprev]

theorem init_of_nil (hx : h.live x) (hr : h.Ring x []) : h.init x = some h := by
  obtain ⟨hn, hp⟩ := Ring.nil_iff.mp hr
  rw [init_of_live hx, update_eq_self_iff.mpr hn.symm, update_eq_self_iff.mpr hp.symm]

omit [DecidableEq N] in
/-- The last node of a ring, and the way there. -/
theorem exists_last (r : N) (l : List N) (hl : (r :: l).Nodup) :
    ∃ i p, r :: l = i ++ [p] ∧ p ∈ r :: l ∧ p ∉ i := by
  obtain ⟨i, p, hip⟩ := (eq_nil_or_concat (r :: l)).resolve_left (by simp)
  rw [concat_eq_append] at hip
  refine ⟨i, p, hip, by simp [hip], fun hmem => ?_⟩
  rw [hip, nodup_append] at hl
  exact hl.2.2 p hmem p (by simp) rfl

/-- **Adding at the end**: the new node comes between the last node and the head. -/
theorem Ring.add (hr : h.Ring r l) (hx : x ∉ r :: l) (hlive : ∀ a ∈ x :: r :: l, h.live a) :
    ∃ p h', p ∈ r :: l ∧ h.add r x = some h' ∧ h'.Ring r (l ++ [x]) ∧ h'.live = h.live ∧
      (∀ a, a ≠ x → a ≠ p → h'.next a = h.next a) ∧ ∀ a, a ≠ x → a ≠ r → h'.prev a = h.prev a := by
  obtain ⟨i, p, hip, hp, hpi⟩ := exists_last r l hr.nodup
  have hlinks := hr.links
  rw [hip, append_assoc, singleton_append, isChain_split] at hlinks
  obtain ⟨hfront, hlast⟩ := hlinks
  obtain ⟨-, hprev⟩ : h.Link p r := isChain_pair.mp hlast
  have hxr : r ≠ x := fun heq => hx (by simp [heq])
  have hxp : x ≠ p := fun heq => hx (heq ▸ hp)
  rw [forall_mem_cons] at hlive
  refine ⟨p, _, hp, add_of_prev hprev (hlive.2 r (by simp)) (hlive.2 p hp) hlive.1 hxr, ⟨?_, ?_⟩,
    rfl, fun a hax hap => by simp [hax, hap], fun a hax har => by simp [hax, har]⟩
  · rw [← cons_append]
    exact hr.nodup.append (by simp) (by simpa using hx)
  · have hlist : r :: (l ++ [x]) ++ [r] = i ++ p :: [x, r] := by
      rw [← cons_append, hip]
      simp
    rw [hlist, isChain_split]
    constructor
    · refine isChain_congr hfront (fun a ha => ?_) fun b hb => ?_
      · rw [dropLast_concat] at ha
        have hap : a ≠ p := fun heq => hpi (heq ▸ ha)
        have hax : a ≠ x := fun heq => hx (by rw [hip, ← heq]; simp [ha])
        simp [hap, hax]
      · have hbl : b ∈ l := by rwa [← hip] at hb
        have hbr : b ≠ r := fun heq => (nodup_cons.mp hr.nodup).1 (heq ▸ hbl)
        have hbx : b ≠ x := fun heq => hx (by simp [← heq, hbl])
        simp [hbr, hbx]
    · refine isChain_cons_cons.mpr ⟨⟨?_, ?_⟩, isChain_pair.mpr ⟨?_, ?_⟩⟩
      · simp
      · simp [hxr.symm]
      · have hpr : h.next p = some r := (isChain_pair.mp hlast).1
        simp [hxp, hpr]
      · simp

/-- **Taking out**: the nodes before and after it are linked to each other. -/
theorem Ring.del (hr : h.Ring r (l₁ ++ x :: l₂)) (hlive : ∀ a ∈ r :: (l₁ ++ x :: l₂), h.live a) :
    ∃ p n h', p ∈ r :: l₁ ∧ n ∈ l₂ ++ [r] ∧ h.del x = some h' ∧ h'.Ring r (l₁ ++ l₂) ∧
      h'.Ring x [] ∧ h'.live = h.live ∧
      (∀ a, a ≠ x → a ≠ p → h'.next a = h.next a) ∧ ∀ a, a ≠ x → a ≠ n → h'.prev a = h.prev a := by
  have hnodup := hr.nodup
  rw [← cons_append] at hnodup
  obtain ⟨hnodup₁, hnodup₂, hne⟩ := nodup_append.mp hnodup
  obtain ⟨hx₂, hnodup₂⟩ := nodup_cons.mp hnodup₂
  obtain ⟨i, p, hip, hp, hpi⟩ := exists_last r l₁ hnodup₁
  obtain ⟨n, s, hns⟩ : ∃ n s, l₂ ++ [r] = n :: s := exists_cons_of_ne_nil (by simp)
  have hn : n ∈ l₂ ++ [r] := by simp [hns]
  have hlist : r :: (l₁ ++ x :: l₂) ++ [r] = i ++ p :: x :: n :: s := by
    rw [← cons_append, hip, ← hns]
    simp
  have hlinks := hr.links
  rw [hlist, isChain_split] at hlinks
  obtain ⟨hfront, hback⟩ := hlinks
  obtain ⟨⟨hpx, hxp⟩, hback⟩ := isChain_cons_cons.mp hback
  obtain ⟨⟨hxn, hnx⟩, hback⟩ := isChain_cons_cons.mp hback
  have hx₁ : x ∉ r :: l₁ := fun hmem => hne x hmem x (by simp) rfl
  have hxnep : x ≠ p := fun heq => hx₁ (heq ▸ hp)
  have hr₂ : r ∉ l₂ := fun hmem => hne r (by simp) r (by simp [hmem]) rfl
  have hns' : (n :: s).Nodup := hns ▸ hnodup₂.append (by simp) (by simpa using hr₂)
  have hxns : x ∉ n :: s := by
    rw [← hns, mem_append, mem_singleton, not_or]
    exact ⟨hx₂, fun heq => hx₁ (heq ▸ mem_cons_self)⟩
  have hnr : n ∈ r :: (l₁ ++ x :: l₂) := by grind
  refine ⟨p, n, _, hp, hn, del_of_links hxp hxn (hlive x (by simp)) (hlive p ?_) (hlive n hnr)
    hxnep, ⟨?_, ?_⟩, ?_, rfl, fun a hax hap => by simp [hax, hap],
    fun a hax har => by simp [hax, har]⟩
  · exact mem_append_left _ hp
  · exact hr.nodup.sublist (by simp)
  · have hlist' : r :: (l₁ ++ l₂) ++ [r] = i ++ p :: n :: s := by
      rw [← cons_append, hip, ← hns]
      simp
    rw [hlist', isChain_split]
    constructor
    · refine isChain_congr hfront (fun a ha => ?_) fun b hb => ?_
      · rw [dropLast_concat] at ha
        have hap : a ≠ p := fun heq => hpi (heq ▸ ha)
        have hax : a ≠ x := fun heq => hx₁ (by rw [hip, ← heq]; simp [ha])
        simp [hap, hax]
      · have hb₁ : b ∈ l₁ := by rwa [← hip] at hb
        have hbn : b ≠ n := by grind
        have hbx : b ≠ x := fun heq => hx₁ (by simp [← heq, hb₁])
        simp [hbn, hbx]
    · refine isChain_cons_cons.mpr ⟨⟨?_, ?_⟩, isChain_congr hback (fun a ha => ?_) fun b hb => ?_⟩
      · simp [hxnep.symm]
      · have hnex : n ≠ x := fun heq => hxns (by simp [heq])
        simp [hnex]
      · rw [← hns, dropLast_concat] at ha
        have hap : a ≠ p := fun heq => hne p (hip ▸ hp) a (mem_cons_of_mem _ ha) heq.symm
        have hax : a ≠ x := fun heq => hx₂ (heq ▸ ha)
        simp [hap, hax]
      · have hbn : b ≠ n := fun heq => (nodup_cons.mp hns').1 (heq ▸ hb)
        have hbx : b ≠ x := fun heq => hxns (heq ▸ mem_cons_of_mem _ hb)
        simp [hbn, hbx]
  · exact Ring.nil_iff.mpr ⟨by simp, by simp⟩

/-! ## All rings -/

namespace Rings

omit [DecidableEq N] in
theorem empty : Rings (N := N) .empty fun _ => none := by
  constructor
  · intro r l hl
    cases hl
  · intro r l r' l' x hl
    cases hl
  · intro x
    simp [ListHeap.empty]

omit [DecidableEq N] in
theorem live_of_mem (hR : Rings h R) (hr : R r = some l) (hx : x ∈ r :: l) : h.live x :=
  (hR.live_iff x).mpr ⟨r, l, hr, hx⟩

/-- **Initialising** the node of a new object. -/
theorem init_alloc (hR : Rings h R) (hx : ¬ h.live x) :
    ∃ h', (h.alloc x).init x = some h' ∧ Rings h' (update R x (some [])) := by
  have hnot : ∀ r l, R r = some l → x ∉ r :: l := fun r l hl hmem => hx (hR.live_of_mem hl hmem)
  refine ⟨_, init_of_live (by simp [alloc]), ⟨fun r l hl => ?_, fun r l r' l' y hl hl' hy hy' => ?_,
    fun y => ?_⟩⟩
  · by_cases hrx : r = x
    · subst hrx
      rw [update_self, some_inj] at hl
      subst hl
      exact Ring.nil_iff.mpr ⟨by simp, by simp⟩
    · rw [update_of_ne hrx] at hl
      have hne : ∀ a ∈ r :: l, a ≠ x := fun a ha heq => hnot r l hl (heq ▸ ha)
      exact (hR.ring r l hl).congr (fun a ha => by simp [alloc, hne a ha])
        fun a ha => by simp [alloc, hne a ha]
  · have := hR.apart r l r' l' y
    grind [update_apply]
  · by_cases hyx : y = x
    · subst hyx
      simp only [alloc, update_self, true_iff]
      exact ⟨y, [], update_self .., by simp⟩
    · simp only [alloc, update_of_ne hyx, hR.live_iff y]
      constructor
      · rintro ⟨r, l, hl, hy⟩
        have hrx : r ≠ x := fun heq => hnot r l hl (by simp [heq])
        exact ⟨r, l, by rwa [update_of_ne hrx], hy⟩
      · rintro ⟨r, l, hl, hy⟩
        have hrx : r ≠ x := by
          rintro rfl
          rw [update_self, some_inj] at hl
          subst hl
          exact hyx (mem_singleton.mp hy)
        exact ⟨r, l, by rwa [update_of_ne hrx] at hl, hy⟩

/-- Two nodes of a new object. -/
theorem init_alloc₂ (hR : Rings h R) (hx : ¬ h.live x) (hn : ¬ h.live n) (hxn : x ≠ n) :
    ∃ h₁ h₂, ((h.alloc x).alloc n).init x = some h₁ ∧ h₁.init n = some h₂ ∧
      Rings h₂ (update (update R x (some [])) n (some [])) := by
  obtain ⟨h₁, hinit₁, hR₁⟩ := hR.init_alloc hx
  have hn₁ : ¬ h₁.live n := by
    rw [live_init hinit₁]
    simpa [alloc, hxn.symm] using hn
  obtain ⟨h₂, hinit₂, hR₂⟩ := hR₁.init_alloc hn₁
  refine ⟨h₁.alloc n, h₂, ?_, hinit₂, hR₂⟩
  rw [init_alloc_comm hxn, hinit₁]
  rfl

omit [DecidableEq N] in
theorem ring_nil (hR : Rings h R) (hx : R x = some []) : h.live x ∧ h.Ring x [] :=
  ⟨hR.live_of_mem hx (by simp), hR.ring x [] hx⟩

theorem del_nil (hR : Rings h R) (hx : R x = some []) : h.del x = some h :=
  del_of_nil (hR.ring_nil hx).1 (hR.ring_nil hx).2

theorem isEmpty_iff (hR : Rings h R) (hr : R r = some l) : h.isEmpty r = some true ↔ l = [] := by
  have hlive : h.live r := hR.live_of_mem hr (by simp)
  have hring := hR.ring r l hr
  simp only [isEmpty, getNext, hlive, if_true, map_some, some_inj, decide_eq_true_eq]
  constructor
  · intro hnext
    cases l with
    | nil => rfl
    | cons b l =>
        have hb : h.next r = some b := (isChain_cons_cons.mp hring.links).1.1
        exact absurd (by simp [some_inj.mp (hnext.symm.trans hb)])
          (nodup_cons.mp hring.nodup).1
  · rintro rfl
    exact (Ring.nil_iff.mp hring).1

/-- A member of a list does not point to itself. -/
theorem isEmpty_of_mem (hR : Rings h R) (hr : R r = some l) (hx : x ∈ l) :
    h.isEmpty x ≠ some true := by
  have hlive : h.live x := hR.live_of_mem hr (mem_cons_of_mem _ hx)
  obtain ⟨hnodup, hlinks⟩ := hR.ring r l hr
  obtain ⟨l₁, l₂, rfl⟩ := append_of_mem hx
  obtain ⟨n, s, hns⟩ : ∃ n s, l₂ ++ [r] = n :: s := exists_cons_of_ne_nil (by simp)
  have hlist : r :: (l₁ ++ x :: l₂) ++ [r] = r :: l₁ ++ x :: n :: s := by
    rw [← hns]
    simp
  rw [hlist, isChain_split] at hlinks
  obtain ⟨⟨hnext, -⟩, -⟩ := isChain_cons_cons.mp hlinks.2
  have hn : n ∈ l₂ ++ [r] := by simp [hns]
  have hnx : n ≠ x := by grind
  simp [isEmpty, getNext, hlive, hnext, hnx]

/-- **Adding** a node that is in no list. -/
theorem add (hR : Rings h R) (hr : R r = some l) (hx : R x = some []) (hrx : r ≠ x) :
    ∃ h', h.add r x = some h' ∧ h'.live = h.live ∧
      Rings h' (update (update R x none) r (some (l ++ [x]))) := by
  have hmem : x ∉ r :: l := fun hmem => hrx (hR.apart r l x [] x hr hx hmem (by simp))
  obtain ⟨p, h', hp, hadd, hring, hlive, hnext, hprev⟩ := (hR.ring r l hr).add hmem <| by
    rw [forall_mem_cons]
    exact ⟨hR.live_of_mem hx (by simp), fun a ha => hR.live_of_mem hr ha⟩
  refine ⟨h', hadd, hlive, ⟨fun r' l' hl' => ?_, fun r' l' r'' l'' y hl' hl'' hy hy' => ?_, fun y => ?_⟩⟩
  · by_cases hr' : r' = r
    · subst hr'
      rw [update_self, some_inj] at hl'
      exact hl' ▸ hring
    · rw [update_of_ne hr'] at hl'
      by_cases hx' : r' = x
      · rw [hx', update_self] at hl'
        cases hl'
      · rw [update_of_ne hx'] at hl'
        have hnotr : ∀ a ∈ r' :: l', a ∉ r :: l := fun a ha hal => hr' (hR.apart _ _ _ _ a hl' hr ha hal)
        have hnotx : ∀ a ∈ r' :: l', a ≠ x := fun a ha heq =>
          hx' (hR.apart _ _ _ _ a hl' hx ha (by simp [heq]))
        refine (hR.ring r' l' hl').congr (fun a ha => ?_) fun a ha => ?_
        · exact hnext a (hnotx a ha) fun heq => hnotr a ha (heq ▸ hp)
        · exact hprev a (hnotx a ha) fun heq => hnotr a ha (by simp [heq])
  · have h₁ := hR.apart r' l' r'' l'' y
    have h₂ := hR.apart r' l' r l y
    have h₃ := hR.apart r l r'' l'' y
    have h₄ := hR.apart r' l' x [] y
    have h₅ := hR.apart x [] r'' l'' y
    grind [update_apply]
  · rw [hlive, hR.live_iff y]
    constructor
    · rintro ⟨r', l', hl', hy⟩
      by_cases hr' : r' = r ∨ r' = x
      · refine ⟨r, l ++ [x], update_self .., ?_⟩
        rcases hr' with rfl | rfl <;> grind
      · rw [not_or] at hr'
        exact ⟨r', l', by rwa [update_of_ne hr'.1, update_of_ne hr'.2], hy⟩
    · rintro ⟨r', l', hl', hy⟩
      by_cases hr' : r' = r
      · rw [hr', update_self, some_inj] at hl'
        subst hl'
        by_cases hyx : y = x
        · exact ⟨x, [], hx, by simp [hyx]⟩
        · exact ⟨r, l, hr, by grind⟩
      · rw [update_of_ne hr'] at hl'
        have hx' : r' ≠ x := by
          rintro rfl
          rw [update_self] at hl'
          cases hl'
        exact ⟨r', l', by rwa [update_of_ne hx'] at hl', hy⟩

/-- **Taking out** a member. -/
theorem del (hR : Rings h R) (hr : R r = some (l₁ ++ x :: l₂)) :
    ∃ h', h.del x = some h' ∧ h'.live = h.live ∧
      Rings h' (update (update R r (some (l₁ ++ l₂))) x (some [])) := by
  have hmem : x ∈ r :: (l₁ ++ x :: l₂) := by simp
  have hnodup := (hR.ring r _ hr).nodup
  have hrx : r ≠ x := fun heq => (nodup_cons.mp hnodup).1 (by simp [heq])
  have hRx : R x = none := by
    by_contra hne
    obtain ⟨l, hl⟩ := ne_none_iff_exists'.mp hne
    exact hrx (hR.apart _ _ _ _ x hr hl hmem (by simp))
  have hxl : x ∉ l₁ ++ l₂ := by
    have hnodup' := (nodup_cons.mp hnodup).2
    rw [nodup_middle] at hnodup'
    exact (nodup_cons.mp hnodup').1
  obtain ⟨p, n, h', hp, hn, hdel, hring, hnil, hlive, hnext, hprev⟩ :=
    (hR.ring r _ hr).del fun a ha => hR.live_of_mem hr ha
  refine ⟨h', hdel, hlive, ⟨fun r' l' hl' => ?_, fun r' l' r'' l'' y hl' hl'' hy hy' => ?_, fun y => ?_⟩⟩
  · by_cases hx' : r' = x
    · subst hx'
      rw [update_self, some_inj] at hl'
      exact hl' ▸ hnil
    · rw [update_of_ne hx'] at hl'
      by_cases hr' : r' = r
      · subst hr'
        rw [update_self, some_inj] at hl'
        exact hl' ▸ hring
      · rw [update_of_ne hr'] at hl'
        have hnot : ∀ a ∈ r' :: l', a ∉ r :: (l₁ ++ x :: l₂) :=
          fun a ha hal => hr' (hR.apart _ _ _ _ a hl' hr ha hal)
        refine (hR.ring r' l' hl').congr (fun a ha => ?_) fun a ha => ?_
        · exact hnext a (fun heq => hnot a ha (heq ▸ hmem))
            fun heq => hnot a ha (heq ▸ mem_append_left _ hp)
        · refine hprev a (fun heq => hnot a ha (heq ▸ hmem)) fun heq => hnot a ha ?_
          subst heq
          grind
  · have h₁ := hR.apart r' l' r'' l'' y
    have h₂ := hR.apart r' l' r (l₁ ++ x :: l₂) y
    have h₃ := hR.apart r (l₁ ++ x :: l₂) r'' l'' y
    grind [update_apply]
  · rw [hlive, hR.live_iff y]
    constructor
    · rintro ⟨r', l', hl', hy⟩
      by_cases hyx : y = x
      · exact ⟨x, [], update_self .., by simp [hyx]⟩
      · have hx' : r' ≠ x := by
          rintro rfl
          rw [hRx] at hl'
          cases hl'
        by_cases hr' : r' = r
        · refine ⟨r, l₁ ++ l₂, by rw [update_of_ne hrx, update_self], ?_⟩
          grind
        · exact ⟨r', l', by rwa [update_of_ne hx', update_of_ne hr'], hy⟩
    · rintro ⟨r', l', hl', hy⟩
      by_cases hx' : r' = x
      · rw [hx', update_self, some_inj] at hl'
        subst hl'
        refine ⟨r, _, hr, ?_⟩
        grind
      · rw [update_of_ne hx'] at hl'
        by_cases hr' : r' = r
        · rw [hr', update_self, some_inj] at hl'
          subst hl'
          refine ⟨r, _, hr, ?_⟩
          grind
        · exact ⟨r', l', by rwa [update_of_ne hr'] at hl', hy⟩

/-- **Deleting** the object of a node that is in no list. -/
theorem free (hR : Rings h R) (hx : R x = some []) : Rings (h.free x) (update R x none) := by
  have hnot : ∀ r l, R r = some l → r ≠ x → x ∉ r :: l := fun r l hl hrx hmem =>
    hrx (hR.apart r l x [] x hl hx hmem (by simp))
  refine ⟨fun r l hl => ?_, fun r l r' l' y hl hl' hy hy' => ?_, fun y => ?_⟩
  · have hrx : r ≠ x := by
      rintro rfl
      rw [update_self] at hl
      cases hl
    rw [update_of_ne hrx] at hl
    exact (hR.ring r l hl).congr (fun _ _ => rfl) fun _ _ => rfl
  · have := hR.apart r l r' l' y
    grind [update_apply]
  · by_cases hyx : y = x
    · subst hyx
      simp only [ListHeap.free, update_self, Bool.false_eq_true, false_iff]
      rintro ⟨r, l, hl, hmem⟩
      have hrx : r ≠ y := by
        rintro rfl
        rw [update_self] at hl
        cases hl
      exact hnot r l (by rwa [update_of_ne hrx] at hl) hrx hmem
    · simp only [ListHeap.free, update_of_ne hyx, hR.live_iff y]
      constructor
      · rintro ⟨r, l, hl, hy⟩
        have hrx : r ≠ x := by
          rintro rfl
          rw [hx, some_inj] at hl
          subst hl
          exact hyx (mem_singleton.mp hy)
        exact ⟨r, l, by rwa [update_of_ne hrx], hy⟩
      · rintro ⟨r, l, hl, hy⟩
        have hrx : r ≠ x := by
          rintro rfl
          rw [update_self] at hl
          cases hl
        exact ⟨r, l, by rwa [update_of_ne hrx] at hl, hy⟩

end Rings

end ListHeap

end V2I
