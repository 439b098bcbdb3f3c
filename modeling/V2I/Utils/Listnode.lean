import V2I.Lib.Cycles
import V2I.Lib.Ring

/-!
# V2I.Utils.Listnode

The macros of `std/list.h` over all circular lists of a heap, and what their names promise:
`Step` says it of the lists, `KeepsLists` of a heap and a sequence of macros. `listnode_add` and
`listnode_insertfirst` put a node before another and `listnode_del` takes one out.
`listnode_addprev` reads `curr.prev` again after it has changed it, so the new node points to
itself.
-/

namespace V2I

open List

namespace ListHeap

variable {N : Type*} [DecidableEq N]

/-- `listnode_addprev(curr, x)` -/
def addPrev (h : ListHeap N) (curr x : N) : Option (ListHeap N) := do
  let h ← h.setNext x (some curr)
  let h ← h.setPrev x (← h.getPrev curr)
  let h ← h.setPrev curr (some x)
  h.setNext (← (← h.getPrev curr)) (some x)

/-- `listnode_insertfirst(head, x)` -/
def insertFirst (h : ListHeap N) (head x : N) : Option (ListHeap N) := do
  let h ← h.setNext x (← h.getNext head)
  let h ← h.setPrev x (some head)
  let h ← h.setPrev (← (← h.getNext head)) (some x)
  h.setNext head (some x)

omit [DecidableEq N] in
/-- The heap holds the circular lists `L`. -/
structure Forms (h : ListHeap N) (L : Cycles N) : Prop where
  links : ∀ c ∈ L.lists, c.Chain h.Link
  live : ∀ c ∈ L.lists, ∀ x ∈ c, h.live x

variable {h h' : ListHeap N} {L L' : Cycles N} {old new : Set (Cycle N)} {c : Cycle N}
  {r n x y z : N} {l : List N}

/-! ## The heap of circular lists -/

omit [DecidableEq N] in
theorem ring_of_chain (hnodup : (↑(r :: l) : Cycle N).Nodup)
    (hchain : (↑(r :: l) : Cycle N).Chain h.Link) : h.Ring r l :=
  ⟨Cycle.nodup_coe_iff.mp hnodup, (Cycle.chain_coe_cons _ _ _).mp hchain⟩

omit [DecidableEq N] in
theorem Ring.chain (hr : h.Ring r l) : (↑(r :: l) : Cycle N).Chain h.Link :=
  (Cycle.chain_coe_cons _ _ _).mpr hr.links

namespace Forms

omit [DecidableEq N] in
theorem ring (hf : h.Forms L) (hc : ↑(r :: l) ∈ L.lists) : h.Ring r l :=
  ring_of_chain (L.nodup _ hc) (hf.links _ hc)

omit [DecidableEq N] in
/-- **`next` and `prev` are inverse to each other** and do not leave a list. -/
theorem exists_links (hf : h.Forms L) (hc : c ∈ L.lists) (hx : x ∈ c) :
    ∃ n p, n ∈ c ∧ p ∈ c ∧ h.Link x n ∧ h.Link p x := by
  obtain ⟨l, rfl⟩ := Cycles.exists_coe_cons hx
  obtain ⟨i, p, hip, hp, -⟩ := exists_last x l (Cycle.nodup_coe_iff.mp (L.nodup _ hc))
  obtain ⟨n, s, hns⟩ : ∃ n s, l ++ [x] = n :: s := exists_cons_of_ne_nil (by simp)
  have hn : n ∈ l ++ [x] := by simp [hns]
  have hlinks := (hf.ring hc).links
  refine ⟨n, p, by simpa [or_comm] using hn, hp, ?_, ?_⟩
  · rw [cons_append, hns] at hlinks
    exact (isChain_cons_cons.mp hlinks).1
  · rw [hip, append_assoc, singleton_append, isChain_split] at hlinks
    exact isChain_pair.mp hlinks.2

omit [DecidableEq N] in
/-- **Frame**: a list whose nodes keep their pointers stays a list. -/
theorem chain_congr (hf : h.Forms L) (hc : c ∈ L.lists)
    (hsame : ∀ a ∈ c, h'.next a = h.next a ∧ h'.prev a = h.prev a) : c.Chain h'.Link := by
  obtain ⟨r, hr⟩ := Cycles.exists_mem (L.nonempty c hc)
  obtain ⟨l, rfl⟩ := Cycles.exists_coe_cons hr
  exact ((hf.ring hc).congr (fun a ha => (hsame a ha).1) fun a ha => (hsame a ha).2).chain

omit [DecidableEq N] in
/-- Some lists are replaced by others, and the nodes of the rest keep their pointers. -/
theorem exchange (hf : h.Forms L) (hlists : L'.lists = L.lists \ old ∪ new)
    (hlive : h'.live = h.live) (hnew : ∀ c ∈ new, c.Chain h'.Link)
    (hnewlive : ∀ c ∈ new, ∀ x ∈ c, h.live x)
    (hsame : ∀ c ∈ L.lists, c ∉ old → ∀ a ∈ c, h'.next a = h.next a ∧ h'.prev a = h.prev a) :
    h'.Forms L' := by
  constructor
  · rw [hlists]
    rintro c (⟨hc, hcold⟩ | hc)
    · exact hf.chain_congr hc (hsame c hc hcold)
    · exact hnew c hc
  · rw [hlists, hlive]
    rintro c (⟨hc, -⟩ | hc)
    · exact hf.live c hc
    · exact hnewlive c hc

end Forms

/-! ## What the macros do with it -/

/-- **Putting a node in**: at the end of a list, which is directly before its first node. -/
theorem Forms.add (hf : h.Forms L) (hc : ↑(r :: l) ∈ L.lists) (hfree : L.Free x)
    (hx : x ∉ r :: l) (hlive : h.live x) : ∃ h' L', h.add r x = some h' ∧
      L'.lists = L.lists \ {↑(r :: l), ↑[x]} ∪ {↑(r :: (l ++ [x]))} ∧ h'.Forms L' ∧
      h'.live = h.live ∧ ∀ y z, y ≠ x → z ≠ x → (L'.Together y z ↔ L.Together y z) := by
  obtain ⟨p, h', hp, hadd, hring, hlive', hnext, hprev⟩ := (hf.ring hc).add hx <| by
    rw [forall_mem_cons]
    exact ⟨hlive, hf.live _ hc⟩
  have hmem : ∀ a : N, a ∈ (↑(r :: (l ++ [x])) : Cycle N) ↔ a ∈ r :: l ∨ a = x := by
    intro a
    rw [Cycle.mem_coe_iff, ← cons_append, mem_append, mem_singleton]
  let old : Set (Cycle N) := {↑(r :: l), ↑[x]}
  let new : Set (Cycle N) := {↑(r :: (l ++ [x]))}
  have hold : ∀ c ∈ new, ∀ d ∈ L.lists, ∀ a, a ∈ c → a ∈ d → d ∈ old := by
    rintro c rfl d hd a hac had
    rcases (hmem a).mp hac with ha | rfl
    · exact .inl (L.apart d hd _ hc a had ha)
    · exact .inr (hfree d hd had)
  refine ⟨h', L.exchange old new ?_ ?_ ?_ hold, hadd, rfl, ?_, hlive', fun y z hy hz => ?_⟩
  · rintro c rfl
    exact Cycle.nodup_coe_iff.mpr hring.nodup
  · rintro c rfl
    simp
  · rintro c rfl d rfl _ _ _
    rfl
  · refine hf.exchange rfl hlive' ?_ ?_ fun c hcL hcold a ha => ?_
    · rintro c rfl
      exact hring.chain
    · rintro c rfl a ha
      rcases (hmem a).mp ha with ha | rfl
      · exact hf.live _ hc a ha
      · exact hlive
    · have hal : a ∉ r :: l := fun hal => hcold (.inl (L.apart c hcL _ hc a ha hal))
      have hax : a ≠ x := by
        rintro rfl
        exact hcold (.inr (hfree c hcL ha))
      exact ⟨hnext a hax fun heq => hal (heq ▸ hp), hprev a hax fun heq => hal (by simp [heq])⟩
  · refine Cycles.together_exchange ?_ ⟨?_, ?_⟩
    · rintro c (rfl | rfl)
      · exact .inl hc
      · exact .inr (.inl (by simpa using hy))
    · rintro ⟨c, rfl | rfl, hyc, hzc⟩
      · exact ⟨_, rfl, (hmem y).mpr (.inl hyc), (hmem z).mpr (.inl hzc)⟩
      · exact absurd hyc (by simpa using hy)
    · rintro ⟨c, rfl, hyc, hzc⟩
      exact ⟨_, .inl rfl, ((hmem y).mp hyc).resolve_right hy, ((hmem z).mp hzc).resolve_right hz⟩

/-- Putting a node behind another one is putting it before the next. -/
theorem insertFirst_eq_add (hlink : h.Link r n) (hr : h.live r) (hn : h.live n) (hx : h.live x)
    (hrx : r ≠ x) (hnx : n ≠ x) : h.insertFirst r x = h.add n x := by
  obtain ⟨hnext, hprev⟩ := hlink
  rw [add_of_prev hprev hn hr hx hnx]
  simp [insertFirst, setNext, setPrev, getNext, hnext, hr, hn, hx, hrx]

/-- `curr.prev` is the new node itself when it is read the second time. -/
theorem next_of_addPrev (hadd : h.addPrev r x = some h') : h'.next x = some x := by
  by_cases hx : h.live x
  · by_cases hr : h.live r
    · simp [addPrev, setNext, setPrev, getPrev, hx, hr] at hadd
      rw [← hadd]
      exact Function.update_self ..
    · simp [addPrev, setNext, setPrev, getPrev, hx, hr] at hadd
  · simp [addPrev, setNext, hx] at hadd

/-- **Taking a node out**: it is a list of its own then. -/
theorem Forms.del (hf : h.Forms L) (hc : ↑(x :: l) ∈ L.lists) : ∃ h' L', h.del x = some h' ∧
    L'.lists = L.lists \ {↑(x :: l)} ∪ {c | c = ↑[x] ∨ c = ↑l ∧ l ≠ []} ∧ h'.Forms L' ∧
    h'.live = h.live ∧ ∀ y z, y ≠ x → z ≠ x → (L'.Together y z ↔ L.Together y z) := by
  have hnodup := Cycle.nodup_coe_iff.mp (L.nodup _ hc)
  obtain ⟨hxl, hl⟩ := nodup_cons.mp hnodup
  let old : Set (Cycle N) := {↑(x :: l)}
  let new : Set (Cycle N) := {c | c = ↑[x] ∨ c = ↑l ∧ l ≠ []}
  have hmem : ∀ c ∈ new, ∀ a ∈ c, a ∈ x :: l := by
    rintro c (rfl | ⟨rfl, -⟩) a ha
    · exact mem_cons.mpr (.inl (mem_singleton.mp ha))
    · exact mem_cons_of_mem x ha
  obtain ⟨h', hdel, hlive', hself, hrest, hsame⟩ : ∃ h', h.del x = some h' ∧ h'.live = h.live ∧
      h'.Ring x [] ∧ (l ≠ [] → (↑l : Cycle N).Chain h'.Link) ∧
      ∀ a, a ∉ x :: l → h'.next a = h.next a ∧ h'.prev a = h.prev a := by
    rcases eq_nil_or_concat l with rfl | ⟨k, p, hk⟩
    · exact ⟨h, del_of_nil (hf.live _ hc x (by simp)) (hf.ring hc), rfl, hf.ring hc,
        fun h => absurd rfl h, fun _ _ => ⟨rfl, rfl⟩⟩
    · -- the node before it begins the same list
      rw [concat_eq_append] at hk
      have hrot : (↑(x :: l) : Cycle N) = ↑(p :: ([] ++ x :: k)) := by
        rw [hk]
        exact (Cycle.coe_cons_eq_coe_append (x :: k) p).symm
      have hp : ↑(p :: ([] ++ x :: k)) ∈ L.lists := hrot ▸ hc
      obtain ⟨q, n, h', hq, hn, hdel, hring, hself, hlive', hnext, hprev⟩ :=
        (hf.ring hp).del fun a ha => hf.live _ hp a ha
      refine ⟨h', hdel, hlive', hself, fun _ => ?_, fun a ha => ⟨hnext a ?_ ?_, hprev a ?_ ?_⟩⟩
      · rw [hk, ← Cycle.coe_cons_eq_coe_append]
        exact hring.chain
      all_goals
        rintro rfl
        grind
  refine ⟨h', L.exchange old new ?_ ?_ ?_ ?_, hdel, rfl, ?_, hlive', fun y z hy hz => ?_⟩
  · rintro c (rfl | ⟨rfl, -⟩)
    · exact Cycle.nodup_coe_iff.mpr (nodup_singleton x)
    · exact Cycle.nodup_coe_iff.mpr hl
  · rintro c (rfl | ⟨rfl, hne⟩)
    · simp
    · simpa using hne
  · rintro c (rfl | ⟨rfl, -⟩) d (rfl | ⟨rfl, -⟩) a hac had
    · rfl
    · exact absurd (mem_singleton.mp hac ▸ had) hxl
    · exact absurd (mem_singleton.mp had ▸ hac) hxl
    · rfl
  · exact fun c hcnew d hd a hac had => L.apart d hd _ hc a had (hmem c hcnew a hac)
  · refine hf.exchange rfl hlive' ?_ ?_ fun c hcL hcold a ha => hsame a fun hal => ?_
    · rintro c (rfl | ⟨rfl, hne⟩)
      · exact hself.chain
      · exact hrest hne
    · exact fun c hcnew a ha => hf.live _ hc a (hmem c hcnew a ha)
    · exact hcold (L.apart c hcL _ hc a ha hal)
  · refine Cycles.together_exchange ?_ ⟨?_, ?_⟩
    · rintro c rfl
      exact .inl hc
    · rintro ⟨c, rfl, hyc, hzc⟩
      have hyl : y ∈ l := (mem_cons.mp hyc).resolve_left hy
      exact ⟨↑l, .inr ⟨rfl, ne_nil_of_mem hyl⟩, hyl, (mem_cons.mp hzc).resolve_left hz⟩
    · rintro ⟨c, hcnew, hyc, hzc⟩
      exact ⟨_, rfl, hmem c hcnew y hyc, hmem c hcnew z hzc⟩

end ListHeap

namespace Utils.Listnode

variable {N : Type*}

/-- A use of one of the macros. -/
inductive Op (N : Type*)
  | add (head x : N)
  | addPrev (curr x : N)
  | insertFirst (head x : N)
  | del (x : N)

namespace Op

/-- The node that is put in or taken out. -/
def node : Op N → N
  | add _ x | addPrev _ x | insertFirst _ x | del x => x

def IsAddPrev : Op N → Prop
  | addPrev .. => True
  | _ => False

/-- What the macro does with the heap. -/
def run [DecidableEq N] (h : ListHeap N) : Op N → Option (ListHeap N)
  | add head x => h.add head x
  | addPrev curr x => h.addPrev curr x
  | insertFirst head x => h.insertFirst head x
  | del x => h.del x

end Op

/-- The macro may be used: a node is put into the list of another one that it is not linked with,
and it is linked with no node at all; a node that is taken out has been put into a list. -/
def Ready (live : N → Bool) (L : Cycles N) : Op N → Prop
  | .add head x | .addPrev head x | .insertFirst head x =>
      live x ∧ L.Free x ∧ ∃ c ∈ L.lists, head ∈ c ∧ x ∉ c
  | .del x => ∃ c ∈ L.lists, x ∈ c

/-- What the macros are for: `listnode_add` puts the node at the end of the list that begins with
`head`, `listnode_addprev` directly before `curr`, `listnode_insertfirst` directly behind `head`;
`listnode_del` makes of the node a list of its own. -/
def Step : Op N → Cycles N → Cycles N → Prop
  | .add head x, L, L' => ∃ l : List N, ↑(head :: l) ∈ L.lists ∧
      L'.lists = L.lists \ {↑(head :: l), ↑[x]} ∪ {↑(head :: (l ++ [x]))}
  | .addPrev curr x, L, L' => ∃ l : List N, ↑(curr :: l) ∈ L.lists ∧
      L'.lists = L.lists \ {↑(curr :: l), ↑[x]} ∪ {↑(x :: curr :: l)}
  | .insertFirst head x, L, L' => ∃ l : List N, ↑(head :: l) ∈ L.lists ∧
      L'.lists = L.lists \ {↑(head :: l), ↑[x]} ∪ {↑(head :: x :: l)}
  | .del x, L, L' => ∃ l : List N, ↑(x :: l) ∈ L.lists ∧
      L'.lists = L.lists \ {↑(x :: l)} ∪ {c | c = ↑[x] ∨ c = ↑l ∧ l ≠ []}

/-- One macro does what its name says, and no other node gets into another list. -/
structure Does [DecidableEq N] (op : Op N) (h h' : ListHeap N) (L L' : Cycles N) : Prop where
  run : op.run h = some h'
  step : Step op L L'
  forms : h'.Forms L'
  others : ∀ y z, y ≠ op.node → z ≠ op.node → (L'.Together y z ↔ L.Together y z)

/-- Each macro of the sequence may be used when it is its turn. -/
def Permitted (live : N → Bool) (L : Cycles N) : List (Op N) → Prop
  | [] => True
  | op :: ops => Ready live L op ∧ ∀ L', Step op L L' → Permitted live L' ops

/-- Every macro of the sequence does what its name says. -/
def KeepsLists [DecidableEq N] (h : ListHeap N) (L : Cycles N) : List (Op N) → Prop
  | [] => True
  | op :: ops => ∃ h' L', Does op h h' L L' ∧ KeepsLists h' L' ops

variable [DecidableEq N] {h h' : ListHeap N} {L L' : Cycles N} {op : Op N} {curr x : N}

/-! ## One macro -/

theorem exists_does (hf : h.Forms L) (hready : Ready h.live L op) (hop : ¬ op.IsAddPrev) :
    ∃ h' L', Does op h h' L L' ∧ h'.live = h.live := by
  cases op with
  | add head x =>
      obtain ⟨hlive, hfree, c, hc, hhead, hx⟩ := hready
      obtain ⟨l, rfl⟩ := Cycles.exists_coe_cons hhead
      obtain ⟨h', L', hadd, hlists, hf', hlive', hothers⟩ := hf.add hc hfree hx hlive
      exact ⟨h', L', ⟨hadd, ⟨l, hc, hlists⟩, hf', hothers⟩, hlive'⟩
  | addPrev curr x => exact absurd trivial hop
  | insertFirst head x =>
      obtain ⟨hlive, hfree, c, hc, hhead, hx⟩ := hready
      obtain ⟨n, -, hn, -, hlink, -⟩ := hf.exists_links hc hhead
      have hhead' : head ≠ x := fun heq => hx (heq ▸ hhead)
      have hnx : n ≠ x := fun heq => hx (heq ▸ hn)
      have hrun := ListHeap.insertFirst_eq_add hlink (hf.live c hc head hhead) (hf.live c hc n hn)
        hlive hhead' hnx
      obtain ⟨l, rfl⟩ := Cycles.exists_coe_cons hhead
      -- the list that begins with the next node ends with `head`
      obtain ⟨k, hk⟩ : ∃ k, l ++ [head] = n :: k := by
        obtain ⟨m, k, hk⟩ : ∃ m k, l ++ [head] = m :: k := exists_cons_of_ne_nil (by simp)
        have hlinks := (hf.ring hc).links
        rw [cons_append, hk] at hlinks
        have hm := (isChain_cons_cons.mp hlinks).1.1
        exact ⟨k, by rw [hk, Option.some_inj.mp (hm.symm.trans hlink.1)]⟩
      have hrot : (↑(head :: l) : Cycle N) = ↑(n :: k) := by
        rw [Cycle.coe_cons_eq_coe_append, hk]
      have hrot' : (↑(head :: x :: l) : Cycle N) = ↑(n :: (k ++ [x])) := by
        rw [← cons_append, ← hk, append_assoc]
        exact Cycles.coe_append_comm [head, x] l
      obtain ⟨h', L', hadd, hlists, hf', hlive', hothers⟩ :=
        hf.add (hrot ▸ hc) hfree (by rwa [hrot] at hx) hlive
      exact ⟨h', L', ⟨hrun.trans hadd, ⟨l, hc, by rw [hlists, hrot, hrot']⟩, hf', hothers⟩, hlive'⟩
  | del x =>
      obtain ⟨c, hc, hx⟩ := hready
      obtain ⟨l, rfl⟩ := Cycles.exists_coe_cons hx
      obtain ⟨h', L', hdel, hlists, hf', hlive', hothers⟩ := hf.del hc
      exact ⟨h', L', ⟨hdel, ⟨l, hc, hlists⟩, hf', hothers⟩, hlive'⟩

/-- **`listnode_addprev` never does what its name says.** -/
theorem not_does_addPrev (hready : Ready h.live L (.addPrev curr x)) :
    ¬ Does (.addPrev curr x) h h' L L' := by
  rintro ⟨hrun, ⟨l, -, hlists⟩, hf, -⟩
  obtain ⟨-, -, c, -, hcurr, hx⟩ := hready
  have hring : h'.Ring x (curr :: l) := hf.ring (hlists ▸ .inr rfl)
  have hnext : h'.next x = some curr := (isChain_cons_cons.mp hring.links).1.1
  have hself : h'.next x = some x := ListHeap.next_of_addPrev hrun
  exact hx (Option.some_inj.mp (hnext.symm.trans hself) ▸ hcurr)

/-! ## Sequences of macros -/

/-- **The lists stay as the macros' names say exactly when `listnode_addprev` is not used.** -/
theorem keepsLists_iff {ops : List (Op N)} (hf : h.Forms L) (hp : Permitted h.live L ops) :
    KeepsLists h L ops ↔ ∀ op ∈ ops, ¬ op.IsAddPrev := by
  induction ops generalizing h L with
  | nil => simp [KeepsLists]
  | cons op ops ih =>
      obtain ⟨hready, hp⟩ := hp
      rw [forall_mem_cons]
      constructor
      · rintro ⟨h', L', hdoes, hkeeps⟩
        have hop : ¬ op.IsAddPrev := fun hop => by
          cases op with
          | addPrev curr x => exact not_does_addPrev hready hdoes
          | add | insertFirst | del => exact hop
        obtain ⟨h'', L'', hdoes', hlive⟩ := exists_does hf hready hop
        have hh : h' = h'' := Option.some_inj.mp (hdoes.run.symm.trans hdoes'.run)
        exact ⟨hop, (ih hdoes.forms (by rw [hh, hlive]; exact hp L' hdoes.step)).mp hkeeps⟩
      · rintro ⟨hop, hops⟩
        obtain ⟨h', L', hdoes, hlive⟩ := exists_does hf hready hop
        exact ⟨h', L', hdoes, (ih hdoes.forms (hlive ▸ hp L' hdoes.step)).mpr hops⟩

/-- Nodes as `listnode_init` leaves them, each a list of its own. -/
def selfLinked (N : Type*) : ListHeap N := ⟨fun _ => true, some, some⟩

/-- The lists of such nodes. -/
def singletons (N : Type*) : Cycles N where
  lists := Set.range fun x : N => ↑[x]
  nodup := by
    rintro _ ⟨x, rfl⟩
    exact Cycle.nodup_coe_iff.mpr (nodup_singleton x)
  nonempty := by
    rintro _ ⟨x, rfl⟩
    simp
  apart := by
    rintro _ ⟨x, rfl⟩ _ ⟨y, rfl⟩ a hx hy
    rw [← mem_singleton.mp hx, ← mem_singleton.mp hy]

omit [DecidableEq N] in
theorem forms_selfLinked : (selfLinked N).Forms (singletons N) := by
  constructor
  · rintro _ ⟨x, rfl⟩
    exact (Cycle.chain_singleton _ x).mpr ⟨rfl, rfl⟩
  · exact fun _ _ _ _ => rfl

omit [DecidableEq N] in
/-- Two such nodes may be linked. -/
theorem ready_selfLinked {y : N} (hxy : y ≠ x) :
    (singletons N).Free x ∧ ∃ c ∈ (singletons N).lists, y ∈ c ∧ x ∉ c := by
  refine ⟨?_, ↑[y], ⟨y, rfl⟩, mem_singleton.mpr rfl, ?_⟩
  · rintro _ ⟨a, rfl⟩ hx
    rw [mem_singleton.mp hx]
  · exact fun hx => hxy (mem_singleton.mp hx).symm

/-- Two nodes are put into the list of a third one, and one of them is taken out again. -/
theorem keepsLists_iff_three :
    KeepsLists (selfLinked ℕ) (singletons ℕ) [.add 0 1, .insertFirst 0 2, .del 1] := by
  have hp : Permitted (selfLinked ℕ).live (singletons ℕ) [.add 0 1, .insertFirst 0 2, .del 1] := by
    refine ⟨⟨rfl, ready_selfLinked (by decide)⟩, ?_⟩
    rintro L ⟨l, ⟨x, hx⟩, hL⟩
    have hl : l = [] := by simpa using congrArg Cycle.length hx
    rw [hl] at hL
    have htwo : (↑[0, 1] : Cycle ℕ) ∈ L.lists := by
      rw [hL]
      exact .inr rfl
    refine ⟨⟨rfl, fun c hc h2 => ?_, _, htwo, by simp, by simp⟩, ?_⟩
    · rw [hL] at hc
      obtain ⟨⟨y, rfl⟩, -⟩ | rfl := hc
      · rw [mem_singleton.mp h2]
      · exact absurd h2 (by simp)
    · rintro L' ⟨l', hl', hL'⟩
      -- the list of 0 is the one that 1 was put into
      have heq := L.apart _ htwo _ hl' 0 (by simp) (by simp)
      have h1 : 1 ∈ (↑(0 :: l') : Cycle ℕ) := by
        rw [← heq]
        simp
      refine ⟨⟨↑(0 :: 2 :: l'), by rw [hL']; exact .inr rfl, ?_⟩, fun _ _ => trivial⟩
      exact Cycle.mem_coe_iff.mpr (mem_cons_of_mem _ (mem_cons_of_mem _ (by simpa using h1)))
  exact (keepsLists_iff forms_selfLinked hp).mpr (by simp [Op.IsAddPrev])

/-- **One `listnode_addprev` breaks a list.** -/
theorem not_keepsLists_addPrev : (selfLinked ℕ).Forms (singletons ℕ) ∧
    Permitted (selfLinked ℕ).live (singletons ℕ) [.addPrev 0 1] ∧
    ¬ KeepsLists (selfLinked ℕ) (singletons ℕ) [.addPrev 0 1] := by
  have hready : Ready (selfLinked ℕ).live (singletons ℕ) (.addPrev 0 1) :=
    ⟨rfl, ready_selfLinked (by decide)⟩
  refine ⟨forms_selfLinked, ⟨hready, fun _ _ => trivial⟩, ?_⟩
  rintro ⟨_, _, hdoes, -⟩
  exact not_does_addPrev hready hdoes

end Utils.Listnode

end V2I
