import Mathlib.Data.List.Nodup
import V2I.Lib.Machine
import V2I.Zasbsc

/-!
# V2I.Utils.Datapool

The elements of a datapool (`datapool.cpp`): each has its data and a list of listeners, the ones
of its own process and those of remote clients. A listener is known by the function to call and
the owner to call it with.
-/

namespace V2I.Utils.Datapool

/-- An `evlclient`, by its handle. -/
abbrev Client := ℕ

/-- `element_listener`, at its address: a local listener has no client. -/
structure ElementListener where
  address : ℕ
  notify : ℕ
  owner : ℕ
  client : Option Client
  deriving DecidableEq

/-- The listener has this function and this owner. -/
def ElementListener.Matches (l : ElementListener) (notify owner : ℕ) : Bool :=
  notify == l.notify && owner == l.owner

/-- `pond_element` -/
structure PondElement where
  elementName : Bytes
  creatorName : Bytes
  needPersistent : Bool
  elementData : Option Bytes
  notifyList : List ElementListener
  deriving DecidableEq

namespace PondElement

/-- `pond_element(const char*, bool, const char*)` -/
def new (name : Bytes) (needpersistent : Bool) (creator : Option Bytes) : PondElement :=
  ⟨name, creator.getD [], needpersistent, none, []⟩

/-- `setdata` -/
def setdata (e : PondElement) (buffer : Bytes) : PondElement × ℤ :=
  ({ e with elementData := some buffer }, 0)

/-- `getdata`: the data and their length, which the source returns through an `int`. -/
def getdata (e : PondElement) : Bytes × ℤ :=
  match e.elementData with
  | none => ([], 0)
  | some data => (data, data.length)

/-- `getdatasize` -/
def getdatasize (e : PondElement) : ℕ :=
  match e.elementData with
  | none => 0
  | some data => data.length

/-- `notify` before its loop: what is kept, and what the listeners get. -/
def notifyData (e : PondElement) (buffer : Option Bytes) : PondElement × Option Bytes :=
  match buffer with
  | some (b :: bs) => ({ e with elementData := some (b :: bs) }, some (b :: bs))
  | _ => (e, e.elementData.or buffer)

/-- `add_listener`, with the address of the new node. -/
def addListener (e : PondElement) (address notify owner : ℕ) (client : Option Client) :
    PondElement × ℤ :=
  ({ e with notifyList := e.notifyList ++ [⟨address, notify, owner, client⟩] }, 0)

/-- `remove_listener`: the first node with this function and this owner. -/
def removeListener (e : PondElement) (notify owner : ℕ) : PondElement × ℤ :=
  match e.notifyList.find? fun l => l.Matches notify owner with
  | none => (e, -ENOTEXISTS)
  | some _ => ({ e with notifyList := e.notifyList.eraseP fun l => l.Matches notify owner }, 0)

end PondElement

/-- `pond`, the elements in the order of their list. -/
abbrev Pond := List PondElement

namespace Pond

/-- `find_element_node` -/
def findElementNode (p : Pond) (name : Bytes) : Option PondElement :=
  p.find? fun e => e.elementName == name

/-- `create_element_node`, none where it gives no element. -/
def createElementNode (p : Pond) (name : Bytes) (needPersistent : Bool) (creator : Option Bytes) :
    Option Pond :=
  if name = [] ∨ (p.findElementNode name).isSome then none
  else some (p ++ [.new name needPersistent creator])

/-- `remove_pond_element` -/
def removePondElement (p : Pond) (name : Bytes) (remover : Option Bytes) : Pond × ℤ :=
  if name = [] then (p, -EBADPARM)
  else
    match p.findElementNode name with
    | none => (p, -ENOTFOUND)
    | some e =>
        -- an element with a creator needs its name
        if e.creatorName ≠ [] ∧ remover = none then (p, -EBADPARM)
        else if e.creatorName ≠ [] ∧ remover ≠ some e.creatorName then (p, -ENOTAVAIL)
        else (p.eraseP fun e => e.elementName == name, 0)

/-- The element of this name changed in place. -/
def modify (p : Pond) (name : Bytes) (f : PondElement → PondElement) : Pond :=
  p.map fun e => if e.elementName = name then f e else e

end Pond

end V2I.Utils.Datapool

/-!
## Listeners

The listeners of an element while the server process and clients add and remove them and notify
the element, and while a local listener that is called by `notify` adds and removes listeners
itself.

Beside the element runs what should be: a client that removes a listener removes its own first
registration with this function and this owner. The loop of `notify` stays at the node of the
listener that is being called and reads the next one from it afterwards. `notified_iff_own` says
when all of this goes well: a removal has to find the caller's own registration first, and no
listener may be gone when it returns.
-/

namespace V2I.Utils.Datapool.Listeners

open Datapool

/-- An element, the address of the next new node and the loop of `notify`: the node that it is at
and what the listeners get. `faulted` says that it read a deleted node. The other fields are not
the program's: the registrations as they should be, those at the beginning of the last `notify`,
the nodes that it invoked, and whether ever a listener was invoked that should be gone. -/
structure State where
  element : PondElement
  nextAddress : ℕ
  loop : Option (ElementListener × Option Bytes)
  faulted : Bool
  registered : List ElementListener
  atStart : List ElementListener
  invoked : List ℕ
  late : Bool

/-- Calls on the element, by the server process (`none`) or a client. Calls during the loop of
`notify` come from the listener that is being called; `returned` is its return, or that of the
`write` to a client. -/
inductive Call where
  | addListener (client : Option Client) (notify owner : ℕ)
  | removeListener (client : Option Client) (notify owner : ℕ)
  | notify (buffer : Option Bytes)
  | returned

def new (e : PondElement) : State :=
  ⟨{ e with notifyList := [] }, 0, none, false, [], [], [], false⟩

/-- No `notify` is going on, or it is calling a local listener. -/
def Open (s : State) : Bool :=
  match s.loop with
  | none => true
  | some (l, _) => l.client == none

/-- The registration is the client's, with this function and this owner. -/
def Own (client : Option Client) (notify owner : ℕ) (l : ElementListener) : Bool :=
  l.client == client && l.Matches notify owner

/-- The loop of `notify` goes to the node. -/
def invoke (s : State) (l : ElementListener) (buffer : Option Bytes) : State :=
  { s with
    loop := some (l, buffer)
    invoked := s.invoked ++ [l.address]
    late := s.late || !decide (l ∈ s.registered) }

/-- The nodes after the one of the listener, none where it is not in the list. -/
def after (l : ElementListener) (nodes : List ElementListener) : List ElementListener :=
  (nodes.dropWhile fun n => n != l).tail

def step (s : State) : Call → Option (State × ℤ)
  | .addListener client notify owner =>
      if Open s then
        let (element, ret) := s.element.addListener s.nextAddress notify owner client
        some ({ s with
          element
          nextAddress := s.nextAddress + 1
          registered := s.registered ++ [⟨s.nextAddress, notify, owner, client⟩] }, ret)
      else none
  | .removeListener client notify owner =>
      if Open s then
        let (element, ret) := s.element.removeListener notify owner
        some ({ s with
          element, registered := s.registered.eraseP (Own client notify owner) }, ret)
      else none
  | .notify buffer =>
      match s.loop with
      | some _ => none
      | none =>
          let (element, buffer) := s.element.notifyData buffer
          let s := { s with element, atStart := s.registered, invoked := [] }
          match element.notifyList with
          | [] => some (s, 0)
          | l :: _ => some (invoke s l buffer, 0)
  | .returned =>
      if s.faulted then none
      else
        match s.loop with
        | none => none
        | some (l, buffer) =>
            if l ∈ s.element.notifyList then
              match after l s.element.notifyList with
              | [] => some ({ s with loop := none }, 0)
              | n :: _ => some (invoke s n buffer, 0)
            -- the next node is read from the one that was deleted
            else some ({ s with faulted := true }, 0)

/-- What the listeners may rely on. -/
structure Notified (s : State) : Prop where
  /-- a removal takes off the caller's own registration -/
  own : s.element.notifyList = s.registered
  /-- no listener is invoked that should be gone -/
  notLate : s.late = false
  /-- the loop of `notify` stays within the list -/
  within : s.faulted = false
  /-- a `notify` has invoked the listeners once that were there and still are -/
  once : s.loop = none → ∀ l ∈ s.atStart, l ∈ s.registered → s.invoked.count l.address = 1

/-- A removal finds the caller's own registration first, or neither it nor another one; a listener
that returns is still registered. -/
def OwnFirst (s : State) : Call → Prop
  | .removeListener client notify owner =>
      s.element.notifyList.find? (fun l => l.Matches notify owner) =
        s.element.notifyList.find? (Own client notify owner)
  | .returned => ∀ l buffer, s.loop = some (l, buffer) → l ∈ s.element.notifyList
  | _ => True

/-! ## Steps -/

/-- The listeners may rely on what is promised, nodes have their own addresses, and the loop of
`notify` has invoked the nodes up to the one that it is at and no others. -/
structure Inv (s : State) : Prop extends Notified s where
  nodup : (s.element.notifyList.map ElementListener.address).Nodup
  below : ∀ l ∈ s.element.notifyList, l.address < s.nextAddress
  atStartBelow : ∀ l ∈ s.atStart, l.address < s.nextAddress
  invokedBelow : ∀ a ∈ s.invoked, a < s.nextAddress
  currentBelow : ∀ l buffer, s.loop = some (l, buffer) → l.address < s.nextAddress
  walking : ∀ l buffer, s.loop = some (l, buffer) → l ∈ s.element.notifyList →
    ∃ front back, s.element.notifyList = front ++ l :: back ∧
      (∀ n ∈ front ++ [l], s.invoked.count n.address = 1) ∧
      ∀ n ∈ back, n.address ∉ s.invoked

variable (e : PondElement)

theorem inv_new : Inv (new e) where
  own := rfl
  notLate := rfl
  within := rfl
  once := by simp [new]
  nodup := List.nodup_nil
  below := by simp [new]
  atStartBelow := by simp [new]
  invokedBelow := by simp [new]
  currentBelow := by simp [new]
  walking := by simp [new]

theorem removeListener_notifyList (notify owner : ℕ) :
    (e.removeListener notify owner).1.notifyList =
      e.notifyList.eraseP fun l => l.Matches notify owner := by
  rw [PondElement.removeListener]
  split
  · rename_i hnone
    exact (List.eraseP_of_forall_not (List.find?_eq_none.mp hnone)).symm
  · rfl

theorem notifyData_notifyList (buffer : Option Bytes) :
    (e.notifyData buffer).1.notifyList = e.notifyList := by
  unfold PondElement.notifyData
  split <;> rfl

/-- Two predicates, one stronger than the other, erase the same element of a list exactly if they
find the same one first. -/
theorem eraseP_eq_iff {p q : ElementListener → Bool} {l : List ElementListener}
    (hpq : ∀ n, q n = true → p n = true) (hl : l.Nodup) :
    l.eraseP p = l.eraseP q ↔ l.find? p = l.find? q := by
  induction l with
  | nil => simp
  | cons n l ih =>
      obtain ⟨hn, hl⟩ := List.nodup_cons.mp hl
      cases hp : p n with
      | true =>
          rw [List.eraseP_cons_of_pos hp, List.find?_cons_of_pos hp]
          cases hq : q n with
          | true => rw [List.eraseP_cons_of_pos hq, List.find?_cons_of_pos hq]; simp
          | false =>
              rw [List.eraseP_cons_of_neg (by simp [hq]), List.find?_cons_of_neg (by simp [hq])]
              refine iff_of_false (fun heq => hn ?_) fun heq => ?_
              · rw [heq]
                exact List.mem_cons_self
              · have hfound := List.find?_some heq.symm
                rw [hq] at hfound
                cases hfound
      | false =>
          have hp' : ¬ p n = true := by simp [hp]
          have hq' : ¬ q n = true := fun hq => hp' (hpq n hq)
          rw [List.eraseP_cons_of_neg hp', List.eraseP_cons_of_neg hq',
            List.find?_cons_of_neg hp', List.find?_cons_of_neg hq', List.cons.injEq, ← ih hl]
          simp

theorem own_matches {client : Option Client} {notify owner : ℕ} (l : ElementListener)
    (h : Own client notify owner l = true) : l.Matches notify owner = true := by
  rw [Own, Bool.and_eq_true] at h
  exact h.2

variable {front back : List ElementListener} {l : ElementListener}

theorem after_append (h : l ∉ front) : after l (front ++ l :: back) = back := by
  have hdrop : (front ++ l :: back).dropWhile (fun n => n != l) = l :: back := by
    rw [List.dropWhile_append_of_pos]
    · simp
    · intro n hn
      refine bne_iff_ne.mpr ?_
      rintro rfl
      exact h hn
  rw [after, hdrop]
  rfl

/-- Erasing from a list around an element that stays. -/
theorem eraseP_middle {p : ElementListener → Bool} (hl : (front ++ l :: back).Nodup)
    (h : l ∈ (front ++ l :: back).eraseP p) :
    ∃ front' back', (front ++ l :: back).eraseP p = front' ++ l :: back' ∧
      front'.Sublist front ∧ back'.Sublist back := by
  by_cases hany : ∃ n ∈ front, p n = true
  · obtain ⟨n, hn, hpn⟩ := hany
    rw [List.eraseP_append_left hpn _ hn]
    exact ⟨_, _, rfl, List.eraseP_sublist, List.Sublist.refl _⟩
  · push Not at hany
    rw [List.eraseP_append_right _ hany] at h ⊢
    by_cases hp : p l = true
    · rw [List.eraseP_cons_of_pos hp] at h
      have hdisj := (List.nodup_append.mp hl).2.2
      rcases List.mem_append.mp h with hfront | hback
      · exact absurd rfl (hdisj l hfront l List.mem_cons_self)
      · exact absurd hback (List.nodup_cons.mp (List.nodup_append.mp hl).2.1).1
    · rw [List.eraseP_cons_of_neg hp]
      exact ⟨_, _, rfl, List.Sublist.refl _, List.eraseP_sublist⟩

variable {s : State}

/-- Nothing changes for the loop of `notify` where a node comes after the others. -/
theorem Inv.addListener (h : Inv s) (client : Option Client) (notify owner : ℕ) :
    Inv { s with
      element := (s.element.addListener s.nextAddress notify owner client).1
      nextAddress := s.nextAddress + 1
      registered := s.registered ++ [⟨s.nextAddress, notify, owner, client⟩] } where
  own := congrArg (· ++ _) h.own
  notLate := h.notLate
  within := h.within
  once := by
    intro hloop l hl hmem
    rcases List.mem_append.mp hmem with hmem | hnew
    · exact h.once hloop l hl hmem
    · cases List.mem_singleton.mp hnew
      exact absurd (h.atStartBelow _ hl) (Nat.lt_irrefl _)
  nodup := by
    simp only [PondElement.addListener, List.map_append, List.map_cons, List.map_nil]
    refine List.nodup_append.mpr ⟨h.nodup, List.nodup_singleton _, ?_⟩
    intro a ha b hb
    obtain ⟨l, hl, rfl⟩ := List.mem_map.mp ha
    cases List.mem_singleton.mp hb
    exact Nat.ne_of_lt (h.below l hl)
  below := by
    intro l hl
    rcases List.mem_append.mp hl with hl | hnew
    · exact Nat.lt_succ_of_lt (h.below l hl)
    · cases List.mem_singleton.mp hnew
      exact Nat.lt_succ_self _
  atStartBelow := fun l hl => Nat.lt_succ_of_lt (h.atStartBelow l hl)
  invokedBelow := fun a ha => Nat.lt_succ_of_lt (h.invokedBelow a ha)
  currentBelow := fun l buffer hloop => Nat.lt_succ_of_lt (h.currentBelow l buffer hloop)
  walking := by
    intro l buffer hloop hl
    rcases List.mem_append.mp hl with hl | hnew
    · obtain ⟨front, back, hlist, hcount, hback⟩ := h.walking l buffer hloop hl
      refine ⟨front, back ++ [⟨s.nextAddress, notify, owner, client⟩], ?_, hcount, ?_⟩
      · simp [PondElement.addListener, hlist]
      · intro n hn
        rcases List.mem_append.mp hn with hn | hnew
        · exact hback n hn
        · cases List.mem_singleton.mp hnew
          exact fun hmem => Nat.lt_irrefl _ (h.invokedBelow _ hmem)
    · cases List.mem_singleton.mp hnew
      exact absurd (h.currentBelow _ buffer hloop) (Nat.lt_irrefl _)

/-- A node is erased, the same one as from the registrations. -/
theorem Inv.removeListener (h : Inv s) (client : Option Client) (notify owner : ℕ)
    (hown : OwnFirst s (.removeListener client notify owner)) : Inv { s with
      element := (s.element.removeListener notify owner).1
      registered := s.registered.eraseP (Own client notify owner) } := by
  have hlist := removeListener_notifyList s.element notify owner
  have hsub : (s.element.removeListener notify owner).1.notifyList.Sublist s.element.notifyList := by
    rw [hlist]
    exact List.eraseP_sublist
  exact
    { own := by
        simp only
        rw [hlist, (eraseP_eq_iff (fun l => own_matches l) h.nodup.of_map).mpr hown, h.own]
      notLate := h.notLate
      within := h.within
      once := fun hloop l hl hmem => h.once hloop l hl (List.eraseP_sublist.subset hmem)
      nodup := (hsub.map _).nodup h.nodup
      below := fun l hl => h.below l (hsub.subset hl)
      atStartBelow := h.atStartBelow
      invokedBelow := h.invokedBelow
      currentBelow := h.currentBelow
      walking := by
        intro l buffer hloop hl
        obtain ⟨front, back, hsplit, hcount, hback⟩ := h.walking l buffer hloop (hsub.subset hl)
        have hnodup : (front ++ l :: back).Nodup := hsplit ▸ h.nodup.of_map
        simp only at hl ⊢
        rw [hlist, hsplit] at hl
        obtain ⟨front', back', heq, hfront, hback'⟩ := eraseP_middle hnodup hl
        refine ⟨front', back', by rw [hlist, hsplit, heq], fun n hn => hcount n ?_,
          fun n hn => hback n (hback'.subset hn)⟩
        exact (hfront.append_right [l]).subset hn }

/-- The loop goes to a node of the list that was not invoked, where those before it were. -/
theorem Inv.invoke (hown : s.element.notifyList = s.registered) (hlate : s.late = false)
    (hwithin : s.faulted = false)
    (hnodup : (s.element.notifyList.map ElementListener.address).Nodup)
    (hbelow : ∀ n ∈ s.element.notifyList, n.address < s.nextAddress)
    (hstart : ∀ n ∈ s.atStart, n.address < s.nextAddress)
    (hinvoked : ∀ a ∈ s.invoked, a < s.nextAddress)
    (hsplit : s.element.notifyList = front ++ l :: back)
    (hfront : ∀ n ∈ front, s.invoked.count n.address = 1)
    (hback : ∀ n ∈ l :: back, n.address ∉ s.invoked) (buffer : Option Bytes) :
    Inv (Listeners.invoke s l buffer) := by
  have hmem : l ∈ s.element.notifyList := by simp [hsplit]
  have haddress : ∀ n ∈ front ++ back, n.address ≠ l.address := by
    rw [hsplit, List.map_append, List.map_cons] at hnodup
    obtain ⟨-, hrest, hdisj⟩ := List.nodup_append.mp hnodup
    intro n hn heq
    rcases List.mem_append.mp hn with hn | hn
    · exact hdisj _ (List.mem_map_of_mem hn) _ List.mem_cons_self heq
    · exact (List.nodup_cons.mp hrest).1 (heq ▸ List.mem_map_of_mem hn)
  have hcount : ∀ n ∈ front ++ back,
      (s.invoked ++ [l.address]).count n.address = s.invoked.count n.address := by
    intro n hn
    rw [List.count_append, List.count_singleton, if_neg (by simpa using (haddress n hn).symm),
      Nat.add_zero]
  exact
    { own := hown
      notLate := by simp [Listeners.invoke, hlate, ← hown, hmem]
      within := hwithin
      once := fun hloop => nomatch hloop
      nodup := hnodup
      below := hbelow
      atStartBelow := hstart
      invokedBelow := by
        intro a ha
        rcases List.mem_append.mp ha with ha | ha
        · exact hinvoked a ha
        · cases List.mem_singleton.mp ha
          exact hbelow l hmem
      currentBelow := by
        rintro n b ⟨⟩
        exact hbelow l hmem
      walking := by
        rintro n b ⟨⟩ -
        refine ⟨front, back, hsplit, fun m hm => ?_, fun m hm hmem => ?_⟩
        · rcases List.mem_append.mp hm with hm | hm
          · exact (hcount m (List.mem_append_left _ hm)).trans (hfront m hm)
          · cases List.mem_singleton.mp hm
            have hzero := List.count_eq_zero.mpr (hback l List.mem_cons_self)
            simp [Listeners.invoke, List.count_append, hzero]
        · have hpos := List.count_pos_iff.mpr hmem
          have hm' := hcount m (List.mem_append_right _ hm)
          have hzero := List.count_eq_zero.mpr (hback m (List.mem_cons_of_mem _ hm))
          simp only [Listeners.invoke] at hpos
          omega }

/-- Steps that meet the condition keep the invariant. -/
theorem Inv.step {s' : State} {c : Call} {r : ℤ} (h : Inv s)
    (hstep : Listeners.step s c = some (s', r)) (hown : OwnFirst s c) : Inv s' := by
  cases c with
  | addListener client notify owner =>
      simp only [Listeners.step] at hstep
      split_ifs at hstep
      cases hstep
      exact h.addListener client notify owner
  | removeListener client notify owner =>
      simp only [Listeners.step] at hstep
      split_ifs at hstep
      cases hstep
      exact h.removeListener client notify owner hown
  | notify buffer =>
      simp only [Listeners.step] at hstep
      cases hloop : s.loop with
      | some p => simp only [hloop] at hstep; cases hstep
      | none =>
          simp only [hloop] at hstep
          have hlist := notifyData_notifyList s.element buffer
          generalize s.element.notifyData buffer = p at hstep hlist
          obtain ⟨element, data⟩ := p
          simp only at hstep hlist
          have hstart : ∀ n ∈ s.registered, n.address < s.nextAddress := h.own ▸ h.below
          cases hnodes : element.notifyList with
          | nil =>
              simp only [hnodes] at hstep
              cases hstep
              have hnil : s.registered = [] := by rw [← h.own, ← hlist, hnodes]
              exact
                { own := hlist.trans h.own
                  notLate := h.notLate
                  within := h.within
                  once := by simp [hnil]
                  nodup := by simp [hnodes]
                  below := by simp [hnodes]
                  atStartBelow := hstart
                  invokedBelow := by simp
                  currentBelow := by simp
                  walking := by simp }
          | cons l nodes =>
              simp only [hnodes] at hstep
              cases hstep
              refine Inv.invoke
                (s := { s with element := element, atStart := s.registered, invoked := [] })
                (hlist.trans h.own) h.notLate h.within ?_ ?_ hstart (by simp)
                (show element.notifyList = [] ++ l :: nodes from hnodes) (by simp) (by simp) data
              · simpa only [hlist] using h.nodup
              · simpa only [hlist] using h.below
  | returned =>
      simp only [Listeners.step, h.within] at hstep
      cases hloop : s.loop with
      | none => simp [hloop] at hstep
      | some p =>
          obtain ⟨l, buffer⟩ := p
          have hl := hown l buffer hloop
          obtain ⟨front, back, hsplit, hcount, hback⟩ := h.walking l buffer hloop hl
          have hnotmem : l ∉ front := by
            have hnodup := hsplit ▸ h.nodup.of_map
            exact fun hmem => (List.nodup_append.mp hnodup).2.2 l hmem l List.mem_cons_self rfl
          have hafter : after l s.element.notifyList = back := by rw [hsplit, after_append hnotmem]
          simp only [hloop, if_pos hl, hafter, Bool.false_eq_true, if_false] at hstep
          cases back with
          | nil =>
              cases hstep
              exact
                { own := h.own
                  notLate := h.notLate
                  within := rfl
                  once := by
                    intro _ n _ hmem
                    rw [← h.own, hsplit] at hmem
                    exact hcount n hmem
                  nodup := h.nodup
                  below := h.below
                  atStartBelow := h.atStartBelow
                  invokedBelow := h.invokedBelow
                  currentBelow := fun _ _ hnone => nomatch hnone
                  walking := fun _ _ hnone => nomatch hnone }
          | cons n back =>
              cases hstep
              have hsplit' : s.element.notifyList = front ++ [l] ++ n :: back := by
                rw [hsplit, List.append_cons]
              exact Inv.invoke h.own h.notLate h.within h.nodup h.below h.atStartBelow
                h.invokedBelow hsplit' hcount hback buffer

/-- A step that does not meet the condition breaks what is promised. -/
theorem Inv.breaks {s' : State} {c : Call} {r : ℤ} (h : Inv s)
    (hstep : Listeners.step s c = some (s', r)) (hown : ¬ OwnFirst s c) : ¬ Notified s' := by
  intro hnotified
  cases c with
  | addListener client notify owner => exact hown trivial
  | removeListener client notify owner =>
      simp only [Listeners.step] at hstep
      split_ifs at hstep
      cases hstep
      have heq := hnotified.own
      simp only [removeListener_notifyList, ← h.own] at heq
      exact hown ((eraseP_eq_iff (fun l => own_matches l) h.nodup.of_map).mp heq)
  | notify buffer => exact hown trivial
  | returned =>
      simp only [OwnFirst, not_forall] at hown
      obtain ⟨l, buffer, hloop, hl⟩ := hown
      simp only [Listeners.step, h.within, hloop, if_neg hl, Bool.false_eq_true, if_false] at hstep
      cases hstep
      cases hnotified.within

/-- **When listeners may rely on their registrations**: in all states of a run exactly if each
removal finds the caller's own registration first and no listener is gone when it returns. -/
theorem notified_iff_own (e : PondElement) (calls : List Call) :
    (∀ pre, pre <+: calls → ∀ s rs, Machine.run step (new e) pre = some (s, rs) → Notified s) ↔
      Machine.Guarded step (fun s c => (step s c).isSome → OwnFirst s c) (new e) calls :=
  Machine.run_iff_guarded (I := Inv) (fun _ h => h.toNotified)
    (fun _ _ _ _ h hstep hown => h.step hstep hown)
    (fun _ _ _ _ h hstep hown => h.breaks hstep hown) (inv_new e)

/-- Two clients with the same function and owner: the second one removes, and the first one's
registration is gone. A listener that removes itself while it is called: the loop reads the
deleted node. -/
theorem not_notified_removed :
    (∃ s rs, Machine.run step (new (.new [97] false none)) [.addListener (some 1) 7 9,
        .addListener (some 2) 7 9, .removeListener (some 2) 7 9] = some (s, rs) ∧
      s.element.notifyList = [⟨1, 7, 9, some 2⟩] ∧ s.registered = [⟨0, 7, 9, some 1⟩]) ∧
    ∃ s rs, Machine.run step (new (.new [97] false none)) [.addListener none 7 9, .notify none,
        .removeListener none 7 9, .returned] = some (s, rs) ∧ s.faulted = true :=
  ⟨⟨_, _, rfl, rfl, rfl⟩, _, _, rfl, rfl⟩

end V2I.Utils.Datapool.Listeners
