import V2I.Utils.Datapool.Store

/-!
# V2I.Utils.Datapool.Shared

A datapool as one shared store, however it is reached: at each place a name has an element or not,
with its creator and its data, and an operation succeeds or fails the same for every process.

The ponds agree with the store (`Agrees`) as long as the operations meet a condition: what a client
sends and gets fits in the 16 bits of a package, it gets data only of an element that there is,
and a global element is not removed by another process of its creator's name.
-/

namespace V2I.Utils.Datapool

open List Option Machine

/-! ## The shared store -/

/-- An element as its users see it. -/
structure Element where
  creator : Process
  data : Bytes

/-- The elements by their places and names. -/
abbrev Store := Place → Bytes → Option Element

def Store.put (q : Store) (place : Place) (name : Bytes) (e : Option Element) : Store :=
  Function.update q place (Function.update (q place) name e)

/-- Data are kept of an element that there is. -/
def Store.setdata (q : Store) (name : Bytes) (buffer : Option Bytes) (place : Place) :
    Option Element → Store × Bool × Bytes
  | none => (q, false, [])
  | some e =>
      match buffer with
      | some (b :: bs) => (q.put place name (some { e with data := b :: bs }), true, [])
      | _ => (q, false, [])

def Store.getdata (q : Store) (_ : Place) : Option Element → Store × Bool × Bytes
  | none => (q, false, [])
  | some e => (q, true, e.data)

/-- The data of a notify are kept, and there may be none. -/
def Store.notify (q : Store) (name : Bytes) (buffer : Option Bytes) (place : Place) :
    Option Element → Store × Bool × Bytes
  | none => (q, false, [])
  | some e =>
      match buffer with
      | some (b :: bs) => (q.put place name (some { e with data := b :: bs }), true, [])
      | _ => (q, true, [])

variable (names : Names)

/-- Where the element of the name is looked for: a process has its own and those of its client
name. -/
def holder (q : Store) (p : Process) (name : Bytes) (isGlobal : Bool) : Place :=
  if isGlobal then .global
  else if (q (.ofProcess p) name).isSome then .ofProcess p
  else .manager (names p).1

/-- Where a new element is put. -/
def home (p : Process) (isGlobal needPersistent : Bool) : Place :=
  if isGlobal then .global
  else if needPersistent then .manager (names p).1
  else .ofProcess p

/-- An operation on the shared store: whether it succeeds, and the data. -/
def share (q : Store) : Call → Store × Bool × Bytes
  | .createElement p name isGlobal needPersistent =>
      if name.1 = [] ∨ (q (holder names q p name.1 isGlobal) name.1).isSome then (q, false, [])
      else (q.put (home names p isGlobal needPersistent) name.1 (some ⟨p, []⟩), true, [])
  | .getElement p name isGlobal => (q, (q (holder names q p name.1 isGlobal) name.1).isSome, [])
  | .removeElement p name isGlobal =>
      let place := holder names q p name.1 isGlobal
      match q place name.1 with
      | none => (q, false, [])
      | some e =>
          if isGlobal ∧ e.creator ≠ p then (q, false, [])
          else (q.put place name.1 none, true, [])
  | .setdata p name isGlobal buffer =>
      let place := holder names q p name.1 isGlobal
      q.setdata name.1 buffer place (q place name.1)
  | .getdata p name isGlobal =>
      let place := holder names q p name.1 isGlobal
      q.getdata place (q place name.1)
  | .notify p name isGlobal buffer =>
      let place := holder names q p name.1 isGlobal
      q.notify name.1 buffer place (q place name.1)

/-- A step of the shared store with the result and the data of the program: a failure is a negative
result, and a success has the data. -/
def ShareStep (q : Store) (c : Call) (r : ℤ × Bytes) (q' : Store) : Prop :=
  ∃ ok out, share names q c = (q', ok, out) ∧ (0 ≤ r.1 ↔ ok = true) ∧ (ok = true → r.2 = out)

/-! ## The condition -/

/-- The offset of the data and their size have 16 bits. -/
def FitsPackage (name : CString) (data : Bytes) : Prop :=
  data = [] ∨ (name.1.length + 1 < 2 ^ 16 ∧ data.length < 2 ^ 16)

/-- The client's request goes to the server. -/
def GoesRemote (s : State) (c : Client) (name : CString) (isGlobal : Bool) : Prop :=
  isGlobal = true ∨ (s.elements (.ofProcess (.client c))).findElementNode name.1 = none

/-- Where the server looks for the element of a request. -/
def asked (c : Client) (isGlobal : Bool) : Place :=
  if isGlobal then .global else .manager (names (.client c)).1

/-- The condition on an operation and the state before it. -/
def Meets (s : State) : Call → Prop
  | .createElement p _ isGlobal needPersistent =>
      isGlobal = false → needPersistent = true → (names p).1 ≠ []
  | .getElement _ _ _ => True
  | .removeElement p name isGlobal =>
      isGlobal = true → ∀ e, (s.elements .global).findElementNode name.1 = some e →
        e.creatorName = [] ∨ e.creatorName = (names p).1 →
        ∀ p', (names p').1 = e.creatorName → p' = p
  | .setdata (.client c) name isGlobal (some buffer) =>
      GoesRemote s c name isGlobal → FitsPackage name buffer
  | .notify (.client c) name isGlobal (some buffer) =>
      GoesRemote s c name isGlobal → FitsPackage name buffer
  | .getdata (.client c) name isGlobal =>
      name.1 ≠ [] → GoesRemote s c name isGlobal →
        ∃ e, (s.elements (asked names c isGlobal)).findElementNode name.1 = some e ∧
          FitsPackage name (e.elementData.getD [])
  | _ => True

/-! ## Ponds -/

namespace Pond

variable {p : Pond} {name m : Bytes}

theorem find_cons (e : PondElement) :
    Pond.findElementNode (e :: p) m =
      if e.elementName = m then some e else p.findElementNode m := by
  rw [findElementNode, find?_cons]
  by_cases he : e.elementName = m
  · rw [if_pos he, he, beq_self_eq_true]
  · rw [if_neg he, beq_eq_false_iff_ne.mpr he]
    rfl

variable {f : PondElement → PondElement}

theorem find_modify (hf : ∀ e, (f e).elementName = e.elementName) :
    (p.modify name f).findElementNode m =
      if m = name then (p.findElementNode m).map f else p.findElementNode m := by
  induction p with
  | nil => simp [modify, findElementNode]
  | cons e p ih =>
      have hcons : Pond.modify (e :: p) name f =
          (if e.elementName = name then f e else e) :: Pond.modify p name f := rfl
      rw [hcons, find_cons, find_cons, ih]
      by_cases he : e.elementName = name
      · rw [if_pos he, hf, he]
        by_cases hm : name = m
        · simp [hm]
        · have hm' : ¬ m = name := fun h => hm h.symm
          simp [hm, hm']
      · rw [if_neg he]
        by_cases hm : e.elementName = m
        · have hm' : ¬ m = name := fun h => he (hm.trans h)
          simp [hm, hm']
        · simp [hm]

theorem names_modify (hf : ∀ e, (f e).elementName = e.elementName) :
    (p.modify name f).map PondElement.elementName = p.map PondElement.elementName := by
  rw [modify, List.map_map]
  refine List.map_congr_left fun e _ => ?_
  simp only [Function.comp_apply]
  split_ifs
  · exact hf e
  · rfl

theorem find_append (e : PondElement) :
    Pond.findElementNode (p ++ [e]) m =
      (p.findElementNode m).or (if e.elementName = m then some e else none) := by
  have hsingle : Pond.findElementNode [e] m = if e.elementName = m then some e else none :=
    find_cons e
  rw [← hsingle]
  exact find?_append

theorem find_erase (hp : (p.map PondElement.elementName).Nodup) :
    Pond.findElementNode (p.eraseP fun e => e.elementName == name) m =
      if m = name then none else p.findElementNode m := by
  induction p with
  | nil => simp [findElementNode]
  | cons e p ih =>
      obtain ⟨hnot, hp⟩ := nodup_cons.mp hp
      rw [find_cons]
      by_cases he : e.elementName = name
      · rw [eraseP_cons_of_pos (by simpa using he)]
        by_cases hm : m = name
        · rw [if_pos hm, findElementNode, find?_eq_none]
          intro n hn heq
          refine hnot ?_
          rw [he, ← hm, ← show n.elementName = m by simpa using heq]
          exact mem_map_of_mem hn
        · rw [if_neg hm, if_neg fun h => hm (h.symm.trans he)]
      · rw [eraseP_cons_of_neg (by simpa using he), find_cons, ih hp]
        by_cases hm : e.elementName = m
        · rw [if_pos hm, if_pos hm, if_neg fun h => he (hm.trans h)]
        · rw [if_neg hm, if_neg hm]

end Pond

/-! ## Agreement -/

/-- The element of a pond and that of the store: a global one has its creator's name. -/
inductive Corresponds (place : Place) : Option PondElement → Option Element → Prop
  | none : Corresponds place none none
  | some {e a} : e.elementData.getD [] = a.data →
      e.creatorName = (if place = .global then (names a.creator).1 else []) →
      Corresponds place (some e) (some a)

/-- Each pond has each name once, and the elements that the store has at its place. -/
structure Agrees (s : State) (q : Store) : Prop where
  unique : ∀ place, ((s.elements place).map PondElement.elementName).Nodup
  named : ∀ place, q place [] = none
  element : ∀ place name,
    Corresponds names place ((s.elements place).findElementNode name) (q place name)

theorem agrees_init : Agrees names State.init fun _ _ => none where
  unique := by
    intro place
    cases place <;> exact nodup_nil
  named := fun _ => rfl
  element := by
    intro place name
    cases place <;> exact .none

theorem elements_set (s : State) (place place' : Place) (pond : Pond) :
    (s.set place pond).elements place' = if place' = place then pond else s.elements place' := by
  simp only [State.elements, State.set, Function.update_apply]
  split_ifs <;> rfl

theorem put_apply (q : Store) (place place' : Place) (name name' : Bytes) (e : Option Element) :
    q.put place name e place' name' =
      if place' = place ∧ name' = name then e else q place' name' := by
  rw [Store.put, Function.update_apply]
  by_cases hp : place' = place
  · subst hp
    simp [Function.update_apply]
  · simp [hp]

namespace Agrees

variable {names} {s : State} {q : Store}

theorem isSome (h : Agrees names s q) (place : Place) (name : Bytes) :
    ((s.elements place).findElementNode name).isSome = (q place name).isSome := by
  have helement := h.element place name
  generalize (s.elements place).findElementNode name = o at helement ⊢
  generalize q place name = a at helement ⊢
  cases helement <;> rfl

theorem congr (h : Agrees names s q) {s' : State}
    (hs : ∀ place, s'.elements place = s.elements place) : Agrees names s' q where
  unique := fun place => by rw [hs]; exact h.unique place
  named := h.named
  element := fun place name => by rw [hs]; exact h.element place name

variable {place : Place} {name : Bytes}

/-- A pond changed at one name. -/
theorem set {pond : Pond} {a : Option Element} (h : Agrees names s q)
    (hunique : (pond.map PondElement.elementName).Nodup) (hname : a ≠ none → name ≠ [])
    (hfind : Corresponds names place (pond.findElementNode name) a)
    (hothers : ∀ m, m ≠ name → pond.findElementNode m = (s.elements place).findElementNode m) :
    Agrees names (s.set place pond) (q.put place name a) where
  unique := by
    intro place'
    rw [elements_set]
    split_ifs
    · exact hunique
    · exact h.unique place'
  named := by
    intro place'
    rw [put_apply]
    split_ifs with heq
    · by_contra hne
      exact hname hne heq.2.symm
    · exact h.named place'
  element := by
    intro place' m
    rw [elements_set, put_apply]
    by_cases hp : place' = place
    · subst hp
      rw [if_pos rfl]
      by_cases hm : m = name
      · subst hm
        rw [if_pos ⟨rfl, rfl⟩]
        exact hfind
      · rw [if_neg fun hand => hm hand.2, hothers m hm]
        exact h.element place' m
    · rw [if_neg hp, if_neg fun hand => hp hand.1]
      exact h.element place' m

variable {f : PondElement → PondElement}

/-- The data of an element are changed in place. -/
theorem modify {a : Element} {data : Bytes} (h : Agrees names s q) (ha : q place name = some a)
    (hf : ∀ e, (f e).elementName = e.elementName ∧ (f e).creatorName = e.creatorName)
    (hdata : ∀ e, (f e).elementData.getD [] = data ∨
      data = a.data ∧ (f e).elementData.getD [] = e.elementData.getD []) :
    Agrees names (s.set place ((s.elements place).modify name f))
      (q.put place name (some { a with data := data })) := by
  have hname : name ≠ [] := by
    rintro rfl
    rw [h.named] at ha
    cases ha
  have helement := h.element place name
  refine h.set ?_ (fun _ => hname) ?_ fun m hm => ?_
  · rw [Pond.names_modify fun e => (hf e).1]
    exact h.unique place
  · rw [Pond.find_modify fun e => (hf e).1, if_pos rfl]
    rw [ha] at helement
    generalize (s.elements place).findElementNode name = o at helement
    cases helement with
    | some hd hc =>
        refine .some ?_ ((hf _).2.trans hc)
        rcases hdata _ with hnew | ⟨heq, hsame⟩
        · exact hnew
        · exact hsame.trans (hd.trans heq.symm)
  · rw [Pond.find_modify fun e => (hf e).1, if_neg hm]

/-- An element gets the data that it has. -/
theorem unchanged {a : Element} (h : Agrees names s q) (ha : q place name = some a)
    (hf : ∀ e, f e = e) : Agrees names (s.set place ((s.elements place).modify name f)) q := by
  have hput : q.put place name (some { a with data := a.data }) = q := by
    funext place' name'
    rw [put_apply]
    split_ifs with heq
    · rw [heq.1, heq.2, ha]
    · rfl
  rw [← hput]
  exact h.modify ha (fun e => by rw [hf]; exact ⟨rfl, rfl⟩) fun e => .inr ⟨rfl, by rw [hf]⟩

/-- A new element at the end of a pond. -/
theorem create {p : Process} (h : Agrees names s q) (np : Bool) (creator : Option Bytes)
    (hname : name ≠ []) (hnone : q place name = none)
    (hcreator : creator.getD [] = if place = .global then (names p).1 else []) :
    Agrees names (s.set place (s.elements place ++ [.new name np creator]))
      (q.put place name (some ⟨p, []⟩)) := by
  have hfind : (s.elements place).findElementNode name = none := by
    have hiff := h.isSome place name
    rw [hnone] at hiff
    simpa using hiff
  refine h.set ?_ (fun _ => hname) ?_ fun m hm => ?_
  · rw [map_append, map_cons, map_nil]
    refine nodup_append.mpr ⟨h.unique place, nodup_singleton _, ?_⟩
    intro a ha b hb
    cases mem_singleton.mp hb
    obtain ⟨e, he, rfl⟩ := mem_map.mp ha
    intro heq
    exact find?_eq_none.mp hfind e he (by simpa [PondElement.new] using heq)
  · rw [Pond.find_append, hfind]
    have hsome : Corresponds names place (some (.new name np creator)) (some ⟨p, []⟩) :=
      .some rfl hcreator
    simpa [PondElement.new] using hsome
  · rw [Pond.find_append, if_neg (fun heq => hm heq.symm), or_none]

/-- An element is taken out of a pond. -/
theorem erase (h : Agrees names s q) :
    Agrees names (s.set place ((s.elements place).eraseP fun e => e.elementName == name))
      (q.put place name none) := by
  refine h.set ?_ (fun hne => absurd rfl hne) ?_ fun m hm => ?_
  · exact (eraseP_sublist.map _).nodup (h.unique place)
  · rw [Pond.find_erase (h.unique place), if_pos rfl]
    exact .none
  · rw [Pond.find_erase (h.unique place), if_neg hm]

end Agrees

/-! ## Packages -/

theorem buf_ofName (name : CString) (isGlobal needPersistent : Bool) (extra : ℕ) :
    (ElementInfo.ofName name isGlobal needPersistent extra).buf =
      name.1 ++ 0 :: List.replicate extra 0 := by
  simp only [ElementInfo.ofName, memcpy, take_zero, nil_append, Nat.zero_add,
    length_append, length_cons, length_nil, drop_replicate]
  rw [Nat.add_sub_cancel_left, append_assoc]
  rfl

variable {name : CString} {data : Bytes}

theorem buf_withData (h : FitsPackage name data) (isGlobal needPersistent : Bool) :
    ((ElementInfo.ofName name isGlobal needPersistent data.length).withData data).buf =
      name.1 ++ 0 :: data := by
  simp only [ElementInfo.withData, buf_ofName]
  rcases h with rfl | ⟨hname, -⟩
  · simp [memcpy]
  · have hsize : toUint16 (name.1.length + 1) = (name.1 ++ [0]).length := by
      simpa [toUint16] using Nat.mod_eq_of_lt hname
    have hsplit : name.1 ++ 0 :: List.replicate data.length 0 =
        name.1 ++ [0] ++ List.replicate data.length 0 := by simp
    simp only [ElementInfo.ofName]
    rw [hsize, hsplit, memcpy, take_left, drop_append, drop_of_length_le (by simp),
      drop_of_length_le (by simp)]
    simp

/-- A name comes through in a package, with data that fit or without. -/
theorem fetchName_of_buf {info : ElementInfo} {rest : Bytes} (hoffset : info.name = 0)
    (hbuf : info.buf = name.1 ++ 0 :: rest) : info.fetchName = name := by
  refine Subtype.ext ?_
  simp only [ElementInfo.fetchName, hoffset, hbuf, drop_zero]
  rw [takeWhile_append_of_pos]
  · simp
  · intro b hb
    refine decide_eq_true ?_
    rintro rfl
    exact name.2 hb

theorem fetchName_ofName (name : CString) (isGlobal needPersistent : Bool) (extra : ℕ) :
    (ElementInfo.ofName name isGlobal needPersistent extra).fetchName = name :=
  fetchName_of_buf rfl (buf_ofName name isGlobal needPersistent extra)

theorem fetchName_packRequest (name : CString) (buf : Option Bytes)
    (h : ∀ data, buf = some data → FitsPackage name data) (isGlobal needPersistent : Bool) :
    (packRequest name isGlobal needPersistent buf).fetchName = name := by
  cases buf with
  | none => exact fetchName_ofName name isGlobal needPersistent 0
  | some data => exact fetchName_of_buf rfl (buf_withData (h data rfl) isGlobal needPersistent)

/-- Data that fit come through. -/
theorem fetchData_withData (h : FitsPackage name data) (isGlobal needPersistent : Bool) :
    ((ElementInfo.ofName name isGlobal needPersistent data.length).withData data).fetchData =
      data := by
  rw [ElementInfo.fetchData, buf_withData h]
  rcases h with rfl | ⟨hname, hdata⟩
  · simp [ElementInfo.withData, toUint16]
  · have hoffset : toUint16 (name.1.length + 1) = (name.1 ++ [0]).length := by
      simpa [toUint16] using Nat.mod_eq_of_lt hname
    have hsize : toUint16 data.length = data.length := Nat.mod_eq_of_lt hdata
    have hsplit : name.1 ++ 0 :: data = name.1 ++ [0] ++ data := by simp
    simp only [ElementInfo.withData, ElementInfo.ofName]
    rw [hoffset, hsize, hsplit, drop_left, take_length]

theorem unpackReply_packReply (h : FitsPackage name data) (result : ℤ) :
    unpackReply name result (packReply name data) = (result, data) := by
  rw [packReply]
  split_ifs with hempty
  · rw [unpackReply, fetchName_ofName, length_eq_zero_iff.mp hempty]
    simp [ElementInfo.ofName]
  · rw [unpackReply, fetchName_of_buf rfl (buf_withData h false false), fetchData_withData h]
    simp [ElementInfo.withData]

/-! ## Operations -/

/-- What an operation comes to: the store that the state agrees with, success and the data. -/
def Does (r : State × ℤ × Bytes) (result : Store × Bool × Bytes) : Prop :=
  Agrees names r.1 result.1 ∧ (0 ≤ r.2.1 ↔ result.2.1 = true) ∧
    (result.2.1 = true → r.2.2 = result.2.2)

variable {names} {s : State} {q : Store}

theorem Does.failure {ret : ℤ} {out : Bytes} (h : Agrees names s q) (hret : ret < 0) :
    Does names (s, ret, data) (q, false, out) :=
  ⟨h, by simpa using hret, fun hok => nomatch hok⟩

theorem Does.success {ret : ℤ} {out : Bytes} (h : Agrees names s q) (hret : 0 ≤ ret) :
    Does names (s, ret, out) (q, true, out) := ⟨h, by simpa using hret, fun _ => rfl⟩

/-- A pond is found or made, or the client name is empty. -/
theorem findCreatePond_cases (s : State) (pondname : Bytes) :
    ∃ s' place, findCreatePond s pondname = (s', place) ∧
      (∀ place, s'.elements place = s.elements place) ∧
      (place = some (.manager pondname) ∨
        place = none ∧ pondname = [] ∧ s.elements (.manager pondname) = []) := by
  rw [findCreatePond]
  split_ifs with hsome hempty
  · exact ⟨_, _, rfl, fun _ => rfl, .inl rfl⟩
  · refine ⟨_, _, rfl, fun _ => rfl, .inr ⟨rfl, hempty, ?_⟩⟩
    rw [State.elements, not_isSome_iff_eq_none.mp hsome]
    rfl
  · refine ⟨_, _, rfl, fun place => ?_, .inl rfl⟩
    rw [elements_set]
    split_ifs with heq
    · rw [heq, State.elements, not_isSome_iff_eq_none.mp hsome]
      rfl
    · rfl

/-- The server finds an element where its holder is. -/
theorem findSrvElement_eq (h : Agrees names s q) (name : Bytes) (isGlobal : Bool) :
    ∃ s', findSrvElement s (names .server).1 name isGlobal =
        (s', if (q (holder names q .server name isGlobal) name).isSome then
          some (holder names q .server name isGlobal) else none) ∧
      ∀ place, s'.elements place = s.elements place := by
  rw [findSrvElement, holder]
  cases isGlobal with
  | true => exact ⟨s, by simp [h.isSome], fun _ => rfl⟩
  | false =>
      rw [if_neg Bool.false_ne_true, if_neg Bool.false_ne_true, h.isSome]
      by_cases hlocal : (q (.ofProcess .server) name).isSome = true
      · rw [if_pos hlocal, if_pos hlocal, if_pos hlocal]
        exact ⟨s, rfl, fun _ => rfl⟩
      · rw [if_neg hlocal, if_neg hlocal]
        have hiff := h.isSome (.manager (names .server).1) name
        obtain ⟨s', place, hr, hsame, rfl | ⟨rfl, -, hnil⟩⟩ :=
          findCreatePond_cases s (names .server).1
        · exact ⟨s', by rw [hr, ← hiff, ← hsame], hsame⟩
        · rw [hnil] at hiff
          refine ⟨s', ?_, hsame⟩
          rw [hr, ← hiff]
          rfl

variable {isGlobal : Bool} {c : Client}

theorem holder_remote (names : Names) (h : Agrees names s q)
    (hremote : GoesRemote s c name isGlobal) :
    holder names q (.client c) name.1 isGlobal = asked names c isGlobal := by
  rw [holder, asked]
  rcases hremote with rfl | hnone
  · rfl
  · have hiff := h.isSome (.ofProcess (.client c)) name.1
    rw [hnone] at hiff
    rw [← hiff]
    rfl

theorem holder_local (h : Agrees names s q) (hlocal : ¬ GoesRemote s c name isGlobal) :
    isGlobal = false ∧ holder names q (.client c) name.1 isGlobal = .ofProcess (.client c) ∧
      (q (.ofProcess (.client c)) name.1).isSome = true := by
  obtain ⟨hglobal, hfind⟩ := not_or.mp hlocal
  have hglobal' : isGlobal = false := by simpa using hglobal
  have hsome : (q (.ofProcess (.client c)) name.1).isSome = true := by
    rw [← h.isSome]
    exact isSome_iff_ne_none.mpr hfind
  refine ⟨hglobal', ?_, hsome⟩
  rw [holder, hglobal', if_neg Bool.false_ne_true, if_pos hsome]

theorem goesRemote_iff :
    (!isGlobal && ((s.elements (.ofProcess (.client c))).findElementNode name.1).isSome) = true ↔
      ¬ GoesRemote s c name isGlobal := by
  rw [GoesRemote, not_or, Bool.and_eq_true, isSome_iff_ne_none]
  simp

variable {p : Process}

/-- An operation on the data of an element does what it should if it does so at the place of the
element, and if the request of a client does where it asks. -/
theorem onElement_does {here : State → Place → State × ℤ × Bytes}
    {remote : State → Client → State × ℤ × Bytes}
    (result : Place → Option Element → Store × Bool × Bytes) (h : Agrees names s q)
    (hhere : ∀ {s place a}, Agrees names s q → q place name.1 = some a →
      Does names (here s place) (result place (some a)))
    (hmissing : ∀ place, result place none = (q, false, []))
    (hremote : ∀ c, p = .client c → GoesRemote s c name isGlobal →
      Does names (remote s c)
        (result (asked names c isGlobal) (q (asked names c isGlobal) name.1))) :
    Does names (onElement names s p name isGlobal here remote)
      (result (holder names q p name.1 isGlobal)
        (q (holder names q p name.1 isGlobal) name.1)) := by
  cases p with
  | server =>
      obtain ⟨s', hr, hsame⟩ := findSrvElement_eq h name.1 isGlobal
      simp only [onElement, hr]
      cases ha : q (holder names q .server name.1 isGlobal) name.1 with
      | none =>
          rw [hmissing]
          exact .failure (h.congr hsame) (by decide)
      | some a => exact hhere (h.congr hsame) ha
  | client c =>
      simp only [onElement]
      by_cases hgoes : GoesRemote s c name isGlobal
      · rw [if_neg (fun hand => goesRemote_iff.mp hand hgoes), holder_remote names h hgoes]
        exact hremote c rfl hgoes
      · rw [if_pos (goesRemote_iff.mpr hgoes)]
        obtain ⟨-, hholder, hsome⟩ := holder_local h hgoes
        obtain ⟨a, ha⟩ := isSome_iff_exists.mp hsome
        rw [hholder, ha]
        exact hhere h ha

/-- Where the server handles a request: a pond for the client name is made at need, or it is
empty and there are no elements. -/
theorem requestPlace_cases (names : Names) (s : State) (c : Client) (isGlobal : Bool) :
    ∃ s' place, (if isGlobal then (s, some Place.global)
        else findCreatePond s (names (.client c)).1) = (s', place) ∧
      (∀ place, s'.elements place = s.elements place) ∧
      (place = some (asked names c isGlobal) ∨
        place = none ∧ s.elements (asked names c isGlobal) = []) := by
  rw [asked]
  cases isGlobal with
  | true => exact ⟨s, _, rfl, fun _ => rfl, .inl rfl⟩
  | false =>
      obtain ⟨s', place, hr, hsame, hplace⟩ := findCreatePond_cases s (names (.client c)).1
      exact ⟨s', place, hr, hsame, hplace.imp id fun hnone => ⟨hnone.1, hnone.2.2⟩⟩

/-- A request about an element that there is not. -/
theorem handleElement_missing (names : Names) (c : Client) (info : ElementInfo)
    (action : EleownerAction)
    (h : (s.elements (asked names c info.isGlobal)).findElementNode info.fetchName.1 = none) :
    ∃ s', (∀ place, s'.elements place = s.elements place) ∧
      handleEvlClientElementRequest s (names (.client c)).1 action info =
        (s', -1, packReply info.fetchName []) := by
  obtain ⟨s', place, hr, hsame, hplace⟩ := requestPlace_cases names s c info.isGlobal
  refine ⟨s', hsame, ?_⟩
  simp only [handleEvlClientElementRequest, hr]
  rcases hplace with rfl | ⟨rfl, -⟩
  · simp only [hsame, h]
  · rfl

/-- A request about an element that there is. -/
theorem handleElement_found (names : Names) (c : Client) (info : ElementInfo)
    (action : EleownerAction) {e : PondElement}
    (h : (s.elements (asked names c info.isGlobal)).findElementNode info.fetchName.1 = some e) :
    ∃ s', (∀ place, s'.elements place = s.elements place) ∧
      handleEvlClientElementRequest s (names (.client c)).1 action info =
        let place := asked names c info.isGlobal
        let name := info.fetchName
        match action with
        | .getdata => (s', 0, packReply name (e.elementData.getD []))
        | .setdata =>
            if info.databufValid then
              (s'.set place ((s'.elements place).modify name.1
                fun e => (e.setdata info.fetchData).1), 0, packReply name [])
            else (s', -1, packReply name [])
        | .notify =>
            (s'.set place ((s'.elements place).modify name.1 fun e =>
              (e.notifyData (if info.databufValid then some info.fetchData else none)).1), 0,
              packReply name []) := by
  obtain ⟨s', place, hr, hsame, hplace⟩ := requestPlace_cases names s c info.isGlobal
  refine ⟨s', hsame, ?_⟩
  simp only [handleEvlClientElementRequest, hr]
  rcases hplace with rfl | ⟨rfl, hnil⟩
  · cases action <;> simp only [hsame, h]
  · rw [hnil] at h
    cases h

variable {buf : Option Bytes}

/-- What a request gives: the server's result, and the data of a package that fits. -/
theorem remoteElement_eq {action : EleownerAction} {s' : State} {result : ℤ}
    (hdata : FitsPackage name data)
    (h : handleEvlClientElementRequest s (names (.client c)).1 action
      (packRequest name isGlobal false buf) = (s', result, packReply name data)) :
    remoteElementRequest names s c action name isGlobal buf = (s', result, data) := by
  simp only [remoteElementRequest, h, unpackReply_packReply hdata]

theorem fits_nil (name : CString) : FitsPackage name [] := .inl rfl

theorem isGlobal_packRequest (name : CString) (isGlobal needPersistent : Bool)
    (buf : Option Bytes) : (packRequest name isGlobal needPersistent buf).isGlobal = isGlobal := by
  cases buf <;> rfl

theorem remoteElement_missing (c : Client) (action : EleownerAction) (h : Agrees names s q)
    (hbuf : ∀ data, buf = some data → FitsPackage name data)
    (hnone : q (asked names c isGlobal) name.1 = none) :
    ∃ s', Agrees names s' q ∧
      remoteElementRequest names s c action name isGlobal buf = (s', -1, []) := by
  have hname := fetchName_packRequest name buf hbuf isGlobal false
  have hfind : (s.elements (asked names c isGlobal)).findElementNode name.1 = none := by
    have hiff := h.isSome (asked names c isGlobal) name.1
    rw [hnone] at hiff
    simpa using hiff
  obtain ⟨s', hsame, heq⟩ := handleElement_missing names c
    (packRequest name isGlobal false buf) action (by rwa [hname, isGlobal_packRequest])
  rw [hname] at heq
  exact ⟨s', h.congr hsame, remoteElement_eq (fits_nil name) heq⟩

variable {place : Place} {a : Element}

/-- The element that the pond has where the store has one. -/
theorem Agrees.find_some {name : Bytes} (h : Agrees names s q) (ha : q place name = some a) :
    ∃ e, (s.elements place).findElementNode name = some e ∧ e.elementData.getD [] = a.data ∧
      e.creatorName = if place = .global then (names a.creator).1 else [] := by
  have helement := h.element place name
  rw [ha] at helement
  generalize (s.elements place).findElementNode name = o at helement ⊢
  cases helement with
  | some hdata hcreator => exact ⟨_, rfl, hdata, hcreator⟩

theorem Agrees.find_none {name : Bytes} (h : Agrees names s q) (ha : q place name = none) :
    (s.elements place).findElementNode name = none := by
  have hiff := h.isSome place name
  rw [ha] at hiff
  simpa using hiff

theorem Agrees.ne_nil {name : Bytes} (h : Agrees names s q) (ha : q place name = some a) :
    name ≠ [] := by
  rintro rfl
  rw [h.named] at ha
  cases ha

/-- The data in a request, where there are any. -/
theorem fetchData_packRequest (h : ∀ data, buf = some data → FitsPackage name data)
    (isGlobal needPersistent : Bool) :
    (if (packRequest name isGlobal needPersistent buf).databufValid then
      some (packRequest name isGlobal needPersistent buf).fetchData else none) = buf := by
  cases buf with
  | none => rfl
  | some data => exact congrArg some (fetchData_withData (h data rfl) isGlobal needPersistent)

/-- The change that a request makes to an element. -/
def PondElement.change (action : EleownerAction) (buf : Option Bytes) (e : PondElement) :
    PondElement :=
  match action with
  | .getdata => e
  | .setdata => (e.setdata (buf.getD [])).1
  | .notify => (e.notifyData buf).1

theorem remoteElement_modify (c : Client) (action : EleownerAction) (h : Agrees names s q)
    (hbuf : ∀ data, buf = some data → FitsPackage name data)
    (haction : action = .notify ∨ action = .setdata ∧ buf ≠ none)
    (ha : q (asked names c isGlobal) name.1 = some a) :
    ∃ s', Agrees names s' q ∧ remoteElementRequest names s c action name isGlobal buf =
      (s'.set (asked names c isGlobal)
        ((s'.elements (asked names c isGlobal)).modify name.1 (PondElement.change action buf)),
        0, []) := by
  obtain ⟨e, hfind, -⟩ := h.find_some ha
  have hname := fetchName_packRequest name buf hbuf isGlobal false
  have hdata := fetchData_packRequest hbuf isGlobal false
  obtain ⟨s', hsame, heq⟩ := handleElement_found names c
    (packRequest name isGlobal false buf) action (by rwa [hname, isGlobal_packRequest])
  refine ⟨s', h.congr hsame, remoteElement_eq (fits_nil name) (heq.trans ?_)⟩
  simp only [hname, isGlobal_packRequest]
  rcases haction with rfl | ⟨rfl, hbuf⟩
  · simp only [hdata]
    rfl
  · obtain ⟨data, rfl⟩ := ne_none_iff_exists'.mp hbuf
    have hvalid : (packRequest name isGlobal false (some data)).databufValid = true := rfl
    rw [if_pos hvalid, some_inj] at hdata
    simp only [hvalid, hdata, if_true]
    rfl

theorem setdata_does (h : Agrees names s q) {buffer : Option Bytes}
    (hm : Meets names s (.setdata p name isGlobal buffer)) :
    Does names (setdata names s p name isGlobal buffer)
      (share names q (.setdata p name isGlobal buffer)) := by
  simp only [share]
  rcases buffer with _ | (_ | ⟨b, bs⟩)
  · cases q (holder names q p name.1 isGlobal) name.1 <;> exact .failure h (by decide)
  · cases q (holder names q p name.1 isGlobal) name.1 <;> exact .failure h (by decide)
  · simp only [Datapool.setdata]
    split_ifs with hempty
    · rw [hempty, h.named]
      exact .failure h (by decide)
    · refine onElement_does (q.setdata name.1 (some (b :: bs))) h ?_ (fun _ => rfl) ?_
      · intro s place a h ha
        exact .success (h.modify ha (fun _ => ⟨rfl, rfl⟩) fun _ => .inl rfl) (Int.le_refl 0)
      · rintro c rfl hgoes
        have hfits : ∀ data, some (b :: bs) = some data → FitsPackage name data := by
          rintro data ⟨⟩
          exact hm hgoes
        cases ha : q (asked names c isGlobal) name.1 with
        | none =>
            obtain ⟨s', hagrees, heq⟩ :=
              remoteElement_missing c .setdata h hfits ha
            rw [heq]
            exact .failure hagrees (by decide : (-1 : ℤ) < 0)
        | some a =>
            obtain ⟨s', hagrees, heq⟩ :=
              remoteElement_modify c .setdata h hfits (.inr ⟨rfl, nofun⟩) ha
            rw [heq]
            exact .success (hagrees.modify ha (fun _ => ⟨rfl, rfl⟩) fun _ => .inl rfl)
              (Int.le_refl 0)

theorem notify_does (h : Agrees names s q) {buffer : Option Bytes}
    (hm : Meets names s (.notify p name isGlobal buffer)) :
    Does names (notify names s p name isGlobal buffer)
      (share names q (.notify p name isGlobal buffer)) := by
  have hhere : ∀ {s : State} {place : Place} {a : Element}, Agrees names s q →
      q place name.1 = some a →
      Does names (s.set place ((s.elements place).modify name.1 fun e => (e.notifyData buffer).1),
        0, []) (q.notify name.1 buffer place (some a)) := by
    intro s place a h ha
    rcases buffer with _ | (_ | ⟨b, bs⟩)
    · exact .success (h.unchanged ha (fun _ => rfl)) (Int.le_refl 0)
    · exact .success (h.unchanged ha (fun _ => rfl)) (Int.le_refl 0)
    · exact .success (h.modify ha (fun _ => ⟨rfl, rfl⟩) fun _ => .inl rfl) (Int.le_refl 0)
  simp only [share, notify]
  split_ifs with hempty
  · rw [hempty, h.named]
    exact .failure h (by decide)
  · refine onElement_does (q.notify name.1 buffer) h hhere (fun _ => rfl) ?_
    rintro c rfl hgoes
    have hfits : ∀ data, buffer = some data → FitsPackage name data := by
      rintro data rfl
      exact hm hgoes
    cases ha : q (asked names c isGlobal) name.1 with
    | none =>
        obtain ⟨s', hagrees, heq⟩ := remoteElement_missing c .notify h hfits ha
        rw [heq]
        exact .failure hagrees (by decide : (-1 : ℤ) < 0)
    | some a =>
        obtain ⟨s', hagrees, heq⟩ :=
          remoteElement_modify c .notify h hfits (.inl rfl) ha
        rw [heq]
        exact hhere hagrees ha

theorem getdata_does (h : Agrees names s q) (hm : Meets names s (.getdata p name isGlobal)) :
    Does names (getdata names s p name isGlobal) (share names q (.getdata p name isGlobal)) := by
  simp only [share, getdata]
  split_ifs with hempty
  · rw [hempty, h.named]
    exact .failure h (by decide)
  · refine onElement_does q.getdata h ?_ (fun _ => rfl) ?_
    · intro s place a h ha
      obtain ⟨e, hfind, hdata, -⟩ := h.find_some ha
      rw [hfind]
      simp only [Store.getdata]
      rw [← hdata]
      cases hd : e.elementData with
      | none => simpa [PondElement.getdata, hd] using Does.success h (Int.le_refl 0)
      | some data =>
          simpa [PondElement.getdata, hd] using
            Does.success h (Int.natCast_nonneg data.length)
    · rintro c rfl hgoes
      obtain ⟨e, hfind, hfits⟩ := hm hempty hgoes
      have hname := fetchName_packRequest name none nofun isGlobal false
      obtain ⟨s', hsame, heq⟩ := handleElement_found names c (packRequest name isGlobal false none)
        .getdata (by rwa [hname, isGlobal_packRequest])
      rw [hname] at heq
      rw [remoteElement_eq hfits heq]
      cases ha : q (asked names c isGlobal) name.1 with
      | none => rw [h.find_none ha] at hfind; cases hfind
      | some a =>
          obtain ⟨e', hfind', hdata, -⟩ := h.find_some ha
          rw [hfind, some_inj] at hfind'
          subst hfind'
          simp only [Store.getdata]
          rw [← hdata]
          exact .success (h.congr hsame) (Int.natCast_nonneg _)

/-! ## Elements made, found and removed -/

theorem holder_cases (names : Names) (q : Store) (p : Process) (name : Bytes) (isGlobal : Bool) :
    holder names q p name isGlobal = .global ∧ isGlobal = true ∨
      isGlobal = false ∧ holder names q p name isGlobal = .ofProcess p ∧
        (q (.ofProcess p) name).isSome = true ∨
      isGlobal = false ∧ holder names q p name isGlobal = .manager (names p).1 ∧
        q (.ofProcess p) name = none := by
  rw [holder]
  cases isGlobal with
  | true => exact .inl ⟨rfl, rfl⟩
  | false =>
      by_cases hlocal : (q (.ofProcess p) name).isSome = true
      · exact .inr (.inl ⟨rfl, by rw [if_neg Bool.false_ne_true, if_pos hlocal], hlocal⟩)
      · refine .inr (.inr ⟨rfl, by rw [if_neg Bool.false_ne_true, if_neg hlocal], ?_⟩)
        exact not_isSome_iff_eq_none.mp hlocal

/-- A name that a process has not is free where it would put it. -/
theorem home_none {name : Bytes} (h : q (holder names q p name isGlobal) name = none)
    (needPersistent : Bool) : q (home names p isGlobal needPersistent) name = none := by
  rw [home]
  rcases holder_cases names q p name isGlobal with
    ⟨hholder, rfl⟩ | ⟨rfl, hholder, hsome⟩ | ⟨rfl, hholder, hnone⟩
  · rwa [hholder] at h
  · rw [hholder] at h
    rw [h] at hsome
    cases hsome
  · rw [hholder] at h
    cases needPersistent with
    | true => exact h
    | false => exact hnone

variable {needPersistent : Bool}

theorem home_eq_global : home names p isGlobal needPersistent = .global ↔ isGlobal = true := by
  rw [home]
  cases isGlobal <;> cases needPersistent <;> simp

/-- A client asks where it would put a new element that the server keeps. -/
theorem home_eq_asked (names : Names) (hkind : isGlobal = true ∨ needPersistent = true) :
    home names (.client c) isGlobal needPersistent = asked names c isGlobal := by
  rw [home, asked]
  rcases hkind with rfl | rfl <;> simp

/-- A new element in its pond. -/
theorem createPondElement_does (h : Agrees names s q) {name : Bytes} (creator : Option Bytes)
    (hname : name ≠ []) (hnone : q (home names p isGlobal needPersistent) name = none)
    (hcreator : isGlobal = true → creator = some (names p).1) :
    ∃ s', createPondElement s (home names p isGlobal needPersistent) name isGlobal needPersistent
        creator = some s' ∧
      Agrees names s' (q.put (home names p isGlobal needPersistent) name (some ⟨p, []⟩)) := by
  have hfind := h.find_none hnone
  have hcreate : (s.elements (home names p isGlobal needPersistent)).createElementNode name
      needPersistent (if isGlobal then creator else none) =
      some (s.elements (home names p isGlobal needPersistent) ++
        [.new name needPersistent (if isGlobal then creator else none)]) := by
    rw [Pond.createElementNode, hfind, if_neg (by simpa using hname)]
  refine ⟨_, ?_, h.create needPersistent (if isGlobal then creator else none) hname hnone ?_⟩
  · rw [createPondElement, if_neg, hcreate]
    · rfl
    · rintro ⟨hglobal, hnil⟩
      rw [hcreator hglobal] at hnil
      cases hnil
  · cases isGlobal with
    | true =>
        rw [hcreator rfl, if_pos (home_eq_global.mpr rfl)]
        rfl
    | false =>
        rw [if_neg (fun heq => Bool.false_ne_true (home_eq_global.mp heq))]
        rfl

/-- What a request about the datapool gives: the server's result. -/
theorem remoteDp_eq {action : DpownerAction} {s' : State} {result : ℤ}
    (h : handleEvlClientDpRequest s (names (.client c)).1 action
      (packRequest name isGlobal needPersistent none) = some (s', result, packReply name [])) :
    remoteDpRequest names s c action name isGlobal needPersistent = some (s', result) := by
  simp only [remoteDpRequest, h, map_some, unpackReply_packReply (fits_nil name)]

theorem remoteCheck (h : Agrees names s q) (c : Client) (name : CString) (needPersistent : Bool) :
    ∃ s' ret, Agrees names s' q ∧
      remoteDpRequest names s c .checkElement name false needPersistent = some (s', ret) ∧
      (ret ≤ 0 ↔ (q (.manager (names (.client c)).1) name.1).isSome = true) := by
  have hname := fetchName_ofName name false needPersistent 0
  have hiff := h.isSome (.manager (names (.client c)).1) name.1
  obtain ⟨s', place, hr, hsame, rfl | ⟨rfl, -, hnil⟩⟩ :=
    findCreatePond_cases s (names (.client c)).1
  · refine ⟨s', _, h.congr hsame, remoteDp_eq (by
      simp only [handleEvlClientDpRequest, packRequest, hname, hr]; rfl), ?_⟩
    rw [hsame, hiff]
    split_ifs with hsome
    · exact ⟨fun _ => hsome, fun _ => Int.le_refl 0⟩
    · exact ⟨fun hle => absurd hle (by decide), fun hsome' => absurd hsome' hsome⟩
  · refine ⟨s', ENOTFOUND, h.congr hsame, remoteDp_eq (by
      simp only [handleEvlClientDpRequest, packRequest, hname, hr]), ?_⟩
    rw [← hiff, hnil]
    exact ⟨fun hle => absurd hle (by decide), nofun⟩

theorem remoteGet (h : Agrees names s q) (c : Client) (name : CString)
    (isGlobal needPersistent : Bool) :
    ∃ s' ret, Agrees names s' q ∧
      remoteDpRequest names s c .getElement name isGlobal needPersistent = some (s', ret) ∧
      (ret = 0 ↔ (q (asked names c isGlobal) name.1).isSome = true) := by
  have hname := fetchName_ofName name isGlobal needPersistent 0
  have hiff := h.isSome (asked names c isGlobal) name.1
  have hresult : ∀ b : Bool, (if b = true then (0 : ℤ) else -ENOTEXISTS) = 0 ↔ b = true := by
    decide
  cases isGlobal with
  | true =>
      refine ⟨s, _, h, remoteDp_eq (by
        simp only [handleEvlClientDpRequest, packRequest, hname]; rfl), ?_⟩
      rw [hresult]
      exact Bool.eq_iff_iff.mp hiff
  | false =>
      obtain ⟨s', place, hr, hsame, rfl | ⟨rfl, -, hnil⟩⟩ :=
        findCreatePond_cases s (names (.client c)).1
      · refine ⟨s', _, h.congr hsame, remoteDp_eq (by
          simp only [handleEvlClientDpRequest, packRequest, hname, hr]; rfl), ?_⟩
        rw [hresult, hsame]
        exact Bool.eq_iff_iff.mp hiff
      · refine ⟨s', -ENOTFOUND, h.congr hsame, remoteDp_eq (by
          simp only [handleEvlClientDpRequest, packRequest, hname, hr]; rfl), ?_⟩
        rw [← hiff]
        simp only [asked, Bool.false_eq_true, if_false, hnil]
        exact ⟨fun heq => absurd heq (by decide), nofun⟩

/-- The server makes an element for a client, if the name is free there. -/
theorem remoteCreate (h : Agrees names s q) (hname : name.1 ≠ [])
    (hkind : isGlobal = true ∨ needPersistent = true)
    (hclient : isGlobal = false → (names (.client c)).1 ≠ []) :
    ∃ s' ret,
      remoteDpRequest names s c .createElement name isGlobal needPersistent = some (s', ret) ∧
      if (q (asked names c isGlobal) name.1).isSome then ret ≠ 0 ∧ Agrees names s' q
      else ret = 0 ∧
        Agrees names s' (q.put (asked names c isGlobal) name.1 (some ⟨.client c, []⟩)) := by
  have hfetch := fetchName_ofName name isGlobal needPersistent 0
  have hhome := home_eq_asked names (c := c) hkind
  -- the pond of the client name is there, or made
  obtain ⟨s', hagrees, hrequest⟩ : ∃ s', Agrees names s' q ∧ ∀ o,
      createPondElement s' (asked names c isGlobal) name.1 isGlobal needPersistent
        (if isGlobal then some (names (.client c)).1 else none) = o →
      handleEvlClientDpRequest s (names (.client c)).1 .createElement
        (packRequest name isGlobal needPersistent none) =
      some (o.getD s', if o.isSome then 0 else -1, packReply name []) := by
    cases isGlobal with
    | true =>
        refine ⟨s, h, fun o ho => ?_⟩
        simp only [handleEvlClientDpRequest, packRequest, hfetch]
        rw [if_pos (by rfl)]
        cases o <;> simp_all [asked, ElementInfo.ofName]
    | false =>
        obtain ⟨s', place, hr, hsame, rfl | ⟨-, hnil, -⟩⟩ :=
          findCreatePond_cases s (names (.client c)).1
        · refine ⟨s', h.congr hsame, fun o ho => ?_⟩
          simp only [handleEvlClientDpRequest, packRequest, hfetch, hr]
          rw [if_neg (by exact Bool.false_ne_true)]
          cases o <;> simp_all [asked, ElementInfo.ofName]
        · exact absurd hnil (hclient rfl)
  cases hfree : q (asked names c isGlobal) name.1 with
  | none =>
      rw [← hhome] at hfree hrequest ⊢
      obtain ⟨s'', hcreate, hcreated⟩ := createPondElement_does hagrees
        (if isGlobal then some (names (.client c)).1 else none) hname hfree
        fun hglobal => by rw [hglobal]; rfl
      exact ⟨s'', 0, remoteDp_eq (hrequest _ hcreate), rfl, hcreated⟩
  | some a =>
      have hsome := hagrees.isSome (asked names c isGlobal) name.1
      rw [hfree] at hsome
      have hcreate : createPondElement s' (asked names c isGlobal) name.1 isGlobal needPersistent
          (if isGlobal then some (names (.client c)).1 else none) = none := by
        simp [createPondElement, Pond.createElementNode, hsome]
      exact ⟨s', -1, remoteDp_eq (hrequest _ hcreate), by decide, hagrees⟩

theorem share_create_taken
    (h : name.1 = [] ∨ (q (holder names q p name.1 isGlobal) name.1).isSome = true) :
    share names q (.createElement p name isGlobal needPersistent) = (q, false, []) :=
  if_pos h

theorem share_create_free (hname : name.1 ≠ [])
    (h : q (holder names q p name.1 isGlobal) name.1 = none) :
    share names q (.createElement p name isGlobal needPersistent) =
      (q.put (home names p isGlobal needPersistent) name.1 (some ⟨p, []⟩), true, []) :=
  if_neg (by simpa [h] using hname)

/-- In the server process. -/
theorem createElement_server (h : Agrees names s q) (hempty : name.1 ≠ [])
    (hm : Meets names s (.createElement .server name isGlobal needPersistent)) :
    ∃ s' ret, createElement names s .server name isGlobal needPersistent = some (s', ret) ∧
      Does names (s', ret, [])
        (share names q (.createElement .server name isGlobal needPersistent)) := by
  obtain ⟨s', hr, hsame⟩ := findSrvElement_eq h name.1 isGlobal
  simp only [createElement, hr]
  rw [if_neg hempty]
  have hagrees := h.congr hsame
  cases ha : q (holder names q .server name.1 isGlobal) name.1 with
  | some a =>
      rw [share_create_taken (.inr (by rw [ha]; rfl))]
      exact ⟨s', -1, rfl, .failure hagrees (by decide)⟩
  | none =>
      rw [share_create_free hempty ha]
      have hfree := home_none ha needPersistent
      obtain ⟨s'', hagrees', hhome⟩ : ∃ s'', Agrees names s'' q ∧
          (if isGlobal then (s', some Place.global)
            else if needPersistent then findCreatePond s' (names .server).1
            else (s', some (.ofProcess .server))) =
          (s'', some (home names .server isGlobal needPersistent)) := by
        cases isGlobal with
        | true => exact ⟨s', hagrees, rfl⟩
        | false =>
            cases needPersistent with
            | false => exact ⟨s', hagrees, rfl⟩
            | true =>
                obtain ⟨s'', _, hr', hsame', rfl | ⟨-, hnil, -⟩⟩ :=
                  findCreatePond_cases s' (names .server).1
                · exact ⟨s'', hagrees.congr hsame', hr'⟩
                · exact absurd hnil (hm rfl rfl)
      simp only [isSome_none, Bool.false_eq_true, if_false, hhome]
      obtain ⟨t, hcreate, hcreated⟩ := createPondElement_does hagrees'
        (some (names .server).1) hempty hfree fun _ => rfl
      simp only [hcreate]
      exact ⟨t, 0, rfl, .success hcreated (Int.le_refl 0)⟩

/-- In a client, an element that the server is to make. -/
theorem createElement_remote (h : Agrees names s q) (hempty : name.1 ≠ [])
    (hm : Meets names s (.createElement (.client c) name isGlobal needPersistent))
    (hgoes : GoesRemote s c name isGlobal) (hkind : isGlobal = true ∨ needPersistent = true) :
    ∃ s' ret, createElement names s (.client c) name isGlobal needPersistent = some (s', ret) ∧
      Does names (s', ret, [])
        (share names q (.createElement (.client c) name isGlobal needPersistent)) := by
  have hholder := holder_remote names h hgoes
  simp only [createElement]
  rw [if_neg hempty, if_neg (fun hand => goesRemote_iff.mp hand hgoes),
    if_neg (by rcases hkind with rfl | rfl <;> simp)]
  obtain ⟨s', ret, heq, hdone⟩ := remoteCreate h (c := c) hempty hkind fun hlocal =>
    hm hlocal (hkind.resolve_left (by rw [hlocal]; exact Bool.false_ne_true))
  rw [heq]
  refine ⟨s', _, rfl, ?_⟩
  cases ha : q (asked names c isGlobal) name.1 with
  | some a =>
      rw [ha] at hdone
      obtain ⟨hret, hagrees⟩ := hdone
      rw [share_create_taken (.inr (by rw [hholder, ha]; rfl)), if_neg hret]
      exact .failure hagrees (by decide)
  | none =>
      rw [ha] at hdone
      obtain ⟨hret, hagrees⟩ := hdone
      rw [share_create_free hempty (by rwa [hholder]), if_pos hret, home_eq_asked names hkind]
      exact .success hagrees (Int.le_refl 0)

/-- In a client, an element of its own that the server is asked about first. -/
theorem createElement_own (h : Agrees names s q) (hempty : name.1 ≠ [])
    (hgoes : GoesRemote s c name false) :
    ∃ s' ret, createElement names s (.client c) name false false = some (s', ret) ∧
      Does names (s', ret, []) (share names q (.createElement (.client c) name false false)) := by
  have hholder : holder names q (.client c) name.1 false = .manager (names (.client c)).1 :=
    holder_remote names h hgoes
  simp only [createElement]
  rw [if_neg hempty, if_neg (fun hand => goesRemote_iff.mp hand hgoes)]
  simp only [Bool.not_false, Bool.and_self, if_true]
  obtain ⟨s', ret, hagrees, heq, hret⟩ := remoteCheck h c name false
  rw [heq]
  simp only
  cases ha : q (.manager (names (.client c)).1) name.1 with
  | some a =>
      rw [ha] at hret
      rw [if_pos (hret.mpr rfl), share_create_taken (.inr (by rw [hholder, ha]; rfl))]
      exact ⟨s', -1, rfl, .failure hagrees (by decide)⟩
  | none =>
      rw [ha] at hret
      have hnone : q (holder names q (.client c) name.1 false) name.1 = none := by
        rwa [hholder]
      rw [if_neg (fun hle => nomatch hret.mp hle), share_create_free hempty hnone]
      have hfree := home_none hnone false
      obtain ⟨t, hcreate, hcreated⟩ := createPondElement_does hagrees none hempty hfree
        fun hglobal => nomatch hglobal
      have hhome : home names (.client c) false false = .ofProcess (.client c) := rfl
      rw [hhome] at hcreate hcreated ⊢
      simp only [hcreate]
      exact ⟨t, 0, rfl, .success hcreated (Int.le_refl 0)⟩

theorem createElement_does (h : Agrees names s q)
    (hm : Meets names s (.createElement p name isGlobal needPersistent)) :
    ∃ s' ret, createElement names s p name isGlobal needPersistent = some (s', ret) ∧
      Does names (s', ret, []) (share names q (.createElement p name isGlobal needPersistent)) := by
  by_cases hempty : name.1 = []
  · simp only [createElement]
    rw [if_pos hempty, share_create_taken (.inl hempty)]
    exact ⟨s, -1, rfl, .failure h (by decide)⟩
  cases p with
  | server => exact createElement_server h hempty hm
  | client c =>
      by_cases hgoes : GoesRemote s c name isGlobal
      · by_cases hkind : isGlobal = true ∨ needPersistent = true
        · exact createElement_remote h hempty hm hgoes hkind
        · obtain ⟨hlocal, hnp⟩ := not_or.mp hkind
          obtain rfl : isGlobal = false := by simpa using hlocal
          obtain rfl : needPersistent = false := by simpa using hnp
          exact createElement_own h hempty hgoes
      · obtain ⟨-, hholder, hsome⟩ := holder_local h hgoes
        rw [share_create_taken (.inr (by rwa [hholder]))]
        simp only [createElement]
        rw [if_neg hempty, if_pos (goesRemote_iff.mpr hgoes)]
        exact ⟨s, -1, rfl, .failure h (by decide)⟩

theorem getElement_does (h : Agrees names s q) (p : Process) (name : CString) (isGlobal : Bool) :
    ∃ s' ret, getElement names s p name isGlobal = some (s', ret) ∧
      Does names (s', ret, []) (share names q (.getElement p name isGlobal)) := by
  simp only [share, getElement]
  by_cases hempty : name.1 = []
  · rw [if_pos hempty, hempty, h.named]
    exact ⟨s, -1, rfl, .failure h (by decide)⟩
  rw [if_neg hempty]
  cases p with
  | server =>
      obtain ⟨s', hr, hsame⟩ := findSrvElement_eq h name.1 isGlobal
      simp only [hr]
      refine ⟨s', _, rfl, ?_⟩
      cases q (holder names q .server name.1 isGlobal) name.1 with
      | none => exact .failure (h.congr hsame) (by decide : (-1 : ℤ) < 0)
      | some a => exact .success (h.congr hsame) (Int.le_refl 0)
  | client c =>
      simp only
      by_cases hgoes : GoesRemote s c name isGlobal
      · rw [if_neg (fun hand => goesRemote_iff.mp hand hgoes), holder_remote names h hgoes]
        obtain ⟨s', ret, hagrees, heq, hret⟩ := remoteGet h c name isGlobal isGlobal
        rw [heq]
        refine ⟨s', _, rfl, ?_⟩
        cases ha : q (asked names c isGlobal) name.1 with
        | none =>
            rw [ha] at hret
            rw [if_neg (fun heq => nomatch hret.mp heq)]
            exact .failure hagrees (by decide)
        | some a =>
            rw [ha] at hret
            rw [if_pos (hret.mpr rfl)]
            exact .success hagrees (Int.le_refl 0)
      · rw [if_pos (goesRemote_iff.mpr hgoes)]
        obtain ⟨-, hholder, hsome⟩ := holder_local h hgoes
        rw [hholder, hsome]
        exact ⟨s, 0, rfl, .success h (Int.le_refl 0)⟩

theorem removePondElement_missing {name : Bytes} (h : Agrees names s q)
    (hnone : q place name = none) (remover : Option Bytes) :
    ∃ ret < 0, (s.elements place).removePondElement name remover = (s.elements place, ret) := by
  rw [Pond.removePondElement, h.find_none hnone]
  split_ifs
  · exact ⟨-EBADPARM, by decide, rfl⟩
  · exact ⟨-ENOTFOUND, by decide, rfl⟩

/-- An element without a creator is removed by any process. -/
theorem removePondElement_local {name : Bytes} (h : Agrees names s q) (ha : q place name = some a)
    (hplace : place ≠ .global) (remover : Option Bytes) :
    (s.elements place).removePondElement name remover =
      ((s.elements place).eraseP (fun e => e.elementName == name), 0) := by
  obtain ⟨e, hfind, -, hcreator⟩ := h.find_some ha
  rw [if_neg hplace] at hcreator
  rw [Pond.removePondElement, if_neg (h.ne_nil ha), hfind]
  simp [hcreator]

theorem removePondElement_global {name : Bytes} (h : Agrees names s q)
    (ha : q .global name = some a) (p : Process) :
    (s.elements .global).removePondElement name (some (names p).1) =
      if (names a.creator).1 = [] ∨ (names a.creator).1 = (names p).1 then
        ((s.elements .global).eraseP (fun e => e.elementName == name), 0)
      else (s.elements .global, -ENOTAVAIL) := by
  obtain ⟨e, hfind, -, hcreator⟩ := h.find_some ha
  rw [if_pos rfl] at hcreator
  rw [Pond.removePondElement, if_neg (h.ne_nil ha), hfind]
  simp only [hcreator, some_ne_none, and_false, if_false, ne_eq, some_inj]
  by_cases hempty : (names a.creator).1 = []
  · rw [if_neg (fun hand => hand.1 hempty), if_pos (.inl hempty)]
  · by_cases heq : (names a.creator).1 = (names p).1
    · rw [if_neg (fun hand => hand.2 heq.symm), if_pos (.inr heq)]
    · rw [if_pos ⟨hempty, fun hne => heq hne.symm⟩, if_neg (not_or.mpr ⟨hempty, heq⟩)]

theorem Agrees.set_self (h : Agrees names s q) (place : Place) :
    Agrees names (s.set place (s.elements place)) q := by
  refine h.congr fun place' => ?_
  rw [elements_set]
  split_ifs with heq
  · rw [heq]
  · rfl

theorem removeGlobal_does (h : Agrees names s q) (hm : Meets names s (.removeElement p name true)) :
    Does names
      (s.set .global ((s.elements .global).removePondElement name.1 (some (names p).1)).1,
        ((s.elements .global).removePondElement name.1 (some (names p).1)).2, [])
      (share names q (.removeElement p name true)) := by
  have hholder : holder names q p name.1 true = .global := rfl
  simp only [share, hholder]
  cases ha : q .global name.1 with
  | none =>
      obtain ⟨ret, hret, heq⟩ :=
        removePondElement_missing h ha (some (names p).1)
      rw [heq]
      exact .failure (h.set_self .global) hret
  | some a =>
      obtain ⟨e, hfind, -, hcreator⟩ := h.find_some ha
      rw [if_pos rfl] at hcreator
      have hown := hm rfl e hfind
      rw [hcreator] at hown
      rw [removePondElement_global h ha]
      by_cases hmine : a.creator = p
      · rw [if_pos (.inr (by rw [hmine]))]
        simp only [hmine, ne_eq, not_true_eq_false, and_false, if_false]
        exact .success h.erase (Int.le_refl 0)
      · rw [if_neg fun hmay => hmine (hown hmay a.creator rfl)]
        simp only [hmine, ne_eq, not_false_eq_true, and_self, if_true]
        exact .failure (h.set_self .global) (by decide)

theorem removeLocal_does (h : Agrees names s q) (hholder : holder names q p name.1 false = place)
    (hplace : place ≠ .global) (remover : Option Bytes) :
    Does names (s.set place ((s.elements place).removePondElement name.1 remover).1,
        ((s.elements place).removePondElement name.1 remover).2, [])
      (share names q (.removeElement p name false)) := by
  simp only [share, hholder]
  cases ha : q place name.1 with
  | none =>
      obtain ⟨ret, hret, heq⟩ := removePondElement_missing h ha remover
      rw [heq]
      exact .failure (h.set_self place) hret
  | some a =>
      rw [removePondElement_local h ha hplace]
      simp only [Bool.false_eq_true, false_and, if_false]
      exact .success h.erase (Int.le_refl 0)

/-- What a process has not, it removes from the pond of its client name. -/
theorem removeManager_does (h : Agrees names s q) (hnone : q (.ofProcess p) name.1 = none)
    (remover : Option Bytes) :
    ∃ s' ret, (match findCreatePond s (names p).1 with
        | (s, none) => (s, -ENOTFOUND)
        | (s, some place) =>
            (s.set place ((s.elements place).removePondElement name.1 remover).1,
              ((s.elements place).removePondElement name.1 remover).2)) = (s', ret) ∧
      Does names (s', ret, []) (share names q (.removeElement p name false)) := by
  have hholder : holder names q p name.1 false = .manager (names p).1 := by
    rw [holder, hnone]
    rfl
  obtain ⟨s', place, hr, hsame, hplace⟩ := findCreatePond_cases s (names p).1
  have hagrees := h.congr hsame
  rw [hr]
  rcases hplace with rfl | ⟨rfl, -, hnil⟩
  · exact ⟨_, _, rfl, removeLocal_does hagrees hholder (by simp) remover⟩
  · refine ⟨s', -ENOTFOUND, rfl, ?_⟩
    have hmissing : q (.manager (names p).1) name.1 = none := by
      have hiff := h.isSome (.manager (names p).1) name.1
      rw [hnil] at hiff
      exact not_isSome_iff_eq_none.mp fun hsome => by rw [hsome] at hiff; cases hiff
    simp only [share, hholder, hmissing]
    exact .failure hagrees (by decide)

/-- A process removes an element of its own. -/
theorem removeOwn_does (h : Agrees names s q) (ha : q (.ofProcess p) name.1 = some a) :
    ∃ s' ret, removeElement names s p name false = some (s', ret) ∧
      Does names (s', ret, []) (share names q (.removeElement p name false)) := by
  have hholder : holder names q p name.1 false = .ofProcess p := by
    rw [holder, ha]
    rfl
  have hlocal := removePondElement_local h ha (by simp : _ ≠ Place.global)
  have hdoes := removeLocal_does h hholder (by simp) none
  rw [hlocal] at hdoes
  refine ⟨_, _, ?_, hdoes⟩
  cases p with
  | server =>
      simp only [removeElement, hlocal]
      rfl
  | client c =>
      simp only [removeElement, hlocal]
      rfl

theorem removeElement_does (h : Agrees names s q)
    (hm : Meets names s (.removeElement p name isGlobal)) :
    ∃ s' ret, removeElement names s p name isGlobal = some (s', ret) ∧
      Does names (s', ret, []) (share names q (.removeElement p name isGlobal)) := by
  cases p with
  | server =>
      cases isGlobal with
      | true => exact ⟨_, _, rfl, removeGlobal_does h hm⟩
      | false =>
          cases ha : q (.ofProcess .server) name.1 with
          | some a => exact removeOwn_does h ha
          | none =>
              obtain ⟨ret, hret, heq⟩ := removePondElement_missing h ha none
              obtain ⟨s', ret', hmanager, hdoes⟩ := removeManager_does h ha none
              refine ⟨s', ret', ?_, hdoes⟩
              rw [← hmanager]
              simp only [removeElement, heq, Bool.false_eq_true, if_false]
              rw [if_neg (by omega)]
              generalize findCreatePond s (names .server).1 = r
              obtain ⟨t, _ | place⟩ := r <;> rfl
  | client c =>
      have hfetch := fetchName_ofName name isGlobal false 0
      cases isGlobal with
      | true =>
          refine ⟨_, _, ?_, removeGlobal_does h hm⟩
          have hremote : (-1 : ℤ) ≠ 0 := by decide
          simp only [removeElement, if_true, hremote, if_false]
          refine remoteDp_eq ?_
          simp only [handleEvlClientDpRequest, packRequest, hfetch]
          rfl
      | false =>
          cases ha : q (.ofProcess (.client c)) name.1 with
          | some a => exact removeOwn_does h ha
          | none =>
              obtain ⟨ret, hret, heq⟩ := removePondElement_missing h ha none
              obtain ⟨s', ret', hmanager, hdoes⟩ :=
                removeManager_does h ha (some (names (.client c)).1)
              refine ⟨s', ret', ?_, hdoes⟩
              simp only [removeElement, heq, Bool.false_eq_true, if_false]
              rw [if_neg (by omega)]
              refine remoteDp_eq ?_
              simp only [handleEvlClientDpRequest, packRequest, hfetch]
              generalize findCreatePond s (names (.client c)).1 = r at hmanager ⊢
              obtain ⟨t, _ | place⟩ := r <;> cases hmanager <;> rfl

/-! ## Runs -/

theorem step_shares (h : Agrees names s q) {c : Call} (hm : Meets names s c) :
    ∃ s' r q', step names s c = some (s', r) ∧ ShareStep names q c r q' ∧ Agrees names s' q' := by
  obtain ⟨s', ret, out, hstep, hdoes⟩ : ∃ s' ret out, step names s c = some (s', ret, out) ∧
      Does names (s', ret, out) (share names q c) := by
    cases c with
    | createElement p name isGlobal needPersistent =>
        obtain ⟨s', ret, heq, hdoes⟩ := createElement_does h hm
        exact ⟨s', ret, [], by rw [step, heq]; rfl, hdoes⟩
    | getElement p name isGlobal =>
        obtain ⟨s', ret, heq, hdoes⟩ := getElement_does h p name isGlobal
        exact ⟨s', ret, [], by rw [step, heq]; rfl, hdoes⟩
    | removeElement p name isGlobal =>
        obtain ⟨s', ret, heq, hdoes⟩ := removeElement_does h hm
        exact ⟨s', ret, [], by rw [step, heq]; rfl, hdoes⟩
    | setdata p name isGlobal buffer => exact ⟨_, _, _, rfl, setdata_does h hm⟩
    | getdata p name isGlobal => exact ⟨_, _, _, rfl, getdata_does h hm⟩
    | notify p name isGlobal buffer => exact ⟨_, _, _, rfl, notify_does h hm⟩
  obtain ⟨hagrees, hret, hout⟩ := hdoes
  exact ⟨s', (ret, out), _, hstep, ⟨_, _, rfl, hret, hout⟩, hagrees⟩

/-- **One store**: while the operations meet the condition, their results and their data are those
of one store that the processes share, and each pond has each name once. -/
theorem shares_of_meets (names : Names) (cs : List Call)
    (h : Guarded (step names) (Meets names) State.init cs) :
    ∃ s rs q, run (step names) State.init cs = some (s, rs) ∧
      Runs (ShareStep names) (fun _ _ => none) cs rs q ∧
      ∀ place, ((s.elements place).map PondElement.elementName).Nodup := by
  have hstep : ∀ s q c, Agrees names s q → Meets names s c →
      ∃ s' r q', step names s c = some (s', r) ∧ ShareStep names q c r q' ∧ Agrees names s' q' :=
    fun _ _ _ h hm => step_shares h hm
  obtain ⟨s, rs, q, hrun, hruns, hagrees⟩ :=
    run_simulates hstep cs State.init _ (agrees_init names) h
  exact ⟨s, rs, q, hrun, hruns, hagrees.unique⟩

/-- The processes of an example: all clients have one name. -/
private def exampleNames : Names
  | .server => ⟨[115], by decide⟩
  | .client _ => ⟨[99], by decide⟩

/-- A client gets the data that the server has set. -/
private def exampleCalls : List Call :=
  [.createElement .server ⟨[97], by decide⟩ true false,
    .setdata .server ⟨[97], by decide⟩ true (some [1, 2]),
    .getdata (.client 0) ⟨[97], by decide⟩ true]

private theorem exampleCalls_meet :
    Guarded (step exampleNames) (Meets exampleNames) State.init exampleCalls := by
  refine guarded_cons_iff.mpr ⟨fun h => (nomatch h), ?_⟩
  refine guarded_cons_iff.mpr ⟨trivial, ?_⟩
  refine guarded_cons_iff.mpr ⟨fun _ _ => ⟨_, rfl, .inr (by decide)⟩, ?_⟩
  trivial

theorem shares_of_meets_get :
    ∃ s rs q, run (step exampleNames) State.init exampleCalls = some (s, rs) ∧
      Runs (ShareStep exampleNames) (fun _ _ => none) exampleCalls rs q ∧
      ∀ place, ((s.elements place).map PondElement.elementName).Nodup :=
  shares_of_meets exampleNames exampleCalls exampleCalls_meet

/-- A client that gets the data of a missing element gets no error. -/
theorem not_shares_missing :
    ¬ ∀ (names : Names) (cs : List Call) (s : State) (rs : List (ℤ × Bytes)),
      run (step names) State.init cs = some (s, rs) →
        ∃ q, Runs (ShareStep names) (fun _ _ => none) cs rs q := by
  intro h
  obtain ⟨q, hruns⟩ := h exampleNames [.getdata (.client 0) ⟨[97], by decide⟩ true] _ [(0, [])] rfl
  cases hruns with
  | cons hshare _ =>
      obtain ⟨ok, out, hq, hret, -⟩ := hshare
      cases hq
      exact nomatch hret.mp (Int.le_refl 0)

end V2I.Utils.Datapool
