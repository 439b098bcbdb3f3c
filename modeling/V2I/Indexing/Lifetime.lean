import V2I.Indexing.ServerEndpointMgr
import V2I.Lib.Machine

/-!
# V2I.Indexing.Lifetime

When an endpoint is deleted. It is counted with one reference by the table and one by each smart
pointer; `release` deletes it where the count was 0 *before* the decrement, so the last reference
that goes leaves it with a count of 0 and alive.

`lifetime_iff_noLast`: an endpoint is deleted exactly when its last reference is dropped as long as
no last reference is dropped. `releaseAllNodes` leaves a table as it is, and for an empty one
takes the head of the list for an item.
-/

namespace V2I.Indexing.Lifetime

open ServerEndpointMgr List Function Machine

/-- The table, the counts of its endpoints and, as the surroundings see it, the smart pointers
that refer to each. -/
structure State where
  mgr : ServerEndpointMgr
  refcnt : ℕ → ℤ
  deleted : ℕ → Bool
  pointers : ℕ → ℕ

def State.new : State := ⟨.new, fun _ => 0, fun _ => false, fun _ => 0⟩

/-- `server_endpoint::addref` -/
def addref (s : State) (p : ℕ) : State :=
  { s with refcnt := update s.refcnt p (s.refcnt p + 1) }

/-- `server_endpoint::release` -/
def release (s : State) (p : ℕ) : State :=
  { s with
    refcnt := update s.refcnt p (s.refcnt p - 1)
    deleted := if s.refcnt p = 0 then update s.deleted p true else s.deleted }

/-- `add_endpoint`: a new endpoint has the table's reference. -/
def addEndpoint (s : State) (item : ServerItem) (identity : Bytes) (vehCnt : ℕ) : State :=
  { s with
    mgr := (s.mgr.addEndpoint item identity vehCnt).1
    refcnt := match s.mgr.findEndpoint item identity with
      | some _ => s.refcnt
      | none => update s.refcnt s.mgr.next 1 }

/-- `remove_endpoint` -/
def removeEndpoint (s : State) (item : ServerItem) (identity : Bytes) : State :=
  match s.mgr.findEndpoint item identity with
  | none => s
  | some node =>
      let mgr := s.mgr.modifyItem item.name fun item =>
        { item with endpoints := item.endpoints.erase node }
      release { s with mgr := mgr } node

/-- `remove_server_item` -/
def removeServerItem (s : State) (item : ServerItem) : State :=
  let s := item.endpoints.foldl release s
  { s with mgr.serverList := s.mgr.serverList.filter (·.name ≠ item.name) }

/-- `release_all_nodes`, for the list: the loop is left at once where there are items. Where there
are none, the head of the list is taken for one. -/
def releaseAllNodes (mgr : ServerEndpointMgr) : Option ServerEndpointMgr :=
  match mgr.serverList with
  | [] => none
  | _ :: _ => some mgr

/-- An item or an endpoint is added or removed, or a smart pointer takes or drops a reference. -/
inductive Call where
  | addServerItem (name : Bytes)
  | addEndpoint (name identity : Bytes) (vehCnt : ℕ)
  | removeEndpoint (name identity : Bytes)
  | removeServerItem (name : Bytes)
  | take (p : ℕ)
  | drop (p : ℕ)

/-- The references of the table to an endpoint. -/
def tableRefs (mgr : ServerEndpointMgr) (p : ℕ) : ℕ :=
  (mgr.serverList.map fun item => item.endpoints.count p).sum

/-- The references to an endpoint. -/
def holders (s : State) (p : ℕ) : ℕ := tableRefs s.mgr p + s.pointers p

/-- A pointer is copied from a reference that is there, and dropped where there is one.
`remove_endpoint` needs an item. -/
def step (config : Bytes → Sysconfig) (s : State) : Call → Option (State × Unit)
  | .addServerItem name => some ({ s with mgr := (addServerItem config s.mgr name).1 }, ())
  | .addEndpoint name identity vehCnt =>
      match s.mgr.findServerItem name with
      | none => some (s, ())
      | some item => some (addEndpoint s item identity vehCnt, ())
  | .removeEndpoint name identity =>
      (s.mgr.findServerItem name).map fun item => (removeEndpoint s item identity, ())
  | .removeServerItem name =>
      match s.mgr.findServerItem name with
      | none => some (s, ())
      | some item => some (removeServerItem s item, ())
  | .take p =>
      if holders s p = 0 then none
      else some ({ addref s p with
        pointers := update s.pointers p (s.pointers p + 1) }, ())
  | .drop p =>
      if s.pointers p = 0 then none
      else some (release { s with
        pointers := update s.pointers p (s.pointers p - 1) } p, ())

/-- **Endpoint lifetime**: the endpoints that nothing refers to are those that are deleted. -/
def Exact (s : State) : Prop := ∀ p < s.mgr.next, s.deleted p = true ↔ holders s p = 0

/-- The call does not drop the last reference to an endpoint. -/
def NoLast (s : State) : Call → Prop
  | .removeEndpoint name identity => ∀ item ∈ s.mgr.findServerItem name,
      ∀ p ∈ s.mgr.findEndpoint item identity, 1 < holders s p
  | .removeServerItem name => ∀ item ∈ s.mgr.findServerItem name,
      ∀ p ∈ item.endpoints, item.endpoints.count p < holders s p
  | .drop p => 1 < holders s p
  | _ => True

/-! ## The references of the table -/

section Table

variable {l : List ServerItem} {name : Bytes} {item : ServerItem} {g : ServerItem → ℕ}

/-- An item among those of other names. -/
theorem split_of_find (hl : (l.map ServerItem.name).Nodup)
    (h : l.find? (·.name = name) = some item) : ∃ l₁ l₂, l = l₁ ++ item :: l₂ ∧ item.name = name ∧
      (∀ i ∈ l₁, i.name ≠ name) ∧ ∀ i ∈ l₂, i.name ≠ name := by
  obtain ⟨hname, l₁, l₂, rfl, hne⟩ := find?_eq_some_iff_append.mp h
  have hname : item.name = name := by simpa using hname
  refine ⟨l₁, l₂, rfl, hname, fun i hi => by simpa using hne i hi, fun i hi heq => ?_⟩
  rw [map_append, map_cons] at hl
  refine (nodup_cons.mp hl.of_append_right).1 ?_
  rw [hname, ← heq]
  exact mem_map_of_mem hi

variable (f : ServerItem → ServerItem)

theorem map_of_forall_ne (h : ∀ i ∈ l, i.name ≠ name) :
    (l.map fun i => if i.name = name then f i else i) = l := by
  refine (map_congr_left fun i hi => if_neg (h i hi)).trans ?_
  exact map_id' l

theorem sum_modify (hl : (l.map ServerItem.name).Nodup)
    (h : l.find? (·.name = name) = some item) (f : ServerItem → ServerItem) :
    ((l.map fun i => if i.name = name then f i else i).map g).sum + g item =
      (l.map g).sum + g (f item) := by
  obtain ⟨l₁, l₂, rfl, hname, h₁, h₂⟩ := split_of_find hl h
  rw [map_append, map_cons, map_of_forall_ne f h₁, map_of_forall_ne f h₂, if_pos hname]
  simp only [map_append, map_cons, sum_append, sum_cons]
  omega

theorem sum_filter (hl : (l.map ServerItem.name).Nodup) (h : l.find? (·.name = name) = some item) :
    (l.map g).sum = ((l.filter (·.name ≠ name)).map g).sum + g item := by
  obtain ⟨l₁, l₂, rfl, hname, h₁, h₂⟩ := split_of_find hl h
  have hl₁ : l₁.filter (·.name ≠ name) = l₁ :=
    filter_eq_self.mpr fun i hi => by simpa using h₁ i hi
  have hl₂ : l₂.filter (·.name ≠ name) = l₂ :=
    filter_eq_self.mpr fun i hi => by simpa using h₂ i hi
  rw [filter_append, filter_cons_of_neg (by simpa using hname), hl₁, hl₂]
  simp only [map_append, map_cons, sum_append, sum_cons]
  omega

theorem names_modify (hf : ∀ i, (f i).name = i.name) :
    (l.map fun i => if i.name = name then f i else i).map ServerItem.name =
      l.map ServerItem.name := by
  rw [map_map]
  refine map_congr_left fun i _ => ?_
  simp only [comp_apply]
  split_ifs
  · exact hf i
  · rfl

end Table

/-! ## Releasing -/

section Release

variable {s : State}

theorem release_alive {p : ℕ} (h : s.refcnt p ≠ 0) : (release s p).deleted = s.deleted := if_neg h

/-- References that are all counted go one after the other: nothing is deleted. -/
theorem foldl_release (ps : List ℕ) (h : ∀ p ∈ ps, (ps.count p : ℤ) ≤ s.refcnt p) :
    ps.foldl release s = { s with refcnt := fun p => s.refcnt p - ps.count p } := by
  induction ps generalizing s with
  | nil => simp
  | cons q ps ih =>
      have hq := h q mem_cons_self
      rw [count_cons_self] at hq
      have halive : (release s q).deleted = s.deleted := release_alive (by omega)
      rw [foldl_cons, ih]
      · refine congrArg₂ (fun r d => State.mk s.mgr r d s.pointers) ?_ halive
        funext p
        simp only [release, update_apply, count_cons, beq_iff_eq]
        split_ifs with hp hp' hp'
        · subst hp
          push_cast
          omega
        · exact absurd hp.symm hp'
        · exact absurd hp'.symm hp
        · simp
      · intro p hp
        have hp := h p (mem_cons_of_mem _ hp)
        simp only [release, update_apply, count_cons, beq_iff_eq] at hp ⊢
        split_ifs with heq
        · subst heq
          simp only [if_true] at hp
          push_cast at hp
          omega
        · rw [if_neg (Ne.symm heq)] at hp
          simpa using hp

end Release

/-! ## Runs -/

/-- What holds in every state: the counts are the references, and nothing is deleted. -/
structure Counted (s : State) : Prop where
  names : (s.mgr.serverList.map ServerItem.name).Nodup
  below : s.mgr.Below
  refcnt : ∀ p < s.mgr.next, s.refcnt p = holders s p
  alive : ∀ p, s.deleted p = false
  fresh : ∀ p, s.mgr.next ≤ p → holders s p = 0

/-- What holds as long as no last reference has been dropped: each endpoint has a reference. -/
structure Inv (s : State) : Prop where
  counted : Counted s
  held : ∀ p < s.mgr.next, 0 < holders s p

section Step

variable {config : Bytes → Sysconfig} {s s' : State} {name identity : Bytes} {item : ServerItem}

theorem Counted.exact_iff (h : Counted s) : Exact s ↔ ∀ p < s.mgr.next, 0 < holders s p := by
  refine forall₂_congr fun p _ => ?_
  rw [h.alive, Nat.pos_iff_ne_zero]
  simp

/-- An endpoint that the table or a smart pointer refers to has been made. -/
theorem Counted.lt_of_pos (h : Counted s) {p : ℕ} (hp : 0 < holders s p) : p < s.mgr.next := by
  by_contra hnot
  have hzero := h.fresh p (Nat.not_lt.mp hnot)
  omega

theorem addServerItem_inv (h : Inv s) (config : Bytes → Sysconfig) (name : Bytes) :
    Inv { s with mgr := (addServerItem config s.mgr name).1 } := by
  rcases addServerItem_cases config s.mgr name with heq | ⟨item, hnil, hname, hnone, heq⟩
  · rwa [heq]
  · have hrefs : ∀ p, tableRefs (addServerItem config s.mgr name).1 p = tableRefs s.mgr p := by
      intro p
      simp [tableRefs, heq, hnil]
    have hholders : ∀ p, holders { s with mgr := (addServerItem config s.mgr name).1 } p =
        holders s p := fun p => congrArg (· + s.pointers p) (hrefs p)
    have hnext : (addServerItem config s.mgr name).1.next = s.mgr.next := by rw [heq]
    refine ⟨⟨?_, addServerItem_below h.counted.below config name, fun p hp => ?_, h.counted.alive,
      fun p hp => ?_⟩, fun p hp => ?_⟩
    · rw [heq, map_append]
      refine h.counted.names.append (nodup_singleton _) ?_
      intro n hn hn'
      obtain ⟨i, hi, rfl⟩ := mem_map.mp hn
      refine find?_eq_none.mp hnone i hi ?_
      simpa [hname] using hn'
    · rw [hholders]
      exact h.counted.refcnt p (hnext ▸ hp)
    · rw [hholders]
      exact h.counted.fresh p (hnext ▸ hp)
    · rw [hholders]
      exact h.held p (hnext ▸ hp)

variable {mgr : ServerEndpointMgr}

/-- A new endpoint has one reference of the table. -/
theorem tableRefs_addEndpoint (vehCnt : ℕ) (hnames : (mgr.serverList.map ServerItem.name).Nodup)
    (hitem : mgr.findServerItem name = some item) (hfind : mgr.findEndpoint item identity = none)
    (p : ℕ) :
    tableRefs (mgr.addEndpoint item identity vehCnt).1 p =
      tableRefs mgr p + if p = mgr.next then 1 else 0 := by
  have hname : item.name = name := by simpa using find?_some hitem
  have hsum := sum_modify (g := fun item => item.endpoints.count p) hnames hitem
    fun item => { item with endpoints := item.endpoints ++ [mgr.next] }
  simp only [count_append, count_singleton, beq_iff_eq, eq_comm (a := mgr.next)] at hsum
  rw [ServerEndpointMgr.addEndpoint, hfind]
  simp only [tableRefs, modifyItem, hname]
  omega

/-- A smaller list has its reference back. -/
theorem tableRefs_erase {q : ℕ} (hnames : (mgr.serverList.map ServerItem.name).Nodup)
    (hitem : mgr.findServerItem name = some item) (hq : q ∈ item.endpoints) (p : ℕ) :
    tableRefs (mgr.modifyItem item.name fun item =>
      { item with endpoints := item.endpoints.erase q }) p + (if p = q then 1 else 0) =
        tableRefs mgr p := by
  have hname : item.name = name := by simpa using find?_some hitem
  have hsum := sum_modify (g := fun item => item.endpoints.count p) hnames hitem
    fun item => { item with endpoints := item.endpoints.erase q }
  have hcount : item.endpoints.count p = (item.endpoints.erase q).count p +
      if p = q then 1 else 0 := by
    rw [count_erase]
    have hpos := count_pos_iff.mpr hq
    simp only [beq_iff_eq, eq_comm (a := q)]
    split_ifs with hp
    · subst hp
      omega
    · rfl
  simp only at hsum
  simp only [tableRefs, modifyItem, hname]
  omega

theorem addEndpoint_inv (h : Inv s) (hitem : s.mgr.findServerItem name = some item)
    (identity : Bytes) (vehCnt : ℕ) : Inv (addEndpoint s item identity vehCnt) := by
  unfold addEndpoint
  have hbelow := addEndpoint_below h.counted.below item identity vehCnt
  cases hfind : s.mgr.findEndpoint item identity with
  | some node =>
      have hsame : (s.mgr.addEndpoint item identity vehCnt).1 = s.mgr := by
        rw [ServerEndpointMgr.addEndpoint, hfind]
      rw [hsame]
      exact h
  | none =>
      have hrefs := tableRefs_addEndpoint vehCnt h.counted.names hitem hfind
      have hnext : (s.mgr.addEndpoint item identity vehCnt).1.next = s.mgr.next + 1 := by
        rw [ServerEndpointMgr.addEndpoint, hfind]
      have hnames : (s.mgr.addEndpoint item identity vehCnt).1.serverList.map ServerItem.name =
          s.mgr.serverList.map ServerItem.name := by
        rw [ServerEndpointMgr.addEndpoint, hfind]
        exact names_modify _ fun _ => rfl
      generalize (s.mgr.addEndpoint item identity vehCnt).1 = mgr' at hbelow hrefs hnext hnames ⊢
      have hzero := h.counted.fresh s.mgr.next le_rfl
      refine ⟨⟨hnames ▸ h.counted.names, hbelow, fun p hp => ?_, h.counted.alive, fun p hp => ?_⟩,
        fun p hp => ?_⟩
      · simp only [holders, hrefs, update_apply] at hzero ⊢
        split_ifs with hp'
        · subst hp'
          omega
        · have hcount := h.counted.refcnt p (by simp only at hp; omega)
          simpa [holders] using hcount
      · simp only at hp
        have hold := h.counted.fresh p (by omega)
        simp only [holders, hrefs] at hold ⊢
        rw [if_neg (by omega)]
        omega
      · simp only [holders, hrefs]
        by_cases hp' : p = s.mgr.next
        · simp [hp']
        · have hold := h.held p (by simp only at hp; omega)
          rw [holders] at hold
          omega

/-- **A reference goes**: nothing is deleted, and each endpoint still has one exactly if it was
not the last. -/
theorem release_counted (h : Inv s) {s₁ : State} {q : ℕ} (hrefcnt : s₁.refcnt = s.refcnt)
    (hdeleted : s₁.deleted = s.deleted) (hnext : s₁.mgr.next = s.mgr.next)
    (hnames : (s₁.mgr.serverList.map ServerItem.name).Nodup) (hbelow : s₁.mgr.Below)
    (hholders : ∀ p, holders s₁ p + (if p = q then 1 else 0) = holders s p) :
    Counted (release s₁ q) ∧
      ((∀ p < (release s₁ q).mgr.next, 0 < holders (release s₁ q) p) ↔ 1 < holders s q) := by
  have hq := hholders q
  rw [if_pos rfl] at hq
  have hlt : q < s.mgr.next := h.counted.lt_of_pos (by omega)
  have hcount := h.counted.refcnt q hlt
  have halive : (release s₁ q).deleted = s.deleted :=
    (release_alive (by rw [hrefcnt]; omega)).trans hdeleted
  have hsame : holders (release s₁ q) = holders s₁ := rfl
  refine ⟨⟨hnames, hbelow, fun p hp => ?_, fun p => ?_, fun p hp => ?_⟩, fun hall => ?_,
    fun hlast p hp => ?_⟩
  · have hp' := h.counted.refcnt p (hnext ▸ hp)
    have hp := hholders p
    rw [hsame]
    simp only [release, update_apply, hrefcnt]
    split_ifs at hp ⊢ with heq
    · subst heq
      omega
    · omega
  · rw [halive]
    exact h.counted.alive p
  · have hp' := h.counted.fresh p (hnext.symm.trans_le hp)
    have hp := hholders p
    rw [hsame]
    omega
  · have hpos := hall q (hlt.trans_eq hnext.symm)
    rw [hsame] at hpos
    omega
  · have hp' := h.held p (hp.trans_eq hnext)
    have hp := hholders p
    rw [hsame]
    split_ifs at hp with heq
    · subst heq
      omega
    · omega

theorem removeEndpoint_counted (h : Inv s) (hitem : s.mgr.findServerItem name = some item)
    (identity : Bytes) :
    Counted (removeEndpoint s item identity) ∧
      ((∀ p < (removeEndpoint s item identity).mgr.next,
        0 < holders (removeEndpoint s item identity) p) ↔
          ∀ p ∈ s.mgr.findEndpoint item identity, 1 < holders s p) := by
  unfold removeEndpoint
  cases hfind : s.mgr.findEndpoint item identity with
  | none => exact ⟨h.counted, iff_of_true h.held (by simp)⟩
  | some q =>
      have hq : q ∈ item.endpoints := mem_of_find?_eq_some hfind
      have hrefs := tableRefs_erase h.counted.names hitem hq
      have hnames : (s.mgr.modifyItem item.name fun item =>
          { item with endpoints := item.endpoints.erase q }).serverList.map ServerItem.name =
            s.mgr.serverList.map ServerItem.name := names_modify _ fun _ => rfl
      have hbelow : (s.mgr.modifyItem item.name fun item =>
          { item with endpoints := item.endpoints.erase q }).Below := by
        intro i hi p hp
        obtain ⟨j, hj, rfl⟩ := mem_map.mp hi
        split_ifs at hp
        · exact h.counted.below j hj p (mem_of_mem_erase hp)
        · exact h.counted.below j hj p hp
      simp only [Option.mem_def, Option.some.injEq, forall_eq']
      refine release_counted h rfl rfl rfl (hnames ▸ h.counted.names) hbelow fun p => ?_
      have hp := hrefs p
      simp only [holders]
      omega

theorem removeServerItem_counted (h : Inv s) (hitem : s.mgr.findServerItem name = some item) :
    Counted (removeServerItem s item) ∧
      ((∀ p < (removeServerItem s item).mgr.next, 0 < holders (removeServerItem s item) p) ↔
        ∀ p ∈ item.endpoints, item.endpoints.count p < holders s p) := by
  have hname : item.name = name := by simpa using find?_some hitem
  have hrefs : ∀ p, tableRefs s.mgr p = ((s.mgr.serverList.filter (·.name ≠ name)).map
      fun item => item.endpoints.count p).sum + item.endpoints.count p :=
    fun p => sum_filter h.counted.names hitem
  have hfold : item.endpoints.foldl release s =
      { s with refcnt := fun p => s.refcnt p - item.endpoints.count p } := by
    refine foldl_release _ fun p hp => ?_
    have hcount := h.counted.refcnt p (h.counted.below item (findServerItem_mem hitem) p hp)
    have hp := hrefs p
    rw [holders] at hcount
    omega
  have hholders : ∀ p, holders (removeServerItem s item) p + item.endpoints.count p =
      holders s p := by
    intro p
    have hp := hrefs p
    simp only [holders, removeServerItem, hfold, tableRefs, hname] at hp ⊢
    omega
  have hnext : (removeServerItem s item).mgr.next = s.mgr.next := by
    rw [removeServerItem, hfold]
  refine ⟨⟨?_, fun i hi p hp => ?_, fun p hp => ?_, fun p => ?_, fun p hp => ?_⟩,
    fun hall p hp => ?_, fun hlast p hp => ?_⟩
  · rw [removeServerItem, hfold]
    exact (filter_sublist.map ServerItem.name).nodup h.counted.names
  · rw [removeServerItem, hfold] at hi ⊢
    exact h.counted.below i (mem_filter.mp hi).1 p hp
  · have hcount := h.counted.refcnt p (hp.trans_eq hnext)
    have hp := hholders p
    have hrefcnt : (removeServerItem s item).refcnt p = s.refcnt p - item.endpoints.count p := by
      rw [removeServerItem, hfold]
    omega
  · have halive := h.counted.alive p
    rw [removeServerItem, hfold]
    exact halive
  · have hzero := h.counted.fresh p (hnext.symm.trans_le hp)
    have hp := hholders p
    omega
  · have hlt := h.counted.below item (findServerItem_mem hitem) p hp
    have hpos := hall p (hlt.trans_eq hnext.symm)
    have hp := hholders p
    omega
  · have hpos := h.held p (hp.trans_eq hnext)
    have heq := hholders p
    by_cases hmem : p ∈ item.endpoints
    · have hlt := hlast p hmem
      omega
    · rw [count_eq_zero.mpr hmem] at heq
      omega

/-- **One step**: nothing is deleted, and each endpoint still has a reference exactly if no last
reference is dropped. -/
theorem step_counted (h : Inv s) {c : Call} {r : Unit} (hstep : step config s c = some (s', r)) :
    Counted s' ∧ ((∀ p < s'.mgr.next, 0 < holders s' p) ↔ NoLast s c) := by
  cases c with
  | addServerItem name =>
      cases hstep
      have hinv := addServerItem_inv (s := s) h config name
      exact ⟨hinv.counted, iff_of_true hinv.held trivial⟩
  | addEndpoint name identity vehCnt =>
      simp only [step] at hstep
      cases hitem : s.mgr.findServerItem name with
      | none =>
          simp only [hitem] at hstep
          cases hstep
          exact ⟨h.counted, iff_of_true h.held trivial⟩
      | some item =>
          simp only [hitem] at hstep
          cases hstep
          have hinv := addEndpoint_inv h hitem identity vehCnt
          exact ⟨hinv.counted, iff_of_true hinv.held trivial⟩
  | removeEndpoint name identity =>
      obtain ⟨item, hitem, heq⟩ := Option.map_eq_some_iff.mp hstep
      cases heq
      simpa [NoLast, hitem] using removeEndpoint_counted h hitem identity
  | removeServerItem name =>
      simp only [step] at hstep
      cases hitem : s.mgr.findServerItem name with
      | none =>
          simp only [hitem] at hstep
          cases hstep
          exact ⟨h.counted, iff_of_true h.held (by simp [NoLast, hitem])⟩
      | some item =>
          simp only [hitem] at hstep
          cases hstep
          simpa [NoLast, hitem] using removeServerItem_counted h hitem
  | take q =>
      simp only [step] at hstep
      split_ifs at hstep with hzero
      cases hstep
      have hholders : ∀ p, holders { addref s q with
          pointers := update s.pointers q (s.pointers q + 1) } p =
            holders s p + if p = q then 1 else 0 := by
        intro p
        simp only [holders, addref, update_apply]
        split_ifs with hp
        · subst hp
          omega
        · rfl
      have hlt : q < s.mgr.next := h.counted.lt_of_pos (by omega)
      refine ⟨⟨h.counted.names, h.counted.below, fun p hp => ?_, h.counted.alive, fun p hp => ?_⟩,
        iff_of_true (fun p hp => ?_) trivial⟩
      · have hcount := h.counted.refcnt p hp
        rw [hholders]
        simp only [addref, update_apply]
        split_ifs with hp'
        · subst hp'
          push_cast
          omega
        · exact hcount
      · have hold := h.counted.fresh p hp
        have hne : p ≠ q := fun heq => by
          subst heq
          exact absurd hlt (Nat.not_lt.mpr hp)
        rw [hholders, if_neg hne, hold]
      · have hpos := h.held p hp
        rw [hholders]
        omega
  | drop q =>
      simp only [step] at hstep
      split_ifs at hstep with hzero
      cases hstep
      refine release_counted h rfl rfl rfl h.counted.names h.counted.below fun p => ?_
      simp only [holders, update_apply]
      split_ifs with hp
      · subst hp
        omega
      · rfl

end Step

theorem inv_new : Inv .new where
  counted := ⟨nodup_nil, by simp [Below, State.new, ServerEndpointMgr.new],
    fun p hp => absurd hp (Nat.not_lt_zero p), fun _ => rfl, fun _ _ => rfl⟩
  held := fun p hp => absurd hp (Nat.not_lt_zero p)

/-- What `release_all_nodes` is for: it ends, and no item is left and with it no reference of the
table. -/
def ReleasesAll (mgr : ServerEndpointMgr) : Prop :=
  ∃ mgr', releaseAllNodes mgr = some mgr' ∧ mgr'.serverList = []

theorem not_releasesAll (mgr : ServerEndpointMgr) : ¬ ReleasesAll mgr := by
  rintro ⟨mgr', h, hnil⟩
  cases hlist : mgr.serverList with
  | nil => simp [releaseAllNodes, hlist] at h
  | cons item items =>
      simp only [releaseAllNodes, hlist, Option.some.injEq] at h
      rw [← h, hlist] at hnil
      cases hnil

/-- **When endpoints live as long as they should**: in all states of a run exactly if no call drops
the last reference to an endpoint. No table is released. -/
theorem lifetime_iff_noLast (config : Bytes → Sysconfig) (calls : List Call) :
    ((∀ pre, pre <+: calls → ∀ s rs, run (step config) .new pre = some (s, rs) → Exact s) ↔
      Guarded (step config) (fun s c => (step config s c).isSome → NoLast s c) .new calls) ∧
    ∀ mgr, ¬ ReleasesAll mgr := by
  refine ⟨run_iff_guarded (I := Inv) (fun s h => h.counted.exact_iff.mpr h.held) ?_ ?_
    inv_new, not_releasesAll⟩
  · intro s c s' r h hstep hlast
    obtain ⟨hcounted, hiff⟩ := step_counted h hstep
    exact ⟨hcounted, hiff.mpr hlast⟩
  · intro s c s' r h hstep hlast hexact
    obtain ⟨hcounted, hiff⟩ := step_counted h hstep
    exact hlast (hiff.mp (hcounted.exact_iff.mp hexact))

/-- An endpoint that nothing but the table refers to is removed: its count is 0, and it is not
deleted. -/
theorem left_alive : ∃ s rs, run (step (oneServer 1)) .new
    [.addServerItem [1], .addEndpoint [1] [2] 0, .removeEndpoint [1] [2]] = some (s, rs) ∧
      ¬ Exact s := by
  obtain ⟨⟨s, rs⟩, hrun, hs⟩ := exists_of_any
    (show (run (step (oneServer 1)) .new
      [.addServerItem [1], .addEndpoint [1] [2] 0, .removeEndpoint [1] [2]]).any (fun p => decide
        (0 < p.1.mgr.next ∧ p.1.deleted 0 = false ∧ holders p.1 0 = 0)) = true by decide +kernel)
  obtain ⟨hlt, halive, hzero⟩ := of_decide_eq_true hs
  refine ⟨s, rs, hrun, fun h => ?_⟩
  rw [(h 0 hlt).mpr hzero] at halive
  cases halive

end V2I.Indexing.Lifetime
