import Mathlib.Data.List.GetD
import V2I.Lib.SortedArray
import V2I.Ota.TreeDigest

/-!
# V2I.Ota.OtaPackage

A package that is applied: `ota_package::update` (`ota-package.cpp`), which scans the source
directory and copies what the package does not delete to another directory, before the directories
that are new are made there. Links are not modelled, and every directory can be read.

The table of deleted objects is sorted when the package is loaded, and searched for every object of
the source directory while that is scanned.

-/

namespace V2I.Ota

open SortedArray List

/-- `-EBADPARM` -/
def badParm : ℤ := -1000

/-- `strcmp`, of strings that end where a zero would stand. -/
def strcmp (a b : Bytes) : Ordering := List.compareLex compare a b

instance : Std.TransCmp strcmp :=
  inferInstanceAs (Std.TransCmp (List.compareLex (compare : UInt8 → UInt8 → Ordering)))

instance : Std.LawfulEqCmp strcmp :=
  inferInstanceAs (Std.LawfulEqCmp (List.compareLex (compare : UInt8 → UInt8 → Ordering)))

/-- A package that is loaded: the string section, and the ids in it that the tables of the deleted
objects and of the new directories have. -/
structure OtaPackage where
  strings : Bytes
  deleted : List ℕ
  newDirs : List ℕ
  terminated : ∀ b ∈ strings.getLast?, b = 0
  deleted_lt : ∀ strid ∈ deleted, strid < strings.length
  newDirs_lt : ∀ strid ∈ newDirs, strid < strings.length

/-- `_copy_dirlist` and `_copy_filelist`: the names of the objects. -/
structure CopyLists where
  dirlist : List Bytes
  filelist : List Bytes

/-- What the file system is asked for. -/
inductive FileOp
  | createdir (path : Bytes)
  | copySingleFile (src dst : Bytes)
  deriving DecidableEq

namespace OtaPackage

/-! ## the table of deleted objects -/

/-- `get_string`, of an id that is in the string section. -/
def getString (p : OtaPackage) (strid : ℕ) : Bytes := (p.strings.drop strid).takeWhile (· ≠ 0)

/-- `delobj_sorter` -/
def delobjSorter (p : OtaPackage) (a b : ℕ) : Ordering := strcmp (p.getString a) (p.getString b)

/-- `delobj_compare`: it is the full path of the object that is compared. -/
def delobjCompare (p : OtaPackage) (fullpath : Bytes) (b : ℕ) : Ordering :=
  strcmp fullpath (p.getString b)

/-- `_delobj_sect`, as `sort_deleted_object` leaves it. -/
def delobjSect (p : OtaPackage) : ℤ → ℕ :=
  quickSort p.delobjSorter (fun i => p.deleted.getD i.toNat 0) 0 (p.deleted.length - 1)

/-- The `binary_search` of the listener. -/
def search (p : OtaPackage) (fullpath : Bytes) : Option ℕ :=
  binarySearch (p.delobjCompare fullpath) p.delobjSect 0 (p.deleted.length - 1)

/-- The names of the deleted objects. -/
def names (p : OtaPackage) : List Bytes := p.deleted.map p.getString

/-! ## the scan -/

/-- `on_handle_dir` of `srcflist_listener` -/
def onHandleDir (p : OtaPackage) (useCopy : Bool) (l : CopyLists) (fullpath name : Bytes) :
    CopyLists :=
  if useCopy && (p.search fullpath).isNone then { l with dirlist := l.dirlist ++ [name] } else l

/-- `on_handle_file` of `srcflist_listener` -/
def onHandleFile (p : OtaPackage) (useCopy : Bool) (l : CopyLists) (fullpath name : Bytes) :
    CopyLists :=
  if useCopy && (p.search fullpath).isNone then { l with filelist := l.filelist ++ [name] } else l

/-- The loop of `do_loaddir` over the entries of a directory. -/
def handleEntries (p : OtaPackage) (useCopy : Bool) (srcdir : Bytes) (l : CopyLists)
    (nodes : List Node) : CopyLists :=
  nodes.foldl
    (fun l nd => if nd.isdir then l else p.onHandleFile useCopy l (srcdir ++ nd.name) nd.name) l

/-- `do_loaddir`, of a directory in the source directory. -/
def doLoaddir (p : OtaPackage) (useCopy : Bool) (srcdir : Bytes) (l : CopyLists) (v : Visit) :
    CopyLists :=
  p.handleEntries useCopy srcdir (p.onHandleDir useCopy l (srcdir ++ v.name) v.name) v.nodes

/-- `loaddir` of the source directory. Its own `fileinfo` is not in the list any more afterwards:
`root` is a local variable, which leaves the list where `loaddir` returns. -/
def loaddir (p : OtaPackage) (useCopy : Bool) (srcdir : Root) (t : Tree) : CopyLists :=
  match Ota.loaddir srcdir.val t.val with
  | [] => ⟨[], []⟩
  | root :: dirs =>
      dirs.foldl (p.doLoaddir useCopy srcdir.val)
        (p.handleEntries useCopy srcdir.val ⟨[], []⟩ root.nodes)

/-! ## update -/

section

-- `sys done op` says whether `op` succeeds after what is `done`
variable (sys : List FileOp → FileOp → Bool)

/-- `copy_create_dirs` does not look at what `createdir` returns. -/
def copyCreateDirs (dstdir : Bytes) (l : CopyLists) : List FileOp :=
  l.dirlist.map fun name => .createdir (dstdir ++ name)

/-- The loops of `copy_files` and `create_new_dirs`, which end where something fails. -/
def runAll (done : List FileOp) : List FileOp → ℤ × List FileOp
  | [] => (0, done)
  | op :: ops => if sys done op then runAll (done ++ [op]) ops else (-1, done ++ [op])

/-- `copy_files` -/
def copyFiles (srcdir dstdir : Bytes) (l : CopyLists) (done : List FileOp) : ℤ × List FileOp :=
  runAll sys done (l.filelist.map fun name => .copySingleFile (srcdir ++ name) (dstdir ++ name))

/-- `copy_objects` -/
def copyObjects (srcdir dstdir : Bytes) (l : CopyLists) : ℤ × List FileOp :=
  let (ret, done) := copyFiles sys srcdir dstdir l (copyCreateDirs dstdir l)
  if ret ≠ 0 then (-2, done) else (0, done)

/-- `create_new_dirs` -/
def createNewDirs (p : OtaPackage) (dstdir : Bytes) (done : List FileOp) : ℤ × List FileOp :=
  runAll sys done (p.newDirs.map fun strid => .createdir (dstdir ++ p.getString strid))

/-- What `update` does with directories that have names; `create_new_files` does nothing. -/
def updateDir (p : OtaPackage) (srcdir : Root) (dstdir : Bytes) (t : Tree) : ℤ × List FileOp :=
  let bcopy := decide (srcdir.val ≠ dstdir)
  let l := p.loaddir bcopy srcdir t
  let (ret, done) := if bcopy then copyObjects sys srcdir.val dstdir l else (0, [])
  if ret ≠ 0 then (ret, done) else createNewDirs sys p dstdir done

/-- `update`, and what it asks the file system for. -/
def update (p : OtaPackage) (srcdir dstdir : Option Bytes) (t : Tree) : ℤ × List FileOp :=
  match srcdir with
  | none => (badParm, [])
  | some srcdir =>
      if h : srcdir = [] then (badParm, [])
      else
        match dstdir with
        | none => updateDir sys p ⟨srcdir, h⟩ srcdir t
        | some dstdir =>
            if dstdir = [] then (badParm, []) else updateDir sys p ⟨srcdir, h⟩ dstdir t

end

/-! ## what should be copied -/

/-- How an object gets to the other directory. -/
def copyOf (srcdir : Root) (dstdir : Bytes) (o : Node) : FileOp :=
  if o.isdir then .createdir (dstdir ++ o.name)
  else .copySingleFile (srcdir.val ++ o.name) (dstdir ++ o.name)

/-- The directory `d` is above `o`. -/
def Above (d o : Node) : Prop := d.isdir ∧ d.name ++ [slash] <+: o.name

instance (d o : Node) : Decidable (Above d o) := inferInstanceAs (Decidable (_ ∧ _))

/-- What is neither deleted nor in a directory that is. -/
def kept (p : OtaPackage) (srcdir : Root) (t : Tree) : List Node :=
  (created srcdir t).filter fun o =>
    o.name ∉ p.names ∧ ∀ d ∈ created srcdir t, d.name ∈ p.names → ¬Above d o

/-- Deleted objects do not survive. -/
structure Deletes (sys : List FileOp → FileOp → Bool) (p : OtaPackage) (srcdir : Root)
    (dstdir : Bytes) (t : Tree) : Prop where
  found : ∀ o ∈ created srcdir t, (p.search (srcdir.val ++ o.name)).isSome ↔ o.name ∈ p.names
  copied : ∃ ops, ops.Perm ((p.kept srcdir t).map (copyOf srcdir dstdir)) ∧
    p.update sys (some srcdir.val) (some dstdir) t =
      (0, ops ++ p.newDirs.map fun strid => .createdir (dstdir ++ p.getString strid))

/-! ## the search -/

instance (p : OtaPackage) : Std.TransCmp p.delobjSorter where
  eq_swap {a b} := by
    have hswap : strcmp (p.getString a) (p.getString b) =
        (strcmp (p.getString b) (p.getString a)).swap := Std.OrientedCmp.eq_swap
    exact hswap
  isLE_trans {a b c} hab hbc := by
    have htrans : (strcmp (p.getString a) (p.getString c)).isLE :=
      Std.TransCmp.isLE_trans hab hbc
    exact htrans

/-- Both comparison functions have the objects in the same order. -/
theorem delobjCompare_lt (p : OtaPackage) (fullpath : Bytes) (a b : ℕ)
    (hle : (p.delobjSorter a b).isLE) (hlt : p.delobjCompare fullpath a = .lt) :
    p.delobjCompare fullpath b = .lt :=
  Std.TransCmp.lt_of_lt_of_isLE hlt hle

theorem delobjCompare_gt (p : OtaPackage) (fullpath : Bytes) (a b : ℕ)
    (hle : (p.delobjSorter a b).isLE) (hgt : p.delobjCompare fullpath b = .gt) :
    p.delobjCompare fullpath a = .gt := by
  have hlt : strcmp (p.getString b) fullpath = .lt := Std.OrientedCmp.gt_iff_lt.1 hgt
  exact Std.OrientedCmp.gt_iff_lt.2 (Std.TransCmp.lt_of_isLE_of_lt hle hlt)

/-- **The search finds what is in the table**, whatever the order of the table was. -/
theorem search_isSome (p : OtaPackage) (fullpath : Bytes) :
    (p.search fullpath).isSome ↔ fullpath ∈ p.names := by
  rw [search, delobjSect, binarySearch_quickSort_isSome_iff (p.delobjCompare_lt fullpath)
    (p.delobjCompare_gt fullpath), names, mem_map]
  constructor
  · rintro ⟨i, hi, hle, heq⟩
    have hlt : i.toNat < p.deleted.length := by omega
    rw [getD_eq_getElem _ _ hlt] at heq
    exact ⟨_, getElem_mem hlt, (Std.LawfulEqCmp.eq_of_compare heq).symm⟩
  · rintro ⟨strid, hmem, heq⟩
    obtain ⟨i, hlt, rfl⟩ := getElem_of_mem hmem
    refine ⟨i, by omega, by omega, ?_⟩
    rw [Int.toNat_natCast, getD_eq_getElem _ _ hlt, delobjCompare, heq]
    exact Std.ReflCmp.compare_self

/-! ## the scan -/

/-- What the listener lets through. -/
def passes (p : OtaPackage) (srcdir : Root) (name : Bytes) : Bool :=
  (p.search (srcdir.val ++ name)).isNone

variable {p : OtaPackage} {srcdir : Root} (l : CopyLists)

theorem handleEntries_dirlist (nodes : List Node) :
    (p.handleEntries true srcdir.val l nodes).dirlist = l.dirlist := by
  induction nodes generalizing l with
  | nil => rfl
  | cons nd nodes ih =>
      rw [handleEntries, foldl_cons]
      refine (ih _).trans ?_
      rw [onHandleFile]
      split
      · rfl
      · split <;> rfl

theorem handleEntries_filelist (nodes : List Node) :
    (p.handleEntries true srcdir.val l nodes).filelist =
      l.filelist ++ ((nodes.filter fun o => !o.isdir).map Node.name).filter (p.passes srcdir) := by
  induction nodes generalizing l with
  | nil => exact (append_nil _).symm
  | cons nd nodes ih =>
      rw [handleEntries, foldl_cons]
      refine (ih _).trans ?_
      rw [onHandleFile, Bool.true_and, ← passes]
      cases hdir : nd.isdir
      · rw [if_neg Bool.false_ne_true, filter_cons_of_pos (by rw [hdir]; rfl), map_cons,
          filter_cons]
        split
        · rw [append_assoc, singleton_append]
        · rfl
      · rw [if_pos rfl, filter_cons_of_neg (by rw [hdir]; exact Bool.false_ne_true)]

theorem foldl_doLoaddir_dirlist (dirs : List Visit) :
    (dirs.foldl (p.doLoaddir true srcdir.val) l).dirlist =
      l.dirlist ++ (dirs.map Visit.name).filter (p.passes srcdir) := by
  induction dirs generalizing l with
  | nil => exact (append_nil _).symm
  | cons v dirs ih =>
      rw [foldl_cons, ih, doLoaddir, handleEntries_dirlist, onHandleDir, Bool.true_and,
        ← passes, map_cons, filter_cons]
      split
      · rw [append_assoc, singleton_append]
      · rfl

theorem foldl_doLoaddir_filelist (dirs : List Visit) :
    (dirs.foldl (p.doLoaddir true srcdir.val) l).filelist =
      l.filelist ++ (((dirs.flatMap Visit.nodes).filter fun o => !o.isdir).map
        Node.name).filter (p.passes srcdir) := by
  induction dirs generalizing l with
  | nil => exact (append_nil _).symm
  | cons v dirs ih =>
      have hdir : (p.onHandleDir true l (srcdir.val ++ v.name) v.name).filelist = l.filelist := by
        rw [onHandleDir]
        split <;> rfl
      rw [foldl_cons, ih, doLoaddir, handleEntries_filelist, hdir, flatMap_cons,
        filter_append, map_append, filter_append, append_assoc]

/-- The directory list has the directories that pass. -/
theorem loaddir_dirlist (t : Tree) :
    (p.loaddir true srcdir t).dirlist.Perm
      ((dirNames (created srcdir t)).filter (p.passes srcdir)) := by
  have hnodes := visits_nodes_perm [⟨rootName srcdir.val, rootName srcdir.val, t.val⟩]
  have hnames := visits_name_perm [⟨rootName srcdir.val, rootName srcdir.val, t.val⟩]
  rw [loaddir]
  change (Ota.loaddir srcdir.val t.val).flatMap Visit.nodes |>.Perm _ at hnodes
  change (Ota.loaddir srcdir.val t.val).map Visit.name |>.Perm _ at hnames
  have hroot : ((Ota.loaddir srcdir.val t.val).map Visit.name).head? =
      some (rootName srcdir.val) := by
    rw [Ota.loaddir, visits]
    rfl
  split
  · next heq =>
      rw [heq] at hroot
      cases hroot
  · next root dirs heq =>
      rw [heq, map_cons, head?_cons, Option.some_inj] at hroot
      rw [heq, map_cons, map_singleton, singleton_append, hroot] at hnames
      rw [foldl_doLoaddir_dirlist, handleEntries_dirlist, nil_append]
      refine List.Perm.filter _ (hnames.cons_inv.trans ?_)
      exact ((hnodes.filter _).map _).symm

/-- The file list has the files that pass. -/
theorem loaddir_filelist (t : Tree) :
    (p.loaddir true srcdir t).filelist =
      (((created srcdir t).filter fun o => !o.isdir).map Node.name).filter (p.passes srcdir) := by
  rw [loaddir, created]
  split
  · next heq => rw [heq]; rfl
  · next root dirs heq =>
      rw [foldl_doLoaddir_filelist, handleEntries_filelist, nil_append, heq,
        flatMap_cons, filter_append, map_append, filter_append]

/-! ## update -/

variable {sys : List FileOp → FileOp → Bool} {dstdir : Bytes} {t : Tree}

/-- Where everything succeeds, everything is done. -/
theorem runAll_eq (hsys : ∀ done op, sys done op) (done ops : List FileOp) :
    runAll sys done ops = (0, done ++ ops) := by
  induction ops generalizing done with
  | nil => exact congrArg (Prod.mk 0) (append_nil _).symm
  | cons op ops ih =>
      rw [runAll, if_pos (hsys done op), ih, append_assoc, singleton_append]

/-- What is copied. -/
def copies (p : OtaPackage) (srcdir : Root) (dstdir : Bytes) (t : Tree) : List FileOp :=
  let l := p.loaddir true srcdir t
  copyCreateDirs dstdir l ++
    l.filelist.map fun name => .copySingleFile (srcdir.val ++ name) (dstdir ++ name)

theorem update_eq (hsys : ∀ done op, sys done op) (hdst : dstdir ≠ []) (hne : srcdir.val ≠ dstdir) :
    p.update sys (some srcdir.val) (some dstdir) t =
      (0, p.copies srcdir dstdir t ++
        p.newDirs.map fun strid => .createdir (dstdir ++ p.getString strid)) := by
  rw [update, dif_neg srcdir.2]
  dsimp only
  rw [if_neg hdst, updateDir, decide_eq_true hne]
  dsimp only
  rw [if_pos rfl, copyObjects, copyFiles, runAll_eq hsys]
  dsimp only
  rw [if_neg fun h => h rfl, if_neg fun h => h rfl, createNewDirs, runAll_eq hsys]
  rfl

/-- Every object that passes is copied, once. -/
theorem copies_perm (p : OtaPackage) (srcdir : Root) (dstdir : Bytes) (t : Tree) :
    (p.copies srcdir dstdir t).Perm
      (((created srcdir t).filter fun o => p.passes srcdir o.name).map
        (copyOf srcdir dstdir)) := by
  have hdirs : (copyCreateDirs dstdir (p.loaddir true srcdir t)).Perm
      ((((created srcdir t).filter fun o => p.passes srcdir o.name).filter Node.isdir).map
        (copyOf srcdir dstdir)) := by
    refine ((loaddir_dirlist t).map _).trans (List.Perm.of_eq ?_)
    rw [dirNames, filter_map, map_map, filter_comm]
    refine map_congr_left fun o ho => ?_
    exact (if_pos (mem_filter.1 ho).2).symm
  have hfiles : ((p.loaddir true srcdir t).filelist.map fun name =>
      FileOp.copySingleFile (srcdir.val ++ name) (dstdir ++ name)) =
      (((created srcdir t).filter fun o => p.passes srcdir o.name).filter fun o => !o.isdir).map
        (copyOf srcdir dstdir) := by
    rw [loaddir_filelist, filter_map, map_map, filter_comm]
    refine map_congr_left fun o ho => ?_
    have hfile : ¬o.isdir := by simpa using (mem_filter.1 ho).2
    exact (if_neg hfile).symm
  rw [copies, hfiles]
  refine (hdirs.append_right _).trans ?_
  rw [← map_append]
  exact (filter_append_perm _ _).map _

/-- No two objects are copied in the same way. -/
theorem copyOf_injOn {a b : Node} (ha : a ∈ created srcdir t) (hb : b ∈ created srcdir t)
    (heq : copyOf srcdir dstdir a = copyOf srcdir dstdir b) : a = b := by
  have hname : a.name = b.name := by
    rw [copyOf, copyOf] at heq
    split at heq <;> split at heq <;> simp_all
  exact inj_on_of_nodup_map (nodup_cons.1 (nodup_created srcdir t)).2 ha hb hname

/-- What passes is what should be kept. -/
theorem copies_perm_kept_iff :
    (p.copies srcdir dstdir t).Perm ((p.kept srcdir t).map (copyOf srcdir dstdir)) ↔
      ∀ o ∈ created srcdir t, p.passes srcdir o.name ↔ o ∈ p.kept srcdir t := by
  have hperm := p.copies_perm srcdir dstdir t
  constructor
  · intro h o ho
    have hmem := (hperm.symm.trans h).mem_iff (a := copyOf srcdir dstdir o)
    constructor
    · intro hpass
      obtain ⟨o', ho', heq⟩ := mem_map.1
        (hmem.1 (mem_map_of_mem (mem_filter.2 ⟨ho, hpass⟩)))
      rwa [← copyOf_injOn (mem_filter.1 ho').1 ho heq]
    · intro hkept
      obtain ⟨o', ho', heq⟩ := mem_map.1 (hmem.2 (mem_map_of_mem hkept))
      obtain ⟨hmem', hpass⟩ := mem_filter.1 ho'
      rwa [← copyOf_injOn hmem' ho heq]
  · intro h
    refine hperm.trans (List.Perm.of_eq (congrArg _ (filter_congr fun o ho => ?_)))
    have hiff := h o ho
    rw [kept, mem_filter, and_iff_right ho] at hiff
    exact Bool.eq_iff_iff.2 hiff

/-- **When nothing survives that is deleted**: the table has the full path of an object if it has
its name and only then, and what is in a directory of the table it has too. -/
theorem deletes_iff (hsys : ∀ done op, sys done op) (hdst : dstdir ≠ [])
    (hne : srcdir.val ≠ dstdir) :
    Deletes sys p srcdir dstdir t ↔
      (∀ o ∈ created srcdir t, srcdir.val ++ o.name ∈ p.names ↔ o.name ∈ p.names) ∧
        ∀ d ∈ created srcdir t, d.name ∈ p.names →
          ∀ o ∈ created srcdir t, Above d o → o.name ∈ p.names := by
  have hpasses {o : Node} : p.passes srcdir o.name ↔ srcdir.val ++ o.name ∉ p.names := by
    rw [passes, ← search_isSome, Option.isNone_iff_eq_none, Option.not_isSome_iff_eq_none]
  have hkept {o : Node} (ho : o ∈ created srcdir t) : o ∈ p.kept srcdir t ↔
      o.name ∉ p.names ∧ ∀ d ∈ created srcdir t, d.name ∈ p.names → ¬Above d o := by
    rw [kept, mem_filter, and_iff_right ho, decide_eq_true_eq]
  constructor
  · rintro ⟨hfound, ops, hops, hupdate⟩
    rw [update_eq hsys hdst hne, Prod.mk.injEq, append_left_inj] at hupdate
    rw [← hupdate.2, copies_perm_kept_iff] at hops
    have hnames (o : Node) (ho : o ∈ created srcdir t) :
        srcdir.val ++ o.name ∈ p.names ↔ o.name ∈ p.names := by
      rw [← search_isSome]
      exact hfound o ho
    refine ⟨hnames, fun d hd hdel o ho habove => ?_⟩
    by_contra hnot
    have hpass : p.passes srcdir o.name := hpasses.2 fun h => hnot ((hnames o ho).1 h)
    exact ((hkept ho).1 ((hops o ho).1 hpass)).2 d hd hdel habove
  · rintro ⟨hnames, hcontents⟩
    refine ⟨fun o ho => ?_, p.copies srcdir dstdir t, copies_perm_kept_iff.2 fun o ho => ?_,
      update_eq hsys hdst hne⟩
    · rw [search_isSome]
      exact hnames o ho
    · rw [hpasses, hnames o ho, hkept ho]
      exact ⟨fun hnot => ⟨hnot, fun d hd hdel habove => hnot (hcontents d hd hdel o ho habove)⟩,
        And.left⟩

/-! ## what survives -/

/-- `/a` and `/b` -/
def twoFiles : Tree :=
  ⟨.file [97] [1] (.file [98] [2] .nil),
    by
      refine ⟨⟨by decide, by decide, by decide⟩, by decide, ⟨by decide, by decide, by decide⟩,
        by decide, trivial⟩⟩

/-- It has `/a` and `/s/a` in its table, and makes `/d`. -/
def bothDeleted : OtaPackage where
  strings := [47, 97, 0, 47, 115, 47, 97, 0, 47, 100, 0]
  deleted := [0, 3]
  newDirs := [8]
  terminated _ hb := (Option.some.inj hb).symm
  deleted_lt := by decide
  newDirs_lt := by decide

/-- It deletes `/a`. -/
def fileDeleted : OtaPackage where
  strings := [47, 97, 0]
  deleted := [0]
  newDirs := []
  terminated _ hb := (Option.some.inj hb).symm
  deleted_lt := by decide
  newDirs_lt := by decide

/-- `/s` -/
def source : Root := ⟨[47, 115], by decide⟩

theorem mem_created_twoFiles {o : Node} : o ∈ created source twoFiles ↔
    o = ⟨[47, 97], [47], false, [1]⟩ ∨ o = ⟨[47, 98], [47], false, [2]⟩ := by
  have hnodes : twoFiles.nodes source =
      [⟨[47, 97], [47], false, [1]⟩, ⟨[47, 98], [47], false, [2]⟩] := rfl
  rw [(created_perm source twoFiles).mem_iff, hnodes, mem_pair]

/-- `/a` is deleted, and only `/b` is copied to `/t`. -/
theorem deletes_twoFiles : Deletes (fun _ _ => true) bothDeleted source [47, 116] twoFiles := by
  refine (deletes_iff (fun _ _ => rfl) (by decide) (by decide)).2
    ⟨fun o ho => ?_, fun d hd hdel o ho habove => ?_⟩
  · obtain rfl | rfl := mem_created_twoFiles.1 ho <;> decide
  · obtain rfl | rfl := mem_created_twoFiles.1 hd
    · exact absurd habove.1 (by decide)
    · exact absurd hdel (by decide)

/-- `/a` is deleted, but `/s/a` is not found. -/
theorem not_deletes_twoFiles :
    ¬Deletes (fun _ _ => true) fileDeleted source [47, 116] twoFiles := by
  intro h
  have hfound := (h.found _ (mem_created_twoFiles.2 (.inl rfl))).2 (by decide)
  exact absurd ((search_isSome _ _).1 hfound) (by decide)

end OtaPackage

end V2I.Ota
