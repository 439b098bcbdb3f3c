import Mathlib.Algebra.GroupWithZero.Nat
import Mathlib.Data.List.Nodup
import Mathlib.Data.List.Perm.Basic
import Mathlib.Data.List.TakeWhile
import V2I.Zasbsc

/-!
# V2I.Ota.Tree

The directory trees that are packed for an update, and the scan of `loaddir` and `do_loaddir`
that the file lists of the packaging tool (`otapack/filelist.cpp`) and of the middleware
(`mware/filelist.cpp`) share: directories are read one by one, breadth first, and what is found
in them gets its path behind the root as its name.

The lemmas on `Dir.all` say what a scan finds, whatever the order: each object once, and under a
directory that is found too.
-/

namespace V2I.Ota

open List

/-- `'/'` -/
def slash : UInt8 := 47

/-- A directory as `readdir` gives its entries, in that order: regular files and directories. -/
inductive Dir
  | nil
  | file (name content : Bytes) (rest : Dir)
  | dir (name : Bytes) (entries rest : Dir)
  deriving DecidableEq

/-- What the system takes as the name of an entry, `.` and `..` aside. -/
structure ValidName (name : Bytes) : Prop where
  ne_nil : name ≠ []
  no_slash : slash ∉ name
  no_zero : 0 ∉ name

namespace Dir

/-- The names of the entries. -/
def names : Dir → List Bytes
  | nil => []
  | file name _ rest => name :: rest.names
  | dir name _ rest => name :: rest.names

/-- The entries of each directory have names, and different ones. -/
def Valid : Dir → Prop
  | nil => True
  | file name _ rest => ValidName name ∧ name ∉ rest.names ∧ rest.Valid
  | dir name entries rest =>
      ValidName name ∧ name ∉ rest.names ∧ entries.Valid ∧ rest.Valid

/-- The number of entries, all the way down. -/
def size : Dir → ℕ
  | nil => 1
  | file _ _ rest => rest.size + 1
  | dir _ entries rest => entries.size + rest.size + 1

end Dir

/-- A node of a file list: its name is its path behind the root, `parents` that of the directory
in which it was found. -/
structure Node where
  name : Bytes
  parents : Bytes
  isdir : Bool
  content : Bytes
  deriving DecidableEq

/-- A directory that waits to be read: `path` is `get_fullpath()` behind the root. -/
structure Pending where
  name : Bytes
  path : Bytes
  entries : Dir

namespace Dir

/-- The nodes that are created where a directory is read. -/
def nodes (parents path : Bytes) : Dir → List Node
  | nil => []
  | file name content rest => ⟨path ++ name, parents, false, content⟩ :: rest.nodes parents path
  | dir name _ rest => ⟨path ++ name, parents, true, []⟩ :: rest.nodes parents path

/-- The directories among them, which go to the pending ones. -/
def subdirs (path : Bytes) : Dir → List Pending
  | nil => []
  | file _ _ rest => rest.subdirs path
  | dir name entries rest =>
      ⟨path ++ name, path ++ name ++ [slash], entries⟩ :: rest.subdirs path

theorem size_subdirs_lt (path : Bytes) (d : Dir) :
    ((d.subdirs path).map fun p => p.entries.size).sum < d.size := by
  induction d with
  | nil => exact Nat.one_pos
  | file name content rest ih => exact Nat.lt_succ_of_lt ih
  | dir name entries rest _ ih =>
      rw [subdirs, map_cons, sum_cons, size]
      show entries.size + _ < _
      omega

end Dir

/-- A directory that is read, and the nodes that are created for its entries. -/
structure Visit where
  name : Bytes
  nodes : List Node
  deriving DecidableEq

/-- The loop over the pending directories. -/
def visits : List Pending → List Visit
  | [] => []
  | p :: pending =>
      ⟨p.name, p.entries.nodes p.name p.path⟩ :: visits (pending ++ p.entries.subdirs p.path)
  termination_by pending => (pending.map fun p => p.entries.size).sum
  decreasing_by
    rw [map_append, sum_append, map_cons, sum_cons]
    have := p.entries.size_subdirs_lt p.path
    omega

/-- The name of the root, and the path of its entries behind it. -/
def rootName (root : Bytes) : Bytes := if root.getLast? = some slash then [] else [slash]

/-- What `loaddir` reads. -/
def loaddir (root : Bytes) (d : Dir) : List Visit := visits [⟨rootName root, rootName root, d⟩]

/-! ## what is found -/

namespace Dir

/-- All nodes below a directory, depth first. -/
def all (parents path : Bytes) : Dir → List Node
  | nil => []
  | file name content rest => ⟨path ++ name, parents, false, content⟩ :: rest.all parents path
  | dir name entries rest =>
      ⟨path ++ name, parents, true, []⟩ ::
        (entries.all (path ++ name) (path ++ name ++ [slash]) ++ rest.all parents path)

end Dir

/-- All nodes below a pending directory. -/
def Pending.all (p : Pending) : List Node := p.entries.all p.name p.path

theorem Dir.all_perm (parents path : Bytes) (d : Dir) :
    (d.all parents path).Perm (d.nodes parents path ++ (d.subdirs path).flatMap Pending.all) := by
  induction d generalizing parents path with
  | nil => exact .nil
  | file name content rest ih => exact (ih parents path).cons _
  | dir name entries rest _ ih =>
      rw [all, nodes, subdirs, flatMap_cons, cons_append]
      refine .cons _ ?_
      refine ((ih parents path).append_left _).trans ?_
      rw [← append_assoc, ← append_assoc]
      exact perm_append_comm.append_right _

variable (pending : List Pending)

/-- The scan creates each node once. -/
theorem visits_nodes_perm :
    ((visits pending).flatMap Visit.nodes).Perm (pending.flatMap Pending.all) := by
  fun_induction visits pending with
  | case1 => exact .nil
  | case2 p pending ih =>
      rw [flatMap_cons, flatMap_cons]
      refine (ih.append_left _).trans ?_
      rw [flatMap_append]
      refine (perm_append_comm.append_left _).trans ?_
      rw [← append_assoc]
      exact (p.entries.all_perm p.name p.path).symm.append_right _

theorem Dir.map_name_subdirs (parents path : Bytes) (d : Dir) :
    (d.subdirs path).map Pending.name =
      ((d.nodes parents path).filter Node.isdir).map Node.name := by
  induction d with
  | nil => rfl
  | file name content rest ih => exact ih
  | dir name entries rest _ ih => exact congrArg (_ :: ·) ih

/-- The names of the directories among nodes. -/
def dirNames (nodes : List Node) : List Bytes := (nodes.filter Node.isdir).map Node.name

/-- The scan reads each directory once. -/
theorem visits_name_perm :
    ((visits pending).map Visit.name).Perm
      (pending.map Pending.name ++ dirNames (pending.flatMap Pending.all)) := by
  fun_induction visits pending with
  | case1 => exact .nil
  | case2 p pending ih =>
      have hall : (dirNames p.all).Perm ((p.entries.subdirs p.path).map Pending.name ++
          dirNames ((p.entries.subdirs p.path).flatMap Pending.all)) := by
        rw [p.entries.map_name_subdirs p.name p.path, dirNames, dirNames, ← map_append,
          ← filter_append]
        exact ((p.entries.all_perm p.name p.path).filter _).map _
      rw [map_cons, map_cons, cons_append]
      refine (ih.trans ?_).cons _
      rw [map_append, append_assoc]
      refine List.Perm.append_left _ ?_
      rw [flatMap_append, flatMap_cons, dirNames, filter_append, map_append,
        dirNames, filter_append, map_append]
      refine (perm_append_comm.append_left _).trans ?_
      rw [← append_assoc]
      exact hall.symm.append_right _

/-! ## names -/

namespace Dir

variable {d : Dir} {parents path : Bytes} {x : Node}

/-- The name of a node goes through an entry of the directory. -/
theorem Valid.name_all (hd : d.Valid) (hx : x ∈ d.all parents path) :
    ∃ n ∈ d.names, ValidName n ∧
      (x.name = path ++ n ∨ ∃ t, t ≠ [] ∧ x.name = path ++ (n ++ slash :: t)) := by
  induction d generalizing parents path with
  | nil => cases hx
  | file name content rest ih =>
      obtain ⟨hname, -, hrest⟩ := hd
      obtain rfl | hx := mem_cons.mp hx
      · exact ⟨name, mem_cons_self, hname, .inl rfl⟩
      · obtain ⟨n, hn, h⟩ := ih hrest hx
        exact ⟨n, mem_cons_of_mem name hn, h⟩
  | dir name entries rest ihe ih =>
      obtain ⟨hname, -, hentries, hrest⟩ := hd
      obtain rfl | hx := mem_cons.mp hx
      · exact ⟨name, mem_cons_self, hname, .inl rfl⟩
      obtain hx | hx := mem_append.mp hx
      · refine ⟨name, mem_cons_self, hname, .inr ?_⟩
        obtain ⟨n, -, hn, heq | ⟨t, -, heq⟩⟩ := ihe hentries hx
        · exact ⟨n, hn.ne_nil, by rw [heq]; simp⟩
        · exact ⟨n ++ slash :: t, by simp, by rw [heq]; simp⟩
      · obtain ⟨n, hn, h⟩ := ih hrest hx
        exact ⟨n, mem_cons_of_mem name hn, h⟩

/-- The name of the entry of the directory at `path` that a name goes through. -/
def entryOf (path name : Bytes) : Bytes := (name.drop path.length).takeWhile (· ≠ slash)

theorem entryOf_append {n : Bytes} (hn : slash ∉ n) : entryOf path (path ++ n) = n := by
  rw [entryOf, drop_left, takeWhile_eq_self_iff]
  intro b hb
  exact decide_eq_true fun heq => hn (heq ▸ hb)

theorem entryOf_append_slash {n : Bytes} (hn : slash ∉ n) (t : Bytes) :
    entryOf path (path ++ (n ++ slash :: t)) = n := by
  rw [entryOf, drop_left, takeWhile_append_of_pos, takeWhile_cons_of_neg]
  · exact append_nil n
  · exact fun h => of_decide_eq_true h rfl
  · intro b hb
    exact decide_eq_true fun heq => hn (heq ▸ hb)

theorem Valid.entryOf_mem (hd : d.Valid) (hx : x ∈ d.all parents path) :
    entryOf path x.name ∈ d.names := by
  obtain ⟨n, hmem, hn, heq | ⟨t, -, heq⟩⟩ := hd.name_all hx
  · rwa [heq, entryOf_append hn.no_slash]
  · rwa [heq, entryOf_append_slash hn.no_slash]

theorem Valid.name_ne_path (hd : d.Valid) (hx : x ∈ d.all parents path) : x.name ≠ path := by
  obtain ⟨n, -, hn, heq | ⟨t, -, heq⟩⟩ := hd.name_all hx
  · rw [heq]
    simpa using hn.ne_nil
  · rw [heq]
    simp

/-- No two nodes have the same name. -/
theorem Valid.nodup_all (hd : d.Valid) (parents path : Bytes) :
    ((d.all parents path).map Node.name).Nodup := by
  induction d generalizing parents path with
  | nil => exact nodup_nil
  | file name content rest ih =>
      obtain ⟨hname, hnew, hrest⟩ := hd
      rw [all, map_cons, nodup_cons]
      refine ⟨fun hmem => hnew ?_, ih hrest parents path⟩
      obtain ⟨x, hx, heq⟩ := mem_map.mp hmem
      have hentry := hrest.entryOf_mem hx
      rwa [heq, entryOf_append hname.no_slash] at hentry
  | dir name entries rest ihe ih =>
      obtain ⟨hname, hnew, hentries, hrest⟩ := hd
      -- what lies below the directory goes through its name
      have hbelow : ∀ x ∈ entries.all (path ++ name) (path ++ name ++ [slash]),
          ∃ t, t ≠ [] ∧ x.name = path ++ (name ++ slash :: t) := by
        intro x hx
        obtain ⟨n, -, hn, heq | ⟨t, -, heq⟩⟩ := hentries.name_all hx
        · exact ⟨n, hn.ne_nil, by rw [heq]; simp⟩
        · exact ⟨n ++ slash :: t, by simp, by rw [heq]; simp⟩
      rw [all, map_cons, nodup_cons, map_append, mem_append, not_or, nodup_append]
      refine ⟨⟨fun hmem => ?_, fun hmem => hnew ?_⟩, ihe hentries _ _, ih hrest _ _, ?_⟩
      · obtain ⟨x, hx, heq⟩ := mem_map.mp hmem
        obtain ⟨t, ht, hname'⟩ := hbelow x hx
        rw [hname'] at heq
        simp at heq
      · obtain ⟨x, hx, heq⟩ := mem_map.mp hmem
        have hentry := hrest.entryOf_mem hx
        rwa [heq, entryOf_append hname.no_slash] at hentry
      · intro a ha b hb heq
        obtain ⟨x, hx, rfl⟩ := mem_map.mp ha
        obtain ⟨y, hy, rfl⟩ := mem_map.mp hb
        obtain ⟨t, -, hname'⟩ := hbelow x hx
        have hentry := hrest.entryOf_mem hy
        rw [← heq, hname', entryOf_append_slash hname.no_slash] at hentry
        exact hnew hentry

/-- A node lies in the directory itself, or in one that is found below it. -/
theorem Valid.parents_all (hd : d.Valid) (hx : x ∈ d.all parents path) :
    ∃ n, ValidName n ∧ ((x.parents = parents ∧ x.name = path ++ n) ∨
      (∃ y ∈ d.all parents path, y.isdir = true ∧ y.name = x.parents) ∧
        x.name = x.parents ++ slash :: n) := by
  induction d generalizing parents path with
  | nil => cases hx
  | file name content rest ih =>
      obtain ⟨hname, -, hrest⟩ := hd
      obtain rfl | hx := mem_cons.mp hx
      · exact ⟨name, hname, .inl ⟨rfl, rfl⟩⟩
      · obtain ⟨n, hn, h | ⟨⟨y, hy, h⟩, heq⟩⟩ := ih hrest hx
        · exact ⟨n, hn, .inl h⟩
        · exact ⟨n, hn, .inr ⟨⟨y, mem_cons_of_mem _ hy, h⟩, heq⟩⟩
  | dir name entries rest ihe ih =>
      obtain ⟨hname, -, hentries, hrest⟩ := hd
      obtain rfl | hx := mem_cons.mp hx
      · exact ⟨name, hname, .inl ⟨rfl, rfl⟩⟩
      obtain hx | hx := mem_append.mp hx
      · obtain ⟨n, hn, ⟨hpar, heq⟩ | ⟨⟨y, hy, h⟩, heq⟩⟩ := ihe hentries hx
        · refine ⟨n, hn, .inr ⟨⟨_, mem_cons_self, rfl, hpar.symm⟩, ?_⟩⟩
          rw [heq, hpar]
          simp
        · exact ⟨n, hn, .inr ⟨⟨y, mem_cons_of_mem _ (mem_append_left _ hy), h⟩, heq⟩⟩
      · obtain ⟨n, hn, h | ⟨⟨y, hy, h⟩, heq⟩⟩ := ih hrest hx
        · exact ⟨n, hn, .inl h⟩
        · exact ⟨n, hn, .inr ⟨⟨y, mem_cons_of_mem _ (mem_append_right _ hy), h⟩, heq⟩⟩

end Dir

/-- A directory tree. -/
abbrev Tree := { d : Dir // d.Valid }

end V2I.Ota
