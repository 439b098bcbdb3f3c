import V2I.Ota.FileList

/-!
# V2I.Ota.Merge

How the packaging tool finds the step from an old tree to a new one: `merge_file_listener`
(`otapack/merge.cpp`), which is called while the new tree is scanned, and
`pack_source_listener::rescan_delete_objects` (`otapack/pack.cpp`) after that.

A node is in one list at most, which is what `_usr_ownerlist` is for: `append_user` takes it out
of the one it is in. Lists have the names of their nodes. `append_user`, `check_set_file_exists`,
`on_processing` and `on_scanfinished` return no value where they should; nothing reads it, and they
are read as returning.
-/

namespace V2I.Ota

open List

/-- `node_type` -/
inductive NodeType
  | unknown
  | dirNewCreated
  | dirDeleted
  | dirTheSame
  | fileDeleted
  | fileMoveSrc
  | fileMoveDest
  | fileTheSame
  | fileUpdated
  | fileNewCreated
  deriving DecidableEq

/-- A file list that is loaded: the tree of names, and of the tree of digests the first node of
each digest. -/
structure Loaded where
  names : List Node
  digests : List Node

/-- `add_by_digest`: a node with a digest that is there goes to the list behind its first one. -/
def addByDigest (sha256 : Bytes → Digest) (digests : List Node) (nd : Node) : List Node :=
  if digests.any fun old => sha256 old.content = sha256 nd.content then digests
  else digests ++ [nd]

/-- `find_node` of a digest -/
def findDigest (sha256 : Bytes → Digest) (digests : List Node) (d : Digest) : Option Node :=
  digests.find? fun nd => sha256 nd.content = d

namespace Loaded

/-- `find_node` of a name -/
def findNode (l : Loaded) (name : Bytes) : Option Node :=
  if name = [] then none else l.names.find? fun nd => nd.name = name

end Loaded

/-- What changes of the old file list: the types of its nodes, the lists they are in
(`_dir_list` and `_file_list` of `pack_source_listener`, `_del_list` of `merge_file_listener`),
and the nodes that are still among the children of their parents. -/
structure Source where
  types : Bytes → NodeType
  dirList : List Bytes
  fileList : List Bytes
  delList : List Bytes
  siblings : List Node

namespace Source

def setType (s : Source) (name : Bytes) (type : NodeType) : Source :=
  { s with types := fun n => if n = name then type else s.types n }

/-- `remove_user` -/
def removeUser (s : Source) (name : Bytes) : Source :=
  { s with
    dirList := s.dirList.filter (· ≠ name)
    fileList := s.fileList.filter (· ≠ name)
    delList := s.delList.filter (· ≠ name) }

/-- `append_user(_del_list)` -/
def appendDel (s : Source) (name : Bytes) : Source :=
  let s := s.removeUser name
  { s with delList := s.delList ++ [name] }

/-- `append_user(_dir_list)` -/
def appendDir (s : Source) (name : Bytes) : Source :=
  let s := s.removeUser name
  { s with dirList := s.dirList ++ [name] }

end Source

/-- `moved_fileinfo` -/
structure MovedFileinfo where
  src : Bytes
  toList : List Bytes
  deriving DecidableEq

/-- What changes of the new file list, and of `merge_file_listener`: `dupOf` is what
`set_user_data` keeps of a duplicate. -/
structure Target where
  types : Bytes → NodeType
  digests : List Node
  dirList : List Bytes
  fileList : List Bytes
  sameList : List Bytes
  dupList : List Bytes
  dupOf : Bytes → Option Bytes
  movedFileinfoList : List MovedFileinfo

namespace Target

def setType (t : Target) (name : Bytes) (type : NodeType) : Target :=
  { t with types := fun n => if n = name then type else t.types n }

/-- `remove_user` -/
def removeUser (t : Target) (name : Bytes) : Target :=
  { t with
    dirList := t.dirList.filter (· ≠ name)
    fileList := t.fileList.filter (· ≠ name)
    sameList := t.sameList.filter (· ≠ name)
    dupList := t.dupList.filter (· ≠ name)
    movedFileinfoList := t.movedFileinfoList.map fun info =>
      { info with toList := info.toList.filter (· ≠ name) } }

/-- `append_user` of `filelist_indicator` -/
def appendIndicator (t : Target) (name : Bytes) (isdir : Bool) : Target :=
  let t := t.removeUser name
  if isdir then { t with dirList := t.dirList ++ [name] }
  else { t with fileList := t.fileList ++ [name] }

/-- `append_user(_same_list)` -/
def appendSame (t : Target) (name : Bytes) : Target :=
  let t := t.removeUser name
  { t with sameList := t.sameList ++ [name] }

/-- `append_user(_dup_list)` -/
def appendDup (t : Target) (name : Bytes) : Target :=
  let t := t.removeUser name
  { t with dupList := t.dupList ++ [name] }

/-- `find_info` of a node of the old list, and `add_moveto_object` -/
def addMoveto (t : Target) (src name : Bytes) : Target :=
  let t := t.removeUser name
  if t.movedFileinfoList.any fun info => info.src = src then
    { t with
      movedFileinfoList := t.movedFileinfoList.map fun info =>
        if info.src = src then { info with toList := info.toList ++ [name] } else info }
  else { t with movedFileinfoList := t.movedFileinfoList ++ [⟨src, [name]⟩] }

/-- `check_set_file_exists` -/
def checkSetFileExists (sha256 : Bytes → Digest) (t : Target) (nd : Node) : Target :=
  match findDigest sha256 t.digests (sha256 nd.content) with
  | none => t
  | some same =>
      if same.name = nd.name then t
      else if t.types same.name ≠ .fileNewCreated then t
      else
        { t with dupOf := fun n => if n = nd.name then some same.name else t.dupOf n }.appendDup
          nd.name

end Target

/-- Both lists while the new tree is scanned. -/
structure Merge where
  source : Source
  target : Target

namespace Merge

variable (sha256 : Bytes → Digest) (src : Loaded)

/-- `on_directory` -/
def onDirectory (m : Merge) (name : Bytes) : Merge :=
  let target := m.target.appendIndicator name true
  match src.findNode name with
  | none => { m with target := target.setType name .dirNewCreated }
  | some old =>
      if !old.isdir then
        { source := (m.source.setType name .fileDeleted).appendDel name
          target := target.setType name .dirNewCreated }
      else
        { source := (m.source.setType name .dirTheSame).removeUser name
          target := target.setType name .dirTheSame }

/-- `on_file` -/
def onFile (m : Merge) (nd : Node) : Merge :=
  let target := m.target.appendIndicator nd.name false
  let target := { target with digests := addByDigest sha256 target.digests nd }
  match src.findNode nd.name with
  | none =>
      match findDigest sha256 src.digests (sha256 nd.content) with
      | some old =>
          { source := (m.source.setType old.name .fileMoveSrc).removeUser old.name
            target := (target.setType nd.name .fileMoveDest).addMoveto old.name nd.name }
      | none =>
          { m with
            target := (target.setType nd.name .fileNewCreated).checkSetFileExists sha256 nd }
  | some old =>
      -- `check_digest_same`: directories have no digest
      if !old.isdir ∧ sha256 old.content = sha256 nd.content then
        { source := (m.source.setType nd.name .fileTheSame).removeUser nd.name
          target := (target.appendSame nd.name).setType nd.name .fileTheSame }
      else
        { source := m.source.removeUser nd.name
          target := (target.setType nd.name .fileNewCreated).checkSetFileExists sha256 nd }

end Merge

/-- A call of the listener. -/
inductive Event
  | directory (name : Bytes)
  | file (nd : Node)

/-- The calls for a directory that is read. -/
def Visit.events (v : Visit) : List Event :=
  .directory v.name :: (v.nodes.filter fun nd => !nd.isdir).map .file

def Merge.handle (sha256 : Bytes → Digest) (src : Loaded) (m : Merge) : Event → Merge
  | .directory name => m.onDirectory src name
  | .file nd => m.onFile sha256 src nd

/-! ## what is deleted -/

namespace Source

/-- A child of a directory that is not needed. -/
def deleteChild (s : Source) (child : Node) : Source :=
  let s := s.setType child.name .dirDeleted
  if child.isdir then s.appendDir child.name else s.removeUser child.name

/-- A round of `handle_useless_dir`, for a directory that was taken from the list. -/
def uselessDir (s : Source) (name : Bytes) : Source :=
  let s := if s.types name = .unknown then s.appendDel name else s
  let children := s.siblings.filter fun nd => nd.parents = name
  children.foldl deleteChild
    { s with siblings := s.siblings.filter fun nd => nd.parents ≠ name }

theorem siblings_foldl_deleteChild (children : List Node) (s : Source) :
    (children.foldl deleteChild s).siblings = s.siblings := by
  induction children generalizing s with
  | nil => rfl
  | cons child children ih =>
      rw [foldl_cons, ih, deleteChild]
      split
      · rfl
      · rfl

theorem length_dirList_foldl_deleteChild (children : List Node) (s : Source) :
    (children.foldl deleteChild s).dirList.length ≤ s.dirList.length + children.length := by
  induction children generalizing s with
  | nil => exact Nat.le_refl _
  | cons child children ih =>
      refine Nat.le_trans (ih _) ?_
      have hfilter := length_filter_le (· ≠ child.name) s.dirList
      have hone : (deleteChild s child).dirList.length ≤ s.dirList.length + 1 := by
        rw [deleteChild]
        split
        · show (s.dirList.filter (· ≠ child.name) ++ [child.name]).length ≤ _
          rw [length_append, length_singleton]
          omega
        · show (s.dirList.filter (· ≠ child.name)).length ≤ _
          omega
      rw [length_cons]
      omega

theorem uselessDir_lt (s : Source) (name : Bytes) :
    (s.uselessDir name).siblings.length + (s.uselessDir name).dirList.length <
      s.siblings.length + (s.dirList.length + 1) := by
  obtain ⟨s', hs', hsiblings, hdirs⟩ : ∃ s' : Source,
      s' = (if s.types name = .unknown then s.appendDel name else s) ∧
        s'.siblings = s.siblings ∧ s'.dirList.length ≤ s.dirList.length := by
    split
    · exact ⟨_, rfl, rfl, length_filter_le _ _⟩
    · exact ⟨_, rfl, rfl, Nat.le_refl _⟩
  have hfold := length_dirList_foldl_deleteChild (s'.siblings.filter fun nd => nd.parents = name)
    { s' with siblings := s'.siblings.filter fun nd => nd.parents ≠ name }
  have hsplit := length_eq_length_filter_add (l := s'.siblings) fun nd => nd.parents = name
  have hnot : (s'.siblings.filter fun nd => !decide (nd.parents = name)) =
      s'.siblings.filter fun nd => nd.parents ≠ name :=
    filter_congr fun nd _ => by simp
  rw [hnot] at hsplit
  rw [uselessDir, ← hs', siblings_foldl_deleteChild, ← hsiblings]
  dsimp only at hfold ⊢
  omega

/-- `handle_useless_dir` -/
def handleUselessDir (s : Source) : Source :=
  match _h : s.dirList with
  | [] => s
  | name :: rest => handleUselessDir ({ s with dirList := rest }.uselessDir name)
  termination_by s.siblings.length + s.dirList.length
  decreasing_by
    rw [_h, length_cons]
    exact uselessDir_lt { s with dirList := rest } name

/-- `rescan_delete_objects` -/
def rescanDeleteObjects (s : Source) : Source :=
  handleUselessDir { s with fileList := [], delList := s.delList ++ s.fileList }

end Source

/-! ## both trees -/

/-- What is in the list of the old tree after `loaddir`: the digests go in when `calc_digest`
walks the tree of names. -/
def loadNames (sha256 : Bytes → Digest) (root : Root) (t : Tree) : Option Loaded := do
  let names ← KeyTree.insertAll Node.name [] (rootNode root :: created root t)
  return ⟨names, (names.filter fun nd => !nd.isdir).foldl (addByDigest sha256) []⟩

/-- The lists of `pack_source_listener`, which is told each directory when it is read and each
file when it is found. -/
def Source.new (root : Root) (t : Tree) : Source where
  types := fun _ => .unknown
  dirList := (loaddir root.val t.val).map Visit.name
  fileList := ((created root t).filter fun nd => !nd.isdir).map Node.name
  delList := []
  siblings := created root t

/-- `merge_file_listener` and the new file list before they are used. -/
def Target.new : Target where
  types := fun _ => .unknown
  digests := []
  dirList := []
  fileList := []
  sameList := []
  dupList := []
  dupOf := fun _ => none
  movedFileinfoList := []

/-- The calls while a tree is loaded. -/
def events (root : Root) (t : Tree) : List Event :=
  (loaddir root.val t.val).flatMap Visit.events

/-- The old tree is loaded, then the new one, and the deleted objects are scanned again. -/
def findDelta (sha256 : Bytes → Digest) (oldRoot newRoot : Root) (old new : Tree) :
    Option Merge := do
  let src ← loadNames sha256 oldRoot old
  let _ ← KeyTree.insertAll Node.name [] (rootNode newRoot :: created newRoot new)
  let m := (events newRoot new).foldl (Merge.handle sha256 src) ⟨.new oldRoot old, .new⟩
  return { m with source := m.source.rescanDeleteObjects }

end V2I.Ota
