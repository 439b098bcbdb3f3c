import V2I.Lib.KeyTree
import V2I.Ota.Tree

/-!
# V2I.Ota.FileList

The two file lists and their digest of a whole directory: `filelist` of the packaging tool
(`otapack/filelist.cpp`), whose digests go into a delta package (`init_otapack_header` of
`pack.cpp`), and `mware::filelist` (`mware/filelist.cpp`), whose digest goes into a full package
(`ota_fullpackage_generator::init_header`). Links are not modelled, and every file can be read.

SHA-256 is a parameter. `none` is an assertion that fails.
-/

namespace V2I.Ota

/-- The result of `digest("sha256")`. -/
abbrev Digest := { d : Bytes // d.length = 32 }

theorem length_zeros : (List.replicate 32 (0 : UInt8)).length = 32 := List.length_replicate

def zeroDigest : Digest := ⟨List.replicate 32 0, length_zeros⟩

/-- The path that `loaddir` is given: not empty. -/
abbrev Root := { root : Bytes // root ≠ [] }

/-- The root as a node: it has no parents. -/
def rootNode (root : Root) : Node := ⟨rootName root.val, [], true, []⟩

/-- The nodes that are created for a tree, in their order. -/
def created (root : Root) (t : Tree) : List Node := (loaddir root.val t.val).flatMap Visit.nodes

/-! ## the packaging tool -/

/-- `filelist` of the packaging tool. -/
structure FileList where
  globalNameTree : List Node
  needGlobalDigest : Bool
  globalDigest : Digest

namespace FileList

/-- `filelist()`: no flag is set, and none is later. -/
def new : FileList := ⟨[], false, zeroDigest⟩

/-- What `calc_digest` appends to the digest of all. -/
def digestText (l : FileList) : Bytes :=
  l.globalNameTree.flatMap fun nd =>
    (if !nd.isdir && l.needGlobalDigest then nd.content else []) ++
      (if l.needGlobalDigest then nd.name ++ [0] else [])

/-- `calc_digest` -/
def calcDigest (sha256 : Bytes → Digest) (l : FileList) : FileList :=
  if l.needGlobalDigest then { l with globalDigest := sha256 l.digestText } else l

/-- `loaddir`: the root and the nodes go into the tree, before the digest is taken. -/
def loaddir (sha256 : Bytes → Digest) (l : FileList) (root : Root) (t : Tree) :
    Option FileList := do
  let tree ← KeyTree.insertAll Node.name l.globalNameTree (rootNode root :: created root t)
  return calcDigest sha256 { l with globalNameTree := tree }

/-- `get_digest` -/
def getDigest (l : FileList) : Digest := l.globalDigest

end FileList

/-! ## the middleware -/

namespace Mware

/-- `mware::filelist` -/
structure FileList where
  globalNameTree : List Node
  needGlobalDigest : Bool
  globalDigest : Option Digest

namespace FileList

/-- `filelist()`: the digest is needed. -/
def new : FileList := ⟨[], true, none⟩

/-- `loaddir`: the root is not in the tree. -/
def loaddir (l : FileList) (root : Root) (t : Tree) : Option FileList := do
  let tree ← KeyTree.insertAll Node.name l.globalNameTree (created root t)
  return { l with globalNameTree := tree }

/-- `set_need_digest` -/
def setNeedDigest (l : FileList) (need : Bool) : FileList := { l with needGlobalDigest := need }

/-- What `single_file_digest` appends for a file. -/
def singleFileDigest (l : FileList) (nd : Node) : Bytes :=
  (if l.needGlobalDigest then nd.content else []) ++ (nd.name ++ [0])

/-- What `generate_digest` appends. -/
def digestText (l : FileList) : Bytes :=
  l.globalNameTree.flatMap fun nd => if !nd.isdir then l.singleFileDigest nd else []

/-- `generate_digest` -/
def generateDigest (sha256 : Bytes → Digest) (l : FileList) : FileList × Option Digest :=
  if !l.needGlobalDigest then (l, none)
  else
    match l.globalDigest with
    | some d => (l, some d)
    | none =>
        let d := sha256 l.digestText
        ({ l with globalDigest := some d }, some d)

end FileList

end Mware

/-! ## the digests in the packages -/

/-- `prevpkg_digest` or `currpkg_digest` of a delta package. -/
def deltaDigest (sha256 : Bytes → Digest) (root : Root) (t : Tree) : Option Digest :=
  (FileList.new.loaddir sha256 root t).map FileList.getDigest

/-- `currpkg_digest` of a full package, which asks for the digest. -/
def fullDigest (sha256 : Bytes → Digest) (root : Root) (t : Tree) : Option Digest := do
  let l ← Mware.FileList.new.loaddir root t
  ((l.setNeedDigest true).generateDigest sha256).2

/-- The bytes that the packaging tool hashes for a tree. -/
def deltaText (root : Root) (t : Tree) : Option Bytes :=
  (KeyTree.insertAll Node.name [] (rootNode root :: created root t)).map fun tree =>
    { FileList.new with globalNameTree := tree : FileList }.digestText

/-- The bytes that the middleware hashes for a tree. -/
def fullText (root : Root) (t : Tree) : Option Bytes :=
  (Mware.FileList.new.loaddir root t).map fun l => (l.setNeedDigest true).digestText

end V2I.Ota
