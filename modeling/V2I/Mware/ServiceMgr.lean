import V2I.Lib.ByteFile
import V2I.Mware.ServiceInfo

/-!
# V2I.Mware.ServiceMgr

The service manager (`servicemgr.cpp`, `servicemgr.h`) that keeps the RPC services of the system
and their instances, writes them to the service configuration file and reads them from there.

The file has a header, an entry for each service, the offsets of the names of the instances, and
the strings. `none` is what has no defined behaviour: an `int` that overflows, a read outside a
buffer, an assertion that fails.
-/

namespace V2I.Mware

open ByteFile

/-- The result of `digest("sha256")`. -/
abbrev Digest := { d : Bytes // d.length = 32 }

namespace Flags

/-- The number of a flag of one bit. -/
def weight (b : Bool) (n : ℕ) : ℕ := if b then n else 0

/-- `_flags` as a number. -/
def toUInt32 (f : Flags) : UInt32 :=
  UInt32.ofNat (weight f.globalAccessible 1 + weight f.shared 2 + f.singleton.toNat * 4 +
    weight f.isGlobal 16 + weight f.isDefault 32 + weight f.starting 64 + weight f.running 128 +
    f.rest.toNat * 256)

/-- `_flags` from a number. -/
def ofUInt32 (x : UInt32) : Flags where
  globalAccessible := x.toNat % 2 == 1
  shared := x.toNat / 2 % 2 == 1
  singleton := BitVec.ofNat 2 (x.toNat / 4)
  isGlobal := x.toNat / 16 % 2 == 1
  isDefault := x.toNat / 32 % 2 == 1
  starting := x.toNat / 64 % 2 == 1
  running := x.toNat / 128 % 2 == 1
  rest := BitVec.ofNat 24 (x.toNat / 256)

end Flags

/-! ## services and their manager -/

/-- `service_impl`, with the count and the list of its instances. -/
structure ServiceImpl extends ServiceInfo where
  instcnt : UInt32 := 0
  instList : List ServiceInfo := []
  deriving DecidableEq

namespace ServiceImpl

/-- `find_inst_unlock` -/
def findInst (svc : ServiceImpl) (instname : Bytes) : Option ServiceInfo :=
  svc.instList.find? fun inst => inst.instName == instname

/-- `add_instance`. What `add_instance_unlock` checks again has been checked. -/
def addInstance (svc : ServiceImpl) (instname : Option Bytes) : ServiceImpl × ℤ :=
  if (instname.getD []).isEmpty then (svc, -EBADPARM)
  else if !svc.isDefaultService then (svc, -ENOTAVAIL)
  else if !svc.checkMultiInstance then (svc, -ENOTALLOWED)
  else if (svc.findInst (instname.getD [])).isSome then (svc, -EEXISTS)
  else
    let inst := ServiceInfo.new svc.pkgName svc.serviceName instname (some svc.executive)
      (some svc.ipaddr) svc.port svc.version svc.flags
    ({ svc with instList := svc.instList ++ [inst], instcnt := svc.instcnt + 1 }, 0)

/-- `remove_instance`, with `remove_instance_unlock` -/
def removeInstance (svc : ServiceImpl) (instname : Option Bytes) : ServiceImpl × ℤ :=
  if (instname.getD []).isEmpty then (svc, -EBADPARM)
  else if !svc.isDefaultService then (svc, -ENOTAVAIL)
  else if (svc.findInst (instname.getD [])).isNone then (svc, -ENOTEXISTS)
  else
    ({ svc with
        instList := svc.instList.eraseP fun inst => inst.instName == instname.getD []
        instcnt := svc.instcnt - 1 }, 0)

/-- The names by which a service is found. -/
def Named (svc : ServiceImpl) (pkgname servicename : Bytes) : Bool :=
  svc.pkgName == pkgname && svc.serviceName == servicename

end ServiceImpl

/-- `service_mgr_impl`: the tree of services has those of the list. -/
structure ServiceMgr where
  serviceInfoList : List ServiceImpl := []
  serviceCnt : ℤ := 0
  deriving DecidableEq

namespace ServiceMgr

/-- `find_service_unlock` -/
def findService (m : ServiceMgr) (pkgname servicename : Bytes) : Option ServiceImpl :=
  m.serviceInfoList.find? fun svc => svc.Named pkgname servicename

/-- `add_service`: whether it returns a service. -/
def addService (m : ServiceMgr) (pkgname servicename : Bytes) (executive ipaddr : Option Bytes)
    (port version : UInt32) (attributes : Flags) : ServiceMgr × Bool :=
  if (m.findService pkgname servicename).isSome then (m, false)
  else
    let impl : ServiceImpl :=
      { toServiceInfo := .new pkgname servicename none executive ipaddr port version attributes }
    ({ serviceInfoList := m.serviceInfoList ++ [impl], serviceCnt := m.serviceCnt + 1 }, true)

/-- `remove_service` -/
def removeService (m : ServiceMgr) (pkgname servicename : Bytes) : ServiceMgr × ℤ :=
  if (m.findService pkgname servicename).isNone then (m, -ENOTEXISTS)
  else
    ({ serviceInfoList := m.serviceInfoList.eraseP fun svc => svc.Named pkgname servicename
       serviceCnt := m.serviceCnt - 1 }, 0)

/-- An operation on the service that is found by its names. -/
def onService (m : ServiceMgr) (pkgname servicename : Bytes)
    (f : ServiceImpl → ServiceImpl × ℤ) : ServiceMgr :=
  { m with
    serviceInfoList := m.serviceInfoList.map fun svc =>
      if svc.Named pkgname servicename then (f svc).1 else svc }

end ServiceMgr

/-! ## the file -/

/-- `alloc_copy_string`: the string section and the position of the string in it. The buffer
grows in steps of 1024, and its size is an `int`. -/
def allocCopyString (sect str : Bytes) : Option (Bytes × UInt32) :=
  if sect.length + (str.length + 1) > 2 ^ 31 - 1024 then none
  else some (sect ++ str ++ [0], UInt32.ofNat sect.length)

/-- `absfile`, of a regular file. -/
structure AbsFile where
  data : Bytes
  pos : ℕ

namespace AbsFile

/-- `seek(offset, absfile_seek_set)` -/
def seekSet (f : AbsFile) (offset : ℕ) : AbsFile := { f with pos := offset }

/-- `seek(0, absfile_seek_end)` -/
def seekEnd (f : AbsFile) : AbsFile := { f with pos := f.data.length }

/-- `write` -/
def write (f : AbsFile) (buf : Bytes) : AbsFile :=
  ⟨writeAt f.data f.pos buf, f.pos + buf.length⟩

end AbsFile

/-- `service_magic`, with its zero byte. -/
def serviceMagic : Bytes := ascii "zas-service-config-file" ++ [0]

/-- `service_config_header` -/
structure ServiceConfigHeader where
  magic : Bytes
  digest : Digest
  size : UInt32
  version : UInt32
  serviceCount : UInt32
  instanceCount : UInt32
  instanceStart : UInt32
  startOfStringSection : UInt32
  stringSize : UInt32

namespace ServiceConfigHeader

/-- The fields behind the digest. -/
def fields (hdr : ServiceConfigHeader) : List UInt32 :=
  [hdr.size, hdr.version, hdr.serviceCount, hdr.instanceCount, hdr.instanceStart,
    hdr.startOfStringSection, hdr.stringSize]

/-- The header as it is in the file. -/
def bytes (hdr : ServiceConfigHeader) : Bytes :=
  hdr.magic ++ hdr.digest.val ++ words hdr.fields

end ServiceConfigHeader

/-- `sizeof(service_config_header)` -/
def sizeofHeader : ℕ := 84

/-- `service_entry` -/
structure ServiceEntry where
  pkgname : UInt32
  servicename : UInt32
  executive : UInt32
  ipaddr : UInt32
  port : UInt32
  version : UInt32
  flag : UInt32
  instcnt : UInt32
  instoffset : UInt32
  deriving DecidableEq

namespace ServiceEntry

def fields (e : ServiceEntry) : List UInt32 :=
  [e.pkgname, e.servicename, e.executive, e.ipaddr, e.port, e.version, e.flag, e.instcnt,
    e.instoffset]

/-- The entry at the start of a list of bytes. -/
def read (bytes : Bytes) : Option ServiceEntry :=
  match readWords 9 bytes with
  | some [pkgname, servicename, executive, ipaddr, port, version, flag, instcnt, instoffset] =>
      some ⟨pkgname, servicename, executive, ipaddr, port, version, flag, instcnt, instoffset⟩
  | _ => none

end ServiceEntry

/-- `sizeof(service_entry)` -/
def sizeofEntry : ℕ := 36

namespace ServiceMgr

/-- The header of `write_services_header`. -/
def newHeader (m : ServiceMgr) : ServiceConfigHeader where
  magic := serviceMagic
  digest := ⟨List.replicate 32 0, List.length_replicate⟩
  size := 0
  version := 0
  serviceCount := UInt32.ofNat (m.serviceCnt % 2 ^ 32).toNat
  instanceCount := 0
  instanceStart := 0
  startOfStringSection := 0
  stringSize := 0

/-- The file, the string section and the counts while the services are written. -/
structure Writing where
  file : AbsFile
  sect : Bytes
  instanceCount : UInt32
  hcnt : ℕ

/-- The loop of `write_instance_info`. -/
def writeInstanceInfo (offset : UInt32) :
    AbsFile → Bytes → ℕ → List ServiceInfo → Option (AbsFile × Bytes × ℕ)
  | file, sect, incnt, [] => some (file, sect, incnt)
  | file, sect, incnt, inst :: insts =>
      match allocCopyString sect inst.instName with
      | none => none
      | some (sect, delta) =>
          writeInstanceInfo offset
            ((file.seekSet (offset.toNat + incnt * 4)).write (u32 delta)) sect (incnt + 1) insts

/-- The strings of a service and its entry, from `write_services_info`. -/
def makeEntry (svc : ServiceImpl) (sect : Bytes) (instanceCount : UInt32) :
    Option (Bytes × ServiceEntry) := do
  let (sect, pkgname) ← allocCopyString sect svc.pkgName
  let (sect, servicename) ← allocCopyString sect svc.serviceName
  let (sect, executive) ← allocCopyString sect svc.executive
  let (sect, ipaddr) ← (if svc.ipaddr.length > 0 then allocCopyString sect svc.ipaddr
    else some (sect, 0))
  return (sect,
    { pkgname, servicename, executive, ipaddr
      port := svc.port
      version := svc.version
      flag := svc.flags.toUInt32
      instcnt := svc.instcnt
      instoffset := if svc.instcnt < 1 then 0 else instanceCount * 4 })

/-- One round of `write_services_info`, and its result where it is the last. -/
def writeServiceInfo (instanceStart : UInt32) (w : Writing) (svc : ServiceImpl) :
    Option (Writing × ℤ) := do
  let (sect, entry) ← makeEntry svc w.sect w.instanceCount
  let file := (w.file.seekSet (sizeofHeader + w.hcnt * sizeofEntry)).write (words entry.fields)
  if entry.instcnt < 1 then return (⟨file, sect, w.instanceCount, w.hcnt + 1⟩, 0)
  else
    let (file, sect, inscnt) ←
      writeInstanceInfo (instanceStart + entry.instoffset) file sect 0 svc.instList
    if UInt32.ofNat inscnt ≠ svc.instcnt then
      return (⟨file, sect, w.instanceCount, w.hcnt + 1⟩, -3)
    else return (⟨file, sect, w.instanceCount + UInt32.ofNat inscnt, w.hcnt + 1⟩, 0)

/-- The loop of `write_services_info`. -/
def writeServicesInfo (instanceStart : UInt32) :
    Writing → List ServiceImpl → Option (Writing × ℤ)
  | w, [] => some (w, 0)
  | w, svc :: svcs =>
      match writeServiceInfo instanceStart w svc with
      | none => none
      | some (w, ret) => if ret ≠ 0 then some (w, ret) else writeServicesInfo instanceStart w svcs

/-- `write_service_string_section` -/
def writeServiceStringSection (file : AbsFile) (sect : Bytes) (hdr : ServiceConfigHeader) :
    AbsFile × ServiceConfigHeader :=
  if sect.length ≠ 0 then
    let file := file.seekEnd
    let hdr :=
      { hdr with
        startOfStringSection := UInt32.ofNat file.pos
        stringSize := UInt32.ofNat sect.length }
    (((file.write sect).seekSet 0).write hdr.bytes, hdr)
  else (file, hdr)

/-- The header with the size of the file, and the text that `rewrite_header` takes the digest
of: the size and what stands behind it in the file. -/
def digestText (file : AbsFile) (hdr : ServiceConfigHeader) : Bytes × ServiceConfigHeader :=
  let hdr := { hdr with size := UInt32.ofNat file.data.length }
  (u32 hdr.size ++ file.data.drop 60, hdr)

/-- What `save_service_bin` writes before `rewrite_header`, and its result where it is not 0. -/
def saveSections (m : ServiceMgr) : Option ((AbsFile × ServiceConfigHeader) × ℤ) := do
  let hdr := m.newHeader
  let file := (AbsFile.seekSet ⟨[], 0⟩ 0).write hdr.bytes
  let instanceStart := UInt32.ofNat (sizeofHeader + hdr.serviceCount.toNat * sizeofEntry)
  let (w, ret) ← writeServicesInfo instanceStart ⟨file, [], 0, 0⟩ m.serviceInfoList
  let hdr := { hdr with instanceCount := w.instanceCount, instanceStart := instanceStart }
  if ret ≠ 0 then return ((w.file, hdr), 2)
  else return (writeServiceStringSection w.file w.sect hdr, 0)

/-- `save_config_file`: the file, unless it is deleted, and the result. -/
def saveConfigFile (sha256 : Bytes → Digest) (m : ServiceMgr) : Option (Option Bytes × ℤ) := do
  let ((file, hdr), ret) ← m.saveSections
  if ret ≠ 0 then return (none, ret)
  else
    let (text, hdr) := digestText file hdr
    let hdr := { hdr with digest := sha256 text }
    return (some ((file.seekSet 0).write hdr.bytes).data, 0)

/-! ## reading the file -/

/-- A buffer of `n` bytes after reading into it: where the file ends it is as it was allocated. -/
def readBuffer (fresh : ℕ → UInt8) (rest : Bytes) (n : ℕ) : Bytes :=
  rest.take n ++ (List.range (n - rest.length)).map fresh

/-- The string at an offset of the string section. -/
def stringAt (strings : Bytes) (offset : UInt32) : Option Bytes :=
  cString (strings.drop offset.toNat)

/-- The instances of an entry, from `load_rpc_service_config`: `instoffset` points to the offset
of the first name. -/
def loadInstances (insts strings : Bytes) (pkgname servicename : Bytes) :
    ServiceMgr → ℕ → ℕ → Option ServiceMgr
  | m, _, 0 => some m
  | m, instoffset, instcnt + 1 => do
      let offset ← readU32 (insts.drop instoffset)
      let name ← stringAt strings offset
      loadInstances insts strings pkgname servicename
        (m.onService pkgname servicename fun svc => svc.addInstance (some name))
        (instoffset + 4) instcnt

/-- The service of an entry, from `load_rpc_service_config` -/
def loadService (entries insts strings : Bytes) (m : ServiceMgr) (i : ℕ) :
    Option ServiceMgr := do
  let entry ← ServiceEntry.read (entries.drop (i * sizeofEntry))
  let pkgname ← stringAt strings entry.pkgname
  let servicename ← stringAt strings entry.servicename
  let executive ← stringAt strings entry.executive
  let ipaddr ← (if entry.ipaddr = 0 then some none
    else (stringAt strings entry.ipaddr).map some)
  let (m, added) := m.addService pkgname servicename (some executive) ipaddr entry.port
    entry.version (.ofUInt32 entry.flag)
  -- `assert(NULL != impl)`
  if !added then none
  else
    loadInstances insts strings pkgname servicename m entry.instoffset.toNat entry.instcnt.toNat

/-- The loop of `load_rpc_service_config`, with the rounds that are left. -/
def loadServices (entries insts strings : Bytes) : ServiceMgr → ℕ → ℕ → Option ServiceMgr
  | m, _, 0 => some m
  | m, i, left + 1 => do
      let m ← loadService entries insts strings m i
      loadServices entries insts strings m (i + 1) left

/-- `load_config_file`, with `load_rpc_service_config`. `fresh` is what the buffers hold when
they are allocated. A file that is refused with -1 is deleted. -/
def loadConfigFile (sha256 : Bytes → Digest) (fresh : ℕ → UInt8) (m : ServiceMgr)
    (file : Bytes) : Option (ServiceMgr × ℤ) :=
  if m.serviceCnt > 0 then some (m, -EEXISTS)
  else
    match readWords 7 (file.drop 56) with
    | some [size, version, serviceCount, instanceCount, instanceStart, startOfStringSection,
        stringSize] =>
        if size < 56 then some (m, -1)
        else
          let servicesize := (serviceCount * 36).toNat
          let instssize := (instanceCount * 4).toNat
          let rest := file.drop sizeofHeader
          let entries := readBuffer fresh rest servicesize
          let insts := readBuffer fresh (rest.drop servicesize) instssize
          let strings := readBuffer fresh (rest.drop (servicesize + instssize)) stringSize.toNat
          let text := words [size, version, serviceCount, instanceCount, instanceStart,
            startOfStringSection, stringSize] ++ entries ++ insts ++ strings
          if (sha256 text).val ≠ (file.drop 24).take 32 then some (m, -2)
          else (loadServices entries insts strings m 0 serviceCount.toNat).map fun m => (m, 0)
    | _ => some (m, -1)

end ServiceMgr

end V2I.Mware
