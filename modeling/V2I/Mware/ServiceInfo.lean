import Mathlib.Algebra.Ring.Int.Defs
import Mathlib.Data.List.Nodup
import V2I.Zasbsc

/-!
# V2I.Mware.ServiceInfo

What the RPC layer knows about a service: `service_info` (`serviceinfo.cpp`), its flags, and the
packages in which it travels (`rpc_pkg_def.h`).

Strings are lists of bytes without a zero byte. A field of a package whose validity bit is clear
is `none`; where the strings lie in the buffer of a package is not modelled.
-/

namespace V2I.Mware

/-- A string literal of the source. -/
def ascii (s : String) : Bytes := s.toList.map fun c => c.toUInt8

/-- `_flags` of `service_info`, field by field; `rest` are the bits without a name. -/
structure Flags where
  globalAccessible : Bool := false
  shared : Bool := false
  singleton : BitVec 2 := 0
  isGlobal : Bool := false
  isDefault : Bool := false
  starting : Bool := false
  running : Bool := false
  rest : BitVec 24 := 0
  deriving DecidableEq

/-- `0 == (_f.is_default ? _flags - 32 : _flags)` -/
def Flags.onlyDefault (f : Flags) : Bool :=
  f == { isDefault := f.isDefault }

/-- `singleton_type_none` -/
def singletonTypeNone : BitVec 2 := 1

/-- `service_pkginfo` -/
structure ServicePkginfo where
  pkgname : Option Bytes := none
  name : Option Bytes := none
  instName : Option Bytes := none
  executive : Option Bytes := none
  ipaddr : Option Bytes := none
  port : UInt16 := 0
  portValid : Bool := false
  version : Option UInt32 := none
  id : Option UInt32 := none
  accessible : UInt16 := 0
  shared : UInt16 := 0
  signleton : UInt16 := 0
  clientName : Option Bytes := none
  cliInstName : Option Bytes := none
  deriving DecidableEq

/-- `cmd_service_info` -/
structure CmdServiceInfo where
  pkgname : Option Bytes := none
  name : Option Bytes := none
  instName : Option Bytes := none
  deriving DecidableEq

/-- `service_info`, less its places in lists and tree and its count of references. -/
structure ServiceInfo where
  pkgName : Bytes := []
  serviceName : Bytes := []
  executive : Bytes := []
  ipaddr : Bytes := []
  port : UInt32 := 0
  serviceId : UInt32 := 0
  version : UInt32 := 0
  flags : Flags := {}
  instName : Bytes := []
  deriving DecidableEq

namespace ServiceInfo

/-- `service_info(pkgname, servicename, instname, ..)`: a null string and an empty one are
alike. -/
def new (pkgname servicename : Bytes) (instname executive ipaddr : Option Bytes)
    (port version : UInt32) (attributes : Flags) : ServiceInfo where
  pkgName := pkgname
  serviceName := servicename
  executive := executive.getD []
  ipaddr := ipaddr.getD []
  port := port
  serviceId := 0
  version := version
  flags := { attributes with isDefault := (instname.getD []).isEmpty }
  instName := instname.getD []

/-- `check_multi_instance` -/
def checkMultiInstance (i : ServiceInfo) : Bool := i.flags.singleton == singletonTypeNone

/-- `is_default_service` -/
def isDefaultService (i : ServiceInfo) : Bool := i.flags.isDefault

/-- `is_running` -/
def isRunning (i : ServiceInfo) : Bool := i.flags.running

/-- A text that is sent when it is not empty. -/
def sent (text : Bytes) : Option Bytes := if text.isEmpty then none else some text

/-- A flag of one bit in the package's 16. -/
def bit (b : Bool) : UInt16 := if b then 1 else 0

/-- `load_info` into a fresh package. -/
def loadInfo (i : ServiceInfo) : ServicePkginfo × ℤ :=
  if i.pkgName.isEmpty || i.serviceName.isEmpty then ({}, -ENOTAVAIL)
  else
    ({ pkgname := sent i.pkgName
       name := sent i.serviceName
       instName := if i.isDefaultService then none else some i.instName
       executive := sent i.executive
       ipaddr := sent i.ipaddr
       port := i.port.toUInt16
       version := some i.version
       id := if i.serviceId > 0 then some i.serviceId else none
       accessible := bit i.flags.globalAccessible
       shared := bit i.flags.shared
       signleton := i.flags.singleton.toNat.toUInt16 }, 0)

/-- `update_info` from a `service_pkginfo` -/
def updateInfo (i : ServiceInfo) (info : ServicePkginfo) : ServiceInfo × ℤ :=
  if !i.pkgName.isEmpty || !i.serviceName.isEmpty then (i, -EEXISTS)
  else
    match info.pkgname, info.name with
    | some pkgname, some name =>
        ({ i with
            pkgName := pkgname
            serviceName := name
            instName := info.instName.getD i.instName
            version := info.version.getD i.version
            executive := info.executive.getD i.executive
            ipaddr := info.ipaddr.getD i.ipaddr
            port := if info.portValid then info.port.toUInt32 else i.port
            flags := { i.flags with
              isDefault := info.instName.isNone
              globalAccessible := info.accessible % 2 == 1
              shared := info.shared % 2 == 1
              singleton := BitVec.ofNat 2 info.signleton.toNat } }, 0)
    | _, _ => (i, -EBADPARM)

/-- `update_info` from a `cmd_service_info` -/
def updateInfoCmd (i : ServiceInfo) (info : CmdServiceInfo) : ServiceInfo × ℤ :=
  if !i.pkgName.isEmpty || !i.serviceName.isEmpty then (i, -EEXISTS)
  else
    match info.pkgname, info.name with
    | some pkgname, some name =>
        ({ i with
            pkgName := pkgname
            serviceName := name
            instName := info.instName.getD i.instName
            flags := { i.flags with isDefault := info.instName.isNone } }, 0)
    | _, _ => (i, -EBADPARM)

/-- `_inst_name` as it is handed on: null where it is empty. -/
def instname (i : ServiceInfo) : Option Bytes := sent i.instName

end ServiceInfo

end V2I.Mware
