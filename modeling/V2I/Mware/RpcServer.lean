import V2I.Lib.Machine
import V2I.Mware.ServiceInfo

/-!
# V2I.Mware.RpcServer

The RPC server (`rpcserver.cpp`): the services it knows, the hosts (containers) they run in, and
what it does on a package, on a call and when a container disconnects.

Services lie at addresses that are not used twice, a host is known by the name of its container:
the tree holds one of each name. A step is `none` where the code follows a null pointer or
touches what was deleted. Packages are handled one after the other; what a container answers to
a request is in the `Environment`.
-/

namespace V2I.Mware

open Function

/-- `SHARED_CONTAINER_NAME_PREFIX` -/
def sharedContainerNamePrefix : Bytes := ascii "__shared_contiander_"

/-- `ZRPC_SERVER_LAUNCH_CMD_PREFIX` -/
def zrpcServerLaunchCmdPrefix : Bytes := ascii "exec://"

/-- `ZAS_SYSTEM_PROXY_PKG` -/
def zasSystemProxyPkg : Bytes := ascii "zas.system"

/-- `ZAS_SYSTEM_PROXY_SERVICE` -/
def zasSystemProxyService : Bytes := ascii "rpcbridge"

/-- `evlclient`: the connection and the two names of its peer. -/
structure EvlClient where
  handle : ℕ
  clientname : Bytes
  instname : Bytes
  deriving DecidableEq

/-- `host_service_info`, a cell in the list of a host. A cell that was deleted and is still
linked is `freed`. -/
structure HostServiceInfo where
  service : ℕ
  freed : Bool
  deriving DecidableEq

/-- `wait_host_service` -/
structure WaitHostService where
  service : ℕ
  startcb : Bool
  deriving DecidableEq

/-- `host_info` -/
structure HostInfo where
  pkgName : Bytes
  containerInst : Bytes
  starting : Bool := false
  running : Bool := false
  shared : Bool
  evlclient : Option EvlClient := none
  serviceList : List HostServiceInfo := []
  waitHostList : List WaitHostService := []
  refcnt : ℤ := 0
  deriving DecidableEq

/-- `service_start_lnr` -/
structure ServiceStartLnr where
  seqid : UInt32
  lnrClient : EvlClient
  deriving DecidableEq

/-- `server_service`: `hostInfo` is the container of its host, `instList` holds the addresses of
its instances. -/
structure ServerService extends ServiceInfo where
  hostInfo : Option Bytes := none
  serviceLnrList : List ServiceStartLnr := []
  instList : List ℕ := []
  deriving DecidableEq

/-- The state of the server: its tree of services, keyed by package and name, the services by
their addresses, the tree of hosts and `zrpc_server_service_cnt`. -/
structure Server where
  serviceInfoTree : Bytes → Bytes → Option ℕ := fun _ _ => none
  heap : ℕ → Option ServerService := fun _ => none
  hostInfoTree : Bytes → Option HostInfo := fun _ => none
  serviceCnt : UInt32 := 0
  nextAddress : ℕ := 0

/-- What the server meets outside: whether the datapool has `zas.system.worker`, what notifying
it returns, and what a request to a container comes to once it was sent. -/
structure Environment where
  worker : Bool
  notified : ℤ
  answered : ℤ
  deriving DecidableEq

/-- `service_request_type`, the ones the server sends. -/
inductive ServiceRequestType
  | reqStart
  | startRequest
  | terminateRequest
  deriving DecidableEq

/-- `reply_type` -/
inductive ReplyType
  | service
  | client
  deriving DecidableEq

/-- `server_reply` -/
structure ServerReply where
  result : ℤ
  reply : ReplyType
  serviceInfo : ServicePkginfo
  deriving DecidableEq

/-- What the server sends: a `server_reply_pkg`, a `cmd_server_reply_pkg`, a
`request_service_pkg` to a container, and the `launch_pkg_info` that `zas.system.worker` is
notified of. -/
inductive Output
  | reply (target : EvlClient) (seqid : UInt32) (payload : ServerReply)
  | cmdReply (target : EvlClient) (seqid : UInt32) (result : ℤ)
  | request (target : EvlClient) (request : ServiceRequestType) (serviceInfo : ServicePkginfo)
  | launch (pkgName instName cmd : Bytes)
  deriving DecidableEq

namespace Server

/-- The service at an address. -/
def setService (s : Server) (p : ℕ) (svc : ServerService) : Server :=
  { s with heap := update s.heap p (some svc) }

/-- A host under its container's name. -/
def setHost (s : Server) (c : Bytes) (h : HostInfo) : Server :=
  { s with hostInfoTree := update s.hostInfoTree c (some h) }

/-- `new server_service(..)` -/
def newService (s : Server) (info : ServiceInfo) : Server × ℕ :=
  ({ s with
      heap := update s.heap s.nextAddress (some { toServiceInfo := info })
      nextAddress := s.nextAddress + 1 }, s.nextAddress)

/-- The host that `_host_info` of a service points to. -/
def hostOf (s : Server) (svc : ServerService) : Option HostInfo :=
  svc.hostInfo.bind s.hostInfoTree

end Server

namespace HostInfo

/-- `find_host_service` -/
def findHostService : List HostServiceInfo → ℕ → Option Bool
  | [], _ => some false
  | cell :: cells, p =>
      if cell.freed then none
      else if cell.service = p then some true
      else findHostService cells p

/-- `attach_service` -/
def attachService (h : HostInfo) (p : ℕ) : Option (HostInfo × ℤ) :=
  match findHostService h.serviceList p with
  | none => none
  | some true => some (h, -EEXISTS)
  | some false =>
      some ({ h with serviceList := h.serviceList ++ [⟨p, false⟩], refcnt := h.refcnt + 1 }, 0)

/-- `delete sinfo` of a cell that stays in the list. -/
def deleteCell (p : ℕ) : List HostServiceInfo → List HostServiceInfo
  | [] => []
  | cell :: cells =>
      if cell.service = p then { cell with freed := true } :: cells
      else cell :: deleteCell p cells

/-- `release`: without references the host is deleted, which takes every cell out of its list. -/
def release (h : HostInfo) : Option (Option HostInfo) :=
  if h.refcnt - 1 < 1 then
    if h.serviceList.any HostServiceInfo.freed then none else some none
  else some (some { h with refcnt := h.refcnt - 1 })

/-- `detach_service`: the host that is left, and the result. -/
def detachService (h : HostInfo) (p : ℕ) : Option (Option HostInfo × ℤ) :=
  match findHostService h.serviceList p with
  | none => none
  | some false => some (some h, -ENOTEXISTS)
  | some true =>
      match release { h with serviceList := deleteCell p h.serviceList } with
      | none => none
      | some left => some (left, 0)

/-- `set_evlclient` -/
def setEvlclient (h : HostInfo) (hostcli : Option EvlClient) : HostInfo × ℤ :=
  match hostcli with
  | none => (h, -EBADPARM)
  | some cli =>
      if cli.instname ≠ h.containerInst then (h, -EBADPARM)
      else ({ h with evlclient := some cli }, 0)

end HostInfo

namespace ServerService

/-- `0 == (_f.is_default ? _flags - 32 : _flags) && 0 == _version && _executive.empty()`: what
the system's bridge serves. -/
def proxied (svc : ServerService) : Bool :=
  svc.flags.onlyDefault && svc.version == 0 && svc.executive.isEmpty

/-- The name of the container, from `attach_host` -/
def container (svc : ServerService) : Bytes :=
  if svc.proxied then ascii "_" ++ zasSystemProxyPkg ++ ascii "_" ++ zasSystemProxyService
  else if svc.flags.shared then sharedContainerNamePrefix ++ svc.pkgName
  else
    ascii "_" ++ svc.pkgName ++ ascii "_" ++ svc.serviceName ++
      if svc.isDefaultService then [] else ascii "_" ++ svc.instName

/-- `new host_info(..)`, from `attach_host` -/
def newHost (svc : ServerService) : HostInfo :=
  if svc.proxied then
    { pkgName := zasSystemProxyPkg, containerInst := svc.container, shared := false }
  else { pkgName := svc.pkgName, containerInst := svc.container, shared := svc.flags.shared }

/-- `attach_host`. A host that is new was just looked for, so adding it to the tree succeeds. -/
def attachHost (s : Server) (p : ℕ) : Option Server := do
  let svc ← s.heap p
  let h := (s.hostInfoTree svc.container).getD svc.newHost
  let (h, _) ← h.attachService p
  return (s.setHost svc.container h).setService p { svc with hostInfo := some svc.container }

/-- `detach_host` -/
def detachHost (s : Server) (p : ℕ) : Option Server := do
  let svc ← s.heap p
  match svc.hostInfo with
  | none => return s
  | some c =>
      let h ← s.hostInfoTree c
      let (left, _) ← h.detachService p
      return { s with hostInfoTree := update s.hostInfoTree c left }.setService p
        { svc with hostInfo := none }

/-- `request_container`: writing to a null `evlclient` comes to nothing. -/
def requestContainer (s : Server) (e : Environment) (p : ℕ) (reqtype : ServiceRequestType) :
    Option (List Output × ℤ) := do
  let svc ← s.heap p
  let h ← s.hostOf svc
  match h.evlclient with
  | none => return ([], -EBADOBJ)
  | some svccli => return ([.request svccli reqtype svc.loadInfo.1], e.answered)

/-- What a waiting service asks its container for. -/
def startType (startcb : Bool) : ServiceRequestType :=
  if startcb then .startRequest else .reqStart

/-- The command that launches a container, from `launch_service` -/
def launchCmd (svc : ServerService) (h : HostInfo) (startcb : Bool) : Bytes :=
  zrpcServerLaunchCmdPrefix ++ svc.pkgName ++ ascii "?hostid=" ++ h.containerInst ++
    ascii "&service=" ++ svc.serviceName ++
    (if !svc.isDefaultService && svc.instName.length > 0 then
      ascii "&instance=" ++ svc.instName else []) ++
    ascii "&executive=" ++ svc.executive ++
    (if svc.ipaddr.length > 0 then ascii "&ipaddr=" ++ svc.ipaddr else []) ++
    (if svc.port > 0 then ascii "&listenport=" ++ ascii (Nat.repr svc.port.toNat) else []) ++
    if startcb then ascii "&mode=startrequest" else []

end ServerService

/-- `add_wait_container_start` of a host that is not running -/
def HostInfo.addWaitContainerStart (h : HostInfo) (p : ℕ) (startcb : Bool) : HostInfo × ℤ :=
  if h.waitHostList.any fun w => w.service == p then (h, -EEXISTS)
  else ({ h with waitHostList := h.waitHostList ++ [⟨p, startcb⟩] }, 0)

namespace ServerService

/-- `launch_service` -/
def launchService (s : Server) (e : Environment) (p : ℕ) (startcb : Bool) :
    Option (Server × List Output × ℤ) := do
  let svc ← s.heap p
  let c ← svc.hostInfo
  let h ← s.hostInfoTree c
  if h.running then
    let (out, ret) ← requestContainer s e p (startType startcb)
    return (s, out, ret)
  else if h.starting then
    return (s.setHost c (h.addWaitContainerStart p startcb).1, [], 0)
  else if svc.proxied then
    return (s, [], -EBADPARM)
  else if e.worker then
    return (s.setHost c { h with starting := true },
      [.launch svc.pkgName h.containerInst (svc.launchCmd h startcb)], e.notified)
  else
    return (s, [], -ENOTAVAIL)

/-- The loop of `add_service_start_listener` -/
def putListener (sender : EvlClient) (seqid : UInt32) :
    List ServiceStartLnr → List ServiceStartLnr
  | [] => [⟨seqid, sender⟩]
  | lnr :: lnrs =>
      if lnr.lnrClient.clientname = sender.clientname ∧
          lnr.lnrClient.instname = sender.instname then
        ⟨seqid, sender⟩ :: lnrs
      else lnr :: putListener sender seqid lnrs

/-- `add_service_start_listener` -/
def addServiceStartListener (s : Server) (p : ℕ) (sender : EvlClient) (seqid : UInt32) :
    Option Server := do
  let svc ← s.heap p
  return s.setService p
    { svc with serviceLnrList := putListener sender seqid svc.serviceLnrList }

/-- `send_service_start_reply` -/
def sendServiceStartReply (s : Server) (svc : ServerService) (sender : EvlClient)
    (seqid : UInt32) : Option (List Output × ℤ) :=
  if !svc.isRunning then some ([], -ENOTAVAIL)
  else
    match svc.hostInfo with
    | none => some ([], -ENOTAVAIL)
    | some c => do
        let h ← s.hostInfoTree c
        let serviceInfo :=
          { svc.loadInfo.1 with
            clientName := ServiceInfo.sent h.pkgName
            cliInstName := ServiceInfo.sent h.containerInst }
        return ([.reply sender seqid ⟨0, .client, serviceInfo⟩], 0)

/-- The replies of `set_running`, one for each listener. -/
def sendStartReplies (s : Server) (svc : ServerService) :
    List ServiceStartLnr → Option (List Output)
  | [] => some []
  | lnr :: lnrs => do
      let (out, _) ← sendServiceStartReply s svc lnr.lnrClient lnr.seqid
      let outs ← sendStartReplies s svc lnrs
      return out ++ outs

/-- `server_service::set_running` -/
def setRunning (s : Server) (p : ℕ) (brunning : Bool) : Option (Server × List Output × ℤ) := do
  let svc ← s.heap p
  if brunning && svc.serviceId != 0 then return (s, [], -EEXISTS)
  else if brunning then
    let id := s.serviceCnt + 1
    let svc' : ServerService :=
      { svc with
        flags := { svc.flags with starting := true, running := true }
        serviceId := id }
    let outs ← sendStartReplies s svc' svc.serviceLnrList
    return ({ s.setService p { svc' with serviceLnrList := [] } with serviceCnt := id }, outs, 0)
  else
    return (s.setService p
      { svc with
        flags := { svc.flags with starting := false, running := false }
        serviceId := 0 }, [], 0)

end ServerService

namespace HostInfo

/-- The loop of `start_wait_service` -/
def requestWaiting (s : Server) (e : Environment) :
    List WaitHostService → Option (List Output)
  | [] => some []
  | w :: ws => do
      let (out, _) ←
        ServerService.requestContainer s e w.service (ServerService.startType w.startcb)
      let outs ← requestWaiting s e ws
      return out ++ outs

/-- `host_info::set_running`, with `start_wait_service` -/
def setRunning (s : Server) (e : Environment) (c : Bytes) (brun : Bool) :
    Option (Server × List Output) := do
  let h ← s.hostInfoTree c
  if !h.running && brun then
    let s := s.setHost c { h with running := true }
    let outs ← requestWaiting s e h.waitHostList
    return (s.setHost c { h with running := true, waitHostList := [] }, outs)
  else return (s.setHost c { h with running := brun }, [])

/-- The services in a host's list stop. -/
def stopServices (s : Server) : List HostServiceInfo → Option Server
  | [] => some s
  | cell :: cells =>
      if cell.freed then none
      else do
        let (s, _, _) ← ServerService.setRunning s cell.service false
        stopServices s cells

/-- `disconnect_host`. -/
def disconnectHost (s : Server) (cliname instname : Bytes) : Option (Server × ℤ) :=
  match s.hostInfoTree instname with
  | none => some (s, -ENOTEXISTS)
  | some h =>
      if cliname ≠ h.pkgName then some (s, -ELOGIC)
      else do
        let h := ({ h with running := false }.setEvlclient none).1
        let s ← stopServices (s.setHost instname h) h.serviceList
        return (s, 0)

end HostInfo

namespace Server

/-- `find_service_unlock` -/
def findService (s : Server) (pkgname servicename : Bytes) : Option ℕ :=
  s.serviceInfoTree pkgname servicename

/-- `find_inst_unlock` of the service at an address -/
def findInst (s : Server) (p : ℕ) (instname : Bytes) : Option ℕ :=
  match s.heap p with
  | none => none
  | some svc =>
      svc.instList.find? fun q => (s.heap q).any fun inst => inst.instName == instname

/-- `get_service`: an instance where one is named, else the default service. -/
def getService (s : Server) (pkgname servicename : Bytes) (instName : Option Bytes) : Option ℕ :=
  match s.findService pkgname servicename with
  | none => none
  | some p =>
      if (instName.getD []).isEmpty then some p else s.findInst p (instName.getD [])

/-- `add_instance_unlock` of a new instance, from `add_service`: null where it is refused. -/
def addInstance (s : Server) (p : ℕ) (inst : ServiceInfo) : Option (Server × Option ℕ) := do
  let svc ← s.heap p
  if (s.findInst p inst.instName).isSome then return (s, none)
  else if !svc.isDefaultService || !svc.checkMultiInstance then return (s, none)
  else
    let (s, q) := s.newService inst
    return (s.setService p { svc with instList := svc.instList ++ [q] }, some q)

/-- `add_service`: the service or instance, null where there is none to add. -/
def addService (s : Server) (pkgname servicename : Bytes)
    (instName executive ipaddr : Option Bytes) (port version : UInt32) (attributes : Flags) :
    Option (Server × Option ℕ) := do
  let inst := ServiceInfo.new pkgname servicename instName executive ipaddr port version attributes
  match s.findService pkgname servicename with
  | some p => if inst.instName.isEmpty then return (s, none) else s.addInstance p inst
  | none =>
      let (s, p) := s.newService
        (.new pkgname servicename none executive ipaddr port version attributes)
      let s ← ServerService.attachHost s p
      -- `add_service_unlock`
      let s :=
        { s with
          serviceInfoTree := update s.serviceInfoTree pkgname
            (update (s.serviceInfoTree pkgname) servicename (some p)) }
      if inst.instName.isEmpty then return (s, some p) else s.addInstance p inst

/-- `delete` of a service that detaches from its host. -/
def deleteService (s : Server) (p : ℕ) : Option Server := do
  let s ← ServerService.detachHost s p
  return { s with heap := update s.heap p none }

/-- `release_all_instance_unlock` -/
def releaseInstances (s : Server) : List ℕ → Option Server
  | [] => some s
  | q :: qs => do
      let s ← s.deleteService q
      s.releaseInstances qs

/-- `remove_service`, with `remove_service_unlock` -/
def removeService (s : Server) (pkgname servicename : Bytes) : Option Server :=
  match s.findService pkgname servicename with
  | none => some s
  | some p => do
      let svc ← s.heap p
      let s :=
        { s with
          serviceInfoTree := update s.serviceInfoTree pkgname
            (update (s.serviceInfoTree pkgname) servicename none) }
      let s ← s.deleteService p
      s.releaseInstances svc.instList

end Server

/-- `request_type` -/
inductive RequestType
  | serviceStart
  | serviceStop
  | client
  deriving DecidableEq

/-- `cmd_request_type`, the ones the server takes. -/
inductive CmdRequestType
  | startService
  | terminateService
  deriving DecidableEq

/-- The `server_reply_pkg` to a host, from `handle_host_package` -/
def hostReply (s : Server) : Option ℕ → Option ServerReply
  | none => some ⟨-1, .service, {}⟩
  | some p => do
      let svc ← s.heap p
      return ⟨0, .service, svc.loadInfo.1⟩

namespace Server

/-- The service that a package from a host is about, added where it is new and starts. -/
def hostService (s : Server) (tmp : ServiceInfo) (request : RequestType) :
    Option (Server × Option ℕ) :=
  match s.getService tmp.pkgName tmp.serviceName tmp.instname with
  | some p => some (s, some p)
  | none =>
      if request = .serviceStart then
        s.addService tmp.pkgName tmp.serviceName tmp.instname (some tmp.executive)
          (some tmp.ipaddr) tmp.port tmp.version tmp.flags
      else some (s, none)

/-- A service starts: its host, which may be running already, and the service. -/
def startFromHost (s : Server) (e : Environment) (sender : EvlClient) (p : ℕ) :
    Option (Server × List Output) := do
  let svc ← s.heap p
  let c ← svc.hostInfo
  let h ← s.hostInfoTree c
  let (s, outs) ←
    (if h.running then some (s, [])
    else HostInfo.setRunning (s.setHost c (h.setEvlclient (some sender)).1) e c true)
  let (s, outs', _) ← ServerService.setRunning s p true
  return (s, outs ++ outs')

/-- `handle_host_package` -/
def handleHostPackage (s : Server) (e : Environment) (sender : EvlClient) (seqid : UInt32)
    (request : RequestType) (serviceInfo : ServicePkginfo) : Option (Server × List Output) := do
  let tmp := (ServiceInfo.updateInfo {} serviceInfo).1
  let (s, svrsvc) ← s.hostService tmp request
  let (s, outs) ←
    match svrsvc with
    | none => some (s, [])
    | some p =>
        if request = .serviceStart then s.startFromHost e sender p
        else (ServerService.setRunning s p false).map fun r => (r.1, r.2.1)
  let reply ← hostReply s svrsvc
  return (s, outs ++ [.reply sender seqid reply])

/-- The service that a client's request is about: the instance it names, else the default
service, else a new one. -/
def clientService (s : Server) (tmp : ServiceInfo) : Option (Server × Option ℕ) :=
  match s.getService tmp.pkgName tmp.serviceName tmp.instname with
  | some p => some (s, some p)
  | none =>
      match s.getService tmp.pkgName tmp.serviceName none with
      | some p => some (s, some p)
      | none =>
          s.addService tmp.pkgName tmp.serviceName tmp.instname none (some tmp.ipaddr) tmp.port
            0 {}

/-- `handle_client_package` -/
def handleClientPackage (s : Server) (e : Environment) (sender : EvlClient) (seqid : UInt32)
    (serviceInfo : ServicePkginfo) : Option (Server × List Output) := do
  let tmp := (ServiceInfo.updateInfo {} serviceInfo).1
  let (s, svrsvc) ← s.clientService tmp
  match svrsvc with
  | none => return (s, [.reply sender seqid ⟨-ENOTEXISTS, .client, {}⟩])
  | some p =>
      let svc ← s.heap p
      if svc.isRunning then
        let (outs, _) ← ServerService.sendServiceStartReply s svc sender seqid
        return (s, outs)
      else
        let s ← ServerService.addServiceStartListener s p sender seqid
        let (s, outs, _) ← ServerService.launchService s e p false
        return (s, outs)

/-- `handle_evl_package` -/
def handleEvlPackage (s : Server) (e : Environment) (sender : EvlClient) (seqid : UInt32)
    (request : RequestType) (serviceInfo : ServicePkginfo) : Option (Server × List Output) :=
  match request with
  | .client => s.handleClientPackage e sender seqid serviceInfo
  | _ => s.handleHostPackage e sender seqid request serviceInfo

/-- `handle_cmd_request_package` -/
def handleCmdRequestPackage (s : Server) (e : Environment) (sender : EvlClient)
    (seqid : UInt32) (request : CmdRequestType) (serviceInfo : CmdServiceInfo) :
    Option (Server × List Output) := do
  let tmp := (ServiceInfo.updateInfoCmd {} serviceInfo).1
  match s.getService tmp.pkgName tmp.serviceName tmp.instname with
  | none => return (s, [.cmdReply sender seqid (-ENOTEXISTS)])
  | some p =>
      let svc ← s.heap p
      match request with
      | .startService =>
          if svc.isRunning then
            let (outs, ret) ← ServerService.requestContainer s e p .startRequest
            return (s, outs ++ [.cmdReply sender seqid ret])
          else
            let (s, outs, ret) ← ServerService.launchService s e p true
            return (s, outs ++ [.cmdReply sender seqid ret])
      | .terminateService =>
          if svc.isRunning then
            let (outs, _) ← ServerService.requestContainer s e p .terminateRequest
            return (s, .cmdReply sender seqid 0 :: outs)
          else return (s, [.cmdReply sender seqid 0])

/-- `start_service_internal` -/
def startServiceInternal (s : Server) (e : Environment) (pkgname svcName : Bytes)
    (instName : Option Bytes) (action : CmdRequestType) : Option (Server × List Output × ℤ) :=
  match s.getService pkgname svcName instName with
  | none => some (s, [], -ENOTEXISTS)
  | some p => do
      let svc ← s.heap p
      match action with
      | .startService =>
          if svc.isRunning then
            let (outs, ret) ← ServerService.requestContainer s e p .startRequest
            return (s, outs, ret)
          else ServerService.launchService s e p true
      | .terminateService =>
          if svc.isRunning then
            let (outs, ret) ← ServerService.requestContainer s e p .terminateRequest
            return (s, outs, ret)
          else return (s, [], 0)

/-- What can happen to the server. -/
inductive Op
  | addService (pkgname servicename : Bytes) (instName executive ipaddr : Option Bytes)
      (port version : UInt32) (attributes : Flags)
  | removeService (pkgname servicename : Bytes)
  | evlPackage (e : Environment) (sender : EvlClient) (seqid : UInt32) (request : RequestType)
      (serviceInfo : ServicePkginfo)
  | cmdPackage (e : Environment) (sender : EvlClient) (seqid : UInt32)
      (request : CmdRequestType) (serviceInfo : CmdServiceInfo)
  | startService (e : Environment) (pkgname svcName : Bytes) (instName : Option Bytes)
      (action : CmdRequestType)
  | disconnected (cliname instname : Bytes)
  deriving DecidableEq

/-- One step of the server, with what it sends. -/
def step (s : Server) : Op → Option (Server × List Output)
  | .addService pkgname servicename instName executive ipaddr port version attributes =>
      (s.addService pkgname servicename instName executive ipaddr port version attributes).map
        fun r => (r.1, [])
  | .removeService pkgname servicename =>
      (s.removeService pkgname servicename).map fun s => (s, [])
  | .evlPackage e sender seqid request serviceInfo =>
      s.handleEvlPackage e sender seqid request serviceInfo
  | .cmdPackage e sender seqid request serviceInfo =>
      s.handleCmdRequestPackage e sender seqid request serviceInfo
  | .startService e pkgname svcName instName action =>
      (s.startServiceInternal e pkgname svcName instName action).map fun r => (r.1, r.2.1)
  | .disconnected cliname instname =>
      (HostInfo.disconnectHost s cliname instname).map fun r => (r.1, [])

end Server

end V2I.Mware
