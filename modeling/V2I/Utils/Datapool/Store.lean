import Mathlib.Algebra.GroupWithZero.Nat
import V2I.Utils.Datapool

/-!
# V2I.Utils.Datapool.Store

The datapool of a server process and of its clients (`datapool_impl`). The server keeps the pond of
global elements and, for each client name, a pond of local and persistent ones; each process has a
pond of its local elements. The server works on these ponds directly; a client packs a request,
the server handles it and packs the reply, with sizes and offsets in 16 bits.
-/

namespace V2I.Utils.Datapool

inductive Process where
  | server
  | client (c : Client)
  deriving DecidableEq

/-- Where a pond is: `_globalpond`, `_pond_manager` at a client name, `_localpond` of a process. -/
inductive Place where
  | global
  | manager (pondname : Bytes)
  | ofProcess (p : Process)
  deriving DecidableEq

/-- The ponds that there are. -/
structure State where
  pond : Place → Option Pond

namespace State

/-- No elements, and no pond for any client name. -/
def init : State where
  pond
    | .manager _ => none
    | _ => some []

/-- The elements of a pond, none where there is no pond. -/
def elements (s : State) (place : Place) : Pond := (s.pond place).getD []

def set (s : State) (place : Place) (pond : Pond) : State :=
  ⟨Function.update s.pond place (some pond)⟩

end State

/-! ## Packages -/

/-- `element_info`: offsets and sizes have 16 bits; `databufValid` is `validity.m.databuf`. -/
structure ElementInfo where
  isGlobal : Bool
  needPersistent : Bool
  datasz : ℕ
  name : ℕ
  databuf : ℕ
  bufsz : ℕ
  databufValid : Bool
  buf : Bytes

/-- A `uint16_t`. -/
def toUint16 (n : ℕ) : ℕ := n % 2 ^ 16

/-- `memcpy` to an offset. -/
def memcpy (buf : Bytes) (offset : ℕ) (bytes : Bytes) : Bytes :=
  buf.take offset ++ bytes ++ buf.drop (offset + bytes.length)

namespace ElementInfo

/-- A package with room for the bytes, and the name in it. -/
def ofName (name : CString) (isGlobal needPersistent : Bool) (extra : ℕ) : ElementInfo where
  isGlobal
  needPersistent
  datasz := 0
  name := 0
  databuf := 0
  bufsz := toUint16 (name.1.length + 1)
  databufValid := false
  buf := memcpy (List.replicate (name.1.length + 1 + extra) 0) 0 (name.1 ++ [0])

/-- The data behind the name. -/
def withData (info : ElementInfo) (data : Bytes) : ElementInfo :=
  { info with
    buf := memcpy info.buf info.bufsz data
    databuf := info.bufsz
    databufValid := true
    bufsz := toUint16 (info.bufsz + data.length)
    datasz := toUint16 data.length }

/-- `buf + name`, as a string of C. -/
def fetchName (info : ElementInfo) : CString :=
  ⟨(info.buf.drop info.name).takeWhile (· ≠ 0), fun h => by
    simpa using List.all_eq_true.mp List.all_takeWhile 0 h⟩

/-- `datasz` bytes at `buf + databuf`. -/
def fetchData (info : ElementInfo) : Bytes := (info.buf.drop info.databuf).take info.datasz

end ElementInfo

/-- The request of `remote_evl_request`, with data or without. -/
def packRequest (name : CString) (isGlobal needPersistent : Bool) (buf : Option Bytes) :
    ElementInfo :=
  match buf with
  | none => .ofName name isGlobal needPersistent 0
  | some data => (ElementInfo.ofName name isGlobal needPersistent data.length).withData data

/-- The element in a reply: data only where there are any. -/
def packReply (name : CString) (data : Bytes) : ElementInfo :=
  if data.length = 0 then .ofName name false false 0
  else (ElementInfo.ofName name false false data.length).withData data

/-- `dp_evl_msg_retinfo` after `handle_evl_server_reply_pkg`: the result and the data. -/
def unpackReply (name : CString) (result : ℤ) (info : ElementInfo) : ℤ × Bytes :=
  if info.fetchName ≠ name then (-EINVALID, [])
  else (result, if info.databufValid then info.fetchData else [])

/-! ## The server -/

/-- `find_create_pond` -/
def findCreatePond (s : State) (pondname : Bytes) : State × Option Place :=
  if (s.pond (.manager pondname)).isSome then (s, some (.manager pondname))
  else if pondname = [] then (s, none)
  else (s.set (.manager pondname) [], some (.manager pondname))

/-- `find_srv_element`: the pond where the element is, for a server of the client name. -/
def findSrvElement (s : State) (svrname name : Bytes) (isGlobal : Bool) : State × Option Place :=
  if isGlobal then
    (s, if ((s.elements .global).findElementNode name).isSome then some .global else none)
  else if ((s.elements (.ofProcess .server)).findElementNode name).isSome then
    (s, some (.ofProcess .server))
  else
    match findCreatePond s svrname with
    | (s, none) => (s, none)
    | (s, some place) =>
        (s, if ((s.elements place).findElementNode name).isSome then some place else none)

/-- `create_pond_element`, none where it gives no element. -/
def createPondElement (s : State) (place : Place) (name : Bytes) (isGlobal needPersistent : Bool)
    (creator : Option Bytes) : Option State :=
  if isGlobal ∧ creator = none then none
  else ((s.elements place).createElementNode name needPersistent
    (if isGlobal then creator else none)).map (s.set place)

/-- `datapool_dpowner_action` -/
inductive DpownerAction where
  | createElement
  | getElement
  | removeElement
  | checkElement

/-- `handle_evl_client_dp_request`: the result of the reply, none where an assertion fails. -/
def handleEvlClientDpRequest (s : State) (sendername : Bytes) (action : DpownerAction)
    (info : ElementInfo) : Option (State × ℤ × ElementInfo) :=
  let name := info.fetchName
  let reply := packReply name []
  match action with
  | .createElement =>
      if info.isGlobal then
        match createPondElement s .global name.1 true info.needPersistent (some sendername) with
        | some s => some (s, 0, reply)
        | none => some (s, -1, reply)
      else
        match findCreatePond s sendername with
        | (_, none) => none
        | (s, some place) =>
            match createPondElement s place name.1 false info.needPersistent none with
            | some s => some (s, 0, reply)
            | none => some (s, -1, reply)
  | .getElement =>
      if info.isGlobal then
        some (s, if ((s.elements .global).findElementNode name.1).isSome then 0 else -ENOTEXISTS,
          reply)
      else
        match findCreatePond s sendername with
        | (s, none) => some (s, -ENOTFOUND, reply)
        | (s, some place) =>
            some (s, if ((s.elements place).findElementNode name.1).isSome then 0 else -ENOTEXISTS,
              reply)
  | .removeElement =>
      if info.isGlobal then
        let (pond, ret) := (s.elements .global).removePondElement name.1 (some sendername)
        some (s.set .global pond, ret, reply)
      else
        match findCreatePond s sendername with
        | (s, none) => some (s, -ENOTFOUND, reply)
        | (s, some place) =>
            let (pond, ret) := (s.elements place).removePondElement name.1 (some sendername)
            some (s.set place pond, ret, reply)
  | .checkElement =>
      match findCreatePond s sendername with
      | (s, none) => some (s, ENOTFOUND, reply)
      | (s, some place) =>
          some (s, if ((s.elements place).findElementNode name.1).isSome then 0 else ENOTFOUND,
            reply)

/-- `datapool_eleowner_action`, those about data. -/
inductive EleownerAction where
  | getdata
  | setdata
  | notify

/-- `handle_evl_client_element_request`: the result of the reply and its element. -/
def handleEvlClientElementRequest (s : State) (sendername : Bytes) (action : EleownerAction)
    (info : ElementInfo) : State × ℤ × ElementInfo :=
  let name := info.fetchName
  let (s, place) :=
    if info.isGlobal then (s, some Place.global) else findCreatePond s sendername
  match place with
  | none => (s, -1, packReply name [])
  | some place =>
      match (s.elements place).findElementNode name.1 with
      | none => (s, -1, packReply name [])
      | some e =>
          match action with
          | .getdata => (s, 0, packReply name (e.elementData.getD []))
          | .setdata =>
              if info.databufValid then
                (s.set place ((s.elements place).modify name.1
                  fun e => (e.setdata info.fetchData).1), 0, packReply name [])
              else (s, -1, packReply name [])
          | .notify =>
              (s.set place ((s.elements place).modify name.1 fun e =>
                (e.notifyData (if info.databufValid then some info.fetchData else none)).1), 0,
                packReply name [])

/-! ## Operations of the processes -/

/-- The client names of the processes. -/
abbrev Names := Process → CString

variable (names : Names)

/-- `remote_evl_request` about the datapool: the result. -/
def remoteDpRequest (s : State) (c : Client) (action : DpownerAction) (name : CString)
    (isGlobal needPersistent : Bool) : Option (State × ℤ) :=
  (handleEvlClientDpRequest s (names (.client c)).1 action
    (packRequest name isGlobal needPersistent none)).map fun (s, result, info) =>
      (s, (unpackReply name result info).1)

/-- `remote_evl_request` about an element: the result and the data. -/
def remoteElementRequest (s : State) (c : Client) (action : EleownerAction) (name : CString)
    (isGlobal : Bool) (buf : Option Bytes) : State × ℤ × Bytes :=
  let (s, result, info) := handleEvlClientElementRequest s (names (.client c)).1 action
    (packRequest name isGlobal false buf)
  (s, unpackReply name result info)

/-- `create_element`: 0, or -1 where the element has no object. -/
def createElement (s : State) (p : Process) (name : CString) (isGlobal needPersistent : Bool) :
    Option (State × ℤ) :=
  if name.1 = [] then some (s, -1)
  else
    match p with
    | .server =>
        match findSrvElement s (names .server).1 name.1 isGlobal with
        | (s, some _) => some (s, -1)
        | (s, none) =>
            let (s, place) :=
              if isGlobal then (s, some Place.global)
              else if needPersistent then findCreatePond s (names .server).1
              else (s, some (.ofProcess .server))
            match place with
            | none => some (s, -1)
            | some place =>
                match createPondElement s place name.1 isGlobal needPersistent
                    (some (names .server).1) with
                | none => some (s, -1)
                | some s => some (s, 0)
    | .client c =>
        if !isGlobal && ((s.elements (.ofProcess p)).findElementNode name.1).isSome then
          some (s, -1)
        else if !isGlobal && !needPersistent then
          match remoteDpRequest names s c .checkElement name isGlobal needPersistent with
          | none => none
          | some (s, ret) =>
              if ret ≤ 0 then some (s, -1)
              else
                match createPondElement s (.ofProcess p) name.1 isGlobal needPersistent none with
                | none => some (s, -1)
                | some s => some (s, 0)
        else
          (remoteDpRequest names s c .createElement name isGlobal needPersistent).map
            fun (s, ret) => (s, if ret = 0 then 0 else -1)

/-- `get_element`: 0, or -1 where the element has no object. -/
def getElement (s : State) (p : Process) (name : CString) (isGlobal : Bool) : Option (State × ℤ) :=
  if name.1 = [] then some (s, -1)
  else
    match p with
    | .server =>
        let (s, place) := findSrvElement s (names .server).1 name.1 isGlobal
        some (s, if place.isSome then 0 else -1)
    | .client c =>
        if !isGlobal && ((s.elements (.ofProcess p)).findElementNode name.1).isSome then some (s, 0)
        else
          (remoteDpRequest names s c .getElement name isGlobal isGlobal).map
            fun (s, ret) => (s, if ret = 0 then 0 else -1)

/-- `remove_element` -/
def removeElement (s : State) (p : Process) (name : CString) (isGlobal : Bool) :
    Option (State × ℤ) :=
  match p with
  | .server =>
      if isGlobal then
        let (pond, ret) := (s.elements .global).removePondElement name.1 (some (names .server).1)
        some (s.set .global pond, ret)
      else
        let (pond, ret) := (s.elements (.ofProcess .server)).removePondElement name.1 none
        if ret = 0 then some (s.set (.ofProcess .server) pond, ret)
        else
          match findCreatePond s (names .server).1 with
          | (s, none) => some (s, -ENOTFOUND)
          | (s, some place) =>
              let (pond, ret) := (s.elements place).removePondElement name.1 none
              some (s.set place pond, ret)
  | .client c =>
      let (pond, ret) :=
        if isGlobal then ([], -1) else (s.elements (.ofProcess p)).removePondElement name.1 none
      if ret = 0 then some (s.set (.ofProcess p) pond, ret)
      else remoteDpRequest names s c .removeElement name isGlobal false

/-- An operation on the data of an element: its place on the server, the element of the process
itself or a request. -/
def onElement (s : State) (p : Process) (name : CString) (isGlobal : Bool)
    (here : State → Place → State × ℤ × Bytes) (remote : State → Client → State × ℤ × Bytes) :
    State × ℤ × Bytes :=
  match p with
  | .server =>
      match findSrvElement s (names .server).1 name.1 isGlobal with
      | (s, none) => (s, -ENOTFOUND, [])
      | (s, some place) => here s place
  | .client c =>
      if !isGlobal && ((s.elements (.ofProcess p)).findElementNode name.1).isSome then
        here s (.ofProcess p)
      else remote s c

/-- `setdata` -/
def setdata (s : State) (p : Process) (name : CString) (isGlobal : Bool) (buffer : Option Bytes) :
    State × ℤ × Bytes :=
  match buffer with
  | none | some [] => (s, -EBADPARM, [])
  | some (b :: bs) =>
      if name.1 = [] then (s, -EBADPARM, [])
      else
        onElement names s p name isGlobal
          (fun s place =>
            (s.set place ((s.elements place).modify name.1 fun e => (e.setdata (b :: bs)).1), 0,
              []))
          fun s c =>
            let (s, ret, _) :=
              remoteElementRequest names s c .setdata name isGlobal (some (b :: bs))
            (s, ret, [])

/-- `getdata`: a client returns the length of the data whatever the result. -/
def getdata (s : State) (p : Process) (name : CString) (isGlobal : Bool) : State × ℤ × Bytes :=
  if name.1 = [] then (s, -EBADPARM, [])
  else
    onElement names s p name isGlobal
      (fun s place =>
        match (s.elements place).findElementNode name.1 with
        | none => (s, -ENOTFOUND, [])
        | some e => (s, e.getdata.2, e.getdata.1))
      fun s c =>
        let (s, _, data) := remoteElementRequest names s c .getdata name isGlobal none
        (s, data.length, data)

/-- `notify`, as far as the data go. -/
def notify (s : State) (p : Process) (name : CString) (isGlobal : Bool) (buffer : Option Bytes) :
    State × ℤ × Bytes :=
  if name.1 = [] then (s, -EBADPARM, [])
  else
    onElement names s p name isGlobal
      (fun s place =>
        (s.set place ((s.elements place).modify name.1 fun e => (e.notifyData buffer).1), 0, []))
      fun s c =>
        let (s, ret, _) := remoteElementRequest names s c .notify name isGlobal buffer
        (s, ret, [])

/-- An operation on an element by its name, of a process. -/
inductive Call where
  | createElement (p : Process) (name : CString) (isGlobal needPersistent : Bool)
  | getElement (p : Process) (name : CString) (isGlobal : Bool)
  | removeElement (p : Process) (name : CString) (isGlobal : Bool)
  | setdata (p : Process) (name : CString) (isGlobal : Bool) (buffer : Option Bytes)
  | getdata (p : Process) (name : CString) (isGlobal : Bool)
  | notify (p : Process) (name : CString) (isGlobal : Bool) (buffer : Option Bytes)

/-- One operation: its result and the data that it gives; none where an assertion fails. -/
def step (s : State) : Call → Option (State × ℤ × Bytes)
  | .createElement p name isGlobal needPersistent =>
      (createElement names s p name isGlobal needPersistent).map fun (s, ret) => (s, ret, [])
  | .getElement p name isGlobal =>
      (getElement names s p name isGlobal).map fun (s, ret) => (s, ret, [])
  | .removeElement p name isGlobal =>
      (removeElement names s p name isGlobal).map fun (s, ret) => (s, ret, [])
  | .setdata p name isGlobal buffer => some (setdata names s p name isGlobal buffer)
  | .getdata p name isGlobal => some (getdata names s p name isGlobal)
  | .notify p name isGlobal buffer => some (notify names s p name isGlobal buffer)

end V2I.Utils.Datapool
