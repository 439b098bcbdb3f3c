import V2I.Mware.ServiceInfo.Wire

/-!
# V2I.Mware.RpcObservable

Calls of the methods of remote observable objects (`rpcobservable.cpp`): the caller packs the
names, the id and the two payloads of a call into one package (`invoke_observable_method`), the
service unpacks them, calls the handler and packs what it leaves in the in-out message
(`handle_invoke_request_package`, `reply_invoke`), and the caller takes that over
(`handle_invoke_reply_package`).

A package lies in memory from `alloca`, whose bytes are whatever they are. The header of a package
keeps the size of its payload in 32 bits, and the other side gets that many bytes of it. The event
loop brings every package, and the reply to the caller that waits for it. Messages, their parsing
and their serialising are parameters.
-/

namespace V2I.Mware.RpcObservable

open V2I.ByteFile V2I.Packing

/-- The memory that `alloca` returns, by its size. -/
abbrev Alloca := (n : ℕ) → { mem : List UInt8 // mem.length = n }

/-! ## packages -/

/-- `observable_invoke_reqinfo`, each field with its bit of `validity`. The values of `className`,
`methodName`, `inparam` and `inoutparam` are places in the buffer. -/
structure InvokeReqinfo where
  className : Field UInt16 := { value := 0 }
  methodName : Field UInt16 := { value := 0 }
  methodId : Field UInt16 := { value := 0 }
  inparam : Field UInt32 := { value := 0 }
  inparamSz : UInt32 := 0
  inoutparam : Field UInt32 := { value := 0 }
  inoutparamSz : UInt32 := 0
  instid : Field UInt64 := { value := 0 }
  bufsize : UInt32 := 0
  buf : List UInt8

/-- `observable_invoke_request` and the size in the header of its package. -/
structure InvokeRequest where
  size : UInt32
  reqAction : UInt16
  methodUuid : BitVec 128
  reqInfo : InvokeReqinfo

/-- `sizeof(observable_invoke_request)` -/
def sizeofInvokeRequest : ℕ := 72

/-- The place of `req_info.buf` in an `observable_invoke_request`. -/
def offsetofRequestBuf : ℕ := 68

/-- `observable_invoke_reply` and the size in the header of its package. -/
structure InvokeReply where
  size : UInt32
  reqAction : UInt16
  replyType : UInt16
  instid : UInt64
  result : UInt16
  buf : List UInt8

/-- `sizeof(observable_invoke_reply)` -/
def sizeofInvokeReply : ℕ := 24

/-- The place of `reply_info.buf` in an `observable_invoke_reply`. -/
def offsetofReplyBuf : ℕ := 18

/-- `req_action_call_method` -/
def reqActionCallMethod : UInt16 := 0

/-- `reply_type_success` -/
def replyTypeSuccess : UInt16 := 1

/-- `reply_type_no_instance` -/
def replyTypeNoInstance : UInt16 := 3

/-- `reply_type_no_method` -/
def replyTypeNoMethod : UInt16 := 4

/-- `reply_type_no_class` -/
def replyTypeNoClass : UInt16 := 5

/-- What the other side gets of a request: as much as the header says. -/
def InvokeRequest.delivered (r : InvokeRequest) : InvokeRequest :=
  { r with reqInfo := { r.reqInfo with
    buf := r.reqInfo.buf.take (r.size.toNat - offsetofRequestBuf) } }

/-- What the other side gets of a reply. -/
def InvokeReply.delivered (r : InvokeReply) : InvokeReply :=
  { r with buf := r.buf.take (r.size.toNat - offsetofReplyBuf) }

/-! ## the caller -/

/-- The arguments of `invoke_observable_method`: a null method name and an empty one are alike. -/
structure Call where
  instId : UInt64
  clsname : Bytes
  uuid : BitVec 128
  input : Option Bytes
  insize : ℕ
  inout : Bytes
  inoutsize : ℕ
  methodid : UInt32
  methodName : Bytes

/-- What `invoke_observable_method` throws. -/
inductive RpcError
  | invalidParam
  | evloopError
  | returnFailure (replytype : UInt16)
  deriving DecidableEq

namespace Call

/-- `sz` -/
def sz (c : Call) : ℕ :=
  c.clsname.length + 1 + c.insize + c.inoutsize +
    (if c.methodName ≠ [] then c.methodName.length + 1 else 0)

/-- The input that is sent: `insize > 0 && input` -/
def inputBytes (c : Call) : Option Bytes := if c.insize > 0 then c.input else none

/-- The in-out value that is sent: `inoutsize > 0` -/
def inoutBytes (c : Call) : Option Bytes :=
  if c.inoutsize > 0 then some (c.inout.take c.inoutsize) else none

end Call

namespace InvokeReqinfo

/-- What there is to send is copied to a place of the buffer, which counts as longer by as many
bytes, and marked. -/
def write (info : InvokeReqinfo) (place : ℕ) (bytes : Option (List UInt8))
    (mark : InvokeReqinfo → InvokeReqinfo) : Option InvokeReqinfo :=
  match bytes with
  | none => some info
  | some b =>
      (put info.buf place b).map fun buf =>
        mark { info with buf := buf, bufsize := info.bufsize + b.length.toUInt32 }

/-- `class_name` -/
def setClassName (info : InvokeReqinfo) (clsname : Bytes) : Option InvokeReqinfo :=
  let place := info.bufsize.toUInt16
  info.write place.toNat (some (clsname ++ [0])) fun info =>
    { info with className := { valid := true, value := place } }

/-- `method_name` -/
def setMethodName (info : InvokeReqinfo) (methodName : Bytes) : Option InvokeReqinfo :=
  let place := info.bufsize.toUInt16
  info.write place.toNat (if methodName ≠ [] then some (methodName ++ [0]) else none) fun info =>
    { info with methodName := { valid := true, value := place } }

/-- `inparam` -/
def setInparam (info : InvokeReqinfo) (input : Option Bytes) (insize : ℕ) : Option InvokeReqinfo :=
  let place := info.bufsize
  info.write place.toNat input fun info =>
    { info with inparam := { valid := true, value := place }, inparamSz := insize.toUInt32 }

/-- `inoutparam` -/
def setInoutparam (info : InvokeReqinfo) (inout : Option Bytes) (inoutsize : ℕ) :
    Option InvokeReqinfo :=
  let place := info.bufsize
  info.write place.toNat inout fun info =>
    { info with
      inoutparam := { valid := true, value := place }, inoutparamSz := inoutsize.toUInt32 }

end InvokeReqinfo

/-- The package of `invoke_observable_method`; none comes out where it writes behind the end. -/
def Call.request (alloca : Alloca) (c : Call) : Option InvokeRequest := do
  let buf := alloca (sizeofInvokeRequest + c.sz - offsetofRequestBuf)
  let info : InvokeReqinfo := { buf := buf.val }
  let info ← info.setClassName c.clsname
  let info ← info.setMethodName c.methodName
  let info ← info.setInparam c.inputBytes c.insize
  let info ← info.setInoutparam c.inoutBytes c.inoutsize
  some
    { size := (sizeofInvokeRequest + c.sz).toUInt32
      reqAction := reqActionCallMethod
      methodUuid := c.uuid
      reqInfo := { info with
        methodId := { valid := true, value := c.methodid.toUInt16 }
        instid := { valid := true, value := c.instId } } }

/-! ## the service -/

namespace InvokeReqinfo

/-- `clsname` -/
def seenClsname (info : InvokeReqinfo) : Option Bytes :=
  if info.className.valid then cString (info.buf.drop info.className.value.toNat) else some []

/-- `method_name` -/
def seenMethodName (info : InvokeReqinfo) : Option Bytes :=
  if info.methodName.valid then cString (info.buf.drop info.methodName.value.toNat) else some []

/-- `method_id` -/
def seenMethodId (info : InvokeReqinfo) : UInt16 :=
  if info.methodId.valid then info.methodId.value else 0

/-- `inst_id` -/
def seenInstId (info : InvokeReqinfo) : UInt64 :=
  if info.instid.valid then info.instid.value else 0

/-- The bytes that are parsed as the input, where there are some. -/
def seenInparam (info : InvokeReqinfo) : Option (Option Bytes) :=
  if info.inparam.valid then
    (get info.buf info.inparam.value.toNat info.inparamSz.toNat).map some
  else some none

/-- The bytes that are parsed as the in-out value, where there are some. -/
def seenInoutparam (info : InvokeReqinfo) : Option (Option Bytes) :=
  if info.inoutparam.valid then
    (get info.buf info.inoutparam.value.toNat info.inoutparamSz.toNat).map some
  else some none

end InvokeReqinfo

/-- `rpcmethod_node`: whether it has the two messages, and what its handler leaves in the in-out
message. -/
structure Method (Msg : Type) where
  hasInparam : Bool
  hasInoutParam : Bool
  handler : UInt64 → Option Msg → Option Msg → Msg

/-- The service: its classes with their methods, its instances, and its messages. -/
structure Service (Msg : Type) where
  classes : Bytes → Option (BitVec 128 → Option (Method Msg))
  instances : UInt64 → Bool
  empty : Msg
  parse : Bytes → Msg
  serialize : Msg → Bytes

namespace Service

variable {Msg : Type}

/-- `get_observable_interface` -/
def getObservableInterface (srv : Service Msg) (clsname : Bytes) :
    Option (BitVec 128 → Option (Method Msg)) :=
  if clsname = [] then none else srv.classes clsname

/-- `find_instance_unlocked`: whether there is one. -/
def findInstance (srv : Service Msg) (instId : UInt64) : Bool :=
  instId ≠ 0 && srv.instances instId

/-- `reply_invoke`; `SerializeToArray` writes nothing where the size it is given is too small. -/
def replyInvoke (srv : Service Msg) (alloca : Alloca) (reqAction replyType : UInt16)
    (instid : UInt64) (retmsg : Option Msg) : Option InvokeReply :=
  let bytes := if replyType = replyTypeSuccess then retmsg.map srv.serialize else none
  let sz := (bytes.map fun b => b.length + 1).getD 0
  let buf := (alloca (sizeofInvokeReply + sz - offsetofReplyBuf)).val
  let reply : InvokeReply :=
    { size := (sizeofInvokeReply + sz).toUInt32, reqAction := reqAction, replyType := replyType
      instid := instid, result := 0, buf := buf }
  match bytes with
  | none => some reply
  | some b =>
      let result := b.length.toUInt16
      if b.length ≤ result.toNat then
        (put buf 0 b).map fun buf => { reply with result := result, buf := buf }
      else some { reply with result := result }

/-- What is parsed into a message of a method. -/
def message (srv : Service Msg) (has : Bool) (bytes : Option (Option Bytes)) :
    Option (Option Msg) :=
  if has then bytes.map fun b => some (b.elim srv.empty srv.parse) else some none

/-- `handle_invoke_request_package` -/
def handleInvokeRequestPackage (srv : Service Msg) (alloca : Alloca) (req : InvokeRequest) :
    Option InvokeReply := do
  let info := req.reqInfo
  let clsname ← info.seenClsname
  let _ ← info.seenMethodName
  let instId := info.seenInstId
  match srv.getObservableInterface clsname with
  | none => srv.replyInvoke alloca req.reqAction replyTypeNoClass instId none
  | some methods =>
      if !srv.findInstance instId then
        srv.replyInvoke alloca req.reqAction replyTypeNoInstance instId none
      else
        match methods req.methodUuid with
        | none => srv.replyInvoke alloca req.reqAction replyTypeNoMethod instId none
        | some method => do
            let inproto ← srv.message method.hasInparam info.seenInparam
            let outproto ← srv.message method.hasInoutParam info.seenInoutparam
            let outproto := outproto.map fun _ => method.handler instId inproto outproto
            srv.replyInvoke alloca req.reqAction replyTypeSuccess instId outproto

end Service

/-! ## the caller again -/

/-- `handle_invoke_reply_package`: the type of the reply and the new in-out value. -/
def handleInvokeReplyPackage (reply : InvokeReply) (inout : Bytes) : Option (UInt16 × Bytes) :=
  if reply.replyType ≠ replyTypeSuccess then some (reply.replyType, inout)
  else if reply.result > 0 then
    (get reply.buf 0 reply.result.toNat).map fun bytes => (reply.replyType, bytes)
  else some (reply.replyType, [])

/-- `invoke_observable_method`, with the service at the other side. -/
def invokeObservableMethod {Msg : Type} (srv : Service Msg) (alloca : Alloca) (hasClient : Bool)
    (c : Call) : Option (Except RpcError Bytes) :=
  if c.instId = 0 then some (.error .invalidParam)
  else if !hasClient then some (.error .evloopError)
  else do
    let req ← c.request alloca
    let reply ← srv.handleInvokeRequestPackage alloca req.delivered
    let (replytype, inout) ← handleInvokeReplyPackage reply.delivered c.inout
    if replytype ≠ replyTypeSuccess then some (.error (.returnFailure replytype))
    else some (.ok inout)

end V2I.Mware.RpcObservable
