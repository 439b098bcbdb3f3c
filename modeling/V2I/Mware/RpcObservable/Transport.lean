import V2I.Mware.RpcObservable

/-!
# V2I.Mware.RpcObservable.Transport

When a call brings its arguments to the other side and the result back, byte by byte. The parts of
a request go into its buffer one after the other, but the places of the names are kept in 16 bits
and those of the payloads in 32, so a part may be written over earlier ones; and the size of the
result is kept in 16 bits, so a longer one is cut. A call is brought over exactly if its parts are
laid out without harm and its result has fewer than 2^16 bytes (`transports_iff`).
-/

namespace V2I.Mware.RpcObservable

open V2I.ByteFile V2I.Packing List Option

/-! ## the parts of a request -/

/-- What there is to send, as a piece of the buffer. -/
def part (place : ℕ) (bytes : Option (List UInt8)) : List (Piece UInt8) :=
  bytes.toList.map (Piece.mk place)

/-- How many bytes there are to send. -/
def partSize (bytes : Option (List UInt8)) : ℕ := (bytes.map List.length).getD 0

/-- A field of the request whose part is sent is marked. -/
def marked {α : Type} (bytes : Option (List UInt8)) (place : α) (old : Field α) : Field α :=
  if bytes.isSome then { valid := true, value := place } else old

namespace Call

/-- The arguments of a remote call: the instance is not null, no name has a zero byte in it, the
method id fits into 16 bits and the sizes into 32, and the payloads have the sizes that are given
with them. -/
structure Valid (c : Call) : Prop where
  instId_ne : c.instId ≠ 0
  clsname : 0 ∉ c.clsname
  methodName : 0 ∉ c.methodName
  methodid_lt : c.methodid.toNat < 2 ^ 16
  insize_lt : c.insize < 2 ^ 32
  inoutsize_lt : c.inoutsize < 2 ^ 32
  length_input : ∀ b ∈ c.input, b.length = c.insize
  inoutsize_le : c.inoutsize ≤ c.inout.length

/-- The method name that is sent. -/
def methodBytes (c : Call) : Option Bytes :=
  if c.methodName ≠ [] then some (c.methodName ++ [0]) else none

/-- Where the method name goes: the place is kept in 16 bits. -/
def methodPlace (c : Call) : ℕ := (c.clsname.length + 1) % 2 ^ 16

/-- How many bytes the names take. -/
def namesSize (c : Call) : ℕ := c.clsname.length + 1 + partSize c.methodBytes

/-- Where the input goes: the place is kept in 32 bits. -/
def inputPlace (c : Call) : ℕ := c.namesSize % 2 ^ 32

/-- Where the in-out value goes. -/
def inoutPlace (c : Call) : ℕ := (c.namesSize + partSize c.inputBytes) % 2 ^ 32

/-- The parts of a request with their places. -/
def parts (c : Call) : List (Piece UInt8) :=
  ⟨0, c.clsname ++ [0]⟩ ::
    (part c.methodPlace c.methodBytes ++
      (part c.inputPlace c.inputBytes ++ part c.inoutPlace c.inoutBytes))

/-- How much of the buffer the other side gets: the size of the package is kept in 32 bits. -/
def room (c : Call) : ℕ := (sizeofInvokeRequest + c.sz) % 2 ^ 32 - offsetofRequestBuf

/-- The parts end within what the other side gets, and agree where their places overlap. -/
structure LaysOut (c : Call) : Prop where
  stop_le : ∀ p ∈ c.parts, p.stop ≤ c.room
  agrees : c.parts.Pairwise Piece.Agrees

/-- The fields of the request in front of a buffer. -/
def packed (c : Call) (buf : List UInt8) : InvokeReqinfo where
  className := { valid := true, value := 0 }
  methodName := marked c.methodBytes (c.clsname.length + 1).toUInt32.toUInt16 { value := 0 }
  methodId := { valid := true, value := c.methodid.toUInt16 }
  inparam := marked c.inputBytes c.namesSize.toUInt32 { value := 0 }
  inparamSz := if c.inputBytes.isSome then c.insize.toUInt32 else 0
  inoutparam :=
    marked c.inoutBytes (c.namesSize + partSize c.inputBytes).toUInt32 { value := 0 }
  inoutparamSz := if c.inoutBytes.isSome then c.inoutsize.toUInt32 else 0
  instid := { valid := true, value := c.instId }
  bufsize := (c.namesSize + partSize c.inputBytes + partSize c.inoutBytes).toUInt32
  buf := buf

end Call

/-! ## packing -/

namespace InvokeReqinfo

variable {info : InvokeReqinfo} {n : ℕ}

/-- Where the next part goes. -/
theorem bufsize_add (hsize : info.bufsize = n.toUInt32) (b : List UInt8) :
    info.bufsize + b.length.toUInt32 = (n + partSize (some b)).toUInt32 := by
  rw [hsize]
  exact (UInt32.ofNat_add n b.length).symm

/-- What is sent is put at its place, and the next part goes behind it. -/
theorem write_eq (hsize : info.bufsize = n.toUInt32) (place : ℕ) (bytes : Option (List UInt8))
    (mark : InvokeReqinfo → InvokeReqinfo) :
    info.write place bytes mark =
      (putAll info.buf (part place bytes)).map fun buf =>
        bytes.elim id (fun _ => mark)
          { info with buf := buf, bufsize := (n + partSize bytes).toUInt32 } := by
  cases bytes with
  | none =>
      rw [show n + partSize none = n from rfl, ← hsize]
      rfl
  | some b =>
      rw [part, toList_some, map_singleton, putAll, ← bufsize_add hsize]
      exact congrArg (Option.map _) (bind_fun_some _).symm

theorem setClassName_eq (hsize : info.bufsize = n.toUInt32) (clsname : Bytes) :
    info.setClassName clsname =
      (putAll info.buf (part n.toUInt32.toUInt16.toNat (some (clsname ++ [0])))).map fun buf =>
        { info with
          buf := buf
          bufsize := (n + partSize (some (clsname ++ [0]))).toUInt32
          className := { valid := true, value := n.toUInt32.toUInt16 } } := by
  rw [setClassName, write_eq hsize, hsize]
  rfl

theorem setMethodName_eq (hsize : info.bufsize = n.toUInt32) (c : Call) :
    info.setMethodName c.methodName =
      (putAll info.buf (part n.toUInt32.toUInt16.toNat c.methodBytes)).map fun buf =>
        { info with
          buf := buf
          bufsize := (n + partSize c.methodBytes).toUInt32
          methodName := marked c.methodBytes n.toUInt32.toUInt16 info.methodName } := by
  rw [setMethodName, ← Call.methodBytes, write_eq hsize, hsize]
  cases c.methodBytes with
  | none => rfl
  | some b => rfl

theorem setInparam_eq (hsize : info.bufsize = n.toUInt32) (input : Option Bytes) (insize : ℕ) :
    info.setInparam input insize =
      (putAll info.buf (part n.toUInt32.toNat input)).map fun buf =>
        { info with
          buf := buf
          bufsize := (n + partSize input).toUInt32
          inparam := marked input n.toUInt32 info.inparam
          inparamSz := if input.isSome then insize.toUInt32 else info.inparamSz } := by
  rw [setInparam, write_eq hsize, hsize]
  cases input with
  | none => rfl
  | some b => rfl

theorem setInoutparam_eq (hsize : info.bufsize = n.toUInt32) (inout : Option Bytes)
    (inoutsize : ℕ) :
    info.setInoutparam inout inoutsize =
      (putAll info.buf (part n.toUInt32.toNat inout)).map fun buf =>
        { info with
          buf := buf
          bufsize := (n + partSize inout).toUInt32
          inoutparam := marked inout n.toUInt32 info.inoutparam
          inoutparamSz := if inout.isSome then inoutsize.toUInt32 else info.inoutparamSz } := by
  rw [setInoutparam, write_eq hsize, hsize]
  cases inout with
  | none => rfl
  | some b => rfl

end InvokeReqinfo

namespace Call

theorem toNat_toUInt16 (n : ℕ) : n.toUInt32.toUInt16.toNat = n % 2 ^ 16 := by
  rw [UInt32.toNat_toUInt16]
  show (UInt32.ofNat n).toNat % 2 ^ 16 = _
  rw [UInt32.toNat_ofNat']
  exact Nat.mod_mod_of_dvd n (by decide)

theorem toNat_toUInt32 (n : ℕ) : n.toUInt32.toNat = n % 2 ^ 32 := UInt32.toNat_ofNat'

/-- **The request is its parts**, at their places, behind its fields. -/
theorem request_eq (c : Call) (alloca : Alloca) :
    c.request alloca =
      (putAll (alloca (sizeofInvokeRequest + c.sz - offsetofRequestBuf)).val c.parts).map fun buf =>
        { size := (sizeofInvokeRequest + c.sz).toUInt32
          reqAction := reqActionCallMethod
          methodUuid := c.uuid
          reqInfo := c.packed buf } := by
  have hparts : c.parts =
      part (0 : ℕ).toUInt32.toUInt16.toNat (some (c.clsname ++ [0])) ++
        (part (c.clsname.length + 1).toUInt32.toUInt16.toNat c.methodBytes ++
          (part c.namesSize.toUInt32.toNat c.inputBytes ++
            part (c.namesSize + partSize c.inputBytes).toUInt32.toNat c.inoutBytes)) := by
    simp only [toNat_toUInt16, toNat_toUInt32]
    rfl
  have hcls : 0 + partSize (some (c.clsname ++ [0])) = c.clsname.length + 1 := by
    simp [partSize]
  have hfirst (buf : List UInt8) :
      InvokeReqinfo.setClassName { buf := buf } c.clsname = _ :=
    InvokeReqinfo.setClassName_eq (n := 0) rfl c.clsname
  simp only [request, bind_eq_bind]
  rw [hparts, hfirst]
  simp only [putAll_append]
  cases putAll (alloca (sizeofInvokeRequest + c.sz - offsetofRequestBuf)).val
      (part (0 : ℕ).toUInt32.toUInt16.toNat (some (c.clsname ++ [0]))) with
  | none => rfl
  | some buf =>
      simp only [map_some, bind_some, hcls]
      rw [InvokeReqinfo.setMethodName_eq (n := c.clsname.length + 1) rfl]
      cases putAll buf (part (c.clsname.length + 1).toUInt32.toUInt16.toNat c.methodBytes) with
      | none => rfl
      | some buf =>
          simp only [map_some, bind_some]
          rw [InvokeReqinfo.setInparam_eq (n := c.namesSize) rfl]
          cases putAll buf (part c.namesSize.toUInt32.toNat c.inputBytes) with
          | none => rfl
          | some buf =>
              simp only [map_some, bind_some]
              rw [InvokeReqinfo.setInoutparam_eq (n := c.namesSize + partSize c.inputBytes) rfl,
                bind_map]
              cases putAll buf
                  (part (c.namesSize + partSize c.inputBytes).toUInt32.toNat c.inoutBytes) with
              | none => rfl
              | some buf => rfl

variable {bytes : Option (List UInt8)} {place : ℕ}

theorem mem_part {p : Piece UInt8} :
    p ∈ part place bytes ↔ ∃ b, bytes = some b ∧ ⟨place, b⟩ = p := by
  simp [part]

variable {P : Piece UInt8 → Prop}

theorem forall_mem_part : (∀ p ∈ part place bytes, P p) ↔ ∀ b, bytes = some b → P ⟨place, b⟩ := by
  simp [part]

theorem stop_of_mem_part {p : Piece UInt8} (hp : p ∈ part place bytes) :
    p.pos = place ∧ p.stop = place + partSize bytes := by
  obtain ⟨b, rfl, rfl⟩ := mem_part.1 hp
  exact ⟨rfl, rfl⟩

theorem pairwise_part (place : ℕ) (bytes : Option (List UInt8)) :
    (part place bytes).Pairwise Piece.Agrees := by
  cases bytes with
  | none => exact .nil
  | some b => exact pairwise_singleton _ _

variable {c : Call}

theorem forall_mem_parts :
    (∀ p ∈ c.parts, P p) ↔
      P ⟨0, c.clsname ++ [0]⟩ ∧ (∀ b, c.methodBytes = some b → P ⟨c.methodPlace, b⟩) ∧
        (∀ b, c.inputBytes = some b → P ⟨c.inputPlace, b⟩) ∧
        ∀ b, c.inoutBytes = some b → P ⟨c.inoutPlace, b⟩ := by
  rw [parts, forall_mem_cons, forall_mem_append, forall_mem_append,
    forall_mem_part, forall_mem_part, forall_mem_part]

variable {b : Bytes}

theorem Valid.inputBytes_eq (h : c.Valid) (hb : c.inputBytes = some b) :
    b ≠ [] ∧ b.length = c.insize := by
  rw [inputBytes] at hb
  split at hb
  · next hpos =>
    have hlen := h.length_input b hb
    exact ⟨length_pos_iff.1 (hlen ▸ hpos), hlen⟩
  · contradiction

theorem Valid.inoutBytes_eq (h : c.Valid) (hb : c.inoutBytes = some b) :
    b ≠ [] ∧ b.length = c.inoutsize := by
  rw [inoutBytes] at hb
  split at hb
  · next hpos =>
    have hlen : b.length = c.inoutsize := by
      rw [← some.inj hb, length_take, Nat.min_eq_left h.inoutsize_le]
    exact ⟨length_pos_iff.1 (hlen ▸ hpos), hlen⟩
  · contradiction

theorem methodBytes_eq (hb : c.methodBytes = some b) :
    c.methodName ≠ [] ∧ b = c.methodName ++ [0] := by
  rw [methodBytes] at hb
  split at hb
  · next hne => exact ⟨hne, (some.inj hb).symm⟩
  · contradiction

/-- The size that is computed before is that of the parts, or more where the input is null. -/
theorem Valid.partSize_le (h : c.Valid) :
    c.namesSize + partSize c.inputBytes + partSize c.inoutBytes ≤ c.sz := by
  have hmethod : partSize c.methodBytes =
      if c.methodName ≠ [] then c.methodName.length + 1 else 0 := by
    rw [methodBytes]
    split <;> simp [partSize]
  have hinput : partSize c.inputBytes ≤ c.insize := by
    cases hb : c.inputBytes with
    | none => exact Nat.zero_le _
    | some b => exact (h.inputBytes_eq hb).2.le
  have hinout : partSize c.inoutBytes ≤ c.inoutsize := by
    cases hb : c.inoutBytes with
    | none => exact Nat.zero_le _
    | some b => exact (h.inoutBytes_eq hb).2.le
  rw [namesSize, hmethod, sz]
  omega

/-- **The request fits its buffer.** -/
theorem Valid.stop_le (h : c.Valid) : ∀ p ∈ c.parts, p.stop ≤ c.sz := by
  have hsize := h.partSize_le
  have hmod16 : c.methodPlace ≤ c.clsname.length + 1 := Nat.mod_le _ _
  have hmod32 : c.inputPlace ≤ c.namesSize := Nat.mod_le _ _
  have hmod32' : c.inoutPlace ≤ c.namesSize + partSize c.inputBytes := Nat.mod_le _ _
  rw [namesSize] at hsize hmod32 hmod32'
  rw [forall_mem_parts]
  refine ⟨?_, fun b hb => ?_, fun b hb => ?_, fun b hb => ?_⟩
  · show 0 + (c.clsname ++ [0]).length ≤ c.sz
    rw [length_append, length_singleton]
    omega
  · have hb' : partSize c.methodBytes = b.length := by rw [hb]; rfl
    show c.methodPlace + b.length ≤ c.sz
    omega
  · have hb' : partSize c.inputBytes = b.length := by rw [hb]; rfl
    show c.inputPlace + b.length ≤ c.sz
    omega
  · have hb' : partSize c.inoutBytes = b.length := by rw [hb]; rfl
    show c.inoutPlace + b.length ≤ c.sz
    omega

end Call

/-! ## what the other side sees -/

/-- The other side sees the names, the ids and the payloads of a call, and a payload exactly if it
is not empty. -/
structure InvokeRequest.Sees (r : InvokeRequest) (c : Call) : Prop where
  reqAction : r.reqAction = reqActionCallMethod
  methodUuid : r.methodUuid = c.uuid
  clsname : r.reqInfo.seenClsname = some c.clsname
  methodName : r.reqInfo.seenMethodName = some c.methodName
  methodId : r.reqInfo.seenMethodId.toNat = c.methodid.toNat
  instId : r.reqInfo.seenInstId = c.instId
  inparam : r.reqInfo.seenInparam = some c.inputBytes
  inoutparam : r.reqInfo.seenInoutparam = some c.inoutBytes

namespace Call

variable {c : Call} {buf : List UInt8}

theorem Valid.seenClsname_iff (h : c.Valid) :
    (c.packed buf).seenClsname = some c.clsname ↔
      (Piece.mk 0 (c.clsname ++ [0])).Stands buf :=
  cString_drop_eq_some_iff h.clsname

theorem Valid.seenMethodName_iff (h : c.Valid) :
    (c.packed buf).seenMethodName = some c.methodName ↔
      ∀ b, c.methodBytes = some b → (Piece.mk c.methodPlace b).Stands buf := by
  cases hb : c.methodBytes with
  | none =>
      have hempty : c.methodName = [] := by
        rw [methodBytes] at hb
        by_contra hne
        rw [if_pos hne] at hb
        contradiction
      have hmarked : (c.packed buf).methodName.valid = false := by simp [packed, marked, hb]
      rw [InvokeReqinfo.seenMethodName, hmarked, hempty]
      simp
  | some b =>
      obtain ⟨-, rfl⟩ := methodBytes_eq hb
      have hmarked : (c.packed buf).methodName =
          { valid := true, value := (c.clsname.length + 1).toUInt32.toUInt16 } := by
        simp only [packed, marked, hb, isSome_some, if_true]
      rw [InvokeReqinfo.seenMethodName, hmarked, if_pos rfl]
      dsimp only
      rw [toNat_toUInt16]
      refine (cString_drop_eq_some_iff h.methodName).trans ?_
      exact ⟨fun hst b hb' => some.inj hb' ▸ hst, fun hst => hst _ rfl⟩

/-- A payload is read at the place that is kept of it. -/
theorem get_marked_iff {bytes : Option Bytes} {n : ℕ} {sz : UInt32}
    (hbytes : ∀ b, bytes = some b → b ≠ [] ∧ sz.toNat = b.length) :
    (if (marked bytes n.toUInt32 { value := 0 }).valid then
        (get buf (marked bytes n.toUInt32 { value := 0 }).value.toNat sz.toNat).map some
      else some none) = some bytes ↔
      ∀ b, bytes = some b → (Piece.mk (n % 2 ^ 32) b).Stands buf := by
  cases bytes with
  | none => exact ⟨fun _ b hb => by contradiction, fun _ => rfl⟩
  | some b =>
      obtain ⟨hne, hsz⟩ := hbytes b rfl
      have hmarked : marked (some b) n.toUInt32 { value := 0 } =
          { valid := true, value := n.toUInt32 } := rfl
      rw [hmarked, if_pos rfl, hsz]
      dsimp only
      rw [toNat_toUInt32, map_eq_some_iff]
      constructor
      · rintro ⟨x, hx, heq⟩ b' hb'
        rw [heq] at hx
        rw [← some.inj hb']
        exact (get_eq_some_iff hne).1 (by rw [hx])
      · intro h
        exact ⟨b, (get_eq_some_iff hne).2 (h b rfl), rfl⟩

theorem Valid.seenInparam_iff (h : c.Valid) :
    (c.packed buf).seenInparam = some c.inputBytes ↔
      ∀ b, c.inputBytes = some b → (Piece.mk c.inputPlace b).Stands buf := by
  refine get_marked_iff fun b hb => ?_
  obtain ⟨hne, hlen⟩ := h.inputBytes_eq hb
  refine ⟨hne, ?_⟩
  simp only [packed, hb, isSome_some, if_true]
  rw [toNat_toUInt32, hlen, Nat.mod_eq_of_lt h.insize_lt]

theorem Valid.seenInoutparam_iff (h : c.Valid) :
    (c.packed buf).seenInoutparam = some c.inoutBytes ↔
      ∀ b, c.inoutBytes = some b → (Piece.mk c.inoutPlace b).Stands buf := by
  refine get_marked_iff fun b hb => ?_
  obtain ⟨hne, hlen⟩ := h.inoutBytes_eq hb
  refine ⟨hne, ?_⟩
  simp only [packed, hb, isSome_some, if_true]
  rw [toNat_toUInt32, hlen, Nat.mod_eq_of_lt h.inoutsize_lt]

/-- No part is empty. -/
theorem Valid.part_ne_nil (h : c.Valid) : ∀ p ∈ c.parts, p.bytes ≠ [] := by
  rw [forall_mem_parts]
  refine ⟨by simp, fun b hb => ?_, fun b hb => (h.inputBytes_eq hb).1,
    fun b hb => (h.inoutBytes_eq hb).1⟩
  rw [(methodBytes_eq hb).2]
  simp

/-- **The other side sees a call exactly if its parts are laid out without harm.** -/
theorem Valid.sees_iff (h : c.Valid) {alloca : Alloca} {r : InvokeRequest}
    (hr : c.request alloca = some r) : r.delivered.Sees c ↔ c.LaysOut := by
  rw [request_eq] at hr
  obtain ⟨buf, hput, rfl⟩ := map_eq_some_iff.1 hr
  have hroom : (sizeofInvokeRequest + c.sz).toUInt32.toNat - offsetofRequestBuf = c.room := by
    rw [toNat_toUInt32, room]
  have hstands : (∀ p ∈ c.parts, p.Stands (buf.take c.room)) ↔ c.LaysOut := by
    constructor
    · intro hall
      have hall' p (hp : p ∈ c.parts) := (Piece.stands_take_iff (h.part_ne_nil p hp)).1 (hall p hp)
      exact ⟨fun p hp => (hall' p hp).2, (putAll_stands_iff hput).1 fun p hp => (hall' p hp).1⟩
    · intro hlays p hp
      exact (Piece.stands_take_iff (h.part_ne_nil p hp)).2
        ⟨(putAll_stands_iff hput).2 hlays.agrees p hp, hlays.stop_le p hp⟩
  have hdelivered : (InvokeRequest.delivered
      { size := (sizeofInvokeRequest + c.sz).toUInt32
        reqAction := reqActionCallMethod
        methodUuid := c.uuid
        reqInfo := c.packed buf }).reqInfo = c.packed (buf.take c.room) := by
    rw [← hroom]
    rfl
  rw [← hstands, forall_mem_parts, ← h.seenClsname_iff, ← h.seenMethodName_iff,
    ← h.seenInparam_iff, ← h.seenInoutparam_iff]
  constructor
  · intro hsees
    rw [← hdelivered]
    exact ⟨hsees.clsname, hsees.methodName, hsees.inparam, hsees.inoutparam⟩
  · rw [← hdelivered]
    rintro ⟨hcls, hmethod, hin, hinout⟩
    have hid : c.methodid.toUInt16.toNat = c.methodid.toNat := by
      rw [UInt32.toNat_toUInt16, Nat.mod_eq_of_lt h.methodid_lt]
    exact ⟨rfl, rfl, hcls, hmethod, hid, rfl, hin, hinout⟩

end Call

/-! ## the result -/

namespace Service

variable {Msg : Type} {srv : Service Msg} {c : Call} {alloca : Alloca}

/-- What the handler of the method that a call names leaves in the in-out message of the method,
if it has one. There is no outcome where the service has no such class, instance or method. -/
def outcome (srv : Service Msg) (c : Call) : Option (Option Msg) := do
  let methods ← srv.getObservableInterface c.clsname
  if srv.findInstance c.instId then
    let method ← methods c.uuid
    let message (has : Bool) (bytes : Option Bytes) : Option Msg :=
      if has then some (bytes.elim srv.empty srv.parse) else none
    let outproto := message method.hasInoutParam c.inoutBytes
    some (outproto.map fun _ =>
      method.handler c.instId (message method.hasInparam c.inputBytes) outproto)
  else none

/-- The bytes that `reply_invoke` serialises. -/
def serialized (srv : Service Msg) (ret : Option Msg) : Bytes := (ret.map srv.serialize).getD []

theorem message_eq {bytes : Option (Option Bytes)} {b : Option Bytes} (h : bytes = some b)
    (has : Bool) :
    srv.message has bytes = some (if has then some (b.elim srv.empty srv.parse) else none) := by
  rw [message, h]
  cases has <;> rfl

/-- A call that is seen as it is gets its outcome as the reply. -/
theorem handleInvokeRequestPackage_eq {r : InvokeRequest} {ret : Option Msg} (hsees : r.Sees c)
    (hret : srv.outcome c = some ret) :
    srv.handleInvokeRequestPackage alloca r =
      srv.replyInvoke alloca reqActionCallMethod replyTypeSuccess c.instId ret := by
  simp only [outcome, bind_eq_bind, bind_eq_some_iff] at hret
  obtain ⟨methods, hmethods, hret⟩ := hret
  split at hret
  · next hhas =>
    obtain ⟨method, hmethod, hret⟩ := bind_eq_some_iff.1 hret
    simp only [handleInvokeRequestPackage, hsees.clsname, hsees.methodName, hsees.instId,
      hsees.methodUuid, hsees.reqAction, bind_eq_bind, bind_some, hmethods, hhas,
      hmethod, message_eq hsees.inparam, message_eq hsees.inoutparam, Bool.not_true,
      Bool.false_eq_true, if_false]
    rw [some.inj hret]
  · contradiction

/-- The reply with a message. -/
theorem replyInvoke_some (alloca : Alloca) (m : Msg) (reqAction : UInt16) (instid : UInt64) :
    ∃ r, srv.replyInvoke alloca reqAction replyTypeSuccess instid (some m) = some r ∧
      r.replyType = replyTypeSuccess ∧ r.result = (srv.serialize m).length.toUInt16 ∧
      ((srv.serialize m).length < 2 ^ 16 →
        r.size.toNat = sizeofInvokeReply + ((srv.serialize m).length + 1) ∧
          (Piece.mk 0 (srv.serialize m)).Stands r.buf) := by
  let b := srv.serialize m
  have hreply : srv.replyInvoke alloca reqAction replyTypeSuccess instid (some m) =
      if b.length ≤ b.length.toUInt16.toNat then
        (put (alloca (sizeofInvokeReply + (b.length + 1) - offsetofReplyBuf)).val 0 b).map
          fun buf =>
          { size := (sizeofInvokeReply + (b.length + 1)).toUInt32, reqAction := reqAction
            replyType := replyTypeSuccess, instid := instid, result := b.length.toUInt16
            buf := buf }
      else
        some
          { size := (sizeofInvokeReply + (b.length + 1)).toUInt32, reqAction := reqAction
            replyType := replyTypeSuccess, instid := instid, result := b.length.toUInt16
            buf := (alloca (sizeofInvokeReply + (b.length + 1) - offsetofReplyBuf)).val } := rfl
  rw [hreply]
  split
  · have hfit : 0 + b.length ≤
        (alloca (sizeofInvokeReply + (b.length + 1) - offsetofReplyBuf)).val.length := by
      rw [(alloca _).property, sizeofInvokeReply, offsetofReplyBuf]
      omega
    obtain ⟨buf', hput⟩ := isSome_iff_exists.1 (put_isSome_iff.2 hfit)
    rw [hput]
    refine ⟨_, rfl, rfl, rfl, fun hlt => ⟨?_, Piece.stands_put hput⟩⟩
    exact UInt32.toNat_ofNat_of_lt (by
      change b.length < 2 ^ 16 at hlt
      rw [sizeofInvokeReply, UInt32.size]
      omega)
  · next hlong =>
    refine ⟨_, rfl, rfl, rfl, fun hlt => absurd ?_ hlong⟩
    exact (UInt16.toNat_ofNat_of_lt hlt).ge

theorem toNat_eq_zero {n : UInt16} (h : ¬ n > 0) : n.toNat = 0 :=
  Nat.eq_zero_of_not_pos fun hpos => h (UInt16.lt_iff_toNat_lt.2 hpos)

/-- A result of fewer than 2^16 bytes comes back as it is. -/
theorem exists_replyInvoke (alloca : Alloca) {ret : Option Msg}
    (hret : (srv.serialized ret).length < 2 ^ 16)
    (reqAction : UInt16) (instid : UInt64) (inout : Bytes) :
    ∃ r, srv.replyInvoke alloca reqAction replyTypeSuccess instid ret = some r ∧
      handleInvokeReplyPackage r.delivered inout =
        some (replyTypeSuccess, srv.serialized ret) := by
  cases ret with
  | none => exact ⟨_, rfl, rfl⟩
  | some m =>
      obtain ⟨r, hr, htype, hresult, hstands⟩ :=
        replyInvoke_some alloca m reqAction instid
      change (srv.serialize m).length < 2 ^ 16 at hret
      obtain ⟨hsize, hstands⟩ := hstands hret
      refine ⟨r, hr, ?_⟩
      have hcount : r.result.toNat = (srv.serialize m).length := by
        rw [hresult]
        exact UInt16.toNat_ofNat_of_lt hret
      have hdelivered : r.delivered.replyType = replyTypeSuccess := htype
      rw [handleInvokeReplyPackage, hdelivered, if_neg (not_not.2 rfl)]
      show (if r.result > 0 then _ else _) = some (replyTypeSuccess, srv.serialize m)
      split
      · next hpos =>
        have hne : srv.serialize m ≠ [] := by
          rw [← length_pos_iff, ← hcount]
          exact hpos
        have hroom : (srv.serialize m).length ≤ r.size.toNat - offsetofReplyBuf := by
          rw [hsize, sizeofInvokeReply, offsetofReplyBuf]
          omega
        have hget : get r.delivered.buf 0 (srv.serialize m).length = some (srv.serialize m) :=
          (get_eq_some_iff hne).2 ((Piece.stands_take_iff hne).2
            ⟨hstands, by rwa [Piece.stop, Nat.zero_add]⟩)
        show (get r.delivered.buf 0 r.result.toNat).map _ = _
        rw [hcount, hget, map_some]
      · next hzero =>
        have hempty : srv.serialize m = [] := by
          rw [← length_eq_zero_iff, ← hcount]
          exact toNat_eq_zero hzero
        rw [hempty]

/-- Whatever comes back has as many bytes as the reply says. -/
theorem length_handleInvokeReplyPackage {r : InvokeReply} {inout bytes : Bytes} {t : UInt16}
    (htype : r.replyType = replyTypeSuccess)
    (h : handleInvokeReplyPackage r inout = some (t, bytes)) : bytes.length = r.result.toNat := by
  rw [handleInvokeReplyPackage, if_neg (not_not.2 htype)] at h
  split at h
  · obtain ⟨b, hb, heq⟩ := map_eq_some_iff.1 h
    rw [← (Prod.mk.inj heq).2]
    exact length_get hb
  · next hzero =>
    rw [← (Prod.mk.inj (some.inj h)).2, toNat_eq_zero hzero]
    rfl

end Service

/-! ## whole calls -/

section

variable {Msg : Type} {srv : Service Msg} {c : Call}

/-- A call is brought over exactly: its package can be built, the other side sees what the caller
gave, and where there is an outcome the in-out value becomes what is serialised of it. -/
def Transports (srv : Service Msg) (c : Call) : Prop :=
  ∀ alloca : Alloca, ∃ r, c.request alloca = some r ∧ r.delivered.Sees c ∧
    ∀ ret, srv.outcome c = some ret →
      invokeObservableMethod srv alloca true c = some (.ok (srv.serialized ret))

/-- **Every request fits its buffer.** -/
theorem Call.Valid.exists_request (h : c.Valid) (alloca : Alloca) :
    ∃ r, c.request alloca = some r := by
  have hroom : c.sz ≤
      (alloca (sizeofInvokeRequest + c.sz - offsetofRequestBuf)).val.length := by
    rw [(alloca _).property, sizeofInvokeRequest, offsetofRequestBuf]
    omega
  obtain ⟨buf, hbuf⟩ := isSome_iff_exists.1
    (putAll_isSome_iff.2 fun p hp => (h.stop_le p hp).trans hroom)
  exact ⟨_, (c.request_eq alloca).trans (by rw [hbuf, map_some])⟩

/-- A call that has an outcome. -/
theorem invokeObservableMethod_eq (h : c.Valid) {alloca : Alloca} {r : InvokeRequest}
    {ret : Option Msg} (hr : c.request alloca = some r) (hsees : r.delivered.Sees c)
    (hret : srv.outcome c = some ret) :
    invokeObservableMethod srv alloca true c =
      (srv.replyInvoke alloca reqActionCallMethod replyTypeSuccess c.instId ret).bind fun reply =>
        (handleInvokeReplyPackage reply.delivered c.inout).bind fun data =>
          if data.1 ≠ replyTypeSuccess then some (.error (.returnFailure data.1))
          else some (.ok data.2) := by
  rw [invokeObservableMethod, if_neg h.instId_ne, Bool.not_true, if_neg Bool.false_ne_true]
  simp only [hr, bind_eq_bind, bind_some, Service.handleInvokeRequestPackage_eq hsees hret]

theorem Transports.conditions (h : c.Valid) (ht : Transports srv c) :
    c.LaysOut ∧ ∀ ret, srv.outcome c = some ret → (srv.serialized ret).length < 2 ^ 16 := by
  let alloca : Alloca := fun n => ⟨List.replicate n 0, length_replicate⟩
  obtain ⟨r, hr, hsees, hresult⟩ := ht alloca
  refine ⟨(h.sees_iff hr).1 hsees, fun ret hret => ?_⟩
  have hinvoke := hresult ret hret
  rw [invokeObservableMethod_eq h hr hsees hret] at hinvoke
  cases ret with
  | none => exact Nat.two_pow_pos 16
  | some m =>
      obtain ⟨reply, hreply, htype, -⟩ :=
        Service.replyInvoke_some alloca m reqActionCallMethod c.instId
      rw [hreply, bind_some] at hinvoke
      obtain ⟨data, hdata, hok⟩ := bind_eq_some_iff.1 hinvoke
      have hlen : data.2.length = reply.result.toNat :=
        Service.length_handleInvokeReplyPackage (r := reply.delivered) htype hdata
      split at hok
      · cases some.inj hok
      · rw [Except.ok.inj (some.inj hok)] at hlen
        rw [hlen]
        exact UInt16.toNat_lt _

/-- **A call is brought over exactly if and only if** its parts are laid out without harm and its
result has fewer than 2^16 bytes. -/
theorem transports_iff (h : c.Valid) :
    Transports srv c ↔
      c.LaysOut ∧ ∀ ret, srv.outcome c = some ret → (srv.serialized ret).length < 2 ^ 16 := by
  refine ⟨Transports.conditions h, ?_⟩
  rintro ⟨hlays, hshort⟩ alloca
  obtain ⟨r, hr⟩ := h.exists_request alloca
  have hsees := (h.sees_iff hr).2 hlays
  refine ⟨r, hr, hsees, fun ret hret => ?_⟩
  obtain ⟨reply, hreply, hdata⟩ := Service.exists_replyInvoke alloca (hshort ret hret)
    reqActionCallMethod c.instId c.inout
  rw [invokeObservableMethod_eq h hr hsees hret, hreply, bind_some, hdata]
  rfl

/-- The parts of a call lie one behind the other where the class name is short enough, or no method
name comes after it, and the package is not too large. -/
theorem Call.Valid.laysOut_of_lt (h : c.Valid)
    (hname : c.methodName = [] ∨ c.clsname.length + 1 < 2 ^ 16)
    (hsize : sizeofInvokeRequest + c.sz < 2 ^ 32) : c.LaysOut := by
  have hle := h.partSize_le
  have hnames : c.namesSize = c.clsname.length + 1 + partSize c.methodBytes := rfl
  have hroom : c.sz ≤ c.room := by
    rw [Call.room, Nat.mod_eq_of_lt hsize, sizeofInvokeRequest, offsetofRequestBuf]
    omega
  have hin : c.inputPlace = c.namesSize := Nat.mod_eq_of_lt (by omega)
  have hinout : c.inoutPlace = c.namesSize + partSize c.inputBytes :=
    Nat.mod_eq_of_lt (by omega)
  have hmethod : ∀ p ∈ part c.methodPlace c.methodBytes,
      p.pos = c.clsname.length + 1 ∧ p.stop = c.namesSize := by
    intro p hp
    obtain ⟨b, hb, -⟩ := Call.mem_part.1 hp
    obtain ⟨hpos, hstop⟩ := Call.stop_of_mem_part hp
    have hshort := hname.resolve_left (Call.methodBytes_eq hb).1
    have hplace : c.methodPlace = c.clsname.length + 1 := Nat.mod_eq_of_lt hshort
    exact ⟨by rw [hpos, hplace], by rw [hstop, hplace, hnames]⟩
  have hpayload : ∀ p ∈ part c.inputPlace c.inputBytes ++ part c.inoutPlace c.inoutBytes,
      c.namesSize ≤ p.pos := by
    intro p hp
    rcases mem_append.1 hp with hp | hp
    · rw [(Call.stop_of_mem_part hp).1, hin]
    · rw [(Call.stop_of_mem_part hp).1, hinout]
      omega
  refine ⟨fun p hp => (h.stop_le p hp).trans hroom, ?_⟩
  rw [Call.parts, pairwise_cons, pairwise_append, pairwise_append]
  refine ⟨fun p hp => ?_, Call.pairwise_part _ _, ⟨Call.pairwise_part _ _,
    Call.pairwise_part _ _, fun p hp q hq => ?_⟩, fun p hp q hq => ?_⟩
  · refine Piece.agrees_of_stop_le ?_
    have hstop : (Piece.mk 0 (c.clsname ++ [0])).stop = c.clsname.length + 1 := by
      simp [Piece.stop]
    rw [hstop]
    rcases mem_append.1 hp with hp | hp
    · exact (hmethod p hp).1.ge
    · have hge := hpayload p hp
      omega
  · refine Piece.agrees_of_stop_le ?_
    rw [(Call.stop_of_mem_part hp).2, (Call.stop_of_mem_part hq).1, hin, hinout]
  · refine Piece.agrees_of_stop_le ?_
    rw [(hmethod p hp).2]
    exact hpayload q hq

end

/-- A service whose messages are bytes, with the one class `o` whose one method leaves the same
bytes whatever it is given. -/
def echo (left : Bytes) : Service Bytes where
  classes := fun _ => some fun _ => some ⟨true, true, fun _ _ _ => left⟩
  instances := fun _ => true
  empty := []
  parse := id
  serialize := id

/-- A call of the method `m` of the class `o`. -/
def someCall : Call :=
  { instId := 1, clsname := [111], uuid := 0, input := some [1, 2], insize := 2, inout := [3]
    inoutsize := 1, methodid := 7, methodName := [109] }

theorem valid_someCall : someCall.Valid where
  instId_ne := by decide
  clsname := by decide
  methodName := by decide
  methodid_lt := by decide
  insize_lt := by decide
  inoutsize_lt := by decide
  length_input := fun b hb => by rw [← some.inj hb]; rfl
  inoutsize_le := by decide

theorem outcome_someCall (left : Bytes) : (echo left).outcome someCall = some (some left) := rfl

/-- A result of three bytes is brought over. -/
theorem transports_someCall : Transports (echo [4, 5, 6]) someCall := by
  refine (transports_iff valid_someCall).2 ⟨?_, fun ret hret => ?_⟩
  · exact valid_someCall.laysOut_of_lt (.inr (by decide)) (by decide)
  · rw [outcome_someCall] at hret
    rw [← some.inj hret]
    decide

/-- A result of 2^16 bytes is not. -/
theorem not_transports_long : ¬ ∀ (srv : Service Bytes) (c : Call), c.Valid → Transports srv c := by
  intro h
  have hshort := (Transports.conditions valid_someCall
    (h (echo (List.replicate (2 ^ 16) 0)) someCall valid_someCall)).2 _ (outcome_someCall _)
  change (List.replicate (2 ^ 16) (0 : UInt8)).length < 2 ^ 16 at hshort
  rw [length_replicate] at hshort
  exact lt_irrefl _ hshort

end V2I.Mware.RpcObservable
