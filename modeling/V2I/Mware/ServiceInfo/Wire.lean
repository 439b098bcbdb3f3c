import V2I.Lib.Packing
import V2I.Mware.ServiceInfo

/-!
# V2I.Mware.ServiceInfo.Wire

`service_pkginfo` as it lies in memory (`rpc_pkg_def.h`), and how `service_info` writes itself into
one and is read back from one (`serviceinfo.cpp`). Every field has a bit in `validity`, and the
texts stand in the buffer behind the fields, which keep their places there in 16 bits.

`load_info` fills in `port` and never sets its bit, so `update_info` and `check_info` pass it over;
`id` has its bit set and `check_info` never answers it. A service survives the wire exactly if both
are 0 (`survivesWire_iff`).
-/

namespace V2I.Mware

open V2I.ByteFile V2I.Packing List

/-- A field of a package with its bit of `validity`. -/
structure Field (α : Type) where
  valid : Bool := false
  value : α
  deriving DecidableEq

/-- The bytes behind the fields of a package, and where the next text goes. -/
structure PkgBuffer where
  bufsize : UInt16 := 0
  buf : List UInt8
  deriving DecidableEq

/-- `service_pkginfo` with the bytes behind it. The values of `pkgname` to `ipaddr`, `clientName`
and `cliInstName` are places in the buffer. -/
structure WirePkginfo where
  pkgname : Field UInt16 := { value := 0 }
  name : Field UInt16 := { value := 0 }
  instName : Field UInt16 := { value := 0 }
  executive : Field UInt16 := { value := 0 }
  ipaddr : Field UInt16 := { value := 0 }
  port : Field UInt16 := { value := 0 }
  version : Field UInt32 := { value := 0 }
  id : Field UInt32 := { value := 0 }
  accessible : Field UInt16 := { value := 0 }
  shared : Field UInt16 := { value := 0 }
  signleton : Field UInt16 := { value := 0 }
  clientName : Field UInt16 := { value := 0 }
  cliInstName : Field UInt16 := { value := 0 }
  buffer : PkgBuffer
  deriving DecidableEq

/-- `service_pkginfo_validity_u` -/
structure Validity where
  pkgname : Bool := false
  name : Bool := false
  instName : Bool := false
  executive : Bool := false
  ipaddr : Bool := false
  port : Bool := false
  version : Bool := false
  id : Bool := false
  accessible : Bool := false
  shared : Bool := false
  signleton : Bool := false
  cliName : Bool := false
  cliInstName : Bool := false
  deriving DecidableEq

/-- Every bit of one is a bit of the other. -/
def Validity.Within (v w : Validity) : Prop :=
  (v.pkgname → w.pkgname) ∧ (v.name → w.name) ∧ (v.instName → w.instName) ∧
  (v.executive → w.executive) ∧ (v.ipaddr → w.ipaddr) ∧ (v.port → w.port) ∧
  (v.version → w.version) ∧ (v.id → w.id) ∧ (v.accessible → w.accessible) ∧
  (v.shared → w.shared) ∧ (v.signleton → w.signleton) ∧ (v.cliName → w.cliName) ∧
  (v.cliInstName → w.cliInstName)

namespace WirePkginfo

/-- `service_pkginfo()` in front of a buffer. -/
def new (buf : List UInt8) : WirePkginfo := { buffer := { buf := buf } }

/-- `validity` -/
def validity (w : WirePkginfo) : Validity where
  pkgname := w.pkgname.valid
  name := w.name.valid
  instName := w.instName.valid
  executive := w.executive.valid
  ipaddr := w.ipaddr.valid
  port := w.port.valid
  version := w.version.valid
  id := w.id.valid
  accessible := w.accessible.valid
  shared := w.shared.valid
  signleton := w.signleton.valid
  cliName := w.clientName.valid
  cliInstName := w.cliInstName.valid

/-- `info.buf + place`, as a text; none comes out where no zero byte ends it. -/
def text (w : WirePkginfo) (place : Field UInt16) : Option Bytes :=
  cString (w.buffer.buf.drop place.value.toNat)

/-- A text that is read where its bit is set. -/
def textIfValid (w : WirePkginfo) (place : Field UInt16) : Option (Option Bytes) :=
  if place.valid then (w.text place).map some else some none

/-- What `textIfValid` reads. -/
theorem textIfValid_eq_some {w : WirePkginfo} {place : Field UInt16} {t : Option Bytes}
    (h : w.textIfValid place = some t) :
    (place.valid = true ∧ ∃ text, w.text place = some text ∧ t = some text) ∨
      (place.valid = false ∧ t = none) := by
  rw [textIfValid] at h
  split at h
  · next hvalid =>
    obtain ⟨text, htext, heq⟩ := Option.map_eq_some_iff.1 h
    exact .inl ⟨hvalid, text, htext, heq.symm⟩
  · next hvalid =>
    exact .inr ⟨Bool.eq_false_iff.2 hvalid, (Option.some.inj h).symm⟩

/-- What the fields and the buffer say. -/
def contents (w : WirePkginfo) : Option ServicePkginfo := do
  let pkgname ← w.textIfValid w.pkgname
  let name ← w.textIfValid w.name
  let instName ← w.textIfValid w.instName
  let executive ← w.textIfValid w.executive
  let ipaddr ← w.textIfValid w.ipaddr
  let clientName ← w.textIfValid w.clientName
  let cliInstName ← w.textIfValid w.cliInstName
  some
    { pkgname := pkgname, name := name, instName := instName, executive := executive
      ipaddr := ipaddr, port := w.port.value, portValid := w.port.valid
      version := if w.version.valid then some w.version.value else none
      id := if w.id.valid then some w.id.value else none
      accessible := w.accessible.value, shared := w.shared.value
      signleton := w.signleton.value, clientName := clientName, cliInstName := cliInstName }

end WirePkginfo

namespace ServiceInfo

/-! ## the functions -/

/-- `get_string_size` -/
def getStringSize (i : ServiceInfo) : UInt32 :=
  let sz := (i.pkgName.length + 1 + (i.serviceName.length + 1) + (i.executive.length + 1)).toUInt32
  let sz := if !i.isDefaultService then sz + (i.instName.length + 1).toUInt32 else sz
  if i.ipaddr.length > 0 then sz + (i.ipaddr.length + 1).toUInt32 else sz

/-- One text of `load_info`: where it is to be sent, it is copied behind those that are there. -/
def loadText (sent : Bool) (text : Bytes) (b : PkgBuffer) (place : Field UInt16) :
    Option (Field UInt16 × PkgBuffer) :=
  if sent then
    (put b.buf b.bufsize.toNat (text ++ [0])).map fun buf =>
      ({ valid := true, value := b.bufsize },
        { bufsize := b.bufsize + (text.length + 1).toUInt16, buf := buf })
  else some (place, b)

/-- `load_info`; none comes out where it writes behind the end of the buffer. -/
def loadInfoWire (i : ServiceInfo) (info : WirePkginfo) : Option (WirePkginfo × ℤ) :=
  if i.pkgName.length < 1 || i.serviceName.length < 1 then some (info, -ENOTAVAIL)
  else do
    let (pkgname, b) ← loadText (i.pkgName.length > 0) i.pkgName info.buffer info.pkgname
    let (name, b) ← loadText (i.serviceName.length > 0) i.serviceName b info.name
    let (instName, b) ← loadText (!i.isDefaultService) i.instName b info.instName
    let (executive, b) ← loadText (i.executive.length > 0) i.executive b info.executive
    let (ipaddr, b) ← loadText (i.ipaddr.length > 0) i.ipaddr b info.ipaddr
    some
      ({ info with
          pkgname := pkgname, name := name, instName := instName, executive := executive
          ipaddr := ipaddr
          port := { info.port with value := i.port.toUInt16 }
          version := { valid := true, value := i.version }
          id := if i.serviceId > 0 then { valid := true, value := i.serviceId } else info.id
          accessible := { valid := true, value := bit i.flags.globalAccessible }
          shared := { valid := true, value := bit i.flags.shared }
          signleton := { valid := true, value := i.flags.singleton.toNat.toUInt16 }
          buffer := b }, 0)

/-- `update_info` -/
def updateInfoWire (i : ServiceInfo) (info : WirePkginfo) (val : Validity) :
    Option (ServiceInfo × Validity × ℤ) :=
  if i.pkgName.length > 0 || i.serviceName.length > 0 then some (i, val, -EEXISTS)
  else if !info.pkgname.valid || !info.name.valid then some (i, val, -EBADPARM)
  else do
    let pkgName ← info.text info.pkgname
    let serviceName ← info.text info.name
    let instName ← info.textIfValid info.instName
    let executive ← info.textIfValid info.executive
    let ipaddr ← info.textIfValid info.ipaddr
    some
      ({ i with
          pkgName := pkgName
          serviceName := serviceName
          instName := instName.getD i.instName
          version := if info.version.valid then info.version.value else i.version
          executive := executive.getD i.executive
          ipaddr := ipaddr.getD i.ipaddr
          port := if info.port.valid then info.port.value.toUInt32 else i.port
          flags := { i.flags with
            isDefault := !info.instName.valid
            globalAccessible := info.accessible.value % 2 == 1
            shared := info.shared.value % 2 == 1
            singleton := BitVec.ofNat 2 info.signleton.value.toNat } },
        { val with
          pkgname := true
          name := true
          instName := val.instName || info.instName.valid
          version := val.version || info.version.valid
          executive := val.executive || info.executive.valid
          ipaddr := val.ipaddr || info.ipaddr.valid
          port := val.port || info.port.valid
          accessible := true
          shared := true
          signleton := true }, 0)

/-- Whether a text of the package is sent and is the service's own. -/
def sameText (info : WirePkginfo) (place : Field UInt16) (text : Bytes) : Option Bool :=
  if place.valid then (info.text place).map (· == text) else some false

/-- A service that is not the default one checks the name of the instance, where it is sent. -/
def sameInstance (i : ServiceInfo) (info : WirePkginfo) : Option Bool :=
  if !i.isDefaultService && info.instName.valid then sameText info info.instName i.instName
  else some true

/-- `check_info` -/
def checkInfoWire (i : ServiceInfo) (info : WirePkginfo) (val : Validity) : Option (Validity × ℤ) :=
  if !info.pkgname.valid || !info.name.valid then some (val, -EBADPARM)
  else do
    let pkgname ← info.text info.pkgname
    let name ← info.text info.name
    if pkgname ≠ i.pkgName ∨ name ≠ i.serviceName then some (val, -ELOGIC)
    else
      let same ← i.sameInstance info
      if !same then some (val, -ELOGIC)
      else
        let executive ← sameText info info.executive i.executive
        let ipaddr ← sameText info info.ipaddr i.ipaddr
        some
          ({ val with
              pkgname := true
              name := true
              instName := true
              version := val.version || (info.version.valid && info.version.value == i.version)
              executive := val.executive || executive
              ipaddr := val.ipaddr || ipaddr
              port := val.port || (info.port.valid && info.port.value.toUInt32 == i.port)
              accessible := val.accessible ||
                info.accessible.value == bit i.flags.globalAccessible
              shared := val.shared || info.shared.value == bit i.flags.shared
              signleton := val.signleton ||
                info.signleton.value.toNat == i.flags.singleton.toNat }, 0)

/-! ## what `load_info` writes -/

/-- What `load_info` copies of a text, with the zero byte behind it. -/
def piece (given : Bool) (text : Bytes) : List (List UInt8) := if given then [text ++ [0]] else []

/-- What `load_info` copies, in its order. -/
def pieces (i : ServiceInfo) : List (List UInt8) :=
  piece (i.pkgName.length > 0) i.pkgName ++ piece (i.serviceName.length > 0) i.serviceName ++
    piece (!i.isDefaultService) i.instName ++ piece (i.executive.length > 0) i.executive ++
    piece (i.ipaddr.length > 0) i.ipaddr

/-- The buffer once pieces are copied. -/
def filled (buf : List UInt8) (ps : List (List UInt8)) : PkgBuffer where
  bufsize := ps.flatten.length.toUInt16
  buf := fill buf ps

/-- The place of a text behind pieces. -/
def placeAfter (ps : List (List UInt8)) (given : Bool) : Field UInt16 :=
  if given then { valid := true, value := ps.flatten.length.toUInt16 } else { value := 0 }

variable {buf : List UInt8} {ps all : List (List UInt8)} {given : Bool} {text : Bytes}

@[simp]
theorem valid_placeAfter : (placeAfter ps given).valid = given := by
  cases given <;> rfl

/-- The next of all the texts is copied behind those that are there. -/
theorem loadText_filled (hall : ps ++ piece given text <+: all)
    (hfit : all.flatten.length ≤ buf.length) (hsize : all.flatten.length < 2 ^ 16) :
    loadText given text (filled buf ps) { value := 0 } =
      some (placeAfter ps given, filled buf (ps ++ piece given text)) := by
  obtain ⟨back, rfl⟩ := hall
  rw [flatten_append, length_append] at hfit hsize
  cases given with
  | false => simp [loadText, placeAfter, piece]
  | true =>
      have hlen : ps.flatten.length < 2 ^ 16 := by
        rw [flatten_append, length_append] at hsize
        omega
      rw [piece, if_pos rfl] at hfit ⊢
      have hplace : ps.flatten.length.toUInt16.toNat = ps.flatten.length :=
        UInt16.toNat_ofNat_of_lt hlen
      have hnext : ps.flatten.length.toUInt16 + (text.length + 1).toUInt16 =
          (ps ++ [text ++ [0]]).flatten.length.toUInt16 := by
        rw [flatten_append, flatten_singleton, length_append, length_append, length_singleton]
        exact (UInt16.ofNat_add _ _).symm
      rw [loadText, if_pos rfl]
      show (put (fill buf ps) ps.flatten.length.toUInt16.toNat (text ++ [0])).map _ = _
      rw [hplace, put_fill (by omega), Option.map_some]
      exact congrArg (fun n => some (Field.mk true ps.flatten.length.toUInt16,
        PkgBuffer.mk n (fill buf (ps ++ [text ++ [0]])))) hnext

variable {w : WirePkginfo}

/-- A text is read where it was copied. -/
theorem textIfValid_filled (htext : 0 ∉ text) (hall : ps ++ piece given text <+: all)
    (hw : w.buffer = filled buf all) (hsize : all.flatten.length < 2 ^ 16) :
    w.textIfValid (placeAfter ps given) = some (if given then some text else none) := by
  obtain ⟨back, rfl⟩ := hall
  cases given with
  | false => rfl
  | true =>
      have hlen : ps.flatten.length < 2 ^ 16 := by
        rw [append_assoc, flatten_append, length_append] at hsize
        omega
      have hplace : ps.flatten.length.toUInt16.toNat = ps.flatten.length :=
        UInt16.toNat_ofNat_of_lt hlen
      rw [WirePkginfo.textIfValid, placeAfter, if_pos rfl, if_pos rfl, WirePkginfo.text, hw]
      show (cString (List.drop ps.flatten.length.toUInt16.toNat (fill buf _))).map some = _
      rw [hplace, piece, if_pos rfl, append_assoc, singleton_append, cString_fill htext]
      rfl

/-- The services that the packages are made for: package and name are given, no text has a zero
byte in it, and the places in the buffer and the port fit into 16 bits. -/
structure Sendable (i : ServiceInfo) : Prop where
  pkgName_ne : i.pkgName ≠ []
  serviceName_ne : i.serviceName ≠ []
  pkgName : 0 ∉ i.pkgName
  serviceName : 0 ∉ i.serviceName
  instName : 0 ∉ i.instName
  executive : 0 ∉ i.executive
  ipaddr : 0 ∉ i.ipaddr
  size_lt : i.pieces.flatten.length < 2 ^ 16
  port_lt : i.port.toNat < 2 ^ 16

variable {i : ServiceInfo}

/-- The package of a service. -/
def loaded (i : ServiceInfo) (buf : List UInt8) : WirePkginfo where
  pkgname := placeAfter [] (i.pkgName.length > 0)
  name := placeAfter (piece (i.pkgName.length > 0) i.pkgName) (i.serviceName.length > 0)
  instName := placeAfter
    (piece (i.pkgName.length > 0) i.pkgName ++
      piece (i.serviceName.length > 0) i.serviceName) (!i.isDefaultService)
  executive := placeAfter
    (piece (i.pkgName.length > 0) i.pkgName ++
      piece (i.serviceName.length > 0) i.serviceName ++
      piece (!i.isDefaultService) i.instName) (i.executive.length > 0)
  ipaddr := placeAfter
    (piece (i.pkgName.length > 0) i.pkgName ++
      piece (i.serviceName.length > 0) i.serviceName ++
      piece (!i.isDefaultService) i.instName ++
      piece (i.executive.length > 0) i.executive) (i.ipaddr.length > 0)
  port := { value := i.port.toUInt16 }
  version := { valid := true, value := i.version }
  id := if i.serviceId > 0 then { valid := true, value := i.serviceId } else { value := 0 }
  accessible := { valid := true, value := bit i.flags.globalAccessible }
  shared := { valid := true, value := bit i.flags.shared }
  signleton := { valid := true, value := i.flags.singleton.toNat.toUInt16 }
  buffer := filled buf i.pieces

/-- The texts lie in the buffer in the order in which they are copied. -/
theorem pieces_starts (i : ServiceInfo) :
    [] ++ piece (i.pkgName.length > 0) i.pkgName <+: i.pieces ∧
      piece (i.pkgName.length > 0) i.pkgName ++
        piece (i.serviceName.length > 0) i.serviceName <+: i.pieces ∧
      piece (i.pkgName.length > 0) i.pkgName ++
        piece (i.serviceName.length > 0) i.serviceName ++
        piece (!i.isDefaultService) i.instName <+: i.pieces ∧
      piece (i.pkgName.length > 0) i.pkgName ++
        piece (i.serviceName.length > 0) i.serviceName ++
        piece (!i.isDefaultService) i.instName ++
        piece (i.executive.length > 0) i.executive <+: i.pieces ∧
      piece (i.pkgName.length > 0) i.pkgName ++
        piece (i.serviceName.length > 0) i.serviceName ++
        piece (!i.isDefaultService) i.instName ++
        piece (i.executive.length > 0) i.executive ++
        piece (i.ipaddr.length > 0) i.ipaddr <+: i.pieces := by
  have hexec := prefix_append (piece (i.pkgName.length > 0) i.pkgName ++
    piece (i.serviceName.length > 0) i.serviceName ++ piece (!i.isDefaultService) i.instName ++
    piece (i.executive.length > 0) i.executive) (piece (i.ipaddr.length > 0) i.ipaddr)
  have hinst := (prefix_append _ _).trans hexec
  have hname := (prefix_append _ _).trans hinst
  exact ⟨(prefix_append _ _).trans hname, hname, hinst, hexec, prefix_rfl⟩

theorem Sendable.names (h : i.Sendable) : 0 < i.pkgName.length ∧ 0 < i.serviceName.length :=
  ⟨length_pos_iff.2 h.pkgName_ne, length_pos_iff.2 h.serviceName_ne⟩

/-- `load_info` needs room for its texts, and makes the package. -/
theorem loadInfoWire_new (h : i.Sendable) (hfit : i.pieces.flatten.length ≤ buf.length) :
    i.loadInfoWire (.new buf) = some (i.loaded buf, 0) := by
  have hstart : (WirePkginfo.new buf).buffer = filled buf [] := by
    rw [filled, fill_nil]
    rfl
  have hload {ps : List (List UInt8)} {given : Bool} {text : Bytes}
      (hall : ps ++ piece given text <+: i.pieces) :=
    loadText_filled hall hfit h.size_lt
  obtain ⟨hpkgname, hname, hinst, hexec, hipaddr⟩ := i.pieces_starts
  rw [loadInfoWire, if_neg (by simp [h.pkgName_ne, h.serviceName_ne]), hstart]
  simp only [WirePkginfo.new, Option.bind_eq_bind, hload hpkgname, Option.bind_some,
    nil_append, hload hname, hload hinst, hload hexec, hload hipaddr]
  rfl

theorem sent_eq (text : Bytes) : sent text = if text.length > 0 then some text else none := by
  cases text <;> rfl

theorem sent_of_ne (hne : text ≠ []) : sent text = some text := by
  cases text with
  | nil => contradiction
  | cons b bs => rfl

/-- The texts of a service are read from its package. -/
theorem textIfValid_loaded (h : i.Sendable) (buf : List UInt8) :
    (i.loaded buf).textIfValid (i.loaded buf).pkgname = some (sent i.pkgName) ∧
      (i.loaded buf).textIfValid (i.loaded buf).name = some (sent i.serviceName) ∧
      (i.loaded buf).textIfValid (i.loaded buf).instName =
        some (if i.isDefaultService then none else some i.instName) ∧
      (i.loaded buf).textIfValid (i.loaded buf).executive = some (sent i.executive) ∧
      (i.loaded buf).textIfValid (i.loaded buf).ipaddr = some (sent i.ipaddr) := by
  obtain ⟨hpkgname, hname, hinst, hexec, hipaddr⟩ := i.pieces_starts
  have hread {ps : List (List UInt8)} {given : Bool} {text : Bytes} (htext : 0 ∉ text)
      (hall : ps ++ piece given text <+: i.pieces) :
      (i.loaded buf).textIfValid (placeAfter ps given) =
        some (if given then some text else none) :=
    textIfValid_filled htext hall rfl h.size_lt
  simp only [sent_eq]
  refine ⟨?_, ?_, ?_, ?_, ?_⟩
  · exact (hread h.pkgName hpkgname).trans (by simp)
  · exact (hread h.serviceName hname).trans (by simp)
  · exact (hread h.instName hinst).trans (by cases i.isDefaultService <;> rfl)
  · exact (hread h.executive hexec).trans (by simp)
  · exact (hread h.ipaddr hipaddr).trans (by simp)

/-- The package says what it was made of. -/
theorem contents_loaded (h : i.Sendable) (buf : List UInt8) :
    (i.loaded buf).contents = some i.loadInfo.1 := by
  obtain ⟨hpkgname, hname, hinst, hexec, hipaddr⟩ := textIfValid_loaded h buf
  have hclient : (i.loaded buf).textIfValid (i.loaded buf).clientName = some none := rfl
  have hcliInst : (i.loaded buf).textIfValid (i.loaded buf).cliInstName = some none := rfl
  rw [loadInfo, if_neg (by simp [h.pkgName_ne, h.serviceName_ne])]
  have hid : (if (i.loaded buf).id.valid then some (i.loaded buf).id.value else none) =
      if i.serviceId > 0 then some i.serviceId else none := by
    rw [loaded]
    by_cases hpos : i.serviceId > 0
    · rw [if_pos hpos, if_pos hpos, if_pos rfl]
    · rw [if_neg hpos, if_neg hpos, if_neg Bool.false_ne_true]
  simp only [WirePkginfo.contents, hpkgname, hname, hinst, hexec, hipaddr, hclient, hcliInst,
    Option.bind_eq_bind, Option.bind_some, hid]
  rfl

/-- `update_info` takes from a package what it says. -/
theorem updateInfoWire_contents {info : WirePkginfo} {c : ServicePkginfo}
    (hc : info.contents = some c) (i : ServiceInfo) (val : Validity) :
    (i.updateInfoWire info val).map (fun r => (r.1, r.2.2)) = some (i.updateInfo c) := by
  simp only [WirePkginfo.contents, Option.bind_eq_bind, Option.bind_eq_some_iff,
    Option.some.injEq] at hc
  obtain ⟨pkgname, hpkgname, name, hname, instName, hinst, executive, hexec, ipaddr, hipaddr,
    -, -, -, -, rfl⟩ := hc
  have hnamed : (i.pkgName.length > 0 || i.serviceName.length > 0 : Bool) =
      (!i.pkgName.isEmpty || !i.serviceName.isEmpty) := by
    cases i.pkgName <;> cases i.serviceName <;> rfl
  rw [updateInfoWire, updateInfo, hnamed]
  split
  · rfl
  obtain ⟨hvalid, pkgName, htext, rfl⟩ | ⟨hvalid, rfl⟩ := WirePkginfo.textIfValid_eq_some hpkgname
  · obtain ⟨hvalid', serviceName, htext', rfl⟩ | ⟨hvalid', rfl⟩ :=
      WirePkginfo.textIfValid_eq_some hname
    · have hisNone : (!info.instName.valid) = instName.isNone := by
        obtain ⟨hv, _, -, rfl⟩ | ⟨hv, rfl⟩ := WirePkginfo.textIfValid_eq_some hinst
        · rw [hv]
          rfl
        · rw [hv]
          rfl
      rw [if_neg (by rw [hvalid, hvalid']; exact Bool.false_ne_true)]
      simp only [htext, htext', hinst, hexec, hipaddr, Option.bind_eq_bind, Option.bind_some,
        Option.map_some, hisNone]
      cases info.version.valid <;> rfl
    · rw [if_pos (by rw [hvalid']; exact Bool.or_true _)]
      rfl
  · rw [if_pos (by rw [hvalid]; rfl)]
    rfl

/-- What comes out of an empty service and the package of a service. -/
theorem updateInfo_loadInfo (hpkg : i.pkgName ≠ []) (hname : i.serviceName ≠ []) :
    ({} : ServiceInfo).updateInfo i.loadInfo.1 =
      ({ i with
          port := 0
          serviceId := 0
          instName := if i.isDefaultService then [] else i.instName
          flags := {
            globalAccessible := i.flags.globalAccessible
            shared := i.flags.shared
            singleton := i.flags.singleton
            isDefault := i.isDefaultService } }, 0) := by
  have hbit (b : Bool) : (bit b % 2 == 1) = b := by cases b <;> rfl
  have hsingleton : BitVec.ofNat 2 i.flags.singleton.toNat.toUInt16.toNat = i.flags.singleton := by
    have hlt := i.flags.singleton.isLt
    rw [show i.flags.singleton.toNat.toUInt16.toNat = i.flags.singleton.toNat from
      UInt16.toNat_ofNat_of_lt (hlt.trans (by decide)), BitVec.ofNat_toNat, BitVec.setWidth_eq]
  have hget (text : Bytes) : (sent text).getD [] = text := by cases text <;> rfl
  have hload : i.loadInfo.1 =
      { pkgname := some i.pkgName
        name := some i.serviceName
        instName := if i.isDefaultService then none else some i.instName
        executive := sent i.executive
        ipaddr := sent i.ipaddr
        port := i.port.toUInt16
        version := some i.version
        id := if i.serviceId > 0 then some i.serviceId else none
        accessible := bit i.flags.globalAccessible
        shared := bit i.flags.shared
        signleton := i.flags.singleton.toNat.toUInt16 } := by
    rw [loadInfo, if_neg (by simp [hpkg, hname]), sent_of_ne hpkg, sent_of_ne hname]
  rw [hload, updateInfo, if_neg Bool.false_ne_true]
  simp only [hbit, hsingleton, hget]
  cases i.isDefaultService <;> rfl

/-- A text is answered if it is the one that was sent. -/
theorem sameText_eq {place : Field UInt16} {t : Option Bytes} (h : w.textIfValid place = some t)
    (text : Bytes) : sameText w place text = some (t == some text) := by
  rw [sameText]
  obtain ⟨hvalid, x, htext, rfl⟩ | ⟨hvalid, rfl⟩ := WirePkginfo.textIfValid_eq_some h
  · rw [if_pos hvalid, htext]
    rfl
  · rw [if_neg (by rw [hvalid]; exact Bool.false_ne_true)]
    rfl

theorem text_of_textIfValid {place : Field UInt16} (h : w.textIfValid place = some (some text)) :
    place.valid = true ∧ w.text place = some text := by
  obtain ⟨hvalid, x, htext, heq⟩ | ⟨-, heq⟩ := WirePkginfo.textIfValid_eq_some h
  · exact ⟨hvalid, htext.trans heq.symm⟩
  · contradiction

/-- What `check_info` answers for the package of the service itself. -/
theorem checkInfoWire_loaded (h : i.Sendable) (buf : List UInt8) :
    i.checkInfoWire (i.loaded buf) {} =
      some ({
        pkgname := true, name := true, instName := true, version := true
        executive := i.executive.length > 0, ipaddr := i.ipaddr.length > 0
        accessible := true, shared := true, signleton := true }, 0) := by
  obtain ⟨hpkgname, hname, hinst, hexec, hipaddr⟩ := textIfValid_loaded h buf
  rw [sent_of_ne h.pkgName_ne] at hpkgname
  rw [sent_of_ne h.serviceName_ne] at hname
  obtain ⟨hpkgvalid, hpkgtext⟩ := text_of_textIfValid hpkgname
  obtain ⟨hnamevalid, hnametext⟩ := text_of_textIfValid hname
  have hsame : i.sameInstance (i.loaded buf) = some true := by
    rw [sameInstance, sameText_eq hinst]
    cases i.isDefaultService with
    | true => rfl
    | false => split <;> simp
  have hsent (t : Bytes) : (sent t == some t) = decide (t.length > 0) := by
    cases t <;> simp [sent]
  have hflags : (i.loaded buf).accessible.value = bit i.flags.globalAccessible ∧
      (i.loaded buf).shared.value = bit i.flags.shared ∧
      (i.loaded buf).signleton.value.toNat = i.flags.singleton.toNat :=
    ⟨rfl, rfl, UInt16.toNat_ofNat_of_lt (i.flags.singleton.isLt.trans (by decide))⟩
  rw [checkInfoWire, if_neg (by rw [hpkgvalid, hnamevalid]; exact Bool.false_ne_true)]
  simp only [hpkgtext, hnametext, Option.bind_eq_bind, Option.bind_some, ne_eq, not_true_eq_false,
    or_self, if_false, hsame, sameText_eq hexec, sameText_eq hipaddr, hsent, hflags,
    beq_self_eq_true, Bool.false_or, Bool.not_true, Bool.false_eq_true]
  simp [loaded]

theorem length_flatten_piece (given : Bool) (text : Bytes) :
    (piece given text).flatten.length = if given then text.length + 1 else 0 := by
  cases given <;> simp [piece]

theorem length_pieces (i : ServiceInfo) :
    i.pieces.flatten.length =
      (if i.pkgName.length > 0 then i.pkgName.length + 1 else 0) +
        (if i.serviceName.length > 0 then i.serviceName.length + 1 else 0) +
        (if i.isDefaultService then 0 else i.instName.length + 1) +
        (if i.executive.length > 0 then i.executive.length + 1 else 0) +
        (if i.ipaddr.length > 0 then i.ipaddr.length + 1 else 0) := by
  simp only [pieces, flatten_append, length_append, length_flatten_piece, decide_eq_true_eq]
  cases i.isDefaultService <;> rfl

/-- `get_string_size` in numbers without an end. -/
theorem getStringSize_eq (i : ServiceInfo) :
    i.getStringSize =
      (i.pkgName.length + 1 + (i.serviceName.length + 1) + (i.executive.length + 1) +
        (if i.isDefaultService then 0 else i.instName.length + 1) +
        (if i.ipaddr.length > 0 then i.ipaddr.length + 1 else 0)).toUInt32 := by
  rw [getStringSize]
  cases i.isDefaultService <;> split <;> simp

theorem Sendable.length_pieces_le (h : i.Sendable) :
    i.pieces.flatten.length ≤ i.getStringSize.toNat := by
  obtain ⟨hpkg, hname⟩ := h.names
  have hsize := h.size_lt
  rw [length_pieces, if_pos hpkg, if_pos hname] at hsize ⊢
  have hexec : (if i.executive.length > 0 then i.executive.length + 1 else 0) ≤
      i.executive.length + 1 := by
    split <;> omega
  have hexec' : i.executive.length ≤
      if i.executive.length > 0 then i.executive.length + 1 else 0 := by
    split <;> omega
  have htoNat {n : ℕ} (hn : n < UInt32.size) : n.toUInt32.toNat = n :=
    UInt32.toNat_ofNat_of_lt hn
  rw [getStringSize_eq, htoNat (by simp only [UInt32.size]; omega)]
  omega

/-! ## the wire -/

/-- Everything that is sent and taken over is the same. -/
def Restores (s i : ServiceInfo) : Prop :=
  s.pkgName = i.pkgName ∧ s.serviceName = i.serviceName ∧ s.instName = i.instName ∧
    s.executive = i.executive ∧ s.ipaddr = i.ipaddr ∧ s.port = i.port ∧ s.version = i.version ∧
    s.flags.globalAccessible = i.flags.globalAccessible ∧ s.flags.shared = i.flags.shared ∧
    s.flags.singleton = i.flags.singleton

/-- A service survives the wire: `load_info` stays within `get_string_size()` bytes of any buffer,
`update_info` restores the service from the package, and `check_info` of the service accepts the
package and answers every field that is sent in it. -/
def SurvivesWire (i : ServiceInfo) : Prop :=
  ∀ buf : List UInt8, i.getStringSize.toNat ≤ buf.length →
    ∃ w, i.loadInfoWire (.new buf) = some (w, 0) ∧
      w.buffer.buf.drop i.getStringSize.toNat = buf.drop i.getStringSize.toNat ∧
      (∃ s val, ({} : ServiceInfo).updateInfoWire w {} = some (s, val, 0) ∧ s.Restores i) ∧
      ∃ val, i.checkInfoWire w {} = some (val, 0) ∧ w.validity.Within val

theorem restores_iff (hpkg : i.pkgName ≠ []) (hname : i.serviceName ≠ []) :
    (({} : ServiceInfo).updateInfo i.loadInfo.1).1.Restores i ↔
      i.port = 0 ∧ (i.isDefaultService → i.instName = []) := by
  rw [updateInfo_loadInfo hpkg hname]
  constructor
  · rintro ⟨-, -, hinst, -, -, hport, -⟩
    refine ⟨hport.symm, fun hdefault => ?_⟩
    rw [← hinst]
    exact if_pos hdefault
  · rintro ⟨hport, hinst⟩
    refine ⟨rfl, rfl, ?_, rfl, rfl, hport.symm, rfl, rfl, rfl, rfl⟩
    show (if i.isDefaultService then [] else i.instName) = i.instName
    split
    · next hdefault => exact (hinst hdefault).symm
    · rfl

/-- `update_info` takes the package of a service. -/
theorem updateInfoWire_loaded (h : i.Sendable) (buf : List UInt8) :
    ∃ val, ({} : ServiceInfo).updateInfoWire (i.loaded buf) {} =
      some ((({} : ServiceInfo).updateInfo i.loadInfo.1).1, val, 0) := by
  have hret := congrArg Prod.snd (updateInfo_loadInfo h.pkgName_ne h.serviceName_ne)
  obtain ⟨⟨s, val, ret⟩, hupdate, heq⟩ := Option.map_eq_some_iff.1
    (updateInfoWire_contents (contents_loaded h buf) {} {})
  rw [← heq] at hret ⊢
  exact ⟨val, hupdate.trans (by rw [show ret = 0 from hret])⟩

theorem SurvivesWire.eq_zero (h : i.Sendable) (hs : i.SurvivesWire) :
    i.port = 0 ∧ i.serviceId = 0 ∧ (i.isDefaultService → i.instName = []) := by
  obtain ⟨w, hw, -, ⟨s, val, hupdate, hrestores⟩, val', hcheck, hwithin⟩ :=
    hs (List.replicate i.getStringSize.toNat 0) length_replicate.ge
  rw [loadInfoWire_new h (h.length_pieces_le.trans length_replicate.ge)] at hw
  obtain rfl := (Prod.mk.inj (Option.some.inj hw)).1
  obtain ⟨val₀, hupdate₀⟩ := updateInfoWire_loaded h (List.replicate i.getStringSize.toNat 0)
  rw [hupdate₀] at hupdate
  obtain rfl := (Prod.mk.inj (Option.some.inj hupdate)).1
  obtain ⟨hport, hinst⟩ := (restores_iff h.pkgName_ne h.serviceName_ne).1 hrestores
  refine ⟨hport, ?_, hinst⟩
  -- the bit of the id is never answered
  rw [checkInfoWire_loaded h] at hcheck
  obtain rfl := (Prod.mk.inj (Option.some.inj hcheck)).1
  obtain ⟨-, -, -, -, -, -, -, hid, -⟩ := hwithin
  by_contra hne
  have hpos : i.serviceId > 0 := UInt32.pos_iff_ne_zero.2 hne
  exact Bool.false_ne_true (hid (by simp [WirePkginfo.validity, loaded, hpos]))

/-- **A service survives the wire exactly if it has no port and no id**, and no instance name where
it is a default service. -/
theorem survivesWire_iff (h : i.Sendable) :
    i.SurvivesWire ↔
      i.port = 0 ∧ i.serviceId = 0 ∧ (i.isDefaultService → i.instName = []) := by
  refine ⟨SurvivesWire.eq_zero h, ?_⟩
  rintro ⟨hport, hid, hinst⟩ buf hbuf
  obtain ⟨val, hupdate⟩ := updateInfoWire_loaded h buf
  refine ⟨i.loaded buf, loadInfoWire_new h (h.length_pieces_le.trans hbuf),
    drop_fill h.length_pieces_le, ⟨_, val, hupdate, ?_⟩, _, checkInfoWire_loaded h buf, ?_⟩
  · exact (restores_iff h.pkgName_ne h.serviceName_ne).2 ⟨hport, hinst⟩
  · have hvalid : (i.loaded buf).id.valid = false := by simp [loaded, hid]
    simp only [Validity.Within, WirePkginfo.validity, hvalid]
    simp [loaded]

/-- The default service `map` of the package `v2i`, with an executive and an address. -/
def mapService (port : UInt32) : ServiceInfo :=
  new [118, 50, 105] [109, 97, 112] none (some [109, 97, 112, 100]) (some [58, 58, 49]) port 3
    { globalAccessible := true }

theorem sendable_mapService {port : UInt32} (h : port.toNat < 2 ^ 16) :
    (mapService port).Sendable where
  pkgName_ne := cons_ne_nil _ _
  serviceName_ne := cons_ne_nil _ _
  pkgName := by simp [mapService, new]
  serviceName := by simp [mapService, new]
  instName := by simp [mapService, new]
  executive := by simp [mapService, new]
  ipaddr := by simp [mapService, new]
  size_lt := by
    rw [length_pieces]
    exact (by decide : 4 + 4 + 0 + 5 + 4 < 2 ^ 16)
  port_lt := h

/-- Without a port it survives. -/
theorem survivesWire_mapService : (mapService 0).SurvivesWire :=
  (survivesWire_iff (sendable_mapService (by decide))).2 ⟨rfl, rfl, fun _ => rfl⟩

/-- Port 5555 is lost. -/
theorem not_survivesWire_port : ¬ ∀ i : ServiceInfo, i.Sendable → i.SurvivesWire := by
  intro h
  have hsend : (mapService 5555).Sendable := sendable_mapService (by decide)
  exact absurd (SurvivesWire.eq_zero hsend (h _ hsend)).1 (by decide)

end ServiceInfo

end V2I.Mware
