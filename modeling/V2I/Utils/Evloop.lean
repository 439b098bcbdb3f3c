import V2I.Lib.ByteFile
import V2I.Utils.FifoBuffer.Reading

/-!
# V2I.Utils.Evloop

The receiving side of the event loop (`evloop.cpp`): `epoll_read_drain` moves what the socket of
a client has into the read buffer of that client, `readbuf_get_package` looks for a package at
the front of the buffer, and `handle_package` takes the package out behind its handler.

```
| package_header (24) | payload (header.size) | package_footer (4) |
```
-/

namespace V2I.Evloop

open FifoBuffer FifobufferImpl

/-! ## from the socket into the buffer -/

/-- `drain(fd)`: the bytes are read and forgotten. -/
def drainFd (s : Socket) : Nat × Socket :=
  let out := nonblkRead s 256
  if out.1.length < 256 then (out.1.length, out.2)
  else
    let rest := drainFd out.2
    (out.1.length + rest.1, rest.2)
termination_by s.stream.length
decreasing_by
  rename_i hfull
  have hlen := length_nonblkRead s 256
  simp only [out] at hfull
  omega

/-- `epoll_read_drain(fd, buf)`: the buffer, the number of bytes read and the socket. -/
def epollReadDrain (malloc : FifobufferImpl → Chunk) (b : FifobufferImpl) (s : Socket) :
    FifobufferImpl × Nat × Socket :=
  let sz := b.appendGetsize
  if sz = 0 then (b, drainFd s)
  else
    let filled := appendFd malloc b s sz
    if filled.2.1 < sz then filled
    else
      let rest := epollReadDrain malloc filled.1 filled.2.2
      (rest.1, filled.2.1 + rest.2.1, rest.2.2)
termination_by s.stream.length
decreasing_by
  rename_i hsize hfull
  have hlen := length_appendFd malloc b s b.appendGetsize
  simp only [filled, sz] at hsize hfull
  omega

/-! ## packages -/

/-- `PKG_HEADER_MAGIC` -/
def pkgHeaderMagic : UInt32 := 0xDEADBEEF

/-- `PKG_FOOTER_MAGIC` -/
def pkgFooterMagic : UInt32 := 0xBEEFDEAD

/-- `sizeof(package_header)` -/
def sizeofPackageHeader : Nat := 24

/-- `sizeof(package_footer)` -/
def sizeofPackageFooter : Nat := 4

/-- `package_header::sender`: null, a pointer that came with the bytes, or the client whose
buffer holds the package. -/
inductive Sender
  | null
  | wire (ptr : Nat)
  | client

structure PackageHeader where
  magic : UInt32
  pkgid : UInt32
  seqid : UInt32
  size : UInt32
  sender : Sender

/-- The constructor without arguments. -/
def PackageHeader.init : PackageHeader := ⟨pkgHeaderMagic, 0, 0, 0, .null⟩

/-- The pointer of two words. -/
def senderOf (lo hi : UInt32) : Sender :=
  if lo = 0 ∧ hi = 0 then .null else .wire (lo.toNat + hi.toNat * 2 ^ 32)

/-- A header as its bytes; `none` where there are too few, an `assert` that fails. -/
def readPackageHeader (bytes : List UInt8) : Option PackageHeader :=
  match ByteFile.readWords 6 bytes with
  | some [magic, pkgid, seqid, size, lo, hi] => some ⟨magic, pkgid, seqid, size, senderOf lo hi⟩
  | _ => none

/-- `package_header_set_sender(pkghdr, cl)`: a sender that is there is released first, which
has no meaning for a pointer that came with the bytes. -/
def packageHeaderSetSender (hdr : PackageHeader) : Option PackageHeader :=
  match hdr.sender with
  | .wire _ => none
  | _ => some { hdr with sender := .client }

/-- The first place in a block where the magic of a header stands. -/
def findMagic (buf : List UInt8) : Option Nat :=
  (List.range (buf.length - 3)).find? fun i => ByteFile.readU32 (buf.drop i) = some pkgHeaderMagic

/-- The loop of `move_to_package_start`, block by block; a magic over the border of two blocks
is not seen. -/
def moveLoop (b : FifobufferImpl) (bufsz start : Nat) : Option (FifobufferImpl × Nat) :=
  if bufsz = 0 then some (b.drain, 3)
  else
    let nread := min 256 bufsz
    if nread < 4 then some (b, 2)
    else
      match b.read nread with
      | none => none
      | some (b, buf) =>
          if buf.length ≠ nread then none
          else
            match findMagic buf with
            | some i => (b.discard (start + i)).map fun p => (p.1, 0)
            | none => moveLoop b (bufsz - nread) (start + nread)
termination_by bufsz

/-- `move_to_package_start(fifobuf)` -/
def moveToPackageStart (b : FifobufferImpl) : Option (FifobufferImpl × Nat) :=
  let bufsz := b.getsize
  if bufsz < sizeofPackageHeader then some (b, 1)
  else
    match b.peekdata 0 4 with
    | none => none
    | some bytes =>
        match ByteFile.readU32 bytes with
        | none => some (b, 2)
        | some magic =>
            if magic = pkgHeaderMagic then some (b, 0)
            else
              match b.seek 0 with
              | none => none
              | some (b, _) => moveLoop b bufsz 0

/-- The rounds of `readbuf_get_package`: the buffer, `pkghdr` and what is returned. -/
def readbufLoop : Nat → FifobufferImpl → PackageHeader →
    Option (FifobufferImpl × PackageHeader × Int)
  | 0, _, _ => none
  | fuel + 1, b, pkghdr =>
      match moveToPackageStart b with
      | none => none
      | some (b, ret) =>
          if ret ≠ 0 then some (b, pkghdr, -1)
          else if b.getsize < sizeofPackageHeader then some (b, pkghdr, 2)
          else
            match (b.peekdata 0 sizeofPackageHeader).bind readPackageHeader with
            | none => none
            | some pkghdr =>
                if b.getsize < pkghdr.size.toNat + sizeofPackageHeader + sizeofPackageFooter then
                  some (b, pkghdr, 3)
                else
                  match (b.peekdata (sizeofPackageHeader + pkghdr.size.toNat)
                      sizeofPackageFooter).bind ByteFile.readU32 with
                  | none => none
                  | some magic =>
                      if magic = pkgFooterMagic then
                        match packageHeaderSetSender pkghdr with
                        | none => none
                        | some pkghdr =>
                            (b.discard sizeofPackageHeader).map fun p => (p.1, pkghdr, 0)
                      else
                        -- no package: on to the next magic
                        match b.discard 4 with
                        | none => none
                        | some (b, _) => readbufLoop fuel b pkghdr

/-- `readbuf_get_package(cl, pkghdr)`. A round that goes on takes four bytes out of the buffer. -/
def readbufGetPackage (b : FifobufferImpl) (pkghdr : PackageHeader) :
    Option (FifobufferImpl × PackageHeader × Int) := readbufLoop (b.getsize + 1) b pkghdr

/-! ## handling -/

/-- What a handler may do with the buffer of its package (`readonlybuffer`). -/
inductive ReadCall
  | getsize
  | peekdata (pos sz : Nat)
  | seekSet (pos : Nat)
  | seekCur (delta : Nat)
  | read (sz : Nat)

def ReadCall.run (b : FifobufferImpl) : ReadCall → Option FifobufferImpl
  | .getsize => some b
  | .peekdata pos sz => (b.peekdata pos sz).map fun _ => b
  | .seekSet pos => (b.seek pos).map Prod.fst
  | .seekCur delta => (b.seekCur delta).map Prod.fst
  | .read sz => (b.read sz).map Prod.fst

/-- `package_header::finish()` -/
def finish (b : FifobufferImpl) (pkghdr : PackageHeader) :
    Option (FifobufferImpl × PackageHeader) :=
  match pkghdr.sender with
  | .null => some (b, pkghdr)
  | .wire _ => none
  | .client => (b.discard (pkghdr.size.toNat + sizeofPackageFooter)).map fun p =>
      (p.1, { pkghdr with sender := .null })

/-- `handle_package(pkghdr)`, with the calls that the handler of its package id makes. -/
def handlePackage (handler : List ReadCall) (b : FifobufferImpl) (pkghdr : PackageHeader) :
    Option (FifobufferImpl × PackageHeader) :=
  match handler.foldlM ReadCall.run b with
  | none => none
  | some b => finish b pkghdr

/-! ## the loop -/

/-- The read buffer of a client, the header that the loop reads into, and the bytes that are
still on their way. -/
structure Receiver where
  readbuf : FifobufferImpl
  hdr : PackageHeader
  stream : List UInt8

/-- The socket has data, and the calls of `read` come to `reads`; or the loop looks for a
package, for the handler of which `calls` are the calls. -/
inductive Event
  | dataIn (reads : List SysRead)
  | receive (calls : List ReadCall)

/-- The number of bytes read; what `readbuf_get_package` returns when there is no package; or the
package, with what stands at the start of the buffer for its handler. -/
inductive Reply
  | taken (n : Nat)
  | nothing (ret : Int)
  | delivered (hdr : PackageHeader) (payload : List UInt8)

def step (malloc : FifobufferImpl → Chunk) (s : Receiver) : Event → Option (Receiver × Reply)
  | .dataIn reads =>
      let r := epollReadDrain malloc s.readbuf ⟨s.stream, reads⟩
      some ({ s with readbuf := r.1, stream := r.2.2.stream }, .taken r.2.1)
  | .receive calls =>
      match readbufGetPackage s.readbuf s.hdr with
      | none => none
      | some (b, hdr, ret) =>
          if ret ≠ 0 then some ({ s with readbuf := b, hdr }, .nothing ret)
          else
            match b.peekdata 0 hdr.size.toNat, handlePackage calls b hdr with
            | some payload, some (b', hdr') =>
                some ({ s with readbuf := b', hdr := hdr' }, .delivered hdr payload)
            | _, _ => none

end V2I.Evloop
