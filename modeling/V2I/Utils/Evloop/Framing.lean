import V2I.Utils.Evloop

/-!
# V2I.Utils.Evloop.Framing

The packages that one side has written one behind the other are delivered one by one on the
other side, whatever the reads of the socket come to and whenever the loop looks for a package.
-/

namespace V2I.Evloop

open FifoBuffer FifobufferImpl ByteFile List Machine

/-! ## from the socket into the buffer -/

theorem length_drainFd (s : Socket) : (drainFd s).1 + (drainFd s).2.stream.length =
    s.stream.length := by
  fun_induction drainFd s with
  | case1 s out hlt => exact length_nonblkRead s 256
  | case2 s out hle rest ih =>
      have hlen := length_nonblkRead s 256
      have hrest : rest.1 + rest.2.stream.length = out.2.stream.length := ih
      simp only [out] at hrest ⊢
      omega

variable (malloc : FifobufferImpl → Chunk)

theorem length_epollReadDrain (b : FifobufferImpl) (s : Socket) :
    (epollReadDrain malloc b s).2.1 + (epollReadDrain malloc b s).2.2.stream.length =
      s.stream.length := by
  fun_induction epollReadDrain malloc b s with
  | case1 b s sz hfull => exact length_drainFd s
  | case2 b s sz hsize filled hlt => exact length_appendFd malloc b s sz
  | case3 b s sz hsize filled hle rest ih =>
      have hlen : filled.2.1 + filled.2.2.stream.length = s.stream.length :=
        length_appendFd malloc b s sz
      have hrest : rest.2.1 + rest.2.2.stream.length = filled.2.2.stream.length := ih
      simp only
      omega

theorem drainFd_suffix (s : Socket) : (drainFd s).2.stream <:+ s.stream := by
  fun_induction drainFd s with
  | case1 s out hlt => exact ⟨_, (nonblkRead_spec s 256).1⟩
  | case2 s out hle rest ih => exact ih.trans ⟨_, (nonblkRead_spec s 256).1⟩

/-- **Data comes in**: it goes behind the queue, and what is lost is lost at the chunk limit. -/
theorem epollReadDrain_spec (b : FifobufferImpl) (s : Socket) (h : Inv b) :
    Inv (epollReadDrain malloc b s).1 ∧ ∃ lost,
      (epollReadDrain malloc b s).1.contents ++ lost ++ (epollReadDrain malloc b s).2.2.stream =
        b.contents ++ s.stream ∧
      ((epollReadDrain malloc b s).1.chunkcnt < maxChunkcnt → lost = []) := by
  fun_induction epollReadDrain malloc b s with
  | case1 b s sz hfull =>
      obtain ⟨lost, hlost⟩ := drainFd_suffix s
      refine ⟨h, lost, by rw [append_assoc, hlost], fun hlt => ?_⟩
      have hsize : b.appendGetsize = 0 := hfull
      have hend : ¬ chunkSize - headerSize = 0 := by decide
      unfold appendGetsize at hsize
      split_ifs at hsize <;> omega
  | case2 b s sz hsize filled hlt =>
      obtain ⟨hinv, hcont, -⟩ := appendFd_spec malloc s h hsize rfl
      exact ⟨hinv, [], by rw [append_nil]; exact hcont, fun _ => rfl⟩
  | case3 b s sz hsize filled hle rest ih =>
      obtain ⟨hinv, hcont, -⟩ := appendFd_spec malloc s h hsize rfl
      obtain ⟨hinv', lost, hlost, hnone⟩ := ih hinv
      exact ⟨hinv', lost, hlost.trans hcont, hnone⟩

/-! ## packages -/

/-- A package that was written: its header has the magic and a null sender. -/
structure Package where
  pkgid : UInt32
  seqid : UInt32
  payload : List UInt8
  fits : payload.length < 2 ^ 32

namespace Package

def size (p : Package) : UInt32 := UInt32.ofNat p.payload.length

def header (p : Package) : PackageHeader := ⟨pkgHeaderMagic, p.pkgid, p.seqid, p.size, .null⟩

def headerBytes (p : Package) : List UInt8 :=
  words [pkgHeaderMagic, p.pkgid, p.seqid, p.size, 0, 0]

def bytes (p : Package) : List UInt8 := p.headerBytes ++ (p.payload ++ u32 pkgFooterMagic)

/-- What a handler gets: the header with the client set, and the payload. -/
def delivery (p : Package) : PackageHeader × List UInt8 :=
  ({ p.header with sender := .client }, p.payload)

variable (p : Package)

@[simp] theorem toNat_size : p.size.toNat = p.payload.length := by
  rw [size, UInt32.toNat_ofNat', Nat.mod_eq_of_lt p.fits]

@[simp] theorem length_headerBytes : p.headerBytes.length = sizeofPackageHeader := by
  rw [headerBytes, length_words]
  rfl

theorem length_bytes :
    p.bytes.length = sizeofPackageHeader + p.payload.length + sizeofPackageFooter := by
  rw [bytes, length_append, length_append, length_headerBytes, length_u32]
  exact (Nat.add_assoc _ _ _).symm

theorem readPackageHeader_headerBytes : readPackageHeader p.headerBytes = some p.header := by
  have hread := readWords_words [pkgHeaderMagic, p.pkgid, p.seqid, p.size, 0, 0] []
  rw [append_nil] at hread
  rw [readPackageHeader, headerBytes, show 6 = [pkgHeaderMagic, p.pkgid, p.seqid, p.size, 0,
    0].length from rfl, hread]
  rfl

end Package

/-- The stream of some packages. -/
def bytesOf (ps : List Package) : List UInt8 := ps.flatMap Package.bytes

@[simp] theorem bytesOf_cons (p : Package) (ps : List Package) :
    bytesOf (p :: ps) = p.bytes ++ bytesOf ps := flatMap_cons

variable {b : FifobufferImpl} {p : Package} {ps : List Package} {rest tail : List UInt8}

/-! ## looking for a package -/

theorem moveToPackageStart_short (h : Inv b) (hlt : b.contents.length < sizeofPackageHeader) :
    moveToPackageStart b = some (b, 1) := by
  rw [moveToPackageStart, getsize_eq h]
  exact if_pos hlt

/-- A buffer that begins with a header is left as it is. -/
theorem moveToPackageStart_header (h : Inv b) (hcont : b.contents = p.headerBytes ++ tail) :
    moveToPackageStart b = some (b, 0) := by
  have hlen : ¬ b.getsize < sizeofPackageHeader := by
    rw [getsize_eq h, hcont, length_append, p.length_headerBytes]
    omega
  have hmagic : b.peekdata 0 4 = some (u32 pkgHeaderMagic) := by
    rw [peekdata_spec h, hcont]
    rfl
  have hread : readU32 (u32 pkgHeaderMagic) = some pkgHeaderMagic := by
    simpa using readU32_u32 pkgHeaderMagic []
  simp only [moveToPackageStart, if_neg hlen, hmagic, hread, if_true]

/-- The header is read. -/
theorem peek_header (h : Inv b) (hcont : b.contents = p.headerBytes ++ tail) :
    (b.peekdata 0 sizeofPackageHeader).bind readPackageHeader = some p.header := by
  have htake : (b.contents.drop 0).take sizeofPackageHeader = p.headerBytes := by
    rw [hcont, drop_zero, ← p.length_headerBytes, take_left]
  rw [peekdata_spec h, htake, Option.bind_some, p.readPackageHeader_headerBytes]

/-- The footer is read. -/
theorem peek_footer (h : Inv b)
    (hcont : b.contents = p.headerBytes ++ (p.payload ++ (u32 pkgFooterMagic ++ tail))) :
    (b.peekdata (sizeofPackageHeader + p.header.size.toNat) sizeofPackageFooter).bind readU32 =
      some pkgFooterMagic := by
  have hsize : p.header.size.toNat = p.payload.length := p.toNat_size
  have hdrop : (b.contents.drop (sizeofPackageHeader + p.header.size.toNat)).take
      sizeofPackageFooter = u32 pkgFooterMagic := by
    rw [hcont, hsize, ← p.length_headerBytes, ← drop_drop, drop_left, drop_left]
    rfl
  rw [peekdata_spec h, hdrop, Option.bind_some]
  simpa using readU32_u32 pkgFooterMagic []

/-- Of the stream of a package and others, what is in the buffer begins with what it can hold. -/
theorem exists_front (hcont : b.contents ++ rest = p.bytes ++ bytesOf ps) {front back : List UInt8}
    (hbytes : p.bytes = front ++ back) (hlen : front.length ≤ b.contents.length) :
    ∃ tail, b.contents = front ++ tail := by
  have hfront : front <+: b.contents ++ rest := by
    rw [hcont, hbytes, append_assoc]
    exact prefix_append _ _
  obtain ⟨tail, htail⟩ := prefix_of_prefix_length_le hfront (prefix_append _ rest) hlen
  exact ⟨tail, htail.symm⟩

variable {b₀ : FifobufferImpl}

/-- Looking for a package in `b₀` comes to `b`, where there is too little for a header. -/
theorem readbufGetPackage_short (h : Inv b) (pkghdr : PackageHeader)
    (hmove : moveToPackageStart b₀ = some (b, 0)) (hshort : b.contents.length < sizeofPackageHeader)
    : readbufGetPackage b₀ pkghdr = some (b, pkghdr, 2) := by
  rw [← getsize_eq h] at hshort
  simp only [readbufGetPackage, readbufLoop, hmove, ne_eq, not_true_eq_false, if_false,
    if_pos hshort]

/-- Looking for a package in `b₀` comes to `b`, where the package at the front is not whole. -/
theorem readbufGetPackage_begun (h : Inv b) (pkghdr : PackageHeader)
    (hmove : moveToPackageStart b₀ = some (b, 0))
    (hcont : b.contents ++ rest = p.bytes ++ bytesOf ps)
    (hhead : ¬ b.contents.length < sizeofPackageHeader) (hlt : b.contents.length < p.bytes.length) :
    readbufGetPackage b₀ pkghdr = some (b, p.header, 3) := by
  obtain ⟨tail, hheader⟩ := exists_front hcont rfl
    (p.length_headerBytes ▸ Nat.not_lt.mp hhead)
  have hsize : p.header.size.toNat = p.payload.length := p.toNat_size
  rw [p.length_bytes] at hlt
  have hmore : b.getsize < p.header.size.toNat + sizeofPackageHeader +
      sizeofPackageFooter := by
    rw [getsize_eq h, hsize]
    omega
  rw [← getsize_eq h] at hhead
  simp only [readbufGetPackage, readbufLoop, hmove, ne_eq, not_true_eq_false, if_false,
    if_neg hhead, peek_header h hheader, if_pos hmore]

/-- Looking for a package in `b₀` comes to `b`, where there is a whole one: its header is taken
out. -/
theorem readbufGetPackage_found (h : Inv b) (pkghdr : PackageHeader)
    (hmove : moveToPackageStart b₀ = some (b, 0))
    (hcont : b.contents ++ rest = p.bytes ++ bytesOf ps) (hle : p.bytes.length ≤ b.contents.length)
    : ∃ b' tail, readbufGetPackage b₀ pkghdr = some (b', p.delivery.1, 0) ∧ Inv b' ∧ Cursor b' 0 ∧
      b'.contents = p.payload ++ (u32 pkgFooterMagic ++ tail) ∧ tail ++ rest = bytesOf ps := by
  obtain ⟨tail, hsplit⟩ := exists_front hcont (append_nil _).symm hle
  have hrest : tail ++ rest = bytesOf ps := by
    rw [hsplit, append_assoc] at hcont
    exact append_cancel_left hcont
  have hcontents : b.contents = p.headerBytes ++ (p.payload ++ (u32 pkgFooterMagic ++ tail)) := by
    rw [hsplit, Package.bytes, append_assoc, append_assoc]
  have hsize : p.header.size.toNat = p.payload.length := p.toNat_size
  rw [p.length_bytes] at hle
  have hhead : ¬ b.getsize < sizeofPackageHeader := by
    rw [getsize_eq h]
    omega
  have hall : ¬ b.getsize < p.header.size.toNat + sizeofPackageHeader + sizeofPackageFooter := by
    rw [getsize_eq h, hsize]
    omega
  obtain ⟨b', hrun, hinv, hcont'⟩ := removeDiscard_spec sizeofPackageHeader h
  have hfooter : 0 < sizeofPackageFooter := by decide
  refine ⟨b', tail, ?_, hinv, removeDiscard_cursor h (by decide) (by omega) hrun, ?_, hrest⟩
  · simp only [readbufGetPackage, readbufLoop, hmove, ne_eq, not_true_eq_false, if_false,
      if_neg hhead, peek_header h hcontents, if_neg hall, peek_footer h hcontents, if_true]
    simp only [packageHeaderSetSender, Package.header, FifobufferImpl.discard, hrun,
      Option.map_some]
    rfl
  · rw [hcont', hcontents, ← p.length_headerBytes, drop_left]

/-- A buffer that begins with a package is left as it is. -/
theorem moveToPackageStart_package (h : Inv b) (hcont : b.contents ++ rest = p.bytes ++ bytesOf ps)
    (hhead : ¬ b.contents.length < sizeofPackageHeader) : moveToPackageStart b = some (b, 0) := by
  obtain ⟨tail, hheader⟩ := exists_front hcont rfl
    (p.length_headerBytes ▸ Nat.not_lt.mp hhead)
  exact moveToPackageStart_header h hheader

/-- **A package that is not whole yet** stays where it is. -/
theorem readbufGetPackage_partial (h : Inv b) (pkghdr : PackageHeader)
    (hcont : b.contents ++ rest = bytesOf ps)
    (hlt : ∀ p ∈ ps.head?, b.contents.length < p.bytes.length) :
    ∃ hdr ret, ret ≠ 0 ∧ readbufGetPackage b pkghdr = some (b, hdr, ret) := by
  by_cases hshort : b.contents.length < sizeofPackageHeader
  · refine ⟨pkghdr, -1, by decide, ?_⟩
    simp only [readbufGetPackage, readbufLoop, moveToPackageStart_short h hshort]
    rfl
  · cases ps with
    | nil =>
        have hnil : b.contents = [] := (append_eq_nil_iff.mp hcont).1
        rw [hnil] at hshort
        exact absurd (by decide) hshort
    | cons p ps =>
        rw [bytesOf_cons] at hcont
        exact ⟨p.header, 3, by decide, readbufGetPackage_begun h pkghdr
          (moveToPackageStart_package h hcont hshort) hcont hshort (hlt p rfl)⟩

/-- **A package that is whole** is found, and its header is taken out. -/
theorem readbufGetPackage_whole (h : Inv b) (pkghdr : PackageHeader)
    (hcont : b.contents ++ rest = p.bytes ++ bytesOf ps)
    (hle : p.bytes.length ≤ b.contents.length) :
    ∃ b' tail, readbufGetPackage b pkghdr = some (b', p.delivery.1, 0) ∧ Inv b' ∧ Cursor b' 0 ∧
      b'.contents = p.payload ++ (u32 pkgFooterMagic ++ tail) ∧ tail ++ rest = bytesOf ps := by
  have hhead : ¬ b.contents.length < sizeofPackageHeader := by
    rw [p.length_bytes] at hle
    omega
  exact readbufGetPackage_found h pkghdr (moveToPackageStart_package h hcont hhead) hcont hle

/-! ## handling a package -/

/-- A handler only moves the cursor. -/
theorem ReadCall.run_spec (h : Inv b) {pos : ℕ} (hc : Cursor b pos) (call : ReadCall) :
    ∃ b', call.run b = some b' ∧ Moved b b' ∧ ∃ pos', Cursor b' pos' := by
  cases call with
  | getsize => exact ⟨b, rfl, .refl b, pos, hc⟩
  | peekdata at_ sz =>
      refine ⟨b, ?_, .refl b, pos, hc⟩
      rw [ReadCall.run, peekdata_spec h]
      rfl
  | seekSet at_ =>
      by_cases hat : at_ < b.contents.length
      · obtain ⟨b', hrun, hmoved, hc'⟩ := seek_spec h hat
        exact ⟨b', by rw [ReadCall.run, hrun]; rfl, hmoved, at_, hc'⟩
      · exact ⟨b, by rw [ReadCall.run, seek_of_le h (Nat.not_lt.mp hat)]; rfl, .refl b, pos, hc⟩
  | seekCur delta =>
      by_cases hdelta : delta = 0
      · exact ⟨b, by rw [ReadCall.run, FifobufferImpl.seekCur, if_pos hdelta]; rfl, .refl b, pos, hc⟩
      by_cases hlt : pos + delta < b.contents.length
      · obtain ⟨b', hrun, hmoved, hc'⟩ := seekCur_spec h hc hdelta hlt
        exact ⟨b', by rw [ReadCall.run, hrun]; rfl, hmoved, _, hc'⟩
      · exact ⟨b, by rw [ReadCall.run, seekCur_of_le h hc hdelta (Nat.le_of_not_lt hlt)]; rfl,
          .refl b, pos, hc⟩
  | read sz =>
      obtain ⟨b', hrun, hmoved, hc'⟩ := read_spec h hc sz
      exact ⟨b', by rw [ReadCall.run, hrun]; rfl, hmoved, _, hc'⟩

theorem handler_spec (h : Inv b) {pos : ℕ} (hc : Cursor b pos) (calls : List ReadCall) :
    ∃ b', calls.foldlM ReadCall.run b = some b' ∧ Inv b' ∧ b'.contents = b.contents := by
  induction calls generalizing b pos with
  | nil => exact ⟨b, rfl, h, rfl⟩
  | cons call calls ih =>
      obtain ⟨b₁, hrun, hmoved, pos', hc'⟩ := call.run_spec h hc
      obtain ⟨b', hrest, hinv, hcont⟩ := ih (hmoved.inv h) hc'
      refine ⟨b', ?_, hinv, hcont.trans hmoved.contents⟩
      rw [foldlM_cons, hrun]
      exact hrest

/-- **Handling a package** takes the rest of it out. -/
theorem handlePackage_spec (h : Inv b) (hc : Cursor b 0) (calls : List ReadCall)
    (hcont : b.contents = p.payload ++ (u32 pkgFooterMagic ++ tail)) :
    ∃ b' hdr, handlePackage calls b p.delivery.1 = some (b', hdr) ∧ Inv b' ∧
      b'.contents = tail := by
  obtain ⟨b₁, hrun, hinv, hcont₁⟩ := handler_spec h hc calls
  obtain ⟨b', hdiscard, hinv', hcont'⟩ :=
    removeDiscard_spec (p.payload.length + sizeofPackageFooter) hinv
  have hsize : p.delivery.1.size.toNat = p.payload.length := p.toNat_size
  refine ⟨b', p.header, ?_, hinv', ?_⟩
  · rw [handlePackage, hrun]
    simp only [finish, Package.delivery] at hsize ⊢
    rw [hsize, FifobufferImpl.discard, hdiscard]
    rfl
  · rw [hcont', hcont₁, hcont, ← drop_drop, drop_left]
    rfl

variable (malloc : FifobufferImpl → Chunk)

/-- A package that was found is delivered. -/
theorem receive_delivers {s : Receiver} (calls : List ReadCall)
    (hget : readbufGetPackage s.readbuf s.hdr = some (b, p.delivery.1, 0)) (h : Inv b)
    (hc : Cursor b 0) (hcont : b.contents = p.payload ++ (u32 pkgFooterMagic ++ tail)) :
    ∃ b' hdr, step malloc s (.receive calls) = some (⟨b', hdr, s.stream⟩,
      .delivered p.delivery.1 p.delivery.2) ∧ Inv b' ∧ b'.contents = tail := by
  obtain ⟨b', hdr, hhandle, hinv', hcont'⟩ := handlePackage_spec h hc calls hcont
  have hpeek : b.peekdata 0 p.delivery.1.size.toNat = some p.payload := by
    have hsize : p.delivery.1.size.toNat = p.payload.length := p.toNat_size
    rw [peekdata_spec h, hcont, hsize, drop_zero, take_left]
  refine ⟨b', hdr, ?_, hinv', hcont'⟩
  simp only [step, hget, hpeek, hhandle]
  rfl

/-! ## the queue of packages -/

/-- What the loop is for: packages on their way, and how many bytes of them have come in. -/
structure Pending where
  packages : List Package
  received : ℕ

/-- Bytes come in, and a package is delivered when all of it is there. -/
inductive PackageStep : Pending → Event → Reply → Pending → Prop
  | dataIn (q reads n) : q.received + n ≤ (bytesOf q.packages).length →
      PackageStep q (.dataIn reads) (.taken n) { q with received := q.received + n }
  | nothing (q calls ret) : (∀ p ∈ q.packages.head?, q.received < p.bytes.length) →
      PackageStep q (.receive calls) (.nothing ret) q
  | delivered (p ps received calls) : p.bytes.length ≤ received →
      PackageStep ⟨p :: ps, received⟩ (.receive calls)
        (.delivered p.delivery.1 p.delivery.2) ⟨ps, received - p.bytes.length⟩

/-- The buffer holds what has come in, and the stream the rest. -/
structure Represents (s : Receiver) (q : Pending) : Prop where
  inv : Inv s.readbuf
  bytes : s.readbuf.contents ++ s.stream = bytesOf q.packages
  received : s.readbuf.contents.length = q.received

/-- The read buffer stays below its limit of chunks. -/
def BelowLimit (malloc : FifobufferImpl → Chunk) (s : Receiver) : Event → Prop
  | .dataIn reads => (epollReadDrain malloc s.readbuf ⟨s.stream, reads⟩).1.chunkcnt < maxChunkcnt
  | .receive _ => True

/-- **One event**: the loop does to the buffer what it does to the queue of packages. -/
theorem step_simulates (s : Receiver) (q : Pending) (e : Event) (hR : Represents s q)
    (hlimit : BelowLimit malloc s e) :
    ∃ s' r q', step malloc s e = some (s', r) ∧ PackageStep q e r q' ∧ Represents s' q' := by
  obtain ⟨hinv, hbytes, hreceived⟩ := hR
  cases e with
  | dataIn reads =>
      obtain ⟨hinv', lost, hcont, hnone⟩ :=
        epollReadDrain_spec malloc s.readbuf ⟨s.stream, reads⟩ hinv
      have hlen := length_epollReadDrain malloc s.readbuf ⟨s.stream, reads⟩
      rw [hnone hlimit, append_nil] at hcont
      have hcontlen := congrArg List.length hcont
      have hbyteslen := congrArg List.length hbytes
      simp only [length_append] at hcontlen hbyteslen
      dsimp only at hlen hcontlen
      exact ⟨_, _, _, rfl, .dataIn q reads _ (by omega), hinv', hcont.trans hbytes, by
        dsimp only
        omega⟩
  | receive calls =>
      by_cases hwhole : ∃ p ps, q.packages = p :: ps ∧ p.bytes.length ≤ q.received
      · obtain ⟨p, ps, hq, hle⟩ := hwhole
        obtain ⟨packages, received⟩ := q
        subst hq
        rw [bytesOf_cons] at hbytes
        dsimp only at hle hreceived
        obtain ⟨b, tail, hget, hinv₁, hc, hcont, hrest⟩ :=
          readbufGetPackage_whole hinv s.hdr hbytes (by omega)
        obtain ⟨b', hdr, hstep, hinv', hcont'⟩ :=
          receive_delivers malloc calls hget hinv₁ hc hcont
        refine ⟨_, _, _, hstep, .delivered p ps received calls hle, hinv', ?_, ?_⟩
        · rw [hcont', hrest]
        · have hlen := congrArg List.length hbytes
          have hlen' := congrArg List.length hrest
          simp only [length_append] at hlen hlen'
          rw [hcont']
          dsimp only
          omega
      · have hpartial : ∀ p ∈ q.packages.head?, q.received < p.bytes.length := by
          intro p hp
          obtain ⟨ps, hq⟩ := head?_eq_some_iff.mp hp
          by_contra hle
          exact hwhole ⟨p, ps, hq, Nat.not_lt.mp hle⟩
        obtain ⟨hdr, ret, hret, hget⟩ := readbufGetPackage_partial hinv s.hdr hbytes
          (by rwa [hreceived])
        refine ⟨{ s with hdr }, _, q, ?_, .nothing q calls ret hpartial, hinv, hbytes, hreceived⟩
        simp only [step, hget, if_pos hret]

/-! ## runs -/

/-- An empty buffer, and the bytes that will come. -/
def Receiver.start (stream : List UInt8) : Receiver := ⟨.new, .init, stream⟩

theorem represents_start (ps : List Package) : Represents (.start (bytesOf ps)) ⟨ps, 0⟩ :=
  ⟨inv_new, rfl, rfl⟩

/-- The packages delivered, with what their handlers got. -/
def deliveries : List Reply → List (PackageHeader × List UInt8)
  | .delivered hdr payload :: rs => (hdr, payload) :: deliveries rs
  | _ :: rs => deliveries rs
  | [] => []

variable {q q' : Pending} {events : List Event} {rs : List Reply} {s : Receiver}

/-- Packages are delivered in their order, and each once. -/
theorem packages_of_runs (h : Runs PackageStep q events rs q') :
    q.packages.map Package.delivery = deliveries rs ++ q'.packages.map Package.delivery := by
  induction h with
  | nil q => rfl
  | cons hstep _ ih =>
      cases hstep with
      | dataIn q reads n hle => exact ih
      | nothing q calls ret hpartial => exact ih
      | delivered p ps received calls hle =>
          rw [map_cons, ih]
          rfl

/-- What is to be said of a call to look for a package: the next one is delivered if and only
if all of it has come in. -/
def Answers (malloc : FifobufferImpl → Chunk) (s : Receiver) (left : List Package)
    (calls : List ReadCall) : Prop :=
  ∃ s' r, step malloc s (.receive calls) = some (s', r) ∧
    ((∃ p ∈ left.head?, p.bytes.length ≤ s.readbuf.contents.length ∧
        r = .delivered p.delivery.1 p.delivery.2) ∨
      (∀ p ∈ left.head?, s.readbuf.contents.length < p.bytes.length) ∧ ∃ ret, r = .nothing ret)

theorem Represents.answers (h : Represents s q) (calls : List ReadCall) :
    Answers malloc s q.packages calls := by
  obtain ⟨s', r, q', hstep, hpackage, -⟩ := step_simulates malloc s q (.receive calls) h trivial
  refine ⟨s', r, hstep, ?_⟩
  cases hpackage with
  | nothing q calls ret hpartial => exact .inr ⟨by rwa [h.received], ret, rfl⟩
  | delivered p ps received calls hle => exact .inl ⟨p, rfl, by rwa [h.received], rfl⟩

/-- Once all bytes have come in, every call delivers, until the buffer is empty. -/
theorem Represents.delivers_left (h : Represents s q) (hstream : s.stream = [])
    {handlers : List (List ReadCall)} (hlen : handlers.length = q.packages.length) :
    ∃ t rs, run (step malloc) s (handlers.map .receive) = some (t, rs) ∧
      deliveries rs = q.packages.map Package.delivery ∧ t.readbuf.empty = true := by
  induction handlers generalizing s q with
  | nil =>
      have hnil : q.packages = [] := length_eq_zero_iff.mp hlen.symm
      have hcont := h.bytes
      rw [hnil] at hcont ⊢
      exact ⟨s, [], rfl, rfl, (empty_iff h.inv).mpr (append_eq_nil_iff.mp hcont).1⟩
  | cons calls handlers ih =>
      obtain ⟨s', r, q', hstep, hpackage, hR⟩ :=
        step_simulates malloc s q (.receive calls) h trivial
      have hstream' : s'.stream = s.stream := by
        simp only [step] at hstep
        split at hstep
        · cases hstep
        · split_ifs at hstep
          · cases hstep
            rfl
          · split at hstep
            · cases hstep
              rfl
            · cases hstep
      cases hpackage with
      | nothing q calls ret hpartial =>
          -- the next package would be whole
          obtain ⟨p, ps, hq⟩ := exists_cons_of_length_pos (by
            rw [← hlen]
            exact Nat.succ_pos _ : 0 < q.packages.length)
          have hlt := hpartial p (by rw [hq]; rfl)
          have hcont := congrArg List.length h.bytes
          rw [hstream, hq, bytesOf_cons, append_nil, length_append, h.received] at hcont
          omega
      | delivered p ps received calls hle =>
          obtain ⟨t, rs, hrun, hdeliveries, hempty⟩ :=
            ih hR (hstream'.trans hstream) (Nat.succ.inj hlen)
          refine ⟨t, _ :: rs, run_cons_eq_some_iff.mpr ⟨s', _, rs, hstep, hrun, rfl⟩, ?_,
            hempty⟩
          rw [deliveries, hdeliveries]
          rfl

/-- **Framing is exact**: whatever the reads come to and whenever the loop looks for packages,
below the chunk limit those that were written are delivered, in their order, each once and with
its payload at the start of the buffer; what is left is what the buffer and the socket hold. The
next one is delivered as soon as all of it has come in, and behind the last one the buffer is
empty. -/
theorem framing_exact (malloc : FifobufferImpl → Chunk) (ps : List Package) (events : List Event)
    (h : Guarded (step malloc) (BelowLimit malloc) (.start (bytesOf ps)) events) :
    ∃ s rs left, run (step malloc) (.start (bytesOf ps)) events = some (s, rs) ∧
      ps.map Package.delivery = deliveries rs ++ left.map Package.delivery ∧
      s.readbuf.contents ++ s.stream = bytesOf left ∧
      (∀ calls, Answers malloc s left calls) ∧
      (s.stream = [] → ∀ handlers : List (List ReadCall), handlers.length = left.length →
        ∃ t rs', run (step malloc) s (handlers.map .receive) = some (t, rs') ∧
          deliveries rs' = left.map Package.delivery ∧ t.readbuf.empty = true) := by
  obtain ⟨s, rs, q, hrun, hruns, hR⟩ := run_simulates (step_simulates malloc) events _ _
    (represents_start ps) h
  exact ⟨s, rs, q.packages, hrun, packages_of_runs hruns, hR.bytes, hR.answers malloc,
    fun hstream _ => hR.delivers_left malloc hstream⟩

/-! ## short streams -/

/-- All chunks but the first and the last are full. -/
theorem chunkcnt_le (h : Inv b) (h0 : b.chunkcnt ≠ 0) :
    (chunkSize - headerSize) * b.chunkcnt < b.contents.length + 2 * (chunkSize - headerSize) := by
  have hsize := getsize_eq h
  have hstart := h.start_lt h0
  have hend := h.end_ge h0
  rw [getsize, if_neg h0] at hsize
  simp only [chunkSize, headerSize] at *
  omega

/-- So few bytes never fill the chunks. -/
theorem belowLimit_of_length {s : Receiver} (h : Inv s.readbuf)
    (hlen : (s.readbuf.contents ++ s.stream).length ≤ (maxChunkcnt - 2) * (chunkSize - headerSize))
    (e : Event) : BelowLimit malloc s e := by
  cases e with
  | receive calls => trivial
  | dataIn reads =>
      obtain ⟨hinv, lost, hcont, -⟩ := epollReadDrain_spec malloc s.readbuf ⟨s.stream, reads⟩ h
      have hbytes := congrArg List.length hcont
      simp only [length_append] at hbytes hlen
      by_cases h0 : (epollReadDrain malloc s.readbuf ⟨s.stream, reads⟩).1.chunkcnt = 0
      · rw [BelowLimit, h0]
        decide
      · have hle := chunkcnt_le hinv h0
        simp only [BelowLimit, maxChunkcnt, chunkSize, headerSize] at *
        omega

/-- A stream of this length never fills the chunks. -/
theorem guarded_of_short (hlen : (bytesOf ps).length ≤ (maxChunkcnt - 2) * (chunkSize - headerSize))
    (events : List Event) :
    Guarded (step malloc) (BelowLimit malloc) (.start (bytesOf ps)) events := by
  have hlimit : ∀ s e, (∃ q, Represents s q ∧
      (bytesOf q.packages).length ≤ (maxChunkcnt - 2) * (chunkSize - headerSize)) →
      BelowLimit malloc s e := by
    rintro s e ⟨q, hR, hq⟩
    exact belowLimit_of_length malloc hR.inv (hR.bytes ▸ hq) e
  refine .of_invariant hlimit ?_ ⟨⟨ps, 0⟩, represents_start ps, hlen⟩ events
  rintro s e s' r ⟨q, hR, hq⟩ hstep
  obtain ⟨s₁, r₁, q', hstep₁, hpackage, hR'⟩ :=
    step_simulates malloc s q e hR (hlimit s e ⟨q, hR, hq⟩)
  cases hstep.symm.trans hstep₁
  refine ⟨q', hR', ?_⟩
  cases hpackage with
  | dataIn q reads n hle => exact hq
  | nothing q calls ret hpartial => exact hq
  | delivered p ps received calls hle =>
      dsimp only at hq ⊢
      rw [bytesOf_cons, length_append] at hq
      omega

/-- Two packages, the first with the magic of a header for its payload. -/
def twoPackages : List Package :=
  [⟨1, 5, u32 pkgHeaderMagic, by decide⟩, ⟨2, 6, [7], by decide⟩]

/-- The first package comes in two parts, the second with the last of the first. -/
theorem framing_exact_two :
    ∃ (s : Receiver) (rs : List Reply) (left : List Package),
      run (step fun _ => zeroChunk) (.start (bytesOf twoPackages))
        [.dataIn [.got 30, .again], .receive [], .dataIn [.intr, .got 100], .receive [.read 2]] =
          some (s, rs) ∧
      twoPackages.map Package.delivery = deliveries rs ++ left.map Package.delivery := by
  obtain ⟨s, rs, left, hrun, hpackages, -⟩ := framing_exact (fun _ => zeroChunk) twoPackages
    [.dataIn [.got 30, .again], .receive [], .dataIn [.intr, .got 100], .receive [.read 2]]
    (guarded_of_short _ (by decide) _)
  exact ⟨s, rs, left, hrun, hpackages⟩

end V2I.Evloop
