import V2I.Utils.Evloop.Framing

/-!
# V2I.Utils.Evloop.Resync

Packages behind bytes that are none. `move_to_package_start` looks for the magic of a header in
blocks of 256 bytes, and empties the buffer where it finds none.
-/

namespace V2I.Evloop

open FifoBuffer FifobufferImpl ByteFile List Machine

/-! ## the search -/

/-- The magic of a header stands here. -/
def MagicAt (bytes : List UInt8) (j : ℕ) : Prop := readU32 (bytes.drop j) = some pkgHeaderMagic

instance (bytes : List UInt8) (j : ℕ) : Decidable (MagicAt bytes j) :=
  inferInstanceAs (Decidable (_ = _))

/-- The magic of a header stands here, inside a block. -/
def SeenAt (bytes : List UInt8) (j : ℕ) : Prop := MagicAt bytes j ∧ j % 256 ≤ 252

variable {bytes : List UInt8}

theorem readU32_take {n : ℕ} (h : 4 ≤ n) : readU32 (bytes.take n) = readU32 bytes := by
  obtain ⟨k, rfl⟩ := Nat.exists_eq_add_of_le' h
  match bytes with
  | [] | [_] | [_, _] | [_, _, _] => simp only [List.take, readU32]
  | a :: b :: c :: d :: rest => rfl

theorem length_of_readU32 {x : UInt32} (h : readU32 bytes = some x) : 4 ≤ bytes.length := by
  match bytes with
  | [] | [_] | [_, _] | [_, _, _] => cases h
  | a :: b :: c :: d :: rest => exact Nat.le_add_left 4 rest.length

theorem exists_readU32 (h : 4 ≤ bytes.length) : ∃ x, readU32 bytes = some x := by
  match bytes with
  | [] | [_] | [_, _] | [_, _, _] => simp at h
  | a :: b :: c :: d :: rest => exact ⟨_, rfl⟩

variable {bytes rest g : List UInt8} {j k : ℕ}

theorem MagicAt.le (h : MagicAt bytes j) : j + 4 ≤ bytes.length := by
  have hlen := length_of_readU32 h
  rw [length_drop] at hlen
  omega

theorem magicAt_append (h : j + 4 ≤ bytes.length) :
    MagicAt (bytes ++ rest) j ↔ MagicAt bytes j := by
  have hle : 4 ≤ (bytes.drop j).length := by
    rw [length_drop]
    omega
  rw [MagicAt, MagicAt, drop_append_of_le_length (by omega), ← readU32_take hle, take_left]

theorem magicAt_drop : MagicAt (bytes.drop k) j ↔ MagicAt bytes (k + j) := by
  rw [MagicAt, MagicAt, drop_drop]

/-- The search in one block. -/
theorem findMagic_eq_some_iff {i : ℕ} : findMagic bytes = some i ↔
    MagicAt bytes i ∧ ∀ j < i, ¬ MagicAt bytes j := by
  simp only [findMagic, find?_range_eq_some, MagicAt, decide_eq_true_eq, mem_range,
    Bool.not_eq_true', decide_eq_false_iff_not]
  constructor
  · rintro ⟨hi, -, hall⟩
    exact ⟨hi, hall⟩
  · rintro ⟨hi, hall⟩
    have hle := MagicAt.le hi
    exact ⟨hi, by omega, hall⟩

theorem findMagic_eq_none_iff : findMagic bytes = none ↔ ∀ j, ¬ MagicAt bytes j := by
  simp only [findMagic, find?_range_eq_none, MagicAt, Bool.not_eq_true', decide_eq_false_iff_not]
  refine ⟨fun h j hj => ?_, fun h j _ => h j⟩
  have hle := MagicAt.le hj
  exact h j (by omega) hj

/-- What may come of the search. -/
inductive Scanned (bytes : List UInt8) : Option (FifobufferImpl × ℕ) → Prop
  | found (b : FifobufferImpl) (j : ℕ) : SeenAt bytes j → (∀ i < j, ¬ SeenAt bytes i) → Inv b →
      b.contents = bytes.drop j → Scanned bytes (some (b, 0))
  | short (b : FifobufferImpl) : (∀ j, ¬ SeenAt bytes j) → 1 ≤ bytes.length % 256 →
      bytes.length % 256 ≤ 3 → Inv b → b.contents = bytes → Scanned bytes (some (b, 2))
  | dropped (b : FifobufferImpl) : (∀ j, ¬ SeenAt bytes j) →
      ¬ (1 ≤ bytes.length % 256 ∧ bytes.length % 256 ≤ 3) → Inv b → b.contents = [] →
      Scanned bytes (some (b, 3))

/-- A magic in the first `n` bytes from `k` on. -/
theorem magicAt_block {n i : ℕ} :
    MagicAt ((bytes.drop k).take n) i ↔ MagicAt bytes (k + i) ∧ i + 4 ≤ n := by
  constructor
  · intro h
    have hle := h.le
    rw [length_take] at hle
    refine ⟨?_, by omega⟩
    rw [MagicAt, drop_take, readU32_take (by omega)] at h
    rwa [← magicAt_drop]
  · rintro ⟨h, hle⟩
    rw [MagicAt, drop_take, readU32_take (by omega)]
    rwa [← magicAt_drop] at h

/-- Block by block, from a border on; behind the last block there may be none. -/
theorem moveLoop_scanned (b : FifobufferImpl) (bufsz start : ℕ) (h : Inv b)
    (hc : Cursor b start) (hlen : start + bufsz = b.contents.length)
    (hborder : start % 256 = 0 ∨ bufsz = 0 ∧ 4 ≤ start % 256)
    (hbefore : ∀ j < start, ¬ SeenAt b.contents j) :
    Scanned b.contents (moveLoop b bufsz start) := by
  fun_induction moveLoop b bufsz start with
  | case1 b start =>
      refine .dropped _ (fun j hj => ?_) (by omega) (inv_drain b) rfl
      have hle := hj.1.le
      exact hbefore j (by omega) hj
  | case2 b bufsz start hne nread hshort =>
      have hnread : nread = min 256 bufsz := rfl
      refine .short _ (fun j hj => ?_) (by omega) (by omega) h rfl
      have hle := hj.1.le
      exact hbefore j (by omega) hj
  | case3 b bufsz start hne nread hlong hread =>
      obtain ⟨b', hrun, -, -⟩ := read_spec h hc nread
      cases hread.symm.trans hrun
  | case4 b bufsz start hne nread hlong b' buf hread hcut =>
      obtain ⟨b₁, hrun, -, -⟩ := read_spec h hc nread
      cases hread.symm.trans hrun
      have hnread : nread = min 256 bufsz := rfl
      rw [length_take, length_drop] at hcut
      omega
  | case5 b bufsz start hne nread hlong b' buf hread hcut i hmagic =>
      obtain ⟨b₁, hrun, hmoved, -⟩ := read_spec h hc nread
      cases hread.symm.trans hrun
      have hnread : nread = min 256 bufsz := rfl
      obtain ⟨hi, hfirst⟩ := findMagic_eq_some_iff.mp hmagic
      obtain ⟨hi, hile⟩ := magicAt_block.mp hi
      obtain ⟨b₂, hdiscard, hinv, hcont⟩ := removeDiscard_spec (start + i) (hmoved.inv h)
      rw [FifobufferImpl.discard, hdiscard]
      rw [hmoved.contents] at hcont
      refine .found b₂ (start + i) ⟨hi, by omega⟩ (fun j hj hseen => ?_) hinv hcont
      by_cases hlt : j < start
      · exact hbefore j hlt hseen
      · obtain ⟨k, rfl⟩ := Nat.exists_eq_add_of_le (Nat.le_of_not_lt hlt)
        exact hfirst k (by omega) (magicAt_block.mpr ⟨hseen.1, by omega⟩)
  | case6 b bufsz start hne nread hlong b' buf hread hcut hmagic ih =>
      obtain ⟨b₁, hrun, hmoved, hc'⟩ := read_spec h hc nread
      cases hread.symm.trans hrun
      have hnread : nread = min 256 bufsz := rfl
      rw [hmoved.contents] at ih
      refine ih (hmoved.inv h) hc' (by omega) (by omega) fun j hj hseen => ?_
      by_cases hlt : j < start
      · exact hbefore j hlt hseen
      · obtain ⟨k, rfl⟩ := Nat.exists_eq_add_of_le (Nat.le_of_not_lt hlt)
        have hmod := hseen.2
        have hle := hseen.1.le
        exact findMagic_eq_none_iff.mp hmagic k (magicAt_block.mpr ⟨hseen.1, by omega⟩)

/-- **The search** finds the first magic that lies inside a block. -/
theorem moveToPackageStart_scanned {b : FifobufferImpl} (h : Inv b)
    (hlen : sizeofPackageHeader ≤ b.contents.length) (hfirst : ¬ MagicAt b.contents 0) :
    Scanned b.contents (moveToPackageStart b) := by
  have hsize : ¬ b.getsize < sizeofPackageHeader := by
    rw [getsize_eq h]
    omega
  have hpos : 0 < b.contents.length := Nat.lt_of_lt_of_le (by decide) hlen
  have hpeek : b.peekdata 0 4 = some (b.contents.take 4) := peekdata_spec h 0 4
  obtain ⟨x, hx⟩ := exists_readU32 (Nat.le_trans (by decide) hlen)
  have hne : x ≠ pkgHeaderMagic := by
    rintro rfl
    exact hfirst hx
  obtain ⟨b', hseek, hmoved, hc⟩ := seek_spec h hpos
  have hscan := moveLoop_scanned b' b.getsize 0 (hmoved.inv h) hc
    (by rw [hmoved.contents, getsize_eq h, Nat.zero_add]) (.inl rfl)
    fun j hj => absurd hj (Nat.not_lt_zero j)
  rw [hmoved.contents] at hscan
  simpa only [moveToPackageStart, if_neg hsize, hpeek, readU32_take (Nat.le_refl 4), hx,
    if_neg hne, hseek] using hscan

/-! ## garbage -/

/-- In front of what follows there is no magic, also not over the border. -/
def Clear (g rest : List UInt8) : Prop := ∀ j < g.length, ¬ MagicAt (g ++ rest) j

theorem Clear.drop (h : Clear g rest) (k : ℕ) (hk : k ≤ g.length) : Clear (g.drop k) rest := by
  intro j hj hmagic
  rw [length_drop] at hj
  rw [← drop_append_of_le_length hk, magicAt_drop] at hmagic
  exact h (k + j) (by omega) hmagic

/-- Where the next header begins; the end where there is none. -/
def nextHeader (bytes : List UInt8) : ℕ := (findMagic bytes).getD bytes.length

theorem magicAt_bytesOf (p : Package) (ps : List Package) : MagicAt (bytesOf (p :: ps)) 0 := by
  rw [bytesOf_cons]
  exact readU32_u32 pkgHeaderMagic _

theorem Clear.nextHeader_eq {ps : List Package} (h : Clear g (bytesOf ps)) :
    nextHeader (g ++ bytesOf ps) = g.length := by
  cases ps with
  | nil =>
      have hnone : findMagic (g ++ bytesOf []) = none := by
        refine findMagic_eq_none_iff.mpr fun j hj => ?_
        have hle := hj.le
        rw [length_append] at hle
        exact h j (by simp [bytesOf] at hle; omega) hj
      rw [nextHeader, hnone, length_append]
      rfl
  | cons p ps =>
      have hsome : findMagic (g ++ bytesOf (p :: ps)) = some g.length := by
        refine findMagic_eq_some_iff.mpr ⟨?_, h⟩
        have hzero := magicAt_bytesOf p ps
        rwa [MagicAt, drop_left]
      rw [nextHeader, hsome]
      rfl

/-! ## the loop -/

/-- The next header is seen as soon as a byte of it is there: what is in the buffer is too short
to be searched, or garbage only, or holds the magic inside a block; or the search comes to no
end, as fewer than four bytes are left for its last block, in front of which the magic has not
ended. -/
def SeesHeader (s : Receiver) : Prop :=
  let n := s.readbuf.contents.length
  let m := nextHeader (s.readbuf.contents ++ s.stream)
  n < sizeofPackageHeader ∨ m = 0 ∨ n ≤ m ∨ (m % 256 ≤ 252 ∧ m + 4 ≤ n) ∨
    (1 ≤ n % 256 ∧ n % 256 ≤ 3 ∧ n - n % 256 < m + 4)

/-- The buffer stays below its limit, and the search sees the next header. -/
def Hears (malloc : FifobufferImpl → Chunk) (s : Receiver) : Event → Prop
  | .dataIn reads => BelowLimit malloc s (.dataIn reads)
  | .receive _ => SeesHeader s

/-- What the loop is for when the stream does not begin with a package: some garbage, the
packages behind it, and how many bytes have come in. -/
structure Noisy where
  garbage : List UInt8
  packages : List Package
  received : ℕ

/-- Bytes come in; garbage is thrown away; and a package is delivered when all of it is there. -/
inductive NoisyStep : Noisy → Event → Reply → Noisy → Prop
  | dataIn (q reads n) :
      NoisyStep q (.dataIn reads) (.taken n) { q with received := q.received + n }
  | nothing (q calls ret k) : k ≤ q.garbage.length → k ≤ q.received →
      (∀ p ∈ q.packages.head?, q.received < q.garbage.length + p.bytes.length) →
      NoisyStep q (.receive calls) (.nothing ret)
        { q with garbage := q.garbage.drop k, received := q.received - k }
  | delivered (g p ps received calls) : g.length + p.bytes.length ≤ received →
      NoisyStep ⟨g, p :: ps, received⟩ (.receive calls)
        (.delivered p.delivery.1 p.delivery.2) ⟨[], ps, received - (g.length + p.bytes.length)⟩

/-- The buffer holds what has come in, and the stream the rest. -/
structure Carries (s : Receiver) (q : Noisy) : Prop where
  inv : Inv s.readbuf
  bytes : s.readbuf.contents ++ s.stream = q.garbage ++ bytesOf q.packages
  received : s.readbuf.contents.length = q.received
  clear : Clear q.garbage (bytesOf q.packages)

variable {s : Receiver} {q : Noisy}

/-- What is in the buffer has no magic inside the garbage. -/
theorem Carries.le_of_magicAt (h : Carries s q) (hj : MagicAt s.readbuf.contents j) :
    q.garbage.length ≤ j := by
  by_contra hlt
  have hmagic : MagicAt (s.readbuf.contents ++ s.stream) j := (magicAt_append hj.le).mpr hj
  rw [h.bytes] at hmagic
  exact h.clear j (Nat.lt_of_not_le hlt) hmagic

variable {b : FifobufferImpl}

/-- Garbage, and what can be thrown away of it. -/
theorem Carries.drop (h : Carries s q) {hdr : PackageHeader} {k : ℕ} (hinv : Inv b)
    (hcont : b.contents = s.readbuf.contents.drop k) (hk : k ≤ q.garbage.length)
    (hle : k ≤ s.readbuf.contents.length) :
    Carries ⟨b, hdr, s.stream⟩
      { q with garbage := q.garbage.drop k, received := q.received - k } := by
  refine ⟨hinv, ?_, ?_, h.clear.drop k hk⟩
  · rw [hcont, ← drop_append_of_le_length hle, h.bytes, drop_append_of_le_length hk]
  · rw [hcont, length_drop, h.received]

theorem Carries.magicAt (h : Carries s q) {p : Package} (hp : p ∈ q.packages.head?)
    (hle : q.garbage.length + 4 ≤ s.readbuf.contents.length) :
    MagicAt s.readbuf.contents q.garbage.length := by
  obtain ⟨ps, hps⟩ := head?_eq_some_iff.mp hp
  rw [← @magicAt_append _ s.stream _ hle, h.bytes, hps, MagicAt, drop_left]
  exact magicAt_bytesOf p ps

theorem Carries.le_of_nil (h : Carries s q) (hnil : q.packages = []) :
    s.readbuf.contents.length ≤ q.garbage.length := by
  have hlen := congrArg List.length h.bytes
  rw [hnil, length_append, length_append] at hlen
  simp only [bytesOf, flatMap_nil, length_nil] at hlen
  omega

theorem Package.le_length_bytes (p : Package) : 28 ≤ p.bytes.length := by
  rw [p.length_bytes]
  simp only [sizeofPackageHeader, sizeofPackageFooter]
  omega

variable (malloc : FifobufferImpl → Chunk)

/-- A call that returns no package throws away garbage only. -/
theorem Carries.receive_nothing (h : Carries s q) (calls : List ReadCall) {hdr : PackageHeader}
    {ret : ℤ} {k : ℕ} (hk : k ≤ q.garbage.length) (hle : k ≤ q.received)
    (hpart : ∀ p ∈ q.packages.head?, q.received < q.garbage.length + p.bytes.length) (hinv : Inv b)
    (hcont : b.contents = s.readbuf.contents.drop k) (hret : ret ≠ 0)
    (hget : readbufGetPackage s.readbuf s.hdr = some (b, hdr, ret)) :
    ∃ s' r q', step malloc s (.receive calls) = some (s', r) ∧
      NoisyStep q (.receive calls) r q' ∧ Carries s' q' := by
  refine ⟨⟨b, hdr, s.stream⟩, _, _, ?_, .nothing q calls ret k hk hle hpart,
    h.drop hinv hcont hk (h.received ▸ hle)⟩
  simp only [step, hget, if_pos hret]

/-- Without garbage it is the receiver of packages. -/
theorem Carries.receive_of_nil (h : Carries s q) (calls : List ReadCall) (hnil : q.garbage = []) :
    ∃ s' r q', step malloc s (.receive calls) = some (s', r) ∧
      NoisyStep q (.receive calls) r q' ∧ Carries s' q' := by
  have hreceived := h.received
  have hbytes := h.bytes
  obtain ⟨garbage, packages, received⟩ := q
  dsimp only at hnil hreceived
  subst hnil
  obtain ⟨s', r, q', hstep, hpackage, hR⟩ := step_simulates malloc s ⟨packages, received⟩
    (.receive calls) ⟨h.inv, hbytes, hreceived⟩ trivial
  refine ⟨s', r, ⟨[], q'.packages, q'.received⟩, hstep, ?_, hR.inv, hR.bytes, hR.received,
    fun j hj => absurd hj (Nat.not_lt_zero j)⟩
  cases hpackage with
  | nothing _ _ ret hpartial =>
      exact .nothing ⟨[], packages, received⟩ calls ret 0 (Nat.zero_le _) (Nat.zero_le _)
        fun p hp => by simpa using hpartial p hp
  | delivered p ps _ _ hle =>
      have hstep := NoisyStep.delivered [] p ps received calls (by simpa using hle)
      simpa using hstep

/-- The search comes to the package behind the garbage. -/
theorem Carries.receive_found (h : Carries s q) (calls : List ReadCall) {p : Package}
    (hp : p ∈ q.packages.head?) (hmove : moveToPackageStart s.readbuf = some (b, 0)) (hinv : Inv b)
    (hcont : b.contents = s.readbuf.contents.drop q.garbage.length)
    (hle : q.garbage.length ≤ s.readbuf.contents.length) :
    ∃ s' r q', step malloc s (.receive calls) = some (s', r) ∧
      NoisyStep q (.receive calls) r q' ∧ Carries s' q' := by
  obtain ⟨garbage, packages, received⟩ := q
  obtain ⟨ps, hps⟩ := head?_eq_some_iff.mp hp
  dsimp only at hps hcont hle
  subst hps
  have hreceived : s.readbuf.contents.length = received := h.received
  have hlen : b.contents.length = received - garbage.length := by
    rw [hcont, length_drop, hreceived]
  have hbytes : b.contents ++ s.stream = p.bytes ++ bytesOf ps := by
    rw [hcont, ← drop_append_of_le_length hle, h.bytes, drop_left, bytesOf_cons]
  have hnothing : ∀ hdr ret, b.contents.length < p.bytes.length → ret ≠ 0 →
      readbufGetPackage s.readbuf s.hdr = some (b, hdr, ret) →
      ∃ s' r q', step malloc s (.receive calls) = some (s', r) ∧
        NoisyStep ⟨garbage, p :: ps, received⟩ (.receive calls) r q' ∧ Carries s' q' := by
    intro hdr ret hlt hret hget
    refine h.receive_nothing malloc calls (Nat.le_refl _) (hreceived ▸ hle) ?_ hinv hcont hret hget
    intro p' hp'
    cases hp'
    dsimp only
    omega
  have hmin := p.le_length_bytes
  have hheader : sizeofPackageHeader = 24 := rfl
  by_cases hhead : b.contents.length < sizeofPackageHeader
  · exact hnothing _ 2 (by omega) (by decide) (readbufGetPackage_short hinv s.hdr hmove hhead)
  by_cases hwhole : b.contents.length < p.bytes.length
  · exact hnothing _ 3 hwhole (by decide)
      (readbufGetPackage_begun hinv s.hdr hmove hbytes hhead hwhole)
  · obtain ⟨b₁, tail, hget, hinv₁, hc, hcont₁, hrest⟩ :=
      readbufGetPackage_found hinv s.hdr hmove hbytes (Nat.le_of_not_lt hwhole)
    obtain ⟨b', hdr, hstep, hinv', hcont'⟩ := receive_delivers malloc calls hget hinv₁ hc hcont₁
    refine ⟨_, _, _, hstep, .delivered garbage p ps received calls (by omega), hinv', ?_, ?_, ?_⟩
    · rw [hcont', hrest]
      rfl
    · have htotal := congrArg List.length hbytes
      have htail := congrArg List.length hrest
      simp only [length_append] at htotal htail
      rw [hcont']
      dsimp only
      omega
    · exact fun j hj => absurd hj (Nat.not_lt_zero j)

/-- **Looking for a package** behind garbage, when the search sees the next header. -/
theorem receive_resyncs (h : Carries s q) (hsees : SeesHeader s) (calls : List ReadCall) :
    ∃ s' r q', step malloc s (.receive calls) = some (s', r) ∧
      NoisyStep q (.receive calls) r q' ∧ Carries s' q' := by
  have hreceived := h.received
  simp only [SeesHeader, h.bytes, h.clear.nextHeader_eq] at hsees
  have hheader : sizeofPackageHeader = 24 := rfl
  have hget : ∀ b ret, ret ≠ 0 → moveToPackageStart s.readbuf = some (b, ret) →
      readbufGetPackage s.readbuf s.hdr = some (b, s.hdr, -1) := by
    intro b ret hret hmove
    simp only [readbufGetPackage, readbufLoop, hmove, ne_eq, hret, not_false_eq_true, if_true]
  have hneg : (-1 : ℤ) ≠ 0 := by decide
  by_cases hshort : s.readbuf.contents.length < sizeofPackageHeader
  · refine h.receive_nothing malloc calls (Nat.zero_le _) (Nat.zero_le _) (fun p _ => ?_) h.inv rfl
      hneg (hget _ 1 (by decide) (moveToPackageStart_short h.inv hshort))
    have hmin := p.le_length_bytes
    omega
  by_cases hnil : q.garbage = []
  · exact h.receive_of_nil malloc calls hnil
  · have hpos : 0 < q.garbage.length := length_pos_iff.mpr hnil
    have hscan := moveToPackageStart_scanned h.inv (Nat.le_of_not_lt hshort) fun hmagic =>
      absurd (h.le_of_magicAt hmagic) (by omega)
    generalize hmove : moveToPackageStart s.readbuf = out at hscan
    cases hscan with
    | found b j hj hfirst hinv hcont =>
        have hle := h.le_of_magicAt hj.1
        have hlen := hj.1.le
        cases hpackages : q.packages with
        | nil =>
            have := h.le_of_nil hpackages
            omega
        | cons p ps =>
            have hp : p ∈ q.packages.head? := by rw [hpackages]; rfl
            have hsame : j = q.garbage.length := by
              by_contra hne
              have hmagic := h.magicAt hp (by omega)
              have hnot : ¬ q.garbage.length % 256 ≤ 252 := fun hmod =>
                hfirst _ (by omega) ⟨hmagic, hmod⟩
              have hmod := hj.2
              omega
            rw [hsame] at hcont
            exact h.receive_found malloc calls hp hmove hinv hcont (by omega)
    | short b hnone hmod hmod' hinv hcont =>
        refine h.receive_nothing malloc calls (Nat.zero_le _) (Nat.zero_le _) (fun p hp => ?_) hinv
          hcont hneg (hget _ 2 (by decide) hmove)
        have hmin := p.le_length_bytes
        by_cases hseen : q.garbage.length % 256 ≤ 252 ∧
            q.garbage.length + 4 ≤ s.readbuf.contents.length
        · exact absurd ⟨h.magicAt hp hseen.2, hseen.1⟩ (hnone _)
        · omega
    | dropped b hnone hmod hinv hcont =>
        have hle : s.readbuf.contents.length ≤ q.garbage.length := by
          cases hpackages : q.packages with
          | nil => exact h.le_of_nil hpackages
          | cons p ps =>
              have hp : p ∈ q.packages.head? := by rw [hpackages]; rfl
              by_cases hseen : q.garbage.length % 256 ≤ 252 ∧
                  q.garbage.length + 4 ≤ s.readbuf.contents.length
              · exact absurd ⟨h.magicAt hp hseen.2, hseen.1⟩ (hnone _)
              · omega
        refine h.receive_nothing malloc calls hle (by omega) (fun p _ => ?_) hinv ?_ hneg
          (hget _ 3 (by decide) hmove)
        · have hmin := p.le_length_bytes
          omega
        · rw [hcont, drop_length]

/-- **One event**: the loop does to the buffer what it does to the packages behind the garbage. -/
theorem step_resyncs (s : Receiver) (q : Noisy) (e : Event) (h : Carries s q)
    (hhears : Hears malloc s e) :
    ∃ s' r q', step malloc s e = some (s', r) ∧ NoisyStep q e r q' ∧ Carries s' q' := by
  cases e with
  | receive calls => exact receive_resyncs malloc h hhears calls
  | dataIn reads =>
      obtain ⟨hinv, lost, hcont, hnone⟩ :=
        epollReadDrain_spec malloc s.readbuf ⟨s.stream, reads⟩ h.inv
      have hlen := length_epollReadDrain malloc s.readbuf ⟨s.stream, reads⟩
      rw [hnone hhears, append_nil] at hcont
      have hcontlen := congrArg List.length hcont
      have hreceived := h.received
      simp only [length_append] at hcontlen
      dsimp only at hlen hcontlen
      exact ⟨_, _, _, rfl, .dataIn q reads _, hinv, hcont.trans h.bytes, by
        dsimp only
        omega, h.clear⟩

/-! ## runs -/

/-- Of the garbage, a part at its front is gone; the packages are delivered in their order. -/
theorem packages_of_noisy {q' : Noisy} {events : List Event} {rs : List Reply}
    (h : Runs NoisyStep q events rs q') : q'.garbage <:+ q.garbage ∧
      q.packages.map Package.delivery = deliveries rs ++ q'.packages.map Package.delivery := by
  induction h with
  | nil q => exact ⟨suffix_refl _, rfl⟩
  | cons hstep _ ih =>
      obtain ⟨hgarbage, hpackages⟩ := ih
      cases hstep with
      | dataIn q reads n => exact ⟨hgarbage, hpackages⟩
      | nothing q calls ret k hk hle hpart =>
          exact ⟨hgarbage.trans (drop_suffix k _), hpackages⟩
      | delivered g p ps received calls hle =>
          refine ⟨hgarbage.trans nil_suffix, ?_⟩
          rw [map_cons, hpackages]
          rfl

/-- Of garbage and packages behind it only garbage is thrown away, and the packages are delivered
in their order, each once. -/
def Resyncs (malloc : FifobufferImpl → Chunk) (g : List UInt8) (ps : List Package)
    (events : List Event) (s : Receiver) (g' : List UInt8) (left : List Package) : Prop :=
  ∃ rs, run (step malloc) (.start (g ++ bytesOf ps)) events = some (s, rs) ∧ g' <:+ g ∧
    ps.map Package.delivery = deliveries rs ++ left.map Package.delivery ∧
    s.readbuf.contents ++ s.stream = g' ++ bytesOf left

/-- **Resynchronisation**: whatever the reads come to and whenever the loop looks for packages,
garbage in front of packages is thrown away and nothing else, when the search sees the next header
as soon as a byte of it is there; and when the next package is there as a whole, the next call
throws away what is left of the garbage and delivers it. -/
theorem resync (malloc : FifobufferImpl → Chunk) (g : List UInt8) (ps : List Package)
    (hclear : Clear g (bytesOf ps)) (events : List Event)
    (h : Guarded (step malloc) (Hears malloc) (.start (g ++ bytesOf ps)) events) :
    ∃ s g' left, Resyncs malloc g ps events s g' left ∧
      ∀ calls, SeesHeader s → ∀ p ∈ left.head?,
        g'.length + p.bytes.length ≤ s.readbuf.contents.length →
        ∃ s', step malloc s (.receive calls) =
            some (s', .delivered p.delivery.1 p.delivery.2) ∧
          s'.readbuf.contents ++ s'.stream = bytesOf left.tail := by
  have hstart : Carries (.start (g ++ bytesOf ps)) ⟨g, ps, 0⟩ := ⟨inv_new, rfl, rfl, hclear⟩
  obtain ⟨s, rs, q, hrun, hruns, hC⟩ := run_simulates (step_resyncs malloc) events _ _
    hstart h
  obtain ⟨hgarbage, hpackages⟩ := packages_of_noisy hruns
  refine ⟨s, q.garbage, q.packages, ⟨rs, hrun, hgarbage, hpackages, hC.bytes⟩, ?_⟩
  intro calls hsees p hp hle
  obtain ⟨s', r, q', hstep, hnoisy, hC'⟩ := receive_resyncs malloc hC hsees calls
  cases hnoisy with
  | nothing q calls ret k hk hk' hpart =>
      have hlt := hpart p hp
      have hreceived := hC.received
      omega
  | delivered g p' ps' received calls hle' =>
      cases hp
      exact ⟨s', hstep, hC'.bytes⟩

/-- Little garbage, and a stream that never fills the chunks. -/
theorem hears_of_short {g : List UInt8} {ps : List Package} (hclear : Clear g (bytesOf ps))
    (hgarbage : g.length ≤ 20)
    (hlen : (g ++ bytesOf ps).length ≤ (maxChunkcnt - 2) * (chunkSize - headerSize))
    (events : List Event) :
    Guarded (step malloc) (Hears malloc) (.start (g ++ bytesOf ps)) events := by
  have hhears : ∀ s e, (∃ q, Carries s q ∧ q.garbage.length ≤ 20 ∧
      (q.garbage ++ bytesOf q.packages).length ≤ (maxChunkcnt - 2) * (chunkSize - headerSize)) →
      Hears malloc s e := by
    rintro s e ⟨q, hC, hq, hqlen⟩
    cases e with
    | dataIn reads =>
        have hlimit : BelowLimit malloc s (.dataIn reads) :=
          belowLimit_of_length malloc hC.inv (hC.bytes ▸ hqlen) _
        exact hlimit
    | receive calls =>
        have hheader : sizeofPackageHeader = 24 := rfl
        simp only [Hears, SeesHeader, hC.bytes, hC.clear.nextHeader_eq]
        omega
  refine .of_invariant hhears ?_ ⟨⟨g, ps, 0⟩, ⟨inv_new, rfl, rfl, hclear⟩, hgarbage, hlen⟩ events
  rintro s e s' r ⟨q, hC, hq, hqlen⟩ hstep
  obtain ⟨s₁, r₁, q', hstep₁, hnoisy, hC'⟩ :=
    step_resyncs malloc s q e hC (hhears s e ⟨q, hC, hq, hqlen⟩)
  cases hstep.symm.trans hstep₁
  refine ⟨q', hC', ?_⟩
  cases hnoisy with
  | dataIn q reads n => exact ⟨hq, hqlen⟩
  | nothing q calls ret k hk hle hpart =>
      simp only [length_append, length_drop] at hqlen ⊢
      exact ⟨by omega, by omega⟩
  | delivered g p ps received calls hle =>
      simp only [bytesOf_cons, length_append, length_nil] at hqlen ⊢
      exact ⟨Nat.zero_le _, by omega⟩

/-- A package without payload. -/
def emptyPackage : Package := ⟨1, 5, [], by decide⟩

/-- Three bytes of garbage, and the package in two parts. -/
theorem resync_three :
    ∃ s g' left, Resyncs (fun _ => zeroChunk) [1, 2, 3] [emptyPackage]
      [.dataIn [.got 10, .again], .receive [], .dataIn [.got 100], .receive []] s g' left := by
  have hclear : Clear [1, 2, 3] (bytesOf [emptyPackage]) := by
    unfold Clear
    decide
  obtain ⟨s, g', left, hresyncs, -⟩ := resync (fun _ => zeroChunk) [1, 2, 3] [emptyPackage] hclear
    [.dataIn [.got 10, .again], .receive [], .dataIn [.got 100], .receive []]
    (hears_of_short _ hclear (by decide) (by decide) _)
  exact ⟨s, g', left, hresyncs⟩

/-! ## a header over the border of two blocks -/

/-- A read that gives all there is. -/
theorem nonblkRead_all {stream : List UInt8} {n : ℕ} (hne : stream ≠ []) (hle : stream.length ≤ n) :
    nonblkRead ⟨stream, [.got stream.length]⟩ n = (stream, ⟨[], []⟩) := by
  have hmin : min (min stream.length n) stream.length = stream.length := by omega
  have hlen : stream.length ≠ 0 := fun h => hne (length_eq_zero_iff.mp h)
  have hn : n ≠ 0 := by omega
  simp only [nonblkRead, nonblkReadLoop, if_neg hn, hmin, if_neg hlen, drop_length,
    take_length, append_nil]

/-- All there is comes into an empty buffer at once. -/
theorem dataIn_all {stream : List UInt8} (hne : stream ≠ [])
    (hlt : stream.length < chunkSize - headerSize) :
    ∃ b, step malloc (.start stream) (.dataIn [.got stream.length]) =
        some (⟨b, .init, []⟩, .taken stream.length) ∧ Inv b ∧ b.contents = stream := by
  obtain ⟨b₁, hnew⟩ : ∃ b₁, appendChunk malloc .new = some b₁ := ⟨_, rfl⟩
  obtain ⟨hend, hcnt⟩ := endAt_of_appendChunk hnew
  have hspace : chunkSize - b₁.endAt = chunkSize - headerSize := by rw [hend]
  have hfill : appendFd malloc .new ⟨stream, [.got stream.length]⟩ (chunkSize - headerSize) =
      (b₁.extend stream, stream.length, ⟨[], []⟩) := by
    have hnone : ¬ (FifobufferImpl.new.chunkcnt ≠ 0 ∧ FifobufferImpl.new.endAt < chunkSize) :=
      fun h => h.1 rfl
    rw [appendFd, if_neg (by decide), if_neg hnone]
    split
    · rename_i hnone
      cases hnew.symm.trans hnone
    · rename_i b₂ hsome
      cases hnew.symm.trans hsome
      rw [← hspace, appendFd_last malloc _ hcnt (by rw [hend]; decide), hspace,
        nonblkRead_all hne (Nat.le_of_lt hlt)]
  have hdrain : epollReadDrain malloc .new ⟨stream, [.got stream.length]⟩ =
      (b₁.extend stream, stream.length, ⟨[], []⟩) := by
    have hsize : FifobufferImpl.new.appendGetsize = chunkSize - headerSize := rfl
    rw [epollReadDrain]
    simp only [hsize, hfill, if_pos hlt]
    rfl
  have hfit : b₁.endAt + stream.length ≤ chunkSize := by
    rw [hend]
    simp only [chunkSize, headerSize] at hlt ⊢
    omega
  have hinv := inv_appendChunk inv_new hnew
  refine ⟨b₁.extend stream, ?_, inv_extend hinv hcnt hfit, ?_⟩
  · simp only [step, Receiver.start, hdrain]
  · rw [contents_extend hinv hcnt hfit, contents_appendChunk inv_new hnew fun h => absurd rfl h]
    rfl

/-- Garbage that leaves three bytes of the first block. -/
def borderGarbage : List UInt8 := List.replicate 253 0

/-- The magic lies over the border of the first block, the buffer is emptied, and the package is
lost. -/
theorem resync_border : Clear borderGarbage (bytesOf [emptyPackage]) ∧
    ∃ s rs, run (step fun _ => zeroChunk)
        (.start (borderGarbage ++ bytesOf [emptyPackage]))
        [.dataIn [.got 281], .receive []] = some (s, rs) ∧
      ¬ ∃ g' left, Resyncs (fun _ => zeroChunk) borderGarbage [emptyPackage]
        [.dataIn [.got 281], .receive []] s g' left := by
  have hclear : Clear borderGarbage (bytesOf [emptyPackage]) := by
    unfold Clear
    decide +kernel
  have hlen : (borderGarbage ++ bytesOf [emptyPackage]).length = 281 := by decide +kernel
  have hunseen : ∀ j < 281, ¬ SeenAt (borderGarbage ++ bytesOf [emptyPackage]) j := by
    unfold SeenAt
    decide +kernel
  have hshort : (borderGarbage ++ bytesOf [emptyPackage]).length < chunkSize - headerSize := by
    rw [hlen]
    decide
  have hfirst : ¬ MagicAt (borderGarbage ++ bytesOf [emptyPackage]) 0 :=
    hclear 0 (by decide +kernel)
  unfold Resyncs
  generalize borderGarbage ++ bytesOf [emptyPackage] = stream at *
  obtain ⟨b, hdata, hinv, hcont⟩ := dataIn_all (fun _ => zeroChunk)
    (length_pos_iff.mp (by rw [hlen]; decide)) hshort
  have hhead : sizeofPackageHeader ≤ b.contents.length := by
    rw [hcont, hlen]
    decide
  have hscan := moveToPackageStart_scanned hinv hhead (by rwa [hcont])
  generalize hmove : moveToPackageStart b = out at hscan
  rw [hcont] at hscan
  obtain ⟨b', hmove, hgone⟩ : ∃ b', moveToPackageStart b = some (b', 3) ∧ b'.contents = [] := by
    cases hscan with
    | found b' j hj _ _ _ =>
        have hle := hj.1.le
        exact absurd hj (hunseen j (by omega))
    | short b' _ hmod hmod' _ _ =>
        rw [hlen] at hmod'
        exact absurd hmod' (by decide)
    | dropped b' _ _ _ hgone => exact ⟨b', hmove, hgone⟩
  have hreceive : step (fun _ => zeroChunk) ⟨b, .init, []⟩ (.receive []) =
      some (⟨b', .init, []⟩, .nothing (-1)) := by
    simp only [step, readbufGetPackage, readbufLoop, hmove]
    rfl
  rw [hlen] at hdata
  have hrun : run (step fun _ => zeroChunk) (.start stream)
      [.dataIn [.got 281], .receive []] =
        some (⟨b', .init, []⟩, [.taken 281, .nothing (-1)]) := by
    rw [run_cons_of_step hdata, run_cons_of_step hreceive]
    rfl
  refine ⟨hclear, _, _, hrun, ?_⟩
  rintro ⟨g', left, rs, hrun', -, hpackages, hbytes⟩
  cases hrun.symm.trans hrun'
  have hleft : bytesOf left = [] := (append_eq_nil_iff.mp (hbytes.symm.trans (by
    rw [hgone]
    rfl))).2
  cases left with
  | nil => cases hpackages
  | cons p left =>
      have hle := p.le_length_bytes
      rw [bytesOf_cons] at hleft
      rw [(append_eq_nil_iff.mp hleft).1] at hle
      exact absurd hle (by decide)

end V2I.Evloop
