import V2I.Lib.Machine
import V2I.Utils.FifoBuffer

/-!
# V2I.Utils.FifoBuffer.Refines

What the chunked buffer is for: a plain queue of bytes. `contents` reads the queue
off the chunks, `Inv` is the shape every operation keeps, and the section is layered
like the code:

* **chunk lists** -- `chunkBytes` under writing to the last chunk, appending a fresh
  one and releasing the first;
* **operations** -- `remove_discard` takes from the front of `contents`, `append` adds
  to its back as long as the bytes fit (`room`); when they do not, the rewind of `_end`
  before the refused `append_chunk` loses one chunk (`Appends.overflow`);
* **runs** -- `fifobuffer_refines_queue`, over every sequence of calls.
-/

namespace V2I.FifoBuffer

open FifobufferImpl List Machine

/-! ## chunk lists -/

/-- The bytes held by a list of chunks between a start and an end offset. -/
def chunkBytes : List Chunk → Nat → Nat → List UInt8
  | [], _, _ => []
  | [c], s, e => c.read s (e - s)
  | c :: d :: cs, s, e => c.read s (chunkSize - s) ++ chunkBytes (d :: cs) headerSize e

/-- A fresh last chunk behind a full one adds no byte. -/
theorem chunkBytes_concat (c : Chunk) (hne : cs ≠ []) :
    chunkBytes (cs ++ [c]) s headerSize = chunkBytes cs s chunkSize := by
  induction cs generalizing s with
  | nil => contradiction
  | cons d ds ih =>
      cases ds with
      | nil => simp [chunkBytes]
      | cons d' ds =>
          have h := ih (s := headerSize) (cons_ne_nil d' ds)
          simp only [cons_append] at h ⊢
          rw [chunkBytes, h, chunkBytes]

/-- Writing behind the end offset of the last chunk appends the bytes. -/
theorem chunkBytes_write (src : List UInt8) (c : Chunk) (hh : headerSize ≤ e)
    (hs : cs = [] → s ≤ e) (hfit : e + src.length ≤ chunkSize) :
    chunkBytes (cs ++ [c.write e src]) s (e + src.length) = chunkBytes (cs ++ [c]) s e ++ src := by
  induction cs generalizing s with
  | nil => exact Chunk.read_write c src (hs rfl) hfit
  | cons d ds ih =>
      have h := ih (s := headerSize) (fun _ => hh)
      cases ds with
      | nil =>
          simp only [nil_append, cons_append] at h ⊢
          rw [chunkBytes, h]
          simp only [chunkBytes, append_assoc]
      | cons d' ds =>
          simp only [cons_append] at h ⊢
          rw [chunkBytes, h, chunkBytes, append_assoc]

/-! ## the invariant -/

namespace FifobufferImpl

/-- The byte queue the buffer stands for. -/
def contents (b : FifobufferImpl) : List UInt8 := chunkBytes b.chunklist b.startAt b.endAt

/-- The shape every operation keeps: the counter counts the chunks, the limit is
respected, and the two offsets lie in the payload of their chunks. -/
structure Inv (b : FifobufferImpl) : Prop where
  count : b.chunkcnt = b.chunklist.length
  limit : b.chunkcnt ≤ maxChunkcnt
  start_ge : b.chunkcnt ≠ 0 → headerSize ≤ b.startAt
  start_lt : b.chunkcnt ≠ 0 → b.startAt < chunkSize
  end_ge : b.chunkcnt ≠ 0 → headerSize ≤ b.endAt
  end_le : b.chunkcnt ≠ 0 → b.endAt ≤ chunkSize
  one : b.chunkcnt = 1 → b.startAt ≤ b.endAt

theorem inv_new : Inv new := by
  constructor <;> simp [new]

theorem inv_drain (b : FifobufferImpl) : Inv b.drain := by
  constructor <;> simp [drain]

/-- Bytes that still fit: the payload of the chunks not yet allocated and what is left
of the last one. -/
def room (b : FifobufferImpl) : Nat :=
  (maxChunkcnt - b.chunkcnt) * (chunkSize - headerSize) +
    if b.chunkcnt = 0 then 0 else chunkSize - b.endAt

/-! ## removing -/

/-- Bytes of the first chunk that belong to the queue. -/
def firstSize (b : FifobufferImpl) : Nat :=
  if b.chunkcnt = 1 then b.endAt - b.startAt else chunkSize - b.startAt

theorem inv_releaseChunk (h : Inv b) : Inv b.releaseChunk := by
  unfold releaseChunk
  split_ifs with h0 h1
  · exact h
  · have := h.count
    constructor <;> simp <;> omega
  · have := h.count
    have := h.limit
    have := h.end_ge h0
    have := h.end_le h0
    constructor <;> simp [headerSize, chunkSize] at * <;> omega

/-- The queue is what the first chunk holds, followed by what is left after its
release. -/
theorem contents_eq_first (h : Inv b) (hc : b.chunklist = c :: cs) :
    b.contents = c.read b.startAt b.firstSize ++ b.releaseChunk.contents := by
  have hcount := h.count
  rw [hc, length_cons] at hcount
  cases cs with
  | nil => simp [contents, firstSize, releaseChunk, hc, hcount, chunkBytes]
  | cons d ds =>
      have h0 : b.chunkcnt ≠ 0 := by omega
      have h1 : b.chunkcnt - 1 ≠ 0 := by simp at hcount; omega
      have h2 : b.chunkcnt ≠ 1 := by omega
      simp [contents, firstSize, releaseChunk, hc, h0, h1, h2, chunkBytes]

theorem firstSize_fits (h : Inv b) (h0 : b.chunkcnt ≠ 0) : b.startAt + b.firstSize ≤ chunkSize := by
  have := h.start_lt h0
  have := h.end_le h0
  unfold firstSize
  split_ifs <;> omega

variable {b : FifobufferImpl}

/-- Moving the start offset inside the first chunk does not change what follows it. -/
theorem contents_releaseChunk_start (h0 : b.chunkcnt ≠ 0) (n : Nat) :
    ({ b with startAt := n } : FifobufferImpl).releaseChunk.contents =
      b.releaseChunk.contents := by
  unfold releaseChunk
  simp only [h0, if_false]

/-- A partial removal from the first chunk keeps the shape. -/
theorem inv_startAt_add (h : Inv b) (h0 : b.chunkcnt ≠ 0) (hlt : n < b.firstSize) :
    Inv { b with startAt := b.startAt + n } := by
  have hge := h.start_ge h0
  have hlt' := h.start_lt h0
  have hend := h.end_le h0
  unfold firstSize at hlt
  exact {
    count := h.count
    limit := h.limit
    start_ge := fun _ => Nat.le_add_right_of_le hge
    start_lt := fun _ => by simp only; split_ifs at hlt <;> omega
    end_ge := h.end_ge
    end_le := h.end_le
    one := fun h1 => by simp only at h1 ⊢; rw [if_pos h1] at hlt; omega }

/-- **The removal loop** never fails, hands out the front of the queue and leaves the
rest. -/
theorem removeLoop_spec (b : FifobufferImpl) (sz : Nat) (h : Inv b) :
    ∃ b', b.removeLoop sz = some (b', b.contents.take sz) ∧ Inv b' ∧
      b'.contents = b.contents.drop sz := by
  induction hn : b.chunkcnt generalizing b sz with
  | zero =>
      have hnil : b.chunklist = [] := by
        rw [← length_eq_zero_iff, ← h.count, hn]
      refine ⟨b, ?_, h, ?_⟩
      · rw [removeLoop, dif_pos hn]; simp [contents, hnil, chunkBytes]
      · simp [contents, hnil, chunkBytes]
  | succ n ih =>
      have h0 : b.chunkcnt ≠ 0 := by omega
      obtain ⟨c, cs, hc⟩ : ∃ c cs, b.chunklist = c :: cs := by
        apply exists_cons_of_ne_nil
        intro hnil
        have := h.count
        rw [hnil] at this
        exact h0 this
      have hassert : ¬ (b.chunkcnt = 1 ∧ ¬ b.startAt ≤ b.endAt) := by
        intro ha; exact ha.2 (h.one ha.1)
      have hfirst := contents_eq_first h hc
      have hfits := firstSize_fits h h0
      have hlen : (c.read b.startAt b.firstSize).length = b.firstSize := c.length_read hfits
      have hsize : (if b.chunkcnt = 1 then b.endAt - b.startAt else chunkSize - b.startAt) =
          b.firstSize := rfl
      rw [removeLoop, dif_neg h0]
      simp only [hc, if_neg hassert, hsize]
      by_cases hle : b.firstSize ≤ sz
      · -- the first chunk is drained: the loop goes on behind it
        have hcnt : b.releaseChunk.chunkcnt = n := by
          unfold releaseChunk; split_ifs <;> simp_all
        have htake : (c.read b.startAt b.firstSize).take sz = c.read b.startAt b.firstSize :=
          take_of_length_le (by omega)
        have hdrop : (c.read b.startAt b.firstSize).drop sz = [] :=
          drop_of_length_le (by omega)
        obtain ⟨b', hrun, hinv, hrest⟩ :=
          ih b.releaseChunk (sz - b.firstSize) (inv_releaseChunk h) hcnt
        refine ⟨b', ?_, hinv, ?_⟩
        · rw [if_pos hle, hrun, hfirst, take_append, hlen, htake]
        · rw [hrest, hfirst, drop_append, hlen, hdrop, nil_append]
      · have hlt : sz < b.firstSize := by omega
        have hsplit : c.read b.startAt b.firstSize =
            c.read b.startAt sz ++ c.read (b.startAt + sz) (b.firstSize - sz) := by
          rw [← Chunk.read_add, Nat.add_sub_cancel' (Nat.le_of_lt hlt)]
        have hlen' : (c.read b.startAt sz).length = sz := c.length_read (by omega)
        refine ⟨_, ?_, inv_startAt_add h h0 hlt, ?_⟩
        · rw [if_neg hle, hfirst, hsplit, append_assoc, take_left' hlen', hc]
        · have hfirst' := contents_eq_first (inv_startAt_add h h0 hlt) hc
          have hsub : ({ b with startAt := b.startAt + sz } : FifobufferImpl).firstSize =
              b.firstSize - sz := by
            unfold firstSize; simp only; split_ifs <;> omega
          rw [hfirst', hsub, contents_releaseChunk_start h0, hfirst, hsplit,
            append_assoc, drop_left' hlen']

/-- `remove_discard` takes the first `sz` bytes, or all there are. -/
theorem removeDiscard_spec (sz : Nat) (h : Inv b) :
    ∃ b', b.removeDiscard sz = some (b', b.contents.take sz) ∧ Inv b' ∧
      b'.contents = b.contents.drop sz := by
  unfold removeDiscard
  by_cases hsz : sz = 0
  · exact ⟨b, by simp [hsz], h, by simp [hsz]⟩
  · obtain ⟨b', hrun, hinv, hrest⟩ := removeLoop_spec b sz h
    by_cases h0 : b.chunkcnt = 0
    · rw [removeLoop, dif_pos h0] at hrun
      have hpair := Option.some.inj hrun
      have hb : b = b' := congrArg Prod.fst hpair
      have hout : [] = b.contents.take sz := congrArg Prod.snd hpair
      refine ⟨b, ?_, h, ?_⟩
      · rw [if_neg hsz, if_pos h0, ← hout]
      · rw [hb]; rw [hb] at hrest; exact hrest
    · refine ⟨{ b' with chkoff := none, offset := 0 }, ?_, ?_, hrest⟩
      · rw [if_neg hsz, if_neg h0, hrun]
      · exact ⟨hinv.count, hinv.limit, hinv.start_ge, hinv.start_lt, hinv.end_ge, hinv.end_le,
          hinv.one⟩

/-! ## appending -/

/-- Room left in the last chunk is used first. -/
theorem room_of_ne_zero (h0 : b.chunkcnt ≠ 0) :
    b.room = (maxChunkcnt - b.chunkcnt) * (chunkSize - headerSize) + (chunkSize - b.endAt) := by
  rw [room, if_neg h0]

/-- Below the limit there is room behind the last chunk. -/
theorem lt_room (h : Inv b) (h0 : b.chunkcnt ≠ 0) (hmax : b.chunkcnt ≠ maxChunkcnt) :
    chunkSize - b.endAt < b.room := by
  have hlimit := h.limit
  have hone : 1 * (chunkSize - headerSize) ≤
      (maxChunkcnt - b.chunkcnt) * (chunkSize - headerSize) :=
    Nat.mul_le_mul_right _ (by omega)
  have hpos : 0 < chunkSize - headerSize := by decide
  rw [room_of_ne_zero h0]
  omega

theorem exists_concat (h : Inv b) (h0 : b.chunkcnt ≠ 0) :
    ∃ cs c, b.chunklist = cs ++ [c] ∧ b.chunkcnt = cs.length + 1 := by
  have hcount := h.count
  rcases eq_nil_or_concat b.chunklist with hnil | ⟨cs, c, hc⟩
  · rw [hnil] at hcount; exact absurd hcount h0
  · rw [concat_eq_append] at hc
    exact ⟨cs, c, hc, by rw [hcount, hc]; simp⟩

/-- The bytes of `src` put behind the end offset, which moves over them. -/
def extend (b : FifobufferImpl) (src : List UInt8) : FifobufferImpl :=
  { b.writeLast b.endAt src with endAt := b.endAt + src.length }

theorem inv_extend (h : Inv b) (h0 : b.chunkcnt ≠ 0)
    (hfit : b.endAt + src.length ≤ chunkSize) : Inv (b.extend src) := by
  obtain ⟨cs, c, hc, hcnt⟩ := exists_concat h h0
  have hge := h.end_ge h0
  exact {
    count := by simp [extend, writeLast, hc, hcnt]
    limit := h.limit
    start_ge := h.start_ge
    start_lt := h.start_lt
    end_ge := fun _ => Nat.le_add_right_of_le hge
    end_le := fun _ => hfit
    one := fun h1 => Nat.le_add_right_of_le (h.one h1) }

theorem contents_extend (h : Inv b) (h0 : b.chunkcnt ≠ 0)
    (hfit : b.endAt + src.length ≤ chunkSize) :
    (b.extend src).contents = b.contents ++ src := by
  obtain ⟨cs, c, hc, hcnt⟩ := exists_concat h h0
  have hs : cs = [] → b.startAt ≤ b.endAt := by
    intro hnil
    rw [hnil] at hcnt
    exact h.one hcnt
  have hw := chunkBytes_write (s := b.startAt) src c (h.end_ge h0) hs hfit
  simpa [contents, extend, writeLast, hc] using hw

variable {malloc : FifobufferImpl → Chunk}

theorem appendChunk_eq_none (hnew : appendChunk malloc b = none) : b.chunkcnt = maxChunkcnt := by
  unfold appendChunk at hnew
  split_ifs at hnew with hmax
  exact hmax

/-- A new chunk behind a full last one, or as the first one, keeps the shape. -/
theorem inv_appendChunk (h : Inv b) (hnew : appendChunk malloc b = some b') : Inv b' := by
  obtain ⟨hmax, rfl⟩ := appendChunk_eq_some hnew
  have hcount := h.count
  have hlimit := h.limit
  exact {
    count := by simp [hcount]
    limit := by simp only; omega
    start_ge := fun _ => by
      simp only; split_ifs with h0
      · exact Nat.le_refl _
      · exact h.start_ge h0
    start_lt := fun _ => by
      simp only; split_ifs with h0
      · decide
      · exact h.start_lt h0
    end_ge := fun _ => Nat.le_refl _
    end_le := fun _ => by simp only; decide
    one := fun h1 => by
      have h0 : b.chunkcnt = 0 := by simp only at h1; omega
      simp [h0] }

theorem contents_appendChunk (h : Inv b) (hnew : appendChunk malloc b = some b')
    (hfull : b.chunkcnt ≠ 0 → b.endAt = chunkSize) : b'.contents = b.contents := by
  obtain ⟨-, rfl⟩ := appendChunk_eq_some hnew
  by_cases h0 : b.chunkcnt = 0
  · have hnil : b.chunklist = [] := by
      rw [← length_eq_zero_iff, ← h.count, h0]
    simp [contents, hnil, h0, chunkBytes]
  · have hne : b.chunklist ≠ [] := by
      intro hnil
      have := h.count
      rw [hnil] at this
      exact h0 this
    simp only [contents, if_neg h0, hfull h0]
    exact chunkBytes_concat _ hne

theorem room_appendChunk (h : Inv b) (hnew : appendChunk malloc b = some b')
    (hfull : b.chunkcnt ≠ 0 → b.endAt = chunkSize) : b'.room = b.room := by
  obtain ⟨hmax, rfl⟩ := appendChunk_eq_some hnew
  have hlimit := h.limit
  unfold room
  simp only [Nat.succ_ne_zero, if_false]
  have hstep : maxChunkcnt - b.chunkcnt = (maxChunkcnt - (b.chunkcnt + 1)) + 1 := by omega
  rw [hstep, Nat.succ_mul]
  split_ifs with h0
  · simp
  · simp [hfull h0]

/-- `append_chunk` overwrites `_end`, so it does not see that it was rewound. -/
theorem appendChunk_extend {b' : FifobufferImpl} {src : List UInt8}
    (hnew : appendChunk malloc { b.writeLast b.endAt src with endAt := headerSize } = some b') :
    appendChunk (fun _ => malloc { b.writeLast b.endAt src with endAt := headerSize })
      (b.extend src) = some b' := by
  obtain ⟨hmax, hb'⟩ := appendChunk_eq_some hnew
  unfold appendChunk
  rw [if_neg (show (b.extend src).chunkcnt ≠ maxChunkcnt from hmax), hb']
  rfl

/-- **The append loop** in steps: bytes go behind the end of the last chunk, and a new chunk behind
a full one, until the bytes or the chunks come to an end. -/
inductive Appends : FifobufferImpl → List UInt8 → FifobufferImpl × Nat → Prop
  | done {b : FifobufferImpl} : Appends b [] (b, 0)
  | full {b : FifobufferImpl} (hmax : b.chunkcnt = maxChunkcnt) (hend : b.endAt = chunkSize) :
      Appends b src (b, 0)
  | cut {b : FifobufferImpl} (hmax : b.chunkcnt = maxChunkcnt) (hlt : b.endAt < chunkSize)
      (hcut : chunkSize - b.endAt < src.length) :
      Appends b src ({ b.writeLast b.endAt (src.take (chunkSize - b.endAt)) with
        endAt := headerSize }, chunkSize - b.endAt)
  | write {b : FifobufferImpl} {src rest : List UInt8} (h0 : b.chunkcnt ≠ 0)
      (hfit : b.endAt + src.length ≤ chunkSize)
      (hmore : rest ≠ [] → b.chunkcnt ≠ maxChunkcnt) (hrest : Appends (b.extend src) rest r) :
      Appends b (src ++ rest) (r.1, src.length + r.2)
  | grow {b : FifobufferImpl} {malloc : FifobufferImpl → Chunk}
      (hfull : b.chunkcnt ≠ 0 → b.endAt = chunkSize) (hnew : appendChunk malloc b = some b')
      (hrest : Appends b' src r) : Appends b src r

/-- These are the steps of the loop. -/
theorem appends (malloc : FifobufferImpl → Chunk) (b : FifobufferImpl) (src : List UInt8)
    (h : Inv b) : Appends b src (appendLoop malloc b src) := by
  have hbrim : ∀ {b : FifobufferImpl}, Inv b → ¬ (b.chunkcnt ≠ 0 ∧ b.endAt < chunkSize) →
      b.chunkcnt ≠ 0 → b.endAt = chunkSize := fun h hlast h0 =>
    Nat.le_antisymm (h.end_le h0) (Nat.le_of_not_lt fun hlt => hlast ⟨h0, hlt⟩)
  fun_induction appendLoop malloc b src with
  | case1 b src hnil =>
      rw [length_eq_zero_iff.mp hnil]
      exact .done
  | case2 b src hne hlast contentSize hlt filled hnew =>
      have hmax : b.chunkcnt = maxChunkcnt := appendChunk_eq_none (b := filled) hnew
      exact .cut hmax hlast.2 hlt
  | case3 b src hne hlast contentSize hlt filled b' hnew rest ih =>
      have hcs : contentSize = chunkSize - b.endAt := rfl
      have hlen : (src.take contentSize).length = contentSize := by
        rw [length_take]; omega
      have hend : b.endAt + (src.take contentSize).length = chunkSize := by omega
      have hnew' := appendChunk_extend hnew
      have hrest := ih (inv_appendChunk (inv_extend h hlast.1 (Nat.le_of_eq hend)) hnew')
      have happ := Appends.write hlast.1 (Nat.le_of_eq hend)
        (fun _ => (appendChunk_eq_some hnew).1) (.grow (fun _ => hend) hnew' hrest)
      rwa [take_append_drop, hlen] at happ
  | case4 b src hne hlast contentSize hle =>
      have hcs : contentSize = chunkSize - b.endAt := rfl
      have hfit : b.endAt + src.length ≤ chunkSize := by omega
      have happ := Appends.write hlast.1 hfit (absurd rfl) .done
      rwa [append_nil] at happ
  | case5 b src hne hlast hnew =>
      have hmax := appendChunk_eq_none hnew
      exact .full hmax (hbrim h hlast (by rw [hmax]; decide))
  | case6 b src hne hlast b' hnew ih =>
      exact .grow (hbrim h hlast) hnew (ih (inv_appendChunk h hnew))

/-- Without a chunk to come, the room is that of the last one. -/
theorem room_of_eq_max (hmax : b.chunkcnt = maxChunkcnt) : b.room = chunkSize - b.endAt := by
  rw [room_of_ne_zero (by rw [hmax]; decide), hmax, Nat.sub_self, Nat.zero_mul, Nat.zero_add]

/-- Room is what is left of it. -/
theorem room_extend (h0 : b.chunkcnt ≠ 0) (hfit : b.endAt + src.length ≤ chunkSize) :
    src.length ≤ b.room ∧ (b.extend src).room = b.room - src.length := by
  have hroom : (b.extend src).room = (maxChunkcnt - b.chunkcnt) * (chunkSize - headerSize) +
      (chunkSize - (b.endAt + src.length)) := room_of_ne_zero (b := b.extend src) h0
  rw [hroom, room_of_ne_zero h0]
  omega

/-- **The append loop, when the bytes fit** (or when the buffer is full to the last
byte): the bytes taken are the ones that fit and go behind the queue. -/
theorem Appends.spec {r : FifobufferImpl × Nat} (ha : Appends b src r) (h : Inv b) (hfit : src.length ≤ b.room ∨ b.room = 0) :
    r.2 = min src.length b.room ∧ Inv r.1 ∧
      r.1.contents = b.contents ++ src.take (min src.length b.room) := by
  induction ha with
  | done => exact ⟨by simp, h, by simp⟩
  | full hmax hend =>
      rw [room_of_eq_max hmax, hend]
      exact ⟨by simp, h, by simp⟩
  | cut hmax hlt hcut =>
      -- The limit stops the loop midway: excluded, since the bytes fit.
      rw [room_of_eq_max hmax] at hfit
      omega
  | @write r b src rest h0 hend hmore hrest ih =>
      obtain ⟨hle, hroom⟩ := room_extend h0 hend
      have hmin : min (src ++ rest).length b.room =
          src.length + min rest.length (b.extend src).room := by
        rw [length_append]; omega
      rw [length_append] at hfit
      obtain ⟨hn, hinv, hcont⟩ := ih (inv_extend h h0 hend) (by omega)
      refine ⟨by rw [hmin, hn], hinv, ?_⟩
      rw [hcont, contents_extend h h0 hend, append_assoc, hmin, take_length_add_append]
  | grow hfull hnew hrest ih =>
      rw [← room_appendChunk h hnew hfull, ← contents_appendChunk h hnew hfull]
      rw [← room_appendChunk h hnew hfull] at hfit
      exact ih (inv_appendChunk h hnew) hfit

/-- All of the bytes fit. -/
theorem append_all (malloc : FifobufferImpl → Chunk) (h : Inv b) (hfit : src.length ≤ b.room) :
    (b.append malloc src).2 = src.length ∧ Inv (b.append malloc src).1 ∧
      (b.append malloc src).1.contents = b.contents ++ src := by
  unfold append
  split_ifs with hnil
  · rw [length_eq_zero_iff.mp hnil, append_nil]
    exact ⟨rfl, h, rfl⟩
  · obtain ⟨hn, hinv, hcont⟩ := (appends malloc b src h).spec h (.inl hfit)
    rw [Nat.min_eq_left hfit] at hn hcont
    exact ⟨hn, hinv, by rw [hcont, take_length]⟩

/-- A full buffer takes nothing, and is left as it is. -/
theorem append_none (malloc : FifobufferImpl → Chunk) (h : Inv b) (hroom : b.room = 0) :
    b.append malloc src = (b, 0) := by
  have hcnt : b.chunkcnt = maxChunkcnt := by
    have hlimit := h.limit
    unfold room at hroom
    simp only [chunkSize, headerSize, maxChunkcnt] at *
    omega
  have h0 : b.chunkcnt ≠ 0 := by
    rw [hcnt]
    decide
  rw [room_of_ne_zero h0] at hroom
  have hnew : appendChunk malloc b = none := if_pos hcnt
  unfold append
  split_ifs with hnil
  · rfl
  · rw [appendLoop, if_neg hnil, if_neg fun hlast => by omega]
    split
    · rfl
    · rename_i hsome
      cases hnew.symm.trans hsome

/-- **The append loop at the limit**: when the bytes do not fit and there is room left,
the loop takes as many as fit but ends with `_end` rewound to the header of a full last
chunk. -/
theorem Appends.overflow {r : FifobufferImpl × Nat} (ha : Appends b src r) (h : Inv b) (hroom : 0 < b.room)
    (hlt : b.room < src.length) :
    r.2 = b.room ∧ r.1.chunkcnt = maxChunkcnt ∧ r.1.endAt = headerSize ∧
      r.1.startAt = (if b.chunkcnt = 0 then headerSize else b.startAt) := by
  induction ha with
  | done => exact absurd hlt (Nat.not_lt_zero _)
  | full hmax hend =>
      rw [room_of_eq_max hmax, hend, Nat.sub_self] at hroom
      exact absurd hroom (Nat.lt_irrefl 0)
  | cut hmax hend hcut =>
      exact ⟨(room_of_eq_max hmax).symm, hmax, rfl, by rw [hmax]; rfl⟩
  | @write r b src rest h0 hend hmore hrest ih =>
      obtain ⟨hle, hr⟩ := room_extend h0 hend
      rw [length_append] at hlt
      have hmore := lt_room h h0 (hmore fun hnil => by rw [hnil, length_nil] at hlt; omega)
      obtain ⟨hn, hcnt, hend', hst⟩ := ih (inv_extend h h0 hend) (by omega) (by omega)
      exact ⟨by rw [hn]; omega, hcnt, hend', hst⟩
  | grow hfull hnew hrest ih =>
      have hr := room_appendChunk h hnew hfull
      obtain ⟨hn, hcnt, hend, hst⟩ := ih (inv_appendChunk h hnew) (by omega) (by omega)
      refine ⟨hn.trans hr, hcnt, hend, ?_⟩
      rw [hst, if_neg (endAt_of_appendChunk hnew).2, (appendChunk_eq_some hnew).2]

/-! ## observers -/

theorem length_chunkBytes (hne : cs ≠ []) (hs : s ≤ chunkSize) (hh : headerSize ≤ e)
    (he : e ≤ chunkSize) (hone : cs.length = 1 → s ≤ e) :
    (chunkBytes cs s e).length + s + (chunkSize - e) + headerSize * (cs.length - 1) =
      chunkSize * cs.length := by
  induction cs generalizing s with
  | nil => contradiction
  | cons c ds ih =>
      cases ds with
      | nil =>
          have := hone rfl
          rw [chunkBytes, Chunk.length_read _ (by omega)]
          simp only [length_singleton, Nat.sub_self, Nat.mul_zero, Nat.mul_one]
          omega
      | cons d ds =>
          have h := ih (s := headerSize) (cons_ne_nil d ds) (by decide) (fun _ => hh)
          rw [chunkBytes, length_append, Chunk.length_read _ (by omega)]
          simp only [length_cons, Nat.add_sub_cancel] at h ⊢
          rw [Nat.mul_add headerSize, Nat.mul_add chunkSize]
          omega

/-- `getsize` is the length of the queue. -/
theorem getsize_eq (h : Inv b) : b.getsize = b.contents.length := by
  have hcount := h.count
  unfold getsize
  by_cases h0 : b.chunkcnt = 0
  · have hnil : b.chunklist = [] := by
      rw [← length_eq_zero_iff, ← hcount, h0]
    rw [if_pos h0]
    simp [contents, hnil, chunkBytes]
  · have hne : b.chunklist ≠ [] := by
      intro hnil
      rw [hnil] at hcount
      exact h0 hcount
    have hlen := length_chunkBytes hne (Nat.le_of_lt (h.start_lt h0)) (h.end_ge h0)
      (h.end_le h0) (fun h1 => h.one (hcount.trans h1))
    rw [if_neg h0, contents]
    rw [← hcount] at hlen
    omega

/-- `empty` holds exactly of the empty queue. -/
theorem empty_iff (h : Inv b) : b.empty = true ↔ b.contents = [] := by
  rw [← length_eq_zero_iff, ← getsize_eq h]
  unfold empty getsize
  by_cases h0 : b.chunkcnt = 0
  · simp [h0]
  · have hs := h.start_lt h0
    have hse := h.start_ge h0
    have he := h.end_ge h0
    have hel := h.end_le h0
    by_cases h1 : b.chunkcnt = 1
    · have := h.one h1
      simp only [h1, if_neg (show (1 : Nat) ≠ 0 by decide), true_and, Nat.mul_one, Nat.sub_self,
        Nat.mul_zero, Nat.sub_zero]
      split_ifs with heq
      · simp; omega
      · simp; omega
    · -- two chunks or more: the first one is not used up
      have h2 : 2 ≤ b.chunkcnt := by omega
      rw [if_neg h0, if_neg (fun hc => h1 hc.1), if_neg h0]
      have hmul : chunkSize * b.chunkcnt = chunkSize * (b.chunkcnt - 1) + chunkSize := by
        rw [← Nat.mul_succ]; congr 1; omega
      have hhdr : headerSize * (b.chunkcnt - 1) + (chunkSize - headerSize) * (b.chunkcnt - 1) =
          chunkSize * (b.chunkcnt - 1) := by
        rw [← Nat.add_mul]; rfl
      have hpay : chunkSize - headerSize ≤ (chunkSize - headerSize) * (b.chunkcnt - 1) :=
        Nat.le_mul_of_pos_right _ (by omega)
      simp only [Bool.false_eq_true, false_iff]
      omega

end FifobufferImpl

/-! ## runs -/

/-- The calls of the interface that change the queue. -/
inductive Call
  | append (src : List UInt8)
  | remove (sz : Nat)
  | discard (sz : Nat)
  | drain

/-- What a call gives back: the number of bytes taken, the bytes delivered, the number
of bytes dropped. -/
inductive Reply
  | accepted (n : Nat)
  | delivered (bs : List UInt8)
  | discarded (n : Nat)
  | drained

/-- One call on the chunked buffer. -/
def step (malloc : FifobufferImpl → Chunk) (b : FifobufferImpl) :
    Call → Option (FifobufferImpl × Reply)
  | .append src => some ((b.append malloc src).1, .accepted (b.append malloc src).2)
  | .remove sz => (b.remove sz).map fun p => (p.1, .delivered p.2)
  | .discard sz => (b.discard sz).map fun p => (p.1, .discarded p.2)
  | .drain => some (b.drain, .drained)

/-- The abstract queue: an append may take any number of its first bytes, and then it
holds exactly those; the other calls take from the front. -/
inductive QueueStep : List UInt8 → Call → Reply → List UInt8 → Prop
  | append (q src n) : n ≤ src.length → QueueStep q (.append src) (.accepted n) (q ++ src.take n)
  | remove (q sz) : QueueStep q (.remove sz) (.delivered (q.take sz)) (q.drop sz)
  | discard (q sz) : QueueStep q (.discard sz) (.discarded (min sz q.length)) (q.drop sz)
  | drain (q) : QueueStep q .drain .drained []

/-- An append is not stopped midway by the chunk limit: its bytes fit, or there is no
room at all. -/
def NotCutShort (b : FifobufferImpl) : Call → Prop
  | .append src => src.length ≤ b.room ∨ b.room = 0
  | _ => True

/-- Buffer and queue hold the same bytes. -/
def Represents (b : FifobufferImpl) (q : List UInt8) : Prop := Inv b ∧ b.contents = q

/-- Every call that is not cut short does to the buffer what it does to the queue. -/
theorem step_simulates (malloc : FifobufferImpl → Chunk) (b : FifobufferImpl) (q : List UInt8)
    (c : Call) (hR : Represents b q) (hc : NotCutShort b c) :
    ∃ b' r q', step malloc b c = some (b', r) ∧ QueueStep q c r q' ∧ Represents b' q' := by
  obtain ⟨hinv, rfl⟩ := hR
  cases c with
  | append src =>
      refine ⟨_, _, _, rfl, QueueStep.append _ src _ ?_, ?_⟩
      · unfold FifobufferImpl.append
        split_ifs
        · exact Nat.zero_le _
        · rw [((appends malloc b src hinv).spec hinv hc).1]; exact Nat.min_le_left _ _
      · unfold FifobufferImpl.append
        split_ifs
        · exact ⟨hinv, by simp⟩
        · obtain ⟨hn, hinv', hcont⟩ := (appends malloc b src hinv).spec hinv hc
          exact ⟨hinv', by rw [hcont, hn]⟩
  | remove sz =>
      obtain ⟨b', hrun, hinv', hcont⟩ := removeDiscard_spec sz hinv
      refine ⟨b', _, _, ?_, QueueStep.remove _ sz, hinv', hcont⟩
      simp only [step, FifobufferImpl.remove, hrun, Option.map_some]
  | discard sz =>
      obtain ⟨b', hrun, hinv', hcont⟩ := removeDiscard_spec sz hinv
      refine ⟨b', _, _, ?_, QueueStep.discard _ sz, hinv', hcont⟩
      simp only [step, FifobufferImpl.discard, hrun, Option.map_some, length_take]
  | drain =>
      exact ⟨_, _, _, rfl, QueueStep.drain _, inv_drain b, rfl⟩

/-- All bytes accepted along a run, in order. -/
def acceptedBytes : List Call → List Reply → List UInt8
  | .append src :: cs, .accepted n :: rs => src.take n ++ acceptedBytes cs rs
  | _ :: cs, _ :: rs => acceptedBytes cs rs
  | _, _ => []

/-- All bytes delivered along a run, in order. -/
def deliveredBytes : List Reply → List UInt8
  | .delivered bs :: rs => bs ++ deliveredBytes rs
  | _ :: rs => deliveredBytes rs
  | [] => []

/-- The call hands over every byte it takes out of the queue. -/
def Call.Lossless : Call → Prop
  | .append _ | .remove _ => True
  | _ => False

/-- First in, first out: as long as nothing is dropped, the bytes delivered and the
bytes still held are the bytes accepted, in order. -/
theorem delivered_append_of_runs (h : Runs QueueStep q cs rs q')
    (hl : ∀ c ∈ cs, c.Lossless) : q ++ acceptedBytes cs rs = deliveredBytes rs ++ q' := by
  induction h with
  | nil q => simp [acceptedBytes, deliveredBytes]
  | cons hs _ ih =>
      have hrest := ih (fun c hc => hl c (mem_cons_of_mem _ hc))
      have hhead := hl _ mem_cons_self
      cases hs with
      | append src n hn =>
          simp only [acceptedBytes, deliveredBytes]
          rw [← hrest, append_assoc]
      | remove sz =>
          simp only [acceptedBytes, deliveredBytes]
          rw [append_assoc, ← hrest, ← append_assoc, take_append_drop]
      | discard sz => exact absurd hhead (by simp [Call.Lossless])
      | drain => exact absurd hhead (by simp [Call.Lossless])

/-- **The buffer refines a byte queue**: along every sequence of calls none of which is
cut short by the chunk limit, no assertion fails, the replies are those of the abstract
queue, and in the state reached `getsize` and `empty` report the queue's length. -/
theorem fifobuffer_refines_queue (malloc : FifobufferImpl → Chunk) (cs : List Call)
    (h : Guarded (step malloc) NotCutShort FifobufferImpl.new cs) :
    ∃ b rs q, run (step malloc) FifobufferImpl.new cs = some (b, rs) ∧
      Runs QueueStep [] cs rs q ∧ b.contents = q ∧
      ((∀ c ∈ cs, c.Lossless) → acceptedBytes cs rs = deliveredBytes rs ++ q) ∧
      b.getsize = q.length ∧ (b.empty = true ↔ q.length = 0) := by
  obtain ⟨b, rs, q, hrun, hruns, hinv, hcont⟩ := run_simulates
    (step_simulates malloc) cs FifobufferImpl.new [] ⟨inv_new, rfl⟩ h
  refine ⟨b, rs, q, hrun, hruns, hcont, ?_, ?_, ?_⟩
  · intro hl
    have hfifo := delivered_append_of_runs hruns hl
    rwa [nil_append] at hfifo
  · rw [getsize_eq hinv, hcont]
  · rw [empty_iff hinv, hcont, length_eq_zero_iff]

/-- A chunk of zeros. -/
def zeroChunk : Chunk := ⟨List.replicate chunkSize 0, length_replicate⟩

/-- 5000 bytes fill one chunk and begin a second one; a removal goes over the border between them, and
the rest is dropped. -/
theorem fifobuffer_refines_queue_border :
    ∃ b rs q, run (step fun _ => zeroChunk) FifobufferImpl.new
        [.append (replicate 5000 1), .remove 4090, .drain] = some (b, rs) ∧
      Runs QueueStep [] [.append (replicate 5000 1), .remove 4090, .drain] rs q ∧
      b.getsize = q.length := by
  have hguard : Guarded (step fun _ => zeroChunk) NotCutShort FifobufferImpl.new
      [.append (replicate 5000 1), .remove 4090, .drain] :=
    ⟨Or.inl (by rw [length_replicate]; decide),
      fun _ _ _ => ⟨trivial, fun _ _ _ => ⟨trivial, fun _ _ _ => trivial⟩⟩⟩
  obtain ⟨b, rs, q, hrun, hruns, -, -, hsize, -⟩ := fifobuffer_refines_queue _ _ hguard
  exact ⟨b, rs, q, hrun, hruns, hsize⟩

/-- One byte more than the buffer can hold: the append reports all but that byte as
taken, but the queue it then stands for is one chunk short. -/
theorem append_cut_short_loses_chunk :
    ¬ ∃ b rs q, run (step fun _ => zeroChunk) FifobufferImpl.new
        [.append (List.replicate 1044481 0)] = some (b, rs) ∧
      Runs QueueStep [] [.append (List.replicate 1044481 0)] rs q ∧
      b.getsize = q.length := by
  rintro ⟨b, rs, q, hrun, hruns, hsize⟩
  have hroom : FifobufferImpl.new.room = 1044480 := by decide
  have hlen : (List.replicate 1044481 (0 : UInt8)).length = 1044481 := length_replicate
  obtain ⟨hn, hcnt, hend, hst⟩ := (appends (fun _ => zeroChunk) FifobufferImpl.new
    (List.replicate 1044481 0) inv_new).overflow inv_new (by rw [hroom]; decide) (by rw [hroom, hlen]; decide)
  have happ : FifobufferImpl.append (fun _ => zeroChunk) FifobufferImpl.new
      (List.replicate 1044481 0) =
      appendLoop (fun _ => zeroChunk) FifobufferImpl.new (List.replicate 1044481 0) := by
    rw [FifobufferImpl.append, if_neg (by rw [hlen]; decide)]
  simp only [run, step, happ, hn, Option.some.injEq, Prod.mk.injEq] at hrun
  obtain ⟨rfl, rfl⟩ := hrun
  cases hruns with
  | cons hs hrest =>
      cases hrest
      cases hs
      rw [getsize, hcnt, hend, hst, hroom, nil_append, length_take, hlen] at hsize
      exact absurd hsize (by decide)

end V2I.FifoBuffer
