import V2I.Utils.Evloop.Framing
import V2I.Utils.Evloop.Writing

/-!
# V2I.Utils.Evloop.Delivery

From the threads that write packages on one side to the handlers on the other.
-/

namespace V2I.Evloop

open FifoBuffer Machine

/-- With no thread inside the FIFO and nothing in it, the kernel has the messages of the successful
writes. -/
theorem Writing.kernel_of_run {malloc : FifobufferImpl → Chunk} {writes : List Event} {w : State}
    {ws : List Reply} (hrun : run (step malloc) .init writes = some (w, ws))
    (halone : Guarded (step malloc) LeftAlone .init writes)
    (hfree : w.client.locked = false) (hsent : w.client.fifobuf.contents = []) :
    w.client.kernel = (succeeded ws).flatten := by
  obtain ⟨w', ws', hrun', -, part, hstream, hin⟩ :=
    run_guarded_history (step_ordered malloc) ordered_init halone
  cases hrun.symm.trans hrun'
  cases hin with
  | nobody _ _ => simpa [Client.stream, hsent] using hstream
  | writer _ _ _ hlocked _ _ => cases hfree.symm.trans hlocked

variable (malloc malloc' : FifobufferImpl → Chunk)

/-- **What was written is delivered**: the packages that any threads have written, when all of it
has been sent, are delivered in the order in which the writes returned, each once, whatever the
reads come to; the others are still in the buffer or the socket. -/
theorem written_delivered {writes : List Writing.Event} {w : Writing.State}
    {ws : List Writing.Reply}
    (hrun : run (Writing.step malloc) .init writes = some (w, ws))
    (halone : Guarded (Writing.step malloc) Writing.LeftAlone .init writes)
    (hfree : w.client.locked = false) (hsent : w.client.fifobuf.contents = [])
    {ps : List Package} (hps : Writing.succeeded ws = ps.map Package.bytes)
    {events : List Event}
    (hlimit : Guarded (step malloc') (BelowLimit malloc') (.start w.client.kernel)
      events) :
    ∃ (s : Receiver) (rs : List Reply) (left : List Package),
      run (step malloc') (.start w.client.kernel) events = some (s, rs) ∧
      ps.map Package.delivery = deliveries rs ++ left.map Package.delivery ∧
      s.readbuf.contents ++ s.stream = bytesOf left := by
  have hkernel : w.client.kernel = bytesOf ps := by
    rw [Writing.kernel_of_run hrun halone hfree hsent, hps]
    rfl
  rw [hkernel] at hlimit ⊢
  obtain ⟨s, rs, q, hrun, hruns, hR⟩ := run_simulates (step_simulates malloc') events _ _
    (represents_start ps) hlimit
  exact ⟨s, rs, q.packages, hrun, packages_of_runs hruns, hR.bytes⟩

/-- The kernel takes 5 bytes, the rest of the first package and the second go through the FIFO. -/
def twoWrites : List Writing.Event :=
  twoPackages.map (.write 0 ·.bytes ⟨[.took 5, .error], false, false⟩) ++ [.fifoWrite [.took 100]]

def twoReads : List Event := [.dataIn [.got 30, .again], .receive []]

theorem written_delivered_two : ∃ w ws,
    run (Writing.step fun _ => zeroChunk) .init twoWrites = some (w, ws) ∧
    ∃ (s : Receiver) (rs : List Reply) (left : List Package),
      run (step fun _ => zeroChunk) (.start w.client.kernel) twoReads = some (s, rs) ∧
      twoPackages.map Package.delivery = deliveries rs ++ left.map Package.delivery ∧
      s.readbuf.contents ++ s.stream = bytesOf left := by
  obtain ⟨⟨w, ws⟩, hrun, h⟩ := exists_of_any
    (o := run (Writing.step fun _ => zeroChunk) .init twoWrites)
    (p := fun r => decide (r.1.client.locked = false ∧ r.1.client.fifobuf.contents = [] ∧
      r.1.client.kernel = bytesOf twoPackages ∧
      Writing.succeeded r.2 = twoPackages.map Package.bytes)) (by decide +kernel)
  obtain ⟨hfree, hsent, hkernel, hps⟩ := of_decide_eq_true h
  have hlimit : Guarded (step fun _ => zeroChunk) (BelowLimit fun _ => zeroChunk)
    (.start w.client.kernel) twoReads := hkernel ▸ guarded_of_short _ (by decide) _
  exact ⟨w, ws, hrun, written_delivered _ _ hrun (by decide +kernel) hfree hsent hps hlimit⟩

end V2I.Evloop
