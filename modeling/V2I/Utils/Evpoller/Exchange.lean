import Mathlib.Data.List.Perm.Basic
import Mathlib.Data.List.Nodup
import V2I.Utils.Evpoller

/-!
# V2I.Utils.Evpoller.Exchange

What becomes of the events that are submitted, in all runs of the threads.
-/

namespace V2I.Evpoller

open List Machine

variable {ev : Pkgevent} {q : UInt32} {s s' : State} {act : Act} {r : Reply} {log : List Reply}

namespace EvpPkgeventList

theorem scan_cases (q : UInt32) (header nextHdr : List Pkgevent) :
    (∃ pre ev rest, header = pre ++ ev :: rest ∧ (∀ e ∈ pre, e.seqid ≠ q) ∧ ev.seqid = q ∧
      scan q header nextHdr = (some ev, ⟨rest, nextHdr ++ pre⟩)) ∨
    ((∀ e ∈ header, e.seqid ≠ q) ∧ scan q header nextHdr = (none, ⟨[], nextHdr ++ header⟩)) := by
  induction header generalizing nextHdr with
  | nil => exact .inr ⟨nofun, by rw [scan, append_nil]⟩
  | cons ev header ih =>
      by_cases hq : q = ev.seqid
      · refine .inl ⟨[], ev, header, rfl, nofun, hq.symm, ?_⟩
        rw [scan, if_pos hq, append_nil]
      · have happend : ∀ l, nextHdr ++ [ev] ++ l = nextHdr ++ ev :: l := fun l =>
          append_assoc nextHdr [ev] l
        rw [scan, if_neg hq]
        rcases ih (nextHdr ++ [ev]) with ⟨pre, e, rest, rfl, hpre, he, hs⟩ | ⟨hall, hs⟩
        · exact .inl ⟨ev :: pre, e, rest, rfl, forall_mem_cons.mpr ⟨Ne.symm hq, hpre⟩, he,
            happend pre ▸ hs⟩
        · exact .inr ⟨forall_mem_cons.mpr ⟨Ne.symm hq, hall⟩, happend header ▸ hs⟩

theorem unlink_eq {l : EvpPkgeventList} (h : ev ∉ l.events) : l.unlink ev = l := by
  simp only [events, mem_append, not_or] at h
  have hfilter : ∀ l : List Pkgevent, ev ∉ l → l.filter (· ≠ ev) = l := fun l hl =>
    filter_eq_self.mpr fun _ he => decide_eq_true fun heq => hl (heq ▸ he)
  rw [unlink, hfilter _ h.1, hfilter _ h.2]

end EvpPkgeventList

/-! ## Steps -/

/-- The steps, with what each of them does. -/
inductive Steps (s : State) : Act → State → Reply → Prop
  | refused {ev : Pkgevent} : Steps s (.submit ev) s .refused
  | accepted {ev : Pkgevent} : ev ∉ s.pendings.events →
      Steps s (.submit ev) { s with pendings := s.pendings.append ev } (.accepted ev)
  | begins {q : UInt32} : s.loop = none →
      Steps s (.handlePackage q) { s with loop := some ⟨q, false, .ready⟩ } .done
  | scans {q : UInt32} {final : Bool} : s.loop = some ⟨q, final, .ready⟩ →
      (∀ e ∈ s.pendings.header, e.seqid ≠ q) →
      Steps s .dequeueSpecific ⟨⟨[], s.pendings.nextHdr ++ s.pendings.header⟩,
        some ⟨q, final, if final then .scanned else .ready⟩⟩ .scanned
  | takes {q : UInt32} {final : Bool} {ev : Pkgevent} {pre rest : List Pkgevent} :
      s.loop = some ⟨q, final, .ready⟩ → s.pendings.header = pre ++ ev :: rest →
      (∀ e ∈ pre, e.seqid ≠ q) → ev.seqid = q →
      Steps s .dequeueSpecific ⟨⟨rest, s.pendings.nextHdr ++ pre⟩, some ⟨q, final, .taken ev⟩⟩ .done
  | triggers {q : UInt32} {final : Bool} {ev : Pkgevent} : s.loop = some ⟨q, final, .taken ev⟩ →
      Steps s .trigger { s with loop := some ⟨q, final, .ready⟩ } (.triggered ev q)
  | finalizes {q : UInt32} : s.loop = some ⟨q, false, .ready⟩ →
      Steps s .finalize { s with loop := some ⟨q, true, .ready⟩ } .done
  | swaps {q : UInt32} {final : Bool} : s.loop = some ⟨q, final, .scanned⟩ →
      Steps s .swap ⟨s.pendings.finalize, none⟩ (.handled q)

/-- The lists have no event twice, and none that has been taken. -/
def Apart (s : State) : Prop := (s.takenEvents ++ s.pendings.events).Nodup

theorem takenEvents_of_loop {stage : Stage} {final : Bool} (h : s.loop = some ⟨q, final, stage⟩) :
    s.takenEvents = State.takenEvents ⟨s.pendings, some ⟨q, final, stage⟩⟩ := by
  rw [← h]

theorem steps_of_step (hs : Apart s) (h : step s act = some (s', r)) : Steps s act s' r := by
  cases act with
  | submit ev =>
      rw [step] at h
      split at h
      next =>
          cases h
          exact .refused
      next hnot =>
          cases h
          exact .accepted hnot
  | dequeueSpecific =>
      simp only [step, EvpPkgeventList.dequeueSpecific] at h
      split at h
      next q final hloop =>
          rcases EvpPkgeventList.scan_cases q s.pendings.header s.pendings.nextHdr with
            ⟨pre, ev, rest, hheader, hpre, hev, hscan⟩ | ⟨hall, hscan⟩
          · rw [hscan] at h
            cases h
            exact .takes hloop hheader hpre hev
          · rw [hscan] at h
            cases h
            exact .scans hloop hall
      next => cases h
  | trigger =>
      simp only [step] at h
      split at h
      next q final ev hloop =>
          cases h
          rw [Apart, takenEvents_of_loop hloop] at hs
          rw [EvpPkgeventList.unlink_eq (nodup_cons.mp hs).1]
          exact .triggers hloop
      next => cases h
  | handlePackage | finalize | swap =>
      simp only [step] at h
      split at h
      next hloop =>
          cases h
          first | exact .begins hloop | exact .finalizes hloop | exact .swaps hloop
      next => cases h

/-! ## Histories -/

def Act.submitted : Act → Option Pkgevent
  | .submit ev => some ev
  | _ => none

/-- The thread that submits an event does not do so again while it is being triggered. -/
def Fair (s : State) (act : Act) : Prop := ∀ ev ∈ act.submitted, ev ∉ s.takenEvents

instance (s : State) (act : Act) : Decidable (Fair s act) :=
  inferInstanceAs (Decidable (∀ ev ∈ act.submitted, _))

/-- The events that have been submitted. -/
def accepted (log : List Reply) : List Pkgevent :=
  log.filterMap fun
    | .accepted ev => some ev
    | _ => none

/-- The events that have been triggered. -/
def triggered (log : List Reply) : List Pkgevent :=
  log.filterMap fun
    | .triggered ev _ => some ev
    | _ => none

/-- The history so far, and what has been taken and is waiting. -/
structure Exact (s : State) (log : List Reply) : Prop where
  apart : Apart s
  conserved : (accepted log).Perm (triggered log ++ (s.takenEvents ++ s.pendings.events))
  inHand : ∀ q final ev, s.loop = some ⟨q, final, .taken ev⟩ → ev.seqid = q
  answers : ∀ ev q, .triggered ev q ∈ log → ev.seqid = q

/-- A step that moves events between the lists. -/
theorem Exact.moves (hs : Exact s log) (hr : accepted [r] = [] ∧ ∀ ev q, r ≠ .triggered ev q)
    (hevents : (s'.takenEvents ++ s'.pendings.events).Perm (s.takenEvents ++ s.pendings.events))
    (hinHand : ∀ q final ev, s'.loop = some ⟨q, final, .taken ev⟩ → ev.seqid = q) :
    Exact s' (log ++ [r]) := by
  have haccepted : accepted (log ++ [r]) = accepted log := by
    rw [accepted, filterMap_append, ← accepted, ← accepted, hr.1, append_nil]
  have htriggered : triggered (log ++ [r]) = triggered log := by
    cases r <;> simp_all [triggered]
  refine ⟨hevents.nodup_iff.mpr hs.apart, ?_, hinHand, fun ev q h => ?_⟩
  · rw [haccepted, htriggered]
    exact hs.conserved.trans (hevents.symm.append_left _)
  · rcases mem_append.mp h with h | h
    · exact hs.answers ev q h
    · exact absurd (mem_singleton.mp h).symm (hr.2 ev q)

theorem Exact.accepts (hs : Exact s log) (hev : ev ∉ s.pendings.events)
    (hfair : ev ∉ s.takenEvents) :
    Exact { s with pendings := s.pendings.append ev } (log ++ [.accepted ev]) := by
  have hevents : (s.takenEvents ++ (s.pendings.append ev).events).Perm
      (s.takenEvents ++ s.pendings.events ++ [ev]) := by
    refine perm_iff_count.mpr fun e => ?_
    simp only [EvpPkgeventList.events, EvpPkgeventList.append, count_append]
    omega
  refine ⟨?_, ?_, hs.inHand, by simpa using hs.answers⟩
  · refine hevents.nodup_iff.mpr (nodup_append.mpr ⟨hs.apart, nodup_singleton ev, ?_⟩)
    rintro e he _ hmem rfl
    rw [mem_singleton.mp hmem] at he
    exact (mem_append.mp he).elim hfair hev
  · have haccepted : accepted (log ++ [.accepted ev]) = accepted log ++ [ev] := by simp [accepted]
    have htriggered : triggered (log ++ [.accepted ev]) = triggered log := by simp [triggered]
    rw [haccepted, htriggered]
    refine (hs.conserved.append_right [ev]).trans ?_
    rw [append_assoc]
    exact hevents.symm.append_left _

theorem Exact.step (hs : Exact s log) (h : Steps s act s' r) (hfair : Fair s act) :
    Exact s' (log ++ [r]) := by
  have hother : (s.pendings.nextHdr ++ s.pendings.header).Perm s.pendings.events :=
    perm_append_comm
  cases h with
  | refused => exact hs.moves ⟨rfl, nofun⟩ (.refl _) hs.inHand
  | accepted hev => exact hs.accepts hev (hfair _ rfl)
  | begins hloop =>
      refine hs.moves ⟨rfl, nofun⟩ (.of_eq ?_) nofun
      rw [State.takenEvents, State.takenEvents, hloop]
  | @scans q final hloop hall =>
      cases final
      all_goals
        refine hs.moves ⟨rfl, nofun⟩ ?_ nofun
        rwa [takenEvents_of_loop hloop]
  | @takes q final ev pre rest hloop hheader hpre hev =>
      refine hs.moves ⟨rfl, nofun⟩ (perm_iff_count.mpr fun e => ?_) ?_
      · simp only [State.takenEvents, hloop, EvpPkgeventList.events, hheader, count_append,
          count_cons, count_nil]
        omega
      · rintro _ _ _ ⟨⟩
        exact hev
  | @triggers q final ev hloop =>
      obtain ⟨hapart, hconserved, hinHand, hanswers⟩ := hs
      rw [Apart, takenEvents_of_loop hloop] at hapart
      rw [takenEvents_of_loop hloop] at hconserved
      refine ⟨(nodup_cons.mp hapart).2, ?_, nofun, ?_⟩
      · simpa [accepted, triggered, State.takenEvents] using hconserved
      · simpa [or_imp, forall_and] using ⟨hanswers, hinHand q final ev hloop⟩
  | finalizes hloop =>
      refine hs.moves ⟨rfl, nofun⟩ (.of_eq ?_) nofun
      rw [takenEvents_of_loop hloop]
      rfl
  | swaps hloop =>
      refine hs.moves ⟨rfl, nofun⟩ ?_ nofun
      rwa [takenEvents_of_loop hloop]

theorem exact_init : Exact .init [] := ⟨nodup_nil, .refl _, nofun, nofun⟩

/-- **Each request is answered once, by its reply**: an event that was submitted is waiting, in the
hands of the event loop, or has been triggered, by a package with its sequence id. -/
theorem requests_kept {acts : List Act} (hrun : run step .init acts = some (s, log))
    (hfair : Guarded step Fair .init acts) :
    (accepted log).Perm (triggered log ++ (s.takenEvents ++ s.pendings.events)) ∧
      ∀ ev q, .triggered ev q ∈ log → ev.seqid = q := by
  have hs : Exact s log := guarded_history
    (fun _ _ _ _ _ hs h hfair => hs.step (steps_of_step hs.apart h) hfair) exact_init hfair hrun
  exact ⟨hs.conserved, hs.answers⟩

/-- Two threads wait; a package 3 and a package 2 come. -/
def twoWaiting : List Act :=
  [.submit ⟨1, 2⟩, .submit ⟨2, 3⟩, .handlePackage 3, .dequeueSpecific, .trigger, .finalize,
    .dequeueSpecific, .swap, .handlePackage 2, .finalize, .dequeueSpecific, .trigger,
    .dequeueSpecific]

theorem requests_kept_two : ∃ s log, run step .init twoWaiting = some (s, log) ∧
    (accepted log).Perm (triggered log ++ (s.takenEvents ++ s.pendings.events)) ∧
      ∀ ev q, .triggered ev q ∈ log → ev.seqid = q := by
  obtain ⟨⟨s, log⟩, hrun, -⟩ := exists_of_any (o := run step .init twoWaiting)
    (p := fun _ => true) (by decide)
  exact ⟨s, log, hrun, requests_kept hrun (by decide)⟩

/-! ## The window -/

/-- What a reply makes of `late`. -/
def lateStep (w : List Pkgevent × List Pkgevent) : Reply → List Pkgevent × List Pkgevent
  | .accepted ev => (w.1, w.2 ++ [ev])
  | .scanned => (w.1, [])
  | .handled _ => (w.2, w.2)
  | _ => w

/-- The events that come after the last scan of a package and before the swap: of the package
before, and so far of the one in hand. -/
def late (log : List Reply) : List Pkgevent × List Pkgevent := log.foldl lateStep ([], [])

theorem late_append (log : List Reply) (r : Reply) : late (log ++ [r]) = lateStep (late log) r := by
  rw [late, foldl_append]
  rfl

/-- Those that wait for a sequence id. -/
abbrev waiting (q : UInt32) (l : List Pkgevent) : List Pkgevent := l.filter (·.seqid = q)

theorem waiting_append_of_ne {l l' : List Pkgevent} (h : ∀ e ∈ l', e.seqid ≠ q) :
    waiting q (l ++ l') = waiting q l := by
  have hl' : waiting q l' = [] := filter_eq_nil_iff.mpr (by simpa using h)
  rw [waiting, filter_append, ← waiting, ← waiting, hl', append_nil]

/-- What is in the list that a package does not look through. -/
structure Late (s : State) (w : List Pkgevent × List Pkgevent) : Prop where
  idle : s.loop = none → s.pendings.nextHdr = w.1
  handling : ∀ h, s.loop = some h → waiting h.seqid s.pendings.nextHdr = waiting h.seqid w.1
  scanned : ∀ q final, s.loop = some ⟨q, final, .scanned⟩ → s.pendings.header = w.2

/-- The event loop moves on in `handle_package`. -/
theorem Late.onLoop {w : List Pkgevent × List Pkgevent} (hs : Late s w) {h : Handling}
    (hloop : s.loop = some h) {stage : Stage} {pendings : EvpPkgeventList} {final : Bool}
    {since : List Pkgevent}
    (hnext : waiting h.seqid pendings.nextHdr = waiting h.seqid s.pendings.nextHdr)
    (hscanned : stage = .scanned → pendings.header = since) :
    Late ⟨pendings, some ⟨h.seqid, final, stage⟩⟩ (w.1, since) where
  idle := nofun
  handling := by
    rintro _ ⟨⟩
    exact hnext.trans (hs.handling h hloop)
  scanned := by
    rintro _ _ ⟨⟩
    exact hscanned rfl

theorem Late.step (hs : Late s (late log)) (h : Steps s act s' r) :
    Late s' (late (log ++ [r])) := by
  rw [late_append]
  cases h with
  | refused => exact hs
  | accepted _ =>
      exact ⟨hs.idle, hs.handling, fun q final h => congrArg (· ++ _) (hs.scanned q final h)⟩
  | begins hloop =>
      refine ⟨nofun, ?_, nofun⟩
      rintro _ ⟨⟩
      exact congrArg _ (hs.idle hloop)
  | scans hloop hall => exact hs.onLoop hloop (waiting_append_of_ne hall) fun _ => rfl
  | takes hloop _ hpre => exact hs.onLoop hloop (waiting_append_of_ne hpre) nofun
  | triggers hloop => exact hs.onLoop hloop rfl nofun
  | finalizes hloop => exact hs.onLoop hloop rfl nofun
  | swaps hloop => exact ⟨fun _ => hs.scanned _ _ hloop, nofun, nofun⟩

theorem waiting_handled (hs : Apart s) (hlate : Late s (late log))
    (h : step s .swap = some (s', .handled q)) :
    waiting q s'.pendings.events = waiting q ((late log).1 ++ (late log).2) := by
  cases steps_of_step hs h with
  | swaps hloop =>
      show waiting q (s.pendings.nextHdr ++ s.pendings.header) = _
      rw [← hlate.scanned _ _ hloop, waiting, filter_append, ← waiting, hlate.handling _ hloop,
        ← filter_append]

/-- **What a package leaves**: when a package has been handled, the events that wait for its
sequence id are those that were submitted between the last scan and the swap of the package before
it, which it has not looked at, and between its own. -/
theorem package_answers {acts : List Act} (hrun : run step .init acts = some (s, log))
    (hfair : Guarded step Fair .init acts) (h : step s .swap = some (s', .handled q)) :
    waiting q s'.pendings.events = waiting q ((late log).1 ++ (late log).2) := by
  have hs : Exact s log ∧ Late s (late log) := guarded_history
    (I := fun s log => Exact s log ∧ Late s (late log))
    (fun _ _ _ _ _ ⟨hs, hlate⟩ h hfair =>
      have hsteps := steps_of_step hs.apart h
      ⟨hs.step hsteps hfair, hlate.step hsteps⟩)
    ⟨exact_init, fun _ => rfl, nofun, nofun⟩ hfair hrun
  exact waiting_handled hs.1.apart hs.2 h

/-- What is submitted in the window of package 1 misses its reply, package 2. -/
def missedReply : List Act :=
  [.handlePackage 1, .finalize, .dequeueSpecific, .submit ⟨1, 2⟩, .swap, .handlePackage 2,
    .finalize, .dequeueSpecific]

theorem package_answers_missed : ∃ s log s', run step .init missedReply = some (s, log) ∧
    step s .swap = some (s', .handled 2) ∧
      waiting 2 s'.pendings.events = waiting 2 ((late log).1 ++ (late log).2) ∧
      (late log).1 = [⟨1, 2⟩] := by
  obtain ⟨⟨s, log⟩, hrun, h⟩ := exists_of_any (o := run step .init missedReply)
    (p := fun r => decide ((late r.2).1 = [⟨1, 2⟩]) &&
      (step r.1 .swap).any (·.2 = .handled 2)) (by decide)
  obtain ⟨hlate, hswap⟩ := Bool.and_eq_true_iff.mp h
  obtain ⟨⟨s', r⟩, hstep, hr⟩ := exists_of_any hswap
  obtain rfl : r = .handled 2 := of_decide_eq_true hr
  exact ⟨s, log, s', hrun, hstep, package_answers hrun (by decide) hstep, of_decide_eq_true hlate⟩

/-- The event loop is between the last scan of a package and the swap. -/
def State.inWindow (s : State) : Bool :=
  match s.loop with
  | some ⟨_, _, .scanned⟩ => true
  | _ => false

/-- Nothing is submitted in the window. -/
def Calm (s : State) (act : Act) : Prop :=
  Fair s act ∧ ∀ _ev ∈ act.submitted, s.inWindow = false

instance (s : State) (act : Act) : Decidable (Calm s act) :=
  inferInstanceAs (Decidable (_ ∧ ∀ _ev ∈ act.submitted, _))

/-- The window has been empty. -/
theorem Steps.calm (h : Steps s act s' r) (hcalm : Calm s act) (hleft : (late log).1 = [])
    (hnone : s.inWindow → (late log).2 = []) :
    (late (log ++ [r])).1 = [] ∧ (s'.inWindow → (late (log ++ [r])).2 = []) := by
  rw [late_append]
  cases h with
  | accepted _ =>
      refine ⟨hleft, fun hwindow => ?_⟩
      exact absurd ((hcalm.2 _ rfl).symm.trans hwindow) Bool.false_ne_true
  | scans => exact ⟨hleft, fun _ => rfl⟩
  | swaps hloop => exact ⟨hnone (by rw [State.inWindow, hloop]), nofun⟩
  | refused => exact ⟨hleft, hnone⟩
  | _ => exact ⟨hleft, nofun⟩

/-- **No reply is lost outside of the window**: where nothing is submitted in it, a package leaves
no event waiting for its sequence id. -/
theorem no_reply_lost {acts : List Act} (hrun : run step .init acts = some (s, log))
    (hcalm : Guarded step Calm .init acts) (h : step s .swap = some (s', .handled q)) :
    ∀ ev ∈ s'.pendings.events, ev.seqid ≠ q := by
  obtain ⟨hs, hlate, hleft, hnone⟩ : Exact s log ∧ Late s (late log) ∧ (late log).1 = [] ∧
      (s.inWindow → (late log).2 = []) := by
    refine guarded_history (P := Calm) (I := fun s log => Exact s log ∧
      Late s (late log) ∧ (late log).1 = [] ∧ (s.inWindow → (late log).2 = [])) ?_
      ⟨exact_init, ⟨fun _ => rfl, nofun, nofun⟩, rfl, nofun⟩ hcalm hrun
    rintro s act s' r log ⟨hs, hlate, hleft, hnone⟩ hstep hcalm
    have hsteps := steps_of_step hs.apart hstep
    exact ⟨hs.step hsteps hcalm.1, hlate.step hsteps, hsteps.calm hcalm hleft hnone⟩
  have hstage : (late log).2 = [] := by
    cases steps_of_step hs.apart h with
    | swaps hloop => exact hnone (by rw [State.inWindow, hloop])
  have hwaiting := waiting_handled hs.apart hlate h
  rw [hleft, hstage] at hwaiting
  exact fun ev hev => by simpa using filter_eq_nil_iff.mp hwaiting ev hev

theorem no_reply_lost_two : ∃ s log s', run step .init twoWaiting = some (s, log) ∧
    step s .swap = some (s', .handled 2) ∧ ∀ ev ∈ s'.pendings.events, ev.seqid ≠ 2 := by
  obtain ⟨⟨s, log⟩, hrun, hswap⟩ := exists_of_any (o := run step .init twoWaiting)
    (p := fun r => (step r.1 .swap).any (·.2 = .handled 2)) (by decide)
  obtain ⟨⟨s', r⟩, hstep, hr⟩ := exists_of_any hswap
  obtain rfl : r = .handled 2 := of_decide_eq_true hr
  exact ⟨s, log, s', hrun, hstep, no_reply_lost hrun (by decide) hstep⟩

end V2I.Evpoller
