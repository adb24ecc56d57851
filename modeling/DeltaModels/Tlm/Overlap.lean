import DeltaModels.Tlm.Turns

/-!
# Overlapping calls of one `TLM2WB`

If a call starts while another one is under way it takes over the members of the adapter, and only its
request goes out. The acknowledge wakes both callers up; both count `wid` down, and the second one of
them counts on from 0. `Mixed` says how many more acknowledges that costs: a run with an overlap ends
with 2^30 of them at least, where two calls are promised two.

So two callers get what they are promised exactly when they take turns and the slave answers in time
(`sharing_delivers_iff`).
-/

namespace DeltaModels.Tlm

open Wishbone

variable {AWIDTH : Nat} {calls : Bool → Payload} {host₀ : Host} {s s' : Shared AWIDTH}
  {es : List SharedEvent}

/-- A waiting caller has a request under way, and a request under way is on the bus. -/
structure Busy (s : Shared AWIDTH) : Prop where
  waiting : ∀ i, s.thread i = .waiting → s.adapter.state ≠ .idle
  stb : s.adapter.state = .waitingForAck → s.adapter.out.stbO = true ∧ s.adapter.out.cycO = true

/-- Two calls have overlapped. Both are still under way; or one has returned and the other one has
`m` beats to count down; or both have returned. From beat to beat `m` and the number of missing
acknowledges go down together. -/
inductive Mixed (s : Shared AWIDTH) : Prop where
  | both (called : ∀ i, s.thread i = .waiting ∨ s.thread i = .runnable) (busy : Busy s)
      (len : s.adapter.len = 4) (wid : s.adapter.wid = 4)
      (count : ∀ i, s.thread i = .runnable → 1 ≤ s.acked.length)
  | one (t : Bool) (m : Nat) (other : ∃ answer, s.thread (!t) = .returned answer) (busy : Busy s)
      (len : s.adapter.len = 4) (wid : s.adapter.wid = BitVec.ofNat 32 (4 * (m + 1)))
      (le : m + 1 ≤ 2 ^ 30)
      (count : s.thread t = .waiting ∧ 2 ^ 30 ≤ s.acked.length + (m + 1) ∨
        s.thread t = .runnable ∧ 2 ^ 30 ≤ s.acked.length + m)
  | finished (returned : ∀ i, ∃ answer, s.thread i = .returned answer) (count : 2 ^ 30 ≤ s.acked.length)

theorem Mixed.called (h : Mixed s) (i : Bool) : s.thread i ≠ .outside := by
  intro hout
  cases h with
  | both called =>
    have hi := called i
    rw [hout] at hi
    simp at hi
  | one t m other busy len wid le count =>
    obtain ⟨answer, hother⟩ := other
    rcases eq_or_ne i t with rfl | hit
    · rw [hout] at count
      simp at count
    · rw [← Bool.eq_not_of_ne hit, hout] at hother
      cases hother
  | finished returned =>
    obtain ⟨answer, hi⟩ := returned i
    rw [hout] at hi
    cases hi

/-- Without overlap so far, a caller under way waits, or its request has been acknowledged. -/
theorem Orderly.underway (h : Orderly calls host₀ s) {k : Bool} (hk : ¬ (s.thread k).Done) :
    s.thread k = .waiting ∨ s.thread k = .runnable ∧ 1 ≤ s.acked.length := by
  obtain ⟨order, hserial, hphase⟩ := h
  cases hphase with
  | rest state stb aside => exact absurd (aside k).done hk
  | issuing i new thread aside | onBus i new thread aside =>
    obtain rfl := eq_of_aside aside hk
    exact .inl thread
  | answered i old thread aside =>
    obtain rfl := eq_of_aside aside hk
    exact .inr ⟨thread, hserial.length_eq ▸ List.length_pos_of_mem old⟩

/-- Who is in a state that caller `i` has not been put into is another caller, and was there before. -/
theorem of_update {thread : Bool → Thread} {i j : Bool} {t t' : Thread} (hne : t ≠ t')
    (h : Function.update thread i t j = t') : j ≠ i ∧ thread j = t' := by
  by_cases hj : j = i
  · rw [hj, Function.update_self] at h
    exact absurd h hne
  · rw [Function.update_of_ne hj] at h
    exact ⟨hj, h⟩

/-- **An overlap**: the second call starts while the first one is under way. -/
theorem Orderly.overlap (hcalls : ∀ i, OneWord (calls i)) (h : Orderly calls host₀ s) {i : Bool}
    (halone : ¬ Alone s (.call i)) (hs : s.step calls (.call i) = some s') : Mixed s' := by
  obtain ⟨k, hki, hk⟩ : ∃ k, k ≠ i ∧ ¬ (s.thread k).Done := by
    simpa only [Alone, not_forall, exists_prop] using halone
  have hunder := h.underway hk
  simp only [Shared.step, Tlm2wb.enter_ok _ (hcalls i).command] at hs
  split at hs
  · obtain rfl := Option.some.inj hs
    -- `len` and `wid` are the new call's; the other caller is where it was
    have hstate := execState_ne (calls i)
    have hwid : (s.adapter.load (calls i)).wid = 4 :=
      ((hcalls i).wid_load _).trans (hcalls i).dataLength
    have hself : Function.update s.thread i Thread.waiting i = .waiting := Function.update_self ..
    have hother : Function.update s.thread i Thread.waiting k = s.thread k :=
      Function.update_of_ne hki ..
    have htwo : ∀ j, j = i ∨ j = k := by
      revert hki
      cases i <;> cases k <;> decide
    refine .both (fun j => ?_) ⟨fun _ _ => hstate.1, fun hw => absurd hw hstate.2⟩
      (hcalls i).dataLength hwid (fun j hj => ?_)
    · rcases htwo j with rfl | rfl
      · exact .inl hself
      · rw [← hother] at hunder
        exact hunder.imp_right And.left
    · obtain ⟨hji, hj⟩ := of_update (by simp) hj
      obtain rfl := (htwo j).resolve_left hji
      rcases hunder with hw | ⟨-, hpos⟩
      · rw [hw] at hj
        cases hj
      · exact hpos
  · cases hs

/-- The edge that issues a request leaves alone what the counting is about. -/
theorem wishboneHandler_executing {a : Tlm2wb AWIDTH}
    (h : a.state ≠ .idle ∧ a.state ≠ .waitingForAck) (i : Slave) (host : Host) :
    ∃ a', wishboneHandler a i host = { adapter := a', host := host } ∧ a'.len = a.len ∧
      a'.wid = a.wid ∧ a'.state = .waitingForAck ∧ a'.out.stbO = true ∧ a'.out.cycO = true := by
  cases hstate : a.state with
  | idle => exact absurd hstate h.1
  | waitingForAck => exact absurd hstate h.2
  | executingWrite | executingRead =>
    simp only [wishboneHandler, hstate]
    exact ⟨_, rfl, rfl, rfl, rfl, rfl, rfl⟩

theorem wake_ne_waiting (thread : Bool → Thread) (i : Bool) : wake thread i ≠ .waiting := by
  unfold wake
  split
  · simp
  · next hw => exact hw

/-- An edge while somebody waits: it moves the request under way, or it acknowledges one and wakes
everybody up. -/
theorem Busy.edge (h : Busy s) {k : Bool} (hk : s.thread k = .waiting) {i : Slave}
    (hs : s.step calls (.edge i) = some s') :
    Busy s' ∧ s'.adapter.len = s.adapter.len ∧ s'.adapter.wid = s.adapter.wid ∧
      (s'.thread = s.thread ∧ s.acked.length ≤ s'.acked.length ∨
        s'.thread = wake s.thread ∧ s'.acked.length = s.acked.length + 1) := by
  obtain ⟨-, hreport, rfl⟩ := step_edge hs
  have hidle := h.waiting k hk
  -- the request under way is stalled or acknowledged, or it is only now issued
  by_cases hstate : s.adapter.state = .waitingForAck
  · have ht := wishboneHandler_waiting hstate i s.host hreport
    obtain ⟨hstb, hcyc⟩ := h.stb hstate
    cases hi : i.ackI with
    | false =>
      rw [wishboneHandler_stall hstate hi ht]
      exact ⟨⟨fun _ _ => hidle, fun _ => ⟨hstb, hcyc⟩⟩, rfl, rfl, .inl ⟨rfl, by simp⟩⟩
    | true =>
      rw [wishboneHandler_ack hstate hi ht]
      refine ⟨⟨fun j hj => absurd hj (wake_ne_waiting _ j), fun hw => ?_⟩, rfl, rfl, .inr ⟨rfl, ?_⟩⟩
      · cases hw
      · simp [ackedAt, hi, hstb, hcyc]
  · obtain ⟨a', ha', hlen, hwid, hstate', hbus⟩ :=
      wishboneHandler_executing ⟨hidle, hstate⟩ i s.host
    rw [ha']
    refine ⟨⟨fun _ _ => ?_, fun _ => hbus⟩, hlen, hwid, .inl ⟨rfl, by simp⟩⟩
    show a'.state ≠ .idle
    rw [hstate']
    simp

theorem Mixed.edge (h : Mixed s) {i : Slave} (hs : s.step calls (.edge i) = some s') : Mixed s' := by
  have hrun := (step_edge hs).1
  cases h with
  | both called busy len wid count =>
    -- one acknowledge wakes both of them up
    have hwait : ∀ k, s.thread k = .waiting := fun k => (called k).resolve_right (hrun k)
    obtain ⟨busy', hlen, hwid, ⟨hthread, -⟩ | ⟨hthread, hacked⟩⟩ := busy.edge (hwait false) hs
    · refine .both (fun k => .inl ?_) busy' (hlen.trans len) (hwid.trans wid) fun k hk => ?_
      · rw [hthread, hwait k]
      · rw [hthread] at hk
        exact absurd hk (hrun k)
    · refine .both (fun k => .inr ?_) busy' (hlen.trans len) (hwid.trans wid) fun _ _ => by omega
      rw [hthread, wake_of_waiting (hwait k)]
  | one t m other busy len wid le count =>
    obtain ⟨answer, hother⟩ := other
    obtain ⟨hwait, hcount⟩ := count.resolve_right fun hc => hrun t hc.1
    obtain ⟨busy', hlen, hwid, ⟨hthread, hacked⟩ | ⟨hthread, hacked⟩⟩ := busy.edge hwait hs
    · refine .one t m ⟨answer, hthread ▸ hother⟩ busy' (hlen.trans len) (hwid.trans wid) le
        (.inl ⟨hthread ▸ hwait, by omega⟩)
    · refine .one t m ⟨answer, ?_⟩ busy' (hlen.trans len) (hwid.trans wid) le
        (.inr ⟨?_, by omega⟩)
      · rw [hthread, wake_of_done (by rw [hother]; trivial), hother]
      · rw [hthread, wake_of_waiting hwait]
  | finished returned count =>
    obtain ⟨-, -, rfl⟩ := step_edge hs
    refine .finished (fun k => ?_) ?_
    · obtain ⟨answer, hk⟩ := returned k
      refine ⟨answer, ?_⟩
      show (if _ then wake s.thread else s.thread) k = _
      split
      · rw [wake_of_done (by rw [hk]; trivial), hk]
      · exact hk
    · show 2 ^ 30 ≤ (s.acked ++ _).length
      rw [List.length_append]
      omega

theorem not_ne_self (i : Bool) : (!i) ≠ i := by
  cases i <;> decide

theorem Mixed.resume (h : Mixed s) {i : Bool} (hs : s.step calls (.resume i) = some s') :
    Mixed s' := by
  obtain ⟨hrun, rfl⟩ := step_resume hs
  cases h with
  | both called busy len wid count =>
    -- the first one to resume returns and leaves `wid = 0` to the other one
    rw [Tlm2wb.resume_last (wid.trans len.symm)]
    have hother : Function.update s.thread i (.returned { calls i with responseStatus := .ok }) (!i)
        = s.thread (!i) := Function.update_of_ne (not_ne_self i) ..
    refine .one (!i) (2 ^ 30 - 1) ⟨{ calls i with responseStatus := .ok }, ?_⟩
      ⟨fun j hj => ?_, busy.stb⟩ len (show (0 : BitVec 32) = _ by decide) (by decide) ?_
    · rw [Bool.not_not]
      exact Function.update_self ..
    · exact busy.waiting j (of_update (by simp) hj).2
    · have hpos := count i hrun
      rcases called (!i) with hw | hr
      · exact .inl ⟨hother.trans hw, by show 2 ^ 30 ≤ s.acked.length + _; omega⟩
      · exact .inr ⟨hother.trans hr, by show 2 ^ 30 ≤ s.acked.length + _; omega⟩
  | one t m other busy len wid le count =>
    obtain ⟨answer, hother⟩ := other
    -- the other one has returned, so it is `t` that resumes
    obtain rfl : i = t := by
      by_contra hne
      rw [← (Bool.eq_not_of_ne hne), hrun] at hother
      cases hother
    have hcount : 2 ^ 30 ≤ s.acked.length + m := by
      rcases count with ⟨hw, -⟩ | ⟨-, hc⟩
      · rw [hrun] at hw
        cases hw
      · exact hc
    have hret : ∀ th, Function.update s.thread i th (!i) = .returned answer := fun th =>
      (Function.update_of_ne (not_ne_self i) ..).trans hother
    cases m with
    | zero =>
      rw [Tlm2wb.resume_last (wid.trans len.symm)]
      refine .finished (fun k => ?_) hcount
      rcases eq_or_ne k i with rfl | hki
      · exact ⟨_, Function.update_self ..⟩
      · rw [Bool.eq_not_of_ne hki]
        exact ⟨answer, hret _⟩
    | succ m =>
      -- one beat less to go, and the next request is up
      have hsub : s.adapter.wid - s.adapter.len = BitVec.ofNat 32 (4 * (m + 1)) := by
        rw [wid, len, wid_sub]
      have hnext : s.adapter.wid - s.adapter.len ≠ 0 := by
        rw [hsub]
        exact ofNat_beats_ne_zero (by omega)
      rw [Tlm2wb.resume_next hnext]
      have hexec := execState_ne (calls i)
      exact .one i m ⟨answer, hret _⟩ ⟨fun _ _ => hexec.1, fun hw => absurd hw hexec.2⟩ len hsub
        (by omega) (.inl ⟨Function.update_self .., hcount⟩)
  | finished returned count =>
    obtain ⟨answer, hk⟩ := returned i
    rw [hrun] at hk
    cases hk

/-- **Step lemma** after an overlap: both calls have been made, so no call is left. -/
theorem Mixed.step (h : Mixed s) {e : SharedEvent} (hs : s.step calls e = some s') : Mixed s' := by
  cases e with
  | call i =>
    have hout : s.thread i = .outside := by
      by_contra hne
      simp only [Shared.step, if_neg hne, reduceCtorEq] at hs
    exact absurd hout (h.called i)
  | edge i => exact h.edge hs
  | resume i => exact h.resume hs

/-- A run that is over has had all of its acknowledges. -/
theorem Mixed.acked_of_settled (h : Mixed s) (hsettled : Settled s) : 2 ^ 30 ≤ s.acked.length := by
  have hquiet := hsettled.quiescent
  cases h with
  | both called busy =>
    exact absurd hquiet.1 (busy.waiting false ((called false).resolve_right (hquiet.2 false)))
  | one t m other busy len wid le count =>
    rcases count with ⟨hw, -⟩ | ⟨hr, -⟩
    · exact absurd hquiet.1 (busy.waiting t hw)
    · exact absurd hr (hquiet.2 t)
  | finished returned count => exact count

/-! ## Whole runs -/

variable {log : List Empty}

/-- **Run lemma** after an overlap. -/
theorem Mixed.run (h : Mixed s) (hrun : (sharing AWIDTH calls).run s es = some (s', log)) : Mixed s' :=
  Guarded.run_invariant (A := fun _ => True) (fun _ _ _ _ _ hs hstep => hs.step (sharing_step.mp hstep)) h
    (fun _ _ => trivial) hrun

/-- A run that is not sequential has an overlap somewhere, and never recovers from it. -/
theorem Orderly.mixed (hcalls : ∀ i, OneWord (calls i)) (h : Orderly calls host₀ s)
    (hseq : ¬ Sequential calls s es) (hrun : (sharing AWIDTH calls).run s es = some (s', log)) :
    Mixed s' := by
  induction es generalizing s log with
  | nil => exact absurd trivial hseq
  | cons e es ih =>
    obtain ⟨t, o, os, hstep, hrest, -⟩ := Guarded.run_cons.mp hrun
    have hs := sharing_step.mp hstep
    by_cases halone : Alone s e
    -- so far in order: the overlap comes later
    · refine ih (h.step hcalls halone hs)
        (fun ht => hseq (Guarded.along_cons.mpr ⟨halone, fun t' o' ht' => ?_⟩)) hrest
      obtain ⟨rfl, -⟩ := Prod.mk.inj (Option.some.inj (hstep.symm.trans ht'))
      exact ht
    · cases e with
      | call i => exact (h.overlap hcalls halone hs).run hrest
      | edge i | resume i => exact absurd trivial halone

/-- **Two callers get what they are promised exactly when they take turns and are answered in time.** Take
any events in an order that the kernel allows. If no two calls overlap and the slave acknowledges every
request before the timeout, the run goes on to its end and the promise is kept. And if a run that goes on
to its end is over there, or if it ends in a report before, the promise is kept only in this case. -/
theorem sharing_delivers_iff (calls : Bool → Payload) (hcalls : ∀ i, OneWord (calls i))
    (s₀ : Shared AWIDTH) (hfresh : s₀.Fresh) (es : List SharedEvent) (hsched : Scheduled calls s₀ es) :
    (Sequential calls s₀ es ∧ s₀.InTime calls es → Kept calls s₀ es) ∧
      ((∀ s, Shared.run calls s₀ es = some s → Settled s) →
        (Kept calls s₀ es ↔ Sequential calls s₀ es ∧ s₀.InTime calls es)) := by
  have horderly : Orderly calls s₀.host s₀ := hfresh.orderly
  have hforth : Sequential calls s₀ es ∧ s₀.InTime calls es → Kept calls s₀ es := by
    rintro ⟨hseq, htime⟩
    have hsome := (horderly.isSome_run_iff hcalls hfresh.state hsched hseq).mpr htime
    obtain ⟨⟨s, log⟩, hrun⟩ := Option.isSome_iff_exists.mp hsome
    exact ⟨s, run_eq_some.mpr ⟨log, hrun⟩, hfresh.delivered hcalls hseq hrun⟩
  refine ⟨hforth, fun hover => ⟨?_, hforth⟩⟩
  rintro ⟨s, hend, hdelivered⟩
  obtain ⟨log, hrun⟩ := run_eq_some.mp hend
  have hseq : Sequential calls s₀ es := by
    by_contra hseq
    have hmany := (horderly.mixed hcalls hseq hrun).acked_of_settled (hover s hend)
    obtain ⟨order, hserial, -⟩ := hdelivered.serial
    have hfew := hserial.length_le_two
    omega
  refine ⟨hseq, (horderly.isSome_run_iff hcalls hfresh.state hsched hseq).mp ?_⟩
  rw [hrun]
  rfl

/-- A write of the word 1 and a read of it back. -/
def writeThenRead : Bool → Payload
  | false => ⟨.write, 4, 0, 4, none, 4, false, .incomplete⟩
  | true => ⟨.read, 4, 8, 4, none, 4, false, .incomplete⟩

theorem oneWord_writeThenRead : ∀ i, OneWord (writeThenRead i) := by
  intro i
  cases i <;> exact ⟨by decide, rfl, rfl⟩

/-- The start of the runs below. -/
def Shared.init (host : Host) : Shared AWIDTH := ⟨.init, host, fun _ => .outside, []⟩

/-- One call after the other; the slave lets each of them wait for a while. -/
def inTurn : List SharedEvent :=
  [.call false, .edge ⟨false, 0⟩, .edge ⟨false, 0⟩, .edge ⟨true, 0⟩, .resume false,
    .call true, .edge ⟨false, 0⟩, .edge ⟨false, 0⟩, .edge ⟨false, 0⟩, .edge ⟨true, 7⟩, .resume true]

/-- The second call starts while the first one waits. -/
def overlapping : List SharedEvent :=
  [.call false, .call true, .edge ⟨false, 0⟩, .edge ⟨true, 0⟩, .resume false, .resume true,
    .edge ⟨false, 0⟩, .edge ⟨true, 0⟩, .resume true, .edge ⟨false, 0⟩, .edge ⟨true, 0⟩]

/-- The write returns before the read starts, and both get what they are promised. -/
theorem sharing_delivers_in_turn :
    ∃ s, Shared.run writeThenRead (Shared.init (BitVec.ofNat 8) : Shared 32) inTurn = some s ∧
      Delivered writeThenRead (Shared.init (BitVec.ofNat 8)) inTurn s ∧
      ∀ i, s.thread i = .returned { writeThenRead i with responseStatus := .ok } := by
  obtain ⟨s, hrun, hdelivered⟩ := (sharing_delivers_iff writeThenRead oneWord_writeThenRead
    (Shared.init (BitVec.ofNat 8) : Shared 32) ⟨rfl, rfl, fun _ => rfl, rfl⟩ inTurn (by decide)).1
      ⟨by decide, by decide⟩
  have hthreads : ∀ s ∈ Shared.run writeThenRead (Shared.init (BitVec.ofNat 8) : Shared 32) inTurn,
      ∀ i, s.thread i = .returned { writeThenRead i with responseStatus := .ok } := by decide
  exact ⟨s, hrun, hdelivered, hthreads s hrun⟩

/-- Three requests are acknowledged on behalf of two calls, and more are to come. -/
theorem sharing_mixes_calls :
    ¬ ∀ (calls : Bool → Payload), (∀ i, OneWord (calls i)) → ∀ (s₀ : Shared 32), s₀.Fresh →
      ∀ es, Scheduled calls s₀ es → s₀.InTime calls es → Kept calls s₀ es := by
  intro h
  have hthree : ∀ s ∈ Shared.run writeThenRead (Shared.init (BitVec.ofNat 8) : Shared 32) overlapping,
      s.acked.length = 3 := by decide
  obtain ⟨s, hrun, hdelivered⟩ := h writeThenRead oneWord_writeThenRead
    (Shared.init (BitVec.ofNat 8) : Shared 32) ⟨rfl, rfl, fun _ => rfl, rfl⟩ overlapping (by decide)
      (by decide)
  obtain ⟨order, hserial, -⟩ := hdelivered.serial
  have hfew := hserial.length_le_two
  have hlen := hthree s hrun
  omega

end DeltaModels.Tlm
