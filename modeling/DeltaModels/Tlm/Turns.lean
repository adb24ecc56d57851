import DeltaModels.Tlm.Sharing

/-!
# Callers that take turns

While a call starts only when the other one is not under way, the adapter serves one call at a time, and
`Phase` says how far that call has come. Each event takes it one phase further or leaves it where it is
(`Orderly.step`).

Under a slave that answers in time such a run goes on to its end, and only then
(`Orderly.isSome_run_iff`); and a call under way has its edges counted (`Shared.edgesLeft`), so that it
returns before they are over (`Orderly.returns`).
-/

namespace DeltaModels.Tlm

open Wishbone

variable {AWIDTH : Nat} {calls : Bool → Payload} {host₀ : Host} {order : List Bool}
  {s s' : Shared AWIDTH} {es : List SharedEvent}

/-- A caller that is not under way: its request is on record and it was answered, or it has not called
yet. -/
def Aside (calls : Bool → Payload) (order : List Bool) (thread : Bool → Thread) (i : Bool) : Prop :=
  i ∈ order ∧ thread i = .returned { calls i with responseStatus := .ok } ∨
    i ∉ order ∧ thread i = .outside

/-- How far the one call under way has come. -/
inductive Phase (calls : Bool → Payload) (order : List Bool) (s : Shared AWIDTH) : Prop where
  | rest (state : s.adapter.state = .idle) (stb : s.adapter.out.stbO = false)
      (aside : ∀ j, Aside calls order s.thread j)
  | issuing (i : Bool) (new : i ∉ order) (thread : s.thread i = .waiting)
      (aside : ∀ j, j ≠ i → Aside calls order s.thread j)
      (state : s.adapter.state = execState (calls i)) (stb : s.adapter.out.stbO = false)
      (adr : s.adapter.adr = (calls i).address >>> 2) (ptr : s.adapter.ptr = (calls i).dataPtr)
      (byt : s.adapter.byt = (calls i).byteEnablePtr) (wid : s.adapter.wid = s.adapter.len)
  | onBus (i : Bool) (new : i ∉ order) (thread : s.thread i = .waiting)
      (aside : ∀ j, j ≠ i → Aside calls order s.thread j)
      (state : s.adapter.state = .waitingForAck) (stb : s.adapter.out.stbO = true)
      (cyc : s.adapter.out.cycO = true) (own : OwnRequest (calls i) s.host s.adapter.out.request)
      (wnr : s.adapter.wnr = decide ((calls i).command = .write))
      (ptr : s.adapter.ptr = (calls i).dataPtr) (wid : s.adapter.wid = s.adapter.len)
      (count : s.adapter.elapsed.toNat + 1 < 2 ^ 32)
  | answered (i : Bool) (old : i ∈ order) (thread : s.thread i = .runnable)
      (aside : ∀ j, j ≠ i → Aside calls order s.thread j)
      (state : s.adapter.state = .idle) (stb : s.adapter.out.stbO = false)
      (wid : s.adapter.wid = s.adapter.len)

/-- The invariant of runs without overlap. -/
def Orderly (calls : Bool → Payload) (host₀ : Host) (s : Shared AWIDTH) : Prop :=
  ∃ order, Serial calls host₀ order s.acked s.host ∧ Phase calls order s

theorem Aside.done {thread : Bool → Thread} {i : Bool} (h : Aside calls order thread i) :
    (thread i).Done := by
  rcases h with ⟨-, h⟩ | ⟨-, h⟩ <;> rw [h] <;> trivial

/-- A caller under way is the one that the phase is about. -/
theorem eq_of_aside {thread : Bool → Thread} {i j : Bool}
    (h : ∀ k, k ≠ i → Aside calls order thread k) (hj : ¬ (thread j).Done) : j = i := by
  by_contra hne
  exact hj (h j hne).done

theorem Aside.update {thread : Bool → Thread} {i j : Bool} (h : Aside calls order thread j)
    (hne : j ≠ i) (t : Thread) : Aside calls order (Function.update thread i t) j := by
  unfold Aside
  rwa [Function.update_of_ne hne]

/-- If nobody is under way, the adapter is at rest. -/
theorem Phase.rest_of_done (h : Phase calls order s) (hdone : ∀ j, (s.thread j).Done) :
    s.adapter.state = .idle ∧ s.adapter.out.stbO = false ∧ ∀ j, Aside calls order s.thread j := by
  cases h with
  | rest state stb aside => exact ⟨state, stb, aside⟩
  | issuing k new thread | onBus k new thread | answered k old thread =>
    have hk := hdone k
    rw [thread] at hk
    exact hk.elim

/-- When a caller starts its call, alone, nobody is under way. -/
theorem done_of_alone {i : Bool} (hout : s.thread i = .outside) (halone : Alone s (.call i)) (j : Bool) :
    (s.thread j).Done := by
  by_cases hj : j = i
  · rw [hj, hout]
    trivial
  · exact halone j hj

/-- **A call starts** when no other is under way. -/
theorem Orderly.call (hcalls : ∀ i, OneWord (calls i)) (h : Orderly calls host₀ s) {i : Bool}
    (halone : Alone s (.call i)) (hs : s.step calls (.call i) = some s') :
    Orderly calls host₀ s' := by
  obtain ⟨order, hserial, hphase⟩ := h
  obtain ⟨hout, rfl⟩ := step_call (hcalls i) hs
  obtain ⟨state, stb, aside⟩ := hphase.rest_of_done (done_of_alone hout halone)
  have hnew : i ∉ order := by
    rcases aside i with ⟨-, hret⟩ | ⟨hnew, -⟩
    · rw [hout] at hret
      cases hret
    · exact hnew
  exact ⟨order, hserial, .issuing i hnew (Function.update_self ..)
    (fun j hj => (aside j).update hj _) rfl stb rfl rfl rfl ((hcalls i).wid_load _)⟩

theorem Aside.wake {thread : Bool → Thread} {j : Bool} (h : Aside calls order thread j) :
    Aside calls order (wake thread) j := by
  unfold Aside
  rwa [wake_of_done h.done]

/-- One more request on record changes nothing for the others. -/
theorem Aside.concat {thread : Bool → Thread} {i j : Bool} (h : Aside calls order thread j)
    (hne : j ≠ i) : Aside calls (order ++ [i]) thread j := by
  unfold Aside
  rw [List.mem_append, List.mem_singleton, or_iff_left hne]
  exact h

/-- The count of an edge that does not report stays in range. -/
theorem count_of_stall {a : Tlm2wb AWIDTH} (h : a.elapsed.toNat + 1 < 2 ^ 32)
    (ht : a.elapsed + 1 < a.timeout) : (a.elapsed + 1).toNat + 1 < 2 ^ 32 := by
  obtain ⟨hsucc, hintime⟩ := elapsed_succ h a.timeout
  have hlt := hintime.mp ht
  have hbound := a.timeout.isLt
  omega

/-- **An edge** takes the call under way one phase further, or leaves it where it is. -/
theorem Orderly.edge (h : Orderly calls host₀ s) {i : Slave}
    (hs : s.step calls (.edge i) = some s') : Orderly calls host₀ s' := by
  obtain ⟨order, hserial, hphase⟩ := h
  obtain ⟨hrun, hreport, rfl⟩ := step_edge hs
  cases hphase with
  | rest state stb aside =>
    rw [wishboneHandler_idle state, ackedAt_of_stb stb, List.append_nil]
    exact ⟨order, hserial, .rest state stb aside⟩
  | issuing k new thread aside state stb adr ptr byt wid =>
    rw [wishboneHandler_exec state, ackedAt_of_stb stb, List.append_nil]
    refine ⟨order, hserial, .onBus k new thread aside rfl rfl rfl ⟨?_, rfl, ?_, ?_⟩ rfl ptr wid
      (show 0 + 1 < 2 ^ 32 by omega)⟩
    · simp [Tlm2wb.issue, Master.request, adr]
    · intro hcmd
      simp [Tlm2wb.issue, Master.request, hcmd, ptr]
    · intro hcmd
      simp [Tlm2wb.issue, Master.request, hcmd, byt]
  | onBus k new thread aside state stb cyc own wnr ptr wid count =>
    have ht := wishboneHandler_waiting state i s.host hreport
    cases hi : i.ackI with
    | false =>
      have hacked : ackedAt s.adapter.out i = [] := by simp [ackedAt, hi]
      rw [wishboneHandler_stall state hi ht, hacked, List.append_nil]
      exact ⟨order, hserial, .onBus k new thread aside state stb cyc own wnr ptr wid
        (count_of_stall count ht)⟩
    | true =>
      -- the request goes on record, and its caller wakes up
      have hacked : ackedAt s.adapter.out i = [(s.adapter.out.request, i.datI)] := by
        simp [ackedAt, hi, stb, cyc]
      have hhost : (if s.adapter.wnr then s.host else storeWord s.host s.adapter.ptr i.datI)
          = ownResult (calls k) s.host i.datI := by
        simp only [wnr, ptr, ownResult, decide_eq_true_eq]
      rw [wishboneHandler_ack state hi ht, hacked]
      refine ⟨order ++ [k], hhost ▸ .snoc hserial new own, .answered k (by simp)
        (wake_of_waiting thread) (fun j hj => ((aside j hj).concat hj).wake) rfl rfl wid⟩
  | answered k old thread => exact absurd thread (hrun k)

/-- A notified caller is the one that the phase is about. -/
theorem Phase.of_runnable (h : Phase calls order s) {i : Bool} (hrun : s.thread i = .runnable) :
    i ∈ order ∧ s.adapter.state = .idle ∧ s.adapter.out.stbO = false ∧
      s.adapter.wid = s.adapter.len ∧ ∀ j, j ≠ i → Aside calls order s.thread j := by
  have hi : ¬ (s.thread i).Done := by
    rw [hrun]
    exact id
  cases h with
  | rest state stb aside => exact absurd (aside i).done hi
  | issuing k new thread aside | onBus k new thread aside =>
    obtain rfl := eq_of_aside aside hi
    rw [hrun] at thread
    cases thread
  | answered k old thread aside state stb wid =>
    obtain rfl := eq_of_aside aside hi
    exact ⟨old, state, stb, wid, aside⟩

/-- **A notified caller resumes** and returns. -/
theorem Orderly.resume (h : Orderly calls host₀ s) {i : Bool}
    (hs : s.step calls (.resume i) = some s') :
    Orderly calls host₀ s' ∧ s'.thread i = .returned { calls i with responseStatus := .ok } := by
  obtain ⟨order, hserial, hphase⟩ := h
  obtain ⟨hrun, rfl⟩ := step_resume hs
  obtain ⟨old, state, stb, wid, aside⟩ := hphase.of_runnable hrun
  rw [Tlm2wb.resume_last wid]
  refine ⟨⟨order, hserial, .rest state stb fun j => ?_⟩, Function.update_self ..⟩
  rcases eq_or_ne j i with rfl | hj
  · exact .inl ⟨old, Function.update_self ..⟩
  · exact (aside j hj).update hj _

/-- **Step lemma.** -/
theorem Orderly.step (hcalls : ∀ i, OneWord (calls i)) (h : Orderly calls host₀ s) {e : SharedEvent}
    (halone : Alone s e) (hs : s.step calls e = some s') : Orderly calls host₀ s' := by
  cases e with
  | call i => exact h.call hcalls halone hs
  | edge i => exact h.edge hs
  | resume i => exact (h.resume hs).1

/-! ## Runs go on -/

/-- Nothing is promised where the outputs stay as they are. -/
theorem promises_of_out {e : SharedEvent} (hs : s.step calls e = some s')
    (hout : s'.adapter.out = s.adapter.out) : s.Promises calls e es := by
  rw [Shared.Promises, hs]
  intro hraised
  exact absurd hraised (by rw [hout]; simp [issued])

/-- What an event leads to. -/
theorem exists_step_iff {e : SharedEvent} (hs : s.step calls e = some s') (R : Shared AWIDTH → Prop) :
    (∃ t, s.step calls e = some t ∧ R t) ↔ R s' := by
  rw [hs]
  constructor
  · rintro ⟨t, heq, hR⟩
    cases heq
    exact hR
  · exact fun hR => ⟨s', rfl, hR⟩

/-- An edge of the call under way happens exactly when it does not come too late. -/
theorem Orderly.progress_edge (h : Orderly calls host₀ s) {i : Slave} (henabled : s.Enabled (.edge i)) :
    s.adapter.Answered (Shared.acks (.edge i :: es)) ∧ s.Promises calls (.edge i) es ↔
      ∃ t, s.step calls (.edge i) = some t ∧ t.adapter.Answered (Shared.acks es) := by
  obtain ⟨order, -, hphase⟩ := h
  have hacks : Shared.acks (.edge i :: es) = i.ackI :: Shared.acks es := rfl
  cases hphase with
  | rest state stb =>
    have hidle : s.adapter.state ≠ .waitingForAck := by rw [state]; decide
    have hs := step_edge_ok calls henabled
      (by rw [wishboneHandler_idle state] : (wishboneHandler s.adapter i s.host).report = none)
    rw [wishboneHandler_idle state] at hs
    exact iff_of_true ⟨answered_of_state hidle _, promises_of_out hs rfl⟩
      ⟨_, hs, answered_of_state hidle _⟩
  | issuing k new thread aside state stb =>
    have hidle : s.adapter.state ≠ .waitingForAck := by rw [state]; exact (execState_ne _).2
    have hs := step_edge_ok calls henabled
      (by rw [wishboneHandler_exec state] : (wishboneHandler s.adapter i s.host).report = none)
    rw [wishboneHandler_exec state] at hs
    have hraised : issued s.adapter.out (s.adapter.issue s.host (calls k).command).out ≠ [] := by
      simp [issued, stb, Tlm2wb.issue]
    have hwait : (s.adapter.issue s.host (calls k).command).state = .waitingForAck := rfl
    rw [exists_step_iff hs fun t => t.adapter.Answered (Shared.acks es), Shared.Promises, hs]
    exact ⟨fun hpromise _ => hpromise.2 hraised,
      fun hanswered => ⟨answered_of_state hidle _, fun _ => hanswered hwait⟩⟩
  | onBus k new thread aside state stb cyc own wnr ptr wid count =>
    rw [hacks, Tlm2wb.answered_cons state count]
    by_cases ht : s.adapter.elapsed + 1 < s.adapter.timeout
    · cases hi : i.ackI with
      | false =>
        have hs := step_edge_ok calls henabled
          (by rw [wishboneHandler_stall state hi ht] :
            (wishboneHandler s.adapter i s.host).report = none)
        rw [wishboneHandler_stall state hi ht] at hs
        rw [exists_step_iff hs fun t => t.adapter.Answered (Shared.acks es)]
        exact ⟨fun hleft => hleft.1.2 rfl, fun hnext => ⟨⟨ht, fun _ => hnext⟩, promises_of_out hs rfl⟩⟩
      | true =>
        have hs := step_edge_ok calls henabled
          (by rw [wishboneHandler_ack state hi ht] :
            (wishboneHandler s.adapter i s.host).report = none)
        rw [wishboneHandler_ack state hi ht] at hs
        have hpromise : s.Promises calls (.edge i) es := by
          rw [Shared.Promises, hs]
          exact fun hraised => absurd (issued_of_stb stb) hraised
        exact iff_of_true ⟨⟨ht, fun hquiet => by cases hquiet⟩, hpromise⟩
          ⟨_, hs, answered_of_state WbState.noConfusion _⟩
    · refine iff_of_false (fun hleft => ht hleft.1.1) ?_
      rintro ⟨t, hs, -⟩
      exact ht (wishboneHandler_waiting state i s.host (step_edge hs).2.1)
  | answered k old thread => exact absurd thread (henabled k)

/-- **Step lemma**: an event happens exactly when it does not come too late. -/
theorem Orderly.progress (hcalls : ∀ i, OneWord (calls i)) (h : Orderly calls host₀ s) {e : SharedEvent}
    (henabled : s.Enabled e) (halone : Alone s e) :
    s.adapter.Answered (Shared.acks (e :: es)) ∧ s.Promises calls e es ↔
      ∃ t, s.step calls e = some t ∧ t.adapter.Answered (Shared.acks es) := by
  cases e with
  | call i =>
    obtain ⟨order, -, hphase⟩ := h
    obtain ⟨state, -, -⟩ := hphase.rest_of_done (done_of_alone henabled halone)
    have hs := step_call_ok (hcalls i) henabled
    have hidle : s.adapter.state ≠ .waitingForAck := by rw [state]; decide
    exact iff_of_true ⟨answered_of_state hidle _, promises_of_out hs rfl⟩
      ⟨_, hs, answered_of_state (execState_ne _).2 _⟩
  | edge i => exact h.progress_edge henabled
  | resume i =>
    obtain ⟨order, -, hphase⟩ := h
    obtain ⟨-, state, -, wid, -⟩ := hphase.of_runnable henabled
    have hs := step_resume_ok calls henabled
    rw [Tlm2wb.resume_last wid] at hs
    have hidle : s.adapter.state ≠ .waitingForAck := by rw [state]; decide
    exact iff_of_true ⟨answered_of_state hidle _, promises_of_out hs rfl⟩
      ⟨_, hs, answered_of_state hidle _⟩

/-! ## Calls return -/

/-- The edges that a caller under way may still have to wait for. -/
def Shared.edgesLeft (s : Shared AWIDTH) (i : Bool) : Nat :=
  if s.thread i = .waiting then
    if s.adapter.state = .waitingForAck then s.adapter.timeout.toNat - s.adapter.elapsed.toNat
    else s.adapter.timeout.toNat + 1
  else 0

/-- An edge takes one of the edges that are left. -/
theorem Orderly.edge_left (h : Orderly calls host₀ s) {i : Slave} {k : Bool}
    (hk : ¬ (s.thread k).Done) (hs : s.step calls (.edge i) = some s') :
    ¬ (s'.thread k).Done ∧ s'.edgesLeft k < s.edgesLeft k := by
  obtain ⟨order, -, hphase⟩ := h
  obtain ⟨hrun, hreport, rfl⟩ := step_edge hs
  cases hphase with
  | rest state stb aside => exact absurd (aside k).done hk
  | issuing j new thread aside state =>
    obtain rfl := eq_of_aside aside hk
    have hexec : s.adapter.state ≠ .waitingForAck := by rw [state]; exact (execState_ne _).2
    rw [wishboneHandler_exec state]
    refine ⟨hk, ?_⟩
    simp only [Shared.edgesLeft, thread, if_true, Bool.false_eq_true, if_false, if_neg hexec,
      Tlm2wb.issue]
    omega
  | onBus j new thread aside state stb cyc own wnr ptr wid count =>
    obtain rfl := eq_of_aside aside hk
    have ht := wishboneHandler_waiting state i s.host hreport
    obtain ⟨hsucc, hintime⟩ := elapsed_succ count s.adapter.timeout
    have hlt := hintime.mp ht
    cases hi : i.ackI with
    | false =>
      rw [wishboneHandler_stall state hi ht]
      refine ⟨hk, ?_⟩
      simp only [Shared.edgesLeft, thread, state, if_true, Bool.false_eq_true, if_false, hsucc]
      omega
    | true =>
      rw [wishboneHandler_ack state hi ht]
      have hwoken : wake s.thread k = .runnable := wake_of_waiting thread
      refine ⟨by simp [hwoken, Thread.Done], ?_⟩
      simp only [Shared.edgesLeft, thread, state, if_true, hwoken, reduceCtorEq, if_false]
      omega
  | answered j old thread aside => exact absurd thread (hrun j)

/-- **Step lemma**: a caller under way returns, or has as many edges less to wait for as the event is. -/
theorem Orderly.step_left (hcalls : ∀ i, OneWord (calls i)) (h : Orderly calls host₀ s) {e : SharedEvent}
    (halone : Alone s e) {k : Bool} (hk : ¬ (s.thread k).Done) (hs : s.step calls e = some s') :
    (∃ answer, s'.thread k = .returned answer) ∨
      ¬ (s'.thread k).Done ∧ s'.edgesLeft k + (Shared.acks [e]).length ≤ s.edgesLeft k := by
  cases e with
  | call i =>
    obtain ⟨hout, -⟩ := step_call (hcalls i) hs
    exact absurd (done_of_alone hout halone k) hk
  | edge i =>
    obtain ⟨hk', hlt⟩ := h.edge_left hk hs
    exact .inr ⟨hk', hlt⟩
  | resume i =>
    have hreturned := (h.resume hs).2
    obtain ⟨order, -, hphase⟩ := h
    obtain ⟨-, -, -, -, aside⟩ := hphase.of_runnable (step_resume hs).1
    obtain rfl := eq_of_aside aside hk
    exact .inl ⟨_, hreturned⟩

/-- A call that has returned stays so. -/
theorem step_returned (hcalls : ∀ i, OneWord (calls i)) {e : SharedEvent} {k : Bool} {answer : Payload}
    (hk : s.thread k = .returned answer) (hs : s.step calls e = some s') :
    s'.thread k = .returned answer := by
  cases e with
  | call i =>
    obtain ⟨hout, rfl⟩ := step_call (hcalls i) hs
    have hne : k ≠ i := by
      rintro rfl
      rw [hout] at hk
      cases hk
    exact (Function.update_of_ne hne ..).trans hk
  | edge i =>
    obtain ⟨-, -, rfl⟩ := step_edge hs
    show (if _ then wake s.thread else s.thread) k = _
    split
    · rw [wake_of_done (by rw [hk]; trivial), hk]
    · exact hk
  | resume i =>
    obtain ⟨hrun, rfl⟩ := step_resume hs
    have hne : k ≠ i := by
      rintro rfl
      rw [hrun] at hk
      cases hk
    exact (Function.update_of_ne hne ..).trans hk

/-- Nothing changes the timeout. -/
theorem step_timeout (hcalls : ∀ i, OneWord (calls i)) {e : SharedEvent}
    (hs : s.step calls e = some s') : s'.adapter.timeout = s.adapter.timeout := by
  cases e with
  | call i =>
    obtain ⟨-, rfl⟩ := step_call (hcalls i) hs
    rfl
  | edge i =>
    obtain ⟨-, -, rfl⟩ := step_edge hs
    simp only [wishboneHandler]
    cases s.adapter.state with
    | idle | executingWrite | executingRead => rfl
    | waitingForAck => cases i.ackI <;> rfl
  | resume i =>
    obtain ⟨-, rfl⟩ := step_resume hs
    simp only [Tlm2wb.resume]
    split <;> rfl

/-! ## Whole runs -/

variable {log : List Empty}

/-- **Run lemma** without overlap. -/
theorem Orderly.run (hcalls : ∀ i, OneWord (calls i)) (h : Orderly calls host₀ s)
    (hseq : Sequential calls s es) (hrun : (sharing AWIDTH calls).run s es = some (s', log)) :
    Orderly calls host₀ s' :=
  Guarded.run_along (fun _ _ _ _ _ hs halone hstep => hs.step hcalls halone (sharing_step.mp hstep)) h
    hseq hrun

/-- **What keeps a run going**: callers that take turns reach its end exactly if the slave acknowledges
every request in time. -/
theorem Orderly.isSome_run_iff (hcalls : ∀ i, OneWord (calls i)) (h : Orderly calls host₀ s)
    (hidle : s.adapter.state = .idle) (hsched : Scheduled calls s es) (hseq : Sequential calls s es) :
    ((sharing AWIDTH calls).run s es).isSome ↔ s.InTime calls es := by
  have hrun := Guarded.isSome_run_iff (m := sharing AWIDTH calls) (P := Orderly calls host₀)
    (W := fun s es => s.adapter.Answered (Shared.acks es))
    (Q := fun s e _ => s.Enabled e ∧ Alone s e) (R := Shared.Promises calls)
    (fun _ _ _ => answeredWithin_nil _)
    (fun _ _ _ _ _ hs hok hstep => hs.step hcalls hok.2 (sharing_step.mp hstep))
    (fun s e es hs hok => by
      simp only [hs.progress hcalls hok.1 hok.2, sharing_step, exists_const])
    h (Guarded.along_and.mpr ⟨hsched, hseq⟩)
  have hanswered : s.adapter.Answered (Shared.acks es) := answered_of_state (by rw [hidle]; decide) _
  exact hrun.trans ⟨And.right, fun htime => ⟨hanswered, htime⟩⟩

/-- **Run lemma**: a caller under way has returned when the edges that it had left are over. -/
theorem Orderly.run_left (hcalls : ∀ i, OneWord (calls i)) (h : Orderly calls host₀ s)
    (hseq : Sequential calls s es) (hrun : (sharing AWIDTH calls).run s es = some (s', log)) {k : Bool}
    (hk : ¬ (s.thread k).Done) (hlen : s.edgesLeft k < (Shared.acks es).length) :
    ∃ answer, s'.thread k = .returned answer := by
  induction es generalizing s log with
  | nil => exact absurd hlen (Nat.not_lt_zero _)
  | cons e es ih =>
    obtain ⟨t, o, os, hstep, hrest, -⟩ := Guarded.run_cons.mp hrun
    obtain ⟨halone, hseq⟩ := Guarded.along_cons.mp hseq
    have hs := sharing_step.mp hstep
    rcases h.step_left hcalls halone hk hs with ⟨answer, hreturned⟩ | ⟨hk', hleft⟩
    · exact ⟨answer, Guarded.run_invariant (A := fun _ => True)
        (P := fun s => s.thread k = .returned answer)
        (fun _ _ _ _ _ hk hstep => step_returned hcalls hk (sharing_step.mp hstep)) hreturned
        (fun _ _ => trivial) hrest⟩
    · have hacks : (Shared.acks (e :: es)).length
          = (Shared.acks [e]).length + (Shared.acks es).length := by
        rw [← List.length_append, Shared.acks, Shared.acks, Shared.acks, ← List.filterMap_append]
        rfl
      exact ih (h.step hcalls halone hs) (hseq t o hstep) hrest hk' (by omega)

theorem Shared.Fresh.orderly (h : s.Fresh) : Orderly calls s.host s := by
  refine ⟨[], ?_, .rest h.state h.stb fun j => .inr ⟨List.not_mem_nil, h.thread j⟩⟩
  rw [h.acked]
  exact .nil

/-- A call returns before the edges that a request can take are over. -/
theorem Shared.Fresh.returns (hcalls : ∀ i, OneWord (calls i)) (h : s.Fresh)
    (hseq : Sequential calls s es) (hrun : (sharing AWIDTH calls).run s es = some (s', log))
    {pre post : List SharedEvent} {i : Bool} (hes : es = pre ++ .call i :: post)
    (hlen : s.adapter.timeout.toNat + 1 < (Shared.acks post).length) :
    ∃ answer, s'.thread i = .returned answer := by
  subst hes
  obtain ⟨t, os, os', hpre, hpost, -⟩ := Guarded.run_append.mp hrun
  obtain ⟨u, o, os'', hcall, hrest, -⟩ := Guarded.run_cons.mp hpost
  have ht : t.adapter.timeout = s.adapter.timeout :=
    Guarded.run_invariant (A := fun _ => True) (P := fun t => t.adapter.timeout = s.adapter.timeout)
      (fun _ _ _ _ _ ht hstep => (step_timeout hcalls (sharing_step.mp hstep)).trans ht) rfl
      (fun _ _ => trivial) hpre
  have hseqt := Guarded.along_append_right hseq hpre
  obtain ⟨halone, hsequ⟩ := Guarded.along_cons.mp hseqt
  have horderly : Orderly calls s.host t :=
    h.orderly.run hcalls (Guarded.along_append_left hseq) hpre
  have hu : Orderly calls s.host u := horderly.step hcalls halone (sharing_step.mp hcall)
  obtain ⟨-, rfl⟩ := step_call (hcalls i) (sharing_step.mp hcall)
  have hwait : Function.update t.thread i Thread.waiting i = .waiting := Function.update_self ..
  have hexec : (t.adapter.load (calls i)).state ≠ .waitingForAck := (execState_ne _).2
  refine hu.run_left hcalls (hsequ _ o hcall) hrest (by simp [Thread.Done]) ?_
  simp only [Shared.edgesLeft, hwait, if_true, if_neg hexec]
  show t.adapter.timeout.toNat + 1 < _
  rw [ht]
  exact hlen

/-- Callers that take turns get what they are promised. -/
theorem Shared.Fresh.delivered (hcalls : ∀ i, OneWord (calls i)) (h : s.Fresh)
    (hseq : Sequential calls s es) (hrun : (sharing AWIDTH calls).run s es = some (s', log)) :
    Delivered calls s es s' := by
  obtain ⟨order, hserial, hphase⟩ := h.orderly.run hcalls hseq hrun
  refine ⟨⟨order, hserial, fun i answer hret => ?_⟩,
    fun _ _ _ hes hlen => h.returns hcalls hseq hrun hes hlen⟩
  have haside : Aside calls order s'.thread i := by
    cases hphase with
    | rest state stb aside => exact aside i
    | issuing k new thread aside | onBus k new thread aside | answered k new thread aside =>
      refine aside i fun hik => ?_
      rw [hik, thread] at hret
      cases hret
  rcases haside with ⟨hmem, heq⟩ | ⟨-, heq⟩
  · rw [hret] at heq
    exact ⟨hmem, Thread.returned.inj heq⟩
  · rw [hret] at heq
    cases heq

end DeltaModels.Tlm
