import DeltaModels.Network.Bridge

/-!
# `MockGMII` in front of `EthBridge`

The mock is a MAC that sends one packet. Its thread waits for `start`, drives one byte after the other,
takes the flag down, and ends.

The thread is sensitive to the rising edges of the clock and to changes of `start`. It waits with
`wait(clk.posedge())`, but `posedge()` of a port is a bool, not an event: with the clock just risen this
is `wait(1)`, the next time that either happens, and otherwise it is `wait(0)`, which the kernel reports
as an error. So the thread gets through exactly if it runs at edges only, from the one that shows it
`start` on. The bridge behind it asks the socket at the second edge after that, and reports if the
socket refuses; otherwise it sends the packet once, whatever comes after (`gmii_sends_once`).
-/

namespace DeltaModels.Network

/-- A moment at which the clock rises or `start` changes: has the clock risen, the value of `start`, and
what `sendto` returns if it is called there. -/
structure Wake where
  posedge : Bool
  start : Bool
  sendLen : Int
  errno : Int
  deriving DecidableEq, Repr

/-- Where `send_pkt` waits: for `start`, in the loop or behind it with `i` bytes sent, or for the last
time. -/
inductive GmiiPc where
  | polling
  | sending (i : Nat)
  | closing
  | done
  deriving DecidableEq, Repr

/-- The thread, and the two signals that it drives. -/
structure Gmii where
  pc : GmiiPc
  txNewPkt : Signal Bool
  txPkt : Signal (BitVec 8)

def Gmii.init : Gmii := ⟨.polling, ⟨false, false⟩, ⟨0, 0⟩⟩

/-- The report of `wait(0)`. -/
def waitInvalid : Fault := .report "wait(n) is only valid for n > 0" "n = 0"

/-- `wait(clk.posedge())`, and where the thread is then. -/
def Gmii.waitPosedge (g : Gmii) (w : Wake) (pc : GmiiPc) : Except Fault Gmii :=
  if w.posedge then .ok { g with pc := pc } else .error waitInvalid

/-- `MockGMII::send_pkt` from one wait to the next. -/
def sendPkt (pkt : List (BitVec 8)) (g : Gmii) (w : Wake) : Except Fault Gmii :=
  match g.pc with
  | .polling =>
    if w.start then { g with txPkt := g.txPkt.write 0 }.waitPosedge w (.sending 0) else .ok g
  | .sending i =>
    if h : i < pkt.length then
      { g with
        txNewPkt := g.txNewPkt.write true
        txPkt := g.txPkt.write pkt[i] }.waitPosedge w (.sending (i + 1))
    else { g with txNewPkt := g.txNewPkt.write false }.waitPosedge w .closing
  | .closing => .ok { g with pc := .done }
  | .done => .ok g

/-- The update phase of the kernel. -/
def Gmii.update (g : Gmii) : Gmii :=
  { g with txNewPkt := g.txNewPkt.update, txPkt := g.txPkt.update }

/-- What the bridge samples. -/
def Gmii.sample (g : Gmii) : Bool × BitVec 8 := (g.txNewPkt.read, g.txPkt.read)

/-- The transmitter of the bridge at an edge: `pack`, and `transmit` if it has been spawned. A report
ends the simulation. -/
def packAndTransmit (s : Tx) (sample : Bool × BitVec 8) (w : Wake) :
    Option (Tx × Option (List (BitVec 8))) :=
  match packer.step s sample with
  | none => none
  | some (tx, none) => some (tx, none)
  | some (tx, some packet) =>
    match transmit tx w.sendLen w.errno with
    | .error _ => none
    | .ok tx => some (tx, some packet)

/-- The mock and the transmitter of the bridge. The transmitter runs at the edges of the clock; both see
the signals as they were before. The log is what is sent. -/
def gmiiBridge (pkt : List (BitVec 8)) : Guarded Wake (Gmii × Tx) (List (BitVec 8)) where
  step s w :=
    match sendPkt pkt s.1 w with
    | .error _ => none
    | .ok g =>
      if w.posedge then
        (packAndTransmit s.2 s.1.sample w).map fun (tx, o) => ((g.update, tx), o)
      else some ((g.update, s.2), none)

/-- The wakes from the first one that shows `start`. -/
def fromStart (wakes : List Wake) : List Wake := wakes.dropWhile fun w => !w.start

/-- The wakes at which the thread waits with `wait(clk.posedge())`. -/
def busy (pkt : List (BitVec 8)) (wakes : List Wake) : List Wake :=
  (fromStart wakes).take (pkt.length + 2)

/-- The edges of the clock after those. -/
def edgesAfter (pkt : List (BitVec 8)) (wakes : List Wake) : List Wake :=
  ((fromStart wakes).drop (pkt.length + 2)).filter Wake.posedge


/-! ## Where the run stands -/

section Stages

variable {pkt : List (BitVec 8)} {s : Gmii × Tx} {w : Wake} {f : Framer (BitVec 8)}

/-- What the bridge has collected when `i` bytes have been written: the last one is still on its way. -/
def collected (pkt : List (BitVec 8)) (i : Nat) : Framer (BitVec 8) :=
  if i ≤ 1 then .idle else .collecting (pkt.take (i - 1))

/-- Nothing has happened yet. -/
structure Polling (s : Gmii × Tx) : Prop where
  gmii : s.1 = Gmii.init
  framer : s.2.framer = .idle

/-- `i` bytes have been written. -/
structure Sending (pkt : List (BitVec 8)) (i : Nat) (s : Gmii × Tx) : Prop where
  pc : s.1.pc = .sending i
  le : i ≤ pkt.length
  flag : s.1.txNewPkt = ⟨decide (0 < i), decide (0 < i)⟩
  byte : 0 < i → pkt[i - 1]? = some s.1.txPkt.read
  framer : s.2.framer = collected pkt i

/-- The flag is down for good, and the framer is where it says. -/
structure Ended (f : Framer (BitVec 8)) (s : Gmii × Tx) : Prop where
  pc : s.1.pc = .closing ∨ s.1.pc = .done
  flag : s.1.txNewPkt = ⟨false, false⟩
  framer : s.2.framer = f

/-- Where the clock does not rise, the bridge does not run. -/
theorem step_of_not_posedge {g : Gmii} (hg : sendPkt pkt s.1 w = .ok g) (hw : w.posedge = false) :
    (gmiiBridge pkt).step s w = some ((g.update, s.2), none) := by
  simp only [gmiiBridge, hg, hw, Bool.false_eq_true, if_false]

/-- At an edge the bridge does with the sample what the framer does, if the socket takes a packet that is
due. -/
theorem step_of_posedge {g : Gmii} (hg : sendPkt pkt s.1 w = .ok g) (hw : w.posedge = true)
    (hfits : s.1.sample.1 = true → s.2.framer.held.length < MAX_BUF_SIZE)
    (htakes : s.2.framer.outbox ≠ [] → 0 ≤ w.sendLen) :
    ∃ tx o, (gmiiBridge pkt).step s w = some ((g.update, tx), o) ∧ o.toList = s.2.framer.outbox ∧
      tx.framer = s.2.framer.step s.1.sample := by
  obtain ⟨tx, o, hstep, ho, htx, -⟩ := packer_step hfits
  cases o with
  | none =>
    refine ⟨tx, none, ?_, ho, htx⟩
    simp only [gmiiBridge, hg, hw, if_true, packAndTransmit, hstep, Option.map_some]
  | some packet =>
    have htaken : ¬ w.sendLen < 0 := Int.not_lt.mpr (htakes (by simp [← ho]))
    refine ⟨{ tx with txPktCnt := tx.txPktCnt + 1 }, some packet, ?_, ho, htx⟩
    simp only [gmiiBridge, hg, hw, if_true, packAndTransmit, hstep, transmit, if_neg htaken,
      Option.map_some]

/-- A packet that is due and that the socket refuses is reported. -/
theorem step_of_refusal {g : Gmii} (hg : sendPkt pkt s.1 w = .ok g) (hw : w.posedge = true)
    (hfits : s.1.sample.1 = true → s.2.framer.held.length < MAX_BUF_SIZE)
    (hdue : s.2.framer.outbox ≠ []) (hrefused : w.sendLen < 0) :
    (gmiiBridge pkt).step s w = none := by
  obtain ⟨tx, o, hstep, ho, -, -⟩ := packer_step hfits
  cases o with
  | none => exact absurd ho.symm hdue
  | some packet =>
    simp only [gmiiBridge, hg, hw, if_true, packAndTransmit, hstep, transmit, if_pos hrefused,
      Option.map_none]

/-- A thread that waits with `wait(clk.posedge())` off an edge stops the run. -/
theorem step_of_report (hs : sendPkt pkt s.1 w = .error waitInvalid) :
    (gmiiBridge pkt).step s w = none := by
  simp only [gmiiBridge, hs]

/-- With the flag down nothing is offered to the framer. -/
theorem sample_of_flag_down (hflag : s.1.txNewPkt = ⟨false, false⟩) :
    s.1.sample = (false, s.1.sample.2) := by
  rw [Gmii.sample, hflag]
  rfl

theorem fits_of_flag_down (hflag : s.1.txNewPkt = ⟨false, false⟩) (h : s.1.sample.1 = true) :
    s.2.framer.held.length < MAX_BUF_SIZE := by
  rw [sample_of_flag_down hflag] at h
  exact absurd h Bool.false_ne_true

/-- With the flag down the framer collects nothing. -/
theorem step_of_flag_down {g : Gmii} (hg : sendPkt pkt s.1 w = .ok g)
    (hflag : s.1.txNewPkt = ⟨false, false⟩) (hframer : s.2.framer = f)
    (htakes : w.posedge = true → f.outbox ≠ [] → 0 ≤ w.sendLen) :
    ∃ tx o, (gmiiBridge pkt).step s w = some ((g.update, tx), o) ∧
      o.toList = (if w.posedge then f.outbox else []) ∧
      tx.framer = if w.posedge then f.step (false, s.1.sample.2) else f := by
  cases hw : w.posedge with
  | false => exact ⟨s.2, none, step_of_not_posedge hg hw, rfl, hframer⟩
  | true =>
    obtain ⟨tx, o, hstep, ho, htx⟩ := step_of_posedge hg hw (fits_of_flag_down hflag)
      (hframer ▸ htakes hw)
    rw [hframer, sample_of_flag_down hflag] at htx
    rw [hframer] at ho
    exact ⟨tx, o, hstep, ho, htx⟩

/-! ## From stage to stage -/

theorem polling_init : Polling (Gmii.init, Tx.init) := ⟨rfl, rfl⟩

/-- Without `start` nothing happens. -/
theorem Polling.stay (pkt : List (BitVec 8)) (h : Polling s) (hw : w.start = false) :
    ∃ s', (gmiiBridge pkt).step s w = some (s', none) ∧ Polling s' := by
  have hg : sendPkt pkt s.1 w = .ok Gmii.init := by
    rw [h.gmii]
    simp only [sendPkt, Gmii.init, hw, Bool.false_eq_true, if_false]
  have hflag : s.1.txNewPkt = ⟨false, false⟩ := by rw [h.gmii]; rfl
  obtain ⟨tx, o, hstep, ho, htx⟩ := step_of_flag_down hg hflag h.framer fun _ => absurd rfl
  obtain rfl : o = none := Option.toList_eq_nil_iff.mp (ho.trans (ite_self _))
  exact ⟨_, hstep, rfl, htx.trans (ite_self _)⟩

/-- `start` at an edge: the thread is about to send. -/
theorem Polling.start (pkt : List (BitVec 8)) (h : Polling s) (hw : w.start = true) (hedge : w.posedge = true) :
    ∃ s', (gmiiBridge pkt).step s w = some (s', none) ∧ Sending pkt 0 s' := by
  have hg : sendPkt pkt s.1 w
      = .ok ⟨.sending 0, ⟨false, false⟩, ⟨0, 0⟩⟩ := by
    rw [h.gmii]
    simp only [sendPkt, Gmii.init, hw, if_true, Gmii.waitPosedge, hedge]
    rfl
  have hflag : s.1.txNewPkt = ⟨false, false⟩ := by rw [h.gmii]; rfl
  obtain ⟨tx, o, hstep, ho, htx⟩ := step_of_flag_down hg hflag h.framer fun _ => absurd rfl
  obtain rfl : o = none := Option.toList_eq_nil_iff.mp (ho.trans (ite_self _))
  exact ⟨_, hstep, rfl, Nat.zero_le _, rfl, fun hpos => absurd hpos (Nat.lt_irrefl 0),
    htx.trans (ite_self _)⟩

/-- `start` between two edges is reported. -/
theorem Polling.report (h : Polling s) (hw : w.start = true) (hedge : w.posedge = false) :
    (gmiiBridge pkt).step s w = none := by
  refine step_of_report ?_
  rw [h.gmii]
  simp only [sendPkt, Gmii.init, hw, if_true, Gmii.waitPosedge, hedge, Bool.false_eq_true, if_false]

/-- The bridge collects the byte on its way. -/
theorem Sending.framer_step {i : Nat} (h : Sending pkt i s) :
    s.2.framer.step s.1.sample = collected pkt (i + 1) ∧ s.2.framer.outbox = [] := by
  have hflag : s.1.sample.1 = decide (0 < i) := by
    rw [Gmii.sample, h.flag]
    rfl
  rw [h.framer]
  cases i with
  | zero => exact ⟨by simp [collected, Framer.step, hflag], rfl⟩
  | succ j =>
    have htake : pkt.take (j + 1) = pkt.take j ++ [s.1.sample.2] := by
      rw [List.take_add_one, ← Nat.add_sub_cancel j 1, h.byte (Nat.succ_pos j)]
      rfl
    cases j with
    | zero => exact ⟨by simp [collected, Framer.step, hflag, htake], rfl⟩
    | succ j => exact ⟨by simp [collected, Framer.step, hflag, htake], rfl⟩

theorem Sending.fits {i : Nat} (h : Sending pkt i s) (hpkt : pkt.length ≤ MAX_BUF_SIZE)
    (_ : s.1.sample.1 = true) : s.2.framer.held.length < MAX_BUF_SIZE := by
  have hle := h.le
  rw [h.framer, collected]
  split
  · decide
  · rw [Framer.held, List.length_take]
    omega

/-- The next byte goes out. -/
theorem Sending.next {i : Nat} (h : Sending pkt i s) (hi : i < pkt.length)
    (hpkt : pkt.length ≤ MAX_BUF_SIZE) (hedge : w.posedge = true) :
    ∃ s', (gmiiBridge pkt).step s w = some (s', none) ∧ Sending pkt (i + 1) s' := by
  have hg : sendPkt pkt s.1 w = .ok ⟨.sending (i + 1), s.1.txNewPkt.write true,
      s.1.txPkt.write pkt[i]⟩ := by
    simp only [sendPkt, h.pc, dif_pos hi, Gmii.waitPosedge, hedge, if_true]
  obtain ⟨hstep', hout⟩ := h.framer_step
  obtain ⟨tx, o, hstep, ho, htx⟩ := step_of_posedge hg hedge (h.fits hpkt) fun hdue => absurd hout hdue
  obtain rfl : o = none := Option.toList_eq_nil_iff.mp (ho.trans hout)
  refine ⟨_, hstep, rfl, hi, ?_, fun _ => List.getElem?_eq_getElem hi, htx.trans hstep'⟩
  simp [Gmii.update, Signal.update, Signal.write]

/-- After the last byte the flag goes down. -/
theorem Sending.last (h : Sending pkt pkt.length s) (hpkt : pkt.length ≤ MAX_BUF_SIZE)
    (hedge : w.posedge = true) :
    ∃ s', (gmiiBridge pkt).step s w = some (s', none) ∧ Ended (collected pkt (pkt.length + 1)) s' := by
  have hg : sendPkt pkt s.1 w = .ok ⟨.closing, s.1.txNewPkt.write false, s.1.txPkt⟩ := by
    simp only [sendPkt, h.pc, dif_neg (Nat.lt_irrefl _), Gmii.waitPosedge, hedge, if_true]
  obtain ⟨hstep', hout⟩ := h.framer_step
  obtain ⟨tx, o, hstep, ho, htx⟩ := step_of_posedge hg hedge (h.fits hpkt) fun hdue => absurd hout hdue
  obtain rfl : o = none := Option.toList_eq_nil_iff.mp (ho.trans hout)
  exact ⟨_, hstep, .inl rfl, rfl, htx.trans hstep'⟩

/-- A thread that is woken between two edges while it sends is reported. -/
theorem Sending.report {i : Nat} (h : Sending pkt i s) (hedge : w.posedge = false) :
    (gmiiBridge pkt).step s w = none := by
  refine step_of_report ?_
  simp only [sendPkt, h.pc, Gmii.waitPosedge, hedge, Bool.false_eq_true, if_false]
  split <;> rfl

theorem Ended.sendPkt (h : Ended f s) (w : Wake) :
    sendPkt pkt s.1 w = .ok { s.1 with pc := .done } := by
  rcases h.pc with hpc | hpc
  · simp only [Network.sendPkt, hpc]
  · simp only [Network.sendPkt, hpc]
    rw [← hpc]

/-- Once the flag is down for good, only the framer moves. -/
theorem Ended.step (pkt : List (BitVec 8)) (h : Ended f s) (htakes : w.posedge = true → f.outbox ≠ [] → 0 ≤ w.sendLen) :
    ∃ s' o, (gmiiBridge pkt).step s w = some (s', o) ∧
      o.toList = (if w.posedge then f.outbox else []) ∧
      Ended (if w.posedge then f.step (false, s.1.sample.2) else f) s' := by
  obtain ⟨tx, o, hstep, ho, htx⟩ := step_of_flag_down (h.sendPkt w) h.flag h.framer htakes
  refine ⟨_, o, hstep, ho, .inr rfl, ?_, htx⟩
  simp [Gmii.update, Signal.update, h.flag]

/-- A packet that the framer owes is reported if the socket refuses it. -/
theorem Ended.refused (h : Ended f s) (hedge : w.posedge = true) (hdue : f.outbox ≠ [])
    (hrefused : w.sendLen < 0) : (gmiiBridge pkt).step s w = none :=
  step_of_refusal (h.sendPkt w) hedge (fits_of_flag_down h.flag) (h.framer ▸ hdue) hrefused

/-! ## Runs -/

/-- What a framer hands over in `n` samples without a value. -/
def flushed (n : Nat) : Framer (BitVec 8) → List (List (BitVec 8))
  | .idle => []
  | .ready packet => if 1 ≤ n then [packet] else []
  | .collecting held => if 2 ≤ n then [held] else []

/-- The socket takes the packet that the framer hands over at the edges. -/
def Taken (edges : List Wake) : Framer (BitVec 8) → Prop
  | .idle => True
  | .ready _ => ∀ w ∈ edges[0]?, 0 ≤ w.sendLen
  | .collecting _ => ∀ w ∈ edges[1]?, 0 ≤ w.sendLen

/-- One sample more: what is handed over now, and what comes later. -/
theorem flushed_succ (n : Nat) (f : Framer (BitVec 8)) (b : BitVec 8) :
    flushed (n + 1) f = f.outbox ++ flushed n (f.step (false, b)) := by
  cases f with
  | idle => rfl
  | ready packet => simp [flushed, Framer.outbox, Framer.step]
  | collecting held => simp [flushed, Framer.outbox, Framer.step]

/-- One edge more: what is taken now, and what later. -/
theorem taken_cons (edges : List Wake) (f : Framer (BitVec 8)) (b : BitVec 8) :
    Taken (w :: edges) f ↔ (f.outbox ≠ [] → 0 ≤ w.sendLen) ∧ Taken edges (f.step (false, b)) := by
  cases f with
  | idle => simp [Taken, Framer.outbox, Framer.step]
  | ready packet => simp [Taken, Framer.outbox, Framer.step]
  | collecting held => simp [Taken, Framer.outbox, Framer.step]

/-- The run gets through exactly under a condition, and then this is what it sends. -/
structure GoesThrough (pkt : List (BitVec 8)) (s : Gmii × Tx) (wakes : List Wake) (C : Prop)
    (log : List (List (BitVec 8))) : Prop where
  stopped : ¬ C → (gmiiBridge pkt).run s wakes = none
  through : C → ∃ s', (gmiiBridge pkt).run s wakes = some (s', log)

section Steps

variable {wakes : List Wake} {C : Prop} {log : List (List (BitVec 8))}

theorem goesThrough_nil (hC : C) : GoesThrough pkt s [] C [] :=
  ⟨fun hnot => absurd hC hnot, fun _ => ⟨s, rfl⟩⟩

theorem goesThrough_cons {s₁ : Gmii × Tx} {o : Option (List (BitVec 8))}
    (hstep : (gmiiBridge pkt).step s w = some (s₁, o)) (h : GoesThrough pkt s₁ wakes C log) :
    GoesThrough pkt s (w :: wakes) C (o.toList ++ log) where
  stopped hnot := by simp only [Guarded.run, hstep, Option.bind_some, h.stopped hnot, Option.map_none]
  through hC := by
    obtain ⟨s', hrun⟩ := h.through hC
    exact ⟨s', Guarded.run_cons.mpr ⟨s₁, o, _, hstep, hrun, rfl⟩⟩

theorem goesThrough_stopped (hstep : (gmiiBridge pkt).step s w = none) (hnot : ¬ C) :
    GoesThrough pkt s (w :: wakes) C log where
  stopped _ := by rw [Guarded.run, hstep, Option.bind_none]
  through hC := absurd hC hnot

end Steps

/-- The packet that the framer still owes goes out at the edge where it is due, if the socket takes
it. -/
theorem Ended.run (h : Ended f s) (wakes : List Wake) :
    GoesThrough pkt s wakes (Taken (wakes.filter Wake.posedge) f)
      (flushed (wakes.filter Wake.posedge).length f) := by
  induction wakes generalizing s f with
  | nil => cases f <;> exact goesThrough_nil (by simp [Taken])
  | cons w wakes ih =>
    cases hedge : w.posedge with
    | false =>
      rw [List.filter_cons_of_neg (by simp [hedge])]
      obtain ⟨s₁, o, hstep, ho, h₁⟩ := h.step pkt (w := w) (by simp [hedge])
      simp only [hedge, Bool.false_eq_true, if_false] at ho h₁
      obtain rfl := Option.toList_eq_nil_iff.mp ho
      exact goesThrough_cons hstep (ih h₁)
    | true =>
      rw [List.filter_cons_of_pos hedge, List.length_cons, flushed_succ _ f s.1.sample.2,
        taken_cons _ f s.1.sample.2]
      by_cases htakes : f.outbox ≠ [] → 0 ≤ w.sendLen
      · obtain ⟨s₁, o, hstep, ho, h₁⟩ := h.step pkt fun _ => htakes
        simp only [hedge, if_true] at ho h₁
        rw [and_iff_right htakes, ← ho]
        exact goesThrough_cons hstep (ih h₁)
      · obtain ⟨hdue, hrefused⟩ := Classical.not_imp.mp htakes
        exact goesThrough_stopped (h.refused hedge hdue (Int.not_le.mp hrefused))
          fun hboth => htakes hboth.1

/-- While the thread sends, the wakes have to be edges: `n` is how many of its waits are left. -/
theorem Sending.run {i n : Nat} (h : Sending pkt i s) (hpkt : pkt.length ≤ MAX_BUF_SIZE)
    (hn : i + n = pkt.length + 1) (wakes : List Wake) :
    GoesThrough pkt s wakes
      ((∀ w ∈ wakes.take n, w.posedge = true) ∧
        Taken ((wakes.drop n).filter Wake.posedge) (collected pkt (pkt.length + 1)))
      (flushed ((wakes.drop n).filter Wake.posedge).length (collected pkt (pkt.length + 1))) := by
  induction n generalizing i s wakes with
  | zero =>
    have hle := h.le
    omega
  | succ n ih =>
    cases wakes with
    | nil =>
      simp only [List.take_nil, List.drop_nil, List.filter_nil, List.length_nil, collected]
      split <;> exact goesThrough_nil (by simp [Taken])
    | cons w wakes =>
      rw [List.take_succ_cons, List.drop_succ_cons, List.forall_mem_cons]
      cases hedge : w.posedge with
      | false => exact goesThrough_stopped (h.report hedge) (by simp)
      | true =>
        rw [and_iff_right rfl]
        by_cases hi : i < pkt.length
        · obtain ⟨s₁, hstep, h₁⟩ := h.next hi hpkt hedge
          exact goesThrough_cons hstep (ih h₁ (by omega) wakes)
        -- the flag goes down, and the thread waits once more
        · obtain rfl : i = pkt.length := Nat.le_antisymm h.le (Nat.not_lt.mp hi)
          obtain rfl : n = 0 := by omega
          obtain ⟨s₁, hstep, h₁⟩ := h.last hpkt hedge
          simp only [List.take_zero, List.drop_zero, List.not_mem_nil, false_imp_iff, implies_true,
            true_and]
          exact goesThrough_cons hstep (h₁.run wakes)

/-- From the start on, the wakes that keep the thread waiting have to be edges. -/
theorem Polling.run (h : Polling s) (hpkt : pkt.length ≤ MAX_BUF_SIZE) (wakes : List Wake) :
    GoesThrough pkt s wakes
      ((∀ w ∈ busy pkt wakes, w.posedge = true) ∧
        Taken (edgesAfter pkt wakes) (collected pkt (pkt.length + 1)))
      (flushed (edgesAfter pkt wakes).length (collected pkt (pkt.length + 1))) := by
  induction wakes generalizing s with
  | nil =>
    simp only [busy, edgesAfter, fromStart, List.dropWhile_nil, List.take_nil, List.drop_nil,
      List.filter_nil, List.length_nil, collected]
    split <;> exact goesThrough_nil (by simp [Taken])
  | cons w wakes ih =>
    cases hw : w.start with
    | false =>
      obtain ⟨s₁, hstep, h₁⟩ := h.stay pkt hw
      have hskip : fromStart (w :: wakes) = fromStart wakes :=
        List.dropWhile_cons_of_pos (by rw [hw]; rfl)
      rw [busy, edgesAfter, hskip]
      exact goesThrough_cons hstep (ih h₁)
    | true =>
      have hhere : fromStart (w :: wakes) = w :: wakes :=
        List.dropWhile_cons_of_neg (by rw [hw]; decide)
      rw [busy, edgesAfter, hhere, List.take_succ_cons, List.drop_succ_cons, List.forall_mem_cons]
      cases hedge : w.posedge with
      | false => exact goesThrough_stopped (h.report hw hedge) (by simp)
      | true =>
        obtain ⟨s₁, hstep, h₁⟩ := h.start pkt hw hedge
        rw [and_iff_right rfl]
        exact goesThrough_cons hstep (h₁.run hpkt (Nat.zero_add _) wakes)

end Stages

/-- **The mock sends its packet once, or stops the simulation.** In every run of the mock and the bridge,
for every packet that fits the buffer: the run gets through if and only if the thread is woken at edges
only, from the one that shows it `start` until it has taken the flag down again and waited, and the
socket does not refuse the packet at the second edge after that (an empty packet is not sent). Then
nothing has been sent but this packet, and it has been sent once, if that edge has come. -/
theorem gmii_sends_once (pkt : List (BitVec 8)) (hpkt : pkt.length ≤ MAX_BUF_SIZE)
    (wakes : List Wake) :
    (((gmiiBridge pkt).run (Gmii.init, Tx.init) wakes).isSome ↔
      (∀ w ∈ busy pkt wakes, w.posedge = true) ∧
        (pkt ≠ [] → ∀ w ∈ (edgesAfter pkt wakes)[1]?, 0 ≤ w.sendLen)) ∧
    ∀ s log, (gmiiBridge pkt).run (Gmii.init, Tx.init) wakes = some (s, log) →
      log = if pkt ≠ [] ∧ 2 ≤ (edgesAfter pkt wakes).length then [pkt] else [] := by
  have hrun := polling_init.run hpkt wakes
  have hlog : flushed (edgesAfter pkt wakes).length (collected pkt (pkt.length + 1))
      = if pkt ≠ [] ∧ 2 ≤ (edgesAfter pkt wakes).length then [pkt] else [] := by
    cases pkt with
    | nil => rfl
    | cons b bs => simp [collected, flushed]
  have htaken : Taken (edgesAfter pkt wakes) (collected pkt (pkt.length + 1)) ↔
      (pkt ≠ [] → ∀ w ∈ (edgesAfter pkt wakes)[1]?, 0 ≤ w.sendLen) := by
    cases pkt with
    | nil => simp [collected, Taken]
    | cons b bs => simp [collected, Taken]
  rw [hlog, htaken] at hrun
  by_cases hall : (∀ w ∈ busy pkt wakes, w.posedge = true) ∧
      (pkt ≠ [] → ∀ w ∈ (edgesAfter pkt wakes)[1]?, 0 ≤ w.sendLen)
  · obtain ⟨s', hs'⟩ := hrun.through hall
    rw [hs']
    exact ⟨iff_of_true rfl hall, fun s log h => (Prod.mk.inj (Option.some.inj h)).2.symm⟩
  · rw [hrun.stopped hall]
    exact ⟨iff_of_false (by simp) hall, fun s log h => by cases h⟩

/-- Edges at which the socket takes what it is given: one without `start`, `up` with it, and then
`down` without. -/
def startedFor (up down : Nat) : List Wake :=
  ⟨true, false, 0, 0⟩ :: List.replicate up ⟨true, true, 0, 0⟩ ++
    List.replicate down ⟨true, false, 0, 0⟩

/-- A packet of two bytes, with `start` up from the second edge on for a while. -/
theorem gmii_sends_two_bytes :
    ((gmiiBridge [0x45, 0x13]).run (Gmii.init, Tx.init) (startedFor 2 6)).map Prod.snd
      = some [[0x45, 0x13]] := by
  obtain ⟨hthrough, hlog⟩ := gmii_sends_once [0x45, 0x13] (by decide) (startedFor 2 6)
  obtain ⟨⟨s, log⟩, hrun⟩ := Option.isSome_iff_exists.mp (hthrough.mpr (by decide))
  rw [hrun]
  exact congrArg some ((hlog s log hrun).trans (if_pos (by decide)))

end DeltaModels.Network
