import DeltaModels.Tlm.Sharing
import DeltaModels.Tlm.Termination

/-!
# What an OK response says about the payload

A call that does not stream has one beat, and a beat moves four bytes whatever the length is: it sends
or fills the first four positions of the buffer, and the response is OK. It takes the enables of a write
from the first four places of the enable array, however long that array is.

`Moved` is what OK ought to mean: the positions below the length were moved and no other ones. And only
operations of 32 bits are supported, so nothing else ought to be answered with OK. `okMeansMoved_iff`
says for which payloads OK means that.
-/

namespace DeltaModels.Tlm

open Wishbone

variable {AWIDTH : Nat}

/-- The requests that were acknowledged in a run, each with the word that came back. -/
def transfers (log : List (Sample AWIDTH)) : List (Request AWIDTH × BitVec 32) :=
  log.flatMap fun x => ackedAt x.bus x.slave

/-- The byte that a run sent for buffer position `j`: position `j` belongs to the request `j / 4`, and
there to lane `3 - j % 4`. -/
def sentByte (log : List (Sample AWIDTH)) (j : Nat) : Option (BitVec 8) :=
  (transfers log)[j / 4]?.bind fun (r, _) =>
    if r.weO && r.selO.getLsbD (3 - j % 4) then some (Lanes.lane r.datO (3 - j % 4)) else none

/-- The bytes that a run read, in the order of the buffer. -/
def readBytes (log : List (Sample AWIDTH)) : List (BitVec 8) :=
  (transfers log).flatMap fun (_, d) =>
    [Lanes.lane d 3, Lanes.lane d 2, Lanes.lane d 1, Lanes.lane d 0]

/-- Does buffer position `j` take part in a write? An enable array of `enables` bytes is repeated as
often as it takes; an empty one enables nothing. -/
def Call.enabled (c : Call) (enables j : Nat) : Bool :=
  (c.trans.byteEnablePtr.isNone || enables != 0) &&
    byteEnabled c.host c.trans.byteEnablePtr (j % enables)

/-- The payload was moved, no more and no less. A write sends the enabled bytes below the length and
selects no other lane; a read fills the buffer up to the length and touches nothing else. -/
def Moved (c : Call) (enables : Nat) (log : List (Sample AWIDTH)) (host : Host) : Prop :=
  if c.trans.command = .write then
    host = c.host ∧ ∀ j, sentByte log j
      = if j < c.trans.dataLength.toNat ∧ c.enabled enables j
        then some (c.host (c.trans.dataPtr + j)) else none
  else
    c.trans.dataLength.toNat ≤ (readBytes log).length ∧
    host = (Patch.span c.trans.dataPtr ((readBytes log).take c.trans.dataLength.toNat)).apply c.host

/-- Some call of the run was answered with OK. -/
def AnsweredOk (log : List (Sample AWIDTH)) : Prop :=
  ∃ x ∈ log, ∃ answer, x.answer = some answer ∧ answer.responseStatus = .ok

/-- Under every slave that acknowledges every request, an OK means that the length is supported and the
payload was moved. -/
def OkMeansMoved (p : Port AWIDTH) (c : Call) (enables : Nat) : Prop :=
  ∀ w, Acknowledges p c w → ∀ n q log, (port AWIDTH).run p (callEdges c w n) = some (q, log) →
    AnsweredOk log → c.trans.dataLength = 4 ∧ Moved c enables log q.host

/-- The payload is what one beat moves: it has four bytes, and the enables of a write are those in the
first four places of the array. -/
structure FillsBeat (c : Call) (enables : Nat) : Prop where
  length : c.trans.dataLength = 4
  enables : c.trans.command = .write → ∀ j < 4,
    c.enabled enables j = byteEnabled c.host c.trans.byteEnablePtr j

/-! ## One beat -/

variable {p q : Port AWIDTH} {c : Call} {i : Slave} {answer : Option Payload}
  {log : List (Sample AWIDTH)} {is : List Slave}

/-- The only beat of the call `c` is under way. -/
structure Port.OneBeat (c : Call) (p : Port AWIDTH) : Prop where
  tidy : p.Tidy
  caller : p.caller = some c.trans
  host : p.host = c.host
  ptr : p.adapter.ptr = c.trans.dataPtr
  byt : p.adapter.byt = c.trans.byteEnablePtr
  adr : p.adapter.adr = c.trans.address >>> 2
  wid : p.adapter.wid = p.adapter.len
  request : p.adapter.state = .waitingForAck → OwnRequest c.trans c.host p.adapter.out.request

/-- The call `c` has been answered: its request was acknowledged with `d`. -/
structure BeatDone (c : Call) (d : BitVec 32) (q : Port AWIDTH) (log : List (Sample AWIDTH)) :
    Prop where
  host : q.host = ownResult c.trans c.host d
  transfers : ∃ r, OwnRequest c.trans c.host r ∧ transfers log = [(r, d)]
  answered : AnsweredOk log

/-- The request that goes out is the call's own. -/
theorem Port.OneBeat.issue (h : p.OneBeat c) :
    OwnRequest c.trans c.host (p.adapter.issue p.host c.trans.command).out.request where
  adr := by
    show p.adapter.adr.setWidth AWIDTH = _
    rw [h.adr]
  we := rfl
  dat hcmd := by
    show (if c.trans.command = .write then datOut p.host p.adapter.ptr else _) = _
    rw [if_pos hcmd, h.host, h.ptr]
  sel hcmd := by
    show (if c.trans.command = .write then selOut p.host p.adapter.byt else _) = _
    rw [if_pos hcmd, h.host, h.byt]

/-- **Step lemma**: an edge of the beat leaves it under way, with nothing acknowledged, or ends it. -/
theorem Port.OneBeat.edge (h : p.OneBeat c) (he : EdgeOf p i q answer) :
    answer = none ∧ ackedAt p.adapter.out i = [] ∧ q.OneBeat c ∨
    answer = some { c.trans with responseStatus := .ok } ∧ q.AtRest ∧
      q.host = ownResult c.trans c.host i.datI ∧
      ∃ r, OwnRequest c.trans c.host r ∧ ackedAt p.adapter.out i = [(r, i.datI)] := by
  have hq := he.tidy h.tidy
  cases he with
  | rest free => exact absurd (h.caller.symm.trans free) (by simp)
  | issue caller state =>
    obtain rfl := Option.some.inj (h.caller.symm.trans caller)
    have hstb : p.adapter.out.stbO = false := by
      rw [h.tidy.stb, state]
      exact decide_eq_false (execState_ne _).2
    exact .inl ⟨rfl, ackedAt_of_stb hstb i,
      hq, caller, h.host, h.ptr, h.byt, h.adr, h.wid, fun _ => h.issue⟩
  | stall caller state quiet =>
    exact .inl ⟨rfl, by simp [ackedAt, quiet],
      hq, h.caller, h.host, h.ptr, h.byt, h.adr, h.wid, h.request⟩
  | next _ _ _ _ more => exact absurd h.wid more
  | last caller state ack =>
    obtain rfl := Option.some.inj (h.caller.symm.trans caller)
    have hwnr : p.adapter.wnr = decide (c.trans.command = .write) := by
      rcases h.tidy.busy _ h.caller with hexec | ⟨-, hwnr⟩
      · exact absurd (hexec.symm.trans state) (execState_ne _).2
      · exact hwnr
    have hstb : p.adapter.out.stbO = true := by rw [h.tidy.stb, state]; rfl
    refine .inr ⟨rfl, hq.atRest rfl, ?_, _, h.request state, ?_⟩
    · show p.received i = _
      simp only [Port.received, ownResult, hwnr, h.host, h.ptr, decide_eq_true_eq]
    · simp [ackedAt, hstb, h.tidy.cyc, ack]

theorem transfers_append (log log' : List (Sample AWIDTH)) :
    transfers (log ++ log') = transfers log ++ transfers log' := List.flatMap_append

/-- **Run lemma**: a run of edges leaves the beat under way, with nothing acknowledged and no answer,
or it has ended it. -/
theorem Port.OneBeat.run (h : p.OneBeat c)
    (hrun : (port AWIDTH).run p (edges is) = some (q, log)) :
    (q.OneBeat c ∧ transfers log = [] ∧ ¬ AnsweredOk log) ∨ ∃ i ∈ is, BeatDone c i.datI q log := by
  induction is generalizing p log with
  | nil =>
    obtain ⟨rfl, rfl⟩ := Guarded.run_nil.mp hrun
    exact .inl ⟨h, rfl, by simp [AnsweredOk]⟩
  | cons i is ih =>
    obtain ⟨p', o, os, hstep, hrest, rfl⟩ := Guarded.run_cons.mp hrun
    obtain ⟨answer, hedge, rfl⟩ := event_edge hstep
    rw [Option.toList_some, transfers_append]
    rcases h.edge (h.tidy.edge hedge) with ⟨rfl, hacked, hp'⟩ | ⟨rfl, hp', hhost, r, hr, hacked⟩
    · -- the beat goes on
      have hnone : ∀ x, transfers [(⟨p.adapter.out, i, p.caller, x, none⟩ : Sample AWIDTH)] = [] := by
        intro x
        simp [transfers, hacked]
      rw [hnone, List.nil_append]
      rcases ih hp' hrest with ⟨hq, hos, hquiet⟩ | ⟨j, hj, hdone⟩
      · refine .inl ⟨hq, hos, ?_⟩
        rintro ⟨x, hx, a, ha, hok⟩
        rcases List.mem_append.mp hx with hx | hx
        · obtain rfl := List.mem_singleton.mp hx
          cases ha
        · exact hquiet ⟨x, hx, a, ha, hok⟩
      · obtain ⟨x, hx, hanswer⟩ := hdone.answered
        obtain ⟨r, hr, htransfers⟩ := hdone.transfers
        refine .inr ⟨j, List.mem_cons_of_mem _ hj, hdone.host, ⟨r, hr, ?_⟩, x, by simp [hx], hanswer⟩
        rw [transfers_append, hnone, List.nil_append, htransfers]
    · -- the beat ends here, and nothing comes after it
      obtain ⟨rfl, hquiet⟩ := hp'.run_edges hrest
      have hos : transfers os = [] :=
        List.flatMap_eq_nil_iff.mpr fun x hx => ackedAt_of_stb (hquiet x hx).stb _
      have hanswered : AnsweredOk ((some (Sample.mk p.adapter.out i p.caller
          (issued p.adapter.out q.adapter.out) (some { c.trans with responseStatus := .ok }))).toList
            ++ os) := ⟨_, List.mem_append_left _ (List.mem_singleton.mpr rfl), _, rfl, rfl⟩
      refine .inr ⟨i, by simp, hhost, ⟨r, hr, ?_⟩, hanswered⟩
      rw [transfers_append, hos, List.append_nil]
      simpa [transfers] using hacked

/-! ## What was moved -/

variable {d : BitVec 32} {r : Request AWIDTH}

/-- A write sends the enabled bytes among the first four. -/
theorem sentByte_eq (hcmd : c.trans.command = .write) (hr : OwnRequest c.trans c.host r)
    (ht : transfers log = [(r, d)]) (j : Nat) :
    sentByte log j = if j < 4 ∧ byteEnabled c.host c.trans.byteEnablePtr j
      then some (c.host (c.trans.dataPtr + j)) else none := by
  have hwe : r.weO = true := by rw [hr.we, hcmd]; rfl
  rcases Nat.lt_or_ge j 4 with hj | hj
  · have hdiv : j / 4 = 0 := by omega
    have hmod : j % 4 = j := by omega
    rw [sentByte, ht, hdiv, hmod]
    simp only [List.getElem?_cons_zero, Option.bind_some, hwe, Bool.true_and, hr.dat hcmd,
      hr.sel hcmd, getLsbD_selOut _ _ hj, lane_datOut _ _ hj, hj, true_and]
  · have hdiv : j / 4 ≠ 0 := by omega
    have hnone : [(r, d)][j / 4]? = none := List.getElem?_eq_none (by simp; omega)
    have hbeyond : ¬ (j < 4 ∧ byteEnabled c.host c.trans.byteEnablePtr j = true) := by omega
    rw [sentByte, ht, hnone, if_neg hbeyond]
    rfl

/-- An answered write of four bytes was moved exactly when its enables are where the adapter looks. -/
theorem moved_write_iff (hcmd : c.trans.command = .write) (h : BeatDone c d q log)
    (hlen : c.trans.dataLength = 4) (enables : Nat) :
    Moved c enables log q.host ↔
      ∀ j < 4, c.enabled enables j = byteEnabled c.host c.trans.byteEnablePtr j := by
  obtain ⟨r, hr, ht⟩ := h.transfers
  have hhost : q.host = c.host := h.host.trans (if_pos hcmd)
  have hnat : c.trans.dataLength.toNat = 4 := by rw [hlen]; rfl
  simp only [Moved, if_pos hcmd, hhost, true_and, sentByte_eq hcmd hr ht, hnat]
  refine forall_congr' fun j => ?_
  by_cases hj : j < 4
  · cases c.enabled enables j <;> cases byteEnabled c.host c.trans.byteEnablePtr j <;> simp [hj]
  · simp [hj]

theorem readBytes_eq (ht : transfers log = [(r, d)]) :
    readBytes log = [Lanes.lane d 3, Lanes.lane d 2, Lanes.lane d 1, Lanes.lane d 0] := by
  simp [readBytes, ht]

/-- An answered read of four bytes was moved. -/
theorem moved_read (hcmd : c.trans.command ≠ .write) (h : BeatDone c d q log)
    (hlen : c.trans.dataLength = 4) (enables : Nat) : Moved c enables log q.host := by
  obtain ⟨r, -, ht⟩ := h.transfers
  have hnat : c.trans.dataLength.toNat = 4 := by rw [hlen]; rfl
  rw [Moved, if_neg hcmd, readBytes_eq ht, hnat, h.host, ownResult, if_neg hcmd]
  exact ⟨Nat.le_refl 4, rfl⟩

/-- A read of another length was not, if every byte that came back is new to the buffer. -/
theorem not_moved_read (hcmd : c.trans.command ≠ .write)
    (hnew : ∀ j < 4, Lanes.lane d (3 - j) ≠ c.host (c.trans.dataPtr + j)) (h : BeatDone c d q log)
    (hlen : c.trans.dataLength ≠ 4) (enables : Nat) : ¬ Moved c enables log q.host := by
  obtain ⟨r, -, ht⟩ := h.transfers
  rw [Moved, if_neg hcmd, readBytes_eq ht, h.host, ownResult, if_neg hcmd]
  rintro ⟨hfilled, hhost⟩
  have hne : c.trans.dataLength.toNat ≠ 4 := fun heq => hlen (BitVec.eq_of_toNat_eq heq)
  have hlt : c.trans.dataLength.toNat < 4 := Nat.lt_of_le_of_ne hfilled hne
  -- the first position beyond the length was overwritten
  have hat := congrFun hhost (c.trans.dataPtr + c.trans.dataLength.toNat)
  rw [storeWord_apply _ _ _ hlt, Patch.apply_of_none] at hat
  · exact hnew _ hlt hat
  · rw [Patch.span, if_pos (Nat.le_add_right _ _), Nat.add_sub_cancel_left]
    exact List.getElem?_eq_none (by rw [List.length_take]; exact Nat.min_le_left _ _)

/-- The one beat of a call that does not stream. -/
theorem Port.AtRest.oneBeat (h : p.AtRest) (hwid : c.trans.streamingWidth = c.trans.dataLength) :
    (p.begun c).OneBeat c :=
  ⟨h.tidy_begun c, rfl, rfl, rfl, rfl, rfl, p.adapter.wid_load (.inl hwid),
    fun hwait => absurd hwait (execState_ne _).2⟩

/-- Under a slave that always acknowledges with the word `d` the call is answered. -/
theorem beat_answered (h : p.AtRest) (ht : 1 < p.adapter.timeout) (hcmd : c.trans.command ≠ .ignore)
    (hwid : c.trans.streamingWidth = c.trans.dataLength) (d : BitVec 32) :
    ∃ n q log, (port AWIDTH).run p (callEdges c (fun _ => ⟨true, d⟩) n) = some (q, log) ∧
      BeatDone c d q log := by
  have hacks := acknowledges_always h ht c hcmd d
  have hone : countedWidth c.trans = BitVec.ofNat 32 (0 + 1) * c.trans.dataLength := by
    have hcount : countedWidth c.trans = c.trans.dataLength := by
      rw [countedWidth, hwid, ite_self]
    exact hcount.trans (BitVec.one_mul _).symm
  obtain ⟨n, q, log, hrun, hfree⟩ := (callEnds_iff_isMultiple h hacks hcmd).mpr ⟨0, hone⟩
  refine ⟨n, q, log, hrun, ?_⟩
  rcases (h.oneBeat hwid).run (run_callEdges hcmd hrun) with ⟨hq, -⟩ | ⟨i, hi, hdone⟩
  · exact absurd (hq.caller.symm.trans hfree) (by simp)
  · obtain ⟨_, -, rfl⟩ := List.mem_map.mp hi
    exact hdone

/-- **An OK response means that the payload was moved exactly when the payload fills one beat.** For
every payload that does not stream, whatever the length of its enable array: under each slave that
acknowledges every request, OK means that the length is supported and just the bytes of the payload were
moved, if and only if the length is 4 and a write has its enables in the first four places of the array.
An adapter whose timeout is 0 or 1 never answers, and promises nothing. -/
theorem okMeansMoved_iff (p : Port AWIDTH) (h : p.AtRest) (c : Call) (enables : Nat)
    (hcmd : c.trans.command ≠ .ignore) (hwid : c.trans.streamingWidth = c.trans.dataLength) :
    OkMeansMoved p c enables ↔ FillsBeat c enables ∨ ¬ 1 < p.adapter.timeout := by
  constructor
  · intro hmoved
    by_cases ht : 1 < p.adapter.timeout
    · obtain ⟨n, q, log, hrun, hdone⟩ := beat_answered h ht hcmd hwid 0
      obtain ⟨hlen, hok⟩ :=
        hmoved _ (acknowledges_always h ht c hcmd 0) n q log hrun hdone.answered
      exact .inl ⟨hlen, fun hwrite => (moved_write_iff hwrite hdone hlen enables).mp hok⟩
    · exact .inr ht
  · rintro (hfills | ht) w hw n q log hrun hanswered
    · rcases (h.oneBeat hwid).run (run_callEdges hcmd hrun) with ⟨-, -, hquiet⟩ | ⟨i, -, hdone⟩
      · exact absurd hanswered hquiet
      · refine ⟨hfills.length, ?_⟩
        by_cases hwrite : c.trans.command = .write
        · exact (moved_write_iff hwrite hdone hfills.length enables).mpr (hfills.enables hwrite)
        · exact moved_read hwrite hdone hfills.length enables
    · exact absurd hw (not_acknowledges h ht hcmd)

/-- A write of one word whose enable array has two bytes, the second of which is set; the places behind
the array repeat it. -/
def maskedWrite : Call :=
  ⟨⟨.write, 0, 0, 4, some 8, 4, false, .incomplete⟩, 0, fun a => if a = 9 ∨ a = 11 then 0xff else 0⟩

/-- Such a write fills the beat. -/
theorem okMeansMoved_masked : OkMeansMoved (Port.init 0 : Port 32) maskedWrite 2 :=
  (okMeansMoved_iff _ (Port.atRest_init _) _ 2 (by decide) rfl).mpr
    (.inl ⟨rfl, fun _ => by decide⟩)

/-- A read of two bytes is answered with OK and overwrites the two bytes behind them. -/
theorem ok_overruns_buffer :
    ¬ ∀ (p : Port 32) (c : Call) (enables : Nat), p.AtRest → 1 < p.adapter.timeout →
      c.trans.command ≠ .ignore → 1 ≤ c.trans.dataLength.toNat →
      c.trans.streamingWidth = c.trans.dataLength → OkMeansMoved p c enables := by
  intro h
  have hmoved := h (Port.init 0) (readOf 2 2) 0 (Port.atRest_init _) (by decide) (by decide)
    (by decide) rfl
  obtain ⟨n, q, log, hrun, hdone⟩ := beat_answered (Port.atRest_init 0 : (Port.init 0 : Port 32).AtRest)
    (by decide) (c := readOf 2 2) (by decide) rfl 0x01020304
  exact not_moved_read (by decide) (by decide) hdone (by decide) 0
    (hmoved _ (acknowledges_always (Port.atRest_init _) (by decide) _ (by decide) _) n q log hrun
      hdone.answered).2

end DeltaModels.Tlm
