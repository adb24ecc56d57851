import DeltaModels.Tlm.Tlm2wb

/-!
# Streaming

A call whose streaming width is `4 * n` makes `n` beats. The length, the data pointer and the enable
pointer of `b_transport` advance by `len` bytes for each beat, and so does `adr`, which is a word
address by then: beat `k` goes to the word `(A >> 2) + 4 * k`.

`Streams` says which requests a call under way still has to issue; `Streams.edge` is the step and
`transport_requests` the run. The `n` single calls on the slices of the buffer are runs of the same
kind with `n = 1`, so the two request lists can be compared (`streaming_eq_singles_iff`).
-/

namespace DeltaModels.Tlm

open Wishbone

variable {AWIDTH : Nat}

/-- Clock a port until its call returns: the port, the requests issued on the way, and the slave
inputs left over. There is no result when the inputs run out or a fault ends the run. -/
def Port.untilReturn : Port AWIDTH → List Slave →
    Option (Port AWIDTH × List (Request AWIDTH) × List Slave)
  | _, [] => none
  | p, i :: is =>
    match p.edge i with
    | .error _ => none
    | .ok (p', some _) => some (p', issued p.adapter.out p'.adapter.out, is)
    | .ok (p', none) =>
      (untilReturn p' is).map fun (q, rs, rest) =>
        (q, issued p.adapter.out p'.adapter.out ++ rs, rest)

/-- A call from its start to its return. -/
def Port.transport (p : Port AWIDTH) (trans : Payload) (is : List Slave) :
    Option (Port AWIDTH × List (Request AWIDTH) × List Slave) :=
  match p.call trans with
  | .error _ => none
  | .ok p' => p'.untilReturn is

/-- Calls one after the other. -/
def Port.transports (p : Port AWIDTH) : List Payload → List Slave →
    Option (Port AWIDTH × List (Request AWIDTH) × List Slave)
  | [], is => some (p, [], is)
  | call :: rest, is =>
    (p.transport call is).bind fun (p', rs, is') =>
      (p'.transports rest is').map fun (q, rs', is'') => (q, rs ++ rs', is'')

/-- A call of `n` beats of one word each. -/
def streaming (trans : Payload) (n : Nat) : Payload :=
  { trans with dataLength := 4, streamingWidth := BitVec.ofNat 32 (4 * n) }

/-- The single-word call on slice `k` of the buffer. -/
def slice (trans : Payload) (k : Nat) : Payload :=
  streaming { trans with
    address := trans.address + BitVec.ofNat 64 (4 * k)
    dataPtr := trans.dataPtr + 4 * k
    byteEnablePtr := trans.byteEnablePtr.map (· + 4 * k) } 1

/-! ## The requests of a call -/

/-- The request of one beat. A read leaves the old word on `dat_o`. -/
def beat (AWIDTH : Nat) (command : Command) (host : Host) (dat : BitVec 32) (adr : BitVec 64)
    (ptr : Nat) (byt : Option Nat) : Request AWIDTH :=
  if command = .write then ⟨adr.setWidth AWIDTH, true, datOut host ptr, selOut host byt⟩
  else ⟨adr.setWidth AWIDTH, false, dat, 0⟩

/-- The requests of `n` beats; from beat to beat everything advances by 4. -/
def beats (AWIDTH : Nat) (command : Command) (host : Host) (dat : BitVec 32) (adr : BitVec 64)
    (ptr : Nat) (byt : Option Nat) : Nat → List (Request AWIDTH)
  | 0 => []
  | n + 1 => beat AWIDTH command host dat adr ptr byt
      :: beats AWIDTH command host dat (adr + 4) (ptr + 4) (byt.map (· + 4)) n

/-- What the requests of a call depend on besides its own registers: a write on the buffer, a read
on the word that was left on `dat_o`. -/
structure Source (command : Command) (host : Host) (dat : BitVec 32) (p : Port AWIDTH) : Prop where
  host : command = .write → p.host = host
  dat : command ≠ .write → p.adapter.out.datO = dat

/-- The call `trans` is under way at `p`, and `rs` are the requests that it still has to issue. -/
structure Streams (trans : Payload) (host : Host) (dat : BitVec 32) (p : Port AWIDTH)
    (rs : List (Request AWIDTH)) : Prop where
  caller : p.caller = some trans
  len : p.adapter.len = 4
  source : Source trans.command host dat p
  phase : ∃ n, 4 * (n + 1) < 2 ^ 32 ∧ p.adapter.wid = BitVec.ofNat 32 (4 * (n + 1)) ∧
    (p.adapter.state = execState trans ∧ p.adapter.out.stbO = false ∧ p.adapter.out.cycO = false ∧
        rs = beats AWIDTH trans.command host dat p.adapter.adr p.adapter.ptr p.adapter.byt (n + 1) ∨
      p.adapter.state = .waitingForAck ∧ p.adapter.out.stbO = true ∧
        p.adapter.wnr = decide (trans.command = .write) ∧
        rs = beats AWIDTH trans.command host dat (p.adapter.adr + 4) (p.adapter.ptr + 4)
          (p.adapter.byt.map (· + 4)) n)

variable {trans : Payload} {host : Host} {dat : BitVec 32} {p p' : Port AWIDTH}
  {rs : List (Request AWIDTH)}

theorem issued_issue {a : Tlm2wb AWIDTH} (hstb : a.out.stbO = false)
    (h : Source trans.command host dat ⟨a, p.host, p.caller⟩) :
    issued a.out (a.issue p.host trans.command).out
      = [beat AWIDTH trans.command host dat a.adr a.ptr a.byt] := by
  by_cases hcmd : trans.command = .write
  · have hhost : p.host = host := h.host hcmd
    simp [issued, hstb, Tlm2wb.issue, Master.request, beat, hcmd, hhost]
  · have hdat : a.out.datO = dat := h.dat hcmd
    simp [issued, hstb, Tlm2wb.issue, Master.request, beat, hcmd, hdat]

/-- An acknowledge leaves the buffer of a write as it is. -/
theorem Source.received {command : Command} (h : Source command host dat p)
    (hwnr : p.adapter.wnr = decide (command = .write)) (i : Slave) (hcmd : command = .write) :
    p.received i = host := by
  have hwrite : p.adapter.wnr = true := by rw [hwnr, hcmd]; rfl
  rw [Port.received, if_pos hwrite]
  exact h.host hcmd

/-- **Step lemma**: an edge issues a request at the expense of those still to come, and a call returns
when none is left. -/
theorem Streams.edge (h : Streams trans host dat p rs) {i : Slave} {done : Option Payload}
    (he : p.edge i = .ok (p', done)) :
    (done = none → ∃ rs', Streams trans host dat p' rs' ∧
      rs = issued p.adapter.out p'.adapter.out ++ rs') ∧
    (done ≠ none → rs = issued p.adapter.out p'.adapter.out ∧ p'.AtRest ∧
      Source trans.command host dat p') := by
  obtain ⟨n, hn, hwid, hphase⟩ := h.phase
  have hexec := (execState_ne trans).2
  cases Port.edgeOf h.caller (hphase.imp And.left And.left) he with
  | rest free => exact absurd (h.caller.symm.trans free) (by simp)
  | issue caller state =>
    -- the request of the next beat goes out
    obtain rfl := Option.some.inj (h.caller.symm.trans caller)
    obtain ⟨-, hstb, -, hrs⟩ := hphase.resolve_right fun hwait => hexec (state.symm.trans hwait.1)
    refine ⟨fun _ => ⟨_, ⟨h.caller, h.len, ?_, n, hn, hwid, .inr ⟨rfl, rfl, rfl, rfl⟩⟩, ?_⟩,
      fun hne => absurd rfl hne⟩
    · exact ⟨h.source.host, fun hcmd => by simpa [Tlm2wb.issue, hcmd] using h.source.dat hcmd⟩
    · rw [issued_issue hstb h.source, hrs]
      rfl
  | stall _ state =>
    have hwait := hphase.resolve_left fun hissue => hexec (hissue.1.symm.trans state)
    refine ⟨fun _ => ⟨rs, ⟨h.caller, h.len, ⟨h.source.host, h.source.dat⟩, n, hn, hwid,
      .inr hwait⟩, ?_⟩, fun hne => absurd rfl hne⟩
    rw [issued_of_stb hwait.2.1, List.nil_append]
  | next caller state _ _ more =>
    obtain rfl := Option.some.inj (h.caller.symm.trans caller)
    obtain ⟨-, hstb, hwnr, hrs⟩ :=
      hphase.resolve_left fun hissue => hexec (hissue.1.symm.trans state)
    cases n with
    | zero => exact absurd (hwid.trans h.len.symm) more
    | succ n =>
      refine ⟨fun _ => ⟨rs, ⟨rfl, h.len, ⟨h.source.received hwnr i, h.source.dat⟩, n, by omega, ?_,
        .inl ⟨rfl, rfl, rfl, ?_⟩⟩, ?_⟩, fun hne => absurd rfl hne⟩
      · show p.adapter.wid - p.adapter.len = _
        rw [hwid, h.len, wid_sub]
      · rw [hrs]
        simp only [Port.advance, h.len]
        rfl
      · rw [issued_of_stb hstb, List.nil_append]
  | last caller state _ _ wid =>
    obtain rfl := Option.some.inj (h.caller.symm.trans caller)
    obtain ⟨-, hstb, hwnr, hrs⟩ :=
      hphase.resolve_left fun hissue => hexec (hissue.1.symm.trans state)
    cases n with
    | succ n =>
      -- more than one beat is left
      have hzero : p.adapter.wid - 4 = 0 := by rw [wid, h.len, sub_self]
      rw [hwid, wid_sub] at hzero
      exact absurd hzero (ofNat_beats_ne_zero (by omega))
    | zero =>
      refine ⟨fun hnone => absurd hnone (by simp),
        fun _ => ⟨?_, ⟨rfl, rfl, rfl, rfl⟩, h.source.received hwnr i, h.source.dat⟩⟩
      rw [issued_of_stb hstb, hrs]
      rfl

/-- **Run lemma**: until its return a call issues exactly the requests that it still had to issue. -/
theorem Streams.untilReturn (h : Streams trans host dat p rs) {is rest : List Slave}
    {rs' : List (Request AWIDTH)} (hrun : p.untilReturn is = some (p', rs', rest)) :
    rs' = rs ∧ p'.AtRest ∧ Source trans.command host dat p' := by
  induction is generalizing p rs rs' with
  | nil => simp [Port.untilReturn] at hrun
  | cons i is ih =>
    simp only [Port.untilReturn] at hrun
    split at hrun
    · cases hrun
    · next q answer hedge =>
      obtain ⟨rfl, rfl, rfl⟩ : q = p' ∧ _ = rs' ∧ is = rest := by simpa using hrun
      obtain ⟨hrs, hrest, hsource⟩ := (h.edge hedge).2 (by simp)
      exact ⟨hrs.symm, hrest, hsource⟩
    · next q hedge =>
      obtain ⟨⟨q', rs₁, rest'⟩, hrec, heq⟩ := Option.map_eq_some_iff.mp hrun
      obtain ⟨rfl, rfl, rfl⟩ : q' = p' ∧ _ = rs' ∧ rest' = rest := by simpa using heq
      obtain ⟨rs₂, hq, rfl⟩ := (h.edge hedge).1 rfl
      obtain ⟨rfl, hrest, hsource⟩ := ih hq hrec
      exact ⟨rfl, hrest, hsource⟩

/-! ## Whole calls -/

/-- The port after the start of a call of `n + 1` beats. -/
def Port.started (p : Port AWIDTH) (trans : Payload) (n : Nat) : Port AWIDTH :=
  ⟨p.adapter.load (streaming trans (n + 1)), p.host, some (streaming trans (n + 1))⟩

theorem wid_started (p : Port AWIDTH) (trans : Payload) {n : Nat} (hn : 4 * (n + 1) < 2 ^ 32) :
    (p.started trans n).adapter.wid = BitVec.ofNat 32 (4 * (n + 1)) :=
  if_neg (ofNat_beats_ne_zero hn)

theorem Port.AtRest.streams (h : p.AtRest) (hsource : Source trans.command host dat p) {n : Nat}
    (hn : 4 * (n + 1) < 2 ^ 32) :
    Streams (streaming trans (n + 1)) host dat (p.started trans n)
      (beats AWIDTH trans.command host dat (trans.address >>> 2) trans.dataPtr trans.byteEnablePtr
        (n + 1)) :=
  ⟨rfl, rfl, ⟨hsource.host, hsource.dat⟩, n, hn, wid_started p trans hn,
    .inl ⟨rfl, h.stb, h.cyc, rfl⟩⟩

/-- **The requests of a streaming call.** -/
theorem transport_requests (h : p.AtRest) (hcmd : trans.command ≠ .ignore)
    (hsource : Source trans.command host dat p) {n : Nat} (hn : 4 * (n + 1) < 2 ^ 32)
    {is rest : List Slave} (hrun : p.transport (streaming trans (n + 1)) is = some (p', rs, rest)) :
    rs = beats AWIDTH trans.command host dat (trans.address >>> 2) trans.dataPtr trans.byteEnablePtr
        (n + 1) ∧
      p'.AtRest ∧ Source trans.command host dat p' := by
  rw [Port.transport, Port.call_ok p (show (streaming trans (n + 1)).command ≠ .ignore from hcmd)] at hrun
  exact (h.streams hsource hn).untilReturn hrun

/-- **The requests of single calls**, one for each. -/
theorem transports_requests {command : Command} (hcmd : command ≠ .ignore) {cs : List Payload}
    (hcs : ∀ c ∈ cs, c.command = command) (h : p.AtRest) (hsource : Source command host dat p)
    {is rest : List Slave} (hrun : p.transports (cs.map (streaming · 1)) is = some (p', rs, rest)) :
    rs = cs.map fun c : Payload =>
      beat AWIDTH command host dat (c.address >>> 2) c.dataPtr c.byteEnablePtr := by
  induction cs generalizing p rs is with
  | nil =>
    obtain ⟨-, rfl, -⟩ : p = p' ∧ [] = rs ∧ is = rest := by simpa [Port.transports] using hrun
    rfl
  | cons c cs ih =>
    obtain rfl : c.command = command := hcs c (by simp)
    simp only [List.map_cons, Port.transports] at hrun
    obtain ⟨⟨q, rs₁, is₁⟩, hfirst, hrest⟩ := Option.bind_eq_some_iff.mp hrun
    obtain ⟨⟨q', rs₂, is₂⟩, hothers, heq⟩ := Option.map_eq_some_iff.mp hrest
    obtain ⟨rfl, rfl, rfl⟩ : q' = p' ∧ rs₁ ++ rs₂ = rs ∧ is₂ = rest := by simpa using heq
    obtain ⟨rfl, hq, hsource'⟩ := transport_requests h hcmd hsource (n := 0) (by omega) hfirst
    rw [ih (fun d hd => hcs d (by simp [hd])) hq hsource' hothers]
    rfl

/-! ## Calls do return

A slave that acknowledges every request at the first chance lets every call return, unless the
timeout is so short that even such an acknowledge comes too late. -/

/-- The slave inputs `is` let a call return, whatever follows them. -/
def Returns (is : List Slave)
    (run : List Slave → Option (Port AWIDTH × List (Request AWIDTH) × List Slave))
    (timeout : BitVec 32) : Prop :=
  ∃ q rs, (∀ rest, run (is ++ rest) = some (q, rs, rest)) ∧ q.adapter.timeout = timeout

/-- A call is about to issue the first of its last `n + 1` requests. -/
structure Ready (trans : Payload) (n : Nat) (p : Port AWIDTH) : Prop where
  caller : p.caller = some trans
  state : p.adapter.state = execState trans
  len : p.adapter.len = 4
  wid : p.adapter.wid = BitVec.ofNat 32 (4 * (n + 1))
  timeout : 1 < p.adapter.timeout

theorem Ready.issue {n : Nat} (h : Ready trans n p) :
    p.edge ⟨true, 0⟩ = .ok (⟨p.adapter.issue p.host trans.command, p.host, some trans⟩, none) := by
  rw [Port.edge_exec h.state, h.caller]

/-- The acknowledge of the last request returns the call. -/
theorem Ready.last (h : Ready trans 0 p) :
    ∃ q answer, Port.edge ⟨p.adapter.issue p.host trans.command, p.host, some trans⟩ ⟨true, 0⟩
        = .ok (q, some answer) ∧ q.adapter.timeout = p.adapter.timeout := by
  have hlast : ((p.adapter.issue p.host trans.command).finish ⟨true, 0⟩).wid
      = ((p.adapter.issue p.host trans.command).finish ⟨true, 0⟩).len := h.wid.trans h.len.symm
  have hack := Port.edge_ack (p := ⟨p.adapter.issue p.host trans.command, p.host, some trans⟩)
    (i := ⟨true, 0⟩) rfl rfl h.timeout rfl
  rw [Tlm2wb.resume_last hlast] at hack
  exact ⟨_, _, hack, rfl⟩

/-- The acknowledge of another request starts the next beat. -/
theorem Ready.next {n : Nat} (hn : 4 * (n + 2) < 2 ^ 32) (h : Ready trans (n + 1) p) :
    ∃ q, Port.edge ⟨p.adapter.issue p.host trans.command, p.host, some trans⟩ ⟨true, 0⟩
        = .ok (q, none) ∧ Ready trans n q ∧ q.adapter.timeout = p.adapter.timeout := by
  have hwid : ((p.adapter.issue p.host trans.command).finish ⟨true, 0⟩).wid
      - ((p.adapter.issue p.host trans.command).finish ⟨true, 0⟩).len
        = BitVec.ofNat 32 (4 * (n + 1)) := by
    show p.adapter.wid - p.adapter.len = _
    rw [h.wid, h.len, wid_sub]
  have hnext : ((p.adapter.issue p.host trans.command).finish ⟨true, 0⟩).wid
      - ((p.adapter.issue p.host trans.command).finish ⟨true, 0⟩).len ≠ 0 := by
    rw [hwid]
    exact ofNat_beats_ne_zero (by omega)
  have hack := Port.edge_ack (p := ⟨p.adapter.issue p.host trans.command, p.host, some trans⟩)
    (i := ⟨true, 0⟩) rfl rfl h.timeout rfl
  rw [Tlm2wb.resume_next hnext] at hack
  exact ⟨_, hack, ⟨rfl, rfl, h.len, hwid, h.timeout⟩, rfl⟩

theorem Ready.returns {n : Nat} (hn : 4 * (n + 1) < 2 ^ 32) (h : Ready trans n p) :
    ∃ is, Returns is p.untilReturn p.adapter.timeout := by
  induction n generalizing p with
  | zero =>
    obtain ⟨q, answer, hlast, ht⟩ := h.last
    refine ⟨[⟨true, 0⟩, ⟨true, 0⟩], q, ?rs, fun rest => ?run, ht⟩
    case run =>
      simp only [List.cons_append, List.nil_append, Port.untilReturn, h.issue, hlast,
        Option.map_some]
      rfl
  | succ n ih =>
    obtain ⟨q, hnext, hq, ht⟩ := h.next hn
    obtain ⟨is, r, rs, hrun, hr⟩ := ih (by omega) hq
    refine ⟨⟨true, 0⟩ :: ⟨true, 0⟩ :: is, r, ?requests, fun rest => ?run, hr.trans ht⟩
    case run =>
      simp only [List.cons_append, Port.untilReturn, h.issue, hnext, hrun, Option.map_some]
      rfl

theorem returns_transport (p : Port AWIDTH) (hcmd : trans.command ≠ .ignore) {n : Nat}
    (hn : 4 * (n + 1) < 2 ^ 32) (ht : 1 < p.adapter.timeout) :
    ∃ is, Returns is (p.transport (streaming trans (n + 1))) p.adapter.timeout := by
  obtain ⟨is, q, rs, hrun, hq⟩ := Ready.returns hn
    (⟨rfl, rfl, rfl, wid_started p trans hn, ht⟩ : Ready (streaming trans (n + 1)) n (p.started trans n))
  refine ⟨is, q, rs, fun rest => ?_, hq⟩
  rw [Port.transport, Port.call_ok p (show (streaming trans (n + 1)).command ≠ .ignore from hcmd)]
  exact hrun rest

theorem returns_transports {cs : List Payload} (hcs : ∀ c ∈ cs, c.command ≠ .ignore)
    (ht : 1 < p.adapter.timeout) :
    ∃ is, Returns is (p.transports (cs.map (streaming · 1))) p.adapter.timeout := by
  induction cs generalizing p with
  | nil => exact ⟨[], p, [], fun _ => rfl, rfl⟩
  | cons c cs ih =>
    obtain ⟨is, q, rs, hrun, hq⟩ := returns_transport p (hcs c (by simp)) (n := 0) (by omega) ht
    obtain ⟨is', r, rs', hrun', hr⟩ := ih (fun d hd => hcs d (by simp [hd])) (hq ▸ ht)
    refine ⟨is ++ is', r, rs ++ rs', fun rest => ?_, hr.trans hq⟩
    rw [List.append_assoc, List.map_cons, Port.transports, hrun, Option.bind_some]
    show ((q.transports _ (is' ++ rest)).map _) = _
    rw [hrun']
    rfl

/-! ## The comparison -/

/-- Four bytes further is one word further, four words further is not. -/
theorem beat_one_ne (hA : 0 < AWIDTH) (adr : BitVec 64) :
    (adr >>> 2 + 4).setWidth AWIDTH ≠ ((adr + 4) >>> 2).setWidth AWIDTH := by
  intro h
  have hfour : (4 : BitVec 64).toNat = 4 := rfl
  have hnat := congrArg BitVec.toNat h
  rw [BitVec.toNat_setWidth, BitVec.toNat_setWidth, BitVec.toNat_add, BitVec.toNat_ushiftRight,
    BitVec.toNat_ushiftRight, BitVec.toNat_add, hfour, Nat.shiftRight_eq_div_pow,
    Nat.shiftRight_eq_div_pow] at hnat
  -- the two word addresses differ in their lowest bit
  have hparity := congrArg (· % 2) hnat
  have hdvd : 2 ∣ 2 ^ AWIDTH := dvd_pow_self 2 (by omega)
  simp only [Nat.mod_mod_of_dvd _ hdvd] at hparity
  have hlt := adr.isLt
  omega

theorem beats_eq_slices_iff (hA : 0 < AWIDTH) (trans : Payload) (host : Host) (dat : BitVec 32)
    {n : Nat} (hpos : 0 < n) :
    beats AWIDTH trans.command host dat (trans.address >>> 2) trans.dataPtr trans.byteEnablePtr n
      = (List.range n).map (fun k => beat AWIDTH trans.command host dat
          ((trans.address + BitVec.ofNat 64 (4 * k)) >>> 2) (trans.dataPtr + 4 * k)
          (trans.byteEnablePtr.map (· + 4 * k))) ↔ n = 1 := by
  constructor
  · intro h
    by_contra hne
    obtain ⟨m, rfl⟩ : ∃ m, n = m + 2 := ⟨n - 2, by omega⟩
    -- the second beat is at the wrong word
    have hsecond := congrArg (fun rs => rs[1]?.map Request.adrO) h
    simp only [beats, List.getElem?_cons_succ, List.getElem?_cons_zero, Option.map_some,
      List.getElem?_map, List.getElem?_range (show 1 < m + 2 by omega), Nat.mul_one,
      Option.some.injEq] at hsecond
    have hadr : ∀ adr ptr byt, (beat AWIDTH trans.command host dat adr ptr byt).adrO
        = adr.setWidth AWIDTH := by
      intro adr ptr byt
      unfold beat
      split <;> rfl
    rw [hadr, hadr] at hsecond
    exact beat_one_ne hA trans.address hsecond
  · rintro rfl
    simp [beats]

/-- **Streaming equals single transfers exactly for one beat.** Calls return under a slave that
acknowledges at once; and under any two slaves for which the streaming call and the calls on the
slices of its buffer return, the requests are the same if and only if there is only one beat. -/
theorem streaming_eq_singles_iff (hA : 0 < AWIDTH) (p : Port AWIDTH) (h : p.AtRest)
    (ht : 1 < p.adapter.timeout) (trans : Payload) (hcmd : trans.command ≠ .ignore) (n : Nat)
    (hpos : 0 < n) (hn : 4 * n < 2 ^ 32) :
    (∃ is, (p.transport (streaming trans n) is).isSome) ∧
    (∃ is, (p.transports ((List.range n).map (slice trans)) is).isSome) ∧
    ∀ is is' q q' rs rs' rest rest', p.transport (streaming trans n) is = some (q, rs, rest) →
      p.transports ((List.range n).map (slice trans)) is' = some (q', rs', rest') →
      (rs = rs' ↔ n = 1) := by
  obtain ⟨m, rfl⟩ : ∃ m, n = m + 1 := ⟨n - 1, by omega⟩
  let slices := (List.range (m + 1)).map fun k => { trans with
    address := trans.address + BitVec.ofNat 64 (4 * k)
    dataPtr := trans.dataPtr + 4 * k
    byteEnablePtr := trans.byteEnablePtr.map (· + 4 * k) }
  have hslices : (List.range (m + 1)).map (slice trans) = slices.map (streaming · 1) := by
    simp only [slices, List.map_map]
    rfl
  have hcommand : ∀ c ∈ slices, c.command = trans.command := by
    intro c hc
    obtain ⟨k, -, rfl⟩ := List.mem_map.mp hc
    rfl
  have hsource : Source trans.command p.host p.adapter.out.datO p := ⟨fun _ => rfl, fun _ => rfl⟩
  rw [hslices]
  refine ⟨?_, ?_, fun is is' q q' rs rs' rest rest' hrun hrun' => ?_⟩
  · obtain ⟨is, q, rs, hrun, -⟩ := returns_transport p hcmd hn ht
    exact ⟨is ++ [], by rw [hrun]; rfl⟩
  · have hknown : ∀ c ∈ slices, c.command ≠ .ignore := by
      intro c hc
      rw [hcommand c hc]
      exact hcmd
    obtain ⟨is, q, rs, hrun, -⟩ := returns_transports hknown ht
    exact ⟨is ++ [], by rw [hrun]; rfl⟩
  · obtain ⟨rfl, -, -⟩ := transport_requests h hcmd hsource hn hrun
    rw [transports_requests hcmd hcommand h hsource hrun', ← beats_eq_slices_iff hA trans p.host
      p.adapter.out.datO hpos, List.map_map]
    rfl

/-- A write to the word at byte address 4. -/
def writeFour : Payload := ⟨.write, 4, 0, 4, none, 4, false, .incomplete⟩

/-- One beat: both ways of making the call return, and with the same request. -/
theorem streaming_eq_singles_one_beat :
    ∃ is is' q q' rs rest rest',
      (Port.init (BitVec.ofNat 8) : Port 32).transport (streaming writeFour 1) is = some (q, rs, rest) ∧
      (Port.init (BitVec.ofNat 8) : Port 32).transports ((List.range 1).map (slice writeFour)) is'
        = some (q', rs, rest') := by
  obtain ⟨⟨is, his⟩, ⟨is', his'⟩, hiff⟩ := streaming_eq_singles_iff (by decide)
    (Port.init (BitVec.ofNat 8) : Port 32) (Port.atRest_init _) (by decide) writeFour (by decide) 1
    (by decide) (by decide)
  obtain ⟨⟨q, rs, rest⟩, hrun⟩ := Option.isSome_iff_exists.mp his
  obtain ⟨⟨q', rs', rest'⟩, hrun'⟩ := Option.isSome_iff_exists.mp his'
  obtain rfl := (hiff is is' q q' rs rs' rest rest' hrun hrun').mpr rfl
  exact ⟨is, is', q, q', rs, rest, rest', hrun, hrun'⟩

/-- Two beats: the second one is streamed to the word 5 instead of 2. -/
theorem streaming_skips_words :
    ¬ ∀ (p : Port 32), p.AtRest → p.adapter.timeout = 1000 → ∀ (trans : Payload),
      trans.command ≠ .ignore → trans.address.toNat % 4 = 0 → ∀ n, 0 < n → 4 * n < 2 ^ 32 →
      ∀ is is' q q' rs rs' rest rest', p.transport (streaming trans n) is = some (q, rs, rest) →
        p.transports ((List.range n).map (slice trans)) is' = some (q', rs', rest') → rs = rs' := by
  intro h
  have hstream : ((Port.init (BitVec.ofNat 8) : Port 32).transport (streaming writeFour 2)
      (List.replicate 4 ⟨true, 0⟩)).map (·.2.1.map Request.adrO) = some [1, 5] := by decide
  have hsingles : ((Port.init (BitVec.ofNat 8) : Port 32).transports
      ((List.range 2).map (slice writeFour)) (List.replicate 4 ⟨true, 0⟩)).map
        (·.2.1.map Request.adrO) = some [1, 2] := by decide
  obtain ⟨⟨q, rs, rest⟩, hrun, hrs⟩ := Option.map_eq_some_iff.mp hstream
  obtain ⟨⟨q', rs', rest'⟩, hrun', hrs'⟩ := Option.map_eq_some_iff.mp hsingles
  obtain rfl := h _ (Port.atRest_init _) rfl writeFour (by decide) (by decide) 2 (by decide)
    (by decide) _ _ q q' rs rs' rest rest' hrun hrun'
  rw [hrs] at hrs'
  exact absurd hrs' (by decide)

end DeltaModels.Tlm
