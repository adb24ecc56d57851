import DeltaModels.Tlm.InTime
import DeltaModels.Tlm.Streaming

/-!
# The Wishbone rules on the master's side

`BusRules` is what a slave may rely on, read off the log of a run: a cycle is a strobe, a request stays
as it is until it is acknowledged, the strobe is low at the edge after an acknowledge, and only a call
raises a request. Each rule is about one entry or about two adjacent ones, so all of them follow from
what a single edge does (`EdgeOf.follows`).

How many requests a call raises is counted with `Streams`, which knows the requests still to come.
`run_wishbone` is about waveforms: calls that do not overlap, and a slave that acknowledges each request
in time, however long it makes the request wait.
-/

namespace DeltaModels.Tlm

open Wishbone

variable {AWIDTH : Nat}

/-- The requests that were raised in a run, in their order. -/
def requests (log : List (Sample AWIDTH)) : List (Request AWIDTH) := log.flatMap Sample.raised

/-- The rules, for the samples that the edges of a run took. -/
structure BusRules (log : List (Sample AWIDTH)) : Prop where
  /-- `cyc_o` is `stb_o`. -/
  cyc : ∀ x ∈ log, x.bus.cycO = x.bus.stbO
  /-- From its first edge to the one that acknowledges it, a request does not change. -/
  hold : ∀ (i j : Nat) (x y : Sample AWIDTH), i ≤ j → log[i]? = some x → log[j]? = some y →
    x.bus.stbO = true →
    (∀ k (z : Sample AWIDTH), i ≤ k → k < j → log[k]? = some z → z.acked = false) → y.bus = x.bus
  /-- The strobe is low at the edge after an acknowledge. -/
  release : ∀ (i : Nat) (x y : Sample AWIDTH), log[i]? = some x → log[i + 1]? = some y →
    x.acked = true → y.bus.stbO = false
  /-- What an edge raises is what the next edge sees for the first time. -/
  raised : ∀ (i : Nat) (x y : Sample AWIDTH), log[i]? = some x → log[i + 1]? = some y →
    x.raised = issued x.bus y.bus
  /-- No request is raised while no call is in progress. -/
  owner : ∀ x ∈ log, x.raised ≠ [] → x.caller ≠ none

/-- A call whose beats are words: streaming width `4 * n` with a positive `n`. -/
structure WordBeats (c : Call) (n : Nat) : Prop where
  command : c.trans.command ≠ .ignore
  len : c.trans.dataLength = 4
  wid : c.trans.streamingWidth.toNat = 4 * n
  pos : 0 < n

/-! ## Adjacent entries -/

/-- The outputs `bus` may follow the sample `x`. -/
structure Sample.Follows (x : Sample AWIDTH) (bus : Master AWIDTH) : Prop where
  hold : x.bus.stbO = true → x.acked = false → bus = x.bus
  release : x.acked = true → bus.stbO = false
  raised : x.raised = issued x.bus bus

variable {p q : Port AWIDTH} {i : Slave} {answer : Option Payload}

/-- What an edge leaves on the bus may follow what it sees there. -/
theorem EdgeOf.follows (he : EdgeOf p i q answer) (h : p.Tidy) :
    Sample.Follows ⟨p.adapter.out, i, p.caller, issued p.adapter.out q.adapter.out, answer⟩
      q.adapter.out := by
  have hlow : p.adapter.state ≠ .waitingForAck → p.adapter.out.stbO = false := by
    intro hne
    rw [h.stb, decide_eq_false hne]
  cases he with
  | rest _ state =>
    have hstb := hlow (by rw [state]; decide)
    exact ⟨fun _ _ => rfl, fun hack => by simp [Sample.acked, hstb] at hack, rfl⟩
  | issue _ state =>
    have hstb := hlow (by rw [state]; exact (execState_ne _).2)
    exact ⟨fun hhigh => by simp [hstb] at hhigh, fun hack => by simp [Sample.acked, hstb] at hack, rfl⟩
  | stall _ _ quiet =>
    exact ⟨fun _ _ => rfl, fun hack => by simp [Sample.acked, quiet] at hack, rfl⟩
  | next _ state ack | last _ state ack =>
    have hstb : p.adapter.out.stbO = true := by rw [h.stb, state]; rfl
    exact ⟨fun _ hquiet => by simp [Sample.acked, ack, hstb] at hquiet, fun _ => rfl, rfl⟩

/-- Without a caller an edge raises nothing. -/
theorem EdgeOf.owner (he : EdgeOf p i q answer) (h : p.Tidy)
    (hraised : issued p.adapter.out q.adapter.out ≠ []) : p.caller ≠ none := by
  intro hfree
  obtain ⟨rfl, -⟩ := he.free hfree
  have hstb : q.adapter.out.stbO = false := (h.atRest hfree).stb
  exact hraised (by simp [issued, hstb])

/-- A request is held as long as nobody acknowledges it. -/
theorem hold_of_isChain {log : List (Sample AWIDTH)}
    (hchain : log.IsChain fun x y => x.Follows y.bus) {i j : Nat} (hij : i ≤ j)
    {x y : Sample AWIDTH} (hx : log[i]? = some x) (hy : log[j]? = some y) (hstb : x.bus.stbO = true)
    (hquiet : ∀ k z, i ≤ k → k < j → log[k]? = some z → z.acked = false) : y.bus = x.bus := by
  induction j, hij using Nat.le_induction generalizing y with
  | base =>
    obtain rfl := Option.some.inj (hx.symm.trans hy)
    rfl
  | succ j hij ih =>
    obtain ⟨hlt, rfl⟩ := List.getElem?_eq_some_iff.mp hy
    have hz : log[j]? = some log[j] := List.getElem?_eq_getElem (by omega)
    have hbus : log[j].bus = x.bus := ih hz fun k z hik hkj => hquiet k z hik (by omega)
    have hfollows := List.isChain_iff_getElem.mp hchain j hlt
    rw [hfollows.hold (by rw [hbus]; exact hstb) (hquiet j _ hij (by omega) hz), hbus]

variable {es : List PortEvent} {log : List (Sample AWIDTH)}

theorem run_isChain (h : p.Tidy) (hrun : (port AWIDTH).run p es = some (q, log)) :
    log.IsChain fun x y => x.Follows y.bus := by
  refine (Guarded.run_isChain (m := port AWIDTH) (A := fun _ => True) (P := Port.Tidy)
    (L := fun x p => x.Follows p.adapter.out) ?_ ?_ h (fun _ _ => trivial) hrun).1
  · intro p e q _ htidy hstep
    refine ⟨event_tidy htidy hstep, fun x hx => ?_⟩
    -- only a call is not logged, and it leaves the outputs alone
    cases e with
    | call c =>
      obtain ⟨-, -, ⟨rfl, -⟩ | ⟨rfl, -⟩⟩ := event_call hstep
      · exact hx
      · exact hx
    | edge i =>
      obtain ⟨answer, -, hentry⟩ := event_edge hstep
      cases hentry
  · intro p e q y _ htidy hstep
    cases e with
    | call c => exact absurd (event_call hstep).2.1 (by simp)
    | edge i =>
      obtain ⟨answer, hedge, hentry⟩ := event_edge hstep
      obtain rfl := Option.some.inj hentry
      have hof := htidy.edge hedge
      exact ⟨hof.tidy htidy, hof.follows htidy, fun x hx => hx⟩

/-- **A run keeps the rules**, whatever is called and whatever the slave answers. -/
theorem run_busRules (h : p.Tidy) (hrun : (port AWIDTH).run p es = some (q, log)) :
    BusRules log := by
  have hchain := run_isChain h hrun
  have hentry : ∀ x ∈ log, x.bus.cycO = x.bus.stbO ∧ (x.raised ≠ [] → x.caller ≠ none) := by
    refine Guarded.run_forall (m := port AWIDTH) (A := fun _ => True) (P := Port.Tidy) ?_ h
      (fun _ _ => trivial) hrun
    intro p e q entry _ htidy hstep
    refine ⟨event_tidy htidy hstep, fun x hx => ?_⟩
    cases e with
    | call c =>
      obtain ⟨-, rfl, -⟩ := event_call hstep
      simp at hx
    | edge i =>
      obtain ⟨answer, hedge, rfl⟩ := event_edge hstep
      obtain rfl := Option.some.inj hx
      exact ⟨htidy.cyc, (htidy.edge hedge).owner htidy⟩
  have hnext : ∀ (i : Nat) (x y : Sample AWIDTH), log[i]? = some x → log[i + 1]? = some y →
      x.Follows y.bus := by
    intro i x y hx hy
    obtain ⟨hlt, rfl⟩ := List.getElem?_eq_some_iff.mp hy
    obtain ⟨-, rfl⟩ := List.getElem?_eq_some_iff.mp hx
    exact List.isChain_iff_getElem.mp hchain i hlt
  exact {
    cyc := fun x hx => (hentry x hx).1
    hold := fun i j x y hij hx hy hstb hquiet => hold_of_isChain hchain hij hx hy hstb hquiet
    release := fun i x y hx hy => (hnext i x y hx hy).release
    raised := fun i x y hx hy => (hnext i x y hx hy).raised
    owner := fun x hx => (hentry x hx).2 }

/-! ## Counting -/

variable {trans : Payload} {host : Host} {dat : BitVec 32} {rs : List (Request AWIDTH)}
  {is : List Slave}

/-- The requests raised so far, and those still to come, are the requests of the call. -/
theorem Streams.run (h : Streams trans host dat p rs)
    (hrun : (port AWIDTH).run p (edges is) = some (q, log)) :
    ∃ rs', rs = requests log ++ rs' ∧ (q.caller = none → rs' = []) := by
  induction is generalizing p rs log with
  | nil =>
    obtain ⟨rfl, rfl⟩ := Guarded.run_nil.mp hrun
    exact ⟨rs, rfl, fun hfree => absurd (h.caller.symm.trans hfree) (by simp)⟩
  | cons i is ih =>
    obtain ⟨p', o, os, hstep, hrest, rfl⟩ := Guarded.run_cons.mp hrun
    obtain ⟨answer, hedge, rfl⟩ := event_edge hstep
    cases answer with
    | none =>
      obtain ⟨rs₁, hp', rfl⟩ := (h.edge hedge).1 rfl
      obtain ⟨rs₂, rfl, hfree⟩ := ih hp' hrest
      exact ⟨rs₂, by simp [requests], hfree⟩
    | some answer =>
      obtain ⟨rfl, hp', -⟩ := (h.edge hedge).2 (by simp)
      -- what follows the return raises nothing
      have hos : os.flatMap Sample.raised = [] :=
        List.flatMap_eq_nil_iff.mpr fun x hx => ((hp'.run_edges hrest).2 x hx).raised
      exact ⟨[], by simp [requests, hos], fun _ => rfl⟩

theorem length_beats (AWIDTH : Nat) (command : Command) (host : Host) (dat : BitVec 32)
    (adr : BitVec 64) (ptr : Nat) (byt : Option Nat) (n : Nat) :
    (beats AWIDTH command host dat adr ptr byt n).length = n := by
  induction n generalizing adr ptr byt with
  | zero => rfl
  | succ n ih => simp [beats, ih]

/-- A call of `m + 1` beats has the requests of that many beats before it. -/
theorem Port.AtRest.streams_begun (h : p.AtRest) {c : Call} {m : Nat}
    (hlen : c.trans.dataLength = 4) (hwid : c.trans.streamingWidth = BitVec.ofNat 32 (4 * (m + 1)))
    (hm : 4 * (m + 1) < 2 ^ 32) :
    Streams c.trans c.host p.adapter.out.datO (p.begun c)
      (beats AWIDTH c.trans.command c.host p.adapter.out.datO (c.trans.address >>> 2) c.trans.dataPtr
        c.trans.byteEnablePtr (m + 1)) where
  caller := rfl
  len := hlen
  source := ⟨fun _ => rfl, fun _ => rfl⟩
  phase := by
    have hne : c.trans.streamingWidth ≠ 0 := by
      rw [hwid]
      exact ofNat_beats_ne_zero hm
    exact ⟨m, hm, (if_neg hne).trans hwid, .inl ⟨rfl, h.stb, h.cyc, rfl⟩⟩

/-- **What a call raises**: never more than its beats, and all of them by the time it returns, which it
does in the time that `n` beats can take. -/
theorem requests_call (h : p.AtRest) {c : Call} {n : Nat} (hc : WordBeats c n)
    (hrun : (port AWIDTH).run p (.call c :: edges is) = some (q, log)) :
    (requests log).length ≤ n ∧ (n * p.patience ≤ is.length → q.caller = none) ∧
      (q.caller = none → (requests log).length = n) := by
  obtain ⟨q', o, os, hbegin, hedges, rfl⟩ := Guarded.run_cons.mp hrun
  obtain ⟨-, rfl, ⟨rfl, -⟩ | ⟨-, hignore⟩⟩ := event_call hbegin
  · obtain ⟨m, rfl⟩ : ∃ m, n = m + 1 := ⟨n - 1, by have := hc.pos; omega⟩
    have hm : 4 * (m + 1) < 2 ^ 32 := hc.wid ▸ c.trans.streamingWidth.isLt
    have hwid : c.trans.streamingWidth = BitVec.ofNat 32 (4 * (m + 1)) := by
      rw [← hc.wid, BitVec.ofNat_toNat, BitVec.setWidth_eq]
    have hne : c.trans.streamingWidth ≠ 0 := by
      rw [hwid]
      exact ofNat_beats_ne_zero hm
    obtain ⟨rs', hrs, hdone⟩ := (h.streams_begun hc.len hwid hm).run hedges
    have hcount := congrArg List.length hrs
    rw [length_beats, List.length_append] at hcount
    have hbeats : (p.begun c).adapter.wid = BitVec.ofNat 32 (m + 1) * (p.begun c).adapter.len := by
      have hload : (p.begun c).adapter.wid = c.trans.streamingWidth := if_neg hne
      have hlen : (p.begun c).adapter.len = 4 := hc.len
      rw [hload, hwid, hlen, Nat.mul_comm, BitVec.ofNat_mul]
      rfl
    have hwithin : (p.begun c).Within ((m + 1) * p.patience) := .issuing rfl rfl hbeats
    refine ⟨?_, fun hlong => hwithin.run (h.tidy_begun c) hlong hedges, fun hret => ?_⟩
    · show (requests os).length ≤ m + 1
      omega
    · have hnil := hdone hret
      subst hnil
      show (requests os).length = m + 1
      simpa using hcount.symm
  · exact absurd hignore hc.command

/-- **The adapter keeps the Wishbone rules towards any slave that answers in time.** Take any waveform
from a port at rest: calls that do not overlap, and edges at which the slave drives what it likes, if
only it acknowledges each request before the timeout. Then no edge ends in a report, and the log keeps
the rules. If a call of streaming width `4 * n` comes next, it never raises more than `n` requests, it
returns when its time is over at the latest, and it has raised exactly `n` when it does. -/
theorem run_wishbone (p : Port AWIDTH) (h : p.AtRest) (es : List PortEvent) (hes : Apart p es)
    (htime : InTime p es) :
    ∃ q log, (port AWIDTH).run p es = some (q, log) ∧ BusRules log ∧
      ∀ c n, WordBeats c n → q.caller = none → ∀ is, InTime q (.call c :: edges is) →
        ∃ r log', (port AWIDTH).run q (.call c :: edges is) = some (r, log') ∧
          (requests log').length ≤ n ∧
          (n * q.patience ≤ is.length → r.caller = none) ∧
          (r.caller = none → (requests log').length = n) := by
  obtain ⟨q, log, hrun⟩ := run_of_inTime h hes htime
  refine ⟨q, log, hrun, run_busRules h.tidy hrun, fun c n hc hfree is hcall => ?_⟩
  have hrest : q.AtRest := (run_tidy h.tidy hrun).atRest hfree
  obtain ⟨r, log', hrun'⟩ := run_of_inTime hrest (apart_call hfree c is) hcall
  exact ⟨r, log', hrun', requests_call hrest hc hrun'⟩

/-- A write of `n` beats from the word at byte address 4 on. -/
def writeBeats (n : Nat) : Call := ⟨streaming writeFour n, 0, BitVec.ofNat 8⟩

/-- A read of `n` beats from there. -/
def readBeats (n : Nat) : Call := ⟨streaming { writeFour with command := .read } n, 0, BitVec.ofNat 8⟩

/-- A slave that lets each request wait for some edges: the edge that issues it is followed by `n` edges
without an acknowledge and one with it. -/
def stalls (ns : List Nat) : List Slave :=
  ns.flatMap fun n => ⟨false, 0⟩ :: (List.replicate n ⟨false, 0⟩ ++ [⟨true, 7⟩])

/-- A write of two beats and then a read of three, each of which the slave lets wait for a while. -/
theorem run_wishbone_two_calls :
    ∃ q log r log', (port 32).run (Port.init fun _ => 0)
        (.call (writeBeats 2) :: edges (stalls [1, 2])) = some (q, log) ∧
      (port 32).run q (.call (readBeats 3) :: edges (stalls [1, 0, 3])) = some (r, log') ∧
      BusRules log ∧ (requests log').length = 3 := by
  obtain ⟨q, log, hrun, hrules, hcalls⟩ := run_wishbone (Port.init fun _ => 0 : Port 32)
    (Port.atRest_init _) (.call (writeBeats 2) :: edges (stalls [1, 2])) (by decide) (by decide)
  have hnext : ∀ r ∈ (port 32).run (Port.init fun _ => 0)
      (.call (writeBeats 2) :: edges (stalls [1, 2])), r.1.caller = none ∧
        InTime r.1 (.call (readBeats 3) :: edges (stalls [1, 0, 3])) ∧
        ∀ t ∈ (port 32).run r.1 (.call (readBeats 3) :: edges (stalls [1, 0, 3])),
          t.1.caller = none := by
    decide
  obtain ⟨hfree, htime, hreturned⟩ := hnext _ hrun
  obtain ⟨r, log', hrun', -, -, hcount⟩ :=
    hcalls _ 3 ⟨by decide, rfl, by decide, by decide⟩ hfree _ htime
  exact ⟨q, log, r, log', hrun, hrun', hrules, hcount (hreturned _ hrun')⟩

end DeltaModels.Tlm
