import DeltaModels.Library.Mealy
import DeltaModels.Wishbone.ClockedRam

/-!
# A `WBRAM` under any master

`handleop` looks at every other edge that shows a request. So the acknowledged requests can be read off
the waveform alone (`served`), and for these the memory is a plain memory of words with byte lanes
(`monitor_served`). The first of them that is out of bounds ends the run.

A waveform is what the bus shows at the runs of `handleop`, oldest first. The simulator runs a method
once when it starts, before any edge of the clock: that run is the first sample of the waveform.
-/

namespace DeltaModels.Wishbone

/-! ## What there is to be served -/

/-- The address is not behind `mem_size`. -/
def Master.inBounds (memSize : BitVec 32) (m : Master 32) : Bool := decide (¬ m.adrO > memSize)

/-- Every other element of a list; `skip` tells whether the first one is left out. -/
def everyOther {α : Type*} : Bool → List α → List α
  | _, [] => []
  | true, _ :: as => everyOther false as
  | false, a :: as => a :: everyOther true as

/-- The edges at which a memory looks at a request. -/
def looked (ms : List (Master 32)) : List (Master 32) := everyOther false (ms.filter Master.strobed)

/-- The requests that a memory serves: all it looks at, up to the first one that is out of bounds. -/
def served (memSize : BitVec 32) (ms : List (Master 32)) : List (Request 32) :=
  ((looked ms).takeWhile (Master.inBounds memSize)).map Master.request

/-- A memory of words with byte lanes that counts the requests. It answers with the request and the
word at its address, after the write if it is one. -/
structure Words where
  word : BitVec 32 → BitVec 32
  writes : Nat
  reads : Nat

/-- A request to a plain memory. -/
def plainMemory : Mealy (Request 32) Words (Request 32 × BitVec 32) where
  step w r :=
    if r.weO then
      let word := Wbram.merge (w.word r.adrO) r.datO r.selO
      ({ w with word := (Patch.single r.adrO word).apply w.word, writes := w.writes + 1 }, r, word)
    else ({ w with reads := w.reads + 1 }, r, w.word r.adrO)

namespace ClockedRam

variable (unset : BitVec 32)

/-- The memory as a monitor on the bus sees it: at each edge, the request and the data beside the
acknowledge, if there is one. -/
def monitor : Mealy (Master 32) ClockedRam (Option (Request 32 × BitVec 32)) where
  step s m :=
    let s' := s.edge unset m
    (s', if s'.ram.ackO then some (m.request, s'.ram.datO) else none)

/-- The memory and the plain one hold the same words and have counted the same, and a memory that has
halted is not acknowledging. -/
structure Shows (s : ClockedRam) (w : Words) : Prop where
  word : ∀ a, s.ram.wordAt unset a = w.word a
  writes : s.ram.dbWrOps = w.writes
  reads : s.ram.dbRdOps = w.reads
  halted : s.fault.isSome → s.ram.ackO = false

/-- The request that an edge serves. -/
def servedAt (s : ClockedRam) (m : Master 32) : Option (Request 32) :=
  if s.fault = none ∧ m.strobed ∧ s.ram.nTran = false ∧ m.inBounds s.ram.memSize then some m.request
  else none

/-! ## What the plain memory answers -/

variable {unset} {s : ClockedRam} {m : Master 32}

/-- A request that is served: it is acknowledged with the answer of the plain memory. -/
theorem edge_serve (h : s.Takes m) (hadr : ¬ m.adrO > s.ram.memSize) {w : Words}
    (hs : s.Shows unset w) :
    (s.edge unset m).Shows unset (plainMemory.step w m.request).1 ∧
      (s.edge unset m).fault = none ∧ (s.edge unset m).ram.nTran = true ∧
      (s.edge unset m).ram.ackO = true ∧
      (m.request, (s.edge unset m).ram.datO) = (plainMemory.step w m.request).2 := by
  have hnotHalted : ∀ ram : Wbram, (⟨ram, none⟩ : ClockedRam).fault.isSome → ram.ackO = false :=
    fun _ hfault => absurd hfault (by simp)
  cases hw : m.weO with
  | true =>
    have hstep : plainMemory.step w m.request = (⟨(Patch.single m.adrO
        (Wbram.merge (w.word m.adrO) m.datO m.selO)).apply w.word, w.writes + 1, w.reads⟩, m.request,
        Wbram.merge (w.word m.adrO) m.datO m.selO) := if_pos hw
    rw [edge_eq h.running (Wbram.handleop_write unset h.cyc h.stb h.nTran hw hadr), hstep, hs.word]
    refine ⟨⟨fun a => ?_, congrArg (· + 1) hs.writes, hs.reads, hnotHalted _⟩, rfl, rfl, rfl, rfl⟩
    show Std.ExtTreeMap.getD _ a unset = (Patch.single m.adrO _).apply w.word a
    rw [Std.ExtTreeMap.getD_insert, Patch.apply, Patch.single]
    by_cases ha : a = m.adrO
    · rw [if_pos ha, if_pos (Std.compare_eq_iff_eq.mpr ha.symm), Option.getD_some]
    · rw [if_neg ha, if_neg fun hcompare => ha (Std.compare_eq_iff_eq.mp hcompare).symm]
      exact hs.word a
  | false =>
    have hstep : plainMemory.step w m.request
        = (⟨w.word, w.writes, w.reads + 1⟩, m.request, w.word m.adrO) := if_neg (by simp [Master.request, hw])
    rw [edge_eq h.running (Wbram.handleop_read unset h.cyc h.stb h.nTran hw hadr), hstep, hs.word]
    exact ⟨⟨hs.word, hs.writes, congrArg (· + 1) hs.reads, hnotHalted _⟩, rfl, rfl, rfl, rfl⟩

/-- An edge that serves nothing changes no word and is not acknowledged. -/
theorem edge_unserved (h : s.servedAt m = none) {w : Words} (hs : s.Shows unset w) :
    (s.edge unset m).Shows unset w ∧ (s.edge unset m).ram.ackO = false := by
  obtain ⟨hhalted, hedge⟩ | ⟨-, -, hedge⟩ | ⟨-, -, -, hedge⟩ | ⟨-, -, hedge⟩ | ⟨htakes, hadr, -⟩ :=
    edge_cases unset s m
  · rw [hedge]
    exact ⟨hs, hs.halted hhalted⟩
  · rw [hedge]
    exact ⟨⟨hs.word, hs.writes, hs.reads, fun _ => rfl⟩, rfl⟩
  · rw [hedge]
    exact ⟨⟨hs.word, hs.writes, hs.reads, fun _ => rfl⟩, rfl⟩
  · rw [hedge]
    exact ⟨⟨hs.word, hs.writes, hs.reads, fun _ => rfl⟩, rfl⟩
  · have hserved : s.servedAt m = some m.request :=
      if_pos ⟨htakes.running, htakes.strobed, htakes.nTran, decide_eq_true hadr⟩
    rw [h] at hserved
    cases hserved

/-- What is served. -/
theorem servedAt_eq_some {r : Request 32} (h : s.servedAt m = some r) :
    s.Takes m ∧ ¬ m.adrO > s.ram.memSize ∧ r = m.request := by
  rw [servedAt] at h
  split at h
  · next hcond =>
    obtain ⟨hrun, hstrobed, hn, hadr⟩ := hcond
    cases h
    exact ⟨takes_of_strobed hrun hstrobed hn, of_decide_eq_true hadr, rfl⟩
  · cases h

/-! ## Runs -/

variable (unset)

/-- **Step lemma**: an edge is a request to the plain memory, or nothing is seen of it. -/
def servedStuttering : Mealy.Stuttering (monitor unset) plainMemory where
  Rel := Shows unset
  seen := servedAt
  step_rel s w m hs := by
    cases h : s.servedAt m with
    | none => exact (edge_unserved h hs).1
    | some r =>
      obtain ⟨htakes, hadr, rfl⟩ := servedAt_eq_some h
      exact (edge_serve htakes hadr hs).1
  step_out s w m hs := by
    cases h : s.servedAt m with
    | none => exact if_neg (by rw [(edge_unserved h hs).2]; exact Bool.false_ne_true)
    | some r =>
      obtain ⟨htakes, hadr, rfl⟩ := servedAt_eq_some h
      obtain ⟨-, -, -, hack, hout⟩ := edge_serve htakes hadr hs
      exact (if_pos hack).trans (congrArg some hout)

/-- A memory that has halted serves nothing more. -/
theorem inputs_halted (h : s.fault.isSome) (ms : List (Master 32)) :
    (servedStuttering unset).inputs s ms = [] ∧ ((monitor unset).run s ms).fault.isSome := by
  induction ms with
  | nil => exact ⟨rfl, h⟩
  | cons m ms ih =>
    have hnone : s.servedAt m = none := if_neg fun hcond => by simp [hcond.1] at h
    have hedge : ((monitor unset).step s m).1 = s := edge_halted h
    rw [Mealy.Stuttering.inputs, Mealy.run_cons, hedge]
    exact ⟨by rw [ih.1]; exact congrArg (Option.toList · ++ []) hnone, ih.2⟩

/-- **What is served in a run**, and when the run goes on. -/
theorem inputs_eq (hrun : s.fault = none) (ms : List (Master 32)) :
    (servedStuttering unset).inputs s ms
        = ((everyOther s.ram.nTran (ms.filter Master.strobed)).takeWhile
            (Master.inBounds s.ram.memSize)).map Master.request ∧
      (((monitor unset).run s ms).fault = none ↔
        ∀ m ∈ everyOther s.ram.nTran (ms.filter Master.strobed), m.inBounds s.ram.memSize) := by
  induction ms generalizing s with
  | nil => exact ⟨rfl, by simp [hrun, everyOther]⟩
  | cons m ms ih =>
    have hinputs : (servedStuttering unset).inputs s (m :: ms)
        = (s.servedAt m).toList ++ (servedStuttering unset).inputs (s.edge unset m) ms := rfl
    have hnext : (monitor unset).run s (m :: ms) = (monitor unset).run (s.edge unset m) ms := rfl
    rw [hinputs, hnext]
    cases hstrobed : m.strobed with
    | false =>
      have hnone : s.servedAt m = none := if_neg fun hcond => by simp [hstrobed] at hcond
      rw [hnone, List.filter_cons_of_neg (by simp [hstrobed]), edge_idle hrun hstrobed]
      exact ih rfl
    | true =>
      rw [List.filter_cons_of_pos hstrobed]
      cases hn : s.ram.nTran with
      | true =>
        have hnone : s.servedAt m = none := if_neg fun hcond => by simp [hn] at hcond
        rw [hnone, edge_release hrun hstrobed hn]
        exact ih rfl
      | false =>
        have htakes := takes_of_strobed hrun hstrobed hn
        rw [everyOther, List.takeWhile_cons, List.forall_mem_cons]
        cases hbounds : m.inBounds s.ram.memSize with
        | true =>
          have hsome : s.servedAt m = some m.request := if_pos ⟨hrun, hstrobed, hn, hbounds⟩
          have hself : s.Shows unset ⟨s.ram.wordAt unset, s.ram.dbWrOps, s.ram.dbRdOps⟩ :=
            ⟨fun _ => rfl, rfl, rfl, fun h => by simp [hrun] at h⟩
          obtain ⟨-, hfault, hparity, -⟩ := edge_serve htakes (of_decide_eq_true hbounds) hself
          have hrest := ih hfault
          rw [hparity, edge_memSize] at hrest
          rw [hsome, hrest.1, hrest.2]
          simp
        | false =>
          have hnone : s.servedAt m = none := if_neg fun hcond => by simp [hbounds] at hcond
          have hadr : m.adrO > s.ram.memSize := by simpa [Master.inBounds] using hbounds
          have hfault : (s.edge unset m).fault.isSome := by rw [edge_refuse htakes hadr]; rfl
          obtain ⟨hnothing, hhalted⟩ := inputs_halted unset hfault ms
          rw [hnone, hnothing]
          refine ⟨rfl, ?_⟩
          rw [Option.isSome_iff_ne_none] at hhalted
          simp [hhalted]

/-- The counts of a plain memory. -/
theorem plainMemory_counts (w : Words) (rs : List (Request 32)) :
    (plainMemory.run w rs).writes = w.writes + rs.countP Request.weO ∧
      (plainMemory.run w rs).reads = w.reads + rs.countP (!·.weO) := by
  induction rs generalizing w with
  | nil => exact ⟨rfl, rfl⟩
  | cons r rs ih =>
    obtain ⟨hwrites, hreads⟩ := ih (plainMemory.step w r).1
    rw [Mealy.run_cons, hwrites, hreads, List.countP_cons, List.countP_cons]
    cases hw : r.weO <;> simp [plainMemory, hw, Nat.add_assoc, Nat.add_comm 1]

/-- The words before anything is written. -/
def blank : Words := ⟨fun _ => unset, 0, 0⟩

/-- **A memory under any master.** Whatever the master drives, the acknowledges are those of the requests
at every other edge that shows one, up to the first one out of bounds, which ends the run. The data beside
them is what a plain memory answers; in the end the two hold the same words, and the counters are the
numbers of writes and reads. -/
theorem monitor_served (unset memSize : BitVec 32) (ms : List (Master 32)) :
    let s := (monitor unset).run (init memSize) ms
    ((monitor unset).trace (init memSize) ms).reduceOption
        = plainMemory.trace (blank unset) (served memSize ms) ∧
      (∀ a, s.ram.wordAt unset a = (plainMemory.run (blank unset) (served memSize ms)).word a) ∧
      s.ram.dbWrOps = (served memSize ms).countP Request.weO ∧
      s.ram.dbRdOps = (served memSize ms).countP (!·.weO) ∧
      (s.fault = none ↔ ∀ m ∈ looked ms, ¬ m.adrO > memSize) := by
  intro s
  have hinit : (init memSize).Shows unset (blank unset) :=
    ⟨fun a => by simp [init, Wbram.init, Wbram.wordAt, blank], rfl, rfl, fun _ => rfl⟩
  obtain ⟨hinputs, hfault⟩ := inputs_eq unset (s := init memSize) rfl ms
  obtain ⟨hshows, htrace⟩ := (servedStuttering unset).follows hinit ms
  rw [hinputs] at hshows htrace
  obtain ⟨hwrites, hreads⟩ := plainMemory_counts (blank unset) (served memSize ms)
  refine ⟨htrace, hshows.word, ?_, ?_, ?_⟩
  · exact hshows.writes.trans (hwrites.trans (Nat.zero_add _))
  · exact hshows.reads.trans (hreads.trans (Nat.zero_add _))
  · exact hfault.trans (forall₂_congr fun m _ => decide_eq_true_iff)

/-- A master that withdraws its strobe with the acknowledge: its second request is served an edge late,
and a third one that is shown at one edge only is not served at all. -/
example :
    let request : BitVec 32 → Master 32 := fun adr => ⟨adr, 0, false, 0, true, true⟩
    let idle : Master 32 := ⟨0, 0, false, 0, false, false⟩
    (served 0x100 [request 1, idle, request 2, request 2, idle, request 3]).map Request.adrO
      = [1, 2] := by
  decide

end ClockedRam

end DeltaModels.Wishbone
