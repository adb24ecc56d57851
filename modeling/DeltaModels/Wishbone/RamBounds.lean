import DeltaModels.Wishbone.RamWaveforms

/-!
# How many words a `WBRAM` holds

A memory of `mem_size` words has the addresses below `mem_size`. `retrieve_word` and `set_word` refuse
an address above it, and so the address `mem_size` itself is one more word: it is acknowledged and
stored like the others.

`bounded_iff` says that nothing else goes wrong. On every waveform in which no request that is served is
for that address, the keys stay below `mem_size`, no edge that shows an address from there on is
acknowledged, and such a request ends in the fatal report when the memory looks at it.
-/

namespace DeltaModels.Wishbone.ClockedRam

/-- The waveform `pre` leaves the memory to look at a request of the next edge, rather than to wait for
the last one to go away. -/
structure Looks (pre : List (Master 32)) (m : Master 32) : Prop where
  strobed : m.strobed = true
  turn : Even (pre.countP Master.strobed)

/-- After the waveform `pre`, the edge `m` leaves the keys below `mem_size`. An address from there on is
not acknowledged and leaves the map as it is, and a request for it ends in the fatal report. -/
structure Bounded (unset memSize : BitVec 32) (pre : List (Master 32)) (m : Master 32) : Prop where
  keys : ∀ k ∈ ((monitor unset).run (init memSize) (pre ++ [m])).ram.memory, k < memSize
  silent : memSize ≤ m.adrO →
    ((monitor unset).run (init memSize) (pre ++ [m])).ram.ackO = false ∧
      ((monitor unset).run (init memSize) (pre ++ [m])).ram.memory
        = ((monitor unset).run (init memSize) pre).ram.memory
  reported : memSize ≤ m.adrO → Looks pre m →
    ((monitor unset).run (init memSize) (pre ++ [m])).fault = some Wbram.outOfBound

variable {unset memSize : BitVec 32} {pre : List (Master 32)} {s : ClockedRam} {m : Master 32}

/-! ## One edge -/

/-- What is known of the state after the waveform `pre`: the keys are below the size that the memory was
constructed with, and until the report `n_tran` is the parity of the edges that show a request. -/
structure Tracks (memSize : BitVec 32) (pre : List (Master 32)) (s : ClockedRam) : Prop where
  size : s.ram.memSize = memSize
  keys : ∀ k ∈ s.ram.memory, k < memSize
  turn : s.fault = none → (s.ram.nTran = false ↔ Even (pre.countP Master.strobed))
  halted : s.fault.isSome → s.fault = some Wbram.outOfBound ∧ s.ram.ackO = false

theorem countP_concat_strobed (pre : List (Master 32)) (h : m.strobed = true) :
    Even ((pre ++ [m]).countP Master.strobed) ↔ ¬ Even (pre.countP Master.strobed) := by
  rw [List.countP_append, List.countP_singleton, if_pos h, Nat.even_add_one]

/-- A request that is served is for an address up to `mem_size`. -/
theorem Tracks.adrO_lt (hs : Tracks memSize pre s) (htakes : s.Takes m) (hadr : ¬ m.adrO > s.ram.memSize)
    (hm : ∀ r, s.servedAt m = some r → r.adrO ≠ memSize) : m.adrO < memSize := by
  have hserved : s.servedAt m = some m.request :=
    if_pos ⟨htakes.running, htakes.strobed, htakes.nTran, decide_eq_true hadr⟩
  rw [hs.size] at hadr
  exact BitVec.lt_of_le_ne (BitVec.not_lt.mp hadr) (hm _ hserved)

/-- **Step lemma**: an edge that serves no request for address `mem_size`. -/
theorem Tracks.edge (hs : Tracks memSize pre s) (hm : ∀ r, s.servedAt m = some r → r.adrO ≠ memSize) :
    Tracks memSize (pre ++ [m]) (s.edge unset m) := by
  have hsize : (s.edge unset m).ram.memSize = memSize := (edge_memSize s m).trans hs.size
  obtain ⟨hhalted, hedge⟩ | ⟨hrun, hidle, hedge⟩ | ⟨hrun, hstrobed, hn, hedge⟩ | ⟨-, -, hedge⟩ |
    ⟨htakes, hadr, hserves⟩ := edge_cases unset s m
  · rw [hedge] at hsize ⊢
    exact ⟨hsize, hs.keys, fun hrun => absurd hhalted (by simp [hrun]), hs.halted⟩
  · rw [hedge] at hsize ⊢
    refine ⟨hsize, hs.keys, fun _ => ?_, fun h => by cases h⟩
    rw [List.countP_append, List.countP_singleton, hidle]
    exact hs.turn hrun
  · rw [hedge] at hsize ⊢
    refine ⟨hsize, hs.keys, fun _ => ?_, fun h => by cases h⟩
    rw [countP_concat_strobed pre hstrobed, ← hs.turn hrun, hn]
    simp
  · rw [hedge] at hsize ⊢
    exact ⟨hsize, hs.keys, fun h => (by cases h), fun _ => ⟨rfl, rfl⟩⟩
  · have hlt : m.adrO < memSize := hs.adrO_lt htakes hadr hm
    refine ⟨hsize, fun k hk => ?_, fun _ => ?_, fun h => ?_⟩
    · rcases hserves.keys k hk with hold | rfl
      · exact hs.keys k hold
      · exact hlt
    · rw [countP_concat_strobed pre htakes.strobed, ← hs.turn htakes.running, htakes.nTran,
        hserves.nTran]
      simp
    · rw [hserves.fault] at h
      cases h

/-- After such an edge, an address from `mem_size` on has not been acknowledged or stored. -/
theorem Tracks.silent (hs : Tracks memSize pre s) (hm : ∀ r, s.servedAt m = some r → r.adrO ≠ memSize)
    (hge : memSize ≤ m.adrO) :
    (s.edge unset m).ram.ackO = false ∧ (s.edge unset m).ram.memory = s.ram.memory := by
  obtain ⟨hhalted, hedge⟩ | ⟨-, -, hedge⟩ | ⟨-, -, -, hedge⟩ | ⟨-, -, hedge⟩ | ⟨htakes, hadr, -⟩ :=
    edge_cases unset s m
  · rw [hedge]
    exact ⟨(hs.halted hhalted).2, rfl⟩
  · rw [hedge]
    exact ⟨rfl, rfl⟩
  · rw [hedge]
    exact ⟨rfl, rfl⟩
  · rw [hedge]
    exact ⟨rfl, rfl⟩
  · exact absurd (hs.adrO_lt htakes hadr hm) (BitVec.not_lt.mpr hge)

/-- A request that the memory looks at is taken, unless a report has ended the simulation before. -/
theorem Tracks.reported (hs : Tracks memSize pre s)
    (hm : ∀ r, s.servedAt m = some r → r.adrO ≠ memSize) (hge : memSize ≤ m.adrO) (hlooks : Looks pre m) :
    (s.edge unset m).fault = some Wbram.outOfBound := by
  obtain ⟨hhalted, hedge⟩ | ⟨-, hidle, -⟩ | ⟨hrun, -, hn, -⟩ | ⟨-, -, hedge⟩ | ⟨htakes, hadr, -⟩ :=
    edge_cases unset s m
  · rw [hedge]
    exact (hs.halted hhalted).1
  · rw [hlooks.strobed] at hidle
    cases hidle
  · rw [(hs.turn hrun).mpr hlooks.turn] at hn
    cases hn
  · rw [hedge]
  · exact absurd (hs.adrO_lt htakes hadr hm) (BitVec.not_lt.mpr hge)

/-! ## Runs -/

variable (unset memSize)

/-- **Run lemma**, by induction on the waveform from its end. -/
theorem tracks_run (hms : ∀ pre' m, pre' ++ [m] <+: pre →
    ∀ r, ((monitor unset).run (init memSize) pre').servedAt m = some r → r.adrO ≠ memSize) :
    Tracks memSize pre ((monitor unset).run (init memSize) pre) := by
  induction pre using List.reverseRecOn with
  | nil =>
    refine ⟨rfl, fun k hk => ?_, fun _ => ⟨fun _ => Even.zero, fun _ => rfl⟩, fun h => by cases h⟩
    simp [init, Wbram.init] at hk
  | append_singleton pre m ih =>
    rw [Mealy.run_concat]
    exact (ih fun pre' m' h => hms pre' m' (h.trans (List.prefix_append pre [m]))).edge
      (hms pre m (List.prefix_refl _))

/-- A served request for address `mem_size` is acknowledged. -/
theorem Bounded.adrO_ne (h : Bounded unset memSize pre m) {r : Request 32}
    (hserved : ((monitor unset).run (init memSize) pre).servedAt m = some r) : r.adrO ≠ memSize := by
  intro hadr
  obtain ⟨htakes, hle, rfl⟩ := servedAt_eq_some hserved
  have hsilent := (h.silent (BitVec.le_of_eq hadr.symm)).1
  rw [Mealy.run_concat] at hsilent
  rw [show ((monitor unset).step _ m).1.ram.ackO = true from (edge_accept htakes hle).ack] at hsilent
  cases hsilent

/-- The requests that are served, one edge at a time. -/
theorem served_iff (ms : List (Master 32)) :
    (∀ r ∈ served memSize ms, r.adrO ≠ memSize) ↔ ∀ pre m, pre ++ [m] <+: ms →
      ∀ r, ((monitor unset).run (init memSize) pre).servedAt m = some r → r.adrO ≠ memSize := by
  have hinputs : (servedStuttering unset).inputs (init memSize) ms = served memSize ms :=
    (inputs_eq unset rfl ms).1
  rw [← Mealy.along_iff_prefixes (monitor unset)
    fun s m => ∀ r, s.servedAt m = some r → r.adrO ≠ memSize, ← hinputs]
  exact (servedStuttering unset).forall_mem_inputs (fun r => r.adrO ≠ memSize) _ ms

/-- **When a memory holds exactly `mem_size` words**: if no request that is served is for the address
`mem_size`. -/
theorem bounded_iff (ms : List (Master 32)) :
    (∀ pre m, pre ++ [m] <+: ms → Bounded unset memSize pre m) ↔
      ∀ r ∈ served memSize ms, r.adrO ≠ memSize := by
  rw [served_iff unset memSize ms]
  constructor
  · intro h pre m hpre r hserved
    exact (h pre m hpre).adrO_ne unset memSize hserved
  · intro h pre m hpre
    have hs : Tracks memSize pre ((monitor unset).run (init memSize) pre) :=
      tracks_run unset memSize fun pre' m' h' =>
        h pre' m' (h'.trans ((List.prefix_append pre [m]).trans hpre))
    have hm := h pre m hpre
    refine ⟨?_, ?_, ?_⟩ <;> rw [Mealy.run_concat]
    · exact (hs.edge hm).keys
    · exact hs.silent hm
    · exact hs.reported hm

/-- A write to the address behind the last word is acknowledged. -/
theorem bounded_not_memSize : ¬ ∀ (unset memSize : BitVec 32) (ms : List (Master 32)),
    ∀ pre m, pre ++ [m] <+: ms → Bounded unset memSize pre m := by
  intro h
  have hbounded := h 0 0x100 [⟨0x100, 0, true, 0, true, true⟩] [] _ (List.prefix_refl _)
  have hack : false = true := (hbounded.silent (by decide)).1.symm
  cases hack

end DeltaModels.Wishbone.ClockedRam
