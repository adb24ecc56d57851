import DeltaModels.Flash.QuadRead

/-!
# The log of the flash

In the response phase the flash writes a line at every falling edge: an address, the index of a
half-byte and its value. The phase begins with a rising edge of its own, so each transaction has a line
before the first nibble, with index and value 0; and the address is computed when the counter has gone
on, so it is that of the byte that comes next once the low half has been read. Otherwise the log of a
session tells all the nibbles that have been served (`quadReads_logged`).
-/

namespace DeltaModels.Flash

variable {D : BitVec 32}

/-- The lines that are written in a number of clock periods. -/
def logged (D : BitVec 32) (s : State) (ps : List Sample) : List LogLine :=
  ((periods D).trace s ps).flatMap fun e => e.1.log.toList ++ e.2.log.toList

/-- The line that the falling edge writes in a state. -/
def State.line (s : State) : Option LogLine :=
  if s.phase = .quadReadRespPhase then some ⟨s.addr + s.cnt / 2, s.idx, s.word⟩ else none

/-- The line in front of a transaction's nibbles. -/
def QuadRead.opens (t : QuadRead D) : LogLine := ⟨t.addr.setWidth 32, 0, 0⟩

/-- The line of the nibble `k` of a read from `a` on. -/
def nibbleLine (img : Nat → BitVec 8) (a : BitVec 24) (k : Nat) : LogLine where
  addr := a.setWidth 32 + BitVec.ofNat 32 (k + 1) / 2
  idx := BitVec.ofNat 32 (2 * a.toNat + k)
  word := (nibble img (2 * a.toNat + k)).setWidth 8

/-- The lines of a transaction. -/
def QuadRead.lines (img : Nat → BitVec 8) (t : QuadRead D) : List LogLine :=
  t.opens :: (List.range t.resp.length).map (nibbleLine img t.addr)

/-! ## Periods -/

/-- The rising edge writes nothing. -/
theorem rise_log (s : State) (csN : BitVec 1) (dq : BitVec 4) :
    (flashHandler D s (.rise csN dq)).2.log = none := by
  unfold flashHandler
  cases s.phase <;> (dsimp only; split_ifs <;> rfl)

theorem fall_log (s : State) :
    (flashHandler D s (.fall : Edge 4)).2.log = s.line := by
  rw [State.line, flashHandler]
  split <;> rfl

/-- A period writes the line of the state that it ends in. -/
theorem logged_cons (s : State) (p : Sample) (ps : List Sample) :
    logged D s (p :: ps) = (period D s p).1.line.toList ++ logged D (period D s p).1 ps := by
  have hline : (period D s p).2.1.log.toList ++ (period D s p).2.2.log.toList
      = (period D s p).1.line.toList := by
    simp only [period, rise_log, fall_log, flashHandler_fall_fst]
    rfl
  rw [logged, Mealy.trace_cons, List.flatMap_cons]
  exact congrArg₂ (· ++ ·) hline rfl

theorem logged_append (s : State) (ps qs : List Sample) :
    logged D s (ps ++ qs) = logged D s ps ++ logged D ((periods D).run s ps) qs := by
  rw [logged, Mealy.trace_append, List.flatMap_append]
  rfl

theorem line_of_ne {s : State} (h : s.phase ≠ .quadReadRespPhase) : s.line = none := if_neg h

/-- With the chip selected the response phase does not end. -/
theorem phase_selected {s : State} (h : s.phase = .quadReadRespPhase) (dqs : List (BitVec 4)) :
    ((periods D).run s (selected dqs)).phase = .quadReadRespPhase := by
  induction dqs generalizing s with
  | nil => exact h
  | cons dq dqs ih =>
    rw [run_selected_cons]
    refine ih ?_
    rw [period_fst]
    simp [flashHandler, h]

/-- So what ends in another phase has written nothing. -/
theorem logged_selected {s : State} {dqs : List (BitVec 4)}
    (h : ((periods D).run s (selected dqs)).phase ≠ .quadReadRespPhase) :
    logged D s (selected dqs) = [] := by
  induction dqs generalizing s with
  | nil => rfl
  | cons dq dqs ih =>
    rw [run_selected_cons] at h
    have hfirst : (period D s ⟨0, dq⟩).1.phase ≠ .quadReadRespPhase :=
      fun hresp => h (phase_selected hresp dqs)
    show logged D s (⟨0, dq⟩ :: selected dqs) = []
    rw [logged_cons, line_of_ne hfirst, ih h]
    rfl

/-- With the chip deselected nothing is written either. -/
theorem logged_deselected {s : State} (h : s.phase = .idlePhase ∨ s.phase = .quadReadRespPhase)
    (dqs : List (BitVec 4)) : logged D s (deselected dqs) = [] := by
  induction dqs generalizing s with
  | nil => rfl
  | cons dq dqs ih =>
    have hidle : (period D s ⟨1, dq⟩).1.phase = .idlePhase := by
      rw [period_fst]
      rcases h with h | h <;> simp [flashHandler, h]
    show logged D s (⟨1, dq⟩ :: deselected dqs) = []
    rw [logged_cons, line_of_ne (by rw [hidle]; decide), ih (.inl hidle)]
    rfl

/-! ## A transaction -/

section Transaction

variable {mem : OrdMap (BitVec 32) (BitVec 8)} {img : Nat → BitVec 8} {a : BitVec 24} {k : Nat}
  {s : State}

/-- The command and the address write nothing. -/
theorem logged_command {s : State} (h : s.phase = .idlePhase) (t : QuadRead D) :
    logged D s (selected ((List.range 8).map t.cmdSample)
      ++ selected ((List.range 6).map t.addrSample)) = [] := by
  have hcmd := run_command h t
  have haddr := run_address hcmd t
  rw [logged_append, logged_selected (by rw [hcmd.phase]; decide),
    logged_selected (by rw [haddr.phase]; decide), List.append_nil]

theorem addr_eq (h : s.addr.toNat = a.toNat) : s.addr = a.setWidth 32 := by
  refine BitVec.eq_of_toNat_eq ?_
  have hlt := a.isLt
  rw [h, BitVec.toNat_setWidth]
  omega

/-- The period that brings the counter up to `D` leaves index and value 0. -/
theorem line_first (h : Waiting mem a k s) (hk : k + 1 < 2 ^ 32) (hD : D.toNat ≤ k + 1)
    (dq : BitVec 4) : (period D s ⟨0, dq⟩).1.line = some ⟨a.setWidth 32, 0, 0⟩ := by
  have hge : s.cnt + 1 ≥ D := by
    rw [ge_iff_le, BitVec.le_def, waiting_cnt h hk]
    exact hD
  rw [period_fst]
  simp only [flashHandler, h.phase, if_pos hge, State.line, if_true, addr_eq h.addr]
  simp

/-- The last dummy period writes the line that opens the transaction. -/
theorem logged_dummies {dqs : List (BitVec 4)} (h : Waiting mem a k s) (hk : k + 1 < 2 ^ 32)
    (hne : dqs ≠ []) (hlen : k + dqs.length = max (k + 1) D.toNat) :
    logged D s (selected dqs) = [⟨a.setWidth 32, 0, 0⟩] := by
  induction dqs generalizing k s with
  | nil => exact absurd rfl hne
  | cons dq dqs ih =>
    have hD := D.isLt
    rw [List.length_cons] at hlen
    show logged D s (⟨0, dq⟩ :: selected dqs) = _
    rw [logged_cons]
    by_cases hlast : dqs = []
    · subst hlast
      rw [List.length_nil] at hlen
      rw [line_first h hk (by omega) dq]
      rfl
    · have hpos : 0 < dqs.length := List.length_pos_of_ne_nil hlast
      have hnext := waiting_next (D := D) h (by omega) dq
      rw [line_of_ne (by rw [hnext.phase]; decide), ih hnext (by omega) hlast (by omega)]
      rfl

/-- A response period writes the line of its nibble. -/
theorem line_next (h : Answering img a k s) (hk : 2 * a.toNat + k < 2 ^ 32) (dq : BitVec 4) :
    (period D s ⟨0, dq⟩).1.line = some (nibbleLine img a k) := by
  have hserving : Serving s.confMemory a k s := ⟨h.phase, h.cnt, h.addr, fun _ => rfl⟩
  have hcnt : s.cnt + 1 = BitVec.ofNat 32 (k + 1) := by
    rw [h.cnt, BitVec.ofNat_add]
    rfl
  have hword : s.confMemory.read (BitVec.ofNat 32 (2 * a.toNat + k))
      = (nibble img (2 * a.toNat + k)).setWidth 8 := by
    rw [h.holds, BitVec.toNat_ofNat, Nat.mod_eq_of_lt hk]
  rw [period_fst]
  simp only [flashHandler, h.phase, if_true, serving_idx hserving, hcnt, hword, State.line]
  rw [addr_eq h.addr]
  rfl

/-- The response phase writes the lines of its nibbles in order. -/
theorem logged_responses {dqs : List (BitVec 4)} (h : Answering img a k s)
    (hk : 2 * a.toNat + k + dqs.length ≤ 2 ^ 32) :
    logged D s (selected dqs) = (List.range' k dqs.length).map (nibbleLine img a) := by
  induction dqs generalizing k s with
  | nil => rfl
  | cons dq dqs ih =>
    rw [List.length_cons] at hk
    have hnext := (answering_step (D := D) h (by omega) dq).1
    show logged D s (⟨0, dq⟩ :: selected dqs) = _
    rw [logged_cons, line_next h (by omega), ih hnext (by omega), List.length_cons, List.range'_succ]
    rfl

/-- **One transaction** writes the line that opens it, and then a line for each nibble. -/
theorem logged_quadRead (h : s.phase = .idlePhase) (hmem : Holds s.confMemory img) (t : QuadRead D)
    (ht : 2 * t.addr.toNat + t.resp.length ≤ 2 ^ 32) : logged D s t.samples = t.lines img := by
  have hreq := run_request h hmem t
  have hresp := (trace_responses (D := D) hreq (by simpa using ht)).2
  have hrequest : logged D s t.request = [t.opens] := by
    have haddr := run_address (run_command h t) t
    have hlen := t.dummies_length
    rw [dummyEdges] at hlen
    rw [QuadRead.request, logged_append, logged_command h t, Mealy.run_append]
    cases hd : t.dummies with
    | nil => rw [hd, List.length_nil] at hlen; omega
    | cons dq dqs =>
      rw [hd, List.length_cons] at hlen
      have hne : dqs ≠ [] := by rintro rfl; rw [List.length_nil] at hlen; omega
      have hfirst := waiting_first (D := D) haddr dq
      show [] ++ logged D _ (⟨0, dq⟩ :: selected dqs) = _
      rw [logged_cons, line_of_ne (by rw [hfirst.phase]; decide),
        logged_dummies hfirst (by omega) hne (by omega)]
      rfl
  rw [QuadRead.samples, logged_append, logged_append, hrequest,
    logged_responses hreq (by simpa using ht), Mealy.run_append,
    logged_deselected (.inr hresp.phase), List.append_nil, QuadRead.lines, List.range_eq_range']
  rfl

/-- A session writes the lines of its transactions. -/
theorem logged_session (h : s.phase = .idlePhase) (hmem : Holds s.confMemory img)
    (ts : List (QuadRead D)) (hts : ∀ t ∈ ts, 2 * t.addr.toNat + t.resp.length ≤ 2 ^ 32) :
    logged D s (ts.flatMap QuadRead.samples) = ts.flatMap (QuadRead.lines img) := by
  induction ts generalizing s with
  | nil => rfl
  | cons t ts ih =>
    have ht := hts t (by simp)
    obtain ⟨-, hidle, hmem'⟩ := run_quadRead h hmem t ht
    rw [List.flatMap_cons, List.flatMap_cons, logged_append, logged_quadRead h hmem t ht,
      ih hidle hmem' fun u hu => hts u (by simp [hu])]

end Transaction

/-- **The log of a session.** After any `configure_region` calls on files shorter than 2 GiB that fit the
half-byte address space, every sequence of complete transactions writes, for each of them, a line with
its address, index 0 and value 0, and then one line for each nibble that it has been served, with the
index and the value of the nibble in the image that the calls stored. The address of such a line is
that of the nibble's byte for a high half, and of the byte after it for a low half. -/
theorem quadReads_logged (cmd : BitVec 8) (cnt addr : BitVec 32) (rs : List Region)
    (hfit : ∀ r ∈ rs, r.Fits) (hshort : ∀ r ∈ rs, r.Short) (ts : List (QuadRead D))
    (hts : ∀ t ∈ ts, 2 * t.addr.toNat + t.resp.length ≤ 2 ^ 32) :
    ∃ s, configure (State.fresh cmd cnt addr) rs = some s ∧
      logged D s (ts.flatMap QuadRead.samples) = ts.flatMap (QuadRead.lines (image rs)) := by
  obtain ⟨mem, hconf, hmem⟩ := configure_image (s := State.fresh cmd cnt addr) rfl hfit hshort
  exact ⟨_, hconf, logged_session rfl hmem ts hts⟩

end DeltaModels.Flash
