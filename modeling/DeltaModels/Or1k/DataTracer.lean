import DeltaModels.Library.AccessLog
import Mathlib.Data.BitVec

/-!
# `Or1kDataTracer`

The tracer looks at the data bus at every edge of its clock and writes a line for each acknowledged
access. A line has the address, the data and the kind of access. (The time stamp in front of it is left
out.)

For a read the data is taken from `dbus_dat_w`, where the line of a write takes it from, and not from
`dbus_dat_r`. So the log is that of a memory only where the two show the same (`trace_history_iff`).
-/

namespace DeltaModels.Or1k

variable {AWIDTH DWIDTH : Nat}

/-- The pins at an edge of the clock. -/
structure Sample (AWIDTH DWIDTH : Nat) where
  clk : BitVec 1
  dbusAdr : BitVec AWIDTH
  dbusDatW : BitVec DWIDTH
  dbusDatR : BitVec DWIDTH
  dbusAck : BitVec 1
  dbusWe : BitVec 1
  deriving DecidableEq, Repr

/-- A line of the log. -/
abbrev Line := Access (BitVec 32) (BitVec 32)

/-- `Or1kDataTracer::trace`: the line that it writes, if it writes one. -/
def trace (s : Sample AWIDTH DWIDTH) : Option Line :=
  if s.clk = 1 then
    if s.dbusAck = 1 then
      let add := s.dbusAdr.setWidth 32
      if s.dbusWe = 1 then
        let dataW := s.dbusDatW.setWidth 32
        some ⟨add, dataW, true⟩
      else
        let dataR := s.dbusDatW.setWidth 32
        some ⟨add, dataR, false⟩
    else none
  else none

/-- The log of a sequence of samples. -/
def traceLog (samples : List (Sample AWIDTH DWIDTH)) : List Line := samples.filterMap trace

/-! ## The bus -/

/-- The sample shows an access: the clock is up and the slave acknowledges. -/
def Sample.acked (s : Sample AWIDTH DWIDTH) : Bool := s.clk = 1 ∧ s.dbusAck = 1

/-- What goes over the bus: the master's data on a write, the slave's on a read. -/
def Sample.access (s : Sample AWIDTH DWIDTH) : Access (BitVec AWIDTH) (BitVec DWIDTH) :=
  ⟨s.dbusAdr, if s.dbusWe = 1 then s.dbusDatW else s.dbusDatR, s.dbusWe = 1⟩

/-- The accesses of a sequence of samples. -/
def accesses (samples : List (Sample AWIDTH DWIDTH)) : List (Access (BitVec AWIDTH) (BitVec DWIDTH)) :=
  samples.filterMap fun s => if s.acked then some s.access else none

/-- The slave behaves as a memory. -/
def SlaveIsMemory (samples : List (Sample AWIDTH DWIDTH)) : Prop := Access.Consistent (accesses samples)

/-- The line of an acknowledged access. -/
def Sample.line (s : Sample AWIDTH DWIDTH) : Line :=
  ⟨s.dbusAdr.setWidth 32, s.dbusDatW.setWidth 32, s.dbusWe = 1⟩

theorem trace_eq (s : Sample AWIDTH DWIDTH) : trace s = if s.acked then some s.line else none := by
  have hacked : s.acked = true ↔ s.clk = 1 ∧ s.dbusAck = 1 := decide_eq_true_iff
  rw [trace]
  by_cases hclk : s.clk = 1
  · rw [if_pos hclk]
    by_cases hack : s.dbusAck = 1
    · rw [if_pos hack, if_pos (hacked.mpr ⟨hclk, hack⟩), Sample.line]
      split
      · next hwe => rw [decide_eq_true hwe]
      · next hwe => rw [decide_eq_false hwe]
    · rw [if_neg hack, if_neg fun h => hack (hacked.mp h).2]
  · rw [if_neg hclk, if_neg fun h => hclk (hacked.mp h).1]

/-- **One line for each access**, in order. -/
theorem traceLog_eq (samples : List (Sample AWIDTH DWIDTH)) :
    traceLog samples = (samples.filter Sample.acked).map Sample.line := by
  induction samples with
  | nil => rfl
  | cons s samples ih =>
    have htrace := trace_eq s
    cases hs : s.acked with
    | true =>
      rw [hs, if_pos rfl] at htrace
      rw [traceLog, List.filterMap_cons_some htrace, List.filter_cons_of_pos hs, List.map_cons, ← ih,
        traceLog]
    | false =>
      rw [hs, if_neg Bool.false_ne_true] at htrace
      rw [traceLog, List.filterMap_cons_none htrace, List.filter_cons_of_neg (by simp [hs]), ← ih,
        traceLog]

/-! ## The log as a history -/

/-- What a line has room for of an access. -/
def narrow : Access (BitVec AWIDTH) (BitVec DWIDTH) → Line := Access.map (·.setWidth 32) (·.setWidth 32)

/-- What has been written under the address of a line, as far as the line shows it. -/
def lastWritten (samples : List (Sample AWIDTH DWIDTH)) (add : BitVec 32) : Option (BitVec 32) :=
  Access.latestWrite ((accesses samples).map narrow) add

/-- The lines of writes tell what was written. -/
theorem latestWrite_traceLog (samples : List (Sample AWIDTH DWIDTH)) (add : BitVec 32) :
    Access.latestWrite (traceLog samples) add = lastWritten samples add := by
  induction samples using List.reverseRecOn with
  | nil => rfl
  | append_singleton samples s ih =>
    rw [traceLog, lastWritten, accesses, List.filterMap_append, List.filterMap_append, List.map_append,
      ← traceLog, ← accesses]
    have htrace := trace_eq s
    cases hs : s.acked with
    | false =>
      rw [hs, if_neg Bool.false_ne_true] at htrace
      rw [lastWritten] at ih
      simpa [htrace, hs] using ih
    | true =>
      rw [hs, if_pos rfl] at htrace
      simp only [List.filterMap_cons, htrace, hs, if_true, List.filterMap_nil, List.map_cons,
        List.map_nil]
      by_cases hwe : s.dbusWe = 1
      · -- the two entries are the same
        have hline : narrow s.access = s.line := by
          rw [narrow, Access.map, Sample.access, Sample.line, if_pos hwe]
        have hwrite : s.line.write = true := decide_eq_true hwe
        rw [hline, Access.latestWrite_concat_write _ hwrite, Access.latestWrite_concat_write _ hwrite, ih]
        rfl
      · have hline : s.line.write = false := decide_eq_false hwe
        have haccess : (narrow s.access).write = false := decide_eq_false hwe
        rw [Access.latestWrite_concat_read _ hline, Access.latestWrite_concat_read _ haccess, ih]
        rfl

/-- A read that is logged. -/
structure Sample.IsRead (s : Sample AWIDTH DWIDTH) : Prop where
  acked : s.acked = true
  we : s.dbusWe ≠ 1

/-- The log is that of a memory exactly when `dbus_dat_w` shows, at each read of an address that was
written before, what was written there. -/
theorem consistent_traceLog_iff (samples : List (Sample AWIDTH DWIDTH)) :
    Access.Consistent (traceLog samples) ↔ ∀ pre s, pre ++ [s] <+: samples → s.IsRead →
      ∀ v, lastWritten pre (s.dbusAdr.setWidth 32) = some v → s.dbusDatW.setWidth 32 = v := by
  rw [traceLog, Access.consistent_filterMap_iff]
  constructor
  · intro h pre s hpre hread v hv
    have htrace : trace s = some s.line := (trace_eq s).trans (if_pos hread.acked)
    exact h pre s s.line hpre htrace (decide_eq_false hread.we) v
      ((latestWrite_traceLog pre _).trans hv)
  · intro h pre s x hpre htrace hx v hv
    rw [trace_eq] at htrace
    split at htrace
    · next hacked =>
      cases htrace
      exact h pre s hpre ⟨hacked, of_decide_eq_false hx⟩ v ((latestWrite_traceLog pre _).symm.trans hv)
    · cases htrace

/-- A line has room for the address. -/
theorem setWidth_injective (h : AWIDTH ≤ 32) :
    Function.Injective fun a : BitVec AWIDTH => a.setWidth 32 := by
  intro a b hab
  have hback := congrArg (BitVec.setWidth AWIDTH) hab
  simpa [BitVec.setWidth_setWidth_of_le _ h] using hback

/-- **When the log is a true history of the memory.** It has one line for each access, in order. It is
the log of a memory exactly when `dbus_dat_w` shows, at each read of an address that was written before,
the data that was written there last; with addresses of 32 bits at most, exactly when `dbus_dat_w` shows
there what `dbus_dat_r` does. -/
theorem trace_history_iff (samples : List (Sample AWIDTH DWIDTH)) (hmem : SlaveIsMemory samples) :
    traceLog samples = (samples.filter Sample.acked).map Sample.line ∧
    (Access.Consistent (traceLog samples) ↔ ∀ pre s, pre ++ [s] <+: samples → s.IsRead →
      ∀ v, lastWritten pre (s.dbusAdr.setWidth 32) = some v → s.dbusDatW.setWidth 32 = v) ∧
    (AWIDTH ≤ 32 → (Access.Consistent (traceLog samples) ↔
      ∀ pre s, pre ++ [s] <+: samples → s.IsRead →
        Access.latestWrite (accesses pre) s.dbusAdr ≠ none →
          s.dbusDatW.setWidth 32 = s.dbusDatR.setWidth 32)) := by
  refine ⟨traceLog_eq samples, consistent_traceLog_iff samples, fun hwidth => ?_⟩
  rw [consistent_traceLog_iff]
  have hlast : ∀ pre (s : Sample AWIDTH DWIDTH), lastWritten pre (s.dbusAdr.setWidth 32)
      = (Access.latestWrite (accesses pre) s.dbusAdr).map fun d => d.setWidth 32 :=
    fun pre s => Access.latestWrite_map (setWidth_injective hwidth)
      (fun d : BitVec DWIDTH => d.setWidth 32) (accesses pre) s.dbusAdr
  -- what the slave answers is what was written
  have hanswer : ∀ pre s, pre ++ [s] <+: samples → s.IsRead →
      ∀ d, Access.latestWrite (accesses pre) s.dbusAdr = some d → s.dbusDatR = d := by
    intro pre s hpre hread d hd
    have haccess : (if s.acked then some s.access else none) = some s.access := if_pos hread.acked
    have hdata := (Access.consistent_filterMap_iff _ samples).mp hmem pre s s.access hpre haccess
      (decide_eq_false hread.we) d hd
    rwa [Sample.access, if_neg hread.we] at hdata
  constructor
  · intro h pre s hpre hread hwritten
    obtain ⟨d, hd⟩ := Option.ne_none_iff_exists'.mp hwritten
    rw [hanswer pre s hpre hread d hd]
    exact h pre s hpre hread _ (by rw [hlast, hd]; rfl)
  · intro h pre s hpre hread v hv
    rw [hlast, Option.map_eq_some_iff] at hv
    obtain ⟨d, hd, rfl⟩ := hv
    rw [h pre s hpre hread (by rw [hd]; exact Option.some_ne_none d), hanswer pre s hpre hread d hd]

/-- A write and a read of the same word; `datW` is what the master drives during the read. -/
def writeThenRead (datW : BitVec 32) : List (Sample 32 32) :=
  [⟨1, 4, 7, 0, 1, 1⟩, ⟨0, 4, datW, 7, 1, 0⟩, ⟨1, 4, datW, 7, 1, 0⟩]

theorem writeThenRead_slaveIsMemory (datW : BitVec 32) : SlaveIsMemory (writeThenRead datW) := by
  have haccesses : accesses (writeThenRead datW) = ([] ++ [⟨4, 7, true⟩]) ++ [⟨4, 7, false⟩] := by
    simp [accesses, writeThenRead, Sample.acked, Sample.access]
  rw [SlaveIsMemory, haccesses]
  refine Access.consistent_concat.mpr ⟨Access.consistent_concat.mpr ⟨Access.consistent_nil, ?_⟩, ?_⟩
  · intro hread
    cases hread
  · rintro - v hv
    exact Option.some.inj hv

/-- If the master goes on driving what it has written, the log is true. -/
theorem trace_history_same_data : Access.Consistent (traceLog (writeThenRead 7)) := by
  refine ((trace_history_iff (writeThenRead 7) (writeThenRead_slaveIsMemory 7)).2.2 (by decide)).mpr ?_
  intro pre s hpre hread _
  have hmem : s ∈ writeThenRead 7 := hpre.subset (by simp)
  simp only [writeThenRead, List.mem_cons, List.not_mem_nil, or_false] at hmem
  rcases hmem with rfl | rfl | rfl
  · exact absurd rfl hread.we
  · rfl
  · rfl

/-- If it drives something else, the log shows that. -/
theorem trace_history_idle_data :
    ¬ ∀ samples : List (Sample 32 32), SlaveIsMemory samples →
      traceLog samples = (samples.filter Sample.acked).map Sample.line ∧
        Access.Consistent (traceLog samples) := by
  intro h
  have hlog := (h (writeThenRead 0) (writeThenRead_slaveIsMemory 0)).2
  have hline := hlog [⟨4, 7, true⟩] ⟨4, 0, false⟩ (by decide) rfl 7 rfl
  revert hline
  decide

end DeltaModels.Or1k
