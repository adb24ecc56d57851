import DeltaModels.Library.Lanes
import DeltaModels.Library.Patch
import DeltaModels.Sdram.Basic

/-!
# Byte masks of the SDRAM

A WRITE comes with one mask bit for each byte lane: a lane whose bit is set is to keep its old byte.
The loop that builds the mask tests `(byte_disable << i) & 1`, and shifting left moves bit `i` away
from the bit that is tested: in every round but the first the test is false. So bit 0 masks lane 0,
and the other three bits mask nothing (`byteMask_eq`).

* `WriteLanes` is the law of one WRITE, `LanesHold` the law of a history: each lane of each word
  holds the byte of the latest WRITE to that word which did not mask the lane.
* `MaskHarmless` is the exact condition under which a WRITE obeys: each of the lanes 1 to 3 that it
  masks holds the new byte already.
-/

namespace DeltaModels.Sdram

open Lanes

variable {A_SIZE BA_SIZE : Nat} {cfg : Config}

/-- The word that a READ or WRITE with these pins addresses. -/
def State.target (cfg : Config) (s : State BA_SIZE) (p : Bus A_SIZE BA_SIZE) : BitVec 32 :=
  (s.select p).updateAddress cfg

/-- Byte lane `i` of the word stored at `k`. -/
def State.byte (s : State BA_SIZE) (k : BitVec 32) (i : Nat) : BitVec 8 := lane (s.mem.read k) i

/-! ## The laws -/

/-- A masked lane keeps its byte and an unmasked one takes the new byte; no other word changes. -/
def WriteLanes (cfg : Config) (s : State BA_SIZE) (p : Bus A_SIZE BA_SIZE) : Prop :=
  let s' := (handleCmd cfg s .write p).1
  (∀ i < 4, s'.byte (s.target cfg p) i
      = if p.dm.getLsbD i then s.byte (s.target cfg p) i else lane p.dq i) ∧
  ∀ k, k ≠ s.target cfg p → s'.mem.read k = s.mem.read k

/-- The command `c`, if it is a WRITE that addresses the word `k`. -/
def writeTo (cfg : Config) (k : BitVec 32) (s : State BA_SIZE) (c : Command A_SIZE BA_SIZE) :
    List (Bus A_SIZE BA_SIZE) :=
  if c.cmd = .write ∧ s.target cfg c.toBus = k then [c.toBus] else []

/-- The WRITEs of a run that address the word `k`. -/
def writesTo (cfg : Config) (k : BitVec 32) :
    State BA_SIZE → List (Command A_SIZE BA_SIZE) → List (Bus A_SIZE BA_SIZE)
  | _, [] => []
  | s, c :: cs => writeTo cfg k s c ++ writesTo cfg k ((commands A_SIZE cfg).step s c).1 cs

/-- The lanes that a WRITE does not mask, with the bytes it brings. -/
def Bus.lanePatch (p : Bus A_SIZE BA_SIZE) : Patch Nat (BitVec 8) :=
  fun i => if p.dm.getLsbD i then none else some (lane p.dq i)

/-- After the commands `cs` each lane of each word holds the byte of the latest WRITE to that word
that did not mask the lane, or its initial byte if there was none. -/
def LanesHold (cfg : Config) (s : State BA_SIZE) (cs : List (Command A_SIZE BA_SIZE)) : Prop :=
  ∀ k, ∀ i < 4, ((commands A_SIZE cfg).run s cs).byte k i
    = (Patch.latest ((writesTo cfg k s cs).map Bus.lanePatch) i).getD (s.byte k i)

/-- Each masked lane that the loop overlooks holds the new byte already. -/
def MaskHarmless (cfg : Config) (s : State BA_SIZE) (p : Bus A_SIZE BA_SIZE) : Prop :=
  ∀ i, 1 ≤ i → i < 4 → p.dm.getLsbD i = true → s.byte (s.target cfg p) i = lane p.dq i

/-! ## One WRITE -/

/-- What the loop builds: bit 0 decides about lane 0, the other bits about nothing. -/
theorem byteMask_eq (dm : BitVec 4) :
    byteMask (dm.setWidth 32) = if dm.getLsbD 0 then 0xff#32 else 0#32 := by
  revert dm; decide

/-- The lane that a WRITE leaves behind. -/
theorem byte_write (s : State BA_SIZE) (p : Bus A_SIZE BA_SIZE) {i : Nat} (hi : i < 4) :
    ((handleCmd cfg s .write p).1).byte (s.target cfg p) i
      = if i = 0 ∧ p.dm.getLsbD 0 then s.byte (s.target cfg p) i else lane p.dq i := by
  have hread : ((handleCmd cfg s .write p).1).mem.read (s.target cfg p)
      = (p.dq &&& ~~~byteMask (p.dm.setWidth 32))
        ||| (s.mem.read (s.target cfg p) &&& byteMask (p.dm.setWidth 32)) := by
    simp only [handleCmd, OrdMap.read_insert]
    exact if_pos rfl
  rw [State.byte, hread, lane_merge, byteMask_eq]
  have hmask : lane (if p.dm.getLsbD 0 then 0xff#32 else 0#32) i
      = if i = 0 ∧ p.dm.getLsbD 0 then BitVec.allOnes 8 else 0#8 := by
    cases p.dm.getLsbD 0 <;> interval_cases i <;> decide
  rw [hmask]
  split
  · next h =>
    rw [BitVec.not_allOnes, BitVec.and_allOnes, BitVec.and_zero, BitVec.zero_or]
    rfl
  · next h =>
    rw [BitVec.not_zero, BitVec.and_allOnes, BitVec.and_zero, BitVec.or_zero]

/-- A WRITE stores under one key only. -/
theorem read_write_of_ne (s : State BA_SIZE) (p : Bus A_SIZE BA_SIZE) {k : BitVec 32}
    (hk : k ≠ s.target cfg p) : ((handleCmd cfg s .write p).1).mem.read k = s.mem.read k := by
  simp only [handleCmd, OrdMap.read_insert]
  exact if_neg fun h => hk h.symm

/-- A WRITE obeys its mask exactly when the mask is harmless. -/
theorem writeLanes_iff (s : State BA_SIZE) (p : Bus A_SIZE BA_SIZE) :
    WriteLanes cfg s p ↔ MaskHarmless cfg s p := by
  constructor
  · rintro ⟨hlanes, -⟩ i h1 hi hdm
    have h := hlanes i hi
    have hne : i ≠ 0 := by omega
    rw [byte_write s p hi] at h
    simpa [hne, hdm] using h.symm
  · intro h
    refine ⟨fun i hi => ?_, fun k hk => read_write_of_ne s p hk⟩
    rw [byte_write s p hi]
    rcases Nat.eq_zero_or_pos i with rfl | hpos
    · simp
    · have hne : i ≠ 0 := by omega
      cases hdm : p.dm.getLsbD i with
      | false => simp [hne]
      | true => simp [hne, h i hpos hi hdm]

/-! ## Runs -/

/-- Only a WRITE changes a stored word. -/
theorem read_of_ne_write (s : State BA_SIZE) {cmd : CmdT} (p : Bus A_SIZE BA_SIZE)
    (hcmd : cmd ≠ .write) (k : BitVec 32) :
    ((handleCmd cfg s cmd p).1).mem.read k = s.mem.read k := by
  cases cmd with
  | write => exact absurd rfl hcmd
  | nop0 | nop1 => simp only [handleCmd]; split <;> rfl
  | read => exact OrdMap.read_subscript _ _ _
  | activate | precharge | prechargeAll | refresh | loadMemReg => rfl

theorem writesTo_concat (k : BitVec 32) (s : State BA_SIZE) (cs : List (Command A_SIZE BA_SIZE))
    (c : Command A_SIZE BA_SIZE) :
    writesTo cfg k s (cs ++ [c])
      = writesTo cfg k s cs ++ writeTo cfg k ((commands A_SIZE cfg).run s cs) c := by
  induction cs generalizing s with
  | nil => simp [writesTo]
  | cons d cs ih => simp [writesTo, ih]

/-- A WRITE adds to the history of the word that it addresses. -/
theorem writeTo_write (k : BitVec 32) (s : State BA_SIZE) (p : Bus A_SIZE BA_SIZE) :
    writeTo cfg k s ⟨p, .write⟩ = if s.target cfg p = k then [p] else [] := by
  simp [writeTo]

/-- After a lawful history, a WRITE keeps the history lawful exactly when it obeys its mask. -/
theorem lanesHold_write {s : State BA_SIZE} {cs : List (Command A_SIZE BA_SIZE)}
    (h : LanesHold cfg s cs) (p : Bus A_SIZE BA_SIZE) :
    LanesHold cfg s (cs ++ [⟨p, .write⟩]) ↔ WriteLanes cfg ((commands A_SIZE cfg).run s cs) p := by
  unfold LanesHold at h
  simp only [LanesHold, WriteLanes, Mealy.run_concat, writesTo_concat, writeTo_write]
  generalize (commands A_SIZE cfg).run s cs = r at h ⊢
  have hstep : ((commands A_SIZE cfg).step r ⟨p, .write⟩).1 = (handleCmd cfg r .write p).1 := rfl
  rw [hstep]
  -- what the history says of the addressed word once `p` is part of it
  have hlatest : ∀ i < 4, (Patch.latest ((writesTo cfg (r.target cfg p) s cs ++ [p]).map
      Bus.lanePatch) i).getD (s.byte (r.target cfg p) i)
        = if p.dm.getLsbD i then r.byte (r.target cfg p) i else lane p.dq i := by
    intro i hi
    rw [List.map_append, List.map_singleton, Patch.latest_concat, h _ i hi, Bus.lanePatch]
    split
    · rw [Option.none_or]
    · rfl
  constructor
  · intro h'
    refine ⟨fun i hi => ?_, fun k hk => read_write_of_ne r p hk⟩
    have := h' (r.target cfg p) i hi
    rwa [if_pos rfl, hlatest i hi] at this
  · rintro ⟨hlanes, hframe⟩ k i hi
    by_cases hk : r.target cfg p = k
    · subst hk
      rw [if_pos rfl, hlatest i hi]
      exact hlanes i hi
    · rw [if_neg hk, List.append_nil, ← h k i hi, State.byte, hframe k (Ne.symm hk)]
      rfl

/-- One more command keeps a lawful history lawful exactly when it is no WRITE whose mask is
overlooked to some effect. -/
theorem lanesHold_concat {s : State BA_SIZE} {cs : List (Command A_SIZE BA_SIZE)}
    (h : LanesHold cfg s cs) (c : Command A_SIZE BA_SIZE) :
    LanesHold cfg s (cs ++ [c]) ↔
      (c.cmd = .write → MaskHarmless cfg ((commands A_SIZE cfg).run s cs) c.toBus) := by
  obtain ⟨p, cmd⟩ := c
  by_cases hcmd : cmd = .write
  · subst hcmd
    rw [lanesHold_write h, writeLanes_iff]
    simp
  · refine iff_of_true (fun k i hi => ?_) fun hw => absurd hw hcmd
    have hnone : writeTo cfg k ((commands A_SIZE cfg).run s cs) ⟨p, cmd⟩ = [] := by
      simp [writeTo, hcmd]
    rw [Mealy.run_concat, writesTo_concat, hnone, List.append_nil, ← h k i hi, State.byte]
    exact congrArg (lane · i) (read_of_ne_write _ p hcmd k)

/-- **The SDRAM obeys byte masks exactly where they are harmless.** A WRITE keeps the masked lanes
and the other words, and takes the unmasked lanes, exactly when each of the lanes 1 to 3 that it
masks holds the new byte already. And along any run of commands each lane holds the byte of the
latest WRITE that did not mask it exactly when that is so of every WRITE of the run. -/
theorem handleCmd_masks_iff (cfg : Config) (s : State BA_SIZE) :
    (∀ p : Bus A_SIZE BA_SIZE, WriteLanes cfg s p ↔ MaskHarmless cfg s p) ∧
    ∀ cs : List (Command A_SIZE BA_SIZE),
      (∀ pre, pre <+: cs → LanesHold cfg s pre) ↔
        ∀ pre c, pre ++ [c] <+: cs → c.cmd = .write →
          MaskHarmless cfg ((commands A_SIZE cfg).run s pre) c.toBus := by
  refine ⟨writeLanes_iff s, fun cs => ?_⟩
  have hnil : LanesHold cfg s ([] : List (Command A_SIZE BA_SIZE)) := fun k i _ => rfl
  exact (commands A_SIZE cfg).prefixes_iff_steps
    (Q := fun r c => c.cmd = .write → MaskHarmless cfg r c.toBus) hnil
    (fun pre c h => lanesHold_concat h c) cs

/-- A WRITE of `0xff00` that masks lane 1 only stores the byte that it should have masked. -/
theorem handleCmd_overlooks_mask :
    ¬ ∀ (cfg : Config) (s : State 2) (p : Bus 12 2), WriteLanes cfg s p := by
  intro h
  have hlanes := (h { geometry := { rowBits := 12, bankBits := 2, colBits := 8 } } State.init
    { a := 0, ba := 0, dq := 0xff00, dm := 2 }).1 1 (by decide)
  revert hlanes
  decide

end DeltaModels.Sdram
