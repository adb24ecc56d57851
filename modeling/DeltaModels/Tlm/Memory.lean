import DeltaModels.Tlm.Payload

/-!
# `Memory<SIZE>`

A target with an array of `SIZE` words. The payload's address is in bytes, the array is indexed in
words, and `memcpy` moves bytes; the array is therefore kept as the bytes it consists of, word `w` at
the bytes from `4 * w` on. A copy of bytes outside the array is a fault.
-/

namespace DeltaModels.Tlm

/-- The mutable members of `Memory<SIZE>`. -/
structure Memory where
  mem : Nat → BitVec 8
  wrOps : Signal Int
  rdOps : Signal Int

namespace Memory

/-- `LATENCY`, in nanoseconds. -/
def LATENCY : Nat := 10

/-- `memcpy(ptr, &mem[adr], len)`. -/
def copyOut (SIZE : Nat) (m : Memory) (adr len ptr : Nat) (host : Host) : Except Fault Host :=
  if len = 0 ∨ 4 * adr + len ≤ 4 * SIZE then
    .ok ((Patch.span ptr (Patch.load m.mem (4 * adr) len)).apply host)
  else .error .outOfRange

/-- `memcpy(&mem[adr], ptr, len)`. -/
def copyIn (SIZE : Nat) (m : Memory) (adr len ptr : Nat) (host : Host) : Except Fault Memory :=
  if len = 0 ∨ 4 * adr + len ≤ 4 * SIZE then
    .ok { m with mem := (Patch.span (4 * adr) (Patch.load host ptr len)).apply m.mem }
  else .error .outOfRange

/-- What every accepted call does to its payload and its delay. -/
def accept (c : Call) : Call :=
  { c with
    delay := c.delay + LATENCY
    trans := { c.trans with dmiAllowed := true, responseStatus := .ok } }

/-- `Memory::b_transport`. -/
def bTransport (SIZE : Nat) (m : Memory) (c : Call) : Except Fault (Memory × Call) :=
  let adr := (c.trans.address / 4).toNat
  let ptr := c.trans.dataPtr
  let len := c.trans.dataLength
  let wid := c.trans.streamingWidth
  -- `adr = SIZE` passes this check, one word too far
  if adr > SIZE then .ok (m, c.setResponseStatus .addressError)
  else if c.trans.byteEnablePtr.isSome then .ok (m, c.setResponseStatus .byteEnableError)
  else if len > 4 ∨ wid < len then .ok (m, c.setResponseStatus .burstError)
  else
    match c.trans.command with
    | .read => do
      let host ← copyOut SIZE m adr len.toNat ptr c.host
      return ({ m with rdOps := m.rdOps.write (m.rdOps.read + 1) }, accept { c with host := host })
    | .write => do
      let m ← copyIn SIZE m adr len.toNat ptr c.host
      return ({ m with wrOps := m.wrOps.write (m.wrOps.read + 1) }, accept c)
    | .ignore => return (m, accept c)

/-- The update phase of the kernel. -/
def update (m : Memory) : Memory := { m with wrOps := m.wrOps.update, rdOps := m.rdOps.update }

/-- The bytes of word `w`. -/
def word (m : Memory) (w : Nat) : List (BitVec 8) := Patch.load m.mem (4 * w) 4

/-- Store a word. -/
def setWord (m : Memory) (w : Nat) (bytes : List (BitVec 8)) : Memory :=
  { m with mem := (Patch.span (4 * w) bytes).apply m.mem }

theorem word_setWord_self (m : Memory) (w : Nat) {bytes : List (BitVec 8)} (h : bytes.length = 4) :
    (m.setWord w bytes).word w = bytes := by
  have hload := Patch.load_span m.mem (4 * w) bytes
  rwa [h] at hload

theorem word_setWord_of_ne (m : Memory) {w v : Nat} {bytes : List (BitVec 8)}
    (h : bytes.length = 4) (hne : v ≠ w) : (m.setWord w bytes).word v = m.word v :=
  Patch.load_span_of_disjoint m.mem (by omega)

/-! ## Calls that move one word -/

/-- A word-aligned read or write of four bytes, without streaming and without byte enables. -/
structure WordAccess (c : Call) : Prop where
  command : c.trans.command ≠ .ignore
  aligned : c.trans.address.toNat % 4 = 0
  dataLength : c.trans.dataLength = 4
  streamingWidth : c.trans.streamingWidth = 4
  byteEnablePtr : c.trans.byteEnablePtr = none

/-- The word that an address names. -/
def wordOf (address : BitVec 64) : Nat := address.toNat / 4

theorem toNat_div_four (address : BitVec 64) : (address / 4).toNat = wordOf address := by
  rw [BitVec.toNat_udiv]; rfl

/-- A call that `b_transport` accepts, as far as its address allows. -/
structure Accepted (c : Call) : Prop where
  byteEnablePtr : c.trans.byteEnablePtr = none
  dataLength : ¬ c.trans.dataLength > 4
  streamingWidth : ¬ c.trans.streamingWidth < c.trans.dataLength

/-- What a call can do that does not fault: it is refused, or its command is carried out. -/
inductive Served (SIZE : Nat) (m : Memory) (c : Call) : Memory → Call → Prop
  | refused {status : ResponseStatus} (hok : status ≠ .ok)
      (haddress : status = .addressError ↔ wordOf c.trans.address > SIZE)
      (hnot : ¬ (wordOf c.trans.address ≤ SIZE ∧ Accepted c)) :
      Served SIZE m c m (c.setResponseStatus status)
  | read {host : Host} (hcmd : c.trans.command = .read) (hacc : Accepted c)
      (hcopy : copyOut SIZE m (wordOf c.trans.address) c.trans.dataLength.toNat c.trans.dataPtr c.host
        = .ok host) (hword : wordOf c.trans.address ≤ SIZE) :
      Served SIZE m c { m with rdOps := m.rdOps.write (m.rdOps.read + 1) } (accept { c with host := host })
  | write {m' : Memory} (hcmd : c.trans.command = .write) (hacc : Accepted c)
      (hcopy : copyIn SIZE m (wordOf c.trans.address) c.trans.dataLength.toNat c.trans.dataPtr c.host
        = .ok m') (hword : wordOf c.trans.address ≤ SIZE) :
      Served SIZE m c { m' with wrOps := m'.wrOps.write (m'.wrOps.read + 1) } (accept c)
  | ignore (hcmd : c.trans.command = .ignore) (hacc : Accepted c) : Served SIZE m c m (accept c)

theorem bTransport_served {SIZE : Nat} {m m' : Memory} {c c' : Call}
    (h : bTransport SIZE m c = .ok (m', c')) : Served SIZE m c m' c' := by
  simp only [bTransport, toNat_div_four] at h
  split_ifs at h with hadr hbyt hburst
  · cases h
    exact .refused (by decide) (iff_of_true rfl hadr) fun hacc => Nat.not_le.mpr hadr hacc.1
  · cases h
    refine .refused (by decide) (iff_of_false (by decide) hadr) fun hacc => ?_
    rw [hacc.2.byteEnablePtr] at hbyt
    cases hbyt
  · cases h
    exact .refused (by decide) (iff_of_false (by decide) hadr) fun hacc =>
      hburst.elim hacc.2.dataLength hacc.2.streamingWidth
  · have hword : wordOf c.trans.address ≤ SIZE := Nat.not_lt.mp hadr
    have hacc : Accepted c :=
      ⟨Option.not_isSome_iff_eq_none.mp hbyt, (not_or.mp hburst).1, (not_or.mp hburst).2⟩
    cases hcmd : c.trans.command with
    | read =>
      rw [hcmd] at h
      cases hcopy : copyOut SIZE m (wordOf c.trans.address) c.trans.dataLength.toNat c.trans.dataPtr
        c.host with
      | error fault =>
        rw [hcopy] at h
        cases h
      | ok host =>
        rw [hcopy] at h
        cases h
        exact .read hcmd hacc hcopy hword
    | write =>
      rw [hcmd] at h
      cases hcopy : copyIn SIZE m (wordOf c.trans.address) c.trans.dataLength.toNat c.trans.dataPtr
        c.host with
      | error fault =>
        rw [hcopy] at h
        cases h
      | ok m' =>
        rw [hcopy] at h
        cases h
        exact .write hcmd hacc hcopy hword
    | ignore =>
      rw [hcmd] at h
      cases h
      exact .ignore hcmd hacc

/-- **Only a call to the word behind the array can fault**, and only if it moves bytes. -/
theorem bTransport_total {SIZE : Nat} {c : Call} (m : Memory)
    (h : c.trans.dataLength = 0 ∨ wordOf c.trans.address ≠ SIZE) :
    ∃ r, bTransport SIZE m c = .ok r := by
  simp only [bTransport, toNat_div_four]
  split_ifs with hadr hbyt hburst
  · exact ⟨_, rfl⟩
  · exact ⟨_, rfl⟩
  · exact ⟨_, rfl⟩
  · have hlen : c.trans.dataLength.toNat ≤ 4 :=
      Nat.not_lt.mp fun hlt => hburst (.inl (BitVec.lt_def.mpr hlt))
    have hcopy : c.trans.dataLength.toNat = 0 ∨
        4 * wordOf c.trans.address + c.trans.dataLength.toNat ≤ 4 * SIZE := by
      rcases h with hempty | hne
      · exact .inl (congrArg BitVec.toNat hempty)
      · omega
    cases c.trans.command with
    | read =>
      rw [copyOut, if_pos hcopy]
      exact ⟨_, rfl⟩
    | write =>
      rw [copyIn, if_pos hcopy]
      exact ⟨_, rfl⟩
    | ignore => exact ⟨_, rfl⟩

/-- What a word access inside the array is tested for. -/
theorem WordAccess.tests {SIZE : Nat} {c : Call} (hc : WordAccess c)
    (hsize : wordOf c.trans.address < SIZE) :
    ¬ wordOf c.trans.address > SIZE ∧
      ¬ (c.trans.dataLength > 4 ∨ c.trans.streamingWidth < c.trans.dataLength) ∧
      4 * wordOf c.trans.address + c.trans.dataLength.toNat ≤ 4 * SIZE := by
  have hfour : (4 : BitVec 32).toNat = 4 := rfl
  rw [hc.dataLength, hc.streamingWidth, hfour]
  exact ⟨by omega, by decide, by omega⟩

/-- **A word read inside the array** copies the word into the caller's buffer. -/
theorem bTransport_read {SIZE : Nat} (m : Memory) {c : Call} (hc : WordAccess c)
    (hsize : wordOf c.trans.address < SIZE) (hcmd : c.trans.command = .read) :
    bTransport SIZE m c = .ok ({ m with rdOps := m.rdOps.write (m.rdOps.read + 1) },
      accept { c with
        host := (Patch.span c.trans.dataPtr (m.word (wordOf c.trans.address))).apply c.host }) := by
  obtain ⟨hle, hlen, hin⟩ := hc.tests hsize
  simp only [bTransport, toNat_div_four, if_neg hle, hc.byteEnablePtr, Option.isSome_none,
    Bool.false_eq_true, if_false, if_neg hlen, hcmd, copyOut, if_pos (Or.inr hin)]
  rw [hc.dataLength]
  rfl

/-- **A word write inside the array** stores the caller's buffer. -/
theorem bTransport_write {SIZE : Nat} (m : Memory) {c : Call} (hc : WordAccess c)
    (hsize : wordOf c.trans.address < SIZE) (hcmd : c.trans.command = .write) :
    bTransport SIZE m c = .ok
      ({ m.setWord (wordOf c.trans.address) (Patch.load c.host c.trans.dataPtr 4) with
        wrOps := m.wrOps.write (m.wrOps.read + 1) }, accept c) := by
  obtain ⟨hle, hlen, hin⟩ := hc.tests hsize
  simp only [bTransport, toNat_div_four, if_neg hle, hc.byteEnablePtr, Option.isSome_none,
    Bool.false_eq_true, if_false, if_neg hlen, hcmd, copyIn, if_pos (Or.inr hin)]
  rw [hc.dataLength]
  rfl

end Memory

end DeltaModels.Tlm
