import DeltaModels.Tlm.Memory
import Mathlib.Data.List.Basic
import Mathlib.Tactic.IntervalCases

/-!
# The access paths of `Memory<SIZE>`

Besides `b_transport` a memory serves debug transactions and hands out a pointer to its array. The two
transport functions divide the address by 4 and copy from the start of that word; behind the pointer
byte `b` of the region is byte `b` of the array. So at an address inside a word the transports show
other bytes than the pointer does. `accessPaths_agree_iff` says that this is the only difference.
-/

namespace DeltaModels.Tlm

namespace Memory

/-- `tlm_dmi`, with `dmi_ptr` as an offset into the array and the latencies in nanoseconds. -/
structure Dmi where
  dmiPtr : Nat
  startAddress : BitVec 64
  endAddress : BitVec 64
  readLatency : Nat
  writeLatency : Nat
  readAllowed : Bool
  writeAllowed : Bool
  deriving DecidableEq, Repr

/-- `Memory::get_direct_mem_ptr`. The end address is computed in `unsigned int`. -/
def getDirectMemPtr (SIZE : Nat) : Bool × Dmi :=
  (true, {
    dmiPtr := 0
    startAddress := 0
    endAddress := (BitVec.ofNat 32 SIZE * 4 - 1).setWidth 64
    readLatency := LATENCY
    writeLatency := LATENCY
    readAllowed := true
    writeAllowed := true })

/-- Where the byte with address `b` of the region lies. -/
def Dmi.index (dmi : Dmi) (b : Nat) : Nat := dmi.dmiPtr + (b - dmi.startAddress.toNat)

/-- `Memory::transport_dbg`: the memory, the call, and the number of bytes copied. -/
def transportDbg (SIZE : Nat) (m : Memory) (c : Call) : Except Fault (Memory × Call × BitVec 32) :=
  let adr := c.trans.address / 4
  let ptr := c.trans.dataPtr
  let len := c.trans.dataLength
  -- in the arithmetic of `uint64`, like the comparison with it
  let room := (BitVec.ofNat 64 SIZE - adr) * 4
  let numBytes := if len.setWidth 64 < room then len else room.setWidth 32
  match c.trans.command with
  | .read => do
    let host ← copyOut SIZE m adr.toNat numBytes.toNat ptr c.host
    return (m, { c with host := host }, numBytes)
  | .write => do
    let m ← copyIn SIZE m adr.toNat numBytes.toNat ptr c.host
    return (m, c, numBytes)
  | .ignore => return (m, c, numBytes)

/-! ## Writing and reading on each path -/

/-- A write on one of the paths. -/
inductive Store where
  | transport (c : Call)
  | debug (c : Call)
  | direct (b : Nat) (bytes : List (BitVec 8))

/-- One write: a transport that is answered with OK, a debug transaction, or a copy through the pointer
to bytes inside the array. -/
def store (SIZE : Nat) (m : Memory) : Store → Option Memory
  | .transport c =>
    match bTransport SIZE m c with
    | .ok (m', c') =>
      if c.trans.command = .write ∧ c'.trans.responseStatus = .ok then some m' else none
    | .error _ => none
  | .debug c =>
    match transportDbg SIZE m c with
    | .ok (m', _, _) => if c.trans.command = .write then some m' else none
    | .error _ => none
  | .direct b bytes =>
    if b + bytes.length ≤ 4 * SIZE then
      some { m with mem := (Patch.span ((getDirectMemPtr SIZE).2.index b) bytes).apply m.mem }
    else none

/-- A sequence of writes, if all of them are made. -/
def stores (SIZE : Nat) (m : Memory) (ws : List Store) : Option Memory := ws.foldlM (store SIZE) m

/-- The bytes that a read by `b_transport` returns, if it is answered with OK. -/
def readTransport (SIZE : Nat) (m : Memory) (c : Call) : Option (List (BitVec 8)) :=
  match bTransport SIZE m c with
  | .ok (_, c') =>
    if c'.trans.responseStatus = .ok then
      some (Patch.load c'.host c.trans.dataPtr c.trans.dataLength.toNat)
    else none
  | .error _ => none

/-- The bytes that a read by `transport_dbg` returns. -/
def readDebug (SIZE : Nat) (m : Memory) (c : Call) : Option (List (BitVec 8)) :=
  match transportDbg SIZE m c with
  | .ok (_, c', numBytes) => some (Patch.load c'.host c.trans.dataPtr numBytes.toNat)
  | .error _ => none

/-- The bytes of the same range, read through the pointer. -/
def readDirect (SIZE : Nat) (m : Memory) (c : Call) : List (BitVec 8) :=
  Patch.load m.mem ((getDirectMemPtr SIZE).2.index c.trans.address.toNat) c.trans.dataLength.toNat

/-- Where `b_transport` accepts the read `c`, all paths return the same bytes. -/
def PathsAgree (SIZE : Nat) (m : Memory) (c : Call) : Prop :=
  ∀ bytes, readTransport SIZE m c = some bytes →
    readDebug SIZE m c = some bytes ∧ readDirect SIZE m c = bytes

/-! ## What each path reads -/

/-- The range of a call lies inside the array. -/
def Inside (SIZE : Nat) (c : Call) : Prop :=
  c.trans.address.toNat + c.trans.dataLength.toNat ≤ 4 * SIZE

instance (SIZE : Nat) (c : Call) : Decidable (Inside SIZE c) :=
  inferInstanceAs (Decidable (_ ≤ _))

variable {SIZE : Nat} {m : Memory} {c : Call}

theorem Inside.word (h : Inside SIZE c) :
    wordOf c.trans.address ≤ SIZE ∧
      4 * wordOf c.trans.address + c.trans.dataLength.toNat ≤ 4 * SIZE := by
  simp only [Inside, wordOf] at h ⊢
  omega

/-- Other answers are not OK. -/
theorem accepted_of_readTransport (h : (readTransport SIZE m c).isSome) : Accepted c := by
  unfold readTransport at h
  split at h
  · next m' c' hcall =>
    cases bTransport_served hcall with
    | refused hok =>
      rw [if_neg (by exact hok)] at h
      cases h
    | read hcmd hacc => exact hacc
    | write hcmd hacc => exact hacc
    | ignore hcmd hacc => exact hacc
  · cases h

/-- `b_transport` returns the bytes from the start of the word. -/
theorem readTransport_eq (m : Memory) (hin : Inside SIZE c) (hacc : Accepted c)
    (hcmd : c.trans.command = .read) :
    readTransport SIZE m c
      = some (Patch.load m.mem (4 * wordOf c.trans.address) c.trans.dataLength.toNat) := by
  have hadr : ¬ wordOf c.trans.address > SIZE := Nat.not_lt.mpr hin.word.1
  have hburst : ¬ (c.trans.dataLength > 4 ∨ c.trans.streamingWidth < c.trans.dataLength) :=
    not_or.mpr ⟨hacc.dataLength, hacc.streamingWidth⟩
  simp only [readTransport, bTransport, toNat_div_four, if_neg hadr, hacc.byteEnablePtr,
    Option.isSome_none, Bool.false_eq_true, if_false, if_neg hburst, hcmd, copyOut,
    if_pos (Or.inr hin.word.2)]
  exact congrArg some (Patch.load_span_load ..)

/-- The number of bytes that a debug transaction copies. -/
def numBytes (SIZE : Nat) (c : Call) : BitVec 32 :=
  let room := (BitVec.ofNat 64 SIZE - c.trans.address / 4) * 4
  if c.trans.dataLength.setWidth 64 < room then c.trans.dataLength else room.setWidth 32

/-- A length clipped to a room of 64 bits is the smaller of the two. -/
theorem toNat_clip (len : BitVec 32) (room : BitVec 64) :
    (if len.setWidth 64 < room then len else room.setWidth 32).toNat = min len.toNat room.toNat := by
  have hbound := len.isLt
  have hlen : (len.setWidth 64).toNat = len.toNat := by
    rw [BitVec.toNat_setWidth]
    omega
  split
  · next h =>
    have hlt := BitVec.lt_def.mp h
    omega
  · next h =>
    have hge := mt BitVec.lt_def.mpr h
    rw [BitVec.toNat_setWidth]
    omega

/-- The room up to the end of the array. Behind the end the subtraction wraps. -/
theorem toNat_numBytes (hsize : SIZE < 2 ^ 32) (c : Call) :
    (numBytes SIZE c).toNat = min c.trans.dataLength.toNat
      (if wordOf c.trans.address ≤ SIZE then 4 * SIZE - 4 * wordOf c.trans.address
        else 2 ^ 64 - 4 * (wordOf c.trans.address - SIZE)) := by
  have hbound := c.trans.address.isLt
  have hword : wordOf c.trans.address = c.trans.address.toNat / 4 := rfl
  have hfour : (4 : BitVec 64).toNat = 4 := rfl
  rw [numBytes, toNat_clip, BitVec.toNat_mul, BitVec.toNat_sub, toNat_div_four, BitVec.toNat_ofNat,
    hfour]
  split <;> omega

theorem transportDbg_eq (SIZE : Nat) (m : Memory) (c : Call) :
    transportDbg SIZE m c =
      match c.trans.command with
      | .read => do
        let host ← copyOut SIZE m (wordOf c.trans.address) (numBytes SIZE c).toNat c.trans.dataPtr c.host
        return (m, { c with host := host }, numBytes SIZE c)
      | .write => do
        let m ← copyIn SIZE m (wordOf c.trans.address) (numBytes SIZE c).toNat c.trans.dataPtr c.host
        return (m, c, numBytes SIZE c)
      | .ignore => return (m, c, numBytes SIZE c) := by
  rw [← toNat_div_four]
  rfl

/-- Inside the array the debug transaction copies all the bytes it is asked for. -/
theorem numBytes_eq (hsize : SIZE < 2 ^ 32) (hin : Inside SIZE c) :
    numBytes SIZE c = c.trans.dataLength := by
  obtain ⟨hword, hlen⟩ := hin.word
  apply BitVec.eq_of_toNat_eq
  rw [toNat_numBytes hsize, if_pos hword]
  omega

/-- `transport_dbg` returns the bytes from the start of the word, too. -/
theorem readDebug_eq (hsize : SIZE < 2 ^ 32) (m : Memory) (hin : Inside SIZE c)
    (hcmd : c.trans.command = .read) :
    readDebug SIZE m c
      = some (Patch.load m.mem (4 * wordOf c.trans.address) c.trans.dataLength.toNat) := by
  simp only [readDebug, transportDbg_eq, numBytes_eq hsize hin, hcmd, copyOut,
    if_pos (Or.inr hin.word.2)]
  exact congrArg some (Patch.load_span_load ..)

/-- The pointer reads from the address itself. -/
theorem readDirect_eq (m : Memory) (c : Call) :
    readDirect SIZE m c = Patch.load m.mem c.trans.address.toNat c.trans.dataLength.toNat := by
  simp [readDirect, getDirectMemPtr, Dmi.index]

/-- The paths agree when the word and the address start the same bytes. -/
theorem pathsAgree_iff (hsize : SIZE < 2 ^ 32) (m : Memory) (hin : Inside SIZE c)
    (hacc : Accepted c) (hcmd : c.trans.command = .read) :
    PathsAgree SIZE m c ↔
      Patch.load m.mem c.trans.address.toNat c.trans.dataLength.toNat
        = Patch.load m.mem (4 * wordOf c.trans.address) c.trans.dataLength.toNat := by
  simp only [PathsAgree, readTransport_eq m hin hacc hcmd, readDebug_eq hsize m hin hcmd,
    readDirect_eq, Option.some.injEq, forall_eq', true_and]

/-! ## After any writes -/

/-- A write of the bytes 0, 1, 2 and 3 to a word. -/
def countUp (w : Nat) : Call :=
  ⟨⟨.write, BitVec.ofNat 64 (4 * w), 0, 4, none, 4, false, .incomplete⟩, 0, BitVec.ofNat 8⟩

/-- Once a word counts up, each of its bytes differs from the first one. -/
theorem store_countUp (SIZE : Nat) (hsize : SIZE < 2 ^ 32) (m : Memory) {w : Nat} (hw : w < SIZE) :
    ∃ m', stores SIZE m [.transport (countUp w)] = some m' ∧
      ∀ j < 4, m'.mem (4 * w + j) = BitVec.ofNat 8 j := by
  have hadr : (countUp w).trans.address.toNat = 4 * w := by
    show (BitVec.ofNat 64 (4 * w)).toNat = 4 * w
    rw [BitVec.toNat_ofNat]
    omega
  have hword : wordOf (countUp w).trans.address = w := by rw [wordOf, hadr]; omega
  have hc : WordAccess (countUp w) :=
    ⟨Command.noConfusion, by rw [hadr]; omega, rfl, rfl, rfl⟩
  have hwrite : bTransport SIZE m (countUp w) = _ :=
    bTransport_write m hc (by rw [hword]; exact hw) rfl
  refine ⟨{ m.setWord w (Patch.load (BitVec.ofNat 8) 0 4) with
    wrOps := m.wrOps.write (m.wrOps.read + 1) }, ?_, fun j hj => ?_⟩
  · rw [hword] at hwrite
    simp only [stores, List.foldlM_cons, store, hwrite]
    rfl
  · refine Patch.apply_of_some _ ?_
    rw [Patch.span, if_pos (Nat.le_add_right _ _), Nat.add_sub_cancel_left]
    interval_cases j <;> rfl

/-- **The access paths show the same bytes exactly at word boundaries.** Take a read inside the array
that `b_transport` accepts. After every sequence of writes, on whichever paths, all paths return the
same bytes for it, if and only if its address is a multiple of 4 (or it reads no byte at all). -/
theorem accessPaths_agree_iff (SIZE : Nat) (hsize : SIZE < 2 ^ 32) (m₀ : Memory) (c : Call)
    (hcmd : c.trans.command = .read) (hin : Inside SIZE c)
    (hacc : (readTransport SIZE m₀ c).isSome) :
    (∀ ws m, stores SIZE m₀ ws = some m → PathsAgree SIZE m c) ↔
      c.trans.address.toNat % 4 = 0 ∨ c.trans.dataLength = 0 := by
  have haccepted := accepted_of_readTransport hacc
  have hsplit : c.trans.address.toNat
      = 4 * wordOf c.trans.address + c.trans.address.toNat % 4 := (Nat.div_add_mod _ 4).symm
  constructor
  · intro h
    by_contra hnot
    obtain ⟨hunaligned, hsome⟩ := not_or.mp hnot
    have hpos : 0 < c.trans.dataLength.toNat :=
      Nat.pos_of_ne_zero fun hzero => hsome (BitVec.eq_of_toNat_eq hzero)
    have hword : wordOf c.trans.address < SIZE := by
      have := hin.word.2
      omega
    obtain ⟨m, hstore, hbytes⟩ := store_countUp SIZE hsize m₀ hword
    have hagree := h [.transport (countUp (wordOf c.trans.address))] m hstore
    have hloads := (pathsAgree_iff hsize m hin haccepted hcmd).mp hagree
    -- the first byte of either range
    have hfirst := congrArg (·[0]?) hloads
    simp only [Patch.load, List.getElem?_map, List.getElem?_range hpos, Option.map_some,
      Nat.add_zero, Option.some.injEq] at hfirst
    have hzero := hbytes 0 (by omega)
    rw [Nat.add_zero] at hzero
    rw [hzero, hsplit, hbytes _ (Nat.mod_lt _ (by omega))] at hfirst
    have hnat := congrArg BitVec.toNat hfirst
    rw [BitVec.toNat_ofNat, BitVec.toNat_ofNat] at hnat
    omega
  · intro h ws m _
    rw [pathsAgree_iff hsize m hin haccepted hcmd]
    rcases h with haligned | hempty
    · rw [hsplit, haligned, Nat.add_zero]
    · rw [hempty]
      rfl

/-- A read of `len` bytes at byte address `a`. -/
def readAt (a : BitVec 64) (len : BitVec 32) : Call :=
  ⟨⟨.read, a, 0, len, none, len, false, .incomplete⟩, 0, 0⟩

/-- Half a word that counts up, read from its start. -/
theorem accessPaths_agree_aligned :
    ∃ m, stores 2 ⟨fun _ => 0, ⟨0, 0⟩, ⟨0, 0⟩⟩ [.transport (countUp 1)] = some m ∧
      PathsAgree 2 m (readAt 4 2) := by
  obtain ⟨m, hstore, -⟩ := store_countUp 2 (by decide) ⟨fun _ => 0, ⟨0, 0⟩, ⟨0, 0⟩⟩
    (w := 1) (by decide)
  have hagree := (accessPaths_agree_iff 2 (by decide) ⟨fun _ => 0, ⟨0, 0⟩, ⟨0, 0⟩⟩ (readAt 4 2) rfl
    (by decide) (by decide)).mpr (.inl (by decide))
  exact ⟨m, hstore, hagree _ m hstore⟩

/-- One byte from the middle of a word that counts up: the transports return byte 0 of the word. -/
theorem accessPaths_differ :
    ¬ ∀ (SIZE : Nat) (m₀ m : Memory) (ws : List Store) (c : Call), SIZE < 2 ^ 32 →
      c.trans.command = .read → Inside SIZE c → stores SIZE m₀ ws = some m →
      PathsAgree SIZE m c := by
  intro h
  obtain ⟨m, hstore, hbytes⟩ := store_countUp 1 (by decide) ⟨fun _ => 0, ⟨0, 0⟩, ⟨0, 0⟩⟩
    (w := 0) (by decide)
  have hagree := h 1 _ m [.transport (countUp 0)] (readAt 2 1) (by decide) rfl (by decide)
    hstore
  rw [pathsAgree_iff (by decide) m (by decide) ⟨rfl, by decide, by decide⟩ rfl] at hagree
  have hfirst := congrArg (·[0]?) hagree
  have hzero : m.mem 0 = 0 := hbytes 0 (by omega)
  have htwo : m.mem 2 = 2 := hbytes 2 (by omega)
  have hloads : m.mem 2 = m.mem 0 := by simpa [Patch.load, readAt, wordOf] using hfirst
  rw [hzero, htwo] at hloads
  exact absurd hloads (by decide)

end Memory

end DeltaModels.Tlm
