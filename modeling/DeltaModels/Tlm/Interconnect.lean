import DeltaModels.Tlm.Rom
import DeltaModels.Tlm.Router
import DeltaModels.Tlm.WordMemory

/-!
# Routers in front of blocks and of other routers

A router does not know what is behind its outputs: a `Memory<SIZE>`, a `TLM_ROM`, a `WBRAM` behind
its `TLM2WB`, or another router. A `Block` is any such tree. What a word access needs of a block is the
same for all of them (`Block.Lawful`), and a router passes it on: if the masks keep different
addresses apart, it is lawful itself (`lawful_router`). So every tree is one flat word memory, with
windows that can only be read where there is a ROM (`interconnect_flat`).

A router registers its log file under a fixed name when it is made, so a second one can only be made once
that name has been dropped. How the routers of a tree get their log files is not part of the model.

A block answers a call before the next one comes. Between two calls time goes on: signals are updated,
and adapters and their memories see edges of the clock.
-/

namespace DeltaModels.Tlm

open Wishbone

variable {M N : Nat}

/-! ## Blocks -/

/-- A target, or a router with targets behind its outputs. -/
inductive Block where
  | memory (SIZE : Nat)
  | rom (throws : Bool) (tlmRom : TlmRom)
  | wbram (unset memSize : BitVec 32)
  | router (M : Nat) (initiatorsConfig : Fin M → InitiatorConfig) (blocks : Fin M → Block)

/-- What the block keeps between two calls. -/
@[reducible] def Block.State : Block → Type
  | .memory _ => Memory
  | .rom _ _ => Unit
  | .wbram _ _ => Wired
  | .router M _ blocks => (i : Fin M) → (blocks i).State

/-- The `b_transport` of a ROM that does not change. -/
def romSocket (throws : Bool) (rom : TlmRom) (c : Call) : Except Fault (Unit × Call) := do
  let outcome ← rom.bTransport throws c
  match outcome.report, outcome.returned with
  | some fault, false => throw fault
  | _, _ => return ((), outcome.call)

/-- The `b_transport` of an adapter with its memory. An adapter that is not answered reports after
1000 edges; a call that ends in a report, or goes on for longer, is not followed. -/
def wbramSocket (unset : BitVec 32) (s : Wired) (c : Call) : Except Fault (Wired × Call) :=
  match s.transport unset 1001 c with
  | some (s', answer, _) => .ok (s', { trans := answer, delay := c.delay, host := s'.port.host })
  | none => .error .outOfRange

/-- The sockets of a router whose outputs lead to separate blocks. -/
def separately {τ : Fin M → Type} (socket : (i : Fin M) → τ i → Call → Except Fault (τ i × Call))
    (i : Fin M) (s : (i : Fin M) → τ i) (c : Call) : Except Fault (((i : Fin M) → τ i) × Call) := do
  let (t, c) ← socket i (s i) c
  return (Function.update s i t, c)

/-- The `b_transport` of a block. A router behind a router has one target socket. The lines that it logs
are left out: all routers write to one file, and `TLMRouter.bTransport` has them. -/
def Block.bTransport : (b : Block) → b.State → Call → Except Fault (b.State × Call)
  | .memory SIZE, m, c => Memory.bTransport SIZE m c
  | .rom throws tlmRom, _, c => romSocket throws tlmRom c
  | .wbram unset _, s, c => wbramSocket unset s c
  | .router _ initiatorsConfig blocks, s, c =>
    (TLMRouter.bTransport initiatorsConfig (separately fun i => (blocks i).bTransport) s
      (0 : Fin 1) c).map fun r => (r.1, r.2.1)

/-- Time goes on between two calls. -/
def Block.tick : (b : Block) → b.State → b.State
  | .memory _, m => m.update
  | .rom _ _, _ => ()
  | .wbram unset _, s =>
    match s.edge unset with
    | .ok (s', _, _) => s'
    | .error _ => s
  | .router _ _ blocks, s => fun i => (blocks i).tick (s i)

/-! ## What is there -/

/-- The block carries out a word access of this kind at this address. -/
def Block.serves : Block → Command → BitVec 64 → Bool
  | .memory SIZE, _, a => Memory.wordOf a < SIZE
  | .rom _ tlmRom, command, a =>
    command = .read ∧ tlmRom.baseaddr.toNat ≤ a.toNat ∧
      a.toNat - tlmRom.baseaddr.toNat + 4 ≤ tlmRom.ROM.length
  | .wbram _ memSize, _, a => a >>> 2 < memSize.setWidth 64
  | .router _ initiatorsConfig blocks, command, a =>
    match decodeAddress initiatorsConfig a with
    | .ok (i, masked) => (blocks i).serves command masked
    | .error _ => false

/-- The block turns the access down: no window contains its address, it begins behind a memory and the
word after that, or outside a ROM, or it writes to a ROM. A word access outside a `WBRAM` ends the
simulation instead; one to the word after a memory, or across the end of a ROM, is neither served nor
turned down. -/
def Block.refuses : Block → Command → BitVec 64 → Bool
  | .memory SIZE, _, a => Memory.wordOf a > SIZE
  | .rom _ tlmRom, command, a =>
    (a - tlmRom.baseaddr).toNat ≥ tlmRom.ROM.length ∨ command = .write
  | .wbram _ _, _, _ => false
  | .router _ initiatorsConfig blocks, command, a =>
    match decodeAddress initiatorsConfig a with
    | .ok (i, masked) => (blocks i).refuses command masked
    | .error _ => true

/-- The word that the block holds at an address. -/
def Block.look : (b : Block) → b.State → BitVec 64 → List (BitVec 8)
  | .memory _, m, a => m.word (Memory.wordOf a)
  | .rom _ tlmRom, _, a => (tlmRom.ROM.drop (a.toNat - tlmRom.baseaddr.toNat)).take 4
  | .wbram unset _, s, a =>
    let w := s.ram.wordAt unset ((a >>> 2).setWidth 32)
    [Lanes.lane w 3, Lanes.lane w 2, Lanes.lane w 1, Lanes.lane w 0]
  | .router _ initiatorsConfig blocks, s, a =>
    match decodeAddress initiatorsConfig a with
    | .ok (i, masked) => (blocks i).look (s i) masked
    | .error _ => []

/-- No call is under way in the block. -/
def Block.Quiet : (b : Block) → b.State → Prop
  | .memory _, _ => True
  | .rom _ _, _ => True
  | .wbram _ memSize, s => Wired.Quiet memSize s
  | .router _ _ blocks, s => ∀ i, (blocks i).Quiet (s i)

/-- Routers keep different words apart that can be written: with the same output and the same masked
address they are the same. -/
def Block.NoAlias : Block → Prop
  | .router _ initiatorsConfig blocks =>
    (∀ i, (blocks i).NoAlias) ∧ ∀ a b i masked,
      decodeAddress initiatorsConfig a = .ok (i, masked) →
      decodeAddress initiatorsConfig b = .ok (i, masked) →
      (blocks i).serves .write masked → a.toNat % 4 = 0 → b.toNat % 4 = 0 → a = b
  | _ => True

/-- What a word access does with a block: a read gets the word, a write stores one, a refused access
changes no word, and neither does the time. -/
structure Block.Lawful (b : Block) : Prop where
  length_look : ∀ s a, b.serves .read a → (b.look s a).length = 4
  read : ∀ s c, b.Quiet s → Memory.WordAccess c → c.trans.command = .read →
    b.serves .read c.trans.address → ∃ s' c', b.bTransport s c = .ok (s', c') ∧ b.Quiet s' ∧
      c'.trans.responseStatus = .ok ∧
      c'.host = (Patch.span c.trans.dataPtr (b.look s c.trans.address)).apply c.host ∧
      ∀ a, b.look s' a = b.look s a
  write : ∀ s c, b.Quiet s → Memory.WordAccess c → c.trans.command = .write →
    b.serves .write c.trans.address → ∃ s' c', b.bTransport s c = .ok (s', c') ∧ b.Quiet s' ∧
      c'.trans.responseStatus = .ok ∧ c'.host = c.host ∧
      ∀ a, b.serves .read a → a.toNat % 4 = 0 → b.look s' a
        = (Patch.single c.trans.address (Patch.load c.host c.trans.dataPtr 4)).apply (b.look s) a
  refuse : ∀ s c, b.Quiet s → Memory.WordAccess c → b.refuses c.trans.command c.trans.address →
    ∀ s' c', b.bTransport s c = .ok (s', c') → b.Quiet s' ∧ ∀ a, b.look s' a = b.look s a
  tick : ∀ s, b.Quiet s → b.Quiet (b.tick s) ∧ ∀ a, b.look (b.tick s) a = b.look s a

/-! ## The targets are lawful -/

theorem lawful_memory (SIZE : Nat) : (Block.memory SIZE).Lawful where
  length_look m a _ := Patch.length_load _ _ _
  read m c _ hc hcmd hserves := by
    have hsize : Memory.wordOf c.trans.address < SIZE := of_decide_eq_true hserves
    exact ⟨_, _, Memory.bTransport_read m hc hsize hcmd, trivial, rfl, rfl, fun _ => rfl⟩
  write m c _ hc hcmd hserves := by
    have hsize : Memory.wordOf c.trans.address < SIZE := of_decide_eq_true hserves
    have hlen : (Patch.load c.host c.trans.dataPtr 4).length = 4 := Patch.length_load _ _ _
    refine ⟨_, _, Memory.bTransport_write m hc hsize hcmd, trivial, rfl, rfl, fun a _ ha => ?_⟩
    by_cases hac : a = c.trans.address
    · subst hac
      rw [Patch.apply_of_some _ (Patch.single_self _ _)]
      exact Memory.word_setWord_self m _ hlen
    · have hword : Memory.wordOf a ≠ Memory.wordOf c.trans.address := by
        have haligned := hc.aligned
        refine fun h => hac (BitVec.eq_of_toNat_eq ?_)
        simp only [Memory.wordOf] at h
        omega
      rw [Patch.apply_of_none _ (Patch.single_of_ne _ hac)]
      exact Memory.word_setWord_of_ne m hlen hword
  refuse m c _ _ hrefuses m' c' hcall := by
    have hsize : Memory.wordOf c.trans.address > SIZE := of_decide_eq_true hrefuses
    refine ⟨trivial, fun a => ?_⟩
    cases Memory.bTransport_served hcall with
    | refused => rfl
    | read => rfl
    | write _ _ _ hword => omega
    | ignore => rfl
  tick m _ := ⟨trivial, fun _ => rfl⟩

theorem lawful_rom (throws : Bool) (rom : TlmRom) : (Block.rom throws rom).Lawful where
  length_look _ a hserves := by
    obtain ⟨-, hbase, htop⟩ := of_decide_eq_true hserves
    rw [Block.look, List.length_take, List.length_drop]
    omega
  read _ c _ hc hcmd hserves := by
    obtain ⟨-, hbase, htop⟩ := of_decide_eq_true hserves
    have hrelative := TlmRom.toNat_relative hbase
    have hin : (c.trans.address - rom.baseaddr).toNat < rom.ROM.length := by omega
    have hlen : c.trans.dataLength.toNat = 4 := by rw [hc.dataLength]; rfl
    have hcopy := TlmRom.copy_ok hin c.trans.dataPtr (n := 4) (by decide) c.host (by omega)
    rw [hrelative] at hcopy
    have hcall : romSocket throws rom c = .ok ((), Call.setResponseStatus
        { c with host := (Patch.span c.trans.dataPtr
          ((rom.ROM.drop (c.trans.address.toNat - rom.baseaddr.toNat)).take 4)).apply c.host }
        .ok) := by
      simp only [romSocket, TlmRom.bTransport, ge_iff_le, if_neg (Nat.not_le.mpr hin), hcmd, hlen,
        hcopy]
      rfl
    exact ⟨(), _, hcall, trivial, rfl, rfl, fun _ => rfl⟩
  write _ c _ hc hcmd hserves := by
    obtain ⟨hread, -⟩ := of_decide_eq_true hserves
    cases hread
  refuse _ _ _ _ _ _ _ _ := ⟨trivial, fun _ => rfl⟩
  tick _ _ := ⟨trivial, fun _ => rfl⟩

/-- A ROM that throws does not come back from a call outside the vector, -/
theorem romSocket_outside {rom : TlmRom} {c : Call}
    (hout : (c.trans.address - rom.baseaddr).toNat ≥ rom.ROM.length) :
    romSocket true rom c = .error (rom.outsideMemory (c.trans.address - rom.baseaddr)) := by
  simp only [romSocket, TlmRom.bTransport, if_pos hout]
  rfl

/-- nor from a write. -/
theorem romSocket_write {rom : TlmRom} {c : Call}
    (hin : ¬ (c.trans.address - rom.baseaddr).toNat ≥ rom.ROM.length)
    (hcmd : c.trans.command = .write) : romSocket true rom c = .error TlmRom.writeNotAllowed := by
  simp only [romSocket, TlmRom.bTransport, if_neg hin, hcmd]
  rfl

theorem wbramSocket_eq {unset : BitVec 32} {s s' : Wired} {c : Call} {answer : Payload}
    {ops : List Op} (h : s.transport unset 1001 c = some (s', answer, ops)) :
    wbramSocket unset s c = .ok (s', { trans := answer, delay := c.delay, host := s'.port.host }) := by
  rw [wbramSocket, h]

/-- A write call leaves its buffer as it is. -/
theorem host_transport_write {unset memSize : BitVec 32} {s s' : Wired} {c : Call} {answer : Payload}
    {ops : List Op} {fuel : Nat} (hfuel : 3 ≤ fuel) (hs : s.Quiet memSize) (hc : WordCall memSize c)
    (hcmd : c.trans.command = .write) (h : s.transport unset fuel c = some (s', answer, ops)) :
    s'.port.host = c.host := by
  let out := ((s.port.adapter.load c.trans).issue c.host c.trans.command).out
  have hout : out = ⟨wordOf c, datOut c.host c.trans.dataPtr, true,
      selOut c.host c.trans.byteEnablePtr, true, true⟩ := by
    simp [out, Tlm2wb.issue, Tlm2wb.load, hcmd, wordOf]
  have hin : ¬ out.adrO > ({ s.ram with ackO := false } : Wbram).memSize := by
    rw [hout]
    exact hs.memSize ▸ not_wordOf_gt hc
  have hram := Wbram.handleop_write unset (r := { s.ram with ackO := false }) (m := out)
    (by rw [hout]) (by rw [hout]) hs.nTran (by rw [hout]) hin
  obtain ⟨port, answer', hrun, -, -, -, hhost⟩ := transport_served hfuel hs hc hram rfl rfl
  rw [h] at hrun
  cases hrun
  exact hhost.trans (if_pos hcmd)

/-- Word-aligned addresses in the memory address different words. -/
theorem wordOf_injective {memSize : BitVec 32} {a b : BitVec 64}
    (ha : a >>> 2 < memSize.setWidth 64) (hb : b >>> 2 < memSize.setWidth 64)
    (ha4 : a.toNat % 4 = 0) (hb4 : b.toNat % 4 = 0)
    (h : (a >>> 2).setWidth 32 = (b >>> 2).setWidth 32) : a = b := by
  have hsize := memSize.isLt
  have hwords := congrArg BitVec.toNat h
  rw [BitVec.lt_def, BitVec.toNat_ushiftRight, BitVec.toNat_setWidth, Nat.shiftRight_eq_div_pow] at ha hb
  rw [BitVec.toNat_setWidth, BitVec.toNat_setWidth, BitVec.toNat_ushiftRight, BitVec.toNat_ushiftRight,
    Nat.shiftRight_eq_div_pow, Nat.shiftRight_eq_div_pow] at hwords
  exact BitVec.eq_of_toNat_eq (by omega)

theorem lawful_wbram (unset memSize : BitVec 32) : (Block.wbram unset memSize).Lawful where
  length_look _ _ _ := rfl
  read s c hs hc hcmd hserves := by
    have hword : WordCall memSize c :=
      ⟨hc.command, hc.dataLength, .inl hc.streamingWidth, of_decide_eq_true hserves⟩
    have hfuel : 3 ≤ 1001 := by decide
    obtain ⟨s', answer, hrun, hok, hs', -, -, hmem, hhost⟩ :=
      transport_read hfuel unset hs hword hcmd
    refine ⟨_, _, wbramSocket_eq hrun, hs', hok, hhost, fun a => ?_⟩
    simp only [Block.look, Wbram.wordAt, hmem]
  write s c hs hc hcmd hserves := by
    have hinside : c.trans.address >>> 2 < memSize.setWidth 64 := of_decide_eq_true hserves
    have hword : WordCall memSize c := ⟨hc.command, hc.dataLength, .inl hc.streamingWidth, hinside⟩
    have hfuel : 3 ≤ 1001 := by decide
    obtain ⟨s', answer, hrun, hok, hs', -, -, hwords⟩ :=
      transport_write hfuel unset hs hword hcmd
    refine ⟨_, _, wbramSocket_eq hrun, hs', hok, host_transport_write hfuel hs hword hcmd hrun,
      fun a ha ha4 => ?_⟩
    by_cases hac : a = c.trans.address
    · subst hac
      rw [Patch.apply_of_some _ (Patch.single_self _ _)]
      -- all four bytes are enabled
      have hbyte : ∀ j : Fin 4, byteOf (s'.ram.wordAt unset (wordOf c)) j
          = c.host (c.trans.dataPtr + j) := by
        intro j
        have henabled : enabled c j = true := by rw [enabled, hc.byteEnablePtr]; rfl
        rw [hwords, if_pos rfl, byteOf_merge, if_pos henabled]
      show [byteOf _ 0, byteOf _ 1, byteOf _ 2, byteOf _ 3] = _
      rw [← wordOf, hbyte, hbyte, hbyte, hbyte]
      rfl
    · have hne : wordOf c ≠ (a >>> 2).setWidth 32 := fun h =>
        hac (wordOf_injective (of_decide_eq_true ha) hinside ha4 hc.aligned h.symm)
      rw [Patch.apply_of_none _ (Patch.single_of_ne _ hac)]
      simp only [Block.look, hwords, if_neg hne]
  refuse _ _ _ _ hrefuses _ _ _ := by cases hrefuses
  tick s hs := by
    obtain ⟨s', hidle, hs', hmem⟩ := idle_quiet unset hs 1
    have htick : (Block.wbram unset memSize).tick s = s' := by
      simp only [Wired.idle] at hidle
      rw [Block.tick]
      split at hidle
      · cases hidle
      · next hedge =>
        cases hidle
        rw [hedge]
    rw [htick]
    refine ⟨hs', fun a => ?_⟩
    simp only [Block.look, Wbram.wordAt, hmem]

/-! ## Routers are lawful -/

section Routers

variable {cfg : Fin M → InitiatorConfig} {blocks : Fin M → Block}

/-- The line that the router writes when the call has come back. -/
def traceLine (port : Fin N) (i : Fin M) (c : Call) (host : Host) : TraceLine N M where
  target := port
  initiator := i
  address := c.trans.address
  cmd := if c.trans.command = .write then "write" else "read"
  len := c.trans.dataLength
  wid := c.trans.streamingWidth
  byt := (c.trans.byteEnablePtr.map (packWord host)).getD 0
  data := packWord host c.trans.dataPtr

/-- A call that the router turns down. -/
theorem bTransport_undecoded {s : (i : Fin M) → (blocks i).State} {port : Fin N} {c : Call}
    {fault : Fault} (h : decodeAddress cfg c.trans.address = .error fault) :
    TLMRouter.bTransport cfg (separately fun i => (blocks i).bTransport) s port c
      = .error fault := by
  simp only [TLMRouter.bTransport, h, bind, Except.bind]

/-- A call that the router passes on: the block behind the output answers it. -/
theorem bTransport_decoded {s : (i : Fin M) → (blocks i).State} {port : Fin N} {c : Call}
    {i : Fin M} {masked : BitVec 64} (h : decodeAddress cfg c.trans.address = .ok (i, masked)) :
    TLMRouter.bTransport cfg (separately fun i => (blocks i).bTransport) s port c
      = ((blocks i).bTransport (s i) { c with trans := { c.trans with address := masked } }).map
          fun r => (Function.update s i r.1, r.2, traceLine port i c r.2.host) := by
  simp only [TLMRouter.bTransport, h, bind, Except.bind, separately]
  cases (blocks i).bTransport (s i) { c with trans := { c.trans with address := masked } } <;> rfl

/-- The block behind a router does not see from which port a call has come. -/
theorem block_bTransport (s : (i : Fin M) → (blocks i).State) (port : Fin N) (c : Call) :
    (Block.router M cfg blocks).bTransport s c
      = (TLMRouter.bTransport cfg (separately fun i => (blocks i).bTransport) s port c).map
          fun r => (r.1, r.2.1) := by
  show (TLMRouter.bTransport cfg _ s (0 : Fin 1) c).map _ = _
  cases hdec : decodeAddress cfg c.trans.address with
  | error fault =>
    rw [bTransport_undecoded hdec, bTransport_undecoded hdec]
    rfl
  | ok decoded =>
    rw [bTransport_decoded hdec, bTransport_decoded hdec]
    cases (blocks decoded.1).bTransport (s decoded.1) _ <;> rfl

theorem serves_router {command : Command} {a : BitVec 64}
    (h : (Block.router M cfg blocks).serves command a) :
    ∃ i masked, decodeAddress cfg a = .ok (i, masked) ∧ (blocks i).serves command masked := by
  rw [Block.serves] at h
  split at h
  · next i masked hdec => exact ⟨i, masked, hdec, h⟩
  · cases h

theorem look_router {s : (i : Fin M) → (blocks i).State} {a masked : BitVec 64} {i : Fin M}
    (h : decodeAddress cfg a = .ok (i, masked)) :
    (Block.router M cfg blocks).look s a = (blocks i).look (s i) masked := by
  simp only [Block.look, h]

/-- One of the blocks changes its state, but none of its words. -/
theorem look_update_same {s : (i : Fin M) → (blocks i).State} {i : Fin M} {t : (blocks i).State}
    (h : ∀ a, (blocks i).look t a = (blocks i).look (s i) a) (a : BitVec 64) :
    (Block.router M cfg blocks).look (Function.update s i t) a
      = (Block.router M cfg blocks).look s a := by
  cases hdec : decodeAddress cfg a with
  | error fault => simp only [Block.look, hdec]
  | ok decoded =>
    obtain ⟨j, masked⟩ := decoded
    rw [look_router hdec, look_router hdec]
    by_cases hj : j = i
    · subst hj
      rw [Function.update_self, h]
    · rw [Function.update_of_ne hj]

theorem quiet_update {s : (i : Fin M) → (blocks i).State} {i : Fin M} {t : (blocks i).State}
    (hs : (Block.router M cfg blocks).Quiet s) (ht : (blocks i).Quiet t) :
    (Block.router M cfg blocks).Quiet (Function.update s i t) := by
  intro j
  by_cases hj : j = i
  · subst hj
    rw [Function.update_self]
    exact ht
  · rw [Function.update_of_ne hj]
    exact hs j

/-- The call that is passed on is a word access as well. -/
theorem wordAccess_passed {c : Call} (hc : Memory.WordAccess c) {i : Fin M} {masked : BitVec 64}
    (h : decodeAddress cfg c.trans.address = .ok (i, masked)) :
    Memory.WordAccess { c with trans := { c.trans with address := masked } } := by
  obtain ⟨-, rfl⟩ := decodeAddress_ok h
  exact wordAccess_masked hc _

/-- **A router in front of lawful blocks is lawful**, if it keeps the words apart that can be
written. -/
theorem lawful_router (hno : (Block.router M cfg blocks).NoAlias) (hlaw : ∀ i, (blocks i).Lawful) :
    (Block.router M cfg blocks).Lawful where
  length_look s a hserves := by
    obtain ⟨i, masked, hdec, hserves⟩ := serves_router hserves
    rw [look_router hdec]
    exact (hlaw i).length_look (s i) masked hserves
  read s c hs hc hcmd hserves := by
    obtain ⟨i, masked, hdec, hserves⟩ := serves_router hserves
    obtain ⟨t, c', hcall, ht, hok, hhost, hlook⟩ :=
      (hlaw i).read (s i) _ (hs i) (wordAccess_passed hc hdec) hcmd hserves
    refine ⟨Function.update s i t, c', ?_, quiet_update hs ht, hok, ?_, look_update_same hlook⟩
    · rw [block_bTransport s (0 : Fin 1), bTransport_decoded hdec, hcall]
      rfl
    · rw [look_router hdec]
      exact hhost
  write s c hs hc hcmd hserves := by
    obtain ⟨i, masked, hdec, hserves⟩ := serves_router hserves
    obtain ⟨t, c', hcall, ht, hok, hhost, hlook⟩ :=
      (hlaw i).write (s i) _ (hs i) (wordAccess_passed hc hdec) hcmd hserves
    refine ⟨Function.update s i t, c', ?_, quiet_update hs ht, hok, hhost, fun a ha ha4 => ?_⟩
    · rw [block_bTransport s (0 : Fin 1), bTransport_decoded hdec, hcall]
      rfl
    · obtain ⟨j, masked', hdec', hserves'⟩ := serves_router ha
      by_cases hac : a = c.trans.address
      · subst hac
        rw [hdec] at hdec'
        cases hdec'
        rw [look_router hdec, Function.update_self, Patch.apply_of_some _ (Patch.single_self _ _),
          hlook masked hserves' (wordAccess_passed hc hdec).aligned,
          Patch.apply_of_some _ (Patch.single_self _ _)]
      -- another word lies in another block, or this one's router keeps it apart
      · rw [Patch.apply_of_none _ (Patch.single_of_ne _ hac), look_router hdec', look_router hdec']
        by_cases hj : j = i
        · subst hj
          have hne : masked' ≠ masked := by
            rintro rfl
            exact hac (hno.2 a _ j masked' hdec' hdec hserves ha4 hc.aligned)
          have ha4' : masked'.toNat % 4 = 0 := by
            obtain ⟨-, rfl⟩ := decodeAddress_ok hdec'
            exact and_mod_four _ ha4
          rw [Function.update_self, hlook masked' hserves' ha4',
            Patch.apply_of_none _ (Patch.single_of_ne _ hne)]
        · rw [Function.update_of_ne hj]
  refuse s c hs hc hrefuses s' c' hcall := by
    rw [block_bTransport s (0 : Fin 1)] at hcall
    cases hdec : decodeAddress cfg c.trans.address with
    | error fault =>
      rw [bTransport_undecoded hdec] at hcall
      cases hcall
    | ok decoded =>
      obtain ⟨i, masked⟩ := decoded
      have hrefuses' : (blocks i).refuses c.trans.command masked := by
        simpa only [Block.refuses, hdec] using hrefuses
      rw [bTransport_decoded hdec] at hcall
      cases hblock : (blocks i).bTransport (s i)
          { c with trans := { c.trans with address := masked } } with
      | error fault =>
        rw [hblock] at hcall
        cases hcall
      | ok answer =>
        rw [hblock] at hcall
        cases hcall
        obtain ⟨ht, hlook⟩ :=
          (hlaw i).refuse (s i) _ (hs i) (wordAccess_passed hc hdec) hrefuses' _ _ hblock
        exact ⟨quiet_update hs ht, look_update_same hlook⟩
  tick s hs := by
    refine ⟨fun i => ((hlaw i).tick (s i) (hs i)).1, fun a => ?_⟩
    cases hdec : decodeAddress cfg a with
    | error fault => simp only [Block.look, hdec]
    | ok decoded =>
      rw [look_router hdec, look_router hdec]
      exact ((hlaw decoded.1).tick (s decoded.1) (hs decoded.1)).2 _

end Routers

/-- **Every tree of blocks is lawful.** -/
theorem Block.lawful : ∀ {b : Block}, b.NoAlias → b.Lawful
  | .memory SIZE, _ => lawful_memory SIZE
  | .rom throws tlmRom, _ => lawful_rom throws tlmRom
  | .wbram unset memSize, _ => lawful_wbram unset memSize
  | .router _ _ _, h => lawful_router h fun i => Block.lawful (h.1 i)

/-! ## The whole system -/

section System

variable (cfg : Fin M → InitiatorConfig) (blocks : Fin M → Block)

/-- A router with `N` ports and its blocks. A call that faults gets the fault for an answer. -/
def interconnect : Mealy (Event N) ((i : Fin M) → (blocks i).State) (Option (Answer N M)) where
  step s
    | .access port c =>
      match TLMRouter.bTransport cfg (separately fun i => (blocks i).bTransport) s port c with
      | .ok (s', answer) => (s', some (.ok answer))
      | .error fault => (s, some (.error fault))
    | .delta => (fun i => (blocks i).tick (s i), none)

/-- A word access that is carried out or turned down, or time that goes on. -/
def Event.Met : Event N → Prop
  | .access _ c => Memory.WordAccess c ∧
      ((Block.router M cfg blocks).serves c.trans.command c.trans.address ∨
        (Block.router M cfg blocks).refuses c.trans.command c.trans.address)
  | .delta => True

/-- What an event stores. -/
def Event.stores : Event N → Patch (BitVec 64) (List (BitVec 8))
  | .access _ c =>
    if c.trans.command = .write ∧ (Block.router M cfg blocks).serves .write c.trans.address then
      .single c.trans.address (Patch.load c.host c.trans.dataPtr 4)
    else .empty
  | .delta => .empty

variable {cfg blocks}

/-- What the system does with a call is what the router does with it on any port. -/
theorem interconnect_access (s : (i : Fin M) → (blocks i).State) (port : Fin N) (c : Call) :
    (∃ fault, (interconnect cfg blocks).step s (.access port c) = (s, some (.error fault)) ∧
      (Block.router M cfg blocks).bTransport s c = .error fault) ∨
    ∃ s' c' line, (interconnect cfg blocks).step s (.access port c)
        = (s', some (.ok (c', line))) ∧
      (Block.router M cfg blocks).bTransport s c = .ok (s', c') := by
  rw [block_bTransport s port]
  simp only [interconnect]
  cases TLMRouter.bTransport cfg (separately fun i => (blocks i).bTransport) s port c with
  | error fault => exact .inl ⟨fault, rfl, rfl⟩
  | ok answer => exact .inr ⟨answer.1, answer.2.1, answer.2.2, rfl, rfl⟩

/-- A call that is answered is answered on every port. -/
theorem interconnect_answered {s s' : (i : Fin M) → (blocks i).State} {c c' : Call}
    (h : (Block.router M cfg blocks).bTransport s c = .ok (s', c')) (port : Fin N) :
    ∃ line, (interconnect cfg blocks).step s (.access port c)
      = (s', some (.ok (c', line))) := by
  rcases interconnect_access s port c with ⟨fault, -, hcall⟩ | ⟨t, d, line, hstep, hcall⟩
  · rw [h] at hcall
    cases hcall
  · rw [h] at hcall
    cases hcall
    exact ⟨line, hstep⟩

/-- A call that is turned down leaves every word as it is. -/
theorem interconnect_refused (hlaw : (Block.router M cfg blocks).Lawful)
    {s : (i : Fin M) → (blocks i).State} (hs : (Block.router M cfg blocks).Quiet s) (port : Fin N)
    {c : Call} (hc : Memory.WordAccess c)
    (hrefuses : (Block.router M cfg blocks).refuses c.trans.command c.trans.address) :
    let s' := ((interconnect cfg blocks).step s (.access port c)).1
    (Block.router M cfg blocks).Quiet s' ∧
      ∀ a, (Block.router M cfg blocks).look s' a = (Block.router M cfg blocks).look s a := by
  rcases interconnect_access s port c with ⟨fault, hstep, -⟩ | ⟨s', c', line, hstep, hcall⟩
  · rw [hstep]
    exact ⟨hs, fun _ => rfl⟩
  · rw [hstep]
    exact hlaw.refuse s c hs hc hrefuses s' c' hcall

/-- **Step lemma**: an event patches the words that can be read. -/
theorem look_step (hlaw : (Block.router M cfg blocks).Lawful)
    (s : (i : Fin M) → (blocks i).State) (e : Event N) (he : e.Met cfg blocks)
    (hs : (Block.router M cfg blocks).Quiet s) :
    (Block.router M cfg blocks).Quiet ((interconnect cfg blocks).step s e).1 ∧
      ∀ a, (Block.router M cfg blocks).serves .read a ∧ a.toNat % 4 = 0 →
        (Block.router M cfg blocks).look ((interconnect cfg blocks).step s e).1 a
          = (e.stores cfg blocks).apply ((Block.router M cfg blocks).look s) a := by
  cases e with
  | delta =>
    obtain ⟨hquiet, hlook⟩ := hlaw.tick s hs
    exact ⟨hquiet, fun a _ => hlook a⟩
  | access port c =>
    obtain ⟨hc, hmet⟩ := he
    by_cases hserves : (Block.router M cfg blocks).serves c.trans.command c.trans.address
    · cases hcmd : c.trans.command with
      | read =>
        obtain ⟨s', c', hcall, hquiet, -, -, hsame⟩ := hlaw.read s c hs hc hcmd (hcmd ▸ hserves)
        obtain ⟨line, hstep⟩ := interconnect_answered hcall port
        have hstores : (Event.access port c).stores cfg blocks = .empty := by
          simp [Event.stores, hcmd]
        rw [hstep, hstores]
        exact ⟨hquiet, fun a _ => hsame a⟩
      | write =>
        rw [hcmd] at hserves
        obtain ⟨s', c', hcall, hquiet, -, -, hpatch⟩ := hlaw.write s c hs hc hcmd hserves
        obtain ⟨line, hstep⟩ := interconnect_answered hcall port
        have hstores : (Event.access port c).stores cfg blocks
            = .single c.trans.address (Patch.load c.host c.trans.dataPtr 4) :=
          if_pos ⟨hcmd, hserves⟩
        rw [hstep, hstores]
        exact ⟨hquiet, fun a ha => hpatch a ha.1 ha.2⟩
      | ignore => exact absurd hcmd hc.command
    · have hstores : (Event.access port c).stores cfg blocks = .empty :=
        if_neg fun h => hserves (by rw [h.1]; exact h.2)
      obtain ⟨hquiet, hsame⟩ := interconnect_refused hlaw hs port hc (hmet.resolve_left hserves)
      rw [hstores]
      exact ⟨hquiet, fun a _ => hsame a⟩

/-- **Every tree of routers and blocks is one flat word memory.** Let a router keep the words apart
that can be written, and so do the routers behind it. After any word accesses from any ports that are
carried out or turned down, with any time in between, a read that is served gets what the latest
served write to its address has stored, or the initial word; a write that is served changes no other
word; and an access that is turned down changes no word at all. -/
theorem interconnect_flat (hno : (Block.router M cfg blocks).NoAlias)
    (s₀ : (i : Fin M) → (blocks i).State) (hs₀ : (Block.router M cfg blocks).Quiet s₀)
    (es : List (Event N)) (hes : ∀ e ∈ es, e.Met cfg blocks) (port : Fin N) (c : Call)
    (hc : Memory.WordAccess c) :
    let system := Block.router M cfg blocks
    let before := (interconnect cfg blocks).run s₀ es
    let after := ((interconnect cfg blocks).step before (.access port c)).1
    let answer := ((interconnect cfg blocks).step before (.access port c)).2
    (c.trans.command = .read → system.serves .read c.trans.address →
      (∃ c' line, answer = some (.ok (c', line)) ∧ c'.trans.responseStatus = .ok ∧
        Patch.load c'.host c.trans.dataPtr 4
          = (Patch.latest (es.map (·.stores cfg blocks)) c.trans.address).getD
              (system.look s₀ c.trans.address)) ∧
      ∀ a, system.look after a = system.look before a) ∧
    (c.trans.command = .write → system.serves .write c.trans.address →
      (∃ c' line, answer = some (.ok (c', line)) ∧ c'.trans.responseStatus = .ok) ∧
        ∀ a, system.serves .read a → a.toNat % 4 = 0 → a ≠ c.trans.address →
          system.look after a = system.look before a) ∧
    (system.refuses c.trans.command c.trans.address →
      ∀ a, system.look after a = system.look before a) := by
  have hlaw := Block.lawful hno
  obtain ⟨hquiet, hlook⟩ := (interconnect cfg blocks).view_run (look_step hlaw) hs₀ hes
  intro system before after answer
  refine ⟨fun hcmd hserves => ?_, fun hcmd hserves => ?_, fun hrefuses => ?_⟩
  · obtain ⟨s', c', hcall, -, hok, hhost, hsame⟩ := hlaw.read before c hquiet hc hcmd hserves
    obtain ⟨line, hstep⟩ := interconnect_answered hcall port
    have hload : Patch.load c'.host c.trans.dataPtr 4 = system.look before c.trans.address := by
      have hlength := hlaw.length_look before c.trans.address hserves
      rw [hhost, ← hlength]
      exact Patch.load_span _ _ _
    refine ⟨⟨c', line, congrArg Prod.snd hstep, hok, ?_⟩, fun a => ?_⟩
    · rw [hload]
      exact hlook c.trans.address ⟨hserves, hc.aligned⟩
    · have hafter : after = s' := congrArg Prod.fst hstep
      rw [hafter]
      exact hsame a
  · obtain ⟨s', c', hcall, -, hok, -, hpatch⟩ := hlaw.write before c hquiet hc hcmd hserves
    obtain ⟨line, hstep⟩ := interconnect_answered hcall port
    refine ⟨⟨c', line, congrArg Prod.snd hstep, hok⟩, fun a ha ha4 hne => ?_⟩
    have hafter : after = s' := congrArg Prod.fst hstep
    rw [hafter, hpatch a ha ha4, Patch.apply_of_none _ (Patch.single_of_ne _ hne)]
  · exact (interconnect_refused hlaw hquiet port hc hrefuses).2

end System

/-! ## A tree of two routers -/

/-- The window is no larger than what its mask lets through. -/
def InitiatorConfig.Fits (w : InitiatorConfig) (n : Nat) : Prop :=
  n < 32 ∧ w.mask.toNat = 2 ^ n - 1 ∧ w.topAddress.toNat ≤ w.baseAddress.toNat + 2 ^ n

/-- Such a window keeps its addresses apart. -/
theorem InitiatorConfig.Fits.eq_of_and_eq {w : InitiatorConfig} {n : Nat} (hw : w.Fits n)
    {a b : BitVec 64} (ha : w.Contains a) (hb : w.Contains b)
    (h : a &&& w.mask.setWidth 64 = b &&& w.mask.setWidth 64) : a = b := by
  obtain ⟨-, hmask, htop⟩ := hw
  have hmasked : ∀ c : BitVec 64, (c &&& w.mask.setWidth 64).toNat = c.toNat % 2 ^ n := by
    intro c
    have hlt := w.mask.isLt
    rw [BitVec.toNat_and, BitVec.toNat_setWidth, Nat.mod_eq_of_lt (by omega), hmask,
      Nat.and_two_pow_sub_one_eq_mod]
  have hmod : a.toNat % 2 ^ n = b.toNat % 2 ^ n := by rw [← hmasked, ← hmasked, h]
  have hbase := w.baseAddress.isLt
  have htop' := w.topAddress.isLt
  have hin : ∀ {c : BitVec 64}, w.Contains c →
      w.baseAddress.toNat ≤ c.toNat ∧ c.toNat < w.topAddress.toNat := by
    intro c hc
    have hlo := BitVec.le_def.mp hc.1
    have hhi := BitVec.lt_def.mp hc.2
    rw [BitVec.toNat_setWidth] at hlo hhi
    omega
  obtain ⟨halo, hahi⟩ := hin ha
  obtain ⟨hblo, hbhi⟩ := hin hb
  refine BitVec.eq_of_toNat_eq ?_
  rcases Nat.le_total a.toNat b.toNat with hle | hle
  · have hzero := Nat.sub_mod_eq_zero_of_mod_eq hmod.symm
    rw [Nat.mod_eq_of_lt (by omega)] at hzero
    omega
  · have hzero := Nat.sub_mod_eq_zero_of_mod_eq hmod
    rw [Nat.mod_eq_of_lt (by omega)] at hzero
    omega

/-- Routers whose windows all fit keep the words apart. -/
theorem noAlias_of_fits {cfg : Fin M → InitiatorConfig} {blocks : Fin M → Block}
    (hfits : ∀ i, ∃ n, (cfg i).Fits n) (hblocks : ∀ i, (blocks i).NoAlias) :
    (Block.router M cfg blocks).NoAlias := by
  refine ⟨hblocks, fun a b i masked ha hb _ _ _ => ?_⟩
  obtain ⟨n, hn⟩ := hfits i
  obtain ⟨hia, hma⟩ := decodeAddress_ok ha
  obtain ⟨hib, hmb⟩ := decodeAddress_ok hb
  exact hn.eq_of_and_eq hia hib (hma.symm.trans hmb)

/-- A memory of two words, and a `WBRAM` of two words behind them. -/
def innerWindows : Fin 2 → InitiatorConfig
  | 0 => ⟨0, 8, 7⟩
  | 1 => ⟨8, 16, 7⟩

def innerBlocks : Fin 2 → Block
  | 0 => .memory 2
  | 1 => .wbram 0 2

/-- The four words from `0x1000` on, and a ROM of one word at `0x2100`. -/
def outerWindows : Fin 2 → InitiatorConfig
  | 0 => ⟨0x1000, 0x1010, 0xf⟩
  | 1 => ⟨0x2100, 0x2104, 0x1ff⟩

def outerBlocks : Fin 2 → Block
  | 0 => .router 2 innerWindows innerBlocks
  | 1 => .rom true TlmRom.fourBytes

theorem noAlias_outer : (Block.router 2 outerWindows outerBlocks).NoAlias := by
  have hinner : (Block.router 2 innerWindows innerBlocks).NoAlias := by
    refine noAlias_of_fits (fun i => ⟨3, ?_⟩) fun i => ?_
    · fin_cases i <;> exact ⟨by decide, by decide, by decide⟩
    · fin_cases i <;> trivial
  refine noAlias_of_fits (fun i => ?_) fun i => ?_
  · fin_cases i
    · exact ⟨4, by decide, by decide, by decide⟩
    · exact ⟨9, by decide, by decide, by decide⟩
  · fin_cases i
    · exact hinner
    · trivial

/-- Everything after construction, and the memory full of zeros. -/
def innerInit : (i : Fin 2) → (innerBlocks i).State
  | 0 => (⟨fun _ => 0, ⟨0, 0⟩, ⟨0, 0⟩⟩ : Memory)
  | 1 => Wired.init 2

def outerInit : (i : Fin 2) → (outerBlocks i).State
  | 0 => innerInit
  | 1 => ()

theorem quiet_outerInit : (Block.router 2 outerWindows outerBlocks).Quiet outerInit := by
  intro i
  fin_cases i
  · intro j
    fin_cases j
    · trivial
    · exact quiet_init 2
  · trivial

/-- A word access at an address, with the buffer at address 0. -/
def accessAt (command : Command) (address : BitVec 64) (host : Host) : Call where
  trans := ⟨command, address, 0, 4, none, 4, false, .incomplete⟩
  host := host

theorem accessAt_wordAccess {command : Command} (h : command ≠ .ignore) {address : BitVec 64}
    (ha : address.toNat % 4 = 0) (host : Host) : Memory.WordAccess (accessAt command address host) :=
  ⟨h, ha, rfl, rfl, rfl⟩

/-- A word goes from one port through both routers to the `WBRAM` and comes back to another port; in
between someone tries to write the ROM. -/
theorem interconnect_flat_two_routers :
    ∃ c' line, ((interconnect (N := 2) outerWindows outerBlocks).step
        ((interconnect (N := 2) outerWindows outerBlocks).run outerInit
          [.access 0 (accessAt .write 0x100c (BitVec.ofNat 8)), .delta,
            .access 1 (accessAt .write 0x2100 fun _ => 0)])
        (.access 1 (accessAt .read 0x100c fun _ => 0))).2 = some (.ok (c', line)) ∧
      c'.trans.responseStatus = .ok ∧ Patch.load c'.host 0 4 = [0, 1, 2, 3] :=
  ((interconnect_flat (N := 2) noAlias_outer outerInit quiet_outerInit
    [.access 0 (accessAt .write 0x100c (BitVec.ofNat 8)), .delta,
      .access 1 (accessAt .write 0x2100 fun _ => 0)]
    (by
      simp only [List.mem_cons, List.not_mem_nil, or_false, forall_eq_or_imp, forall_eq]
      exact ⟨⟨accessAt_wordAccess (by decide) rfl _, .inl rfl⟩, trivial,
        ⟨accessAt_wordAccess (by decide) rfl _, .inr rfl⟩⟩)
    1 (accessAt .read 0x100c fun _ => 0) (accessAt_wordAccess (by decide) rfl _)).1 rfl rfl).1

end DeltaModels.Tlm
