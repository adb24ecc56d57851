import DeltaModels.Library.Mealy
import DeltaModels.Tlm.Memory
import Mathlib.Data.List.FinRange

/-!
# `TLMRouter` in front of memories

The router looks for the first window that contains the address of a call, masks the address with
the window's mask, and forwards the call to the block behind that window. With `Memory<SIZE>` blocks
behind it, `slot` is where the word at an address really lives: a block and a word of its array.

If the mask of every window keeps the words of the window apart and inside the array
(`InitiatorConfig.Injects`), then different addresses have different slots (`slot_injective`), windows
that overlap included, because the first match decides for both. From there on the router with its
memories is one flat memory (`routed_flat`): a word access to a mapped address reads or patches the
image, whichever port it comes from.
-/

namespace DeltaModels.Tlm

variable {N M SIZE : Nat}

/-- A window of an output socket. -/
structure InitiatorConfig where
  baseAddress : BitVec 32
  topAddress : BitVec 32
  mask : BitVec 32
  deriving DecidableEq, Repr

/-- The comparison made by the search. -/
abbrev InitiatorConfig.Contains (w : InitiatorConfig) (address : BitVec 64) : Prop :=
  address ≥ w.baseAddress.setWidth 64 ∧ address < w.topAddress.setWidth 64

/-- The report of an address that no window contains. -/
def noSubspace (address : BitVec 64) : Fault :=
  .report "TLM-ROUTER"
    ("TLM-ROUTER: Address " ++ hex address ++ " does not match any defined subspaces")

/-- `TLMRouter::decode_address`: the index of the first window that contains the address, and the
masked address. -/
def decodeAddress (initiatorsConfig : Fin M → InitiatorConfig) (address : BitVec 64) :
    Except Fault (Fin M × BitVec 64) :=
  match (List.finRange M).find? fun i => (initiatorsConfig i).Contains address with
  | some i => .ok (i, address &&& (initiatorsConfig i).mask.setWidth 64)
  | none => .error (noSubspace address)

/-- The line that the router writes to its log, without the time stamp. -/
structure TraceLine (N M : Nat) where
  target : Fin N
  initiator : Fin M
  address : BitVec 64
  cmd : String
  len : BitVec 32
  wid : BitVec 32
  byt : BitVec 32
  data : BitVec 32
  deriving DecidableEq, Repr

/-- `ptr[0] | (ptr[1] << 8) | (ptr[2] << 16) | (ptr[3] << 24)`. -/
def packWord (host : Host) (ptr : Nat) : BitVec 32 :=
  (host ptr).setWidth 32 ||| ((host (ptr + 1)).setWidth 32 <<< 8)
    ||| ((host (ptr + 2)).setWidth 32 <<< 16) ||| ((host (ptr + 3)).setWidth 32 <<< 24)

/-- `TLMRouter::b_transport`, in front of any blocks: `initiatorSocket i` is the `b_transport` of the
block behind output `i`, and `σ` the state of all of them. -/
def TLMRouter.bTransport {σ : Type} (initiatorsConfig : Fin M → InitiatorConfig)
    (initiatorSocket : Fin M → σ → Call → Except Fault (σ × Call)) (s : σ) (id : Fin N) (c : Call) :
    Except Fault (σ × Call × TraceLine N M) := do
  let address := c.trans.address
  let (initiatorNr, maskedAddress) ← decodeAddress initiatorsConfig address
  let (s, c') ← initiatorSocket initiatorNr s
    { c with trans := { c.trans with address := maskedAddress } }
  return (s, c', {
    target := id
    initiator := initiatorNr
    address := address
    cmd := if c.trans.command = .write then "write" else "read"
    len := c.trans.dataLength
    wid := c.trans.streamingWidth
    byt := (c.trans.byteEnablePtr.map (packWord c'.host)).getD 0
    data := packWord c'.host c.trans.dataPtr })

/-! ## Memories behind the outputs -/

/-- The `b_transport` of the memory behind output `i`. -/
def memorySocket (SIZE : Nat) (i : Fin M) (ms : Fin M → Memory) (c : Call) :
    Except Fault ((Fin M → Memory) × Call) := do
  let (m, c) ← (ms i).bTransport SIZE c
  return (Function.update ms i m, c)

/-- What happens to a router with its memories: a call from some port, or the end of a delta
cycle. -/
inductive Event (N : Nat) where
  | access (port : Fin N) (c : Call)
  | delta

/-- What a call gets back. -/
abbrev Answer (N M : Nat) := Except Fault (Call × TraceLine N M)

/-- The router with a memory behind each output. A call that faults gets the fault for an answer; a
report is thrown before anything is changed. -/
def routed (SIZE : Nat) (initiatorsConfig : Fin M → InitiatorConfig) :
    Mealy (Event N) (Fin M → Memory) (Option (Answer N M)) where
  step ms
    | .access port c =>
      match TLMRouter.bTransport initiatorsConfig (memorySocket SIZE) ms port c with
      | .ok (ms', answer) => (ms', some (.ok answer))
      | .error fault => (ms, some (.error fault))
    | .delta => (fun i => (ms i).update, none)

/-! ## Slots -/

section Slots

variable (cfg : Fin M → InitiatorConfig)

/-- Some window contains the address. -/
def Mapped (address : BitVec 64) : Prop := ∃ i, (cfg i).Contains address

/-- Where the word at an address lives. -/
def slot (address : BitVec 64) : Option (Fin M × Nat) :=
  match decodeAddress cfg address with
  | .ok (i, masked) => some (i, Memory.wordOf masked)
  | .error _ => none

/-- The word of the array that a window gives an address. -/
def InitiatorConfig.wordOf (w : InitiatorConfig) (address : BitVec 64) : Nat :=
  Memory.wordOf (address &&& w.mask.setWidth 64)

/-- The mask of the window gives its words different words of the array. -/
structure InitiatorConfig.Injects (SIZE : Nat) (w : InitiatorConfig) : Prop where
  inj : ∀ a b, w.Contains a → w.Contains b → a.toNat % 4 = 0 → b.toNat % 4 = 0 →
    w.wordOf a = w.wordOf b → a = b
  lt_size : ∀ a, w.Contains a → a.toNat % 4 = 0 → w.wordOf a < SIZE

variable {cfg}

/-- The first match is a match. -/
theorem decodeAddress_ok {a masked : BitVec 64} {i : Fin M}
    (h : decodeAddress cfg a = .ok (i, masked)) :
    (cfg i).Contains a ∧ masked = a &&& (cfg i).mask.setWidth 64 := by
  unfold decodeAddress at h
  split at h
  · next j hj =>
    obtain ⟨rfl, rfl⟩ : j = i ∧ _ = masked := by simpa using h
    exact ⟨by simpa using List.find?_some hj, rfl⟩
  · cases h

/-- An address is decoded exactly when some window contains it. -/
theorem decodeAddress_of_mapped {a : BitVec 64} (h : Mapped cfg a) :
    ∃ i masked, decodeAddress cfg a = .ok (i, masked) := by
  unfold decodeAddress
  split
  · exact ⟨_, _, rfl⟩
  · next hnone =>
    obtain ⟨i, hi⟩ := h
    exact absurd hi (by simpa using List.find?_eq_none.mp hnone i (List.mem_finRange i))

theorem decodeAddress_of_not_mapped {a : BitVec 64} (h : ¬ Mapped cfg a) :
    decodeAddress cfg a = .error (noSubspace a) := by
  unfold decodeAddress
  split
  · next i hi => exact absurd ⟨i, by simpa using List.find?_some hi⟩ h
  · rfl

/-- The slot of a mapped address, and what it takes to be one. -/
theorem slot_of_mapped {a : BitVec 64} (h : Mapped cfg a) :
    ∃ i, slot cfg a = some (i, (cfg i).wordOf a) ∧ (cfg i).Contains a ∧
      decodeAddress cfg a = .ok (i, a &&& (cfg i).mask.setWidth 64) := by
  obtain ⟨i, masked, hdec⟩ := decodeAddress_of_mapped h
  obtain ⟨hi, rfl⟩ := decodeAddress_ok hdec
  exact ⟨i, by simp only [slot, hdec, InitiatorConfig.wordOf], hi, hdec⟩

/-- **No aliasing**: word-aligned addresses with the same slot are equal. Two addresses in one block
were matched by the same window, and that window keeps them apart. -/
theorem slot_injective (hcfg : ∀ i, (cfg i).Injects SIZE) {a b : BitVec 64} (ha : Mapped cfg a)
    (hb : Mapped cfg b) (ha4 : a.toNat % 4 = 0) (hb4 : b.toNat % 4 = 0)
    (h : slot cfg a = slot cfg b) : a = b := by
  obtain ⟨i, hsi, hia, -⟩ := slot_of_mapped ha
  obtain ⟨j, hsj, hjb, -⟩ := slot_of_mapped hb
  rw [hsi, hsj] at h
  obtain ⟨rfl, hword⟩ : i = j ∧ (cfg i).wordOf a = (cfg j).wordOf b := by simpa using h
  exact (hcfg i).inj a b hia hjb ha4 hb4 hword

end Slots

/-! ## Accesses -/

section Flat

variable {cfg : Fin M → InitiatorConfig}

/-- The word that the memories hold at an address. -/
def peek (cfg : Fin M → InitiatorConfig) (ms : Fin M → Memory) (a : BitVec 64) :
    List (BitVec 8) :=
  match slot cfg a with
  | some (i, w) => (ms i).word w
  | none => []

/-- Every call is a word access. -/
def Event.Word : Event N → Prop
  | .access _ c => Memory.WordAccess c
  | .delta => True

/-- What an event writes, as a patch of the flat memory. -/
def Event.patch : Event N → Patch (BitVec 64) (List (BitVec 8))
  | .access _ c =>
    if c.trans.command = .write then
      .single c.trans.address (Patch.load c.host c.trans.dataPtr 4)
    else .empty
  | .delta => .empty

/-- Masking keeps an address word-aligned. -/
theorem and_mod_four {a : BitVec 64} (m : BitVec 64) (h : a.toNat % 4 = 0) :
    (a &&& m).toNat % 4 = 0 := by
  have hmod : ∀ n : Nat, n % 4 = n &&& 3 := fun n => (Nat.and_two_pow_sub_one_eq_mod n 2).symm
  rw [BitVec.toNat_and, hmod, Nat.and_assoc, Nat.and_comm m.toNat, ← Nat.and_assoc, ← hmod, h,
    Nat.zero_and]

/-- The forwarded call is a word access as well. -/
theorem wordAccess_masked {c : Call} (hc : Memory.WordAccess c) (m : BitVec 64) :
    Memory.WordAccess { c with trans := { c.trans with address := c.trans.address &&& m } } :=
  ⟨hc.command, and_mod_four m hc.aligned, hc.dataLength, hc.streamingWidth, hc.byteEnablePtr⟩

/-- **A read of a mapped word** answers with the word, and the memories hold what they held. -/
theorem routed_read (hcfg : ∀ i, (cfg i).Injects SIZE) (ms : Fin M → Memory) (port : Fin N)
    {c : Call} (hc : Memory.WordAccess c) (hmap : Mapped cfg c.trans.address)
    (hcmd : c.trans.command = .read) :
    (∃ c' line, ((routed SIZE cfg).step ms (.access port c)).2 = some (.ok (c', line)) ∧
      c'.trans.responseStatus = .ok ∧
      Patch.load c'.host c.trans.dataPtr 4 = peek cfg ms c.trans.address) ∧
    ∀ b, peek cfg ((routed SIZE cfg).step ms (.access port c)).1 b = peek cfg ms b := by
  obtain ⟨i, hslot, hi, hdec⟩ := slot_of_mapped hmap
  have hsize := (hcfg i).lt_size _ hi hc.aligned
  have hread := Memory.bTransport_read (ms i) (wordAccess_masked hc _) hsize hcmd
  simp only [routed, TLMRouter.bTransport, hdec, memorySocket, hread, bind, Except.bind, pure,
    Except.pure]
  refine ⟨⟨_, _, rfl, rfl, ?_⟩, fun b => ?_⟩
  · have hload := Patch.load_span c.host c.trans.dataPtr ((ms i).word ((cfg i).wordOf c.trans.address))
    have hlen : ((ms i).word ((cfg i).wordOf c.trans.address)).length = 4 := Patch.length_load _ _ _
    rw [hlen] at hload
    simp only [peek, hslot]
    exact hload
  · simp only [peek]
    split
    · next j w _ =>
      by_cases hj : j = i
      · subst hj; rw [Function.update_self]; rfl
      · rw [Function.update_of_ne hj]
    · rfl

/-- **A write of a mapped word** stores it and nothing else. -/
theorem routed_write (hcfg : ∀ i, (cfg i).Injects SIZE) (ms : Fin M → Memory) (port : Fin N)
    {c : Call} (hc : Memory.WordAccess c) (hmap : Mapped cfg c.trans.address)
    (hcmd : c.trans.command = .write) :
    (∃ c' line, ((routed SIZE cfg).step ms (.access port c)).2 = some (.ok (c', line)) ∧
      c'.trans.responseStatus = .ok) ∧
    ∀ b, Mapped cfg b → b.toNat % 4 = 0 →
      peek cfg ((routed SIZE cfg).step ms (.access port c)).1 b
        = (Patch.single c.trans.address (Patch.load c.host c.trans.dataPtr 4)).apply (peek cfg ms) b := by
  obtain ⟨i, hslot, hi, hdec⟩ := slot_of_mapped hmap
  have hsize := (hcfg i).lt_size _ hi hc.aligned
  have hwrite := Memory.bTransport_write (ms i) (wordAccess_masked hc _) hsize hcmd
  simp only [routed, TLMRouter.bTransport, hdec, memorySocket, hwrite, bind, Except.bind, pure,
    Except.pure]
  refine ⟨⟨_, _, rfl, rfl⟩, fun b hb hb4 => ?_⟩
  have hlen : (Patch.load c.host c.trans.dataPtr 4).length = 4 := Patch.length_load _ _ _
  obtain ⟨j, hslotb, -, -⟩ := slot_of_mapped hb
  by_cases hbc : b = c.trans.address
  · subst hbc
    simp only [peek, hslot, Function.update_self, Patch.apply, Patch.single_self, Option.getD_some]
    exact Memory.word_setWord_self _ _ hlen
  -- another address lives in another block or in another word of this one
  · have hne : slot cfg b ≠ slot cfg c.trans.address :=
      fun h => hbc (slot_injective hcfg hb hmap hb4 hc.aligned h)
    rw [Patch.apply_of_none _ (Patch.single_of_ne _ hbc)]
    simp only [peek, hslotb]
    by_cases hj : j = i
    · subst hj
      have hword : (cfg j).wordOf b ≠ (cfg j).wordOf c.trans.address := by
        rw [hslot, hslotb] at hne
        exact fun h => hne (by rw [h])
      rw [Function.update_self]
      exact Memory.word_setWord_of_ne _ hlen hword
    · rw [Function.update_of_ne hj]

/-- **An access to an unmapped address** is reported and changes nothing. -/
theorem routed_unmapped (ms : Fin M → Memory) (port : Fin N) {c : Call}
    (h : ¬ Mapped cfg c.trans.address) :
    (routed SIZE cfg).step ms (.access port c)
      = (ms, some (.error (noSubspace c.trans.address))) := by
  simp only [routed, TLMRouter.bTransport, decodeAddress_of_not_mapped h, bind, Except.bind]

/-- **Step lemma**: every word event patches the flat memory. -/
theorem peek_step (hcfg : ∀ i, (cfg i).Injects SIZE) (ms : Fin M → Memory) {e : Event N}
    (he : e.Word) {b : BitVec 64} (hb : Mapped cfg b) (hb4 : b.toNat % 4 = 0) :
    peek cfg ((routed SIZE cfg).step ms e).1 b = e.patch.apply (peek cfg ms) b := by
  cases e with
  | delta =>
    obtain ⟨i, hslot, -, -⟩ := slot_of_mapped hb
    simp only [Event.patch, Patch.apply_empty, peek, hslot]
    rfl
  | access port c =>
    by_cases hmap : Mapped cfg c.trans.address
    · cases hcmd : c.trans.command with
      | read =>
        have hpatch : (Event.access port c).patch = .empty := by simp [Event.patch, hcmd]
        rw [hpatch, Patch.apply_empty]
        exact (routed_read hcfg ms port he hmap hcmd).2 b
      | write =>
        have hpatch : (Event.access port c).patch
            = .single c.trans.address (Patch.load c.host c.trans.dataPtr 4) := by
          simp [Event.patch, hcmd]
        rw [hpatch]
        exact (routed_write hcfg ms port he hmap hcmd).2 b hb hb4
      | ignore => exact absurd hcmd he.command
    -- an unmapped access patches nothing that is mapped
    · have hne : b ≠ c.trans.address := fun h => hmap (h ▸ hb)
      have hpatch : (Event.access port c).patch b = none := by
        simp only [Event.patch]
        split
        · exact Patch.single_of_ne _ hne
        · rfl
      rw [routed_unmapped ms port hmap, Patch.apply_of_none _ hpatch]

/-- **Run lemma**: at every mapped word the memories hold what the latest write stored there. -/
theorem peek_run (hcfg : ∀ i, (cfg i).Injects SIZE) (ms : Fin M → Memory) {es : List (Event N)}
    (hes : ∀ e ∈ es, e.Word) {b : BitVec 64} (hb : Mapped cfg b) (hb4 : b.toNat % 4 = 0) :
    peek cfg ((routed SIZE cfg).run ms es) b
      = (Patch.latest (es.map Event.patch) b).getD (peek cfg ms b) := by
  rw [← Patch.replay_eq]
  induction es using List.reverseRecOn with
  | nil => rfl
  | append_singleton es e ih =>
    rw [Mealy.run_concat, peek_step hcfg _ (hes e (by simp)) hb hb4, List.map_append,
      List.map_singleton, Patch.replay_concat, Patch.apply, Patch.apply,
      ih fun e' he' => hes e' (by simp [he'])]

/-- **The router with its memories is one flat word memory.** After any word accesses from any
ports, a read of a mapped address gets what the latest write to that address stored, or the initial
word; a write changes no other mapped word; and an access to an unmapped address is reported and
changes no memory. -/
theorem routed_flat (hcfg : ∀ i, (cfg i).Injects SIZE) (ms : Fin M → Memory)
    (es : List (Event N)) (hes : ∀ e ∈ es, e.Word) (port : Fin N) (c : Call)
    (hc : Memory.WordAccess c) :
    let before := (routed SIZE cfg).run ms es
    let after := ((routed SIZE cfg).step before (.access port c)).1
    let answer := ((routed SIZE cfg).step before (.access port c)).2
    (Mapped cfg c.trans.address → c.trans.command = .read →
      ∃ c' line, answer = some (.ok (c', line)) ∧ c'.trans.responseStatus = .ok ∧
        Patch.load c'.host c.trans.dataPtr 4
          = (Patch.latest (es.map Event.patch) c.trans.address).getD (peek cfg ms c.trans.address)) ∧
    (Mapped cfg c.trans.address → c.trans.command = .write →
      (∃ c' line, answer = some (.ok (c', line)) ∧ c'.trans.responseStatus = .ok) ∧
        ∀ b, Mapped cfg b → b.toNat % 4 = 0 → b ≠ c.trans.address →
          peek cfg after b = peek cfg before b) ∧
    (¬ Mapped cfg c.trans.address →
      answer = some (.error (noSubspace c.trans.address)) ∧ after = before) := by
  intro before after answer
  refine ⟨fun hmap hcmd => ?_, fun hmap hcmd => ?_, fun hmap => ?_⟩
  · obtain ⟨⟨c', line, hans, hok, hload⟩, -⟩ := routed_read hcfg before port hc hmap hcmd
    exact ⟨c', line, hans, hok, hload.trans (peek_run hcfg ms hes hmap hc.aligned)⟩
  · obtain ⟨hans, hpeek⟩ := routed_write hcfg before port hc hmap hcmd
    refine ⟨hans, fun b hb hb4 hne => ?_⟩
    exact (hpeek b hb hb4).trans (Patch.apply_of_none _ (Patch.single_of_ne _ hne))
  · have hstep : (routed SIZE cfg).step before (.access port c) = _ :=
      routed_unmapped before port hmap
    exact ⟨congrArg Prod.snd hstep, congrArg Prod.fst hstep⟩

end Flat

/-! ## Two overlapping windows -/

/-- Two windows that share the word at `0x1004`; it belongs to the first one. -/
def twoWindows (i : Fin 2) : InitiatorConfig :=
  if i = 0 then ⟨0x1000, 0x1008, 0xfff⟩ else ⟨0x1004, 0x1010, 0xff⟩

theorem twoWindows_wordOf (i : Fin 2) {a : BitVec 64} (h : (twoWindows i).Contains a) :
    ∃ k < 16, a.toNat = 0x1000 + k ∧ (twoWindows i).wordOf a = k / 4 := by
  have hbounds : ∀ i, 0x1000 ≤ ((twoWindows i).baseAddress.setWidth 64).toNat ∧
      ((twoWindows i).topAddress.setWidth 64).toNat ≤ 0x1010 := by decide
  have hwords : ∀ k < 16, ∀ i, (twoWindows i).wordOf (BitVec.ofNat 64 (0x1000 + k)) = k / 4 := by
    decide
  have hlo := BitVec.le_def.mp h.1
  have hhi := BitVec.lt_def.mp h.2
  obtain ⟨hbase, htop⟩ := hbounds i
  have ha : a = BitVec.ofNat 64 (0x1000 + (a.toNat - 0x1000)) := by
    rw [Nat.add_sub_cancel' (by omega), BitVec.ofNat_toNat, BitVec.setWidth_eq]
  refine ⟨a.toNat - 0x1000, by omega, by omega, ?_⟩
  conv_lhs => rw [ha]
  exact hwords _ (by omega) i

theorem twoWindows_injects (i : Fin 2) : (twoWindows i).Injects 4 where
  inj a b ha hb ha4 hb4 h := by
    obtain ⟨k, -, hak, hwa⟩ := twoWindows_wordOf i ha
    obtain ⟨l, -, hbl, hwb⟩ := twoWindows_wordOf i hb
    apply BitVec.eq_of_toNat_eq
    omega
  lt_size a ha _ := by
    obtain ⟨k, hk, -, hwa⟩ := twoWindows_wordOf i ha
    omega

/-- A word access to the shared word, with the buffer at address 0. -/
def sharedWord (command : Command) (host : Host) : Call where
  trans := ⟨command, 0x1004, 0, 4, none, 4, false, .incomplete⟩
  host := host

theorem sharedWord_wordAccess {command : Command} (h : command ≠ .ignore) (host : Host) :
    Memory.WordAccess (sharedWord command host) :=
  ⟨h, by simp [sharedWord], rfl, rfl, rfl⟩

/-- Two memories full of zeros. -/
def zeroed (_ : Fin 2) : Memory := ⟨fun _ => 0, ⟨0, 0⟩, ⟨0, 0⟩⟩

/-- What port 0 writes to the shared word, port 1 reads back. -/
theorem routed_flat_shared_word :
    ∃ c' line, ((routed (N := 2) 4 twoWindows).step
        ((routed (N := 2) 4 twoWindows).run zeroed [.access 0 (sharedWord .write (BitVec.ofNat 8))])
        (.access 1 (sharedWord .read fun _ => 0))).2 = some (.ok (c', line)) ∧
      c'.trans.responseStatus = .ok ∧ Patch.load c'.host 0 4 = [0, 1, 2, 3] :=
  (routed_flat (N := 2) twoWindows_injects zeroed
    [.access 0 (sharedWord .write (BitVec.ofNat 8))]
    (by simpa [Event.Word] using sharedWord_wordAccess (by decide) _)
    1 (sharedWord .read fun _ => 0) (sharedWord_wordAccess (by decide) _)).1
    ⟨0, by decide⟩ rfl

end DeltaModels.Tlm
