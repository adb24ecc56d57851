import DeltaModels.Library.AccessLog
import DeltaModels.Tlm.Interconnect

/-!
# The log of a router

For each call that comes back the router writes a line, with the address before masking and the word
that is in the buffer then. If every word access is served, or never comes back, the lines are a
history of the memory behind the router: they lead from its words before a run to its words after it,
and each line of a read shows what the lines before it left (`routerLog_replays`).

All routers log through the one logger `tlms_logger`. A router behind another one writes a line of its
own, with the address that it was given, and nothing in a line tells which router it is from. So this is
about one router, with targets behind it.

A memory, and a ROM whose reports do not throw, answer a write that they do not carry out; such a line
tells of a write that has not happened, so these calls are left out here.
-/

namespace DeltaModels.Tlm

open Access (Replays)

variable {M N : Nat}

/-! ## Lines and words -/

/-- The word of four bytes, the first one lowest. -/
def wordOfBytes (bytes : List (BitVec 8)) : BitVec 32 :=
  (bytes.getD 0 0).setWidth 32 ||| ((bytes.getD 1 0).setWidth 32 <<< 8)
    ||| ((bytes.getD 2 0).setWidth 32 <<< 16) ||| ((bytes.getD 3 0).setWidth 32 <<< 24)

/-- The access that a line tells of. -/
def TraceLine.access (line : TraceLine N M) : Access (BitVec 64) (BitVec 32) :=
  ⟨line.address, line.data, line.cmd = "write"⟩

/-- The line that comes with an answer. -/
def lineOf : Option (Answer N M) → Option (TraceLine N M)
  | some (.ok (_, line)) => some line
  | _ => none

/-- The call never comes back: no window contains its address, or a ROM throws it out. -/
def Block.rejects : Block → Command → BitVec 64 → Bool
  | .rom throws _, command, _ => throws ∧ command = .write
  | .router _ initiatorsConfig blocks, command, a =>
    match decodeAddress initiatorsConfig a with
    | .ok (i, masked) => (blocks i).rejects command masked
    | .error _ => true
  | _, _, _ => false

/-- The block is no router, and writes no line. -/
def Block.IsTarget : Block → Prop
  | .router _ _ _ => False
  | _ => True

/-- A block that is no router. -/
structure Target where
  block : Block
  isTarget : block.IsTarget

section Targets

variable (cfg : Fin M → InitiatorConfig) (targets : Fin M → Target)

/-- The lines that a run writes, each with its time: no router but this one is there to write any. -/
def routerLog {T : Type} : ((i : Fin M) → (targets i).block.State) → List (T × Event N) →
    List (T × TraceLine N M)
  | _, [] => []
  | s, (time, e) :: es =>
    ((lineOf ((interconnect cfg fun i => (targets i).block).step s e).2).map (time, ·)).toList
      ++ routerLog ((interconnect cfg fun i => (targets i).block).step s e).1 es

end Targets

section Log

variable (cfg : Fin M → InitiatorConfig) (blocks : Fin M → Block)

/-- The words that can be read; nothing is said of other addresses. -/
def wordsOf (s : (i : Fin M) → (blocks i).State) (a : BitVec 64) : BitVec 32 :=
  if (Block.router M cfg blocks).serves .read a ∧ a.toNat % 4 = 0 then
    wordOfBytes ((Block.router M cfg blocks).look s a)
  else 0

/-- A word access that is served or never comes back, or time that goes on. -/
def Event.Settled : Event N → Prop
  | .access _ c => Memory.WordAccess c ∧
      ((Block.router M cfg blocks).serves c.trans.command c.trans.address ∨
        (Block.router M cfg blocks).rejects c.trans.command c.trans.address)
  | .delta => True

/-- The address and the kind of a word access that is served. -/
def Event.served : Event N → Option (BitVec 64 × Bool)
  | .access _ c =>
    if (Block.router M cfg blocks).serves c.trans.command c.trans.address then
      some (c.trans.address, c.trans.command = .write)
    else none
  | .delta => none

variable {cfg blocks}

/-- A call that is rejected faults, whatever the state is. -/
theorem block_rejects : ∀ {b : Block} {s : b.State} {c : Call},
    b.rejects c.trans.command c.trans.address → ∃ fault, b.bTransport s c = .error fault
  | .memory _, _, _, h => by cases h
  | .rom throws tlmRom, _, c, h => by
    obtain ⟨hthrows, hcmd⟩ : throws = true ∧ c.trans.command = .write := of_decide_eq_true h
    subst hthrows
    by_cases hout : (c.trans.address - tlmRom.baseaddr).toNat ≥ tlmRom.ROM.length
    · exact ⟨_, romSocket_outside hout⟩
    · exact ⟨_, romSocket_write hout hcmd⟩
  | .wbram _ _, _, _, h => by cases h
  | .router _ cfg blocks, s, c, h => by
    rw [block_bTransport s (0 : Fin 1)]
    rw [Block.rejects] at h
    split at h
    · next i masked hdec =>
      obtain ⟨fault, hfault⟩ := block_rejects (b := blocks i) (s := s i)
        (c := { c with trans := { c.trans with address := masked } }) h
      rw [bTransport_decoded hdec, hfault]
      exact ⟨fault, rfl⟩
    · next fault hdec =>
      rw [bTransport_undecoded hdec]
      exact ⟨fault, rfl⟩

/-- What can be written can be read. -/
theorem serves_read_of_write : ∀ {b : Block} {a : BitVec 64}, b.serves .write a → b.serves .read a
  | .memory _, _, h => h
  | .rom _ _, _, h => by
    obtain ⟨hread, -⟩ := of_decide_eq_true h
    cases hread
  | .wbram _ _, _, h => h
  | .router _ cfg blocks, a, h => by
    obtain ⟨i, masked, hdec, hserves⟩ := serves_router h
    rw [Block.serves, hdec]
    exact serves_read_of_write hserves

/-! ## Replay -/

/-- A call that is rejected writes no line. -/
theorem step_rejected {s : (i : Fin M) → (blocks i).State} (port : Fin N) {c : Call}
    (h : (Block.router M cfg blocks).rejects c.trans.command c.trans.address) :
    ∃ fault, (interconnect cfg blocks).step s (.access port c) = (s, some (.error fault)) := by
  obtain ⟨fault, hfault⟩ := block_rejects (s := s) h
  rcases interconnect_access s port c with ⟨fault', hstep, -⟩ | ⟨s', c', line, -, hcall⟩
  · exact ⟨fault', hstep⟩
  · rw [hfault] at hcall
    cases hcall

/-- A call that comes back writes a line with its own address and kind, and the word that is in its
buffer then. -/
theorem line_of_answered {s s' : (i : Fin M) → (blocks i).State} {c c' : Call}
    (h : (Block.router M cfg blocks).bTransport s c = .ok (s', c')) (port : Fin N) :
    ∃ line : TraceLine N M,
      (interconnect cfg blocks).step s (.access port c) = (s', some (.ok (c', line))) ∧
        line.access = ⟨c.trans.address, wordOfBytes (Patch.load c'.host c.trans.dataPtr 4),
          c.trans.command = .write⟩ := by
  rw [block_bTransport s port] at h
  cases hdec : decodeAddress cfg c.trans.address with
  | error fault =>
    rw [bTransport_undecoded hdec] at h
    cases h
  | ok decoded =>
    obtain ⟨i, masked⟩ := decoded
    cases hblock : (blocks i).bTransport (s i)
        { c with trans := { c.trans with address := masked } } with
    | error fault =>
      rw [bTransport_decoded hdec, hblock] at h
      cases h
    | ok answer =>
      have hrouter := @bTransport_decoded M N cfg blocks s port c i masked hdec
      rw [hblock] at hrouter
      rw [hrouter] at h
      cases h
      refine ⟨traceLine port i c answer.2.host, ?_, ?_⟩
      · simp only [interconnect, hrouter]
        rfl
      · have hkind : decide ((if c.trans.command = .write then "write" else "read") = "write")
            = decide (c.trans.command = .write) := by
          by_cases hcmd : c.trans.command = .write
          · rw [if_pos hcmd]
            exact (decide_eq_true hcmd).symm
          · rw [if_neg hcmd]
            exact (decide_eq_false hcmd).symm
        exact congrArg (Access.mk c.trans.address
          (wordOfBytes (Patch.load answer.2.host c.trans.dataPtr 4))) hkind

/-- The words are what can be seen of the state. -/
theorem wordsOf_congr {s s' : (i : Fin M) → (blocks i).State}
    (h : ∀ a, (Block.router M cfg blocks).look s' a = (Block.router M cfg blocks).look s a) :
    wordsOf cfg blocks s' = wordsOf cfg blocks s := by
  funext a
  simp only [wordsOf, h]

/-- **Step lemma**: an event writes the line of what it does to the words. -/
theorem router_step_replays (hlaw : (Block.router M cfg blocks).Lawful)
    {s : (i : Fin M) → (blocks i).State} (hs : (Block.router M cfg blocks).Quiet s)
    {m : BitVec 64 → BitVec 32} {log : List (Access (BitVec 64) (BitVec 32))}
    (h : Replays m log (wordsOf cfg blocks s)) {e : Event N} (he : e.Settled cfg blocks) :
    let next := (interconnect cfg blocks).step s e
    (Block.router M cfg blocks).Quiet next.1 ∧
      Replays m (log ++ (lineOf next.2).toList.map TraceLine.access) (wordsOf cfg blocks next.1) ∧
      (lineOf next.2).map (fun line => (line.access.addr, line.access.write))
        = e.served cfg blocks := by
  cases e with
  | delta =>
    obtain ⟨hquiet, hlook⟩ := hlaw.tick s hs
    refine ⟨hquiet, ?_, rfl⟩
    show Replays m (log ++ []) (wordsOf cfg blocks ((Block.router M cfg blocks).tick s))
    rw [List.append_nil, wordsOf_congr hlook]
    exact h
  | access port c =>
    obtain ⟨hc, hsettled⟩ := he
    by_cases hserves : (Block.router M cfg blocks).serves c.trans.command c.trans.address
    · have hserved : (Event.access port c).served cfg blocks
          = some (c.trans.address, decide (c.trans.command = .write)) := if_pos hserves
      rw [hserved]
      cases hcmd : c.trans.command with
      | read =>
        rw [hcmd] at hserves
        obtain ⟨s', c', hcall, hquiet, -, hhost, hsame⟩ := hlaw.read s c hs hc hcmd hserves
        obtain ⟨line, hstep, hline⟩ := line_of_answered hcall port
        have hload : Patch.load c'.host c.trans.dataPtr 4
            = (Block.router M cfg blocks).look s c.trans.address := by
          have hlength := hlaw.length_look s c.trans.address hserves
          rw [hhost, ← hlength]
          exact Patch.load_span _ _ _
        rw [hcmd, hload] at hline
        rw [hstep]
        refine ⟨hquiet, ?_, ?_⟩
        · rw [wordsOf_congr hsame]
          refine h.read (congrArg Access.write hline) ?_
          rw [hline]
          exact (if_pos ⟨hserves, hc.aligned⟩).symm
        · show some (line.access.addr, line.access.write) = _
          rw [hline]
      | write =>
        rw [hcmd] at hserves
        obtain ⟨s', c', hcall, hquiet, -, hhost, hpatch⟩ := hlaw.write s c hs hc hcmd hserves
        obtain ⟨line, hstep, hline⟩ := line_of_answered hcall port
        rw [hcmd, hhost] at hline
        rw [hstep]
        refine ⟨hquiet, ?_, ?_⟩
        · refine h.write (congrArg Access.write hline) fun a => ?_
          rw [hline]
          by_cases hac : a = c.trans.address
          · subst hac
            have hread := serves_read_of_write hserves
            rw [if_pos rfl, wordsOf, if_pos ⟨hread, hc.aligned⟩, hpatch _ hread hc.aligned,
              Patch.apply_of_some _ (Patch.single_self _ _)]
          · rw [if_neg hac, wordsOf, wordsOf]
            split
            · next ha =>
              rw [hpatch a ha.1 ha.2, Patch.apply_of_none _ (Patch.single_of_ne _ hac)]
            · rfl
        · show some (line.access.addr, line.access.write) = _
          rw [hline]
      | ignore => exact absurd hcmd hc.command
    · have hserved : (Event.access port c).served cfg blocks = none := if_neg hserves
      obtain ⟨fault, hstep⟩ := step_rejected (s := s) port (hsettled.resolve_left hserves)
      rw [hstep, hserved]
      refine ⟨hs, ?_, rfl⟩
      show Replays m (log ++ []) (wordsOf cfg blocks s)
      rwa [List.append_nil]

end Log

/-- **The log of a router replays.** Let a router in front of targets keep the words apart that can be
written, and let every word access be served or never come back. Then there is one line for each access
that is served, in order, with its time, its address and its kind; the word in each line of a read is what
the lines before it have left at its address, or what was there at the start; and each word that can be
read at the end is what the lines have left of it. -/
theorem routerLog_replays {T : Type} {cfg : Fin M → InitiatorConfig} (targets : Fin M → Target)
    (hno : (Block.router M cfg fun i => (targets i).block).NoAlias)
    (s₀ : (i : Fin M) → (targets i).block.State)
    (hs₀ : (Block.router M cfg fun i => (targets i).block).Quiet s₀)
    (es : List (T × Event N)) (hes : ∀ e ∈ es, e.2.Settled cfg fun i => (targets i).block) :
    let blocks := fun i => (targets i).block
    Replays (wordsOf cfg blocks s₀) ((routerLog cfg targets s₀ es).map fun x => x.2.access)
        (wordsOf cfg blocks ((interconnect cfg blocks).run s₀ (es.map Prod.snd))) ∧
      (routerLog cfg targets s₀ es).map (fun x => (x.1, x.2.access.addr, x.2.access.write))
        = es.filterMap fun e => (e.2.served cfg blocks).map (e.1, ·) := by
  intro blocks
  have hlaw := Block.lawful hno
  suffices hrun : ∀ s log, (Block.router M cfg blocks).Quiet s →
      Replays (wordsOf cfg blocks s₀) log (wordsOf cfg blocks s) →
      Replays (wordsOf cfg blocks s₀)
          (log ++ (routerLog cfg targets s es).map fun x => x.2.access)
          (wordsOf cfg blocks ((interconnect cfg blocks).run s (es.map Prod.snd))) ∧
        (routerLog cfg targets s es).map (fun x => (x.1, x.2.access.addr, x.2.access.write))
          = es.filterMap fun e => (e.2.served cfg blocks).map (e.1, ·) by
    exact hrun s₀ [] hs₀ (Replays.nil _)
  induction es with
  | nil =>
    intro s log _ h
    exact ⟨by simpa [routerLog] using h, rfl⟩
  | cons e es ih =>
    intro s log hs h
    obtain ⟨hs', hstep, hline⟩ := router_step_replays hlaw hs h (hes e (by simp))
    obtain ⟨hrest, hlines⟩ := ih (fun e' he' => hes e' (by simp [he'])) _ _ hs' hstep
    rw [routerLog, List.map_append, List.map_append, hlines, List.filterMap_cons, ← hline]
    rw [List.append_assoc] at hrest
    cases hfirst : lineOf ((interconnect cfg blocks).step s e.2).2 with
    | none =>
      rw [hfirst] at hrest
      exact ⟨hrest, rfl⟩
    | some line =>
      rw [hfirst] at hrest
      exact ⟨hrest, rfl⟩

end DeltaModels.Tlm
