import DeltaModels.Tlm.Interconnect

/-!
# Test benches

A test bench drives the ports of a router through `Initiator`s: it puts a pointer and an address into
the members of one of them and raises its `we` or `re`, upon which its thread sends one word. The
pointers of all initiators lead into the one memory of the bench, and a write is the copy of a word
from there, a read the copy of a word to there. So a bench is a program of copies between two memories,
its own one and the one behind the router (`bench_copies`), and what goes wrong with an access ends it.

A helper lets 21 ns pass and comes back then, whatever the thread is doing. Memories and ROMs answer
without a wait, so their calls are over; the adapter of a `WBRAM` waits for edges of a clock, and a call
that reaches one is not followed here.

The access counters of a memory are signals, and a signal has one writer: a memory is written through one
initiator only, and read through one.
-/

namespace DeltaModels.Tlm

variable {M N : Nat}

/-! ## `Initiator` -/

/-- The members of `Initiator` that its threads read. -/
structure Initiator where
  addr : BitVec 64
  wid : BitVec 64
  ptr : Nat
  byt : Option Nat
  deriving DecidableEq, Repr

namespace Initiator

/-- The payload that `Initiator::pwrite` sends. -/
def pwrite (init : Initiator) : Payload where
  command := .write
  address := init.addr
  dataPtr := init.ptr
  dataLength := 4
  byteEnablePtr := init.byt
  streamingWidth := init.wid.setWidth 32
  dmiAllowed := false
  responseStatus := .incomplete

/-- The payload that `Initiator::pread` sends. -/
def pread (init : Initiator) : Payload where
  command := .read
  address := init.addr
  dataPtr := init.ptr
  dataLength := 4
  byteEnablePtr := none
  streamingWidth := init.wid.setWidth 32
  dmiAllowed := false
  responseStatus := .incomplete

/-- What `_initiator_dowrite` sets; it does not use `len`. -/
def dowrite (init : Initiator) (data : Nat) (addr _len wid : BitVec 32) (mask : Option Nat) :
    Initiator :=
  { init with addr := addr.setWidth 64, ptr := data, wid := wid.setWidth 64, byt := mask }

/-- What `_initiator_doread` sets; it does not use `wid`. -/
def doread (init : Initiator) (data : Nat) (addr len _wid : BitVec 32) : Initiator :=
  { init with addr := addr.setWidth 64, wid := len.setWidth 64, ptr := data }

end Initiator

/-- `tlm_generic_payload::get_response_string`. -/
def ResponseStatus.toText : ResponseStatus → String
  | .ok => "TLM_OK_RESPONSE"
  | .incomplete => "TLM_INCOMPLETE_RESPONSE"
  | .genericError => "TLM_GENERIC_ERROR_RESPONSE"
  | .addressError => "TLM_ADDRESS_ERROR_RESPONSE"
  | .commandError => "TLM_COMMAND_ERROR_RESPONSE"
  | .burstError => "TLM_BURST_ERROR_RESPONSE"
  | .byteEnableError => "TLM_BYTE_ENABLE_ERROR_RESPONSE"

/-! ## Benches -/

/-- What a bench does: it calls a helper on one of its initiators, sets variables of its own, or lets
time go on. -/
inductive BenchOp (N : Nat) where
  | dowrite (port : Fin N) (data : Nat) (addr len wid : BitVec 32) (mask : Option Nat)
  | doread (port : Fin N) (data : Nat) (addr len wid : BitVec 32)
  | assign (ptr : Nat) (bytes : List (BitVec 8))
  | wait

/-- A counter of a memory: the outputs on the way to the memory, and the accesses that are counted. -/
abbrev Counter := List Nat × Command

/-- The initiators, the memory of the bench, the blocks, and through which port each counter has been
written. -/
structure Bench (N : Nat) (blocks : Fin M → Block) where
  inits : Fin N → Initiator
  host : Host
  state : (i : Fin M) → (blocks i).State
  writers : Counter → Option (Fin N)

/-- The block comes back from a call without a wait. -/
def Block.prompt : Block → BitVec 64 → Bool
  | .memory _, _ => true
  | .rom _ _, _ => true
  | .wbram _ _, _ => false
  | .router _ initiatorsConfig blocks, a =>
    match decodeAddress initiatorsConfig a with
    | .ok (i, masked) => (blocks i).prompt masked
    | .error _ => true

/-- The outputs on the way to the memory that has the address. -/
def Block.memoryAt : Block → BitVec 64 → Option (List Nat)
  | .memory _, _ => some []
  | .rom _ _, _ => none
  | .wbram _ _, _ => none
  | .router _ initiatorsConfig blocks, a =>
    match decodeAddress initiatorsConfig a with
    | .ok (i, masked) => ((blocks i).memoryAt masked).map (i.val :: ·)
    | .error _ => none

/-- The report of a signal that is written by a second process; its message names them. -/
def moreThanOneDriver : Fault := .report "sc_signal<T> cannot have more than one driver" ""

section System

variable (cfg : Fin M → InitiatorConfig) (blocks : Fin M → Block)

/-- The members of an initiator are set. -/
def Bench.set {blocks : Fin M → Block} (b : Bench N blocks) (port : Fin N) (init : Initiator) :
    Bench N blocks :=
  { b with inits := Function.update b.inits port init }

/-- The thread of an initiator writes a counter, if there is one. -/
def Bench.count {blocks : Fin M → Block} (b : Bench N blocks) (port : Fin N) :
    Option Counter → Except Fault (Bench N blocks)
  | none => .ok b
  | some counter =>
    match b.writers counter with
    | none => .ok { b with writers := Function.update b.writers counter (some port) }
    | some writer => if writer = port then .ok b else .error moreThanOneDriver

/-- The counter that an access with this command writes. -/
def counterAt (command : Command) (address : BitVec 64) : Option Counter :=
  ((Block.router M cfg blocks).memoryAt address).map (·, command)

/-- The call of a thread, and what it does with the answer. -/
def Bench.transport (b : Bench N blocks) (port : Fin N) (trans : Payload) :
    Except Fault (Bench N blocks) :=
  if (Block.router M cfg blocks).prompt trans.address then do
    let (s, c, _) ← TLMRouter.bTransport cfg (separately fun i => (blocks i).bTransport) b.state port
      { trans := trans, host := b.host }
    if c.trans.responseStatus = .ok then
      Bench.count { b with host := c.host, state := s } port
        (counterAt cfg blocks trans.command trans.address)
    else throw (.report "TLM-2" c.trans.responseStatus.toText)
  -- the thread waits for an adapter, and nothing is said of what comes then
  else .error .outOfRange

/-- Time goes on. -/
def Bench.wait {blocks : Fin M → Block} (b : Bench N blocks) : Bench N blocks :=
  { b with state := fun i => (blocks i).tick (b.state i) }

/-- One operation of a bench. -/
def Bench.step (b : Bench N blocks) : BenchOp N → Except Fault (Bench N blocks)
  | .dowrite port data addr len wid mask =>
    let init := (b.inits port).dowrite data addr len wid mask
    (Bench.transport cfg blocks (b.set port init) port init.pwrite).map Bench.wait
  | .doread port data addr len wid =>
    let init := (b.inits port).doread data addr len wid
    (Bench.transport cfg blocks (b.set port init) port init.pread).map Bench.wait
  | .assign ptr bytes => .ok { b with host := (Patch.span ptr bytes).apply b.host }
  | .wait => .ok b.wait

/-- A run of a bench; a fault ends it. -/
def Bench.run (b : Bench N blocks) (ops : List (BenchOp N)) : Except Fault (Bench N blocks) :=
  ops.foldlM (Bench.step cfg blocks) b

end System

/-! ## Copies -/

/-- The memory of the bench, and the words that it has access to. -/
structure Copies where
  host : Host
  words : BitVec 64 → List (BitVec 8)

/-- What an operation copies. -/
def Copies.step (x : Copies) : BenchOp N → Copies
  | .dowrite _ data addr _ _ _ =>
    { x with words := (Patch.single (addr.setWidth 64) (Patch.load x.host data 4)).apply x.words }
  | .doread _ data addr _ _ =>
    { x with host := (Patch.span data (x.words (addr.setWidth 64))).apply x.host }
  | .assign ptr bytes => { x with host := (Patch.span ptr bytes).apply x.host }
  | .wait => x

def Copies.run (x : Copies) (ops : List (BenchOp N)) : Copies := ops.foldl Copies.step x

/-! ## Served operations -/

section System

variable (cfg : Fin M → InitiatorConfig) (blocks : Fin M → Block)

/-- The helper sends a word access that is served without a wait. -/
def BenchOp.Served : BenchOp N → Prop
  | .dowrite _ _ addr _ wid mask => addr.toNat % 4 = 0 ∧ wid = 4 ∧ mask = none ∧
      (Block.router M cfg blocks).serves .write (addr.setWidth 64) ∧
      (Block.router M cfg blocks).prompt (addr.setWidth 64)
  | .doread _ _ addr len _ => addr.toNat % 4 = 0 ∧ len = 4 ∧
      (Block.router M cfg blocks).serves .read (addr.setWidth 64) ∧
      (Block.router M cfg blocks).prompt (addr.setWidth 64)
  | _ => True

/-- The counter that an operation writes, and through which port. -/
def BenchOp.counts : BenchOp N → Option (Counter × Fin N)
  | .dowrite port _ addr _ _ _ => (counterAt cfg blocks .write (addr.setWidth 64)).map (·, port)
  | .doread port _ addr _ _ => (counterAt cfg blocks .read (addr.setWidth 64)).map (·, port)
  | _ => none

/-- Each counter is written through one port. -/
def OneWriter (ops : List (BenchOp N)) : Prop :=
  ∀ x ∈ ops.filterMap (·.counts cfg blocks), ∀ y ∈ ops.filterMap (·.counts cfg blocks),
    x.1 = y.1 → x.2 = y.2

/-- What is seen of the bench after some operations: no call is under way, the memories hold what `x`
says, as far as they can be read, and the counters have the writers that they have been given. -/
structure Bench.Shows (b : Bench N blocks) (x : Copies) (done : List (BenchOp N)) : Prop where
  quiet : (Block.router M cfg blocks).Quiet b.state
  host : b.host = x.host
  words : ∀ a, (Block.router M cfg blocks).serves .read a → a.toNat % 4 = 0 →
    (Block.router M cfg blocks).look b.state a = x.words a
  writers : ∀ counter port, b.writers counter = some port ↔
    (counter, port) ∈ done.filterMap (·.counts cfg blocks)

variable {cfg blocks}

/-- The thread gets what the router makes of its call. -/
theorem transport_eq {b : Bench N blocks} {trans : Payload}
    (hprompt : (Block.router M cfg blocks).prompt trans.address) (port : Fin N) :
    Bench.transport cfg blocks b port trans =
      match (Block.router M cfg blocks).bTransport b.state { trans := trans, host := b.host } with
      | .error fault => .error fault
      | .ok (s, c) =>
        if c.trans.responseStatus = .ok then
          Bench.count { b with host := c.host, state := s } port
            (counterAt cfg blocks trans.command trans.address)
        else .error (.report "TLM-2" c.trans.responseStatus.toText) := by
  rw [block_bTransport b.state port, Bench.transport, if_pos hprompt]
  cases TLMRouter.bTransport cfg (separately fun i => (blocks i).bTransport) b.state port
      { trans := trans, host := b.host } <;> rfl

/-- A call that is answered with OK is counted. -/
theorem transport_ok {b : Bench N blocks} {trans : Payload} {s : (i : Fin M) → (blocks i).State} {c : Call}
    (h : (Block.router M cfg blocks).bTransport b.state { trans := trans, host := b.host } = .ok (s, c))
    (hok : c.trans.responseStatus = .ok) (hprompt : (Block.router M cfg blocks).prompt trans.address)
    (port : Fin N) : Bench.transport cfg blocks b port trans =
      Bench.count { b with host := c.host, state := s } port
        (counterAt cfg blocks trans.command trans.address) := by
  simp only [transport_eq hprompt, h, if_pos hok]

/-- A counter that no other port has written. -/
theorem count_ok (b : Bench N blocks) (port : Fin N) (counter : Option Counter)
    (h : ∀ k ∈ counter, ∀ writer, b.writers k = some writer → writer = port) :
    ∃ writers, b.count port counter = .ok { b with writers := writers } ∧
      ∀ k p, writers k = some p ↔ b.writers k = some p ∨ (counter = some k ∧ p = port) := by
  cases counter with
  | none => exact ⟨b.writers, rfl, by simp⟩
  | some counter =>
    cases hwriter : b.writers counter with
    | none =>
      refine ⟨Function.update b.writers counter (some port), ?_, fun k p => ?_⟩
      · simp only [Bench.count, hwriter]
      · by_cases hk : k = counter
        · subst hk
          simp [hwriter, eq_comm]
        · simp [Function.update_of_ne hk, Ne.symm hk]
    | some writer =>
      obtain rfl := h counter rfl writer hwriter
      refine ⟨b.writers, ?_, fun k p => ?_⟩
      · simp only [Bench.count, hwriter, if_true]
      · refine ⟨.inl, ?_⟩
        rintro (h | ⟨hk, rfl⟩)
        · exact h
        · rw [← Option.some.inj hk]
          exact hwriter

/-- A counter that another port has written is reported. -/
theorem count_second (b : Bench N blocks) {port writer : Fin N} {counter : Counter}
    (h : b.writers counter = some writer) (hne : writer ≠ port) :
    b.count port (some counter) = .error moreThanOneDriver := by
  simp only [Bench.count, h, if_neg hne]

theorem aligned_setWidth {addr : BitVec 32} (h : addr.toNat % 4 = 0) :
    (addr.setWidth 64).toNat % 4 = 0 := by
  rwa [BitVec.toNat_setWidth_of_le (by decide)]

theorem wordAccess_pwrite (init : Initiator) (data : Nat) {addr : BitVec 32} (len : BitVec 32)
    (haddr : addr.toNat % 4 = 0) (host : Host) :
    Memory.WordAccess { trans := (init.dowrite data addr len 4 none).pwrite, host := host } :=
  ⟨Command.noConfusion, aligned_setWidth haddr, rfl, rfl, rfl⟩

theorem wordAccess_pread (init : Initiator) (data : Nat) {addr : BitVec 32} (wid : BitVec 32)
    (haddr : addr.toNat % 4 = 0) (host : Host) :
    Memory.WordAccess { trans := (init.doread data addr 4 wid).pread, host := host } :=
  ⟨Command.noConfusion, aligned_setWidth haddr, rfl, rfl, rfl⟩

theorem mem_counts_concat {done : List (BenchOp N)} {op : BenchOp N} {entry : Counter × Fin N} :
    entry ∈ (done ++ [op]).filterMap (·.counts cfg blocks) ↔
      entry ∈ done.filterMap (·.counts cfg blocks) ∨ op.counts cfg blocks = some entry := by
  rw [List.filterMap_append, List.mem_append]
  simp

/-- With one writer for each counter, the one that is known is the one that comes. -/
theorem OneWriter.writer {done : List (BenchOp N)} {op : BenchOp N}
    (h : OneWriter cfg blocks (done ++ [op])) {b : Bench N blocks} {x : Copies}
    (hb : b.Shows cfg blocks x done) {counter : Counter} {port writer : Fin N}
    (hcounts : op.counts cfg blocks = some (counter, port)) (hwriter : b.writers counter = some writer) :
    writer = port :=
  h _ (mem_counts_concat.mpr (.inl ((hb.writers counter writer).mp hwriter))) _
    (mem_counts_concat.mpr (.inr hcounts)) rfl

/-- A helper whose access has been answered: `b'` is the bench before the thread writes the counter. -/
structure Bench.Answered (cfg : Fin M → InitiatorConfig) (b : Bench N blocks) (x : Copies)
    (op : BenchOp N) (b' : Bench N blocks) (port : Fin N) (counter : Option Counter) : Prop where
  step : Bench.step cfg blocks b op = (b'.count port counter).map Bench.wait
  counts : op.counts cfg blocks = counter.map (·, port)
  writers : b'.writers = b.writers
  quiet : (Block.router M cfg blocks).Quiet b'.state
  host : b'.host = (x.step op).host
  words : ∀ a, (Block.router M cfg blocks).serves .read a → a.toNat % 4 = 0 →
    (Block.router M cfg blocks).look b'.state a = (x.step op).words a

theorem dowrite_answered (hlaw : (Block.router M cfg blocks).Lawful) {b : Bench N blocks} {x : Copies}
    {done : List (BenchOp N)} (h : b.Shows cfg blocks x done) {port : Fin N} {data : Nat}
    {addr len wid : BitVec 32} {mask : Option Nat}
    (hop : (BenchOp.dowrite port data addr len wid mask).Served cfg blocks) :
    ∃ b', b.Answered cfg x (.dowrite port data addr len wid mask) b' port
      (counterAt cfg blocks .write (addr.setWidth 64)) := by
  obtain ⟨haddr, rfl, rfl, hserves, hprompt⟩ := hop
  let init := (b.inits port).dowrite data addr len 4 none
  obtain ⟨s, c, hcall, hquiet, hok, hhost, hpatch⟩ := hlaw.write b.state _ h.quiet
    (wordAccess_pwrite (b.inits port) data len haddr b.host) rfl hserves
  have hanswer := transport_ok (b := b.set port init) hcall hok hprompt port
  refine ⟨{ b.set port init with host := c.host, state := s },
    congrArg (Except.map Bench.wait) hanswer, rfl, rfl, hquiet, hhost.trans h.host, fun a ha ha4 => ?_⟩
  show (Block.router M cfg blocks).look s a = _
  rw [hpatch a ha ha4, Copies.step, ← h.host]
  exact congrArg (Option.getD (Patch.single _ _ a)) (h.words a ha ha4)

theorem doread_answered (hlaw : (Block.router M cfg blocks).Lawful) {b : Bench N blocks} {x : Copies}
    {done : List (BenchOp N)} (h : b.Shows cfg blocks x done) {port : Fin N} {data : Nat}
    {addr len wid : BitVec 32} (hop : (BenchOp.doread port data addr len wid).Served cfg blocks) :
    ∃ b', b.Answered cfg x (.doread port data addr len wid) b' port
      (counterAt cfg blocks .read (addr.setWidth 64)) := by
  obtain ⟨haddr, rfl, hserves, hprompt⟩ := hop
  let init := (b.inits port).doread data addr 4 wid
  obtain ⟨s, c, hcall, hquiet, hok, hhost, hsame⟩ := hlaw.read b.state _ h.quiet
    (wordAccess_pread (b.inits port) data wid haddr b.host) rfl hserves
  have hanswer := transport_ok (b := b.set port init) hcall hok hprompt port
  refine ⟨{ b.set port init with host := c.host, state := s },
    congrArg (Except.map Bench.wait) hanswer, rfl, rfl, hquiet, ?_,
    fun a ha ha4 => (hsame a).trans (h.words a ha ha4)⟩
  show c.host = _
  rw [Copies.step, ← h.words _ hserves (aligned_setWidth haddr), ← h.host]
  exact hhost

/-- If no other port has written the counter, the helper comes back. -/
theorem Bench.Answered.shows (hlaw : (Block.router M cfg blocks).Lawful) {b b' : Bench N blocks}
    {x : Copies} {done : List (BenchOp N)} {op : BenchOp N} {port : Fin N} {counter : Option Counter}
    (ha : b.Answered cfg x op b' port counter) (h : b.Shows cfg blocks x done)
    (hone : OneWriter cfg blocks (done ++ [op])) :
    ∃ b'', Bench.step cfg blocks b op = .ok b'' ∧ b''.Shows cfg blocks (x.step op) (done ++ [op]) := by
  obtain ⟨writers, hcount, hentries⟩ := count_ok b' port counter fun k hk writer hwriter => by
    rw [ha.writers] at hwriter
    exact hone.writer h (by rw [ha.counts, hk, Option.map_some]) hwriter
  obtain ⟨hquiet, hlook⟩ := hlaw.tick b'.state ha.quiet
  have hstep : Bench.step cfg blocks b op = .ok (Bench.wait { b' with writers := writers }) := by
    rw [ha.step, hcount]
    rfl
  refine ⟨_, hstep, hquiet, ha.host, fun a hread ha4 => (hlook a).trans (ha.words a hread ha4),
    fun k p => ?_⟩
  have hkept : b'.writers k = some p ↔ (k, p) ∈ done.filterMap (·.counts cfg blocks) := by
    rw [ha.writers]
    exact h.writers k p
  have hnew : op.counts cfg blocks = some (k, p) ↔ counter = some k ∧ p = port := by
    rw [ha.counts]
    cases counter with
    | none => simp
    | some counter => simp [eq_comm]
  rw [mem_counts_concat, hnew, ← hkept]
  exact hentries k p

/-- If another port has written it, that is reported. -/
theorem Bench.Answered.second_writer {b b' : Bench N blocks} {x : Copies} {op : BenchOp N}
    {port port' writer : Fin N} {counter : Option Counter} {k : Counter}
    (ha : b.Answered cfg x op b' port counter) (hcounts : op.counts cfg blocks = some (k, port'))
    (hwriter : b.writers k = some writer) (hne : writer ≠ port') :
    Bench.step cfg blocks b op = .error moreThanOneDriver := by
  obtain ⟨k', rfl, heq⟩ := Option.map_eq_some_iff.mp (ha.counts.symm.trans hcounts)
  obtain ⟨rfl, rfl⟩ := Prod.mk.inj heq
  rw [ha.step, count_second b' (ha.writers ▸ hwriter) hne]
  rfl

/-- What a bench shows that calls no helper. -/
theorem shows_uncounted {b : Bench N blocks} {x : Copies} {done : List (BenchOp N)}
    (h : b.Shows cfg blocks x done) {op : BenchOp N} (hcounts : op.counts cfg blocks = none)
    (counter : Counter) (port : Fin N) : b.writers counter = some port ↔
      (counter, port) ∈ (done ++ [op]).filterMap (·.counts cfg blocks) := by
  rw [mem_counts_concat, hcounts, h.writers]
  simp

/-- **Step lemma**: an operation that is served copies what it should. -/
theorem bench_step (hlaw : (Block.router M cfg blocks).Lawful) {b : Bench N blocks} {x : Copies}
    {done : List (BenchOp N)} (h : b.Shows cfg blocks x done) {op : BenchOp N}
    (hop : op.Served cfg blocks) (hone : OneWriter cfg blocks (done ++ [op])) :
    ∃ b', Bench.step cfg blocks b op = .ok b' ∧ b'.Shows cfg blocks (x.step op) (done ++ [op]) := by
  cases op with
  | dowrite port data addr len wid mask =>
    obtain ⟨b', ha⟩ := dowrite_answered hlaw h hop
    exact ha.shows hlaw h hone
  | doread port data addr len wid =>
    obtain ⟨b', ha⟩ := doread_answered hlaw h hop
    exact ha.shows hlaw h hone
  | assign ptr bytes =>
    exact ⟨_, rfl, h.quiet, congrArg (Patch.span ptr bytes).apply h.host, h.words,
      shows_uncounted h rfl⟩
  | wait =>
    obtain ⟨hquiet, hlook⟩ := hlaw.tick b.state h.quiet
    exact ⟨_, rfl, hquiet, h.host, fun a ha ha4 => (hlook a).trans (h.words a ha ha4),
      shows_uncounted h rfl⟩

theorem OneWriter.of_append {ops ops' : List (BenchOp N)} (h : OneWriter cfg blocks (ops ++ ops')) :
    OneWriter cfg blocks ops := by
  rw [OneWriter, List.filterMap_append] at h
  exact fun x hx y hy => h x (List.mem_append_left _ hx) y (List.mem_append_left _ hy)

/-- **Run lemma**: operations that are served, with one writer for each counter, copy what they
should. -/
theorem bench_run (hlaw : (Block.router M cfg blocks).Lawful) {b : Bench N blocks} {x : Copies}
    {done : List (BenchOp N)} (h : b.Shows cfg blocks x done) {ops : List (BenchOp N)}
    (hops : ∀ op ∈ ops, op.Served cfg blocks) (hone : OneWriter cfg blocks (done ++ ops)) :
    ∃ b', Bench.run cfg blocks b ops = .ok b' ∧ b'.Shows cfg blocks (x.run ops) (done ++ ops) := by
  induction ops generalizing b x done with
  | nil => exact ⟨b, rfl, by rwa [List.append_nil]⟩
  | cons op ops ih =>
    rw [List.append_cons] at hone ⊢
    obtain ⟨b', hstep, h'⟩ := bench_step hlaw h (hops op (by simp)) hone.of_append
    obtain ⟨b'', hrun, h''⟩ := ih h' (fun op' hop' => hops op' (by simp [hop'])) hone
    refine ⟨b'', ?_, h''⟩
    rw [Bench.run, List.foldlM_cons, hstep]
    exact hrun

end System

/-! ## Operations that end the run -/

/-- A report of an error throws, as it does by default. -/
def Block.Throws : Block → Prop
  | .memory _ => True
  | .rom throws _ => throws = true
  | .wbram _ _ => True
  | .router _ _ blocks => ∀ i, (blocks i).Throws

/-- The helper sends a word access that is turned down. -/
def BenchOp.Refused (cfg : Fin M → InitiatorConfig) (blocks : Fin M → Block) : BenchOp N → Prop
  | .dowrite _ _ addr _ wid mask => addr.toNat % 4 = 0 ∧ wid = 4 ∧ mask = none ∧
      (Block.router M cfg blocks).refuses .write (addr.setWidth 64)
  | .doread _ _ addr len _ => addr.toNat % 4 = 0 ∧ len = 4 ∧
      (Block.router M cfg blocks).refuses .read (addr.setWidth 64)
  | _ => False

/-- The call faults with a report, or it is answered with an address error. -/
def Complains {σ : Type} (r : Except Fault (σ × Call)) : Prop :=
  (∃ msgType msg, r = .error (.report msgType msg)) ∨
    ∃ s c, r = .ok (s, c) ∧ c.trans.responseStatus = .addressError

/-- An access that is turned down complains, in whatever state. -/
theorem block_complains : ∀ {b : Block} {s : b.State} {c : Call}, b.Throws →
    b.refuses c.trans.command c.trans.address → Complains (b.bTransport s c)
  | .memory SIZE, m, c, _, h => by
    have hsize : Memory.wordOf c.trans.address > SIZE := of_decide_eq_true h
    refine .inr ⟨m, c.setResponseStatus .addressError, ?_, rfl⟩
    simp only [Block.bTransport, Memory.bTransport, Memory.toNat_div_four, if_pos hsize]
  | .rom _ tlmRom, _, c, rfl, h => by
    by_cases hout : (c.trans.address - tlmRom.baseaddr).toNat ≥ tlmRom.ROM.length
    · exact .inl ⟨_, _, romSocket_outside hout⟩
    · exact .inl ⟨_, _, romSocket_write hout ((of_decide_eq_true h).resolve_left hout)⟩
  | .wbram _ _, _, _, _, h => by cases h
  | .router _ cfg blocks, s, c, hthrows, h => by
    rw [block_bTransport s (0 : Fin 1)]
    rw [Block.refuses] at h
    split at h
    · next i masked hdec =>
      rw [bTransport_decoded hdec]
      rcases block_complains (b := blocks i) (s := s i)
        (c := { c with trans := { c.trans with address := masked } }) (hthrows i) h
        with ⟨msgType, msg, hfault⟩ | ⟨t, c', hcall, hstatus⟩
      · rw [hfault]
        exact .inl ⟨msgType, msg, rfl⟩
      · rw [hcall]
        exact .inr ⟨_, c', rfl, hstatus⟩
    · next fault hdec =>
      have hmapped : ¬ Mapped cfg c.trans.address := by
        intro hmapped
        obtain ⟨i, masked, hok⟩ := decodeAddress_of_mapped hmapped
        rw [hok] at hdec
        cases hdec
      rw [bTransport_undecoded (decodeAddress_of_not_mapped hmapped)]
      exact .inl ⟨_, _, rfl⟩

/-- What turns an access down does not wait. -/
theorem prompt_of_refuses : ∀ {b : Block} {command : Command} {a : BitVec 64},
    b.refuses command a → b.prompt a
  | .memory _, _, _, _ => rfl
  | .rom _ _, _, _, _ => rfl
  | .wbram _ _, _, _, h => by cases h
  | .router _ cfg blocks, command, a, h => by
    rw [Block.refuses] at h
    split at h
    · next i masked hdec =>
      simp only [Block.prompt, hdec]
      exact prompt_of_refuses h
    · next fault hdec => simp only [Block.prompt, hdec]

section System

variable {cfg : Fin M → InitiatorConfig} {blocks : Fin M → Block}

/-- What complains is reported by the thread. -/
theorem transport_complains (b : Bench N blocks) (trans : Payload)
    (hthrows : (Block.router M cfg blocks).Throws)
    (hrefuses : (Block.router M cfg blocks).refuses trans.command trans.address) (port : Fin N) :
    ∃ msgType msg, Bench.transport cfg blocks b port trans = .error (.report msgType msg) := by
  have hprompt := prompt_of_refuses hrefuses
  rcases block_complains (s := b.state) (c := { trans := trans, host := b.host }) hthrows hrefuses with
    ⟨msgType, msg, hfault⟩ | ⟨s, c, hcall, hstatus⟩
  · exact ⟨msgType, msg, by simp only [transport_eq hprompt, hfault]⟩
  · exact ⟨_, _, by simp only [transport_eq hprompt, hcall, hstatus, reduceCtorEq, if_false]; rfl⟩

/-- An operation that is turned down ends the run. -/
theorem step_refused (hthrows : (Block.router M cfg blocks).Throws) {op : BenchOp N}
    (hop : op.Refused cfg blocks) (b : Bench N blocks) :
    ∃ msgType msg, Bench.step cfg blocks b op = .error (.report msgType msg) := by
  cases op with
  | dowrite port data addr len wid mask =>
    obtain ⟨-, rfl, rfl, hrefuses⟩ := hop
    let init := (b.inits port).dowrite data addr len 4 none
    obtain ⟨msgType, msg, hfault⟩ :=
      transport_complains (b.set port init) init.pwrite hthrows hrefuses port
    exact ⟨msgType, msg, congrArg (Except.map Bench.wait) hfault⟩
  | doread port data addr len wid =>
    obtain ⟨-, rfl, hrefuses⟩ := hop
    let init := (b.inits port).doread data addr 4 wid
    obtain ⟨msgType, msg, hfault⟩ :=
      transport_complains (b.set port init) init.pread hthrows hrefuses port
    exact ⟨msgType, msg, congrArg (Except.map Bench.wait) hfault⟩
  | assign ptr bytes => exact hop.elim
  | wait => exact hop.elim

/-- A second writer has to be a new one. -/
theorem exists_writer {b : Bench N blocks} {x : Copies} {done : List (BenchOp N)} {op : BenchOp N}
    (h : b.Shows cfg blocks x done) (hdone : OneWriter cfg blocks done)
    (htwo : ¬ OneWriter cfg blocks (done ++ [op])) :
    ∃ counter port writer, op.counts cfg blocks = some (counter, port) ∧
      b.writers counter = some writer ∧ writer ≠ port := by
  by_contra hnone
  refine htwo fun x hx y hy hxy => ?_
  have hlast : ∀ {x y : Counter × Fin N}, x ∈ done.filterMap (·.counts cfg blocks) →
      op.counts cfg blocks = some y → x.1 = y.1 → x.2 = y.2 := by
    intro x y hx hy hxy
    by_contra hne
    exact hnone ⟨y.1, y.2, x.2, hy, hxy ▸ (h.writers x.1 x.2).mpr hx, hne⟩
  rcases mem_counts_concat.mp hx with hx | hx <;> rcases mem_counts_concat.mp hy with hy | hy
  · exact hdone x hx y hy hxy
  · exact hlast hx hy hxy
  · exact (hlast hy hx hxy.symm).symm
  · rw [Option.some.inj (hx.symm.trans hy)]

/-- A second writer of a counter ends the run. -/
theorem step_second_writer (hlaw : (Block.router M cfg blocks).Lawful) {b : Bench N blocks} {x : Copies}
    {done : List (BenchOp N)} (h : b.Shows cfg blocks x done) {op : BenchOp N}
    (hop : op.Served cfg blocks) {counter : Counter} {port writer : Fin N}
    (hcounts : op.counts cfg blocks = some (counter, port)) (hwriter : b.writers counter = some writer)
    (hne : writer ≠ port) : Bench.step cfg blocks b op = .error moreThanOneDriver := by
  cases op with
  | dowrite port' data addr len wid mask =>
    obtain ⟨b', ha⟩ := dowrite_answered hlaw h hop
    exact ha.second_writer hcounts hwriter hne
  | doread port' data addr len wid =>
    obtain ⟨b', ha⟩ := doread_answered hlaw h hop
    exact ha.second_writer hcounts hwriter hne
  | assign ptr bytes => cases hcounts
  | wait => cases hcounts

/-- **A bench is a program of copies.** Let a router keep the words apart that can be written, and so do the
routers behind it. A bench whose accesses are all served without a wait, and that writes no counter of a
memory through two ports, runs to its end, and leaves in its own memory, and at every address that can be
read, what copying the words one after the other leaves there. If an access follows that is turned down
where reports throw, or that is served and is the second writer of a counter, the run ends there with a
report, whatever would have come after it. -/
theorem bench_copies (hno : (Block.router M cfg blocks).NoAlias) (b₀ : Bench N blocks)
    (hquiet : (Block.router M cfg blocks).Quiet b₀.state) (hfresh : b₀.writers = fun _ => none)
    (ops : List (BenchOp N)) (hops : ∀ op ∈ ops, op.Served cfg blocks)
    (hone : OneWriter cfg blocks ops) :
    (∃ b, Bench.run cfg blocks b₀ ops = .ok b ∧ b.Shows cfg blocks
      (Copies.run ⟨b₀.host, (Block.router M cfg blocks).look b₀.state⟩ ops) ops) ∧
    ∀ op rest, ((Block.router M cfg blocks).Throws ∧ op.Refused cfg blocks) ∨
        (op.Served cfg blocks ∧ ¬ OneWriter cfg blocks (ops ++ [op])) →
      ∃ msgType msg, Bench.run cfg blocks b₀ (ops ++ op :: rest) = .error (.report msgType msg) := by
  have hlaw := Block.lawful hno
  have hstart : b₀.Shows cfg blocks ⟨b₀.host, (Block.router M cfg blocks).look b₀.state⟩ [] :=
    ⟨hquiet, rfl, fun _ _ _ => rfl, by simp [hfresh]⟩
  obtain ⟨b, hrun, hshows⟩ := bench_run hlaw hstart hops hone
  refine ⟨⟨b, hrun, hshows⟩, fun op rest hop => ?_⟩
  have hfault : ∃ msgType msg, Bench.step cfg blocks b op = .error (.report msgType msg) := by
    rcases hop with ⟨hthrows, hrefused⟩ | ⟨hserved, htwo⟩
    · exact step_refused hthrows hrefused b
    · obtain ⟨counter, port, writer, hcounts, hwriter, hne⟩ := exists_writer hshows hone htwo
      exact ⟨_, _, step_second_writer hlaw hshows hserved hcounts hwriter hne⟩
  obtain ⟨msgType, msg, hstep⟩ := hfault
  refine ⟨msgType, msg, ?_⟩
  rw [Bench.run] at hrun
  rw [Bench.run, List.foldlM_append, hrun]
  show (List.foldlM (Bench.step cfg blocks) b (op :: rest) : Except Fault _) = _
  rw [List.foldlM_cons, hstep]
  rfl

end System

/-- Two initiators in front of two routers. -/
def outerBench : Bench 2 outerBlocks := ⟨fun _ => ⟨0, 0, 0, none⟩, fun _ => 0, outerInit, fun _ => none⟩

/-- One of them writes a word to the memory behind both routers, the other one reads it back to another
place; then it writes to the same memory. -/
theorem bench_copies_two_initiators :
    let ops : List (BenchOp 2) :=
      [.assign 0 [1, 2, 3, 4], .dowrite 0 0 0x1004 8 4 none, .assign 0 [5, 6, 7, 8], .wait,
        .doread 1 8 0x1004 4 4]
    (∃ b, Bench.run outerWindows outerBlocks outerBench ops = .ok b ∧
      Patch.load b.host 0 12 = [5, 6, 7, 8, 0, 0, 0, 0, 1, 2, 3, 4]) ∧
    ∃ msgType msg, Bench.run outerWindows outerBlocks outerBench
      (ops ++ [.dowrite 1 8 0x1000 4 4 none, .wait]) = .error (.report msgType msg) := by
  intro ops
  have hops : ∀ op ∈ ops, op.Served outerWindows outerBlocks := by
    simp only [ops, List.mem_cons, List.not_mem_nil, or_false, forall_eq_or_imp, forall_eq]
    exact ⟨trivial, ⟨rfl, rfl, rfl, rfl, rfl⟩, trivial, trivial, rfl, rfl, rfl, rfl⟩
  have hone : OneWriter outerWindows outerBlocks ops := by
    unfold OneWriter
    decide
  obtain ⟨⟨b, hrun, hshows⟩, hreported⟩ :=
    bench_copies noAlias_outer outerBench quiet_outerInit rfl ops hops hone
  refine ⟨⟨b, hrun, ?_⟩, hreported _ _ (.inr ⟨⟨rfl, rfl, rfl, rfl, rfl⟩, ?_⟩)⟩
  · rw [hshows.host]
    decide
  · unfold OneWriter
    decide

end DeltaModels.Tlm
