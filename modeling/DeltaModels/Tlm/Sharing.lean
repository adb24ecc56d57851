import DeltaModels.Library.Guarded
import DeltaModels.Tlm.Tlm2wb
import Mathlib.Data.Fintype.Card

/-!
# Two callers of one `TLM2WB`

All context of a call (`state`, `adr`, `ptr`, `len`, `byt`, `wid`) lives in members of the adapter, and
all callers wait for the one `ack_event`. Processes switch only where they wait, so a run of two
callers is a list of events: a caller starts its call, an edge comes, a notified caller resumes.

What the callers are promised is `Delivered`: the acknowledged requests and the memory are those of
some serial execution (`Serial`), and a call that has had its time has returned with OK. The slave is
asked to acknowledge every request before the timeout (`Shared.InTime`). `Orderly` is the invariant of
runs in which a call starts only when no other one is under way; under such a slave they go on to their
end (`Orderly.isSome_run_iff`) and keep the promise (`Orderly.delivered`).
-/

namespace DeltaModels.Tlm

open Wishbone

variable {AWIDTH : Nat}

/-- Where a caller stands. -/
inductive Thread where
  | outside
  | waiting
  | runnable
  | returned (answer : Payload)
  deriving DecidableEq, Repr

/-- The adapter, the memory of the two callers, where they stand, and the requests acknowledged on the
bus so far, each with the word that came back. -/
structure Shared (AWIDTH : Nat) where
  adapter : Tlm2wb AWIDTH
  host : Host
  thread : Bool → Thread
  acked : List (Request AWIDTH × BitVec 32)

inductive SharedEvent where
  | call (i : Bool)
  | edge (i : Slave)
  | resume (i : Bool)
  deriving DecidableEq, Repr

/-- `ack_event.notify()`: whoever waits becomes runnable. -/
def wake (thread : Bool → Thread) : Bool → Thread := fun i =>
  if thread i = .waiting then .runnable else thread i

/-- The requests that an edge acknowledges on the bus. -/
def ackedAt (out : Master AWIDTH) (i : Slave) : List (Request AWIDTH × BitVec 32) :=
  if out.stbO ∧ out.cycO ∧ i.ackI then [(out.request, i.datI)] else []

/-- The kernel lets the event happen: a caller calls once, no edge comes while a caller is runnable, and
only a notified caller resumes. -/
def Shared.Enabled (s : Shared AWIDTH) : SharedEvent → Prop
  | .call i => s.thread i = .outside
  | .edge _ => ∀ i, s.thread i ≠ .runnable
  | .resume i => s.thread i = .runnable

/-- One event, if it can happen. An edge that ends in a report has no successor: the report ends the
simulation. -/
def Shared.step (calls : Bool → Payload) (s : Shared AWIDTH) : SharedEvent → Option (Shared AWIDTH)
  | .call i =>
    if s.thread i = .outside then
      match s.adapter.enter (calls i) with
      | .error _ => none
      | .ok a => some { s with adapter := a, thread := Function.update s.thread i .waiting }
    else none
  | .edge i =>
    if s.thread false = .runnable ∨ s.thread true = .runnable then none
    else
      let r := wishboneHandler s.adapter i s.host
      match r.report with
      | some _ => none
      | none => some {
          adapter := r.adapter
          host := r.host
          thread := if r.notified then wake s.thread else s.thread
          acked := s.acked ++ ackedAt s.adapter.out i }
  | .resume i =>
    if s.thread i = .runnable then
      match s.adapter.resume (calls i) with
      | (a, some answer) =>
        some { s with adapter := a, thread := Function.update s.thread i (.returned answer) }
      | (a, none) => some { s with adapter := a, thread := Function.update s.thread i .waiting }
    else none

/-- The two callers as a machine whose events may be refused. The state keeps the record, and nothing
is logged. -/
def sharing (AWIDTH : Nat) (calls : Bool → Payload) : Guarded SharedEvent (Shared AWIDTH) Empty where
  step s e := (s.step calls e).map (·, none)

/-- A run, if all of its events can happen and none of them ends in a report. -/
def Shared.run (calls : Bool → Payload) (s : Shared AWIDTH) (es : List SharedEvent) :
    Option (Shared AWIDTH) := ((sharing AWIDTH calls).run s es).map Prod.fst

/-! ## What is asked of the run -/

/-- The acknowledge signal at the edges of a list of events. -/
def Shared.acks (es : List SharedEvent) : List Bool :=
  es.filterMap fun
    | .edge i => some i.ackI
    | .call _ | .resume _ => none

/-- A request that the event raises is acknowledged in the time that is left to it. -/
def Shared.Promises (calls : Bool → Payload) (s : Shared AWIDTH) (e : SharedEvent)
    (es : List SharedEvent) : Prop :=
  match s.step calls e with
  | some s' => issued s.adapter.out s'.adapter.out ≠ [] →
      AnsweredWithin (s.adapter.timeout.toNat - 1) (Shared.acks es)
  | none => True

/-- The caller has no call under way. -/
def Thread.Done : Thread → Prop
  | .outside | .returned _ => True
  | .waiting | .runnable => False

/-- A call starts only when the other one is not under way. -/
def Alone (s : Shared AWIDTH) : SharedEvent → Prop
  | .call i => ∀ j, j ≠ i → (s.thread j).Done
  | .edge _ | .resume _ => True

/-- The events come as the kernel lets them happen. -/
def Scheduled (calls : Bool → Payload) (s : Shared AWIDTH) (es : List SharedEvent) : Prop :=
  (sharing AWIDTH calls).Along (fun s e _ => s.Enabled e) s es

/-- The slave acknowledges every request before the edge that would report it. -/
def Shared.InTime (calls : Bool → Payload) (s : Shared AWIDTH) (es : List SharedEvent) : Prop :=
  (sharing AWIDTH calls).Along (Shared.Promises calls) s es

/-- No two calls of the run overlap. -/
def Sequential (calls : Bool → Payload) (s : Shared AWIDTH) (es : List SharedEvent) : Prop :=
  (sharing AWIDTH calls).Along (fun s e _ => Alone s e) s es

instance Shared.Enabled.decide (s : Shared AWIDTH) (e : SharedEvent) : Decidable (s.Enabled e) :=
  match e with
  | .call i => inferInstanceAs (Decidable (s.thread i = .outside))
  | .edge _ => inferInstanceAs (Decidable (∀ i, s.thread i ≠ .runnable))
  | .resume i => inferInstanceAs (Decidable (s.thread i = .runnable))

instance Shared.Promises.decide (calls : Bool → Payload) (s : Shared AWIDTH) (e : SharedEvent)
    (es : List SharedEvent) : Decidable (s.Promises calls e es) :=
  match h : s.step calls e with
  | none => isTrue (by simp [Shared.Promises, h])
  | some s' =>
    decidable_of_iff (issued s.adapter.out s'.adapter.out ≠ [] →
      AnsweredWithin (s.adapter.timeout.toNat - 1) (Shared.acks es)) (by simp [Shared.Promises, h])

instance (t : Thread) : Decidable t.Done :=
  match t with
  | .outside | .returned _ => isTrue trivial
  | .waiting | .runnable => isFalse id

instance (s : Shared AWIDTH) (e : SharedEvent) : Decidable (Alone s e) :=
  match e with
  | .call i => inferInstanceAs (Decidable (∀ j, j ≠ i → (s.thread j).Done))
  | .edge _ | .resume _ => isTrue trivial

instance Scheduled.decide (calls : Bool → Payload) (s : Shared AWIDTH) (es : List SharedEvent) :
    Decidable (Scheduled calls s es) :=
  inferInstanceAs (Decidable ((sharing AWIDTH calls).Along _ s es))

instance Shared.InTime.decide (calls : Bool → Payload) (s : Shared AWIDTH) (es : List SharedEvent) :
    Decidable (s.InTime calls es) :=
  inferInstanceAs (Decidable ((sharing AWIDTH calls).Along _ s es))

instance Sequential.decide (calls : Bool → Payload) (s : Shared AWIDTH) (es : List SharedEvent) :
    Decidable (Sequential calls s es) :=
  inferInstanceAs (Decidable ((sharing AWIDTH calls).Along _ s es))

/-! ## What the callers are promised -/

/-- The request of a call on its own. -/
structure OwnRequest (trans : Payload) (host : Host) (r : Request AWIDTH) : Prop where
  adr : r.adrO = (trans.address >>> 2).setWidth AWIDTH
  we : r.weO = decide (trans.command = .write)
  dat : trans.command = .write → r.datO = datOut host trans.dataPtr
  sel : trans.command = .write → r.selO = selOut host trans.byteEnablePtr

/-- The memory after a call on its own, if `d` came back for its request. -/
def ownResult (trans : Payload) (host : Host) (d : BitVec 32) : Host :=
  if trans.command = .write then host else storeWord host trans.dataPtr d

/-- The acknowledged requests and the memory of the calls in `order`, executed one after the other and
each at most once. -/
inductive Serial (calls : Bool → Payload) (host₀ : Host) :
    List Bool → List (Request AWIDTH × BitVec 32) → Host → Prop
  | nil : Serial calls host₀ [] [] host₀
  | snoc {order acked host i r d} : Serial calls host₀ order acked host → i ∉ order →
      OwnRequest (calls i) host r →
      Serial calls host₀ (order ++ [i]) (acked ++ [(r, d)]) (ownResult (calls i) host d)

/-- What the callers are promised of a run from `s₀` to `s`. The bus and the memory show the calls of a
serial execution, and a call that has returned is one of them and was answered with OK. A call returns
before the edges that a request can take are over: one that issues it and then those up to the timeout. -/
structure Delivered (calls : Bool → Payload) (s₀ : Shared AWIDTH) (es : List SharedEvent)
    (s : Shared AWIDTH) : Prop where
  serial : ∃ order, Serial calls s₀.host order s.acked s.host ∧
    ∀ i answer, s.thread i = .returned answer →
      i ∈ order ∧ answer = { calls i with responseStatus := .ok }
  returns : ∀ pre i post, es = pre ++ .call i :: post →
    s₀.adapter.timeout.toNat + 1 < (Shared.acks post).length → ∃ answer, s.thread i = .returned answer

/-- The run goes on to its end, without a report, and gives what was promised. -/
def Kept (calls : Bool → Payload) (s₀ : Shared AWIDTH) (es : List SharedEvent) : Prop :=
  ∃ s, Shared.run calls s₀ es = some s ∧ Delivered calls s₀ es s

/-- Nothing more happens by itself: nobody is runnable and no request is under way. -/
def Quiescent (s : Shared AWIDTH) : Prop :=
  s.adapter.state = .idle ∧ ∀ i, s.thread i ≠ .runnable

/-- Both calls were made, and the run is over. -/
structure Settled (s : Shared AWIDTH) : Prop where
  quiescent : Quiescent s
  called : ∀ i, s.thread i ≠ .outside

/-- A call of one word. -/
structure OneWord (trans : Payload) : Prop where
  command : trans.command ≠ .ignore
  dataLength : trans.dataLength = 4
  streamingWidth : trans.streamingWidth = 4

/-- Before the first call. -/
structure Shared.Fresh (s : Shared AWIDTH) : Prop where
  state : s.adapter.state = .idle
  stb : s.adapter.out.stbO = false
  thread : ∀ i, s.thread i = .outside
  acked : s.acked = []

/-! ## Serial executions are short -/

variable {calls : Bool → Payload} {host₀ host : Host} {order : List Bool}
  {acked : List (Request AWIDTH × BitVec 32)}

theorem Serial.length_eq (h : Serial calls host₀ order acked host) : acked.length = order.length := by
  induction h with
  | nil => rfl
  | snoc _ _ _ ih => simp [ih]

theorem Serial.nodup (h : Serial calls host₀ order acked host) : order.Nodup := by
  induction h with
  | nil => exact List.nodup_nil
  | snoc _ hnew _ ih =>
    refine List.nodup_append.mpr ⟨ih, List.nodup_singleton _, fun a ha b hb hab => hnew ?_⟩
    rwa [← List.mem_singleton.mp hb, ← hab]

/-- At most one request for each of the two calls. -/
theorem Serial.length_le_two (h : Serial calls host₀ order acked host) : acked.length ≤ 2 := by
  rw [h.length_eq]
  exact h.nodup.length_le_card

/-! ## What one event does -/

variable {s s' : Shared AWIDTH} {es : List SharedEvent}

/-- What a call does, when it can start. -/
theorem step_call {i : Bool} (hcall : OneWord (calls i)) (hs : s.step calls (.call i) = some s') :
    s.thread i = .outside ∧ s' = { s with
      adapter := s.adapter.load (calls i)
      thread := Function.update s.thread i .waiting } := by
  simp only [Shared.step, Tlm2wb.enter_ok _ hcall.command] at hs
  split at hs
  · next hout => exact ⟨hout, (Option.some.inj hs).symm⟩
  · cases hs

theorem step_call_ok {i : Bool} (hcall : OneWord (calls i)) (hout : s.thread i = .outside) :
    s.step calls (.call i) = some { s with
      adapter := s.adapter.load (calls i)
      thread := Function.update s.thread i .waiting } := by
  simp only [Shared.step, Tlm2wb.enter_ok _ hcall.command, if_pos hout]

/-- What an edge does, when it can come. -/
theorem step_edge {i : Slave} (hs : s.step calls (.edge i) = some s') :
    (∀ k, s.thread k ≠ .runnable) ∧ (wishboneHandler s.adapter i s.host).report = none ∧
      s' = {
        adapter := (wishboneHandler s.adapter i s.host).adapter
        host := (wishboneHandler s.adapter i s.host).host
        thread := if (wishboneHandler s.adapter i s.host).notified then wake s.thread else s.thread
        acked := s.acked ++ ackedAt s.adapter.out i } := by
  simp only [Shared.step] at hs
  split at hs
  · cases hs
  · next hrun =>
    split at hs
    · cases hs
    · next hreport =>
      refine ⟨fun k hk => hrun ?_, hreport, (Option.some.inj hs).symm⟩
      cases k
      · exact .inl hk
      · exact .inr hk

theorem step_edge_ok (calls : Bool → Payload) {i : Slave} (henabled : s.Enabled (.edge i))
    (hreport : (wishboneHandler s.adapter i s.host).report = none) : s.step calls (.edge i) = some {
      adapter := (wishboneHandler s.adapter i s.host).adapter
      host := (wishboneHandler s.adapter i s.host).host
      thread := if (wishboneHandler s.adapter i s.host).notified then wake s.thread else s.thread
      acked := s.acked ++ ackedAt s.adapter.out i } := by
  have hrun : ¬ (s.thread false = .runnable ∨ s.thread true = .runnable) := by
    rintro (hfalse | htrue)
    · exact henabled false hfalse
    · exact henabled true htrue
  simp only [Shared.step, if_neg hrun, hreport]

theorem wake_of_done {thread : Bool → Thread} {i : Bool} (h : (thread i).Done) :
    wake thread i = thread i := by
  unfold wake
  split
  · next hw => rw [hw] at h; exact h.elim
  · rfl

theorem wake_of_waiting {thread : Bool → Thread} {i : Bool} (h : thread i = .waiting) :
    wake thread i = .runnable := if_pos h

theorem ackedAt_of_stb {out : Master AWIDTH} (h : out.stbO = false) (i : Slave) :
    ackedAt out i = [] := by
  simp [ackedAt, h]

/-- What a resumed caller does. -/
theorem step_resume {i : Bool} (hs : s.step calls (.resume i) = some s') :
    s.thread i = .runnable ∧ s' = { s with
      adapter := (s.adapter.resume (calls i)).1
      thread := Function.update s.thread i
        (match (s.adapter.resume (calls i)).2 with
        | some answer => .returned answer
        | none => .waiting) } := by
  simp only [Shared.step] at hs
  split at hs
  · next hrun =>
    refine ⟨hrun, ?_⟩
    cases hres : s.adapter.resume (calls i) with
    | mk a answer =>
      rw [hres] at hs
      cases answer <;> exact (Option.some.inj hs).symm
  · cases hs

theorem step_resume_ok (calls : Bool → Payload) {i : Bool} (hrun : s.thread i = .runnable) :
    s.step calls (.resume i) = some { s with
      adapter := (s.adapter.resume (calls i)).1
      thread := Function.update s.thread i
        (match (s.adapter.resume (calls i)).2 with
        | some answer => .returned answer
        | none => .waiting) } := by
  simp only [Shared.step, if_pos hrun]
  rcases s.adapter.resume (calls i) with ⟨a, _ | answer⟩ <;> rfl

theorem OneWord.wid_load {trans : Payload} (h : OneWord trans) (a : Tlm2wb AWIDTH) :
    (a.load trans).wid = (a.load trans).len :=
  a.wid_load (.inl (h.streamingWidth.trans h.dataLength.symm))

theorem sharing_step {e : SharedEvent} {o : Option Empty} :
    (sharing AWIDTH calls).step s e = some (s', o) ↔ s.step calls e = some s' := by
  obtain rfl : o = none := by cases o with
    | none => rfl
    | some x => exact x.elim
  simp [sharing]

theorem run_eq_some : Shared.run calls s es = some s' ↔
    ∃ log, (sharing AWIDTH calls).run s es = some (s', log) := by
  simp [Shared.run]

end DeltaModels.Tlm
