import DeltaModels.Wishbone.Wbram

/-!
# A `WBRAM` at the edges of its clock

`handleop` runs at every rising edge, until a report ends the simulation. `edge` is one of these runs,
`edge_cases` says what it can do, and nothing after this file unfolds `handleop` again.

`handleop` asks nothing of the master, which may raise and withdraw its strobe at any edge. It looks at a
request at every other edge that shows one, whether the request before was withdrawn in between or not:
`n_tran` is the parity of the number of these edges.
-/

namespace DeltaModels.Wishbone

/-- The edge shows a request. -/
def Master.strobed (m : Master 32) : Bool := m.cycO && m.stbO

/-- The memory, and the report that has ended the simulation, if one has. -/
structure ClockedRam where
  ram : Wbram
  fault : Option Fault

namespace ClockedRam

variable (unset : BitVec 32)

/-- A constructed memory. -/
def init (memSize : BitVec 32) : ClockedRam := ⟨Wbram.init memSize, none⟩

/-- One rising edge of the clock. Up to the report, `handleop` has written `ack_o` only. -/
def edge (s : ClockedRam) (m : Master 32) : ClockedRam :=
  if s.fault.isSome then s
  else match s.ram.handleop unset m with
    | .ok (ram, _) => { s with ram := ram }
    | .error fault => ⟨{ s.ram with ackO := false }, some fault⟩

/-- The edge takes a request, rather than waiting for the last one to go away. -/
structure Takes (s : ClockedRam) (m : Master 32) : Prop where
  running : s.fault = none
  cyc : m.cycO = true
  stb : m.stbO = true
  nTran : s.ram.nTran = false

/-! ## The five kinds of edges -/

variable {unset} {s : ClockedRam} {m : Master 32}

theorem takes_of_strobed (hrun : s.fault = none) (h : m.strobed = true) (hn : s.ram.nTran = false) :
    s.Takes m := by
  rw [Master.strobed, Bool.and_eq_true] at h
  exact ⟨hrun, h.1, h.2, hn⟩

theorem Takes.strobed (h : s.Takes m) : m.strobed = true := by
  rw [Master.strobed, h.cyc, h.stb]
  rfl

theorem edge_halted (h : s.fault.isSome) : s.edge unset m = s := by
  rw [edge, if_pos h]

theorem edge_eq (hrun : s.fault = none) {ram : Wbram} {op : Option Op}
    (h : s.ram.handleop unset m = .ok (ram, op)) : s.edge unset m = ⟨ram, none⟩ := by
  simp only [edge, hrun, Option.isSome_none, Bool.false_eq_true, if_false, h]

theorem edge_idle (hrun : s.fault = none) (h : m.strobed = false) :
    s.edge unset m = ⟨{ s.ram with ackO := false }, none⟩ := by
  refine @edge_eq _ _ _ hrun _ none ?_
  rw [Master.strobed] at h
  simp only [Wbram.handleop, h, Bool.false_eq_true, if_false]

theorem edge_release (hrun : s.fault = none) (h : m.strobed = true) (hn : s.ram.nTran = true) :
    s.edge unset m = ⟨{ s.ram with ackO := false, nTran := false }, none⟩ := by
  rw [Master.strobed, Bool.and_eq_true] at h
  exact edge_eq hrun (Wbram.handleop_release h.1 h.2 hn)

theorem edge_refuse (h : s.Takes m) (hadr : m.adrO > s.ram.memSize) :
    s.edge unset m = ⟨{ s.ram with ackO := false }, some Wbram.outOfBound⟩ := by
  simp only [edge, h.running, Option.isSome_none, Bool.false_eq_true, if_false,
    Wbram.handleop_refuse unset h.cyc h.stb h.nTran hadr]

/-- The edge serves a request: it is acknowledged, and its key may be new. -/
structure Serves (unset : BitVec 32) (s : ClockedRam) (m : Master 32) : Prop where
  fault : (s.edge unset m).fault = none
  nTran : (s.edge unset m).ram.nTran = true
  ack : (s.edge unset m).ram.ackO = true
  size : (s.edge unset m).ram.memSize = s.ram.memSize
  keys : ∀ k ∈ (s.edge unset m).ram.memory, k ∈ s.ram.memory ∨ k = m.adrO

/-- A request up to `mem_size`, that address included, is served. -/
theorem edge_accept (h : s.Takes m) (hadr : ¬ m.adrO > s.ram.memSize) : Serves unset s m := by
  cases hw : m.weO with
  | true =>
    have hedge := edge_eq h.running (Wbram.handleop_write unset h.cyc h.stb h.nTran hw hadr)
    refine ⟨?_, ?_, ?_, ?_, ?_⟩ <;> rw [hedge]
    intro k hk
    rw [Std.ExtTreeMap.mem_insert, Std.compare_eq_iff_eq] at hk
    exact hk.symm.imp_right Eq.symm
  | false =>
    have hedge := edge_eq h.running (Wbram.handleop_read unset h.cyc h.stb h.nTran hw hadr)
    refine ⟨?_, ?_, ?_, ?_, ?_⟩ <;> rw [hedge]
    exact fun k hk => .inl hk

/-- **What an edge can do**: nothing after a report, nothing without a request, wait for the request
before to go away, report, or serve. -/
theorem edge_cases (unset : BitVec 32) (s : ClockedRam) (m : Master 32) :
    (s.fault.isSome ∧ s.edge unset m = s) ∨
    (s.fault = none ∧ m.strobed = false ∧ s.edge unset m = ⟨{ s.ram with ackO := false }, none⟩) ∨
    (s.fault = none ∧ m.strobed = true ∧ s.ram.nTran = true ∧
      s.edge unset m = ⟨{ s.ram with ackO := false, nTran := false }, none⟩) ∨
    (s.Takes m ∧ m.adrO > s.ram.memSize ∧
      s.edge unset m = ⟨{ s.ram with ackO := false }, some Wbram.outOfBound⟩) ∨
    (s.Takes m ∧ ¬ m.adrO > s.ram.memSize ∧ Serves unset s m) := by
  cases hrun : s.fault with
  | some fault => exact .inl ⟨rfl, edge_halted (by rw [hrun]; rfl)⟩
  | none =>
    cases hstrobed : m.strobed with
    | false => exact .inr (.inl ⟨rfl, rfl, edge_idle hrun hstrobed⟩)
    | true =>
      cases hn : s.ram.nTran with
      | true => exact .inr (.inr (.inl ⟨rfl, rfl, rfl, edge_release hrun hstrobed hn⟩))
      | false =>
        have htakes := takes_of_strobed hrun hstrobed hn
        by_cases hadr : m.adrO > s.ram.memSize
        · exact .inr (.inr (.inr (.inl ⟨htakes, hadr, edge_refuse htakes hadr⟩)))
        · exact .inr (.inr (.inr (.inr ⟨htakes, hadr, edge_accept htakes hadr⟩)))

theorem edge_memSize (s : ClockedRam) (m : Master 32) :
    (s.edge unset m).ram.memSize = s.ram.memSize := by
  obtain ⟨-, h⟩ | ⟨-, -, h⟩ | ⟨-, -, -, h⟩ | ⟨-, -, h⟩ | ⟨-, -, h⟩ := edge_cases unset s m
  · rw [h]
  · rw [h]
  · rw [h]
  · rw [h]
  · exact h.size

end ClockedRam

end DeltaModels.Wishbone
