import DeltaModels.Tlm.WordMemory

/-!
# Streaming into a `WBRAM`

A call whose streaming width is `4 * n` makes `n` requests, one every three edges, and the memory is
at rest again whenever the next one goes out. So `AtBeat`, which says where such a call stands, is
the invariant of its loop: three edges of the common clock lead from one beat to the next
(`AtBeat.next`) or to the return of the call (`AtBeat.last`).

`adr` is a word address, but it goes up by the four bytes of a beat. What is streamed therefore lies
in every fourth word of the memory (`beatWord`), and a call of the same shape finds it there.
-/

namespace DeltaModels.Tlm

open Wishbone

/-- How many beats a call makes; a streaming width of 0 stands for the length. -/
def beatsOf (c : Call) : Nat :=
  if c.trans.streamingWidth = 0 then 1 else c.trans.streamingWidth.toNat / 4

/-- A read or write of some words, one word in a beat, with all its beats inside the memory. -/
structure StreamCall (memSize : BitVec 32) (c : Call) : Prop where
  command : c.trans.command ≠ .ignore
  dataLength : c.trans.dataLength = 4
  streamingWidth : c.trans.streamingWidth.toNat % 4 = 0
  inside : (c.trans.address >>> 2).toNat + 4 * (beatsOf c - 1) < memSize.toNat

/-! ## The beats of a call -/

/-- The word of beat `k`. -/
def beatWord (c : Call) (k : Nat) : BitVec 32 := wordOf c + BitVec.ofNat 32 (4 * k)

/-- The operation of beat `k`. -/
def beatOp (c : Call) (k : Nat) : Op := ⟨decide (c.trans.command = .write), beatWord c k⟩

/-- What beat `k` writes, as a patch of the abstract memory. -/
def beatPatch (c : Call) (k : Nat) : Patch (BitVec 32 × Fin 4) (BitVec 8) := fun (w, j) =>
  if c.trans.command = .write ∧ w = beatWord c k ∧ byteEnabled c.host c.trans.byteEnablePtr (4 * k + j)
  then some (c.host (c.trans.dataPtr + (4 * k + j))) else none

/-- What a call writes, beat after beat. -/
def streamPatches (c : Call) : List (Patch (BitVec 32 × Fin 4) (BitVec 8)) :=
  (List.range (beatsOf c)).map (beatPatch c)

/-- The bytes of a word in the order of a buffer. -/
def wordBytes (img : BitVec 32 × Fin 4 → BitVec 8) (w : BitVec 32) : List (BitVec 8) :=
  List.ofFn fun j => img (w, j)

@[simp] theorem length_wordBytes (img : BitVec 32 × Fin 4 → BitVec 8) (w : BitVec 32) :
    (wordBytes img w).length = 4 := by
  simp [wordBytes]

/-- The bytes that a call reads. -/
def streamBytes (img : BitVec 32 × Fin 4 → BitVec 8) (c : Call) : List (BitVec 8) :=
  (List.range (beatsOf c)).flatMap fun k => wordBytes img (beatWord c k)

theorem beatPatch_of_read {c : Call} (h : c.trans.command ≠ .write) (k : Nat) :
    beatPatch c k = Patch.empty := by
  funext ⟨w, j⟩
  simp only [beatPatch, h, false_and, if_false, Patch.empty]

/-- Beat `k` takes the enable bytes that lie `4 * k` behind the pointer. -/
theorem byteEnabled_beat (host : Host) (byt : Option Nat) (k : Nat) (j : Nat) :
    byteEnabled host (byt.map (· + 4 * k)) j = byteEnabled host byt (4 * k + j) := by
  cases byt with
  | none => rfl
  | some b => simp only [byteEnabled, Option.map_some, Nat.add_assoc]

section Bounds

variable {memSize : BitVec 32} {c : Call}

theorem StreamCall.beats_pos (hc : StreamCall memSize c) : 0 < beatsOf c := by
  have hwid := hc.streamingWidth
  unfold beatsOf
  split
  · exact Nat.one_pos
  · next hne =>
    have hpos : c.trans.streamingWidth.toNat ≠ 0 :=
      fun h => hne (BitVec.eq_of_toNat_eq h)
    omega

/-- The words of the beats do not wrap around. -/
theorem StreamCall.toNat_beatWord (hc : StreamCall memSize c) {k : Nat} (hk : k < beatsOf c) :
    (beatWord c k).toNat = (c.trans.address >>> 2).toNat + 4 * k := by
  have hin := hc.inside
  have hsize := memSize.isLt
  rw [beatWord, wordOf, BitVec.toNat_add, BitVec.toNat_setWidth, BitVec.toNat_ofNat]
  omega

theorem StreamCall.not_beatWord_gt (hc : StreamCall memSize c) {k : Nat} (hk : k < beatsOf c) :
    ¬ beatWord c k > memSize := by
  have hin := hc.inside
  have hword := hc.toNat_beatWord hk
  intro hgt
  have hlt := BitVec.lt_def.mp hgt
  omega

/-- Different beats of a call go to different words. -/
theorem StreamCall.beatWord_inj (hc : StreamCall memSize c) {k l : Nat} (hk : k < beatsOf c)
    (hl : l < beatsOf c) (h : beatWord c k = beatWord c l) : k = l := by
  have hnat := congrArg BitVec.toNat h
  rw [hc.toNat_beatWord hk, hc.toNat_beatWord hl] at hnat
  omega

/-- The streaming width counts the bytes of all the beats. -/
theorem StreamCall.wid_load (hc : StreamCall memSize c) (a : Tlm2wb 32) :
    (a.load c.trans).wid = BitVec.ofNat 32 (4 * beatsOf c) := by
  have hwid := hc.streamingWidth
  simp only [Tlm2wb.load, beatsOf]
  split
  · rw [hc.dataLength]
    rfl
  · have hall : 4 * (c.trans.streamingWidth.toNat / 4) = c.trans.streamingWidth.toNat := by omega
    rw [hall, BitVec.ofNat_toNat, BitVec.setWidth_eq]

theorem beats_lt (c : Call) : 4 * beatsOf c < 2 ^ 32 := by
  have hlt := c.trans.streamingWidth.isLt
  unfold beatsOf
  split
  · decide
  · omega

end Bounds

/-! ## One beat -/

section Edges

variable {memSize unset : BitVec 32} {s : Wired} {c : Call} {k r : Nat}

/-- Beat `k` of a call is about to be issued, `r` beats are to follow it, and the memory is at
rest. -/
structure AtBeat (memSize : BitVec 32) (c : Call) (k r : Nat) (s : Wired) : Prop where
  caller : s.port.caller = some c.trans
  state : s.port.adapter.state = execState c.trans
  stb : s.port.adapter.out.stbO = false
  timeout : s.port.adapter.timeout = 1000
  len : s.port.adapter.len = 4
  wid : s.port.adapter.wid = BitVec.ofNat 32 (4 * (r + 1))
  adr : s.port.adapter.adr = c.trans.address >>> 2 + BitVec.ofNat 64 (4 * k)
  ptr : s.port.adapter.ptr = c.trans.dataPtr + 4 * k
  byt : s.port.adapter.byt = c.trans.byteEnablePtr.map (· + 4 * k)
  host : c.trans.command = .write → s.port.host = c.host
  nTran : s.ram.nTran = false
  memSize : s.ram.memSize = memSize

/-- What the adapter drives once beat `k` is issued. -/
def AtBeat.out (_ : AtBeat memSize c k r s) : Master 32 :=
  (s.port.adapter.issue s.port.host c.trans.command).out

theorem AtBeat.adrO (h : AtBeat memSize c k r s) : h.out.adrO = beatWord c k := by
  show s.port.adapter.adr.setWidth 32 = _
  rw [h.adr, BitVec.setWidth_add _ _ (by omega), BitVec.setWidth_ofNat_of_le (by omega)]
  rfl

/-- A write puts the enabled bytes of its slice of the buffer into the word. -/
theorem AtBeat.byteOf_merge (h : AtBeat memSize c k r s) (hcmd : c.trans.command = .write)
    (w : BitVec 32) (j : Fin 4) :
    byteOf (Wbram.merge w h.out.datO h.out.selO) j
      = if byteEnabled c.host c.trans.byteEnablePtr (4 * k + j) then
          c.host (c.trans.dataPtr + (4 * k + j)) else byteOf w j := by
  have hlane : 3 - j.val < 4 := by omega
  have hdat : h.out.datO = datOut c.host (c.trans.dataPtr + 4 * k) := by
    simp only [AtBeat.out, Tlm2wb.issue, hcmd, if_true, h.host hcmd, h.ptr]
  have hsel : h.out.selO = selOut c.host (c.trans.byteEnablePtr.map (· + 4 * k)) := by
    simp only [AtBeat.out, Tlm2wb.issue, hcmd, if_true, h.host hcmd, h.byt]
  simp only [byteOf, Wbram.merge, hdat, hsel, Lanes.lane_pack _ hlane, lane_datOut _ _ j.isLt,
    getLsbD_selOut _ _ j.isLt, byteEnabled_beat, Nat.add_assoc]

/-- **The memory serves a beat**: it performs the operation of the beat, stores what the beat writes,
and shows the word that a read asks for. -/
theorem AtBeat.handleop (h : AtBeat memSize c k r s) (hcmd : c.trans.command ≠ .ignore)
    (hin : ¬ beatWord c k > memSize) {img : BitVec 32 × Fin 4 → BitVec 8}
    (himg : HoldsBytes unset s.ram img) :
    ∃ ram, ({ s.ram with ackO := false } : Wbram).handleop unset h.out = .ok (ram, some (beatOp c k)) ∧
      ram.ackO = true ∧ ram.nTran = true ∧ ram.memSize = memSize ∧
      HoldsBytes unset ram ((beatPatch c k).apply img) ∧
      (c.trans.command = .read → ∀ j, byteOf ram.datO j = img (beatWord c k, j)) := by
  have hgt : ¬ h.out.adrO > ({ s.ram with ackO := false } : Wbram).memSize := by
    rw [h.adrO]
    exact h.memSize ▸ hin
  cases hc : c.trans.command with
  | write =>
    have hwe : h.out.weO = true := by simp [AtBeat.out, Tlm2wb.issue, hc]
    have hop : (⟨true, beatWord c k⟩ : Op) = beatOp c k := by rw [beatOp, hc]; rfl
    have hserve := Wbram.handleop_write unset (r := { s.ram with ackO := false }) (m := h.out) rfl rfl
      h.nTran hwe hgt
    rw [h.adrO, hop] at hserve
    refine ⟨_, hserve, rfl, rfl, h.memSize, fun w j => ?_, fun hread => absurd hread (by decide)⟩
    simp only [Wbram.wordAt, Std.ExtTreeMap.getD_insert, Std.compare_eq_iff_eq]
    by_cases hw : beatWord c k = w
    · subst hw
      rw [if_pos rfl, h.byteOf_merge hc]
      simp only [Patch.apply, beatPatch, hc, true_and]
      split
      · rfl
      · exact himg _ j
    · have hnone : beatPatch c k (w, j) = none := if_neg fun hp => hw hp.2.1.symm
      rw [if_neg hw, Patch.apply_of_none img hnone]
      exact himg w j
  | read =>
    have hwe : h.out.weO = false := by simp [AtBeat.out, Tlm2wb.issue, hc]
    have hop : (⟨false, beatWord c k⟩ : Op) = beatOp c k := by rw [beatOp, hc]; rfl
    have hserve := Wbram.handleop_read unset (r := { s.ram with ackO := false }) (m := h.out) rfl rfl
      h.nTran hwe hgt
    rw [h.adrO, hop] at hserve
    refine ⟨_, hserve, rfl, rfl, h.memSize, ?_, fun _ j => himg (beatWord c k) j⟩
    rw [beatPatch_of_read (by rw [hc]; decide), Patch.apply_empty]
    exact himg
  | ignore => exact absurd hc hcmd

/-- The buffer after beat `k`: a read stores the word at its slice. -/
def beatHost (c : Call) (k : Nat) (datO : BitVec 32) (host : Host) : Host :=
  if c.trans.command = .write then host else storeWord host (c.trans.dataPtr + 4 * k) datO

/-- First edge of a beat: the adapter issues the request, the memory sees nothing yet. -/
theorem AtBeat.edge_issue (h : AtBeat memSize c k r s) (unset : BitVec 32) :
    s.edge unset = .ok (⟨⟨s.port.adapter.issue s.port.host c.trans.command, s.port.host,
      some c.trans⟩, { s.ram with ackO := false }⟩, none, []) := by
  simp only [Wired.edge, Port.edge_exec h.state, Wbram.handleop_idle h.stb, h.caller]
  rfl

/-- The third edge of a beat that is not the last one: the adapter takes the acknowledge and sets up
the next beat, the memory steps back. -/
theorem edge_resume {p : Port 32} {ram : Wbram} (hstate : p.adapter.state = .waitingForAck)
    (ht : p.adapter.elapsed + 1 < p.adapter.timeout) (hcaller : p.caller = some c.trans)
    (hwid : p.adapter.wid - p.adapter.len ≠ 0) (hack : ram.ackO = true) (hn : ram.nTran = true)
    (hcyc : p.adapter.out.cycO = true) (hstb : p.adapter.out.stbO = true) :
    Wired.edge unset ⟨p, ram⟩
      = .ok (⟨p.advance ⟨ram.ackO, ram.datO⟩ c.trans, { ram with ackO := false, nTran := false }⟩,
          none, []) := by
  have hport := Port.edge_ack (i := ⟨ram.ackO, ram.datO⟩) hstate hack ht hcaller
  have hmore : (p.adapter.finish ⟨ram.ackO, ram.datO⟩).wid
      - (p.adapter.finish ⟨ram.ackO, ram.datO⟩).len ≠ 0 := hwid
  rw [Tlm2wb.resume_next hmore] at hport
  simp only [Wired.edge, hport, Wbram.handleop_release hcyc hstb hn]
  rfl

/-- The port two edges into beat `k`: the request is out, and the adapter has waited once. -/
def AtBeat.waiting (_ : AtBeat memSize c k r s) : Port 32 :=
  ⟨{ s.port.adapter.issue s.port.host c.trans.command with elapsed := 0 + 1 }, s.port.host,
    some c.trans⟩

/-- The first two edges of a beat. -/
theorem AtBeat.untilReturn_served (h : AtBeat memSize c k r s) {ram : Wbram}
    (hram : ({ s.ram with ackO := false } : Wbram).handleop unset h.out
      = .ok (ram, some (beatOp c k))) (fuel : Nat) :
    Wired.untilReturn unset (fuel + 2) s
      = (Wired.untilReturn unset fuel ⟨h.waiting, ram⟩).map fun a =>
          (a.1, a.2.1, beatOp c k :: a.2.2) := by
  have ht : (0 : BitVec 32) + 1 < (s.port.adapter.issue s.port.host c.trans.command).timeout := by
    show (0 : BitVec 32) + 1 < s.port.adapter.timeout
    rw [h.timeout]
    decide
  have hserve : Wired.edge unset ⟨⟨s.port.adapter.issue s.port.host c.trans.command, s.port.host,
      some c.trans⟩, { s.ram with ackO := false }⟩ = .ok (⟨h.waiting, ram⟩, none, [beatOp c k]) :=
    edge_serve rfl ht rfl hram
  rw [untilReturn_pending (h.edge_issue unset), untilReturn_pending hserve, Option.map_map]
  rfl

theorem AtBeat.waiting_time (h : AtBeat memSize c k r s) :
    h.waiting.adapter.elapsed + 1 < h.waiting.adapter.timeout := by
  show (0 : BitVec 32) + 1 + 1 < s.port.adapter.timeout
  rw [h.timeout]
  decide

/-- The caller's memory after the acknowledge. -/
theorem AtBeat.received (h : AtBeat memSize c k r s) (i : Slave) :
    h.waiting.received i = beatHost c k i.datI s.port.host := by
  by_cases hcmd : c.trans.command = .write <;>
    simp [Port.received, AtBeat.waiting, Tlm2wb.issue, beatHost, hcmd, h.ptr]

/-- **A beat that is followed by another one**: three edges lead to the next beat. -/
theorem AtBeat.next (h : AtBeat memSize c k (r + 1) s) (hr : 4 * (r + 2) < 2 ^ 32) {ram : Wbram}
    (hram : ({ s.ram with ackO := false } : Wbram).handleop unset h.out
      = .ok (ram, some (beatOp c k)))
    (hack : ram.ackO = true) (hn : ram.nTran = true) (hsize : ram.memSize = memSize) :
    ∃ s', AtBeat memSize c (k + 1) r s' ∧ s'.ram = { ram with ackO := false, nTran := false } ∧
      s'.port.host = beatHost c k ram.datO s.port.host ∧
      ∀ fuel, Wired.untilReturn unset (fuel + 3) s
        = (Wired.untilReturn unset fuel s').map fun a => (a.1, a.2.1, beatOp c k :: a.2.2) := by
  have hwid : s.port.adapter.wid - s.port.adapter.len = BitVec.ofNat 32 (4 * (r + 1)) := by
    rw [h.wid, h.len, wid_sub]
  have hresume : Wired.edge unset ⟨h.waiting, ram⟩
      = .ok (⟨h.waiting.advance ⟨ram.ackO, ram.datO⟩ c.trans,
          { ram with ackO := false, nTran := false }⟩, none, []) :=
    edge_resume rfl h.waiting_time rfl
      (show s.port.adapter.wid - s.port.adapter.len ≠ 0 from hwid ▸ ofNat_beats_ne_zero (by omega))
      hack hn rfl rfl
  refine ⟨⟨h.waiting.advance ⟨ram.ackO, ram.datO⟩ c.trans, { ram with ackO := false, nTran := false }⟩,
    ?beat, rfl, h.received ⟨ram.ackO, ram.datO⟩, fun fuel => ?run⟩
  case beat =>
    refine ⟨rfl, rfl, rfl, h.timeout, h.len, hwid, ?adr, ?ptr, ?byt, fun hcmd => ?host, rfl, hsize⟩
    case adr =>
      show s.port.adapter.adr + s.port.adapter.len.setWidth 64 = _
      rw [h.adr, h.len, BitVec.add_assoc, Nat.mul_add, BitVec.ofNat_add]
      rfl
    case ptr =>
      show s.port.adapter.ptr + s.port.adapter.len.toNat = _
      rw [h.ptr, h.len]
      rfl
    case byt =>
      show s.port.adapter.byt.map (· + s.port.adapter.len.toNat) = _
      rw [h.byt, h.len, Option.map_map]
      rfl
    case host =>
      refine (h.received ⟨ram.ackO, ram.datO⟩).trans ?_
      rw [beatHost, if_pos hcmd]
      exact h.host hcmd
  case run =>
    rw [h.untilReturn_served hram (fuel + 1), untilReturn_pending hresume, Option.map_map]
    rfl

/-- **The last beat**: three edges lead to the return of the call. -/
theorem AtBeat.last (h : AtBeat memSize c k 0 s) {ram : Wbram}
    (hram : ({ s.ram with ackO := false } : Wbram).handleop unset h.out
      = .ok (ram, some (beatOp c k)))
    (hack : ram.ackO = true) (hn : ram.nTran = true) (hsize : ram.memSize = memSize) :
    ∃ s', s'.Quiet memSize ∧ s'.ram = { ram with ackO := false, nTran := false } ∧
      s'.port.host = beatHost c k ram.datO s.port.host ∧
      ∀ fuel, Wired.untilReturn unset (fuel + 3) s
        = some (s', { c.trans with responseStatus := .ok }, [beatOp c k]) := by
  have hwid : h.waiting.adapter.wid = h.waiting.adapter.len := by
    show s.port.adapter.wid = s.port.adapter.len
    rw [h.wid, h.len]
    rfl
  have hreturn : Wired.edge unset ⟨h.waiting, ram⟩
      = .ok (⟨h.waiting.leave ⟨ram.ackO, ram.datO⟩, { ram with ackO := false, nTran := false }⟩,
          some { c.trans with responseStatus := .ok }, []) :=
    edge_return rfl h.waiting_time rfl hwid hack hn rfl rfl
  refine ⟨⟨h.waiting.leave ⟨ram.ackO, ram.datO⟩, { ram with ackO := false, nTran := false }⟩, ?_, rfl,
    h.received ⟨ram.ackO, ram.datO⟩, fun fuel => ?_⟩
  · exact ⟨⟨rfl, rfl, rfl, rfl⟩, h.timeout, rfl, hsize⟩
  · rw [h.untilReturn_served hram (fuel + 1), untilReturn_returned hreturn, Option.map_some]

/-! ## Whole calls -/

/-- A read stores the bytes of the word in the order of the buffer. -/
theorem beatHost_of_read (hcmd : c.trans.command = .read) {datO : BitVec 32}
    {img : BitVec 32 × Fin 4 → BitVec 8} (hdat : ∀ j, byteOf datO j = img (beatWord c k, j))
    (host : Host) :
    beatHost c k datO host
      = (Patch.span (c.trans.dataPtr + 4 * k) (wordBytes img (beatWord c k))).apply host := by
  have hbytes : wordBytes img (beatWord c k)
      = [byteOf datO 0, byteOf datO 1, byteOf datO 2, byteOf datO 3] := by
    simp [wordBytes, List.ofFn_succ, hdat]
  rw [beatHost, if_neg (by rw [hcmd]; decide), hbytes]
  rfl

/-- **Run lemma**: a call that stands before beat `k` performs the operations of the beats left, in
order, and returns with the memory patched by them; a read leaves the words in the buffer. -/
theorem AtBeat.untilReturn (h : AtBeat memSize c k r s) (hcmd : c.trans.command ≠ .ignore)
    (hr : 4 * (r + 1) < 2 ^ 32) (hin : ∀ i < k + (r + 1), ¬ beatWord c i > memSize)
    {img : BitVec 32 × Fin 4 → BitVec 8} (himg : HoldsBytes unset s.ram img) {fuel : Nat}
    (hfuel : 3 * (r + 1) ≤ fuel) :
    ∃ s' answer, Wired.untilReturn unset fuel s
        = some (s', answer, (List.range' k (r + 1)).map (beatOp c)) ∧
      answer.responseStatus = .ok ∧ s'.Quiet memSize ∧
      HoldsBytes unset s'.ram (Patch.replay img ((List.range' k (r + 1)).map (beatPatch c))) ∧
      (c.trans.command = .read → s'.port.host = (Patch.span (c.trans.dataPtr + 4 * k)
        ((List.range' k (r + 1)).flatMap fun i => wordBytes img (beatWord c i))).apply
          s.port.host) := by
  induction r generalizing k s img fuel with
  | zero =>
    obtain ⟨f, rfl⟩ : ∃ f, fuel = f + 3 := ⟨fuel - 3, by omega⟩
    obtain ⟨ram, hram, hack, hn, hsize, himg', hdat⟩ := h.handleop hcmd (hin k (by omega)) himg
    obtain ⟨s', hquiet, hs', hhost, hrun⟩ := h.last hram hack hn hsize
    refine ⟨s', _, hrun f, rfl, hquiet, fun w j => ?_, fun hread => ?_⟩
    · rw [hs']
      exact himg' w j
    · rw [hhost, beatHost_of_read hread (hdat hread)]
      simp
  | succ r ih =>
    obtain ⟨f, rfl⟩ : ∃ f, fuel = f + 3 := ⟨fuel - 3, by omega⟩
    obtain ⟨ram, hram, hack, hn, hsize, himg', hdat⟩ := h.handleop hcmd (hin k (by omega)) himg
    obtain ⟨s₁, hbeat, hs₁, hhost, hrun⟩ := h.next hr hram hack hn hsize
    have himg₁ : HoldsBytes unset s₁.ram ((beatPatch c k).apply img) := by
      intro w j
      rw [hs₁]
      exact himg' w j
    obtain ⟨s', answer, hrest, hok, hquiet, hholds, hread⟩ := ih hbeat (by omega)
      (fun i hi => hin i (by omega)) himg₁ (show 3 * (r + 1) ≤ f by omega)
    refine ⟨s', answer, ?_, hok, hquiet, hholds, fun hcmd' => ?_⟩
    · rw [hrun f, hrest]
      rfl
    · have hnone : beatPatch c k = Patch.empty := beatPatch_of_read (by rw [hcmd']; decide) k
      have hnext : c.trans.dataPtr + 4 * k + (wordBytes img (beatWord c k)).length
          = c.trans.dataPtr + 4 * (k + 1) := by
        rw [length_wordBytes]
        omega
      have hcons : List.range' k (r + 1 + 1) = k :: List.range' (k + 1) (r + 1) := rfl
      rw [hread hcmd', hhost, beatHost_of_read hcmd' (hdat hcmd'), hnone, Patch.apply_empty,
        hcons, List.flatMap_cons, Patch.span_append_apply, hnext]

/-- **Step lemma**: a call performs its beats in order and patches the abstract memory with them. -/
theorem transport_streams (hs : s.Quiet memSize) (hc : StreamCall memSize c) {fuel : Nat}
    (hfuel : 3 * beatsOf c ≤ fuel) {img : BitVec 32 × Fin 4 → BitVec 8}
    (himg : HoldsBytes unset s.ram img) :
    ∃ s' answer, s.transport unset fuel c
        = some (s', answer, (List.range (beatsOf c)).map (beatOp c)) ∧
      answer.responseStatus = .ok ∧ s'.Quiet memSize ∧
      HoldsBytes unset s'.ram (Patch.replay img (streamPatches c)) ∧
      (c.trans.command = .read →
        s'.port.host = (Patch.span c.trans.dataPtr (streamBytes img c)).apply c.host) := by
  obtain ⟨r, hr⟩ : ∃ r, beatsOf c = r + 1 := ⟨beatsOf c - 1, by have := hc.beats_pos; omega⟩
  have hbegin : AtBeat memSize c 0 r ⟨s.port.begun c, s.ram⟩ := by
    refine ⟨rfl, rfl, hs.port.stb, hs.timeout, hc.dataLength, hr ▸ hc.wid_load s.port.adapter, ?_,
      rfl, ?_, fun _ => rfl, hs.nTran, hs.memSize⟩
    · exact (BitVec.add_zero _).symm
    · show c.trans.byteEnablePtr = _
      cases c.trans.byteEnablePtr <;> rfl
  obtain ⟨s', answer, hrun, hok, hquiet, hholds, hread⟩ := hbegin.untilReturn hc.command
    (hr ▸ beats_lt c) (fun i hi => hc.not_beatWord_gt (by omega)) himg (hr ▸ hfuel)
  refine ⟨s', answer, ?_, hok, hquiet, ?_, fun hcmd => ?_⟩
  · rw [Wired.transport, Port.call_ok _ hc.command, hr, List.range_eq_range']
    exact hrun
  · rw [streamPatches, hr, List.range_eq_range']
    exact hholds
  · rw [hread hcmd, streamBytes, hr, List.range_eq_range']
    rfl

/-- A session of such calls, each with enough fuel. -/
def StreamSession (memSize : BitVec 32) (fuel : Nat) (hist : List (Nat × Call)) : Prop :=
  ∀ e ∈ hist, StreamCall memSize e.2 ∧ 3 * beatsOf e.2 ≤ fuel

/-- **Run lemma**: after any calls the memory holds the abstract one, patched by all their beats. -/
theorem session_streams {fuel : Nat} (hs : s.Quiet memSize) {hist : List (Nat × Call)}
    (hhist : StreamSession memSize fuel hist) {img : BitVec 32 × Fin 4 → BitVec 8}
    (himg : HoldsBytes unset s.ram img) :
    ∃ s', s.session unset fuel hist = some s' ∧ s'.Quiet memSize ∧
      HoldsBytes unset s'.ram (Patch.replay img (hist.flatMap (streamPatches ·.2))) := by
  induction hist generalizing s img with
  | nil => exact ⟨s, rfl, hs, himg⟩
  | cons e rest ih =>
    obtain ⟨n, c⟩ := e
    obtain ⟨hc, hfuel⟩ := hhist (n, c) (by simp)
    obtain ⟨s₁, hidle, hs₁, hmem⟩ := idle_quiet unset hs n
    have himg₁ : HoldsBytes unset s₁.ram img := by
      intro w j
      rw [Wbram.wordAt, hmem]
      exact himg w j
    obtain ⟨s₂, answer, hrun, -, hs₂, himg₂, -⟩ := transport_streams hs₁ hc hfuel himg₁
    obtain ⟨s', hsession, hs', himg'⟩ := ih hs₂ (fun e he => hhist e (by simp [he])) himg₂
    refine ⟨s', ?_, hs', ?_⟩
    · rw [Wired.session, hidle, Option.bind_some, hrun, Option.bind_some]
      exact hsession
    · rw [List.flatMap_cons, Patch.replay_append]
      exact himg'

end Edges

/-! ## The memory of streams -/

theorem latest_streamPatches_eq_none {c : Call} {w : BitVec 32} {j : Fin 4}
    (h : c.trans.command = .write → ∀ k < beatsOf c, w ≠ beatWord c k) :
    Patch.latest (streamPatches c) (w, j) = none := by
  refine Patch.latest_eq_none_iff.mpr fun p hp => ?_
  obtain ⟨k, hk, rfl⟩ := List.mem_map.mp hp
  exact if_neg fun hwrite => h hwrite.1 k (List.mem_range.mp hk) hwrite.2.1

/-- After any calls and idle edges, what the latest beats have written. -/
theorem after_session (unset : BitVec 32) {memSize : BitVec 32} {fuel : Nat} {s₀ : Wired}
    (hs₀ : s₀.Quiet memSize) {hist : List (Nat × Call)} (hhist : StreamSession memSize fuel hist)
    (idle : Nat) :
    ∃ before, (s₀.session unset fuel hist).bind (·.idle unset idle) = some before ∧
      before.Quiet memSize ∧
      HoldsBytes unset before.ram fun k => (Patch.latest (hist.flatMap (streamPatches ·.2)) k).getD
        (byteOf (s₀.ram.wordAt unset k.1) k.2) := by
  have himg₀ : HoldsBytes unset s₀.ram fun k => byteOf (s₀.ram.wordAt unset k.1) k.2 :=
    fun _ _ => rfl
  obtain ⟨s, hsession, hs, himg⟩ := session_streams hs₀ hhist himg₀
  obtain ⟨before, hidle, hbefore, hmem⟩ := idle_quiet unset hs idle
  refine ⟨before, by rw [hsession, Option.bind_some, hidle], hbefore, fun w j => ?_⟩
  rw [Wbram.wordAt, hmem]
  exact (himg w j).trans (Patch.replay_eq _ _ _)

/-- **Streaming calls make the memory a byte-enabled word memory as well.** From any quiet state,
after any calls of any numbers of beats, a call of `n` beats performs `n` operations, on every fourth
word from its own one on. A read puts in its buffer, word after word, what the latest beat wrote to
each byte, and a write changes no other word. -/
theorem wbram_streams (unset memSize : BitVec 32) {fuel : Nat} (s₀ : Wired) (hs₀ : s₀.Quiet memSize)
    (hist : List (Nat × Call)) (hhist : StreamSession memSize fuel hist) (idle : Nat) (c : Call)
    (hc : StreamCall memSize c) (hfuel : 3 * beatsOf c ≤ fuel) :
    ∃ before after answer,
      (s₀.session unset fuel hist).bind (·.idle unset idle) = some before ∧
      before.transport unset fuel c
        = some (after, answer, (List.range (beatsOf c)).map (beatOp c)) ∧
      answer.responseStatus = .ok ∧
      (c.trans.command = .write → ∀ w, (∀ k < beatsOf c, w ≠ beatWord c k) →
        ∀ j, byteOf (after.ram.wordAt unset w) j = byteOf (before.ram.wordAt unset w) j) ∧
      (c.trans.command = .read →
        (∀ w j, byteOf (after.ram.wordAt unset w) j = byteOf (before.ram.wordAt unset w) j) ∧
        after.port.host = (Patch.span c.trans.dataPtr (streamBytes (fun k =>
          (Patch.latest (hist.flatMap (streamPatches ·.2)) k).getD
            (byteOf (s₀.ram.wordAt unset k.1) k.2)) c)).apply c.host) := by
  obtain ⟨before, hrun, hbefore, himg⟩ := after_session unset hs₀ hhist idle
  obtain ⟨after, answer, hcall, hok, -, hholds, hread⟩ := transport_streams hbefore hc hfuel himg
  have hframe : ∀ w, (c.trans.command = .write → ∀ k < beatsOf c, w ≠ beatWord c k) →
      ∀ j, byteOf (after.ram.wordAt unset w) j = byteOf (before.ram.wordAt unset w) j := by
    intro w hw j
    rw [hholds w j, Patch.replay_eq, latest_streamPatches_eq_none hw, Option.getD_none, himg w j]
  refine ⟨before, after, answer, hrun, hcall, hok, fun hcmd w hw => hframe w fun _ => hw,
    fun hcmd => ⟨fun w => hframe w fun hwrite => ?_, hread hcmd⟩⟩
  rw [hcmd] at hwrite
  cases hwrite

/-- A call of two beats, with its data bytes at address 0. -/
def callTwo (command : Command) (address : BitVec 64) (bytes : List (BitVec 8)) : Call where
  trans := ⟨command, address, 0, 4, none, 8, false, .incomplete⟩
  host := fun x => bytes.getD x 0

theorem callTwo_streamCall {command : Command} (h : command ≠ .ignore) {address : BitVec 64}
    (hin : (address >>> 2).toNat + 4 < 0x100) (bytes : List (BitVec 8)) :
    StreamCall 0x100 (callTwo command address bytes) := by
  have hbeats : beatsOf (callTwo command address bytes) = 2 := by simp [beatsOf, callTwo]
  refine ⟨h, rfl, by simp [callTwo], ?_⟩
  rw [hbeats]
  exact hin

/-- Two beats go to the words 0 and 4; a read of the words 4 and 8 finds the second one. -/
theorem wbram_streams_two_beats :
    ∃ before after answer,
      ((Wired.init 0x100).session 0 6 [(0, callTwo .write 0 [1, 2, 3, 4, 5, 6, 7, 8])]).bind
        (·.idle 0 1) = some before ∧
      before.transport 0 6 (callTwo .read 0x10 []) = some (after, answer, [⟨false, 4⟩, ⟨false, 8⟩]) ∧
      Patch.load after.port.host 0 8 = [5, 6, 7, 8, 0, 0, 0, 0] := by
  obtain ⟨before, after, answer, hrun, hcall, -, -, hread⟩ := @wbram_streams 0 0x100 6
    (Wired.init 0x100) (quiet_init _) [(0, callTwo .write 0 [1, 2, 3, 4, 5, 6, 7, 8])]
    (by simpa [StreamSession] using ⟨callTwo_streamCall (by decide) (by decide) _, by decide⟩) 1
    (callTwo .read 0x10 []) (callTwo_streamCall (by decide) (by decide) _) (by decide)
  refine ⟨before, after, answer, hrun, hcall, ?_⟩
  rw [(hread rfl).2]
  decide

/-! ## What is streamed in comes out -/

/-- The call writes none of the words that `c` streams to. -/
def LeavesWords (c d : Call) : Prop :=
  d.trans.command = .write → ∀ k < beatsOf c, ∀ l < beatsOf d, beatWord c k ≠ beatWord d l

section RoundTrip

variable {memSize : BitVec 32} {c : Call}

/-- Of the beats of an unmasked write, beat `k` decides about its word. -/
theorem StreamCall.latest_streamPatches (hc : StreamCall memSize c) (hcmd : c.trans.command = .write)
    (hbyt : c.trans.byteEnablePtr = none) {k : Nat} (hk : k < beatsOf c) (j : Fin 4) :
    Patch.latest (streamPatches c) (beatWord c k, j)
      = some (c.host (c.trans.dataPtr + (4 * k + j))) := by
  refine Patch.latest_of_agree (p := beatPatch c k) (List.mem_map_of_mem (List.mem_range.mpr hk)) ?_ ?_
  · exact if_pos ⟨hcmd, rfl, by rw [hbyt]; rfl⟩
  · intro q hq v hv
    obtain ⟨l, hl, rfl⟩ := List.mem_map.mp hq
    simp only [beatPatch] at hv
    split at hv
    · next hwrite =>
      obtain rfl := hc.beatWord_inj hk (List.mem_range.mp hl) hwrite.2.1
      exact (Option.some.inj hv).symm
    · cases hv

/-- After the write, and calls that leave its words alone, the memory holds its buffer. -/
theorem StreamCall.latest_session (hc : StreamCall memSize c) (hcmd : c.trans.command = .write)
    (hbyt : c.trans.byteEnablePtr = none) {between : List (Nat × Call)}
    (hleave : ∀ e ∈ between, LeavesWords c e.2) {k : Nat} (hk : k < beatsOf c) (j : Fin 4) :
    Patch.latest (streamPatches c ++ between.flatMap (streamPatches ·.2)) (beatWord c k, j)
      = some (c.host (c.trans.dataPtr + (4 * k + j))) := by
  have hothers : Patch.latest (between.flatMap (streamPatches ·.2)) (beatWord c k, j) = none := by
    refine Patch.latest_eq_none_iff.mpr fun p hp => ?_
    obtain ⟨e, he, hpe⟩ := List.mem_flatMap.mp hp
    have hnone := latest_streamPatches_eq_none (j := j) fun hwrite l hl => hleave e he hwrite k hk l hl
    exact Patch.latest_eq_none_iff.mp hnone p hpe
  rw [Patch.latest_append, hothers, Option.none_or, hc.latest_streamPatches hcmd hbyt hk]

/-- The words of a memory that holds a buffer are the buffer. -/
theorem flatMap_wordBytes {img : BitVec 32 × Fin 4 → BitVec 8} {c : Call} {host : Host} {ptr n : Nat}
    (h : ∀ k < n, ∀ j : Fin 4, img (beatWord c k, j) = host (ptr + (4 * k + j))) :
    ((List.range n).flatMap fun k => wordBytes img (beatWord c k)) = Patch.load host ptr (4 * n) := by
  induction n with
  | zero => rfl
  | succ n ih =>
    have hlast : wordBytes img (beatWord c n) = Patch.load host (ptr + 4 * n) 4 := by
      refine List.ext_getElem (by simp) fun j hj _ => ?_
      rw [length_wordBytes] at hj
      simp only [wordBytes, Patch.load, List.getElem_ofFn, List.getElem_map, List.getElem_range,
        Nat.add_assoc]
      exact h n (Nat.lt_succ_self n) ⟨j, hj⟩
    rw [List.range_succ, List.flatMap_append, ih fun k hk => h k (by omega), Nat.mul_add,
      ← Patch.load_append, List.flatMap_singleton, hlast]

/-- **What is streamed in comes out.** An unmasked write of any number of beats, then any calls that
leave its words alone, then a read of the same address and streaming width: the reader's buffer gets
the writer's bytes. -/
theorem wbram_stream_roundtrip (unset memSize : BitVec 32) {fuel : Nat} (s₀ : Wired)
    (hs₀ : s₀.Quiet memSize) (c : Call) (hc : StreamCall memSize c) (hcmd : c.trans.command = .write)
    (hbyt : c.trans.byteEnablePtr = none) (hfuel : 3 * beatsOf c ≤ fuel) (n : Nat)
    (between : List (Nat × Call)) (hbetween : StreamSession memSize fuel between)
    (hleave : ∀ e ∈ between, LeavesWords c e.2) (idle : Nat) (d : Call)
    (hread : d.trans.command = .read) (haddress : d.trans.address = c.trans.address)
    (hlen : d.trans.dataLength = c.trans.dataLength)
    (hwid : d.trans.streamingWidth = c.trans.streamingWidth) :
    ∃ before after answer,
      (s₀.session unset fuel ((n, c) :: between)).bind (·.idle unset idle) = some before ∧
      before.transport unset fuel d
        = some (after, answer, (List.range (beatsOf c)).map (beatOp d)) ∧
      answer.responseStatus = .ok ∧
      Patch.load after.port.host d.trans.dataPtr (4 * beatsOf c)
        = Patch.load c.host c.trans.dataPtr (4 * beatsOf c) := by
  have hbeats : beatsOf d = beatsOf c := by rw [beatsOf, beatsOf, hwid]
  have hword : beatWord d = beatWord c := by
    funext k
    rw [beatWord, beatWord, wordOf, wordOf, haddress]
  have hd : StreamCall memSize d :=
    ⟨by rw [hread]; decide, hlen.trans hc.dataLength, hwid ▸ hc.streamingWidth,
      by rw [haddress, hbeats]; exact hc.inside⟩
  have hhist : StreamSession memSize fuel ((n, c) :: between) := by
    intro e he
    rcases List.mem_cons.mp he with rfl | hmem
    · exact ⟨hc, hfuel⟩
    · exact hbetween e hmem
  obtain ⟨before, hrun, hbefore, himg⟩ := after_session unset hs₀ hhist idle
  obtain ⟨after, answer, hcall, hok, -, -, hbytes⟩ :=
    transport_streams hbefore hd (hbeats ▸ hfuel) himg
  have hwords : streamBytes (fun k =>
      (Patch.latest (((n, c) :: between).flatMap (streamPatches ·.2)) k).getD
        (byteOf (s₀.ram.wordAt unset k.1) k.2)) d
      = Patch.load c.host c.trans.dataPtr (4 * beatsOf c) := by
    rw [streamBytes, hbeats, hword]
    refine flatMap_wordBytes fun k hk j => ?_
    rw [List.flatMap_cons, hc.latest_session hcmd hbyt hleave hk j, Option.getD_some]
  refine ⟨before, after, answer, hrun, hbeats ▸ hcall, hok, ?_⟩
  rw [hbytes hread, hwords, Patch.load_span_load]

end RoundTrip

/-- A write to the words 1 and 5 leaves the words 0 and 4 alone. -/
theorem wbram_stream_roundtrip_interleaved :
    ∃ before after answer,
      ((Wired.init 0x100).session 0 6 [(0, callTwo .write 0 [1, 2, 3, 4, 5, 6, 7, 8]),
        (2, callTwo .write 4 [9, 9, 9, 9, 9, 9, 9, 9])]).bind (·.idle 0 1) = some before ∧
      before.transport 0 6 (callTwo .read 0 []) = some (after, answer, [⟨false, 0⟩, ⟨false, 4⟩]) ∧
      Patch.load after.port.host 0 8 = [1, 2, 3, 4, 5, 6, 7, 8] := by
  obtain ⟨before, after, answer, hrun, hcall, -, hload⟩ := @wbram_stream_roundtrip 0 0x100 6
    (Wired.init 0x100) (quiet_init _) (callTwo .write 0 [1, 2, 3, 4, 5, 6, 7, 8])
    (callTwo_streamCall (by decide) (by decide) _) rfl rfl (by decide) 0
    [(2, callTwo .write 4 [9, 9, 9, 9, 9, 9, 9, 9])]
    (by simpa [StreamSession] using ⟨callTwo_streamCall (by decide) (by decide) _, by decide⟩)
    (by simp only [List.mem_singleton, forall_eq, LeavesWords]; decide) 1
    (callTwo .read 0 []) rfl rfl rfl rfl
  exact ⟨before, after, answer, hrun, hcall, hload⟩

end DeltaModels.Tlm
