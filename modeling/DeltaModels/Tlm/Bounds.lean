import DeltaModels.Tlm.AccessPaths

/-!
# The end of the array

`b_transport` and `transport_dbg` both test where a call lies in the array, and both miss a part of it.
The test of `b_transport` lets the first word behind the array pass. The one of `transport_dbg` subtracts
the address from the size, which wraps for addresses behind that word, and counts the bytes from the
start of the word. `bounds_iff` says for which calls the tests are right.
-/

namespace DeltaModels.Tlm

namespace Memory

variable {SIZE : Nat} {m : Memory} {c : Call}

/-- `b_transport` keeps to the array: it copies no bytes that are not in it, and answers every call at or
behind its end with an address error and no other effect. -/
structure TransportKeeps (SIZE : Nat) (m : Memory) (c : Call) : Prop where
  inside : ∃ r, bTransport SIZE m c = .ok r
  behind : 4 * SIZE ≤ c.trans.address.toNat →
    bTransport SIZE m c = .ok (m, c.setResponseStatus .addressError)

/-- The number of the bytes of a call that are in the array. -/
def bytesInside (SIZE : Nat) (c : Call) : Nat :=
  min c.trans.dataLength.toNat (4 * SIZE - c.trans.address.toNat)

/-- The memory and the call after `n` bytes were copied between the array, from byte `start` on, and the
data pointer. -/
def moved (m : Memory) (c : Call) (start n : Nat) : Memory × Call :=
  match c.trans.command with
  | .read => (m, { c with host := (Patch.span c.trans.dataPtr (Patch.load m.mem start n)).apply c.host })
  | .write => ({ m with mem := (Patch.span start (Patch.load c.host c.trans.dataPtr n)).apply m.mem }, c)
  | .ignore => (m, c)

/-- `transport_dbg` returns the number of bytes that are in the array, and copies as many from or to
it; on an ignored call, which copies nothing, that number has to be 0. -/
def DebugExact (SIZE : Nat) (m : Memory) (c : Call) : Prop :=
  ∃ start n, transportDbg SIZE m c
      = .ok ((moved m c start n.toNat).1, (moved m c start n.toNat).2, n) ∧
    (n.toNat = 0 ∨ start + n.toNat ≤ 4 * SIZE) ∧ n.toNat = bytesInside SIZE c ∧
    (c.trans.command = .ignore → n.toNat = 0)

/-! ## `b_transport` -/

/-- An address error is only the answer behind the word that follows the array. -/
theorem lt_of_addressError {m' : Memory} {c' : Call} (h : Served SIZE m c m' c')
    (herror : c'.trans.responseStatus = .addressError) : SIZE < wordOf c.trans.address := by
  cases h with
  | refused hok haddress hnot => exact haddress.mp herror
  | read => cases herror
  | write => cases herror
  | ignore => cases herror

theorem transportKeeps_iff : TransportKeeps SIZE m c ↔ wordOf c.trans.address ≠ SIZE := by
  have hword : wordOf c.trans.address = c.trans.address.toNat / 4 := rfl
  constructor
  · intro h hend
    have hlt := lt_of_addressError (bTransport_served (h.behind (by omega))) rfl
    omega
  · intro hne
    refine ⟨bTransport_total m (.inr hne), fun hbehind => ?_⟩
    have hgt : wordOf c.trans.address > SIZE := by omega
    simp only [bTransport, toNat_div_four]
    exact if_pos hgt

/-! ## `transport_dbg` -/

/-- A debug transaction copies from the start of the word, unless that leaves the array. -/
theorem transportDbg_eq_ite (SIZE : Nat) (m : Memory) (c : Call) :
    transportDbg SIZE m c =
      if c.trans.command = .ignore ∨ (numBytes SIZE c).toNat = 0 ∨
          4 * wordOf c.trans.address + (numBytes SIZE c).toNat ≤ 4 * SIZE then
        .ok ((moved m c (4 * wordOf c.trans.address) (numBytes SIZE c).toNat).1,
          (moved m c (4 * wordOf c.trans.address) (numBytes SIZE c).toNat).2, numBytes SIZE c)
      else .error .outOfRange := by
  rw [transportDbg_eq, moved]
  cases c.trans.command with
  | read =>
    simp only [copyOut, reduceCtorEq, false_or]
    split <;> rfl
  | write =>
    simp only [copyIn, reduceCtorEq, false_or]
    split <;> rfl
  | ignore =>
    rw [if_pos (.inl rfl)]
    rfl

/-- The number that is returned, if anything is. -/
theorem eq_numBytes {n : BitVec 32} {m' : Memory} {c' : Call}
    (h : transportDbg SIZE m c = .ok (m', c', n)) : n = numBytes SIZE c := by
  rw [transportDbg_eq_ite] at h
  split at h
  · exact (congrArg (·.2.2) (Except.ok.inj h)).symm
  · cases h

theorem debugExact_iff (hsize : SIZE < 2 ^ 32) :
    DebugExact SIZE m c ↔
      c.trans.dataLength = 0 ∨ wordOf c.trans.address = SIZE ∨
        (c.trans.command ≠ .ignore ∧
          (c.trans.address.toNat + c.trans.dataLength.toNat ≤ 4 * SIZE ∨
            (c.trans.address.toNat ≤ 4 * SIZE ∧ 4 ∣ c.trans.address.toNat))) := by
  have hword : wordOf c.trans.address = c.trans.address.toNat / 4 := rfl
  have hbound := c.trans.address.isLt
  have hzero : c.trans.dataLength = 0 ↔ c.trans.dataLength.toNat = 0 := BitVec.toNat_inj.symm
  have hnum := toNat_numBytes hsize c
  rw [hzero]
  constructor
  · rintro ⟨start, n, hdbg, -, hinside, hignore⟩
    rw [eq_numBytes hdbg, hnum] at hinside hignore
    rw [bytesInside] at hinside
    by_cases hcmd : c.trans.command = .ignore
    · have hnone := hignore hcmd
      have hempty : c.trans.dataLength.toNat = 0 ∨ wordOf c.trans.address = SIZE := by
        split at hnone <;> omega
      exact hempty.imp_right .inl
    · have hexact : c.trans.dataLength.toNat = 0 ∨ wordOf c.trans.address = SIZE ∨
          (c.trans.address.toNat + c.trans.dataLength.toNat ≤ 4 * SIZE ∨
            (c.trans.address.toNat ≤ 4 * SIZE ∧ 4 ∣ c.trans.address.toNat)) := by
        split at hinside <;> omega
      exact hexact.imp_right (.imp_right fun h => ⟨hcmd, h⟩)
  · intro h
    have hexact := h.imp_right (Or.imp_right And.right)
    have hcopy : (numBytes SIZE c).toNat = 0 ∨
        4 * wordOf c.trans.address + (numBytes SIZE c).toNat ≤ 4 * SIZE := by
      rw [hnum]
      split <;> omega
    refine ⟨4 * wordOf c.trans.address, numBytes SIZE c, ?_, hcopy, ?_, ?_⟩
    · rw [transportDbg_eq_ite, if_pos (.inr hcopy)]
    · rw [hnum, bytesInside]
      split <;> omega
    · intro hcmd
      have hempty := h.imp_right (Or.resolve_right · fun hmoves => hmoves.1 hcmd)
      rw [hnum]
      split <;> omega

/-! ## The end of the array -/

/-- **Which calls keep to the array.** `b_transport` does its part for all calls but those to the word
behind the array. `transport_dbg` does its part for all calls to that word and for those without data;
any other call must not be an ignored one, and it must lie in the array or start at a word of it. -/
theorem bounds_iff (SIZE : Nat) (hsize : SIZE < 2 ^ 32) (m : Memory) (c : Call) :
    (TransportKeeps SIZE m c ↔ wordOf c.trans.address ≠ SIZE) ∧
    (DebugExact SIZE m c ↔
      c.trans.dataLength = 0 ∨ wordOf c.trans.address = SIZE ∨
        (c.trans.command ≠ .ignore ∧
          (c.trans.address.toNat + c.trans.dataLength.toNat ≤ 4 * SIZE ∨
            (c.trans.address.toNat ≤ 4 * SIZE ∧ 4 ∣ c.trans.address.toNat)))) :=
  ⟨transportKeeps_iff, debugExact_iff hsize⟩

/-- A memory of one word. -/
def oneWord : Memory := ⟨fun _ => 0, ⟨0, 0⟩, ⟨0, 0⟩⟩

/-- The last bytes of the array. -/
theorem bounds_last_word : TransportKeeps 1 oneWord (readAt 2 2) ∧ DebugExact 1 oneWord (readAt 2 2) :=
  ⟨(bounds_iff 1 (by decide) oneWord (readAt 2 2)).1.mpr (by decide),
    (bounds_iff 1 (by decide) oneWord (readAt 2 2)).2.mpr (.inr (.inr (by decide)))⟩

/-- Behind an array of one word, `b_transport` reads the next word; and `transport_dbg` reads the word
after that, where it should return 0. -/
theorem bounds_overrun :
    (¬ ∀ (SIZE : Nat) (m : Memory) (c : Call), 0 < SIZE → SIZE < 2 ^ 32 → TransportKeeps SIZE m c) ∧
    ¬ ∀ (SIZE : Nat) (m : Memory) (c : Call), 0 < SIZE → SIZE < 2 ^ 32 → DebugExact SIZE m c := by
  constructor
  · intro h
    obtain ⟨r, hr⟩ := (h 1 oneWord (readAt 4 4) (by decide) (by decide)).inside
    have hfault : bTransport 1 oneWord (readAt 4 4) = .error .outOfRange := rfl
    rw [hfault] at hr
    cases hr
  · intro h
    obtain ⟨start, n, hdbg, -⟩ := h 1 oneWord (readAt 8 4) (by decide) (by decide)
    have hfault : transportDbg 1 oneWord (readAt 8 4) = .error .outOfRange := rfl
    rw [hfault] at hdbg
    cases hdbg

end Memory

end DeltaModels.Tlm
