import DeltaModels.Sdram.Backdoor

/-!
# Requests to the backdoor

`backdoor_handler` runs when one of the two request signals changes, and then serves each of them that
is high. So a request that is still high while the other signal changes is served again.

`device` is the device with its front door and its backdoor, `served` the same one with a handler that
sees rising edges only. Their memories are compared over whole waveforms: `requests_once_iff` says that
they are equal, whatever the operands and whatever is written in between, exactly if no request changes
while the other one stays high.
-/

namespace DeltaModels.Sdram

variable {A_SIZE BA_SIZE : Nat} {cfg : Config}

/-- The values of `backdoor_copy` and `backdoor_clear`. -/
abbrev Levels := BitVec 1 × BitVec 1

/-- What happens to the device: a command at the front door, or the signals of the backdoor at the next
moment. -/
inductive Event (A_SIZE BA_SIZE : Nat) where
  | command (c : Command A_SIZE BA_SIZE)
  | signals (b : Backdoor)

/-- The device, and the requests as they were last seen. -/
structure Device (BA_SIZE : Nat) where
  state : State BA_SIZE
  levels : Levels

/-- The device, in front of any handler for the signals of the backdoor. -/
def withBackdoor (A_SIZE : Nat) (cfg : Config)
    (handler : Device BA_SIZE → Backdoor → State BA_SIZE × List BackdoorLine) :
    Mealy (Event A_SIZE BA_SIZE) (Device BA_SIZE) (Effect × List BackdoorLine) where
  step d
    | .command c =>
      ({ d with state := (handleCmd cfg d.state c.cmd c.toBus).1 },
        (handleCmd cfg d.state c.cmd c.toBus).2, [])
    | .signals b => (⟨(handler d b).1, (b.copy, b.clear)⟩, {}, (handler d b).2)

/-- `backdoor_handler` is a method that is sensitive to both requests. -/
def sensitive (cfg : Config) (d : Device BA_SIZE) (b : Backdoor) :
    State BA_SIZE × List BackdoorLine :=
  if b.copy ≠ d.levels.1 ∨ b.clear ≠ d.levels.2 then backdoorHandler cfg d.state b
  else (d.state, [])

/-- The device. -/
def device (A_SIZE : Nat) (cfg : Config) :
    Mealy (Event A_SIZE BA_SIZE) (Device BA_SIZE) (Effect × List BackdoorLine) :=
  withBackdoor A_SIZE cfg (sensitive cfg)

/-! ## Each request once -/

/-- A signal of one bit that is high if the given one has risen. -/
def rising (before now : BitVec 1) : BitVec 1 := if before = 0 ∧ now = 1 then 1 else 0

/-- One copy where `backdoor_copy` has risen, and after it one clear where `backdoor_clear` has. -/
def onRising (cfg : Config) (d : Device BA_SIZE) (b : Backdoor) :
    State BA_SIZE × List BackdoorLine :=
  backdoorHandler cfg d.state
    { b with copy := rising d.levels.1 b.copy, clear := rising d.levels.2 b.clear }

/-- The device as it is meant: each request is served when it rises. -/
def served (A_SIZE : Nat) (cfg : Config) :
    Mealy (Event A_SIZE BA_SIZE) (Device BA_SIZE) (Effect × List BackdoorLine) :=
  withBackdoor A_SIZE cfg (onRising cfg)

/-- One request changes while the other one stays high. -/
def Overlap (before now : Levels) : Prop :=
  (before.1 = 1 ∧ now.1 = 1 ∧ now.2 ≠ before.2) ∨ (before.2 = 1 ∧ now.2 = 1 ∧ now.1 ≠ before.1)

instance (before now : Levels) : Decidable (Overlap before now) :=
  inferInstanceAs (Decidable (_ ∨ _))

/-- What an event says about the requests. -/
def Event.levels : Event A_SIZE BA_SIZE → Option Levels
  | .command _ => none
  | .signals b => some (b.copy, b.clear)

/-- The requests never overlap. -/
def Apart : Levels → List (Option Levels) → Prop
  | _, [] => True
  | l, none :: w => Apart l w
  | l, some l' :: w => ¬ Overlap l l' ∧ Apart l' w

instance : ∀ (l : Levels) (w : List (Option Levels)), Decidable (Apart l w)
  | _, [] => .isTrue trivial
  | l, none :: w => instDecidableApart l w
  | _, some l' :: w =>
    have := instDecidableApart l' w
    inferInstanceAs (Decidable (_ ∧ _))

/-! ## Where the requests are apart -/

/-- If no other request stays high, the one that is high has risen. -/
theorem rising_of_change {l l' : Levels} (hapart : ¬ Overlap l l') (hchange : l'.1 ≠ l.1 ∨ l'.2 ≠ l.2) :
    rising l.1 l'.1 = l'.1 ∧ rising l.2 l'.2 = l'.2 := by
  obtain ⟨c, k⟩ := l
  obtain ⟨c', k'⟩ := l'
  revert hapart hchange
  revert c k c' k'
  decide

/-- Without a change nothing has risen. -/
theorem rising_self (l : BitVec 1) : rising l l = 0 := by
  revert l
  decide

/-- A handler that is shown no request does nothing. -/
theorem backdoorHandler_none (s : State BA_SIZE) {b : Backdoor} (hcopy : b.copy = 0)
    (hclear : b.clear = 0) : backdoorHandler cfg s b = (s, []) := by
  have h : ¬ (0 : BitVec 1) = 1 := by decide
  simp only [backdoorHandler, hcopy, hclear, if_neg h]

/-- Where the requests are apart, both handlers do the same. -/
theorem sensitive_eq_onRising {d : Device BA_SIZE} {b : Backdoor}
    (h : ¬ Overlap d.levels (b.copy, b.clear)) : sensitive cfg d b = onRising cfg d b := by
  unfold sensitive onRising
  split
  · next hchange =>
    obtain ⟨hcopy, hclear⟩ := rising_of_change h hchange
    rw [hcopy, hclear]
  · next hsame =>
    obtain ⟨hcopy, hclear⟩ : b.copy = d.levels.1 ∧ b.clear = d.levels.2 := by
      simpa using not_or.mp hsame
    rw [hcopy, hclear, rising_self, rising_self]
    exact (backdoorHandler_none d.state rfl rfl).symm

/-- **Step lemma**: the two devices step alike. -/
theorem along_of_apart {d : Device BA_SIZE} {es : List (Event A_SIZE BA_SIZE)}
    (h : Apart d.levels (es.map Event.levels)) :
    (device A_SIZE cfg).Along
      (fun d e => (device A_SIZE cfg).step d e = (served A_SIZE cfg).step d e) d es := by
  induction es generalizing d with
  | nil => exact trivial
  | cons e es ih =>
    cases e with
    | command c => exact ⟨rfl, ih h⟩
    | signals b =>
      obtain ⟨hapart, hrest⟩ := h
      refine ⟨?_, ih hrest⟩
      simp only [device, served, withBackdoor, sensitive_eq_onRising hapart]

/-! ## Where they are not -/

/-- Signals with these levels and without operands: requests for nothing. -/
def quiet (l : Levels) : Backdoor := { copy := l.1, clear := l.2 }

/-- A command that does nothing either. -/
def refresh : Command A_SIZE BA_SIZE := { a := 0, ba := 0, cmd := .refresh }

/-- An event that says this about the requests and changes nothing. -/
def Event.quiet : Option Levels → Event A_SIZE BA_SIZE
  | none => .command refresh
  | some l => .signals (Sdram.quiet l)

@[simp] theorem levels_quiet (o : Option Levels) :
    (Event.quiet o : Event A_SIZE BA_SIZE).levels = o := by
  cases o <;> rfl

theorem backdoorCopy_nothing {b : Backdoor} (h : b.copySize = 0) (s : Logged) :
    backdoorCopy cfg b s = s := by
  simp [backdoorCopy, Backdoor.tsize, h]

theorem backdoorClear_nothing {b : Backdoor} (h : b.clearFrom = b.clearTo) (s : Logged) :
    backdoorClear cfg b s = s := by
  simp [backdoorClear, h]

theorem backdoorHandler_quiet (s : State BA_SIZE) (l : Levels) :
    backdoorHandler cfg s (quiet l) = (s, []) := by
  simp only [backdoorHandler, backdoorCopy_nothing (b := quiet l) rfl,
    backdoorClear_nothing (b := quiet l) rfl, ite_self]

theorem sensitive_quiet (d : Device BA_SIZE) (l : Levels) :
    sensitive cfg d (quiet l) = (d.state, []) := by
  unfold sensitive
  split
  · exact backdoorHandler_quiet d.state l
  · rfl

theorem onRising_quiet (d : Device BA_SIZE) (l : Levels) :
    onRising cfg d (quiet l) = (d.state, []) :=
  backdoorHandler_quiet d.state (rising d.levels.1 l.1, rising d.levels.2 l.2)

/-- A memory in which the first word is 1 and the second one 0. -/
def firstOne (BA_SIZE : Nat) : State BA_SIZE :=
  { State.init with mem := (∅ : OrdMap (BitVec 32) (BitVec 32)).insert 0 1 }

/-- A copy of the first word to the second. -/
def copyFirst (cfg : Config) (clear : BitVec 1) : Backdoor :=
  { copyFrom := toWishbone cfg 0, copyTo := toWishbone cfg 1, copySize := 4, copy := 1, clear := clear }

/-- A clear of the first word. -/
def clearFirst (cfg : Config) (copy : BitVec 1) : Backdoor :=
  { clearFrom := toWishbone cfg 0, clearTo := toWishbone cfg 1, copy := copy, clear := 1 }

theorem fromWishbone_toWishbone {k : BitVec 32} (hk : k.toNat < 2 ^ 30) :
    fromWishbone cfg (toWishbone cfg k) = k := by
  rw [fromWishbone, toWishbone, BitVec.add_sub_cancel]
  apply BitVec.eq_of_toNat_eq
  rw [BitVec.toNat_ushiftRight, BitVec.toNat_shiftLeft, Nat.shiftRight_eq_div_pow, Nat.shiftLeft_eq]
  omega

theorem read_copyFirst (mem : OrdMap (BitVec 32) (BitVec 32)) (clear : BitVec 1) :
    (backdoorCopy cfg (copyFirst cfg clear) (mem, [])).1.read 1 = mem.read 0 := by
  have hzero : fromWishbone cfg (toWishbone cfg 0) = 0 := fromWishbone_toWishbone (by decide)
  have hone : fromWishbone cfg (toWishbone cfg 1) = 1 := fromWishbone_toWishbone (by decide)
  have hsize : (copyFirst cfg clear).tsize = 1 := by simp [Backdoor.tsize, copyFirst]
  simp only [backdoorCopy, hsize]
  simp only [copyFirst, hzero, hone]
  simp [copyWord, OrdMap.read_insert]

theorem read_clearFirst (mem : OrdMap (BitVec 32) (BitVec 32)) (copy : BitVec 1) :
    (backdoorClear cfg (clearFirst cfg copy) (mem, [])).1.read 0 = 0 := by
  have hzero : fromWishbone cfg (toWishbone cfg 0) = 0 := fromWishbone_toWishbone (by decide)
  have hone : fromWishbone cfg (toWishbone cfg 1) = 1 := fromWishbone_toWishbone (by decide)
  simp only [backdoorClear, clearFirst, hzero, hone]
  show (clearWord cfg (mem, []) 0).1.read 0 = 0
  simp [clearWord, OrdMap.read_insert]

/-- A signal that was high already has not risen. -/
theorem rising_high (now : BitVec 1) : rising 1 now = 0 := by
  revert now
  decide

/-- A request that is repeated does something. -/
theorem repeated_of_overlap (BA_SIZE : Nat) (cfg : Config) {l l' : Levels} (h : Overlap l l') :
    ∃ b : Backdoor, (b.copy, b.clear) = l' ∧
      (sensitive cfg ⟨firstOne BA_SIZE, l⟩ b).1.mem ≠ (onRising cfg ⟨firstOne BA_SIZE, l⟩ b).1.mem := by
  have hno : ¬ (0 : BitVec 1) = 1 := by decide
  obtain ⟨c, k⟩ := l
  obtain ⟨c', k'⟩ := l'
  rcases h with ⟨rfl, rfl, hne⟩ | ⟨rfl, rfl, hne⟩
  -- the copy is repeated
  · refine ⟨copyFirst cfg k', rfl, fun heq => ?_⟩
    have hsensitive : sensitive cfg ⟨firstOne BA_SIZE, (1, k)⟩ (copyFirst cfg k')
        = backdoorHandler cfg (firstOne BA_SIZE) (copyFirst cfg k') := if_pos (Or.inr hne)
    have hcopy : (copyFirst cfg k').copy = 1 := rfl
    have hread := congrArg (·.read 1) heq
    simp only [hsensitive, onRising, rising_high, backdoorHandler, if_neg hno] at hread
    rw [backdoorClear_nothing rfl, backdoorClear_nothing rfl, ite_self, ite_self, if_pos hcopy,
      read_copyFirst] at hread
    simp only [firstOne, OrdMap.read_insert] at hread
    revert hread
    decide
  -- the clear is repeated
  · refine ⟨clearFirst cfg c', rfl, fun heq => ?_⟩
    have hsensitive : sensitive cfg ⟨firstOne BA_SIZE, (c, 1)⟩ (clearFirst cfg c')
        = backdoorHandler cfg (firstOne BA_SIZE) (clearFirst cfg c') := if_pos (Or.inl hne)
    have hclear : (clearFirst cfg c').clear = 1 := rfl
    have hread := congrArg (·.read 0) heq
    simp only [hsensitive, onRising, rising_high, backdoorHandler, if_neg hno] at hread
    rw [backdoorCopy_nothing rfl, backdoorCopy_nothing rfl, ite_self, ite_self, if_pos hclear,
      read_clearFirst] at hread
    simp only [firstOne, OrdMap.read_insert] at hread
    revert hread
    decide

/-- **Each request is served once exactly where the requests are apart.** Of a waveform of the requests,
the memory is at every moment what one copy at each rising edge of `backdoor_copy` and one clear at each
rising edge of `backdoor_clear` make of it, for all operands, all memories and whatever happens at the
front door, if and only if neither request changes while the other one stays high. -/
theorem requests_once_iff (A_SIZE BA_SIZE : Nat) (cfg : Config) (l : Levels)
    (w : List (Option Levels)) :
    (∀ (s : State BA_SIZE) (es : List (Event A_SIZE BA_SIZE)), es.map Event.levels = w →
      ∀ pre, pre <+: es →
        ((device A_SIZE cfg).run ⟨s, l⟩ pre).state.mem
          = ((served A_SIZE cfg).run ⟨s, l⟩ pre).state.mem) ↔ Apart l w := by
  constructor
  · intro h
    induction w generalizing l with
    | nil => exact trivial
    | cons o w ih =>
      cases o with
      | none =>
        refine ih l fun s es hes pre hpre => ?_
        exact h s (.command refresh :: es) (congrArg (none :: ·) hes) (.command refresh :: pre)
          ((List.prefix_cons_inj _).mpr hpre)
      | some l' =>
        constructor
        · intro hoverlap
          obtain ⟨b, hb, hne⟩ := repeated_of_overlap BA_SIZE cfg hoverlap
          have hshape : (Event.signals b :: w.map Event.quiet : List (Event A_SIZE BA_SIZE)).map
              Event.levels = some l' :: w := by
            have hquiet : (w.map (@Event.quiet A_SIZE BA_SIZE)).map Event.levels = w := by
              simp [Function.comp_def]
            rw [List.map_cons, hquiet]
            exact congrArg (some · :: w) hb
          exact hne (h (firstOne BA_SIZE) _ hshape [.signals b] (by simp))
        · refine ih l' fun s es hes pre hpre => ?_
          have hquiet := h s (.signals (quiet l') :: es) (congrArg (some l' :: ·) hes)
            (.signals (quiet l') :: pre) ((List.prefix_cons_inj _).mpr hpre)
          have hdevice : ((device A_SIZE cfg).step ⟨s, l⟩ (.signals (quiet l'))).1 = ⟨s, l'⟩ := by
            simp only [device, withBackdoor, sensitive_quiet]
            rfl
          have hserved : ((served A_SIZE cfg).step ⟨s, l⟩ (.signals (quiet l'))).1 = ⟨s, l'⟩ := by
            simp only [served, withBackdoor, onRising_quiet]
            rfl
          rw [Mealy.run_cons, Mealy.run_cons, hdevice, hserved] at hquiet
          exact hquiet
  · rintro h s es rfl pre hpre
    have halong : (device A_SIZE cfg).Along _ ⟨s, l⟩ es := along_of_apart h
    have hrun := ((Mealy.agree_iff_along _ (served A_SIZE cfg) ⟨s, l⟩ es).mpr halong pre hpre).1
    rw [hrun]

/-- The first word is copied to the second, and while `backdoor_copy` stays high the second one is
cleared. When `backdoor_clear` falls again, the copy is back. -/
theorem requests_repeat :
    ¬ ∀ (cfg : Config) (s : State 2) (es : List (Event 12 2)),
      ((device 12 cfg).run ⟨s, (0, 0)⟩ es).state.mem
        = ((served 12 cfg).run ⟨s, (0, 0)⟩ es).state.mem := by
  intro h
  let copying : Backdoor := copyFirst sixteenMiB 0
  let clearing : Backdoor :=
    { copying with clearFrom := toWishbone sixteenMiB 1, clearTo := toWishbone sixteenMiB 2, clear := 1 }
  have hread := congrArg (·.read 1)
    (h sixteenMiB (firstOne 2) [.signals copying, .signals clearing, .signals copying])
  revert hread
  decide

end DeltaModels.Sdram
