import DeltaModels.Flash.QuadRead

/-!
# How many dummy cycles there are

The constructor is told on which clock after the last address nibble the answer begins. The clocks
until then are counted in three places: the address phase spends one before it leaves, it presets the
counter to 2, and the dummy phase counts up before it compares.

The sum is right from three dummy cycles on. With one or two the flash still takes three, since the
address phase and the dummy phase each spend a clock anyway (`honoursDummies_iff`).

All this is seen on the pins: they show 0 until the answer begins, and then the nibbles of whatever image
the flash holds.
-/

namespace DeltaModels.Flash

variable {D : BitVec 32}

/-- The first periods of a quad read, in which the host sends the command and the address. -/
def QuadRead.opening (t : QuadRead D) : List Sample :=
  selected ((List.range 8).map t.cmdSample) ++ selected ((List.range 6).map t.addrSample)

/-- The flash after the opening and some more periods with the chip selected. -/
def QuadRead.after (s : State) (t : QuadRead D) (dqs : List (BitVec 4)) : State :=
  (periods D).run s (t.opening ++ selected dqs)

/-- What a flash that is selected drives at the next rising edge. -/
def driven (D : BitVec 32) (s : State) (dq : BitVec 4) : Option (BitVec 4) :=
  (period D s ⟨0, dq⟩).2.1.dq

/-- A flash with this image, and otherwise as it is. -/
def State.withImage (s : State) (image : OrdMap (BitVec 32) (BitVec 8)) : State :=
  { s with confMemory := image }

/-- The answer begins on clock `d` after the last address nibble, whatever the image is and whatever is on
the pins: clock `d + k` drives nibble `k`, and up to there nothing that is driven depends on the image. -/
structure AnswersOn (d : Nat) (s : State) (t : QuadRead D) : Prop where
  nibble : ∀ image dqs dq, d ≤ dqs.length + 1 → driven D (t.after (s.withImage image) dqs) dq
    = some ((image.read (BitVec.ofNat 32 (2 * t.addr.toNat + (dqs.length + 1 - d)))).setWidth 4)
  before : ∀ image image' dqs dq, dqs.length + 1 < d →
    driven D (t.after (s.withImage image) dqs) dq = driven D (t.after (s.withImage image') dqs) dq

/-- The flash waits for as many dummy cycles as it was constructed with. -/
def HonoursDummies (s : State) (t : QuadRead D) : Prop := AnswersOn D.toNat s t

/-! ## Clock by clock -/

variable {mem : OrdMap (BitVec 32) (BitVec 8)} {a : BitVec 24} {s : State}

/-- The clock on which the answer begins: never before the third. -/
def firstAnswer (D : BitVec 32) : Nat := max 3 D.toNat

/-- Where the flash is `n` clocks after the last address nibble. -/
inductive Reached (D : BitVec 32) (mem : OrdMap (BitVec 32) (BitVec 8)) (a : BitVec 24) (n : Nat)
    (s : State) : Prop where
  | addressed (hn : n = 0) (h : Addressed mem a 6 s)
  | waiting (hn : 0 < n) (hlt : n + 1 < firstAnswer D) (h : Waiting mem a (n + 1) s)
  | serving (hle : firstAnswer D ≤ n + 1) (h : Serving mem a (n + 1 - firstAnswer D) s)

/-- **Step lemma**: one more clock. -/
theorem Reached.next {n : Nat} (h : Reached D mem a n s) (dq : BitVec 4) :
    Reached D mem a (n + 1) (period D s ⟨0, dq⟩).1 := by
  have hD := D.isLt
  cases h with
  | addressed hn h =>
    subst hn
    exact .waiting (by omega) (by rw [firstAnswer]; omega) (waiting_first h dq)
  | waiting hn hlt h =>
    rw [firstAnswer] at hlt
    by_cases hlast : n + 2 < D.toNat
    · exact .waiting (by omega) (by rw [firstAnswer]; omega) (waiting_next h hlast dq)
    · -- the comparison succeeds, and the answer is due on the next clock
      have hfirst : firstAnswer D = n + 1 + 1 := by rw [firstAnswer]; omega
      refine .serving hfirst.le ?_
      rw [hfirst, Nat.sub_self]
      exact serving_first h (by omega) (by omega) dq
  | serving hle h =>
    refine .serving (by omega) ?_
    rw [Nat.sub_add_comm hle]
    exact (serving_next h dq).1

/-- **Run lemma**: after the opening, clock by clock, as long as the chip stays selected. -/
theorem reached_after (h : s.phase = .idlePhase) (t : QuadRead D) (dqs : List (BitVec 4)) :
    Reached D s.confMemory t.addr dqs.length (t.after s dqs) := by
  induction dqs using List.reverseRecOn with
  | nil =>
    have hopening : t.after s [] = (periods D).run ((periods D).run s
        (selected ((List.range 8).map t.cmdSample))) (selected ((List.range 6).map t.addrSample)) := by
      have hnil : selected [] = [] := rfl
      rw [QuadRead.after, QuadRead.opening, hnil, List.append_nil, Mealy.run_append]
    rw [hopening]
    exact .addressed rfl (run_address (run_command h t) t)
  | append_singleton dqs dq ih =>
    have hnext : t.after s (dqs ++ [dq]) = (period D (t.after s dqs) ⟨0, dq⟩).1 := by
      rw [QuadRead.after, QuadRead.after, Mealy.run_append, Mealy.run_append, run_selected_concat]
    rw [hnext, List.length_append, List.length_singleton]
    exact ih.next dq

/-- Before the answer the pins show 0. -/
theorem Reached.driven_eq_zero {n : Nat} (h : Reached D mem a n s) (hn : n + 1 < firstAnswer D)
    (dq : BitVec 4) : driven D s dq = some 0 := by
  cases h with
  | addressed _ h =>
    have hcnt : ¬ BitVec.ofNat 32 6 < BitVec.ofNat 32 (24 / 4) := by decide
    simp only [driven, period, flashHandler, h.phase, h.cnt, if_neg hcnt]
  | waiting _ _ h =>
    simp only [driven, period, flashHandler, h.phase]
    split <;> rfl
  | serving hle => exact absurd hn (Nat.not_lt.mpr hle)

/-- **When the answer begins**: with the third clock, if it is not told to wait longer. -/
theorem answersOn_firstAnswer (h : s.phase = .idlePhase) (t : QuadRead D) :
    AnswersOn (firstAnswer D) s t where
  nibble image dqs dq hle := by
    cases reached_after (s := s.withImage image) h t dqs with
    | addressed hn =>
      rw [hn, firstAnswer] at hle
      omega
    | waiting _ hlt => omega
    | serving _ hserve => exact (serving_next hserve dq).2.1
  before image image' dqs dq hlt :=
    ((reached_after (s := s.withImage image) h t dqs).driven_eq_zero hlt dq).trans
      ((reached_after (s := s.withImage image') h t dqs).driven_eq_zero hlt dq).symm

/-- An image with one nibble. -/
def imageAt (key : BitVec 32) (nibble : BitVec 8) : OrdMap (BitVec 32) (BitVec 8) :=
  (∅ : OrdMap (BitVec 32) (BitVec 8)).insert key nibble

theorem read_imageAt (key : BitVec 32) (nibble : BitVec 8) : (imageAt key nibble).read key = nibble := by
  rw [imageAt, OrdMap.read_insert, if_pos rfl]

/-- **When the dummy cycles are honoured**: if there are at least three of them. -/
theorem honoursDummies_iff (h : s.phase = .idlePhase) (t : QuadRead D) :
    HonoursDummies s t ↔ 3 ≤ D.toNat := by
  constructor
  · intro hdummies
    by_contra hlt
    -- an image whose nibble is due on the second clock, where 0 is shown
    let key := BitVec.ofNat 32 (2 * t.addr.toNat + (2 - D.toNat))
    have hdue : driven D (t.after (s.withImage (imageAt key 1)) [0]) 0
        = some (((imageAt key 1).read key).setWidth 4) :=
      hdummies.nibble (imageAt key 1) [0] 0 (by simp; omega)
    have hshown := (reached_after (s := s.withImage (imageAt key 1)) h t [0]).driven_eq_zero
      (show 2 < firstAnswer D by rw [firstAnswer]; omega) 0
    rw [hshown, read_imageAt] at hdue
    cases hdue
  · intro hle
    have hD : firstAnswer D = D.toNat := Nat.max_eq_right hle
    have hfirst := answersOn_firstAnswer h t
    rwa [hD] at hfirst

/-- A read of one nibble from the byte address `0x123456`, with eleven dummy cycles. -/
def readEleven : QuadRead 11 := ⟨0x123456, fun _ => 0, List.replicate 10 0, [], [0], rfl, by decide⟩

/-- With eleven dummy cycles the first nibble comes on the eleventh clock. -/
theorem honoursDummies_eleven :
    driven 11 (readEleven.after ((State.fresh 0 0 0).withImage (imageAt 0x2468ac 0xa))
      (List.replicate 10 0)) 0 = some 0xa := by
  have hdummies : HonoursDummies (State.fresh 0 0 0) readEleven :=
    (honoursDummies_iff rfl _).mpr (by decide)
  have hnibble : driven 11 (readEleven.after ((State.fresh 0 0 0).withImage (imageAt 0x2468ac 0xa))
      (List.replicate 10 0)) 0 = some (((imageAt 0x2468ac 0xa).read 0x2468ac).setWidth 4) :=
    hdummies.nibble _ _ _ (by decide)
  rw [hnibble, read_imageAt]
  rfl

/-- With one it does not come on the first, where the pins show 0. -/
theorem honoursDummies_not_one :
    ¬ ∀ (D : BitVec 32) (s : State), 1 ≤ D.toNat → s.phase = .idlePhase →
      ∀ t : QuadRead D, HonoursDummies s t := by
  intro h
  let t : QuadRead 1 := ⟨0, fun _ => 0, [0, 0], [], [0], rfl, by decide⟩
  have hdue : driven 1 (t.after ((State.fresh 0 0 0).withImage (imageAt 0 0xa)) []) 0
      = some (((imageAt 0 0xa).read 0).setWidth 4) :=
    (h 1 (State.fresh 0 0 0) (by decide) rfl t).nibble (imageAt 0 0xa) [] 0 (by decide)
  have hshown : driven 1 (t.after ((State.fresh 0 0 0).withImage (imageAt 0 0xa)) []) 0 = some 0 :=
    (reached_after rfl t []).driven_eq_zero (by decide) 0
  rw [hshown, read_imageAt] at hdue
  cases hdue

end DeltaModels.Flash
