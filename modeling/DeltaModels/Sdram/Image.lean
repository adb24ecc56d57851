import DeltaModels.Library.Lanes
import DeltaModels.Library.Patch
import DeltaModels.Sdram.Basic
import Mathlib.Data.List.OfFn
import Mathlib.Data.List.Range
import Mathlib.Data.Fin.Rev

/-!
# Loading an image

`configure_region` reads a file from `first_byte` on into a buffer and stores it word by word. Bytes are
only moved on the way, so the loader is written for bytes of any type, and what it does to bytes it does
to everything that stands for them (`regionWords_map`).

`stored_loadWords` says what is stored for a buffer: each of its bytes once, in some order, and in the
last word what the variable `val` still holds of the word before.
-/

namespace DeltaModels.Sdram

variable {α β : Type}

/-! ## The loader -/

/-- The bytes of a `uint32_t` in the order of the memory of a little-endian host. -/
abbrev Bytes (α : Type) := Fin 4 → α

/-- The number that these bytes are. -/
def toWord (v : Bytes (BitVec 8)) : BitVec 32 := Lanes.pack fun i => v (Fin.ofNat 4 i)

/-- `__bswap_32`. -/
def bswap (v : Bytes α) : Bytes α := fun i => v i.rev

/-- `memcpy(&val, src, n)`: the bytes from the `n`-th one on stay. -/
def memcpy (val : Bytes α) (src : Nat → α) (n : Nat) : Bytes α :=
  fun i => if i.val < n then src i else val i

/-- The variable `val`, and the words stored so far, in the order of their addresses. -/
structure Loader (α : Type) where
  val : Bytes α
  words : List (Bytes α)

/-- One round of the loop. -/
def loadWord (msb : Bool) (buffer : Nat → α) (s : Loader α) (i : Nat) : Loader α :=
  let val := memcpy s.val (fun j => buffer (i + j)) 4
  { val := val
    words := s.words ++ [if msb then val else bswap val] }

/-- The words that are stored for a buffer of a length. -/
def loadWords (zero : α) (buffer : Nat → α) (length : Nat) (msb : Bool) : List (Bytes α) :=
  let rem := length % 4
  let s := (List.range (length / 4)).foldl (fun s k => loadWord msb buffer s (4 * k))
    { val := fun _ => zero, words := [] }
  -- the last bytes go into what is left of the word before
  if rem ≠ 0 then s.words ++ [memcpy s.val (fun j => buffer (length - rem + j)) rem] else s.words

/-- The words that are stored for a file, unless `new char[length]` throws. `unread` are the bytes that
the buffer holds before anything is read into it. -/
def regionWords (zero : α) (file : List α) (unread : Nat → α) (firstByte : BitVec 32) (msb : Bool) :
    Option (List (Bytes α)) :=
  -- `seekg(first_byte, is.end)`, and `tellg()` cut down to an `int`
  let length := (BitVec.ofNat 32 (file.length + firstByte.toNat)).toInt
  let buffer := fun k => (file[firstByte.toNat + k]?).getD (unread k)
  if length < 0 then none else some (loadWords zero buffer length.toNat msb)

/-- The stores at consecutive addresses. -/
def storeWords (mem : OrdMap (BitVec 32) (BitVec 32)) (confAddr : BitVec 32) :
    List (BitVec 32) → OrdMap (BitVec 32) (BitVec 32)
  | [] => mem
  | w :: ws => storeWords (mem.insert confAddr w) (confAddr + 1) ws

/-- `GENERIC_SDRAM::configure_region` on the contents of the file, `none` if it cannot be opened. There
is no result if the allocation throws. -/
def configureRegion (mem : OrdMap (BitVec 32) (BitVec 32)) (confFile : Option (List (BitVec 8)))
    (confAddr firstByte : BitVec 32) (msb : Bool) (unread : Nat → BitVec 8) :
    Option (OrdMap (BitVec 32) (BitVec 32)) :=
  match confFile with
  | none => some mem
  | some bytes =>
    (regionWords 0 bytes unread firstByte msb).map fun ws =>
      storeWords mem (confAddr >>> 2) (ws.map toWord)

/-- The key of the first word. -/
theorem toNat_confAddr (confAddr : BitVec 32) : (confAddr >>> 2).toNat = confAddr.toNat / 4 := by
  rw [BitVec.toNat_ushiftRight, Nat.shiftRight_eq_div_pow]

/-! ## What is stored -/

/-- The word of the buffer that round `k` reads. -/
def wordOf (buffer : Nat → α) (k : Nat) : Bytes α := fun i => buffer (4 * k + i)

/-- The value of `val` after `q` rounds. -/
def lastVal (zero : α) (buffer : Nat → α) : Nat → Bytes α
  | 0 => fun _ => zero
  | q + 1 => wordOf buffer q

theorem loadLoop_eq (zero : α) (buffer : Nat → α) (msb : Bool) (q : Nat) :
    (List.range q).foldl (fun s k => loadWord msb buffer s (4 * k))
        { val := fun _ => zero, words := [] }
      = { val := lastVal zero buffer q
          words := (List.range q).map fun k =>
            if msb then wordOf buffer k else bswap (wordOf buffer k) } := by
  induction q with
  | zero => rfl
  | succ q ih =>
    have hval : memcpy (lastVal zero buffer q) (fun j => buffer (4 * q + j)) 4 = wordOf buffer q := by
      funext i
      exact if_pos i.isLt
    rw [List.range_succ, List.foldl_append, ih, List.foldl_cons, List.foldl_nil, loadWord, hval,
      List.map_append, List.map_singleton]
    rfl

/-- All bytes of the stored words, each word from its lowest byte on. -/
def stored (ws : List (Bytes α)) : List α := ws.flatMap List.ofFn

/-- What the last word holds besides the last bytes. -/
def padding (zero : α) (buffer : Nat → α) (length : Nat) : List α :=
  if length % 4 ≠ 0 then (List.ofFn (lastVal zero buffer (length / 4))).drop (length % 4) else []

/-- The words of the buffer, one after the other. -/
theorem flatMap_wordOf (buffer : Nat → α) (q : Nat) :
    (List.range q).flatMap (fun k => List.ofFn (wordOf buffer k)) = (List.range (4 * q)).map buffer := by
  induction q with
  | zero => rfl
  | succ q ih =>
    have hrange : List.range (4 * (q + 1))
        = List.range (4 * q) ++ [4 * q, 4 * q + 1, 4 * q + 2, 4 * q + 3] := by
      have hfour : 4 * (q + 1) = 4 * q + 1 + 1 + 1 + 1 := by omega
      rw [hfour]
      simp [List.range_succ]
    rw [List.range_succ, List.flatMap_append, ih, hrange, List.map_append]
    simp [List.ofFn_succ, wordOf]

theorem ofFn_bswap (v : Bytes α) : List.ofFn (bswap v) = (List.ofFn v).reverse := by
  simp [List.ofFn_succ, bswap, Fin.rev]

/-- The words of the loop hold its part of the buffer. -/
theorem stored_loop_perm (buffer : Nat → α) (msb : Bool) (q : Nat) :
    (stored ((List.range q).map fun k =>
      if msb then wordOf buffer k else bswap (wordOf buffer k))).Perm
        ((List.range (4 * q)).map buffer) := by
  rw [stored, List.flatMap_map, ← flatMap_wordOf]
  refine List.Perm.flatMap_left _ fun k _ => ?_
  cases msb with
  | true => exact List.Perm.refl _
  | false =>
    show (List.ofFn (bswap (wordOf buffer k))).Perm _
    rw [ofFn_bswap]
    exact List.reverse_perm _

/-- The last bytes, and behind them what was there. -/
theorem ofFn_memcpy (val : Bytes α) (src : Nat → α) {n : Nat} (hn : n ≤ 4) :
    List.ofFn (memcpy val src n) = (List.range n).map src ++ (List.ofFn val).drop n := by
  interval_cases n <;> simp [List.ofFn_succ, memcpy, List.range_succ]

/-- The stored words: those of the loop, and one more for the last bytes. -/
theorem loadWords_eq (zero : α) (buffer : Nat → α) (length : Nat) (msb : Bool) :
    loadWords zero buffer length msb
      = ((List.range (length / 4)).map fun k =>
          if msb then wordOf buffer k else bswap (wordOf buffer k))
        ++ if length % 4 ≠ 0 then
            [memcpy (lastVal zero buffer (length / 4)) (fun j => buffer (length - length % 4 + j))
              (length % 4)]
          else [] := by
  simp only [loadWords, loadLoop_eq]
  split
  · rfl
  · rw [List.append_nil]

theorem length_loadWords (zero : α) (buffer : Nat → α) (length : Nat) (msb : Bool) :
    (loadWords zero buffer length msb).length = (length + 3) / 4 := by
  rw [loadWords_eq, List.length_append, List.length_map, List.length_range]
  split
  · rw [List.length_singleton]
    omega
  · rw [List.length_nil]
    omega

/-- **What is stored**: each byte of the buffer once, and the padding. -/
theorem stored_loadWords (zero : α) (buffer : Nat → α) (length : Nat) (msb : Bool) :
    ∃ main, stored (loadWords zero buffer length msb) = main ++ padding zero buffer length ∧
      main.Perm ((List.range length).map buffer) := by
  have hloop := stored_loop_perm buffer msb (length / 4)
  rw [loadWords_eq, padding]
  by_cases hrem : length % 4 ≠ 0
  · rw [if_pos hrem, if_pos hrem]
    refine ⟨_ ++ (List.range (length % 4)).map fun j => buffer (length - length % 4 + j), ?_,
      hloop.append_right _ |>.trans ?_⟩
    · rw [stored, List.flatMap_append, List.flatMap_singleton, ofFn_memcpy _ _ (by omega),
        ← List.append_assoc]
      rfl
    · have hsplit : length = 4 * (length / 4) + length % 4 := (Nat.div_add_mod length 4).symm
      have hstart : length - length % 4 = 4 * (length / 4) := by omega
      rw [hstart]
      conv_rhs => rw [hsplit, List.range_add, List.map_append, List.map_map]
      exact List.Perm.refl _
  · rw [if_neg hrem, if_neg hrem, List.append_nil]
    have hsplit : 4 * (length / 4) = length := by omega
    rw [hsplit] at hloop
    exact ⟨_, (List.append_nil _).symm, hloop⟩

/-- The buffer's bytes are stored first. -/
theorem take_stored (zero : α) (buffer : Nat → α) (length : Nat) (msb : Bool) :
    ((stored (loadWords zero buffer length msb)).take length).Perm
      ((List.range length).map buffer) := by
  obtain ⟨main, hstored, hmain⟩ := stored_loadWords zero buffer length msb
  have hlength : main.length = length := by
    rw [hmain.length_eq, List.length_map, List.length_range]
  rwa [hstored, List.take_left' hlength]

theorem drop_stored (zero : α) (buffer : Nat → α) (length : Nat) (msb : Bool) :
    (stored (loadWords zero buffer length msb)).drop length = padding zero buffer length := by
  obtain ⟨main, hstored, hmain⟩ := stored_loadWords zero buffer length msb
  have hlength : main.length = length := by
    rw [hmain.length_eq, List.length_map, List.length_range]
  rw [hstored, List.drop_left' hlength]

theorem mem_drop_ofFn {v : Bytes α} {r : Nat} {x : α} :
    x ∈ (List.ofFn v).drop r ↔ ∃ i : Fin 4, r ≤ i ∧ x = v i := by
  constructor
  · intro hx
    obtain ⟨j, hj, rfl⟩ := List.mem_iff_getElem.mp hx
    rw [List.length_drop, List.length_ofFn] at hj
    refine ⟨⟨r + j, by omega⟩, Nat.le_add_right r j, ?_⟩
    rw [List.getElem_drop, List.getElem_ofFn]
  · rintro ⟨i, hle, rfl⟩
    refine List.mem_iff_getElem?.mpr ⟨i - r, ?_⟩
    rw [List.getElem?_drop, Nat.add_sub_cancel' hle, List.getElem?_ofFn, dif_pos i.isLt]

/-- The padding: zeros if `val` is new, and otherwise the bytes of the last word of the loop that are
among the last four of the buffer. -/
theorem mem_padding_iff {zero x : α} {buffer : Nat → α} {length : Nat} :
    x ∈ padding zero buffer length ↔ length % 4 ≠ 0 ∧
      ((length < 4 ∧ x = zero) ∨ ∃ k < 4 * (length / 4), length - 4 ≤ k ∧ x = buffer k) := by
  unfold padding
  split
  · next hrem =>
    rw [mem_drop_ofFn, and_iff_right hrem]
    cases hq : length / 4 with
    | zero =>
      constructor
      · rintro ⟨i, -, rfl⟩
        exact .inl ⟨by omega, rfl⟩
      · rintro (⟨-, rfl⟩ | ⟨k, hk, -⟩)
        · exact ⟨3, Nat.le_of_lt_succ (Nat.mod_lt length (by decide)), rfl⟩
        · omega
    | succ q =>
      constructor
      · rintro ⟨i, hi, rfl⟩
        have hlt := i.isLt
        exact .inr ⟨4 * q + i, by omega, by omega, rfl⟩
      · rintro (⟨hshort, -⟩ | ⟨k, hk, hle, rfl⟩)
        · omega
        · refine ⟨⟨k - 4 * q, by omega⟩, ?_, ?_⟩
          · show length % 4 ≤ k - 4 * q
            omega
          · show buffer k = buffer (4 * q + (k - 4 * q))
            rw [Nat.add_sub_cancel' (by omega)]
  · next hrem => exact iff_of_false List.not_mem_nil fun h => hrem h.1

/-- The padding comes from the buffer, too, unless `val` is new. -/
theorem mem_padding {zero x : α} {buffer : Nat → α} {length : Nat}
    (hx : x ∈ padding zero buffer length) : x = zero ∨ ∃ k < length, x = buffer k := by
  obtain ⟨-, ⟨-, hzero⟩ | ⟨k, hk, -, hbyte⟩⟩ := mem_padding_iff.mp hx
  · exact .inl hzero
  · exact .inr ⟨k, by omega, hbyte⟩

/-- What is stored is an initial 0 or a byte of the buffer. -/
theorem mem_stored {zero x : α} {buffer : Nat → α} {length : Nat} {msb : Bool}
    (hx : x ∈ stored (loadWords zero buffer length msb)) : x = zero ∨ ∃ k < length, x = buffer k := by
  obtain ⟨main, hstored, hmain⟩ := stored_loadWords zero buffer length msb
  rw [hstored] at hx
  rcases List.mem_append.mp hx with hx | hx
  · obtain ⟨k, hk, rfl⟩ := List.mem_map.mp (hmain.mem_iff.mp hx)
    exact Or.inr ⟨k, List.mem_range.mp hk, rfl⟩
  · exact mem_padding hx

/-- Every byte of the buffer is stored. -/
theorem buffer_mem_stored (zero : α) (buffer : Nat → α) {k length : Nat} (msb : Bool) (hk : k < length) :
    buffer k ∈ stored (loadWords zero buffer length msb) := by
  obtain ⟨main, hstored, hmain⟩ := stored_loadWords zero buffer length msb
  rw [hstored]
  exact List.mem_append_left _ (hmain.mem_iff.mpr (List.mem_map_of_mem (List.mem_range.mpr hk)))

/-- The loader moves bytes and does not look at them. -/
theorem loadWords_map (g : α → β) (zero : α) (buffer : Nat → α) (length : Nat) (msb : Bool) :
    loadWords (g zero) (g ∘ buffer) length msb
      = (loadWords zero buffer length msb).map (g ∘ ·) := by
  have hword : ∀ k, (if msb then wordOf (g ∘ buffer) k else bswap (wordOf (g ∘ buffer) k))
      = g ∘ if msb then wordOf buffer k else bswap (wordOf buffer k) := by
    intro k
    cases msb <;> rfl
  have hlast : ∀ q, lastVal (g zero) (g ∘ buffer) q = g ∘ lastVal zero buffer q := by
    intro q
    cases q <;> rfl
  have hcopy : ∀ (val : Bytes α) (src : Nat → α) (n : Nat),
      memcpy (g ∘ val) (g ∘ src) n = g ∘ memcpy val src n := by
    intro val src n
    funext i
    exact (apply_ite g _ _ _).symm
  rw [loadWords_eq, loadWords_eq, List.map_append, List.map_map]
  congr 1
  · exact List.map_congr_left fun k _ => hword k
  · split
    · rw [hlast, List.map_singleton, ← hcopy]
      rfl
    · rfl

theorem regionWords_map (g : α → β) (zero : α) (file : List α) (unread : Nat → α)
    (firstByte : BitVec 32) (msb : Bool) :
    regionWords (g zero) (file.map g) (g ∘ unread) firstByte msb
      = (regionWords zero file unread firstByte msb).map (List.map (g ∘ ·)) := by
  have hbuffer : (fun k => ((file.map g)[firstByte.toNat + k]?).getD ((g ∘ unread) k))
      = g ∘ fun k => (file[firstByte.toNat + k]?).getD (unread k) := by
    funext k
    rw [List.getElem?_map, Function.comp_apply, Function.comp_apply]
    cases file[firstByte.toNat + k]? <;> rfl
  simp only [regionWords, List.length_map, hbuffer, loadWords_map]
  split <;> rfl

/-- **The stores change consecutive words**, and no others. -/
theorem getElem?_storeWords (mem : OrdMap (BitVec 32) (BitVec 32)) {a : BitVec 32}
    {ws : List (BitVec 32)} (hfit : a.toNat + ws.length < 2 ^ 32) (k : BitVec 32) :
    (storeWords mem a ws)[k]? = (Patch.span a.toNat ws k.toNat).or mem[k]? := by
  induction ws generalizing mem a with
  | nil => simp [storeWords, Patch.span]
  | cons w ws ih =>
    rw [List.length_cons] at hfit
    have hnext : (a + 1).toNat = a.toNat + 1 := by
      have hone : (1 : BitVec 32).toNat = 1 := rfl
      rw [BitVec.toNat_add, hone]
      omega
    have hcompare : compare a k = .eq ↔ a = k := Std.LawfulEqOrd.compare_eq_iff_eq
    rw [storeWords, ih _ (by omega), hnext, Patch.span_cons, Std.ExtTreeMap.getElem?_insert]
    by_cases hk : k = a
    · have hnone : Patch.span (a.toNat + 1) ws k.toNat = none := if_neg (by rw [hk]; omega)
      rw [hnone, if_pos (hcompare.mpr hk.symm), if_pos (congrArg BitVec.toNat hk)]
      rfl
    · have hnat : k.toNat ≠ a.toNat := fun h => hk (BitVec.eq_of_toNat_eq h)
      rw [if_neg (mt hcompare.mp (Ne.symm hk)), if_neg hnat]

end DeltaModels.Sdram
