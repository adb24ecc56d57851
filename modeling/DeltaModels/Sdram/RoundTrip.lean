import DeltaModels.Sdram.Hexdump
import DeltaModels.Sdram.Image

/-!
# Loading an image and dumping it

The words of an image are dumped at the addresses they were loaded to, so the dump lists bytes, and the
question is which ones. The words of the loop are swapped on their way in, the last one is not: its bytes
are listed in reverse, with what was left in `val` in front of them. That the file is listed all the same
is a matter of its last bytes: `configureRegion_hexdump_iff`.
-/

namespace DeltaModels.Sdram

/-! ## Reverse and pad -/

/-- A list and its tail that read backwards like the list, padded. -/
theorem reverse_append_eq_iff {α : Type*} {z : α} {t s : List α} :
    (t ++ s).reverse = t ++ List.replicate s.length z ↔
      (∀ b ∈ s, b = z) ∧
        (t ++ List.replicate s.length z).reverse = t ++ List.replicate s.length z := by
  have hpadded : (∀ b ∈ s, b = z) → t ++ List.replicate s.length z = t ++ s := fun hs =>
    congrArg (t ++ ·) (List.eq_replicate_of_mem hs).symm
  constructor
  · intro h
    have hfront : t ++ s = List.replicate s.length z ++ t.reverse := by
      have := congrArg List.reverse h
      rwa [List.reverse_reverse, List.reverse_append, List.reverse_replicate] at this
    have hs : ∀ b ∈ s, b = z := by
      intro b hb
      obtain ⟨i, hi, rfl⟩ := List.mem_iff_getElem.mp (List.mem_reverse.mpr hb)
      rw [List.length_reverse] at hi
      -- backwards `s` is the front of the padded list, and that is `z`
      have hpad : (t ++ List.replicate s.length z)[i]? = some s.reverse[i] := by
        rw [← h, List.reverse_append, List.getElem?_append_left (by simpa using hi)]
        exact List.getElem?_eq_getElem _
      have hz : (t ++ s)[i]? = some z := by
        rw [hfront, List.getElem?_append_left (by simpa using hi)]
        simp [hi]
      by_cases hit : i < t.length
      · rw [List.getElem?_append_left hit] at hpad hz
        exact Option.some.inj (hpad.symm.trans hz)
      · rw [List.getElem?_append_right (by omega), List.getElem?_replicate, if_pos (by omega)] at hpad
        exact (Option.some.inj hpad).symm
    refine ⟨hs, ?_⟩
    rw [hpadded hs]
    exact h.trans (hpadded hs)
  · rintro ⟨hs, h⟩
    rw [hpadded hs] at h ⊢
    exact h

/-! ## What is listed -/

/-- The bytes that a dump lists, each with its address. -/
def dumpBytes (text : List Char) : Option (List (BitVec 8 × Nat)) :=
  (readDump text).map fun es => es.flatMap fun (key, word) => (bytesOf word).zipIdx (4 * key.toNat)

theorem sorted_entries {key : Nat} {ws : List (BitVec 32)} (hfit : key + ws.length < 2 ^ 32) :
    OrdMap.Sorted (entries key ws) := by
  rw [OrdMap.Sorted, List.pairwise_iff_getElem]
  intro i j hi hj hij
  have hlength : (entries key ws).length = ws.length := by simp [entries]
  simp only [entries, List.getElem_map, List.getElem_zipIdx, BitVec.toNat_ofNat]
  omega

theorem mem_entries {key : Nat} {ws : List (BitVec 32)} (hfit : key + ws.length < 2 ^ 32)
    (k v : BitVec 32) : (k, v) ∈ entries key ws ↔ Patch.span key ws k.toNat = some v := by
  have hbound := k.isLt
  simp only [entries, List.mem_map, Prod.exists, Prod.mk.injEq, List.mk_mem_zipIdx_iff_getElem?,
    Patch.span]
  constructor
  · rintro ⟨w, i, hw, rfl, rfl⟩
    have hi : i < ws.length := (List.getElem?_eq_some_iff.mp hw).1
    have hkey : (BitVec.ofNat 32 (key + i)).toNat = key + i := by
      rw [BitVec.toNat_ofNat, Nat.mod_eq_of_lt (by omega)]
    rw [hkey, if_pos (by omega), Nat.add_sub_cancel_left, hw]
  · intro h
    split at h
    · next hle =>
      refine ⟨v, k.toNat - key, h, ?_, rfl⟩
      rw [Nat.add_sub_cancel' hle, BitVec.ofNat_toNat, BitVec.setWidth_eq]
    · cases h

/-- The words stored in an empty memory are what is in it. -/
theorem toList_storeWords {a : BitVec 32} {ws : List (BitVec 32)} (hfit : a.toNat + ws.length < 2 ^ 32) :
    (storeWords ∅ a ws).toList = entries a.toNat ws := by
  refine OrdMap.toList_eq (sorted_entries hfit) fun k v => ?_
  rw [mem_entries hfit, getElem?_storeWords ∅ hfit, Std.ExtTreeMap.getElem?_empty, Option.or_none]

theorem flatMap_entries {key : Nat} {ws : List (BitVec 32)} (hfit : key + ws.length < 2 ^ 32) :
    ((entries key ws).flatMap fun e => (bytesOf e.2).zipIdx (4 * e.1.toNat))
      = (ws.flatMap bytesOf).zipIdx (4 * key) := by
  induction ws using List.reverseRecOn with
  | nil => rfl
  | append_singleton ws w ih =>
    rw [List.length_append, List.length_singleton] at hfit
    have hkey : (BitVec.ofNat 32 (key + ws.length)).toNat = key + ws.length := by
      rw [BitVec.toNat_ofNat, Nat.mod_eq_of_lt (by omega)]
    have hlength : (ws.flatMap bytesOf).length = 4 * ws.length := by
      simp [List.length_flatMap, bytesOf, Nat.mul_comm]
    rw [entries_concat, List.flatMap_append, ih (by omega), List.flatMap_append, List.zipIdx_append,
      hlength, List.flatMap_singleton, List.flatMap_singleton, hkey, Nat.mul_add]

/-- **The dump of stored words** lists their bytes, from the address of the first word upward. -/
theorem dumpBytes_storeWords {a : BitVec 32} {ws : List (BitVec 32)}
    (hfit : a.toNat + ws.length ≤ 2 ^ 30) :
    dumpBytes (hexdump (storeWords ∅ a ws)) = some ((ws.flatMap bytesOf).zipIdx (4 * a.toNat)) := by
  have hlist : (storeWords ∅ a ws).toList = entries a.toNat ws := toList_storeWords (by omega)
  have hkeys : ∀ e ∈ (storeWords ∅ a ws).toList, e.1.toNat < 2 ^ 30 := by
    rintro ⟨k, v⟩ he
    rw [hlist, mem_entries (by omega)] at he
    simp only [Patch.span] at he
    split at he
    · have := (List.getElem?_eq_some_iff.mp he).1
      show k.toNat < 2 ^ 30
      omega
    · cases he
  rw [dumpBytes, readDump_eq hkeys, hlist, Option.map_some, ← flatMap_entries (by omega)]

/-! ## Which bytes are stored -/

/-- A word is listed from its highest byte on. -/
theorem bytesOf_toWord (v : Bytes (BitVec 8)) : bytesOf (toWord v) = (List.ofFn v).reverse := by
  simp [bytesOf, toWord, Lanes.lane_pack, List.ofFn_succ, Fin.ofNat]

/-- The bytes of an image as they are listed: those of the loop in order, and the last word backwards. -/
theorem listed_loadWords {α : Type} (zero : α) (buffer : Nat → α) (length : Nat) :
    (loadWords zero buffer length false).flatMap (fun v => (List.ofFn v).reverse)
      = (List.range (4 * (length / 4))).map buffer
        ++ ((List.range (length % 4)).map (fun j => buffer (4 * (length / 4) + j))
          ++ padding zero buffer length).reverse := by
  have hloop : ((List.range (length / 4)).map fun k => bswap (wordOf buffer k)).flatMap
      (fun v => (List.ofFn v).reverse) = (List.range (4 * (length / 4))).map buffer := by
    rw [List.flatMap_map, ← flatMap_wordOf]
    simp only [ofFn_bswap, List.reverse_reverse]
  have hstart : length - length % 4 = 4 * (length / 4) := by omega
  simp only [loadWords_eq, Bool.false_eq_true, if_false, List.flatMap_append, hloop, padding, hstart]
  congr 1
  split
  · rw [List.flatMap_singleton, ofFn_memcpy _ _ (by omega)]
  · next h => simp [not_not.mp h]

theorem length_padding {α : Type} (zero : α) (buffer : Nat → α) (length : Nat) :
    (padding zero buffer length).length = (4 - length % 4) % 4 := by
  unfold padding
  split
  · rw [List.length_drop, List.length_ofFn]
    omega
  · next h => simp [not_not.mp h]

/-! ## Loading and dumping -/

variable {bytes : List (BitVec 8)} {confAddr : BitVec 32} {unread : Nat → BitVec 8}

/-- The zeros that fill up the last word. -/
def blank (bytes : List (BitVec 8)) : List (BitVec 8) :=
  List.replicate ((4 - bytes.length % 4) % 4) 0

/-- An image that is loaded to an empty memory and dumped is listed from `conf_addr` upward, byte by byte
and with zeros behind its end up to the end of the last word. -/
def RoundTrips (bytes : List (BitVec 8)) (confAddr : BitVec 32) (unread : Nat → BitVec 8) : Prop :=
  ∃ mem, configureRegion ∅ (some bytes) confAddr 0 false unread = some mem ∧
    dumpBytes (hexdump mem) = some ((bytes ++ blank bytes).zipIdx confAddr.toNat)

/-- The bytes behind the last full word. -/
def lastBytes (bytes : List (BitVec 8)) : List (BitVec 8) := bytes.drop (4 * (bytes.length / 4))

/-- Those of the last four bytes that are in the last full word. -/
def staleBytes (bytes : List (BitVec 8)) : List (BitVec 8) :=
  (bytes.take (4 * (bytes.length / 4))).drop (bytes.length - 4)

/-- There are no bytes behind the last full word, or they read the same backwards when zeros are added,
and what the last full word leaves behind is 0. -/
def SymmetricEnd (bytes : List (BitVec 8)) : Prop :=
  bytes.length % 4 = 0 ∨
    (∀ b ∈ staleBytes bytes, b = 0) ∧
      (lastBytes bytes ++ blank bytes).reverse = lastBytes bytes ++ blank bytes

/-- The buffer after the whole file was read. -/
def fileBuffer (bytes : List (BitVec 8)) (unread : Nat → BitVec 8) (k : Nat) : BitVec 8 :=
  bytes[k]?.getD (unread k)

theorem map_fileBuffer (unread : Nat → BitVec 8) {n : Nat} (hn : n ≤ bytes.length) :
    (List.range n).map (fileBuffer bytes unread) = bytes.take n := by
  refine List.ext_getElem (by simp [hn]) fun k hk _ => ?_
  have hk' : k < bytes.length := by
    rw [List.length_map, List.length_range] at hk
    omega
  simp [fileBuffer, hk']

theorem map_fileBuffer_last :
    (List.range (bytes.length % 4)).map
        (fun j => fileBuffer bytes unread (4 * (bytes.length / 4) + j)) = lastBytes bytes := by
  unfold lastBytes
  refine List.ext_getElem (by simp; omega) fun k hk _ => ?_
  have hk' : 4 * (bytes.length / 4) + k < bytes.length := by
    rw [List.length_map, List.length_range] at hk
    omega
  simp [fileBuffer, hk']

theorem mem_staleBytes {b : BitVec 8} :
    b ∈ staleBytes bytes ↔ ∃ k < 4 * (bytes.length / 4), bytes.length - 4 ≤ k ∧
      b = fileBuffer bytes unread k := by
  constructor
  · intro hb
    obtain ⟨j, hj, rfl⟩ := List.mem_iff_getElem.mp hb
    rw [staleBytes, List.length_drop, List.length_take] at hj
    refine ⟨bytes.length - 4 + j, by omega, Nat.le_add_right _ j, ?_⟩
    have hk : bytes.length - 4 + j < bytes.length := by omega
    simp [staleBytes, fileBuffer, hk]
  · rintro ⟨k, hk, hle, rfl⟩
    have hlt : k < bytes.length := by omega
    refine List.mem_iff_getElem?.mpr ⟨k - (bytes.length - 4), ?_⟩
    rw [staleBytes, List.getElem?_drop, Nat.add_sub_cancel' hle, List.getElem?_take_of_lt hk]
    simp [fileBuffer, hlt]

/-- What the last word holds behind the last bytes is 0 exactly if the last full word leaves 0 there. -/
theorem padding_blank_iff (hrem : bytes.length % 4 ≠ 0) :
    (∀ b ∈ padding 0 (fileBuffer bytes unread) bytes.length, b = 0) ↔ ∀ b ∈ staleBytes bytes, b = 0 := by
  constructor
  · intro h b hb
    exact h b (mem_padding_iff.mpr ⟨hrem, .inr (mem_staleBytes.mp hb)⟩)
  · intro h b hb
    obtain ⟨-, ⟨-, hzero⟩ | hstale⟩ := mem_padding_iff.mp hb
    · exact hzero
    · exact h b (mem_staleBytes.mpr hstale)

/-- **The bytes of an image that are listed** are those of the file if and only if its end is
symmetric. -/
theorem listed_iff (unread : Nat → BitVec 8) :
    (loadWords 0 (fileBuffer bytes unread) bytes.length false).flatMap (fun v => (List.ofFn v).reverse)
      = bytes ++ blank bytes ↔ SymmetricEnd bytes := by
  have hsplit : bytes = bytes.take (4 * (bytes.length / 4)) ++ lastBytes bytes :=
    (List.take_append_drop _ _).symm
  have hblank : blank bytes
      = List.replicate (padding 0 (fileBuffer bytes unread) bytes.length).length 0 := by
    rw [length_padding, blank]
  rw [listed_loadWords, map_fileBuffer unread (by omega), map_fileBuffer_last]
  conv_lhs => rhs; lhs; rw [hsplit]
  rw [List.append_assoc, List.append_cancel_left_eq, hblank, reverse_append_eq_iff, ← hblank,
    SymmetricEnd]
  by_cases hrem : bytes.length % 4 = 0
  · have hpadding : padding 0 (fileBuffer bytes unread) bytes.length = [] := if_neg (not_not.mpr hrem)
    have hlast : lastBytes bytes = [] := List.drop_eq_nil_of_le (by omega)
    have hzero : blank bytes = [] := by rw [hblank, hpadding]; rfl
    rw [hpadding, hlast, hzero]
    simp [hrem]
  · rw [padding_blank_iff hrem]
    exact ⟨Or.inr, fun h => h.resolve_left hrem⟩

theorem configureRegion_whole (mem : OrdMap (BitVec 32) (BitVec 32)) (bytes : List (BitVec 8))
    (confAddr : BitVec 32) (unread : Nat → BitVec 8) :
    configureRegion mem (some bytes) confAddr 0 false unread =
      if (BitVec.ofNat 32 bytes.length).toInt < 0 then none
      else some (storeWords mem (confAddr >>> 2)
        ((loadWords 0 (fileBuffer bytes unread) (BitVec.ofNat 32 bytes.length).toInt.toNat false).map
          toWord)) := by
  have hbuffer : (fun k => (bytes[(0 : BitVec 32).toNat + k]?).getD (unread k))
      = fileBuffer bytes unread := by
    funext k
    have hk : (0 : BitVec 32).toNat + k = k := Nat.zero_add k
    rw [hk]
    rfl
  show (regionWords 0 bytes unread 0 false).map _ = _
  unfold regionWords
  rw [hbuffer]
  show Option.map _ (if (BitVec.ofNat 32 bytes.length).toInt < 0 then none else _) = _
  split <;> rfl

theorem configureRegion_short (mem : OrdMap (BitVec 32) (BitVec 32)) (hshort : bytes.length < 2 ^ 31) :
    configureRegion mem (some bytes) confAddr 0 false unread = some (storeWords mem (confAddr >>> 2)
      ((loadWords 0 (fileBuffer bytes unread) bytes.length false).map toWord)) := by
  have hint : (BitVec.ofNat 32 bytes.length).toInt = bytes.length := by
    rw [BitVec.toInt_eq_toNat_cond, BitVec.toNat_ofNat]
    split_ifs <;> omega
  rw [configureRegion_whole, hint, if_neg (by omega), Int.toNat_natCast]

/-- The dump of what is loaded from the first bytes of a file. -/
theorem dumpBytes_loadWords (unread : Nat → BitVec 8) (haligned : confAddr.toNat % 4 = 0)
    (hfit : confAddr.toNat + bytes.length ≤ 2 ^ 32) {length : Nat} (hle : length ≤ bytes.length) :
    dumpBytes (hexdump (storeWords ∅ (confAddr >>> 2)
        ((loadWords 0 (fileBuffer bytes unread) length false).map toWord)))
      = some (((loadWords 0 (fileBuffer bytes unread) length false).flatMap
          fun v => (List.ofFn v).reverse).zipIdx confAddr.toNat) := by
  have hword := toNat_confAddr confAddr
  have haddr : 4 * (confAddr >>> 2).toNat = confAddr.toNat := by omega
  rw [dumpBytes_storeWords (by rw [List.length_map, length_loadWords]; omega), List.flatMap_map, haddr]
  simp only [bytesOf_toWord]

/-- A file of 2 GiB or more is not loaded: the buffer cannot be allocated, or a file of 4 GiB is taken
for an empty one. -/
theorem not_roundTrips (haligned : confAddr.toNat % 4 = 0)
    (hfit : confAddr.toNat + bytes.length ≤ 2 ^ 32) (hlong : 2 ^ 31 ≤ bytes.length) :
    ¬ RoundTrips bytes confAddr unread := by
  rintro ⟨mem, hmem, hdump⟩
  rw [configureRegion_whole] at hmem
  split at hmem
  · cases hmem
  · next hnonneg =>
    have hzero : (BitVec.ofNat 32 bytes.length).toInt.toNat = 0 := by
      rw [BitVec.toInt_eq_toNat_cond, BitVec.toNat_ofNat] at hnonneg ⊢
      split_ifs at hnonneg ⊢ <;> omega
    rw [hzero, Option.some.injEq] at hmem
    rw [← hmem, dumpBytes_loadWords unread haligned hfit (Nat.zero_le _), Option.some.injEq] at hdump
    have hlength := congrArg List.length hdump
    rw [List.length_zipIdx, List.length_zipIdx, List.length_append] at hlength
    have hempty : loadWords 0 (fileBuffer bytes unread) 0 false = [] := rfl
    rw [hempty, List.flatMap_nil, List.length_nil] at hlength
    omega

/-- **When an image survives loading and dumping.** The dump lists the file if and only if the file is
shorter than 2 GiB and its end is symmetric. -/
theorem configureRegion_hexdump_iff (bytes : List (BitVec 8)) (confAddr : BitVec 32)
    (unread : Nat → BitVec 8) (haligned : confAddr.toNat % 4 = 0)
    (hfit : confAddr.toNat + bytes.length ≤ 2 ^ 32) :
    RoundTrips bytes confAddr unread ↔ bytes.length < 2 ^ 31 ∧ SymmetricEnd bytes := by
  by_cases hshort : bytes.length < 2 ^ 31
  · have hdump := dumpBytes_loadWords unread haligned hfit (Nat.le_refl _)
    rw [RoundTrips, configureRegion_short ∅ hshort]
    simp only [Option.some.injEq, exists_eq_left', hdump, hshort, true_and]
    rw [← listed_iff unread]
    constructor
    · intro h
      have hbytes := congrArg (List.map Prod.fst) h
      rwa [List.zipIdx_map_fst, List.zipIdx_map_fst] at hbytes
    · intro h
      rw [h]
  · exact iff_of_false (not_roundTrips haligned hfit (Nat.le_of_not_lt hshort)) fun h => hshort h.1

/-- A file of one word. -/
theorem configureRegion_hexdump_word : RoundTrips [0xca, 0xfe, 0xba, 0xbe] 0x400000 fun _ => 0 :=
  (configureRegion_hexdump_iff [0xca, 0xfe, 0xba, 0xbe] 0x400000 (fun _ => 0) (by decide)
    (by decide)).mpr ⟨by decide, .inl rfl⟩

/-- A file of a single byte is listed as the last byte of its word. -/
theorem configureRegion_hexdump_byte :
    ¬ ∀ (bytes : List (BitVec 8)) (confAddr : BitVec 32) (unread : Nat → BitVec 8),
      confAddr.toNat % 4 = 0 → confAddr.toNat + bytes.length ≤ 2 ^ 32 →
      RoundTrips bytes confAddr unread := by
  intro h
  obtain ⟨mem, hmem, hdump⟩ := h [1] 0x400000 (fun _ => 0) (by decide) (by decide)
  have hlisted : (configureRegion ∅ (some [1]) 0x400000 0 false fun _ => 0).map
      (fun mem => dumpBytes (hexdump mem)) = some (some ([0, 0, 0, 1].zipIdx 0x400000)) := by
    decide +kernel
  rw [hmem, Option.map_some, hdump] at hlisted
  revert hlisted
  decide

end DeltaModels.Sdram
