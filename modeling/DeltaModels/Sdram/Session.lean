import DeltaModels.Sdram.Controller
import DeltaModels.Sdram.RoundTrip
import DeltaModels.Sdram.SilentReads

/-!
# From image files to a dump

A test bench loads image files into the SDRAM, works on it through the controller and the backdoor, and
dumps what is there at the end. `session_dumped` is about all of that at once: if the files are whole
numbers of words, the reads of the session are answered from an array of words into which the files
have been written, and the dump is that array. Each word that it lists is the current one, and no word
that is not 0 is missing from it.
-/

namespace DeltaModels.Sdram

variable {A_SIZE BA_SIZE : Nat} {cfg : Config} {s : State BA_SIZE}

/-- What a test bench does: it loads a file to an address, empties the map, or makes a request. -/
inductive SessionOp where
  | configureRegion (confFile : Option (List (BitVec 8))) (confAddr : BitVec 32) (msb : Bool)
      (unread : Nat → BitVec 8)
  | clear
  | request (r : Request)

/-- The device in the test bench. A load whose allocation throws has stored nothing before. -/
def session (A_SIZE : Nat) {BA_SIZE : Nat} (cfg : Config) :
    Mealy SessionOp (State BA_SIZE) (Option (BitVec 32)) where
  step s
    | .configureRegion confFile confAddr msb unread =>
      ({ s with mem := (Sdram.configureRegion s.mem confFile confAddr 0 msb unread).getD s.mem }, none)
    | .clear => ({ s with mem := ∅ }, none)
    | .request r => (controlled A_SIZE cfg).step s r

/-- The words of a file, with the first byte of each the lowest one if `msb`, and the highest one
otherwise. -/
def fileWords (msb : Bool) (bytes : List (BitVec 8)) : List (BitVec 32) :=
  (List.range (bytes.length / 4)).map fun k =>
    Lanes.pack fun i => (bytes[4 * k + if msb then i else 3 - i]?).getD 0

/-- The session on the array of words. -/
def sessionWords (cfg : Config) : Mealy SessionOp (Nat → BitVec 32) (Option (BitVec 32)) where
  step m
    | .configureRegion confFile confAddr msb _ =>
      ((Patch.span (confAddr.toNat / 4) (fileWords msb (confFile.getD []))).apply m, none)
    | .clear => (fun _ => 0, none)
    | .request r => (words cfg).step m r

/-- A file that is loaded as it is: a whole number of words, below 2 GiB, and within the word space. -/
structure WholeWords (bytes : List (BitVec 8)) (confAddr : BitVec 32) : Prop where
  words : bytes.length % 4 = 0
  small : bytes.length < 2 ^ 31
  fits : confAddr.toNat / 4 + bytes.length / 4 ≤ 2 ^ 30

instance (bytes : List (BitVec 8)) (confAddr : BitVec 32) : Decidable (WholeWords bytes confAddr) :=
  decidable_of_iff (_ ∧ _ ∧ _) ⟨fun h => ⟨h.1, h.2.1, h.2.2⟩, fun h => ⟨h.words, h.small, h.fits⟩⟩

/-- The operations that the array of words understands. -/
def SessionOp.Ok (cfg : Config) : SessionOp → Prop
  | .configureRegion confFile confAddr _ _ => WholeWords (confFile.getD []) confAddr
  | .clear => True
  | .request r => r.Ok cfg

instance (cfg : Config) : ∀ op : SessionOp, Decidable (op.Ok cfg)
  | .configureRegion confFile confAddr _ _ =>
    inferInstanceAs (Decidable (WholeWords (confFile.getD []) confAddr))
  | .clear => inferInstanceAs (Decidable True)
  | .request r => inferInstanceAs (Decidable (r.Ok cfg))

/-! ## Loading -/

theorem length_fileWords (msb : Bool) (bytes : List (BitVec 8)) :
    (fileWords msb bytes).length = bytes.length / 4 := by
  rw [fileWords, List.length_map, List.length_range]

/-- The word of a buffer, in either order of its bytes. -/
theorem toWord_wordOf (msb : Bool) (buffer : Nat → BitVec 8) (k : Nat) :
    toWord (if msb then wordOf buffer k else bswap (wordOf buffer k))
      = Lanes.pack fun i => buffer (4 * k + if msb then i else 3 - i) := by
  cases msb <;> rfl

/-- The bytes of a file of whole words that make up one of them. -/
theorem fileWord_eq {bytes : List (BitVec 8)} (hwords : bytes.length % 4 = 0) (msb : Bool)
    (unread : Nat → BitVec 8) {k : Nat} (hk : k < bytes.length / 4) :
    (Lanes.pack fun i => (bytes[(0 : BitVec 32).toNat + (4 * k + if msb then i else 3 - i)]?).getD
        (unread (4 * k + if msb then i else 3 - i)))
      = Lanes.pack fun i => (bytes[4 * k + if msb then i else 3 - i]?).getD 0 := by
  have hbyte : ∀ i < 4, (bytes[(0 : BitVec 32).toNat + (4 * k + if msb then i else 3 - i)]?).getD
      (unread (4 * k + if msb then i else 3 - i)) = (bytes[4 * k + if msb then i else 3 - i]?).getD 0 := by
    intro i hi
    have hlt : 4 * k + (if msb then i else 3 - i) < bytes.length := by split <;> omega
    have hzero : (0 : BitVec 32).toNat = 0 := rfl
    rw [hzero, Nat.zero_add, List.getElem?_eq_getElem hlt]
    rfl
  simp only [Lanes.pack, hbyte 0 (by decide), hbyte 1 (by decide), hbyte 2 (by decide),
    hbyte 3 (by decide)]

/-- A file of whole words is stored word by word; what was in the buffer before does not matter. -/
theorem configureRegion_words {bytes : List (BitVec 8)} {confAddr : BitVec 32}
    (h : WholeWords bytes confAddr) (mem : OrdMap (BitVec 32) (BitVec 32)) (msb : Bool)
    (unread : Nat → BitVec 8) :
    configureRegion mem (some bytes) confAddr 0 msb unread
      = some (storeWords mem (confAddr >>> 2) (fileWords msb bytes)) := by
  have hsmall := h.small
  have hint : (BitVec.ofNat 32 (bytes.length + (0 : BitVec 32).toNat)).toInt = bytes.length := by
    rw [BitVec.toInt_eq_toNat_cond, BitVec.toNat_ofNat]
    have hzero : (0 : BitVec 32).toNat = 0 := rfl
    split_ifs <;> omega
  have hwords : (loadWords 0 (fun k => (bytes[(0 : BitVec 32).toNat + k]?).getD (unread k))
      bytes.length msb).map toWord = fileWords msb bytes := by
    rw [loadWords_eq, if_neg (not_not.mpr h.words), List.append_nil, List.map_map, fileWords]
    refine List.map_congr_left fun k hk => ?_
    rw [Function.comp_apply, toWord_wordOf]
    exact fileWord_eq h.words msb unread (List.mem_range.mp hk)
  show (regionWords 0 bytes unread 0 msb).map _ = _
  rw [regionWords]
  simp only [hint]
  rw [if_neg (by omega), Int.toNat_natCast, Option.map_some, hwords]

/-- Every key of the map is a word address. -/
def KeysInWordSpace (mem : OrdMap (BitVec 32) (BitVec 32)) : Prop := ∀ key ∈ mem, key.toNat < 2 ^ 30

/-- **Loading** writes the words of the file, and adds their keys. -/
theorem storeWords_words (mem : OrdMap (BitVec 32) (BitVec 32)) {confAddr : BitVec 32}
    {ws : List (BitVec 32)} (hfit : confAddr.toNat / 4 + ws.length ≤ 2 ^ 30) :
    (∀ k < 2 ^ 32, wordAt (storeWords mem (confAddr >>> 2) ws) k
        = (Patch.span (confAddr.toNat / 4) ws).apply (wordAt mem) k) ∧
      (KeysInWordSpace mem → KeysInWordSpace (storeWords mem (confAddr >>> 2) ws)) := by
  have hget := fun k => @getElem?_storeWords mem (confAddr >>> 2) ws
    (by rw [toNat_confAddr]; omega) k
  rw [toNat_confAddr] at hget
  refine ⟨fun k hk => ?_, fun hkeys key hkey => ?_⟩
  · rw [wordAt, OrdMap.read, Std.ExtTreeMap.getD_eq_getD_getElem?, hget, BitVec.toNat_ofNat,
      Nat.mod_eq_of_lt hk, Patch.apply, wordAt, OrdMap.read, Std.ExtTreeMap.getD_eq_getD_getElem?]
    cases Patch.span (confAddr.toNat / 4) ws k <;> rfl
  · by_cases hlt : key.toNat < 2 ^ 30
    · exact hlt
    · have hnone : Patch.span (confAddr.toNat / 4) ws key.toNat = none := Patch.span_of_le (by omega)
      rw [Std.ExtTreeMap.mem_iff_isSome_getElem?, hget, hnone, Option.none_or,
        ← Std.ExtTreeMap.mem_iff_isSome_getElem?] at hkey
      exact hkeys key hkey

/-! ## Requests -/

theorem toNat_fromWishbone_lt (cfg : Config) (addr : BitVec 32) :
    (fromWishbone cfg addr).toNat < 2 ^ 30 := by
  rw [fromWishbone, BitVec.toNat_ushiftRight, Nat.shiftRight_eq_div_pow]
  omega

/-- The backdoor stays in the word space, if the regions do. -/
theorem keys_backdoorHandler {b : Backdoor} (hok : (Request.backdoor b).Ok cfg)
    (hkeys : KeysInWordSpace s.mem) : KeysInWordSpace (backdoorHandler cfg s b).1.mem := by
  intro key hkey
  rcases (@mem_backdoorHandler 0 BA_SIZE cfg s b key).mp hkey with hold | hnew
  · exact hkeys key hold
  rw [Event.keys, List.mem_append] at hnew
  rcases hnew with hcopy | hclear
  · split at hcopy
    · next hrequested =>
      obtain ⟨i, hi, hkey⟩ := List.mem_flatMap.mp hcopy
      have hsize := List.mem_range.mp hi
      obtain ⟨hfrom, hto⟩ := hok hrequested
      rw [Backdoor.copyKeys, List.mem_pair] at hkey
      rcases hkey with rfl | rfl <;> rw [BitVec.toNat_add, BitVec.toNat_ofNat] <;> omega
    · cases hcopy
  · split at hclear
    · obtain ⟨i, hi, rfl⟩ := List.mem_map.mp hclear
      have hend := toNat_fromWishbone_lt cfg b.clearTo
      rw [Backdoor.clearRange, List.mem_range'_1] at hi
      rw [BitVec.toNat_ofNat]
      omega
    · cases hclear

/-- The word of a request is in the word space. -/
theorem toNat_requested_lt (hfit : Fits A_SIZE BA_SIZE cfg.geometry) (addr : BitVec 32) :
    ((toRowBankColumn cfg.geometry addr).address cfg.geometry).toNat < 2 ^ 30 := by
  rw [address_toRowBankColumn hfit.words]
  refine Nat.lt_of_lt_of_le (Nat.mod_lt _ (Nat.two_pow_pos _)) ?_
  exact Nat.pow_le_pow_right (by decide) hfit.words

/-- A request stays in the word space. -/
theorem keys_request (hfit : Fits A_SIZE BA_SIZE cfg.geometry) (hbuf : s.readBuf = []) {r : Request}
    (hok : r.Ok cfg) (hkeys : KeysInWordSpace s.mem) :
    KeysInWordSpace ((controlled A_SIZE cfg).step s r).1.mem := by
  cases r with
  | write addr data =>
    obtain ⟨-, hmem⟩ := run_writeSamples hfit hbuf hok data
    show KeysInWordSpace ((pins A_SIZE cfg).run s (writeSamples cfg.geometry addr data)).mem
    rw [hmem]
    intro key hkey
    rw [Std.ExtTreeMap.mem_insert, Std.compare_eq_iff_eq] at hkey
    rcases hkey with rfl | hold
    · exact toNat_requested_lt hfit addr
    · exact hkeys key hold
  | read addr =>
    obtain ⟨-, hmem, -⟩ := run_readSamples hfit hbuf hok
    show KeysInWordSpace ((pins A_SIZE cfg).run s (readSamples cfg.geometry addr)).mem
    rw [hmem]
    intro key hkey
    rcases OrdMap.mem_subscript.mp hkey with rfl | hold
    · exact toNat_requested_lt hfit addr
    · exact hkeys key hold
  | wait n =>
    show KeysInWordSpace ((pins A_SIZE cfg).run s (List.replicate n doNop)).mem
    rw [run_wait hbuf]
    exact hkeys
  | backdoor b => exact keys_backdoorHandler hok hkeys

/-! ## The session -/

/-- No read is pending, the device holds the words, and its map stays in the word space. -/
structure InSession (s : State BA_SIZE) (m : Nat → BitVec 32) : Prop where
  holds : HoldsWords s m
  keys : KeysInWordSpace s.mem

theorem InSession.configureRegion {m : Nat → BitVec 32} (h : InSession s m)
    {confFile : Option (List (BitVec 8))} {confAddr : BitVec 32}
    (hok : WholeWords (confFile.getD []) confAddr) (msb : Bool) (unread : Nat → BitVec 8) :
    InSession { s with mem := (Sdram.configureRegion s.mem confFile confAddr 0 msb unread).getD s.mem }
      ((Patch.span (confAddr.toNat / 4) (fileWords msb (confFile.getD []))).apply m) := by
  cases confFile with
  | none =>
    have hempty : fileWords msb ((none : Option (List (BitVec 8))).getD []) = [] := rfl
    rw [hempty, Patch.span_nil, Patch.apply_empty]
    exact h
  | some bytes =>
    have hbytes : WholeWords bytes confAddr := hok
    have hfits := hbytes.fits
    obtain ⟨hwords, hkeys⟩ := @storeWords_words s.mem confAddr (fileWords msb bytes)
      (by rw [length_fileWords]; exact hfits)
    rw [configureRegion_words hbytes]
    refine ⟨⟨h.holds.buffer, fun k hk => ?_⟩, hkeys h.keys⟩
    show wordAt (storeWords s.mem (confAddr >>> 2) (fileWords msb bytes)) k = _
    rw [hwords k hk, Patch.apply, h.holds.words k hk]
    rfl

/-- **The device in the test bench simulates the array of words.** -/
def sessionSimulation (hfit : Fits A_SIZE BA_SIZE cfg.geometry) :
    Mealy.Simulation (session A_SIZE cfg : Mealy SessionOp (State BA_SIZE) _) (sessionWords cfg)
      (SessionOp.Ok cfg) where
  Rel := InSession
  step_rel s m op hok h := by
    cases op with
    | configureRegion confFile confAddr msb unread => exact h.configureRegion hok msb unread
    | clear =>
      refine ⟨⟨h.holds.buffer, fun k _ => OrdMap.read_empty _⟩, fun key hkey => ?_⟩
      exact absurd hkey Std.ExtTreeMap.not_mem_empty
    | request r =>
      exact ⟨(controlledSimulation hfit).step_rel s m r hok h.holds,
        keys_request hfit h.holds.buffer hok h.keys⟩
  step_out s m op hok h := by
    cases op with
    | configureRegion confFile confAddr msb unread => rfl
    | clear => rfl
    | request r => exact (controlledSimulation hfit).step_out s m r hok h.holds

/-- The words that a dump lists are all of the array that is not 0. -/
structure DumpOf (m : Nat → BitVec 32) (es : List (BitVec 32 × BitVec 32)) : Prop where
  sorted : OrdMap.Sorted es
  current : ∀ e ∈ es, e.1.toNat < 2 ^ 30 ∧ e.2 = m e.1.toNat
  complete : ∀ k < 2 ^ 32, m k ≠ 0 → (BitVec.ofNat 32 k, m k) ∈ es

theorem InSession.dump {m : Nat → BitVec 32} (h : InSession s m) :
    ∃ es, readDump (hexdump s.mem) = some es ∧ DumpOf m es := by
  have hget : ∀ k : BitVec 32, ∀ v, s.mem[k]? = some v → v = m k.toNat := by
    intro k v hv
    rw [← h.holds.words _ k.isLt, wordAt_toNat, OrdMap.read, Std.ExtTreeMap.getD_eq_getD_getElem?, hv]
    rfl
  refine ⟨s.mem.toList, readDump_hexdump s.mem h.keys, OrdMap.sorted_toList _, ?_, ?_⟩
  · rintro ⟨k, v⟩ he
    have hv := Std.ExtTreeMap.mem_toList_iff_getElem?_eq_some.mp he
    exact ⟨h.keys k (Std.ExtTreeMap.mem_iff_isSome_getElem?.mpr (by rw [hv]; rfl)), hget k v hv⟩
  · intro k hk hne
    rw [Std.ExtTreeMap.mem_toList_iff_getElem?_eq_some]
    have hword := h.holds.words k hk
    cases hv : s.mem[BitVec.ofNat 32 k]? with
    | none =>
      rw [wordAt, OrdMap.read, Std.ExtTreeMap.getD_eq_getD_getElem?, hv] at hword
      exact absurd hword.symm hne
    | some v => rw [hget _ v hv, BitVec.toNat_ofNat, Nat.mod_eq_of_lt hk]

/-- **From image files to a dump.** In every session of loads, requests and resets on a new device, the
reads are answered from the array of words, and the dump at the end lists the words of the array. -/
theorem session_dumped (hfit : Fits A_SIZE BA_SIZE cfg.geometry) (ops : List SessionOp)
    (hok : ∀ op ∈ ops, op.Ok cfg) :
    (session A_SIZE cfg).trace (State.init : State BA_SIZE) ops
        = (sessionWords cfg).trace (fun _ => 0) ops ∧
      ∃ es, readDump (hexdump ((session A_SIZE cfg).run (State.init : State BA_SIZE) ops).mem) = some es ∧
        DumpOf ((sessionWords cfg).run (fun _ => 0) ops) es := by
  have hinit : (sessionSimulation hfit).Rel (State.init : State BA_SIZE) fun _ => 0 :=
    ⟨⟨rfl, fun k _ => OrdMap.read_empty _⟩, fun key hkey => absurd hkey Std.ExtTreeMap.not_mem_empty⟩
  exact ⟨(sessionSimulation hfit).trace_eq hinit hok,
    ((sessionSimulation hfit).run_rel hinit hok).dump⟩

/-- A file of two words is loaded; the second one is read, and the first one overwritten before the
dump. -/
theorem session_dumped_image :
    let ops : List SessionOp :=
      [.configureRegion (some [0xca, 0xfe, 0xba, 0xbe, 0, 0, 0, 7]) 0x40000 false fun _ => 0xff,
        .request (.read 0x40004), .request (.write 0x40000 5), .configureRegion none 0 true fun _ => 0]
    ((session 12 sixteenMiB).trace (State.init : State 2) ops).reduceOption = [7] ∧
      ∃ es, readDump (hexdump ((session 12 sixteenMiB).run (State.init : State 2) ops).mem) = some es ∧
        (0x10000, 5) ∈ es ∧ (0x10001, 7) ∈ es := by
  intro ops
  obtain ⟨htrace, es, hes, hdump⟩ := @session_dumped 12 2 sixteenMiB
    ⟨by decide, by decide, by decide, by decide, by decide⟩ ops (by decide)
  refine ⟨?_, es, hes, hdump.complete 0x10000 (by decide) (by decide),
    hdump.complete 0x10001 (by decide) (by decide)⟩
  rw [htrace]
  decide

end DeltaModels.Sdram
