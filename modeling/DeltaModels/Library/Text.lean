import Mathlib.Algebra.Group.Nat.Defs
import Mathlib.Data.Nat.Basic
import Mathlib.Tactic.Common

/-!
# Numbers and lists as text

What can be read back from a text: a number from its digits (`toDigits_injective`, up to base 16), also
if they are padded with zeros (`readHex_padHex`) and more text follows (`takeHex_padHex`), a word up to a
blank (`takeWord_append`), and the parts of a list from a text in which each part ends with a separator
that occurs in none of them (`terminated_injective`, `splitOn_terminated`).
-/

namespace Text

/-! ## Digits -/

theorem digitChar_inj : ∀ d < 16, ∀ e < 16, Nat.digitChar d = Nat.digitChar e → d = e := by decide

variable {b : Nat}

theorem mem_toDigits (hb : 1 < b) (n : Nat) {c : Char} (hc : c ∈ Nat.toDigits b n) :
    ∃ d < b, c = Nat.digitChar d := by
  induction n using Nat.strongRecOn with
  | ind n ih =>
    rw [Nat.toDigits_eq_if hb] at hc
    split at hc
    · next hlt => exact ⟨n, hlt, by simpa using hc⟩
    · next hle =>
      rcases List.mem_append.mp hc with hc | hc
      · have hpos : 0 < n := by omega
        exact ih (n / b) (Nat.div_lt_self hpos hb) hc
      · exact ⟨n % b, Nat.mod_lt n (by omega), by simpa using hc⟩

/-- One digit is not two or more. -/
theorem append_digit_ne (m : Nat) (c c' : Char) : Nat.toDigits b m ++ [c] ≠ [c'] := by
  intro h
  have hlength := congrArg List.length h
  have hpos := Nat.length_toDigits_pos (b := b) (n := m)
  rw [List.length_append, List.length_singleton, List.length_singleton] at hlength
  omega

/-- **A number can be read from its digits.** -/
theorem toDigits_injective (hb : 1 < b) (hb' : b ≤ 16) : Function.Injective (Nat.toDigits b) := by
  intro m
  induction m using Nat.strongRecOn with
  | ind m ih =>
    intro n h
    have hdigit : ∀ d < b, ∀ e < b, Nat.digitChar d = Nat.digitChar e → d = e :=
      fun d hd e he => digitChar_inj d (by omega) e (by omega)
    rw [Nat.toDigits_eq_if hb, Nat.toDigits_eq_if (n := n) hb] at h
    by_cases hm : m < b
    · by_cases hn : n < b
      · rw [if_pos hm, if_pos hn] at h
        exact hdigit m hm n hn (by simpa using h)
      · rw [if_pos hm, if_neg hn] at h
        exact absurd h.symm (append_digit_ne _ _ _)
    · by_cases hn : n < b
      · rw [if_neg hm, if_pos hn] at h
        exact absurd h (append_digit_ne _ _ _)
      · rw [if_neg hm, if_neg hn] at h
        obtain ⟨hinit, hlast⟩ := List.append_inj' h rfl
        have hdiv : m / b = n / b := ih (m / b) (Nat.div_lt_self (by omega) hb) hinit
        have hmod : m % b = n % b :=
          hdigit _ (Nat.mod_lt m (by omega)) _ (Nat.mod_lt n (by omega)) (by simpa using hlast)
        rw [← Nat.div_add_mod m b, ← Nat.div_add_mod n b, hdiv, hmod]

/-- The value of a digit. -/
def digit? (b : Nat) (c : Char) : Option Nat := (List.range b).find? fun d => Nat.digitChar d == c

/-- The number that digits stand for. -/
def readDigits (b : Nat) (cs : List Char) : Option Nat :=
  cs.foldlM (fun n c => (digit? b c).map (b * n + ·)) 0

theorem digit?_digitChar (hb : b ≤ 16) {d : Nat} (hd : d < b) : digit? b (Nat.digitChar d) = some d := by
  rw [digit?, List.find?_range_eq_some]
  refine ⟨by simp, by simpa using hd, fun e he => ?_⟩
  have hne := mt (digitChar_inj e (by omega) d (by omega)) (by omega)
  simpa using hne

theorem readDigits_concat (cs : List Char) (c : Char) :
    readDigits b (cs ++ [c]) = (readDigits b cs).bind fun n => (digit? b c).map (b * n + ·) := by
  rw [readDigits, List.foldlM_append]
  simp [readDigits, bind]

/-- **The digits of a number can be read.** -/
theorem readDigits_toDigits (hb : 1 < b) (hb' : b ≤ 16) (n : Nat) :
    readDigits b (Nat.toDigits b n) = some n := by
  induction n using Nat.strongRecOn with
  | ind n ih =>
    rw [Nat.toDigits_eq_if hb]
    split
    · next hlt => simp [readDigits, digit?_digitChar hb' hlt]
    · next hle =>
      have hlast : digit? b (Nat.digitChar (n % b)) = some (n % b) :=
        digit?_digitChar hb' (Nat.mod_lt n (by omega))
      rw [readDigits_concat, ih (n / b) (Nat.div_lt_self (by omega) hb), hlast]
      exact congrArg some (Nat.div_add_mod n b)

/-! ## Padded numbers -/

/-- A number in hexadecimal, with zeros in front up to a width. -/
def padHex (width n : Nat) : List Char :=
  List.replicate (width - (Nat.toDigits 16 n).length) '0' ++ Nat.toDigits 16 n

/-- The value of a hexadecimal digit. -/
def hexDigit? (c : Char) : Option Nat := (List.range 16).find? fun d => Nat.digitChar d == c

/-- The number that hexadecimal digits stand for. -/
def readHex (cs : List Char) : Option Nat := cs.foldlM (fun n c => (hexDigit? c).map (16 * n + ·)) 0

theorem readHex_toDigits (n : Nat) : readHex (Nat.toDigits 16 n) = some n :=
  readDigits_toDigits (by decide) (Nat.le_refl _) n

/-- Zeros in front do not count. -/
theorem readHex_zeros (k : Nat) (cs : List Char) :
    readHex (List.replicate k '0' ++ cs) = readHex cs := by
  induction k with
  | zero => rfl
  | succ k ih =>
    rw [List.replicate_succ, List.cons_append, ← ih, readHex, List.foldlM_cons]
    rfl

/-- **A padded number can be read.** -/
theorem readHex_padHex (width n : Nat) : readHex (padHex width n) = some n := by
  rw [padHex, readHex_zeros, readHex_toDigits]

theorem length_padHex {width n : Nat} (hpos : 0 < width) (h : n < 16 ^ width) :
    (padHex width n).length = width := by
  have hle := (Nat.length_toDigits_le_iff (by decide) hpos).mpr h
  rw [padHex, List.length_append, List.length_replicate]
  omega

theorem padHex_ne_nil (width n : Nat) : padHex width n ≠ [] :=
  List.append_ne_nil_of_right_ne_nil _ (List.ne_nil_of_length_pos Nat.length_toDigits_pos)

theorem mem_padHex {width n : Nat} {c : Char} (hc : c ∈ padHex width n) :
    ∃ d < 16, c = Nat.digitChar d := by
  rcases List.mem_append.mp hc with hc | hc
  · exact ⟨0, by decide, List.eq_of_mem_replicate hc⟩
  · exact mem_toDigits (by decide) n hc

theorem notMem_padHex {c : Char} (hc : ∀ d < 16, c ≠ Nat.digitChar d) (width n : Nat) :
    c ∉ padHex width n := by
  intro hmem
  obtain ⟨d, hd, hdigit⟩ := mem_padHex hmem
  exact hc d hd hdigit

/-! ## Fields of a line -/

/-- The number in the first `width` characters, and the rest. -/
def takeHex (width : Nat) (cs : List Char) : Option (Nat × List Char) :=
  (readHex (cs.take width)).map fun n => (n, cs.drop width)

/-- **A padded number can be read in front of other text.** -/
theorem takeHex_padHex {width n : Nat} (hpos : 0 < width) (h : n < 16 ^ width) (cs : List Char) :
    takeHex width (padHex width n ++ cs) = some (n, cs) := by
  have hlength := length_padHex hpos h
  rw [takeHex, List.take_left' hlength, List.drop_left' hlength, readHex_padHex]
  rfl

/-- A text, with blanks behind it up to a width. -/
def padRight (width : Nat) (cs : List Char) : List Char :=
  cs ++ List.replicate (width - cs.length) ' '

/-- What stands in front of the first blank, and what stands behind it. -/
def takeWord (cs : List Char) : List Char × List Char :=
  (cs.takeWhile (· ≠ ' '), (cs.dropWhile (· ≠ ' ')).tail)

theorem takeWord_append {w : List Char} (hw : ' ' ∉ w) (cs : List Char) :
    takeWord (w ++ ' ' :: cs) = (w, cs) := by
  have hword : ∀ c ∈ w, decide (c ≠ ' ') = true := fun c hc =>
    decide_eq_true fun h => hw (h ▸ hc)
  rw [takeWord, List.takeWhile_append_of_pos hword, List.dropWhile_append_of_pos hword]
  simp

/-- Blanks in front of a digit. -/
theorem dropBlanks_padHex (k width n : Nat) (cs : List Char) :
    (List.replicate k ' ' ++ (padHex width n ++ cs)).dropWhile (· = ' ') = padHex width n ++ cs := by
  have hblanks : ∀ c ∈ List.replicate k ' ', decide (c = ' ') = true := fun c hc =>
    decide_eq_true (List.eq_of_mem_replicate hc)
  rw [List.dropWhile_append_of_pos hblanks]
  have hfirst : ∀ d < 16, Nat.digitChar d ≠ ' ' := by decide
  cases hpad : padHex width n with
  | nil => exact absurd hpad (padHex_ne_nil width n)
  | cons c digits =>
    obtain ⟨d, hd, rfl⟩ := @mem_padHex width n c (by simp [hpad])
    rw [List.cons_append, List.dropWhile_cons, if_neg (by simp [hfirst d hd])]

/-! ## Terminated parts -/

variable {α : Type*} {sep : α} {rest : List α}

/-- A part ends where the separator first occurs. -/
theorem append_sep_inj {f g s t : List α} (hf : sep ∉ f) (hg : sep ∉ g)
    (h : f ++ sep :: s = g ++ sep :: t) : f = g ∧ s = t := by
  induction f generalizing g with
  | nil =>
    cases g with
    | nil => exact ⟨rfl, by simpa using h⟩
    | cons b g => simp at h; simp [h.1] at hg
  | cons a f ih =>
    cases g with
    | nil => simp at h; simp [h.1] at hf
    | cons b g =>
      simp only [List.cons_append, List.cons.injEq] at h
      simp only [List.mem_cons, not_or] at hf hg
      obtain ⟨hfg, hst⟩ := ih hf.2 hg.2 h.2
      exact ⟨by rw [h.1, hfg], hst⟩

/-- **Parts can be read from a text** in which each of them is followed by the separator. -/
theorem terminated_injective {fs gs : List (List α)} (hf : ∀ f ∈ fs, sep ∉ f)
    (hg : ∀ g ∈ gs, sep ∉ g)
    (h : fs.flatMap (· ++ sep :: rest) = gs.flatMap (· ++ sep :: rest)) : fs = gs := by
  induction fs generalizing gs with
  | nil =>
    cases gs with
    | nil => rfl
    | cons g gs => simp at h
  | cons f fs ih =>
    cases gs with
    | nil => simp at h
    | cons g gs =>
      simp only [List.flatMap_cons, List.append_assoc, List.cons_append] at h
      obtain ⟨hfg, htail⟩ := append_sep_inj (hf f (by simp)) (hg g (by simp)) h
      have hrest : fs.flatMap (· ++ sep :: rest) = gs.flatMap (· ++ sep :: rest) :=
        List.append_cancel_left htail
      rw [hfg, ih (fun a ha => hf a (by simp [ha])) (fun a ha => hg a (by simp [ha])) hrest]

/-- Splitting at the terminators gives the parts, and what stands behind the last one. -/
theorem splitOn_terminated [BEq α] [LawfulBEq α] {parts : List (List α)} {last : List α}
    (hparts : ∀ f ∈ parts, sep ∉ f) (hlast : sep ∉ last) :
    (parts.flatMap (· ++ [sep]) ++ last).splitOn sep = parts ++ [last] := by
  induction parts with
  | nil => exact List.splitOn_eq_singleton hlast
  | cons f parts ih =>
    have hf : f.splitOn sep = [f] := List.splitOn_eq_singleton (hparts f (by simp))
    rw [List.flatMap_cons, List.append_assoc, List.append_assoc, List.singleton_append,
      List.splitOn_append_cons_self, hf, ih fun g hg => hparts g (by simp [hg])]
    rfl

end Text
