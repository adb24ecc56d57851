import DeltaModels.Library.Patch
import Mathlib.Logic.Function.Basic

/-!
# Logs of a memory

An `Access` is a read or a write of one address, with the data that has gone over. A log of accesses,
oldest first, is `Consistent` when it could be that of a memory: each read of an address that was
written before shows the data of the latest write.

Writes are patches, so `latestWrite` is `Patch.latest`. `consistent_filterMap_iff` is about logs that are
kept of something else, with one entry at most for each event.

`Replays` is about a log together with the memory before and after it: the reads show what the memory
held, and the writes are all that has happened to it.
-/

/-- A read or a write, with its data. -/
structure Access (κ ν : Type*) where
  addr : κ
  data : ν
  write : Bool
  deriving DecidableEq, Repr

namespace Access

variable {α κ ν : Type*} [DecidableEq κ]

/-- What an access stores. -/
def patch (x : Access κ ν) : Patch κ ν := if x.write then Patch.single x.addr x.data else Patch.empty

/-- The data of the latest write to an address. -/
def latestWrite (log : List (Access κ ν)) (k : κ) : Option ν := Patch.latest (log.map patch) k

/-- Each read of an address that was written before shows the data of the latest write. -/
def Consistent (log : List (Access κ ν)) : Prop :=
  ∀ pre x, pre ++ [x] <+: log → x.write = false → ∀ v, latestWrite pre x.addr = some v → x.data = v

@[simp] theorem latestWrite_nil (k : κ) : latestWrite ([] : List (Access κ ν)) k = none := rfl

theorem latestWrite_concat (log : List (Access κ ν)) (x : Access κ ν) (k : κ) :
    latestWrite (log ++ [x]) k = (x.patch k).or (latestWrite log k) := by
  rw [latestWrite, List.map_append, List.map_singleton, Patch.latest_concat, latestWrite]

/-- A read does not count. -/
theorem latestWrite_concat_read (log : List (Access κ ν)) {x : Access κ ν} (h : x.write = false)
    (k : κ) : latestWrite (log ++ [x]) k = latestWrite log k := by
  rw [latestWrite_concat, patch, h]
  rfl

/-- A write counts at its address. -/
theorem latestWrite_concat_write (log : List (Access κ ν)) {x : Access κ ν} (h : x.write = true)
    (k : κ) : latestWrite (log ++ [x]) k = if k = x.addr then some x.data else latestWrite log k := by
  rw [latestWrite_concat, patch, h, if_pos rfl, Patch.single]
  split <;> rfl

/-- The same access under other addresses and with other data. -/
def map {κ' ν' : Type*} (f : κ → κ') (g : ν → ν') (x : Access κ ν) : Access κ' ν' :=
  ⟨f x.addr, g x.data, x.write⟩

/-- Where addresses are not mixed up, the latest write is still the latest. -/
theorem latestWrite_map {κ' ν' : Type*} [DecidableEq κ'] {f : κ → κ'} (hf : Function.Injective f)
    (g : ν → ν') (log : List (Access κ ν)) (k : κ) :
    latestWrite (log.map (map f g)) (f k) = (latestWrite log k).map g := by
  induction log using List.reverseRecOn with
  | nil => rfl
  | append_singleton log x ih =>
    rw [List.map_append, List.map_singleton]
    cases hx : x.write with
    | false =>
      have hread : (map f g x).write = false := hx
      rw [latestWrite_concat_read _ hread, latestWrite_concat_read _ hx, ih]
    | true =>
      have hwrite : (map f g x).write = true := hx
      have haddr : (map f g x).addr = f x.addr := rfl
      rw [latestWrite_concat_write _ hwrite, latestWrite_concat_write _ hx, ih, haddr]
      by_cases hk : k = x.addr
      · rw [if_pos hk, if_pos (congrArg f hk)]
        rfl
      · rw [if_neg hk, if_neg (mt (@hf k x.addr) hk)]

theorem consistent_nil : Consistent ([] : List (Access κ ν)) := by
  intro pre x hpre
  exact absurd (List.prefix_nil.mp hpre) (by simp)

/-- One more access: if it is a read, it has to show the latest data. -/
theorem consistent_concat {log : List (Access κ ν)} {x : Access κ ν} :
    Consistent (log ++ [x]) ↔ Consistent log ∧
      (x.write = false → ∀ v, latestWrite log x.addr = some v → x.data = v) := by
  constructor
  · intro h
    exact ⟨fun pre y hpre => h pre y (hpre.trans (List.prefix_append log [x])),
      h log x (List.prefix_refl _)⟩
  · rintro ⟨hlog, hx⟩ pre y hpre
    rcases List.prefix_concat_iff.mp hpre with heq | hpre
    · obtain ⟨rfl, hy⟩ := List.append_inj' heq rfl
      cases hy
      exact hx
    · exact hlog pre y hpre

/-- **Logs of events**: consistency is a matter of each event that is logged as a read. -/
theorem consistent_filterMap_iff (f : α → Option (Access κ ν)) (l : List α) :
    Consistent (l.filterMap f) ↔ ∀ pre a x, pre ++ [a] <+: l → f a = some x → x.write = false →
      ∀ v, latestWrite (pre.filterMap f) x.addr = some v → x.data = v := by
  constructor
  · rintro h pre a x ⟨post, rfl⟩ hx
    refine h (pre.filterMap f) x ⟨post.filterMap f, ?_⟩
    simp [List.filterMap_append, hx]
  · intro h
    induction l using List.reverseRecOn with
    | nil => exact consistent_nil
    | append_singleton l a ih =>
      have hl := ih fun pre b x hpre => h pre b x (hpre.trans (List.prefix_append l [a]))
      rw [List.filterMap_append]
      cases ha : f a with
      | none => simpa [ha] using hl
      | some x =>
        rw [List.filterMap_cons_some ha]
        exact consistent_concat.mpr ⟨hl, h l a x (List.prefix_refl _) ha⟩

/-! ## From one memory to another -/

/-- The log leads from the memory `m` to the memory `m'`: each read shows what the log has left at its
address until then, and in the end every address holds what the log leaves there. -/
structure Replays (m : κ → ν) (log : List (Access κ ν)) (m' : κ → ν) : Prop where
  reads : ∀ pre x, pre ++ [x] <+: log → x.write = false →
    x.data = (latestWrite pre x.addr).getD (m x.addr)
  leaves : ∀ k, m' k = (latestWrite log k).getD (m k)

namespace Replays

variable {m m' m'' : κ → ν} {log : List (Access κ ν)} {x : Access κ ν}

theorem nil (m : κ → ν) : Replays m [] m where
  reads pre x hpre := absurd (List.prefix_nil.mp hpre) (by simp)
  leaves _ := rfl

/-- One more access keeps what the reads before it show. -/
theorem reads_concat (h : Replays m log m')
    (hx : x.write = false → x.data = (latestWrite log x.addr).getD (m x.addr)) :
    ∀ pre y, pre ++ [y] <+: log ++ [x] → y.write = false →
      y.data = (latestWrite pre y.addr).getD (m y.addr) := by
  intro pre y hpre hy
  rcases List.prefix_concat_iff.mp hpre with heq | hpre
  · obtain ⟨rfl, hyx⟩ := List.append_inj' heq rfl
    cases hyx
    exact hx hy
  · exact h.reads pre y hpre hy

/-- A read that shows what the memory holds. -/
theorem read (h : Replays m log m') (hx : x.write = false) (hdata : x.data = m' x.addr) :
    Replays m (log ++ [x]) m' where
  reads := h.reads_concat fun _ => hdata.trans (h.leaves _)
  leaves k := by rw [latestWrite_concat_read log hx, h.leaves]

/-- A write that is stored. -/
theorem write (h : Replays m log m') (hx : x.write = true)
    (hm : ∀ k, m'' k = if k = x.addr then x.data else m' k) : Replays m (log ++ [x]) m'' where
  reads := h.reads_concat fun hread => absurd (hx.symm.trans hread) (by decide)
  leaves k := by
    rw [latestWrite_concat_write log hx, hm]
    split
    · rfl
    · exact h.leaves k

end Replays

end Access
