import DeltaModels.Library.Mealy
import Mathlib.Data.List.ReduceOption

/-!
# A stack that is used as a queue

Values are pushed at the back of a buffer and popped from the same end. A client that expects them
in the order they were pushed is served correctly as long as every pop finds only equal values in
the buffer, in particular when at most one is waiting. `inOrder_prefixes_iff` says that this is
also necessary: the first pop from a buffer with two different values is already out of order.
-/

namespace Stack

variable {ν : Type*}

inductive Op (ν : Type*) where
  | push (v : ν)
  | pop
  | skip
  deriving DecidableEq

/-- Push and pop at the back; a pop of an empty buffer gives nothing. -/
def step (s : List ν) : Op ν → List ν × Option ν
  | .push v => (s ++ [v], none)
  | .pop => (s.dropLast, s.getLast?)
  | .skip => (s, none)

def stack (ν : Type*) : Mealy (Op ν) (List ν) (Option ν) where
  step := step

/-- The values pushed, oldest first. -/
def pushed : List (Op ν) → List ν
  | [] => []
  | .push v :: ops => v :: pushed ops
  | .pop :: ops | .skip :: ops => pushed ops

/-- The values popped, oldest first. -/
def popped (s : List ν) (ops : List (Op ν)) : List ν := ((stack ν).trace s ops).reduceOption

/-- What was popped, then what is still waiting, is what was there, then what was pushed. -/
def InOrder (s : List ν) (ops : List (Op ν)) : Prop :=
  popped s ops ++ (stack ν).run s ops = s ++ pushed ops

/-- All waiting values are equal. -/
def Constant (s : List ν) : Prop := ∀ u ∈ s, ∀ v ∈ s, u = v

instance [DecidableEq ν] (s : List ν) : Decidable (Constant s) :=
  inferInstanceAs (Decidable (∀ u ∈ s, ∀ v ∈ s, u = v))

/-- The step condition: a pop finds only equal values. -/
def PopsConstant (s : List ν) (op : Op ν) : Prop := op = .pop → Constant s

/-- Moving the last element to the front changes nothing exactly when all elements are equal. -/
theorem cons_eq_concat_iff (s : List ν) (v : ν) : v :: s = s ++ [v] ↔ Constant (s ++ [v]) := by
  constructor
  · intro h
    have hall : ∀ u ∈ s, u = v := by
      induction s with
      | nil => simp
      | cons a s ih =>
        obtain ⟨rfl, hs⟩ : v = a ∧ v :: s = s ++ [v] := by
          simp only [List.cons_append, List.cons.injEq] at h
          exact ⟨h.1, by rw [← h.2, h.1]⟩
        intro u hu
        rcases List.mem_cons.mp hu with rfl | hu
        · rfl
        · exact ih hs u hu
    intro u hu w hw
    have hv : ∀ x ∈ s ++ [v], x = v := by
      intro x hx
      rcases List.mem_append.mp hx with hx | hx
      · exact hall x hx
      · simpa using hx
    rw [hv u hu, hv w hw]
  · intro h
    have hall : ∀ u ∈ s, u = v := fun u hu => h u (by simp [hu]) v (by simp)
    clear h
    induction s with
    | nil => rfl
    | cons a s ih =>
      obtain rfl : a = v := hall a (by simp)
      rw [List.cons_append, ← ih fun u hu => hall u (by simp [hu])]

/-- **A stack serves a queue's client exactly when it never pops from different values.** The
order is right after every prefix of the run if and only if each pop of the run finds only equal
values waiting. -/
theorem inOrder_prefixes_iff (s : List ν) (ops : List (Op ν)) :
    (∀ pre, pre <+: ops → InOrder s pre) ↔ (stack ν).Along PopsConstant s ops := by
  induction ops generalizing s with
  | nil => simp [InOrder, popped, pushed]
  | cons op ops ih =>
    -- a prefix is empty, or starts with `op` and goes on with a prefix of `ops`
    have hsplit : (∀ pre, pre <+: op :: ops → InOrder s pre) ↔
        ∀ pre, pre <+: ops → InOrder s (op :: pre) := by
      constructor
      · exact fun h pre hpre => h (op :: pre) (by simpa using hpre)
      · intro h pre hpre
        cases pre with
        | nil => simp [InOrder, popped, pushed]
        | cons o os =>
          obtain ⟨rfl, hos⟩ : o = op ∧ os <+: ops := by simpa using hpre
          exact h os hos
    rw [hsplit, Mealy.along_cons, ← ih]
    cases op with
    | push v =>
      simp [PopsConstant, InOrder, popped, pushed, stack, step]
    | skip =>
      simp [PopsConstant, InOrder, popped, pushed, stack, step]
    | pop =>
      rcases List.eq_nil_or_concat' s with rfl | ⟨s, v, rfl⟩
      · simp [PopsConstant, Constant, InOrder, popped, pushed, stack, step]
      · -- popping `v` is in order exactly when `v` could as well have been at the front
        have hpop : ∀ pre, InOrder (s ++ [v]) (.pop :: pre) ↔
            v :: (popped s pre ++ (stack ν).run s pre) = s ++ v :: pushed pre := by
          intro pre
          simp [InOrder, popped, pushed, stack, step]
        have hconst : PopsConstant (s ++ [v]) .pop ↔ v :: s = s ++ [v] := by
          rw [cons_eq_concat_iff]
          exact ⟨fun h => h rfl, fun h _ => h⟩
        have hstate : ((stack ν).step (s ++ [v]) .pop).1 = s := by simp [stack, step]
        rw [hconst, hstate]
        constructor
        · intro h
          have hfront : v :: s = s ++ [v] := by
            simpa [popped, pushed] using (hpop []).mp (h [] (by simp))
          refine ⟨hfront, fun pre hpre => ?_⟩
          have hv := (hpop pre).mp (h pre hpre)
          rw [List.append_cons, ← hfront, List.cons_append] at hv
          exact List.cons.inj hv |>.2
        · rintro ⟨hfront, h⟩ pre hpre
          rw [hpop, h pre hpre, List.append_cons, ← hfront, List.cons_append]

end Stack
