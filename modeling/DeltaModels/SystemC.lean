import Mathlib.Tactic.Common

/-!
# What the models use of the simulation kernel

A process runs without interruption until it waits, so each stretch between two waits is one
function here. Two things remain of the kernel: what can stop a process, and signals, whose
writes are seen only after the next update.
-/

namespace DeltaModels

/-- What stops a process: a report of severity error (it throws) or fatal (it aborts), or an access
outside of an array, after which nothing is promised. -/
inductive Fault where
  | report (msgType msg : String)
  | outOfRange
  deriving DecidableEq, Repr

/-- A signal: the value that is read, and the value from the next update on. -/
structure Signal (α : Type*) where
  cur : α
  next : α
  deriving DecidableEq, Repr

namespace Signal

variable {α : Type*}

def read (s : Signal α) : α := s.cur

def write (s : Signal α) (a : α) : Signal α := { s with next := a }

def update (s : Signal α) : Signal α := { s with cur := s.next }

end Signal

end DeltaModels
