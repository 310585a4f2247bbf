import GrammarFrontend.Diagnostic.Basic

/-! Buffers that collect diagnostics. A buffer is a handle on a record, and a clone of it is
another handle on the same record, so what one of them receives all of them show.
-/

namespace GrammarFrontend

/-- Handles in the order of their creation, and the records that they refer to. -/
structure BufferPool where
  records : List (List Diagnostic)
  handles : List Nat
deriving DecidableEq, Repr

namespace BufferPool

def empty : BufferPool := { records := [], handles := [] }

/-- Adds a handle on a fresh record. -/
def create (pool : BufferPool) : BufferPool :=
  {
    records := pool.records ++ [[]]
    handles := pool.handles ++ [pool.records.length]
  }

/-- Adds a handle on the record that handle `i` refers to. -/
def clone (pool : BufferPool) (i : Nat) : BufferPool :=
  { pool with handles := pool.handles ++ pool.handles[i]?.toList }

/-- What handle `i` has received and not lost, in the order of its reports. -/
def dump (pool : BufferPool) (i : Nat) : List Diagnostic :=
  (pool.handles[i]?.bind (pool.records[·]?)).getD []

def change (pool : BufferPool) (i : Nat) (f : List Diagnostic → List Diagnostic) : BufferPool :=
  match pool.handles[i]? with
  | some record => { pool with records := pool.records.modify record f }
  | none => pool

def report (pool : BufferPool) (i : Nat) (d : Diagnostic) : BufferPool :=
  pool.change i (· ++ [d])

def clear (pool : BufferPool) (i : Nat) : BufferPool := pool.change i (fun _ => [])

def errorCount (pool : BufferPool) (i : Nat) : Nat := (pool.dump i).length

def countOf (pool : BufferPool) (i : Nat) (kind : DiagnosticKind) : Nat :=
  (pool.dump i).countP (·.kind == kind)

/-- The error counts of all handles. -/
def errorCounts (pool : BufferPool) : List Nat :=
  (List.range pool.handles.length).map pool.errorCount

end BufferPool

end GrammarFrontend
