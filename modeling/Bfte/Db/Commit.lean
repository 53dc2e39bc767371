import Mathlib.Data.Nat.Notation
import Bfte.Lib.Guarded

/-!
# Write transactions and their hooks

`Database::write_with` and its kin, with any number of calls under way at once. A call
goes through `begin_write`, which redb lets one call past at a time, then its handler,
which registers hooks or fails, then `WriteTransactionCtx::commit`: it takes the order
lock, commits, which lets the next call past `begin_write`, runs the hooks and gives
the lock back. Everything that can be interleaved is a step of its own.

`H` stands for the hooks, which are closures and are taken to return. What a call does
is recorded in `events`; the source has no such record.
-/

namespace Bfte

/-- `WriteTransactionCtx`, as far as `on_commit` is concerned. -/
structure WriteTransactionCtx (H : Type) where
  hooks : List H

namespace WriteTransactionCtx

variable {H : Type}

/-- `WriteTransactionCtx::new`. -/
def new : WriteTransactionCtx H := ⟨[]⟩

/-- `on_commit`. -/
def onCommit (ctx : WriteTransactionCtx H) (f : H) : WriteTransactionCtx H :=
  ⟨ctx.hooks ++ [f]⟩

end WriteTransactionCtx

/-- Where a call of `write_with` is. -/
inductive WriteCall (H : Type) where
  /-- It was not made yet. -/
  | idle
  /-- It waits for redb to begin its transaction. -/
  | beginWrite
  /-- Its handler runs. -/
  | handler (ctx : WriteTransactionCtx H)
  /-- It is in `commit` and waits for the order lock. -/
  | orderLock (ctx : WriteTransactionCtx H)
  /-- It has the order lock, and redb is to commit. -/
  | dbCommit (ctx : WriteTransactionCtx H)
  /-- It has committed and has these hooks left to run. -/
  | hooks (left : List H)
  | returned (committed : Bool)

/-- What is recorded of a call. -/
inductive DbEvent (H : Type) where
  | registered (call : ℕ) (f : H)
  | committed (call : ℕ)
  | ran (call : ℕ) (f : H)

/-- What a call can do next. -/
inductive DbOp (H : Type) where
  | call (t : ℕ)
  | beginWrite (t : ℕ)
  | beginWriteFails (t : ℕ)
  | onCommit (t : ℕ) (f : H)
  | handlerReturns (t : ℕ)
  | handlerFails (t : ℕ)
  | lock (t : ℕ)
  | commit (t : ℕ)
  | commitFails (t : ℕ)
  | hook (t : ℕ)
  | unlock (t : ℕ)

/-- `Database`: the write transaction that redb has under way, the order lock, and the
calls. -/
structure Database (H : Type) where
  calls : ℕ → WriteCall H
  writeTransaction : Option ℕ
  commitHookOrderLock : Option ℕ
  events : List (DbEvent H)

namespace Database

variable {H : Type}

/-- `Database::open_inner`. -/
def openInner : Database H where
  calls _ := .idle
  writeTransaction := none
  commitHookOrderLock := none
  events := []

/-- A call is somewhere else. -/
def goto (s : Database H) (t : ℕ) (c : WriteCall H) : Database H :=
  { s with calls := fun t' => if t' = t then c else s.calls t' }

/-- What is next for a call, if it is its turn and no lock is in its way. A transaction
that is dropped, by a handler that fails or a commit that does, is over for redb, too;
the guard of the order lock is dropped wherever `commit` returns. -/
def tryStep (s : Database H) : DbOp H → Option (Database H)
  | .call t =>
      match s.calls t with
      | .idle => some (s.goto t .beginWrite)
      | _ => none
  | .beginWrite t =>
      match s.calls t, s.writeTransaction with
      | .beginWrite, none =>
          some { s.goto t (.handler .new) with writeTransaction := some t }
      | _, _ => none
  | .beginWriteFails t =>
      match s.calls t with
      | .beginWrite => some (s.goto t (.returned false))
      | _ => none
  | .onCommit t f =>
      match s.calls t with
      | .handler ctx => some { s.goto t (.handler (ctx.onCommit f)) with
          events := s.events ++ [.registered t f] }
      | _ => none
  | .handlerReturns t =>
      match s.calls t with
      | .handler ctx => some (s.goto t (.orderLock ctx))
      | _ => none
  | .handlerFails t =>
      match s.calls t with
      | .handler _ =>
          some { s.goto t (.returned false) with writeTransaction := none }
      | _ => none
  | .lock t =>
      match s.calls t, s.commitHookOrderLock with
      | .orderLock ctx, none =>
          some { s.goto t (.dbCommit ctx) with commitHookOrderLock := some t }
      | _, _ => none
  | .commit t =>
      match s.calls t with
      | .dbCommit ctx => some { s.goto t (.hooks ctx.hooks) with
          writeTransaction := none
          events := s.events ++ [.committed t] }
      | _ => none
  | .commitFails t =>
      match s.calls t with
      | .dbCommit _ => some { s.goto t (.returned false) with
          writeTransaction := none
          commitHookOrderLock := none }
      | _ => none
  | .hook t =>
      match s.calls t with
      | .hooks (f :: left) => some { s.goto t (.hooks left) with
          events := s.events ++ [.ran t f] }
      | _ => none
  | .unlock t =>
      match s.calls t with
      | .hooks [] =>
          some { s.goto t (.returned true) with commitHookOrderLock := none }
      | _ => none

/-- One step of a call; a call whose turn it is not stays where it is. -/
def step (s : Database H) (op : DbOp H) : Database H := (s.tryStep op).getD s

/-- An interleaving of the steps of the calls. -/
def run (s : Database H) (ops : List (DbOp H)) : Database H := Trail.run step s ops

/-! ## What the record says -/

/-- The transactions that have committed, in the order they did. -/
def committedCalls (events : List (DbEvent H)) : List ℕ :=
  events.filterMap fun
    | .committed t => some t
    | _ => none

/-- The hooks a transaction has registered, in the order it did. -/
def hooksOf (events : List (DbEvent H)) (t : ℕ) : List H :=
  events.filterMap fun
    | .registered t' f => if t' = t then some f else none
    | _ => none

/-- The hooks that have been run, in the order they were, each with its transaction. -/
def hooksRun (events : List (DbEvent H)) : List (ℕ × H) :=
  events.filterMap fun
    | .ran t f => some (t, f)
    | _ => none

/-- The hooks that the transaction with the order lock is about to run. -/
def hooksLeft (s : Database H) : List (ℕ × H) :=
  match s.commitHookOrderLock with
  | none => []
  | some t =>
      match s.calls t with
      | .hooks left => left.map fun f => (t, f)
      | _ => []

end Database

end Bfte
