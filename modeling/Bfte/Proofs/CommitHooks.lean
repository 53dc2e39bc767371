import Mathlib.Data.List.Nodup
import Mathlib.Logic.Relation
import Bfte.Db.Commit

/-!
# Hooks run in the order of the commits

A call holds redb's write transaction from `begin_write` until it commits or is
dropped, and the order lock from before it commits until its hooks have run. So when
it commits, the hooks of all commits before have run, and nobody else runs hooks until
its own have.

`Ordered` says who holds what and what the record looks like, and every step keeps it.
No call that holds the order lock waits for anything, and no call that holds the write
transaction waits for anything but the order lock, which is why every call gets
through.
-/

namespace Bfte

variable {H : Type}

namespace WriteCall

/-- The hooks a call has registered, as long as it has not committed. -/
def registered : WriteCall H → Option (List H)
  | .idle | .beginWrite => some []
  | .handler ctx | .orderLock ctx | .dbCommit ctx => some ctx.hooks
  | .hooks _ | .returned _ => none

def IsCommitted : WriteCall H → Prop
  | .hooks _ | .returned true => True
  | _ => False

/-- It was made and has not returned. -/
def IsUnderWay : WriteCall H → Prop
  | .idle | .returned _ => False
  | _ => True

def HoldsWriteTransaction : WriteCall H → Prop
  | .handler _ | .orderLock _ | .dbCommit _ => True
  | _ => False

def HoldsOrderLock : WriteCall H → Prop
  | .dbCommit _ | .hooks _ => True
  | _ => False

end WriteCall

namespace Database

variable {s s' : Database H} {t : ℕ} {c : WriteCall H}

@[simp] theorem goto_calls_self : (s.goto t c).calls t = c := if_pos rfl

theorem goto_calls_of_ne {t' : ℕ} (h : t' ≠ t) : (s.goto t c).calls t' = s.calls t' :=
  if_neg h

/-! ## What a step does -/

/-- The ways a call takes a step. -/
inductive StepCase (s : Database H) : DbOp H → Database H → Prop
  | call (t : ℕ) (hcall : s.calls t = .idle) :
      StepCase s (.call t) (s.goto t .beginWrite)
  | beginWrite (t : ℕ) (hcall : s.calls t = .beginWrite)
      (hfree : s.writeTransaction = none) :
      StepCase s (.beginWrite t)
        { s.goto t (.handler .new) with writeTransaction := some t }
  | beginWriteFails (t : ℕ) (hcall : s.calls t = .beginWrite) :
      StepCase s (.beginWriteFails t) (s.goto t (.returned false))
  | onCommit (t : ℕ) (f : H) (ctx : WriteTransactionCtx H)
      (hcall : s.calls t = .handler ctx) :
      StepCase s (.onCommit t f) { s.goto t (.handler (ctx.onCommit f)) with
        events := s.events ++ [.registered t f] }
  | handlerReturns (t : ℕ) (ctx : WriteTransactionCtx H)
      (hcall : s.calls t = .handler ctx) :
      StepCase s (.handlerReturns t) (s.goto t (.orderLock ctx))
  | handlerFails (t : ℕ) (ctx : WriteTransactionCtx H)
      (hcall : s.calls t = .handler ctx) :
      StepCase s (.handlerFails t)
        { s.goto t (.returned false) with writeTransaction := none }
  | lock (t : ℕ) (ctx : WriteTransactionCtx H) (hcall : s.calls t = .orderLock ctx)
      (hfree : s.commitHookOrderLock = none) :
      StepCase s (.lock t)
        { s.goto t (.dbCommit ctx) with commitHookOrderLock := some t }
  | commit (t : ℕ) (ctx : WriteTransactionCtx H) (hcall : s.calls t = .dbCommit ctx) :
      StepCase s (.commit t) { s.goto t (.hooks ctx.hooks) with
        writeTransaction := none
        events := s.events ++ [.committed t] }
  | commitFails (t : ℕ) (ctx : WriteTransactionCtx H)
      (hcall : s.calls t = .dbCommit ctx) :
      StepCase s (.commitFails t) { s.goto t (.returned false) with
        writeTransaction := none
        commitHookOrderLock := none }
  | hook (t : ℕ) (f : H) (left : List H) (hcall : s.calls t = .hooks (f :: left)) :
      StepCase s (.hook t) { s.goto t (.hooks left) with
        events := s.events ++ [.ran t f] }
  | unlock (t : ℕ) (hcall : s.calls t = .hooks []) :
      StepCase s (.unlock t)
        { s.goto t (.returned true) with commitHookOrderLock := none }

theorem tryStep_cases {op : DbOp H} (h : s.tryStep op = some s') :
    StepCase s op s' := by
  cases op <;> dsimp only [tryStep] at h <;> split at h <;> cases h
  · next hcall => exact .call _ hcall
  · next hcall hfree => exact .beginWrite _ hcall hfree
  · next hcall => exact .beginWriteFails _ hcall
  · next ctx hcall => exact .onCommit _ _ ctx hcall
  · next ctx hcall => exact .handlerReturns _ ctx hcall
  · next ctx hcall => exact .handlerFails _ ctx hcall
  · next ctx hcall hfree => exact .lock _ ctx hcall hfree
  · next ctx hcall => exact .commit _ ctx hcall
  · next ctx hcall => exact .commitFails _ ctx hcall
  · next f left hcall => exact .hook _ f left hcall
  · next hcall => exact .unlock _ hcall

/-! ## Who holds what, and what the record says -/

/-- The hooks of some transactions, one transaction after the other. -/
def hooksInOrder (events : List (DbEvent H)) (calls : List ℕ) : List (ℕ × H) :=
  calls.flatMap fun t => (hooksOf events t).map fun f => (t, f)

/-- What holds of a database in every interleaving. -/
structure Ordered (s : Database H) : Prop where
  writer : ∀ t, s.writeTransaction = some t ↔ (s.calls t).HoldsWriteTransaction
  orderLock : ∀ t, s.commitHookOrderLock = some t ↔ (s.calls t).HoldsOrderLock
  registered : ∀ t hooks, (s.calls t).registered = some hooks →
    hooksOf s.events t = hooks
  committed : ∀ t, t ∈ committedCalls s.events ↔ (s.calls t).IsCommitted
  once : (committedCalls s.events).Nodup
  inOrder : hooksRun s.events ++ s.hooksLeft =
    hooksInOrder s.events (committedCalls s.events)

theorem openInner_ordered : Ordered (openInner : Database H) where
  writer t := iff_of_false (by simp [openInner]) id
  orderLock t := iff_of_false (by simp [openInner]) id
  registered t hooks h := Option.some.inj h
  committed t := iff_of_false List.not_mem_nil id
  once := List.nodup_nil
  inOrder := rfl

/-- What a step of call `t` does to a lock, given whether the call holds it before and
after. -/
inductive LockStep (t : ℕ) (before after : Prop) : Option ℕ → Option ℕ → Prop
  | kept (holder : Option ℕ) (h : before ↔ after) :
      LockStep t before after holder holder
  | taken (h : after) : LockStep t before after none (some t)
  | released (holder : Option ℕ) (hbefore : before) (hafter : ¬ after) :
      LockStep t before after holder none

theorem LockStep.holder {holder holder' : Option ℕ} {P : WriteCall H → Prop}
    {c₀ : WriteCall H} (hstep : LockStep t (P c₀) (P c) holder holder')
    (hcall : s.calls t = c₀) (h : ∀ t, holder = some t ↔ P (s.calls t)) (t' : ℕ) :
    holder' = some t' ↔ P ((s.goto t c).calls t') := by
  by_cases ht : t' = t
  · rw [ht, goto_calls_self]
    cases hstep with
    | kept _ hkept => rw [h, hcall, hkept]
    | taken hafter => exact iff_of_true rfl hafter
    | released _ _ hafter => exact iff_of_false (fun heq => by cases heq) hafter
  · rw [goto_calls_of_ne ht, ← h]
    cases hstep with
    | kept => exact Iff.rfl
    | taken =>
        refine iff_of_false (fun heq => ht ?_) fun heq => by cases heq
        exact (Option.some.inj heq).symm
    | released _ hbefore =>
        have hholder : holder = some t := (h t).mpr (hcall ▸ hbefore)
        rw [hholder]
        refine iff_of_false (fun heq => by cases heq) fun heq => ht ?_
        exact (Option.some.inj heq).symm

theorem holder_kept {holder : Option ℕ} {c₀ : WriteCall H} (P : WriteCall H → Prop)
    (hcall : s.calls t = c₀) (hkept : P c₀ ↔ P c)
    (h : ∀ t, holder = some t ↔ P (s.calls t)) (t' : ℕ) :
    holder = some t' ↔ P ((s.goto t c).calls t') :=
  (LockStep.kept holder hkept).holder hcall h t'

theorem hooksLeft_eq_nil (h : s.commitHookOrderLock = none) : s.hooksLeft = [] := by
  unfold hooksLeft
  rw [h]

theorem hooksLeft_of_hooks {left : List H} (h : s.commitHookOrderLock = some t)
    (hcall : s.calls t = .hooks left) : s.hooksLeft = left.map fun f => (t, f) := by
  unfold hooksLeft
  rw [h]
  dsimp only
  rw [hcall]

theorem hooksLeft_of_dbCommit {ctx : WriteTransactionCtx H}
    (h : s.commitHookOrderLock = some t) (hcall : s.calls t = .dbCommit ctx) :
    s.hooksLeft = [] := by
  unfold hooksLeft
  rw [h]
  dsimp only
  rw [hcall]

/-- What a call without the order lock does leaves the hooks of the one that has it. -/
theorem hooksLeft_goto (h : Ordered s) (ht : ¬ (s.calls t).HoldsOrderLock) :
    (s.goto t c).hooksLeft = s.hooksLeft := by
  have hsame : (s.goto t c).commitHookOrderLock = s.commitHookOrderLock := rfl
  unfold hooksLeft
  rw [hsame]
  cases hlock : s.commitHookOrderLock with
  | none => rfl
  | some t' =>
      have hne : t' ≠ t := by
        intro heq
        rw [heq] at hlock
        exact ht ((h.orderLock t).mp hlock)
      simp only [goto_calls_of_ne hne]

/-- A call that goes on has its hooks registered as before, if it still carries them. -/
theorem Ordered.registered_goto (h : Ordered s) {c₀ : WriteCall H}
    (hcall : s.calls t = c₀)
    (hregistered : ∀ hooks, c.registered = some hooks → c₀.registered = some hooks)
    {t' : ℕ} {hooks : List H}
    (hhooks : ((s.goto t c).calls t').registered = some hooks) :
    hooksOf s.events t' = hooks := by
  refine h.registered t' hooks ?_
  by_cases ht : t' = t
  · rw [ht, goto_calls_self] at hhooks
    rw [ht, hcall]
    exact hregistered hooks hhooks
  · rw [goto_calls_of_ne ht] at hhooks
    exact hhooks

/-- A call that goes on without committing leaves the commits as they are. -/
theorem Ordered.committed_goto (h : Ordered s) {c₀ : WriteCall H}
    (hcall : s.calls t = c₀) (hcommitted : c₀.IsCommitted ↔ c.IsCommitted) (t' : ℕ) :
    t' ∈ committedCalls s.events ↔ ((s.goto t c).calls t').IsCommitted := by
  rw [h.committed]
  by_cases ht : t' = t
  · rw [ht, goto_calls_self, hcall]
    exact hcommitted
  · rw [goto_calls_of_ne ht]

/-- A step that is not recorded. -/
theorem Ordered.goto (h : Ordered s) {c₀ : WriteCall H} {writer lock : Option ℕ}
    (hcall : s.calls t = c₀)
    (hwriter : LockStep t c₀.HoldsWriteTransaction c.HoldsWriteTransaction
      s.writeTransaction writer)
    (hlock : LockStep t c₀.HoldsOrderLock c.HoldsOrderLock s.commitHookOrderLock lock)
    (hregistered : ∀ hooks, c.registered = some hooks → c₀.registered = some hooks)
    (hcommitted : c₀.IsCommitted ↔ c.IsCommitted)
    (hleft : ({ s.goto t c with
      writeTransaction := writer
      commitHookOrderLock := lock } : Database H).hooksLeft = s.hooksLeft) :
    Ordered { s.goto t c with
      writeTransaction := writer
      commitHookOrderLock := lock } where
  writer := hwriter.holder hcall h.writer
  orderLock := hlock.holder hcall h.orderLock
  registered t' hooks hhooks := h.registered_goto hcall hregistered hhooks
  committed := h.committed_goto hcall hcommitted
  once := h.once
  inOrder := by
    rw [hleft]
    exact h.inOrder

/-! ### Steps that are recorded -/

theorem committedCalls_append (l l' : List (DbEvent H)) :
    committedCalls (l ++ l') = committedCalls l ++ committedCalls l' :=
  List.filterMap_append

theorem hooksRun_append (l l' : List (DbEvent H)) :
    hooksRun (l ++ l') = hooksRun l ++ hooksRun l' := List.filterMap_append

theorem hooksOf_append (l l' : List (DbEvent H)) (t : ℕ) :
    hooksOf (l ++ l') t = hooksOf l t ++ hooksOf l' t := List.filterMap_append

theorem hooksOf_registered (l : List (DbEvent H)) (t t' : ℕ) (f : H) :
    hooksOf (l ++ [.registered t f]) t' =
      hooksOf l t' ++ if t = t' then [f] else [] := by
  rw [hooksOf_append]
  by_cases ht : t = t'
  · simp [hooksOf, ht]
  · simp [hooksOf, ht]

/-- Hooks that are registered by a transaction that has not committed are in nobody's
way. -/
theorem hooksInOrder_registered {l : List (DbEvent H)} {calls : List ℕ} {f : H}
    (h : t ∉ calls) :
    hooksInOrder (l ++ [.registered t f]) calls = hooksInOrder l calls := by
  unfold hooksInOrder
  refine List.flatMap_congr fun t' ht' => ?_
  have hne : t ≠ t' := fun heq => h (heq ▸ ht')
  rw [hooksOf_registered, if_neg hne, List.append_nil]

theorem Ordered.onCommit (h : Ordered s) {ctx : WriteTransactionCtx H} {f : H}
    (hcall : s.calls t = .handler ctx) :
    Ordered { s.goto t (.handler (ctx.onCommit f)) with
      events := s.events ++ [.registered t f] } := by
  have hcommitted : committedCalls (s.events ++ [.registered t f]) =
      committedCalls s.events :=
    (committedCalls_append ..).trans (List.append_nil _)
  have hrun : hooksRun (s.events ++ [.registered t f]) = hooksRun s.events :=
    (hooksRun_append ..).trans (List.append_nil _)
  have hnot : t ∉ committedCalls s.events := by
    rw [h.committed, hcall]
    exact id
  refine ⟨holder_kept WriteCall.HoldsWriteTransaction hcall Iff.rfl h.writer,
    holder_kept WriteCall.HoldsOrderLock hcall Iff.rfl h.orderLock,
    fun t' hooks => ?_, fun t' => ?_, ?_, ?_⟩
  · show ((s.goto t _).calls t').registered = _ → _
    intro hhooks
    show hooksOf (s.events ++ _) t' = _
    rw [hooksOf_registered]
    by_cases ht : t' = t
    · rw [ht, goto_calls_self] at hhooks
      rw [ht, if_pos rfl, h.registered t ctx.hooks (by rw [hcall]; rfl)]
      exact Option.some.inj hhooks
    · rw [goto_calls_of_ne ht] at hhooks
      rw [if_neg (Ne.symm ht), List.append_nil]
      exact h.registered t' hooks hhooks
  · show t' ∈ committedCalls (s.events ++ _) ↔ ((s.goto t _).calls t').IsCommitted
    rw [hcommitted]
    exact h.committed_goto (c := .handler (ctx.onCommit f)) hcall Iff.rfl t'
  · show (committedCalls (s.events ++ _)).Nodup
    rw [hcommitted]
    exact h.once
  · show hooksRun (s.events ++ _) ++ (s.goto t _).hooksLeft =
      hooksInOrder (s.events ++ _) (committedCalls (s.events ++ _))
    rw [hrun, hcommitted, hooksInOrder_registered hnot,
      hooksLeft_goto h (hcall ▸ id)]
    exact h.inOrder

theorem Ordered.commit (h : Ordered s) {ctx : WriteTransactionCtx H}
    (hcall : s.calls t = .dbCommit ctx) :
    Ordered { s.goto t (.hooks ctx.hooks) with
      writeTransaction := none
      events := s.events ++ [.committed t] } := by
  have hholder : s.commitHookOrderLock = some t := (h.orderLock t).mpr (hcall ▸ trivial)
  have hcommitted : committedCalls (s.events ++ [.committed t]) =
      committedCalls s.events ++ [t] := committedCalls_append ..
  have hrun : hooksRun (s.events ++ [.committed t]) = hooksRun s.events :=
    (hooksRun_append ..).trans (List.append_nil _)
  have hhooks : ∀ t', hooksOf (s.events ++ [.committed t]) t' = hooksOf s.events t' :=
    fun t' => (hooksOf_append ..).trans (List.append_nil _)
  have hnot : t ∉ committedCalls s.events := by
    rw [h.committed, hcall]
    exact id
  refine ⟨(LockStep.released _ trivial id).holder hcall h.writer,
    holder_kept WriteCall.HoldsOrderLock hcall Iff.rfl h.orderLock,
    fun t' hooks => ?_, fun t' => ?_, ?_, ?_⟩
  · show ((s.goto t _).calls t').registered = _ → hooksOf (s.events ++ _) t' = _
    rw [hhooks]
    exact h.registered_goto (c := .hooks ctx.hooks) hcall nofun
  · show t' ∈ committedCalls (s.events ++ _) ↔ ((s.goto t _).calls t').IsCommitted
    rw [hcommitted, List.mem_append, List.mem_singleton, h.committed]
    by_cases ht : t' = t
    · rw [ht, goto_calls_self]
      exact iff_of_true (Or.inr rfl) trivial
    · rw [goto_calls_of_ne ht]
      exact or_iff_left ht
  · show (committedCalls (s.events ++ _)).Nodup
    rw [hcommitted, ← List.concat_eq_append]
    exact h.once.concat hnot
  · show hooksRun (s.events ++ _) ++ _ =
      hooksInOrder (s.events ++ _) (committedCalls (s.events ++ _))
    -- the hooks of the commits before have all been run
    have hbefore := h.inOrder
    rw [hooksLeft_of_dbCommit hholder hcall, List.append_nil] at hbefore
    have hleft : ({ s.goto t (.hooks ctx.hooks) with
        writeTransaction := none
        events := s.events ++ [.committed t] } : Database H).hooksLeft =
          ctx.hooks.map fun f => (t, f) := hooksLeft_of_hooks hholder goto_calls_self
    rw [hrun, hcommitted, hleft, hbefore]
    simp only [hooksInOrder, hhooks, List.flatMap_append, List.flatMap_singleton,
      h.registered t ctx.hooks (by rw [hcall]; rfl)]

theorem Ordered.hook (h : Ordered s) {f : H} {left : List H}
    (hcall : s.calls t = .hooks (f :: left)) :
    Ordered { s.goto t (.hooks left) with events := s.events ++ [.ran t f] } := by
  have hholder : s.commitHookOrderLock = some t := (h.orderLock t).mpr (hcall ▸ trivial)
  have hcommitted : committedCalls (s.events ++ [.ran t f]) = committedCalls s.events :=
    (committedCalls_append ..).trans (List.append_nil _)
  have hrun : hooksRun (s.events ++ [.ran t f]) = hooksRun s.events ++ [(t, f)] :=
    hooksRun_append ..
  have hhooks : ∀ t', hooksOf (s.events ++ [.ran t f]) t' = hooksOf s.events t' :=
    fun t' => (hooksOf_append ..).trans (List.append_nil _)
  refine ⟨holder_kept WriteCall.HoldsWriteTransaction hcall Iff.rfl h.writer,
    holder_kept WriteCall.HoldsOrderLock hcall Iff.rfl h.orderLock,
    fun t' hooks => ?_, fun t' => ?_, ?_, ?_⟩
  · show ((s.goto t _).calls t').registered = _ → hooksOf (s.events ++ _) t' = _
    rw [hhooks]
    exact h.registered_goto (c := .hooks left) hcall nofun
  · show t' ∈ committedCalls (s.events ++ _) ↔ ((s.goto t _).calls t').IsCommitted
    rw [hcommitted]
    exact h.committed_goto (c := .hooks left) hcall Iff.rfl t'
  · show (committedCalls (s.events ++ _)).Nodup
    rw [hcommitted]
    exact h.once
  · show hooksRun (s.events ++ _) ++ _ =
      hooksInOrder (s.events ++ _) (committedCalls (s.events ++ _))
    have hbefore := h.inOrder
    rw [hooksLeft_of_hooks hholder hcall] at hbefore
    have hleft : ({ s.goto t (.hooks left) with
        events := s.events ++ [.ran t f] } : Database H).hooksLeft =
          left.map fun f => (t, f) := hooksLeft_of_hooks hholder goto_calls_self
    rw [hrun, hcommitted, hleft, List.append_assoc]
    simp only [hooksInOrder, hhooks]
    exact hbefore

theorem Ordered.step_case (h : Ordered s) {op : DbOp H} (hs : StepCase s op s') :
    Ordered s' := by
  cases hs with
  | call t hcall =>
      refine h.goto hcall (.kept _ Iff.rfl) (.kept _ Iff.rfl) (fun _ hooks => hooks)
        Iff.rfl ?_
      exact hooksLeft_goto h (hcall ▸ id)
  | beginWrite t hcall hfree =>
      refine h.goto hcall ?_ (.kept _ Iff.rfl) (fun _ hooks => hooks) Iff.rfl ?_
      · rw [hfree]
        exact .taken trivial
      · exact hooksLeft_goto h (hcall ▸ id)
  | beginWriteFails t hcall =>
      refine h.goto hcall (.kept _ Iff.rfl) (.kept _ Iff.rfl) (fun _ hooks => ?_)
        Iff.rfl ?_
      · cases hooks
      · exact hooksLeft_goto h (hcall ▸ id)
  | onCommit t f ctx hcall => exact h.onCommit hcall
  | handlerReturns t ctx hcall =>
      refine h.goto hcall (.kept _ Iff.rfl) (.kept _ Iff.rfl) (fun _ hooks => hooks)
        Iff.rfl ?_
      exact hooksLeft_goto h (hcall ▸ id)
  | handlerFails t ctx hcall =>
      refine h.goto hcall (.released _ trivial id) (.kept _ Iff.rfl) (fun _ hooks => ?_)
        Iff.rfl ?_
      · cases hooks
      · exact hooksLeft_goto h (hcall ▸ id)
  | lock t ctx hcall hfree =>
      refine h.goto hcall (.kept _ Iff.rfl) ?_ (fun _ hooks => hooks) Iff.rfl ?_
      · rw [hfree]
        exact .taken trivial
      · have hleft : ({ s.goto t (.dbCommit ctx) with
            commitHookOrderLock := some t } : Database H).hooksLeft = [] :=
          hooksLeft_of_dbCommit rfl goto_calls_self
        exact hleft.trans (hooksLeft_eq_nil hfree).symm
  | commit t ctx hcall => exact h.commit hcall
  | commitFails t ctx hcall =>
      have hholder := (h.orderLock t).mpr (hcall ▸ trivial)
      refine h.goto hcall (.released _ trivial id) (.released _ trivial id)
        (fun _ hooks => ?_) Iff.rfl ?_
      · cases hooks
      · rw [hooksLeft_eq_nil rfl, hooksLeft_of_dbCommit hholder hcall]
  | hook t f left hcall => exact h.hook hcall
  | unlock t hcall =>
      have hholder := (h.orderLock t).mpr (hcall ▸ trivial)
      refine h.goto hcall (.kept _ Iff.rfl) (.released _ trivial id)
        (fun _ hooks => ?_) Iff.rfl ?_
      · cases hooks
      · rw [hooksLeft_eq_nil rfl, hooksLeft_of_hooks hholder hcall]
        rfl

theorem Ordered.tryStep (h : Ordered s) {op : DbOp H} (hs : s.tryStep op = some s') :
    Ordered s' := h.step_case (tryStep_cases hs)

theorem step_ordered (s : Database H) (op : DbOp H) (h : Ordered s) :
    Ordered (s.step op) := by
  unfold step
  cases hs : s.tryStep op with
  | none => exact h
  | some s' => exact h.tryStep hs

theorem run_ordered (ops : List (DbOp H)) :
    Ordered ((openInner : Database H).run ops) :=
  Trail.run_invariant step_ordered openInner_ordered ops

/-! ## Every call gets through -/

/-- The steps of a call that was made, if its handler is done and nothing fails. -/
def Advancing : DbOp H → Prop
  | .beginWrite _ | .handlerReturns _ | .lock _ | .commit _ | .hook _ | .unlock _ => True
  | _ => False

def Advances (s s' : Database H) : Prop :=
  ∃ op, Advancing op ∧ s.tryStep op = some s'

/-- Call `t` has got through, by its own steps. -/
structure Through (s : Database H) (t : ℕ) (s' : Database H) : Prop where
  steps : Relation.ReflTransGen Advances s s'
  returned : s'.calls t = .returned true
  unlocked : s'.commitHookOrderLock = none
  others : ∀ t', t' ≠ t → s'.calls t' = s.calls t'

theorem Advances.ordered (hs : Advances s s') (h : Ordered s) : Ordered s' := by
  obtain ⟨op, _, hs⟩ := hs
  exact h.tryStep hs

theorem Ordered.steps (hs : Relation.ReflTransGen Advances s s') (h : Ordered s) :
    Ordered s' := by
  induction hs with
  | refl => exact h
  | tail _ hlast ih => exact hlast.ordered ih

/-- One step more at the beginning. -/
theorem Through.head {s₁ : Database H} (hstep : Advances s s₁)
    (hothers : ∀ t', t' ≠ t → s₁.calls t' = s.calls t') (h : Through s₁ t s') :
    Through s t s' where
  steps := .head hstep h.steps
  returned := h.returned
  unlocked := h.unlocked
  others t' ht := (h.others t' ht).trans (hothers t' ht)

/-- A call that runs its hooks waits for nothing. -/
theorem through_of_hooks {left : List H} (hcall : s.calls t = .hooks left) :
    ∃ s', Through s t s' ∧ s'.writeTransaction = s.writeTransaction := by
  induction left generalizing s with
  | nil =>
      refine ⟨{ s.goto t (.returned true) with commitHookOrderLock := none },
        ⟨.single ⟨.unlock t, trivial, ?_⟩, goto_calls_self, rfl, ?_⟩, rfl⟩
      · simp only [tryStep, hcall]
      · exact fun t' ht => goto_calls_of_ne ht
  | cons f left ih =>
      let s₁ : Database H := { s.goto t (.hooks left) with
        events := s.events ++ [.ran t f] }
      have hstep : Advances s s₁ := ⟨.hook t, trivial, by simp only [tryStep, hcall]; rfl⟩
      obtain ⟨s', hthrough, hwriter⟩ := ih (s := s₁) goto_calls_self
      exact ⟨s', hthrough.head hstep fun t' ht => goto_calls_of_ne ht, hwriter⟩

/-- Nor does a call that has the order lock and is to commit. -/
theorem through_of_dbCommit {ctx : WriteTransactionCtx H}
    (hcall : s.calls t = .dbCommit ctx) :
    ∃ s', Through s t s' ∧ s'.writeTransaction = none := by
  let s₁ : Database H := { s.goto t (.hooks ctx.hooks) with
    writeTransaction := none
    events := s.events ++ [.committed t] }
  have hstep : Advances s s₁ := ⟨.commit t, trivial, by simp only [tryStep, hcall]; rfl⟩
  obtain ⟨s', hthrough, hwriter⟩ := through_of_hooks (s := s₁) goto_calls_self
  exact ⟨s', hthrough.head hstep fun t' ht => goto_calls_of_ne ht, hwriter⟩

theorem through_of_orderLock {ctx : WriteTransactionCtx H}
    (hcall : s.calls t = .orderLock ctx) (hfree : s.commitHookOrderLock = none) :
    ∃ s', Through s t s' ∧ s'.writeTransaction = none := by
  let s₁ : Database H := { s.goto t (.dbCommit ctx) with commitHookOrderLock := some t }
  have hstep : Advances s s₁ :=
    ⟨.lock t, trivial, by simp only [tryStep, hcall, hfree]; rfl⟩
  obtain ⟨s', hthrough, hwriter⟩ := through_of_dbCommit (s := s₁) goto_calls_self
  exact ⟨s', hthrough.head hstep fun t' ht => goto_calls_of_ne ht, hwriter⟩

theorem through_of_handler {ctx : WriteTransactionCtx H}
    (hcall : s.calls t = .handler ctx) (hfree : s.commitHookOrderLock = none) :
    ∃ s', Through s t s' ∧ s'.writeTransaction = none := by
  let s₁ : Database H := s.goto t (.orderLock ctx)
  have hstep : Advances s s₁ :=
    ⟨.handlerReturns t, trivial, by simp only [tryStep, hcall]; rfl⟩
  obtain ⟨s', hthrough, hwriter⟩ := through_of_orderLock (s := s₁) goto_calls_self hfree
  exact ⟨s', hthrough.head hstep fun t' ht => goto_calls_of_ne ht, hwriter⟩

theorem through_of_beginWrite (hcall : s.calls t = .beginWrite)
    (hwriter : s.writeTransaction = none) (hfree : s.commitHookOrderLock = none) :
    ∃ s', Through s t s' := by
  let s₁ : Database H := { s.goto t (.handler .new) with writeTransaction := some t }
  have hstep : Advances s s₁ :=
    ⟨.beginWrite t, trivial, by simp only [tryStep, hcall, hwriter]; rfl⟩
  obtain ⟨s', hthrough, _⟩ := through_of_handler (s := s₁) goto_calls_self hfree
  exact ⟨s', hthrough.head hstep fun t' ht => goto_calls_of_ne ht⟩

/-- The call that holds the order lock, if there is one, gives it back. -/
theorem Ordered.exists_unlocked (h : Ordered s) :
    ∃ s', Relation.ReflTransGen Advances s s' ∧ s'.commitHookOrderLock = none ∧
      ∀ t, s'.calls t = s.calls t ∨ s'.calls t = .returned true := by
  cases hlock : s.commitHookOrderLock with
  | none => exact ⟨s, .refl, hlock, fun _ => Or.inl rfl⟩
  | some holder =>
      have hholds := (h.orderLock holder).mp hlock
      obtain ⟨s', hthrough⟩ : ∃ s', Through s holder s' := by
        cases hcall : s.calls holder with
        | dbCommit ctx => exact (through_of_dbCommit hcall).imp fun _ hs => hs.1
        | hooks left => exact (through_of_hooks hcall).imp fun _ hs => hs.1
        | idle | beginWrite | handler | orderLock | returned =>
            rw [hcall] at hholds
            exact hholds.elim
      refine ⟨s', hthrough.steps, hthrough.unlocked, fun t => ?_⟩
      by_cases ht : t = holder
      · exact Or.inr (ht ▸ hthrough.returned)
      · exact Or.inl (hthrough.others t ht)

/-- So does the call that holds the write transaction, once the order lock is free. -/
theorem Ordered.exists_free (h : Ordered s) (hfree : s.commitHookOrderLock = none) :
    ∃ s', Relation.ReflTransGen Advances s s' ∧ s'.commitHookOrderLock = none ∧
      s'.writeTransaction = none ∧
      ∀ t, s'.calls t = s.calls t ∨ s'.calls t = .returned true := by
  cases hwriter : s.writeTransaction with
  | none => exact ⟨s, .refl, hfree, hwriter, fun _ => Or.inl rfl⟩
  | some writer =>
      have hholds := (h.writer writer).mp hwriter
      obtain ⟨s', hthrough, hnone⟩ : ∃ s', Through s writer s' ∧
          s'.writeTransaction = none := by
        cases hcall : s.calls writer with
        | handler ctx => exact through_of_handler hcall hfree
        | orderLock ctx => exact through_of_orderLock hcall hfree
        | dbCommit ctx => exact through_of_dbCommit hcall
        | idle | beginWrite | hooks | returned =>
            rw [hcall] at hholds
            exact hholds.elim
      refine ⟨s', hthrough.steps, hthrough.unlocked, hnone, fun t => ?_⟩
      by_cases ht : t = writer
      · exact Or.inr (ht ▸ hthrough.returned)
      · exact Or.inl (hthrough.others t ht)

/-- A call that was made can commit and return, whatever the others are up to. -/
theorem Ordered.exists_returned (h : Ordered s) (ht : (s.calls t).IsUnderWay) :
    ∃ s', Relation.ReflTransGen Advances s s' ∧ s'.calls t = .returned true := by
  obtain ⟨s₁, hsteps₁, hfree₁, hcalls₁⟩ := h.exists_unlocked
  have h₁ : Ordered s₁ := h.steps hsteps₁
  obtain ⟨s₂, hsteps₂, hfree₂, hwriter₂, hcalls₂⟩ := h₁.exists_free hfree₁
  have h₂ : Ordered s₂ := h₁.steps hsteps₂
  rcases hcalls₂ t with hsame₂ | hreturned
  · rcases hcalls₁ t with hsame₁ | hreturned
    · -- with both locks free it can only be that the call waits to begin
      have hcall : s₂.calls t = s.calls t := hsame₂.trans hsame₁
      have hnotWriter := (h₂.writer t).not.mp (by rw [hwriter₂]; exact nofun)
      have hnotLock := (h₂.orderLock t).not.mp (by rw [hfree₂]; exact nofun)
      rw [hcall] at hnotWriter hnotLock
      cases hwhere : s.calls t with
      | beginWrite =>
          obtain ⟨s', hthrough⟩ :=
            through_of_beginWrite (hcall.trans hwhere) hwriter₂ hfree₂
          exact ⟨s', (hsteps₁.trans hsteps₂).trans hthrough.steps, hthrough.returned⟩
      | handler | orderLock | dbCommit =>
          rw [hwhere] at hnotWriter
          exact absurd trivial hnotWriter
      | hooks =>
          rw [hwhere] at hnotLock
          exact absurd trivial hnotLock
      | idle | returned =>
          rw [hwhere] at ht
          exact ht.elim
    · exact ⟨s₂, hsteps₁.trans hsteps₂, hsame₂.trans hreturned⟩
  · exact ⟨s₂, hsteps₁.trans hsteps₂, hreturned⟩

/-! ## Every interleaving -/

/-- In every interleaving the hooks that have run are those of the committed
transactions, one transaction after the other in the order of the commits, each hook
once and as registered, up to those that the holder of the order lock has left; and
every call that was made can still get through. -/
theorem hooks_in_commit_order (ops : List (DbOp H)) :
    let s := (openInner : Database H).run ops
    hooksRun s.events ++ s.hooksLeft =
        hooksInOrder s.events (committedCalls s.events) ∧
      (committedCalls s.events).Nodup ∧
      (∀ t, t ∈ committedCalls s.events ↔ (s.calls t).IsCommitted) ∧
      (s.commitHookOrderLock = none → s.hooksLeft = []) ∧
      ∀ t, (s.calls t).IsUnderWay →
        ∃ s', Relation.ReflTransGen Advances s s' ∧ s'.calls t = .returned true := by
  intro s
  have h : Ordered s := run_ordered ops
  exact ⟨h.inOrder, h.once, h.committed, hooksLeft_eq_nil, fun t => h.exists_returned⟩

/-- Call 1 begins as soon as call 0 has committed, and waits with its commit for the
hooks of call 0. -/
example : hooksRun ((openInner : Database Bool).run
    [.call 0, .beginWrite 0, .onCommit 0 false, .handlerReturns 0, .lock 0, .commit 0,
     .call 1, .beginWrite 1, .onCommit 1 true, .handlerReturns 1, .lock 1, .commit 1,
     .hook 1, .hook 0, .unlock 0, .lock 1, .commit 1, .hook 1]).events =
    [(0, false), (1, true)] := by decide

/-- What the hooks make of a state that they act on, when none is left to run, is what
the transactions make of it that run their hooks one after the other as they commit. -/
theorem hooks_serial {σ : Type} (act : σ → H → σ) (x : σ) (ops : List (DbOp H))
    (hfree : ((openInner : Database H).run ops).commitHookOrderLock = none) :
    let events := ((openInner : Database H).run ops).events
    (hooksRun events).foldl (fun x e => act x e.2) x =
      (committedCalls events).foldl (fun x t => (hooksOf events t).foldl act x) x := by
  intro events
  have h := (run_ordered (H := H) ops).inOrder
  rw [hooksLeft_eq_nil hfree, List.append_nil] at h
  rw [h, hooksInOrder, List.foldl_flatMap]
  simp only [List.foldl_map]
  rfl

end Database

end Bfte
