/-!
# Computations whose state outlives their failure

A computation that talks to the outside, or commits one transaction after the other,
does not undo what it has done when it fails. It is a function from a state to an
outcome and a state, and the state is there in both cases. A property that each part
keeps, whether it fails or not, the whole keeps; what it returns is taken apart one
`bind` at a time.
-/

/-- A computation that may fail, on a state that is kept when it does. -/
abbrev Session (σ ε α : Type) := ExceptT ε (StateM σ) α

namespace Session

variable {σ ε α β : Type}

/-- Run it: how it ends, and the state after it. -/
def exec (x : Session σ ε α) (s : σ) : Except ε α × σ := StateT.run (ExceptT.run x) s

/-- Something that does not look at the state. -/
def lift (r : Except ε α) : Session σ ε α := ExceptT.mk fun s => (r, s)

/-- Something that does not fail. -/
def act (f : σ → α × σ) : Session σ ε α := ExceptT.mk fun s => (.ok (f s).1, (f s).2)

/-- Give up. -/
def fail (e : ε) : Session σ ε α := lift (.error e)

@[simp] theorem exec_pure (a : α) (s : σ) :
    exec (pure a : Session σ ε α) s = (.ok a, s) := rfl

@[simp] theorem exec_lift (r : Except ε α) (s : σ) :
    exec (lift r : Session σ ε α) s = (r, s) := rfl

@[simp] theorem exec_act (f : σ → α × σ) (s : σ) :
    exec (act f : Session σ ε α) s = (.ok (f s).1, (f s).2) := rfl

@[simp] theorem exec_fail (e : ε) (s : σ) :
    exec (fail e : Session σ ε α) s = (.error e, s) := rfl

theorem exec_bind (x : Session σ ε α) (f : α → Session σ ε β) (s : σ) :
    exec (x >>= f) s =
      match exec x s with
      | (.ok a, s') => exec (f a) s'
      | (.error e, s') => (.error e, s') := by
  show StateT.run (ExceptT.run x >>= ExceptT.bindCont f) s = _
  rw [StateT.run_bind]
  unfold exec
  rcases StateT.run (ExceptT.run x) s with ⟨(e | a), s'⟩
  · rfl
  · rfl

/-! ## What it returns -/

theorem exec_bind_of_ok {x : Session σ ε α} {f : α → Session σ ε β} {s s' : σ} {a : α}
    (h : exec x s = (.ok a, s')) : exec (x >>= f) s = exec (f a) s' := by
  rw [exec_bind, h]

theorem exec_bind_eq_ok {x : Session σ ε α} {f : α → Session σ ε β} {s t : σ} {b : β} :
    exec (x >>= f) s = (.ok b, t) ↔
      ∃ a s', exec x s = (.ok a, s') ∧ exec (f a) s' = (.ok b, t) := by
  rw [exec_bind]
  rcases exec x s with ⟨(e | a), s'⟩
  · constructor
    · intro h
      cases h
    · rintro ⟨a, s'', h, _⟩
      cases h
  · constructor
    · intro h
      exact ⟨a, s', rfl, h⟩
    · rintro ⟨a', s'', h, hf⟩
      cases h
      exact hf

/-! ## What it keeps -/

/-- The state has the property after the computation if it had it before, however the
computation ends. -/
def Keeps (I : σ → Prop) (x : Session σ ε α) : Prop := ∀ s, I s → I (exec x s).2

variable {I : σ → Prop}

theorem Keeps.pure (a : α) : Keeps I (pure a : Session σ ε α) := fun _ h => h

theorem Keeps.lift (r : Except ε α) : Keeps I (lift r : Session σ ε α) := fun _ h => h

theorem Keeps.fail (e : ε) : Keeps I (fail e : Session σ ε α) := fun _ h => h

theorem Keeps.act {f : σ → α × σ} (h : ∀ s, I s → I (f s).2) :
    Keeps I (act f : Session σ ε α) := h

theorem Keeps.bind_of {x : Session σ ε α} {f : α → Session σ ε β} (hx : Keeps I x)
    (hf : ∀ s a s', exec x s = (.ok a, s') → Keeps I (f a)) : Keeps I (x >>= f) := by
  intro s hs
  have hstate := hx s hs
  rw [exec_bind]
  rcases h : exec x s with ⟨(e | a), s'⟩
  · rw [h] at hstate
    exact hstate
  · rw [h] at hstate
    exact hf s a s' h s' hstate

theorem Keeps.bind {x : Session σ ε α} {f : α → Session σ ε β} (hx : Keeps I x)
    (hf : ∀ a, Keeps I (f a)) : Keeps I (x >>= f) := hx.bind_of fun _ a _ _ => hf a

end Session
