import Mathlib.Logic.Basic

/-!
# What a call comes back with

The node's functions either return, report a typed error, or panic: an
`expect` on something missing, a failed `assert`, an index past the end. Errors
and panics are kept apart, because several properties of the node are about
the second kind only. Both undo the transaction they happen in.

Each way of failing has one constructor function here, named after the Rust
construct it stands for, and one lemma that says when it lets a call through;
every transaction is taken apart with those and with `bind_eq_ok`.
-/

namespace Bfte

/-- Why a call did not return. -/
inductive Fault (ε : Type) where
  | err (e : ε)
  | panic (msg : String)
  deriving Repr, DecidableEq

/-- The result of a call that may report an error or panic. -/
abbrev Outcome (ε α : Type) := Except (Fault ε) α

namespace Outcome

variable {ε ε' α β : Type}

/-- `return Err(e)`. -/
def raise (e : ε) : Outcome ε α := .error (.err e)

/-- A panic. -/
def crash (msg : String) : Outcome ε α := .error (.panic msg)

/-- Go on if `p` holds, report `e` otherwise. -/
def ensure (p : Prop) [Decidable p] (e : ε) : Outcome ε Unit :=
  if p then .ok () else raise e

/-- `assert!`. -/
def assertThat (p : Prop) [Decidable p] (msg : String) : Outcome ε Unit :=
  if p then .ok () else crash msg

/-- `Option::expect`. -/
def expect (o : Option α) (msg : String) : Outcome ε α :=
  match o with
  | some a => .ok a
  | none => crash msg

/-- `map_err`, which passes panics on. -/
def mapErr (f : ε → ε') : Outcome ε α → Outcome ε' α
  | .ok a => .ok a
  | .error (.err e) => raise (f e)
  | .error (.panic msg) => crash msg

/-- `ok().context(e)`: any error becomes `e`. -/
def orRaise (x : Outcome ε α) (e : ε') : Outcome ε' α := mapErr (fun _ => e) x

/-- The call panicked. -/
def Panicked (x : Outcome ε α) : Prop := ∃ msg, x = .error (.panic msg)

/-- The call reported an error. -/
def Failed (x : Outcome ε α) : Prop := ∃ e, x = .error (.err e)

/-- The call returned a value with a property. -/
def Returns (x : Outcome ε α) (P : α → Prop) : Prop :=
  match x with
  | .ok a => P a
  | .error _ => False

/-- If the call returns a value, it has the property. -/
def WhenOk (x : Outcome ε α) (P : α → Prop) : Prop :=
  match x with
  | .ok a => P a
  | .error _ => True

instance (x : Outcome ε α) (P : α → Prop) [DecidablePred P] :
    Decidable (x.WhenOk P) :=
  match x with
  | .ok a => inferInstanceAs (Decidable (P a))
  | .error _ => inferInstanceAs (Decidable True)

theorem whenOk_iff {x : Outcome ε α} {P : α → Prop} :
    x.WhenOk P ↔ ∀ a, x = .ok a → P a := by
  cases x with
  | ok a => simp [WhenOk]
  | error e => simp [WhenOk]

instance (x : Outcome ε α) (P : α → Prop) [DecidablePred P] :
    Decidable (x.Returns P) :=
  match x with
  | .ok a => inferInstanceAs (Decidable (P a))
  | .error _ => inferInstanceAs (Decidable False)

theorem returns_iff {x : Outcome ε α} {P : α → Prop} :
    x.Returns P ↔ ∃ a, x = .ok a ∧ P a := by
  cases x with
  | ok a => simp [Returns]
  | error e => simp [Returns]

/-! ## When a call goes through -/

@[simp] theorem bind_eq_ok {x : Outcome ε α} {f : α → Outcome ε β} {b : β} :
    (x >>= f) = .ok b ↔ ∃ a, x = .ok a ∧ f a = .ok b := by
  cases x with
  | ok a =>
      constructor
      · intro h
        exact ⟨a, rfl, h⟩
      · rintro ⟨a', ha, hb⟩
        injection ha with ha
        subst ha
        exact hb
  | error e =>
      constructor
      · intro h
        cases h
      · rintro ⟨a, ha, _⟩
        cases ha

theorem bind_of_ok {x : Outcome ε α} {f : α → Outcome ε β} {a : α}
    (h : x = .ok a) : (x >>= f) = f a := by
  rw [h]
  rfl

@[simp] theorem pure_eq_ok {a b : α} :
    (pure a : Outcome ε α) = .ok b ↔ a = b := by
  constructor
  · intro h
    injection h
  · rintro rfl
    rfl

@[simp] theorem map_eq_ok {x : Outcome ε α} {f : α → β} {b : β} :
    (f <$> x) = .ok b ↔ ∃ a, x = .ok a ∧ f a = b := by
  cases x with
  | ok a =>
      constructor
      · intro h
        injection h with h
        exact ⟨a, rfl, h⟩
      · rintro ⟨a', ha, rfl⟩
        injection ha with ha
        subst ha
        rfl
  | error e =>
      constructor
      · intro h
        cases h
      · rintro ⟨a, ha, _⟩
        cases ha

@[simp] theorem raise_ne_ok {e : ε} {a : α} :
    (raise e : Outcome ε α) = .ok a ↔ False := by
  simp [raise]

@[simp] theorem crash_ne_ok {msg : String} {a : α} :
    (crash msg : Outcome ε α) = .ok a ↔ False := by
  simp [crash]

@[simp] theorem ensure_eq_ok {p : Prop} [Decidable p] {e : ε} {u : Unit} :
    ensure p e = .ok u ↔ p := by
  by_cases h : p <;> simp [ensure, h]

theorem ensure_of {p : Prop} [Decidable p] {e : ε} (h : p) :
    ensure p e = .ok () := if_pos h

theorem assertThat_of {p : Prop} [Decidable p] {msg : String} (h : p) :
    (assertThat p msg : Outcome ε Unit) = .ok () := if_pos h

@[simp] theorem assertThat_eq_ok {p : Prop} [Decidable p] {msg : String}
    {u : Unit} : (assertThat p msg : Outcome ε Unit) = .ok u ↔ p := by
  by_cases h : p <;> simp [assertThat, h]

@[simp] theorem expect_eq_ok {o : Option α} {msg : String} {a : α} :
    (expect o msg : Outcome ε α) = .ok a ↔ o = some a := by
  cases o <;> simp [expect]

@[simp] theorem mapErr_eq_ok {f : ε → ε'} {x : Outcome ε α} {a : α} :
    mapErr f x = .ok a ↔ x = .ok a := by
  rcases x with (e | m) | a' <;> simp [mapErr]

@[simp] theorem orRaise_eq_ok {x : Outcome ε α} {e : ε'} {a : α} :
    orRaise x e = .ok a ↔ x = .ok a := mapErr_eq_ok

/-! ## When a call panics -/

theorem bind_panicked {x : Outcome ε α} {f : α → Outcome ε β} :
    (x >>= f).Panicked ↔ x.Panicked ∨ ∃ a, x = .ok a ∧ (f a).Panicked := by
  cases x with
  | ok a =>
      constructor
      · intro h
        exact Or.inr ⟨a, rfl, h⟩
      · rintro (⟨msg, h⟩ | ⟨a', ha, h⟩)
        · cases h
        · injection ha with ha
          subst ha
          exact h
  | error e =>
      constructor
      · rintro ⟨msg, h⟩
        injection h with h
        exact Or.inl ⟨msg, congrArg Except.error h⟩
      · rintro (⟨msg, h⟩ | ⟨a, ha, _⟩)
        · injection h with h
          exact ⟨msg, congrArg Except.error h⟩
        · cases ha

@[simp] theorem map_panicked {x : Outcome ε α} {f : α → β} :
    Panicked (f <$> x) ↔ x.Panicked := by
  cases x with
  | ok a =>
      constructor
      · rintro ⟨_, h⟩
        cases h
      · rintro ⟨_, h⟩
        cases h
  | error e =>
      constructor
      · rintro ⟨msg, h⟩
        injection h with h
        exact ⟨msg, congrArg Except.error h⟩
      · rintro ⟨msg, h⟩
        injection h with h
        exact ⟨msg, congrArg Except.error h⟩

@[simp] theorem not_panicked_ok {a : α} :
    ¬ Panicked (.ok a : Outcome ε α) := by
  rintro ⟨_, h⟩
  cases h

@[simp] theorem not_panicked_pure {a : α} : ¬ (pure a : Outcome ε α).Panicked :=
  not_panicked_ok

@[simp] theorem not_panicked_raise {e : ε} :
    ¬ (raise e : Outcome ε α).Panicked := by
  rintro ⟨_, h⟩
  cases h

@[simp] theorem panicked_crash {msg : String} :
    (crash msg : Outcome ε α).Panicked := ⟨msg, rfl⟩

@[simp] theorem not_panicked_ensure {p : Prop} [Decidable p] {e : ε} :
    ¬ (ensure p e).Panicked := by
  by_cases h : p <;> simp [ensure, h]

@[simp] theorem panicked_assertThat {p : Prop} [Decidable p] {msg : String} :
    (assertThat p msg : Outcome ε Unit).Panicked ↔ ¬ p := by
  by_cases h : p <;> simp [assertThat, h]

@[simp] theorem panicked_expect {o : Option α} {msg : String} :
    (expect o msg : Outcome ε α).Panicked ↔ o = none := by
  cases o <;> simp [expect]

@[simp] theorem panicked_mapErr {f : ε → ε'} {x : Outcome ε α} :
    (mapErr f x).Panicked ↔ x.Panicked := by
  rcases x with (e | m) | a
  · simp [mapErr, Panicked, raise]
  · simp [mapErr, Panicked, crash]
  · simp [mapErr, Panicked]

@[simp] theorem panicked_orRaise {x : Outcome ε α} {e : ε'} :
    (orRaise x e).Panicked ↔ x.Panicked := panicked_mapErr

instance (x : Outcome ε α) : Decidable x.Panicked :=
  match x with
  | .ok _ => .isFalse not_panicked_ok
  | .error (.err _) => .isFalse not_panicked_raise
  | .error (.panic _) => .isTrue panicked_crash

/-! ## When a call reports an error -/

theorem bind_failed {x : Outcome ε α} {f : α → Outcome ε β} :
    (x >>= f).Failed ↔ x.Failed ∨ ∃ a, x = .ok a ∧ (f a).Failed := by
  cases x with
  | ok a =>
      constructor
      · intro h
        exact Or.inr ⟨a, rfl, h⟩
      · rintro (⟨e, h⟩ | ⟨a', ha, h⟩)
        · cases h
        · injection ha with ha
          subst ha
          exact h
  | error e =>
      constructor
      · rintro ⟨e', h⟩
        injection h with h
        exact Or.inl ⟨e', congrArg Except.error h⟩
      · rintro (⟨e', h⟩ | ⟨a, ha, _⟩)
        · injection h with h
          exact ⟨e', congrArg Except.error h⟩
        · cases ha

@[simp] theorem not_failed_ok {a : α} : ¬ Failed (.ok a : Outcome ε α) := by
  rintro ⟨_, h⟩
  cases h

@[simp] theorem not_failed_pure {a : α} : ¬ (pure a : Outcome ε α).Failed :=
  not_failed_ok

@[simp] theorem map_failed {x : Outcome ε α} {f : α → β} :
    Failed (f <$> x) ↔ x.Failed := by
  cases x with
  | ok a =>
      constructor
      · rintro ⟨_, h⟩
        cases h
      · rintro ⟨_, h⟩
        cases h
  | error e =>
      constructor
      · rintro ⟨e', h⟩
        injection h with h
        exact ⟨e', congrArg Except.error h⟩
      · rintro ⟨e', h⟩
        injection h with h
        exact ⟨e', congrArg Except.error h⟩

/-- A call that neither returns nor panics reports an error. -/
theorem failed_of {x : Outcome ε α} (hok : ∀ a, x ≠ .ok a) (hpanic : ¬ x.Panicked) :
    x.Failed := by
  rcases x with (e | msg) | a
  · exact ⟨e, rfl⟩
  · exact absurd ⟨msg, rfl⟩ hpanic
  · exact absurd rfl (hok a)

@[simp] theorem not_failed_crash {msg : String} :
    ¬ (crash msg : Outcome ε α).Failed := by
  rintro ⟨_, h⟩
  cases h

@[simp] theorem not_failed_assertThat {p : Prop} [Decidable p] {msg : String} :
    ¬ (assertThat p msg : Outcome ε Unit).Failed := by
  by_cases h : p <;> simp [assertThat, h, crash, Failed]

@[simp] theorem not_failed_expect {o : Option α} {msg : String} :
    ¬ (expect o msg : Outcome ε α).Failed := by
  cases o <;> simp [expect, crash, Failed]

end Outcome

end Bfte
