import Mathlib.Data.Sigma.Basic
import Mathlib.Logic.Function.Basic

/-!
# The tables of several owners in one database

Several owners keep tables in one database, each under a name that `place` makes out of
whose table it is and what its owner calls it. A transaction may go back and forth between
the owners, and what it does next may depend on anything it was told so far.

If no two tables come by the same name, this is as good as a database for each owner, all of
which commit together: every transaction is told the same, ends the same, and leaves the same
in the tables. That is `runJobs_apart`; `Agree` is what goes with every request, transaction
and job.
-/

namespace Shared

/-- What a database makes of one table. `T` is what it keeps of the table, `σ` what a
transaction finds under the name, and `Q` and `A` are requests and what they are answered.
What it answers, and whether it can go on at all, is up to the table that is asked about. -/
structure Store (T σ Q A : Type) where
  /-- At the beginning of a transaction. -/
  start : T → σ
  /-- What a transaction leaves. -/
  left : σ → T
  left_start : ∀ t, left (start t) = t
  serve : σ → Q → Option (A × σ)

/-- A transaction that goes back and forth between the owners `ω`, each with tables `ν`. -/
inductive Tx (ω : Type) (ν : ω → Type) (Q A R : Type) where
  | ret (r : R)
  | call (o : ω) (n : ν o) (q : Q) (next : A → Tx ω ν Q A R)

/-- It may do something about the tables of this owner. -/
inductive Tx.Calls {ω : Type} {ν : ω → Type} {Q A R : Type} (o : ω) :
    Tx ω ν Q A R → Prop where
  | now (n : ν o) (q : Q) (next : A → Tx ω ν Q A R) : Calls o (.call o n q next)
  | later {o' : ω} (n : ν o') (q : Q) (next : A → Tx ω ν Q A R) (a : A)
      (h : Calls o (next a)) : Calls o (.call o' n q next)

/-- A database is asked to run a transaction. A write transaction may fail to commit. -/
inductive Job (ω : Type) (ν : ω → Type) (Q A ε R : Type) where
  | write (tx : Tx ω ν Q A (Except ε R)) (commits : Bool)
  | read (tx : Tx ω ν Q A (Except ε R))

/-- Its transaction may do something about the tables of this owner. -/
def Job.Calls {ω : Type} {ν : ω → Type} {Q A ε R : Type} (o : ω) :
    Job ω ν Q A ε R → Prop
  | .write tx _ => tx.Calls o
  | .read tx => tx.Calls o

/-- What the caller is told. -/
inductive Outcome (ε R : Type) where
  | returned (r : Except ε R)
  | commitFailed
  | stuck

/-- What the caller of a write transaction is told, and what is in the tables after it. -/
def Outcome.write {ε R σ δ : Type} (commits : Bool) (db : δ) (tables : σ → δ) :
    Option (Except ε R × σ) → Outcome ε R × δ
  | none => (.stuck, db)
  | some (.error e, _) => (.returned (.error e), db)
  | some (.ok r, s) => if commits then (.returned (.ok r), tables s) else (.commitFailed, db)

/-- What the caller of a read transaction is told. -/
def Outcome.read {ε R σ : Type} : Option (Except ε R × σ) → Outcome ε R
  | none => .stuck
  | some (r, _) => .returned r

section

variable {ω : Type} {ν : ω → Type} {μ T σ Q A ε R : Type}
variable [DecidableEq ω] [∀ o, DecidableEq (ν o)] [DecidableEq μ]
variable (store : Store T σ Q A) (place : ∀ o, ν o → μ)

/-! ## In one database -/

/-- A transaction on the database that all owners share. -/
def Tx.run : Tx ω ν Q A R → (μ → σ) → Option (R × (μ → σ))
  | .ret r, s => some (r, s)
  | .call o n q next, s =>
      match store.serve (s (place o n)) q with
      | none => none
      | some (reply, t) => (next reply).run (Function.update s (place o n) t)

/-- A job on the shared database. -/
def Job.run (db : μ → T) : Job ω ν Q A ε R → Outcome ε R × (μ → T)
  | .write tx commits => Outcome.write commits db (fun s m => store.left (s m))
      (tx.run store place fun m => store.start (db m))
  | .read tx => (.read (tx.run store place fun m => store.start (db m)), db)

/-- One job after the other. -/
def runJobs (db : μ → T) : List (Job ω ν Q A ε R) → List (Outcome ε R) × (μ → T)
  | [] => ([], db)
  | job :: jobs =>
      let (outcome, db') := job.run store place db
      let (outcomes, db'') := runJobs db' jobs
      (outcome :: outcomes, db'')

/-! ## With a database for each owner -/

/-- A transaction on databases of which each owner has one. -/
def Tx.runApart : Tx ω ν Q A R → (∀ o, ν o → σ) → Option (R × (∀ o, ν o → σ))
  | .ret r, a => some (r, a)
  | .call o n q next, a =>
      match store.serve (a o n) q with
      | none => none
      | some (reply, t) =>
          (next reply).runApart (Function.update a o (Function.update (a o) n t))

/-- A job on them. All of them commit, or none. -/
def Job.runApart (db : ∀ o, ν o → T) :
    Job ω ν Q A ε R → Outcome ε R × (∀ o, ν o → T)
  | .write tx commits => Outcome.write commits db (fun a o n => store.left (a o n))
      (tx.runApart store fun o n => store.start (db o n))
  | .read tx => (.read (tx.runApart store fun o n => store.start (db o n)), db)

def runJobsApart (db : ∀ o, ν o → T) :
    List (Job ω ν Q A ε R) → List (Outcome ε R) × (∀ o, ν o → T)
  | [] => ([], db)
  | job :: jobs =>
      let (outcome, db') := job.runApart store db
      let (outcomes, db'') := runJobsApart db' jobs
      (outcome :: outcomes, db'')

end

/-! ## They agree -/

section

variable {ω : Type} {ν : ω → Type} {μ T σ Q A ε R α β : Type} {place : ∀ o, ν o → μ}
  {store : Store T σ Q A}

/-- No two tables come by the same name. -/
def Apart (place : ∀ o, ν o → μ) : Prop :=
  Function.Injective fun p : (o : ω) × ν o => place p.1 p.2

theorem Apart.name_eq (h : Apart place) {o : ω} {n n' : ν o} (heq : place o n = place o n') :
    n = n' := by
  have hpair := @h ⟨o, n⟩ ⟨o, n'⟩ heq
  simpa using hpair

theorem Apart.owner_eq (h : Apart place) {o o' : ω} {n : ν o} {n' : ν o'}
    (heq : place o n = place o' n') : o = o' := by
  exact congrArg Sigma.fst (@h ⟨o, n⟩ ⟨o', n'⟩ heq)

/-- What the owners have is in the shared database. -/
def Agree (place : ∀ o, ν o → μ) (s : μ → α) (a : ∀ o, ν o → α) : Prop :=
  ∀ o n, s (place o n) = a o n

theorem Agree.map {s : μ → α} {a : ∀ o, ν o → α} (h : Agree place s a) (f : α → β) :
    Agree place (fun m => f (s m)) fun o n => f (a o n) :=
  fun o n => congrArg f (h o n)

/-- What is to be said of two ends of a transaction. -/
def EndsAlike (place : ∀ o, ν o → μ) :
    Option (R × (μ → σ)) → Option (R × (∀ o, ν o → σ)) → Prop
  | none, none => True
  | some (r, s), some (r', a) => r = r' ∧ Agree place s a
  | _, _ => False

/-- The same about two jobs. -/
def TellsAlike (place : ∀ o, ν o → μ) (p : α × (μ → T)) (p' : α × (∀ o, ν o → T)) :
    Prop :=
  p.1 = p'.1 ∧ Agree place p.2 p'.2

theorem EndsAlike.write {db : μ → T} {dbs : ∀ o, ν o → T} (h : Agree place db dbs)
    (commits : Bool) :
    ∀ {x : Option (Except ε R × (μ → σ))} {y}, EndsAlike place x y →
      TellsAlike place (Outcome.write commits db (fun s m => store.left (s m)) x)
        (Outcome.write commits dbs (fun a o n => store.left (a o n)) y)
  | none, none, _ => ⟨rfl, h⟩
  | some (.error _, _), some (_, _), ⟨rfl, _⟩ => ⟨rfl, h⟩
  | some (.ok r, s), some (_, a), ⟨rfl, hs⟩ => by
      cases commits with
      | false => exact ⟨rfl, h⟩
      | true => exact ⟨rfl, hs.map store.left⟩

theorem EndsAlike.read :
    ∀ {x : Option (Except ε R × (μ → σ))} {y}, EndsAlike place x y →
      Outcome.read x = Outcome.read y
  | none, none, _ => rfl
  | some (_, _), some (_, _), ⟨rfl, _⟩ => rfl

variable [DecidableEq ω] [∀ o, DecidableEq (ν o)] [DecidableEq μ]

theorem Agree.update (hplace : Apart place) {s : μ → α} {a : ∀ o, ν o → α}
    (h : Agree place s a) (o : ω) (n : ν o) (t : α) :
    Agree place (Function.update s (place o n) t)
      (Function.update a o (Function.update (a o) n t)) := by
  intro o' n'
  by_cases ho : o' = o
  · subst ho
    by_cases hn : n' = n
    · subst hn
      simp
    · have hne : place o' n' ≠ place o' n := fun heq => hn (hplace.name_eq heq)
      simpa [hn, hne] using h o' n'
  · have hne : place o' n' ≠ place o n := fun heq => ho (hplace.owner_eq heq)
    simpa [ho, hne] using h o' n'

theorem Tx.run_apart (hplace : Apart place) (tx : Tx ω ν Q A R) {s : μ → σ}
    {a : ∀ o, ν o → σ} (h : Agree place s a) :
    EndsAlike place (tx.run store place s) (tx.runApart store a) := by
  induction tx generalizing s a with
  | ret r => exact ⟨rfl, h⟩
  | call o n q next ih =>
      rw [Tx.run, Tx.runApart, h o n]
      cases store.serve (a o n) q with
      | none => trivial
      | some served => exact ih served.1 (h.update hplace o n served.2)

theorem Job.run_apart (hplace : Apart place) (job : Job ω ν Q A ε R) {db : μ → T}
    {dbs : ∀ o, ν o → T} (h : Agree place db dbs) :
    TellsAlike place (job.run store place db) (job.runApart store dbs) := by
  cases job with
  | write tx commits => exact (tx.run_apart hplace (h.map store.start)).write h commits
  | read tx => exact ⟨(tx.run_apart hplace (h.map store.start)).read, h⟩

/-- A shared database is as good as one for each owner. -/
theorem runJobs_apart (hplace : Apart place) (jobs : List (Job ω ν Q A ε R)) {db : μ → T}
    {dbs : ∀ o, ν o → T} (h : Agree place db dbs) :
    TellsAlike place (runJobs store place db jobs) (runJobsApart store dbs jobs) := by
  induction jobs generalizing db dbs with
  | nil => exact ⟨rfl, h⟩
  | cons job jobs ih =>
      obtain ⟨houtcome, hdb⟩ := job.run_apart hplace h
      obtain ⟨houtcomes, hdb'⟩ := ih hdb
      exact ⟨congrArg₂ _ houtcome houtcomes, hdb'⟩

/-! ## What an owner has to itself -/

theorem Tx.runApart_frame {o : ω} (tx : Tx ω ν Q A R) (hcalls : ¬ tx.Calls o)
    {a a' : ∀ o, ν o → σ} {r : R} (h : tx.runApart store a = some (r, a')) :
    a' o = a o := by
  induction tx generalizing a with
  | ret r' =>
      cases h
      rfl
  | call o' n q next ih =>
      have hne : o ≠ o' := by
        rintro rfl
        exact hcalls (.now n q next)
      rw [Tx.runApart] at h
      cases hserve : store.serve (a o' n) q with
      | none => simp [hserve] at h
      | some served =>
          simp only [hserve] at h
          have hnext : ¬ (next served.1).Calls o := fun hc => hcalls (.later n q next _ hc)
          rw [ih _ hnext h, Function.update_of_ne hne]

theorem Job.runApart_frame {o : ω} (job : Job ω ν Q A ε R) (hcalls : ¬ job.Calls o)
    (dbs : ∀ o, ν o → T) : (job.runApart store dbs).2 o = dbs o := by
  cases job with
  | read tx => rfl
  | write tx commits =>
      rw [Job.runApart]
      cases hrun : tx.runApart store fun o n => store.start (dbs o n) with
      | none => rfl
      | some p =>
          obtain ⟨r, a⟩ := p
          cases r with
          | error e => rfl
          | ok r =>
              cases commits with
              | false => rfl
              | true =>
                  funext n
                  have := tx.runApart_frame hcalls hrun
                  simp [Outcome.write, this, store.left_start]

/-- Jobs that leave an owner alone leave its tables alone. -/
theorem runJobs_frame (hplace : Apart place) {o : ω} (jobs : List (Job ω ν Q A ε R))
    (hcalls : ∀ job ∈ jobs, ¬ job.Calls o) (db : μ → T) (n : ν o) :
    (runJobs store place db jobs).2 (place o n) = db (place o n) := by
  have happart (dbs : ∀ o, ν o → T) : (runJobsApart store dbs jobs).2 o = dbs o := by
    induction jobs generalizing dbs with
    | nil => rfl
    | cons job jobs ih =>
        obtain ⟨hjob, hjobs⟩ := List.forall_mem_cons.mp hcalls
        exact (ih hjobs _).trans (job.runApart_frame hjob dbs)
  rw [(runJobs_apart hplace jobs fun _ _ => rfl).2 o n, happart]

end

end Shared
