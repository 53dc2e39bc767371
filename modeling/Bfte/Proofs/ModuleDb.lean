import Bfte.App.ModuleDb

/-!
# Every module has its tables to itself

Names of tables do not clash: what `module_` is followed by is digits up to the next
underscore, so a name tells the module and what it calls its table, and no table of the core
has a name that begins like this. From there on it is `Shared.runJobs_apart`.
-/

namespace Bfte

namespace ModuleDatabase

open Shared (Apart Store runJobs runJobsApart)

/-- What comes before the first of some character, and what after it. -/
theorem eq_of_append_cons_eq {c : Char} {l₁ l₂ r₁ r₂ : List Char} (h₁ : c ∉ l₁) (h₂ : c ∉ l₂)
    (h : l₁ ++ c :: r₁ = l₂ ++ c :: r₂) : l₁ = l₂ ∧ r₁ = r₂ := by
  induction l₁ generalizing l₂ with
  | nil =>
      cases l₂ with
      | nil => simpa using h
      | cons d l₂ =>
          have hd : c = d := (List.cons.inj h).1
          simp [hd] at h₂
  | cons d l₁ ih =>
      cases l₂ with
      | nil =>
          have hd : d = c := (List.cons.inj h).1
          simp [hd] at h₁
      | cons e l₂ =>
          obtain ⟨rfl, htail⟩ := List.cons.inj h
          obtain ⟨rfl, hr⟩ := ih (fun hc => h₁ (.tail _ hc)) (fun hc => h₂ (.tail _ hc)) htail
          exact ⟨rfl, hr⟩

theorem toDigits_injective {a b : ℕ} (h : Nat.toDigits 10 a = Nat.toDigits 10 b) : a = b := by
  rw [← Nat.ofDigitChars_ten_toDigits (n := a), h, Nat.ofDigitChars_ten_toDigits]

theorem toList_moduleTableName (id : ModuleId) (name : String) :
    (moduleTableName id name).toList =
      "module_".toList ++ (Nat.toDigits 10 id ++ '_' :: name.toList) := by
  simp [moduleTableName, Nat.toList_repr, toString]

theorem moduleTableName_inj {id id' : ModuleId} {name name' : String}
    (h : moduleTableName id name = moduleTableName id' name') : id = id' ∧ name = name' := by
  have hlist := congrArg String.toList h
  rw [toList_moduleTableName, toList_moduleTableName, List.append_cancel_left_eq] at hlist
  obtain ⟨hid, hname⟩ := eq_of_append_cons_eq Nat.underscore_not_in_toDigits
    Nat.underscore_not_in_toDigits hlist
  exact ⟨toDigits_injective hid, String.toList_injective hname⟩

/-- All tables of the core. -/
def coreTables : List CoreTable :=
  [.dbVersion, .consCurrentRound, .consFinalityConsensus, .consFinalityVotes,
    .consParamsSchedule, .consParams, .consBlocksProposals, .consBlocksNotarized,
    .consBlocksPinned, .consBlocksPayloads, .consVotesBlock, .consVotesDummy,
    .peerAddresses, .peerAddressesWeTrack, .peerAddressesWeNeed, .uiPassHash, .appCurRound]

theorem mem_coreTables (t : CoreTable) : t ∈ coreTables := by
  cases t <;> simp [coreTables]

theorem name_injective {t t' : CoreTable} (h : t.name = t'.name) : t = t' := by
  have hnodup : (coreTables.map CoreTable.name).Nodup := by decide
  exact List.inj_on_of_nodup_map hnodup (mem_coreTables t) (mem_coreTables t') h

theorem not_module_name (t : CoreTable) : ¬ "module_".toList <+: t.name.toList := by
  cases t <;> decide

theorem name_ne_moduleTableName (t : CoreTable) (id : ModuleId) (name : String) :
    t.name ≠ moduleTableName id name := by
  intro h
  refine not_module_name t ?_
  rw [h, toList_moduleTableName]
  exact List.prefix_append _ _

/-- No two tables have the same name. -/
theorem tableName_apart : Apart tableName := by
  rintro ⟨o, n⟩ ⟨o', n'⟩ h
  cases o with
  | core =>
      cases o' with
      | core => exact congrArg _ (name_injective h)
      | module id => exact absurd h (name_ne_moduleTableName n id n')
  | module id =>
      cases o' with
      | core => exact absurd h.symm (name_ne_moduleTableName n' id n)
      | module id' =>
          obtain ⟨rfl, rfl⟩ := moduleTableName_inj h
          rfl

variable {T σ Q A ε R : Type}

/-- Whatever the core and the modules of a node do, it is as if each had a database of its
own: all transactions are told the same, and every table ends up the same. Tables of a module
that nobody asked for on its behalf are what they were. -/
theorem modules_apart (store : Store T σ Q A) (db : String → T) (jobs : List (Job Q A ε R)) :
    (runJobs store tableName db jobs).1 =
        (runJobsApart store (fun o n => db (tableName o n)) jobs).1 ∧
      (∀ o n, (runJobs store tableName db jobs).2 (tableName o n) =
        (runJobsApart store (fun o n => db (tableName o n)) jobs).2 o n) ∧
      ∀ o, (∀ job ∈ jobs, ¬ job.Calls o) → ∀ n : o.Table,
        (runJobs store tableName db jobs).2 (tableName o n) = db (tableName o n) := by
  have hsame : Shared.Agree tableName db fun o n => db (tableName o n) := fun _ _ => rfl
  obtain ⟨houtcomes, hdb⟩ := Shared.runJobs_apart tableName_apart jobs hsame
  refine ⟨houtcomes, hdb, fun o hcalls n => ?_⟩
  exact Shared.runJobs_frame tableName_apart jobs hcalls db n

end ModuleDatabase

end Bfte
