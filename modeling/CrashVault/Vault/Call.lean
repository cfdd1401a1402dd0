import CrashVault.Vault

/-! The calls of a vault as data, with their answers, and runs of calls. A call that gives a path can be
followed at once by writing a text there; a text can also be written to any path in between. A run over
several stores opens one more vault under the same base now and then, and calls whichever it likes. -/

namespace CrashVault
namespace Vault

inductive Call
  | commonFile (name : String) (text? : Option String)
  | sessionFile (id name : String) (text? : Option String)
  | reportFile (kind : ReportKind) (id : String) (text? : Option String)
  | write (path : Path) (text : String)
  | listCommon (keep : String → Bool)
  | listSession (id : String) (keep : String → Bool)
  | openSessions
  | listReports
  | deleteSession (id : String)
  | deleteReport (id : String)
  | cleanupLegacy
  | deleteAll

inductive Answer
  /-- The path and, if there was a text to write there, whether it was written. -/
  | path (path : Path) (written : Option Bool)
  | paths (paths : List Path)
  | ids (ids : List String)
  | flag (value : Bool)
  | done
  | failed (error : VaultError)
  deriving DecidableEq

variable {m : Type → Type} [Monad m] [MonadStateOf Host m] [MonadLog m]

/-- Writes a text to a path, and says whether it could. -/
def put (path : Path) (text : String) : m Bool := do
  match (← get).files.write path text with
  | .ok files =>
    modify fun h => { h with files }
    return true
  | .error _ => return false

theorem run_put (path : Path) (text : String) (h : Host) : (put path text : StateM Host _).run h =
    match h.files.write path text with
    | .ok files => (true, { h with files })
    | .error _ => (false, h) := by
  simp only [put, StateT.run_bind, StateT.run_get, pure_bind]
  cases h.files.write path text <;> rfl

def answer (made : Except VaultError Path) (text? : Option String) : m Answer :=
  match made, text? with
  | .error e, _ => return .failed e
  | .ok path, none => return .path path none
  | .ok path, some text => return .path path (some (← put path text))

def perform (v : Vault) : Call → m Answer
  | .commonFile name text? => do answer (← (v.commonFile name).run) text?
  | .sessionFile id name text? => do answer (← (v.sessionFile id name).run) text?
  | .reportFile kind id text? => answer (.ok (v.reportFile kind id)) text?
  | .write path text => return .flag (← put path text)
  | .listCommon keep => return .paths (← v.listCommon keep)
  | .listSession id keep => return .paths (← v.listSession id keep)
  | .openSessions => return .ids (← v.openSessions)
  | .listReports => return .paths (← v.listReports)
  | .deleteSession id => return .flag (← v.deleteSession id)
  | .deleteReport id => return .flag (← v.deleteReport id)
  | .cleanupLegacy => return .flag (← v.cleanupLegacy)
  | .deleteAll => do
    match ← v.deleteAll.run with
    | .ok () => return .done
    | .error e => return .failed e

theorem run_perform (v : Vault) (call : Call) (h : Host) : (v.perform call).run h =
    match call with
    | .commonFile name text? =>
      (answer ((v.commonFile name).run.run h).1 text? : StateM Host _).run ((v.commonFile name).run.run h).2
    | .sessionFile id name text? =>
      (answer ((v.sessionFile id name).run.run h).1 text? : StateM Host _).run ((v.sessionFile id name).run.run h).2
    | .reportFile kind id text? => (answer (.ok (v.reportFile kind id)) text? : StateM Host _).run h
    | .write path text => (.flag ((put path text : StateM Host _).run h).1, ((put path text : StateM Host _).run h).2)
    | .listCommon keep => (.paths ((v.listCommon keep).run h).1, ((v.listCommon keep).run h).2)
    | .listSession id keep => (.paths ((v.listSession id keep).run h).1, ((v.listSession id keep).run h).2)
    | .openSessions => (.ids (v.openSessions.run h).1, (v.openSessions.run h).2)
    | .listReports => (.paths (v.listReports.run h).1, (v.listReports.run h).2)
    | .deleteSession id => (.flag ((v.deleteSession id).run h).1, ((v.deleteSession id).run h).2)
    | .deleteReport id => (.flag ((v.deleteReport id).run h).1, ((v.deleteReport id).run h).2)
    | .cleanupLegacy => (.flag (v.cleanupLegacy.run h).1, (v.cleanupLegacy.run h).2)
    | .deleteAll => match v.deleteAll.run.run h with
      | (.ok (), h') => (.done, h')
      | (.error e, h') => (.failed e, h') := by
  cases call with
  | deleteAll =>
    simp only [perform, StateT.run_bind]
    rcases (v.deleteAll : Attempt Unit).run.run h with ⟨_ | _, _⟩ <;> rfl
  | reportFile kind id text? => rfl
  | _ =>
    simp only [perform, StateT.run_bind]
    rfl

def runCalls (v : Vault) : List Call → m (List Answer)
  | [] => return []
  | call :: calls => return (← v.perform call) :: (← v.runCalls calls)

theorem run_runCalls_cons (v : Vault) (call : Call) (calls : List Call) (h : Host) :
    (v.runCalls (call :: calls)).run h =
      (((v.perform call).run h).1 :: ((v.runCalls calls).run ((v.perform call).run h).2).1,
        ((v.runCalls calls).run ((v.perform call).run h).2).2) := rfl

theorem run_runCalls_append (v : Vault) (done rest : List Call) (h : Host) :
    (v.runCalls (done ++ rest)).run h =
      (((v.runCalls done).run h).1 ++ ((v.runCalls rest).run ((v.runCalls done).run h).2).1,
        ((v.runCalls rest).run ((v.runCalls done).run h).2).2) := by
  induction done generalizing h with
  | nil => rfl
  | cons call done ih =>
    rw [List.cons_append, run_runCalls_cons, run_runCalls_cons, ih]
    rfl

/-- Several vaults in use on one host, the one opened first and those opened since. -/
structure Stores where
  first : Vault
  more : List Vault
  host : Host

def Stores.vault (s : Stores) (k : Nat) : Vault := (s.first :: s.more).getD k s.first

/-- A step of a run over several vaults: opening one more, or a call of one of them. -/
inductive Act
  | reopen
  | on (k : Nat) (call : Call)

def Act.perform (base : Path) (s : Stores) : Act → Answer × Stores
  | .reopen => match (openAt base).run.run s.host with
    | (.ok v, host) => (.done, { s with more := s.more ++ [v], host })
    | (.error e, host) => (.failed e, { s with host })
  | .on k call =>
    let r := ((s.vault k).perform call).run s.host
    (r.1, { s with host := r.2 })

/-- What has become of the stores after a run. -/
def Stores.after (base : Path) (s : Stores) (acts : List Act) : Stores :=
  acts.foldl (fun s act => (act.perform base s).2) s

end Vault
end CrashVault
