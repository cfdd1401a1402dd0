import CrashVault.Host

/-! Work on the directories of a host: listing one, removing a tree, and seeing to it that a path
leads to a directory. Listing and removing never fail, they say what they could do; preparing a
directory fails when it cannot be made. Everything that goes wrong is recorded. -/

namespace CrashVault

inductive VaultError
  | invalidSessionId (id : String)
  | unpreparedDirectory (path : Path)
  deriving DecidableEq

def VaultError.message : VaultError → String
  | invalidSessionId id => "FileStore: Invalid session id: '" ++ id ++ "'"
  | unpreparedDirectory path =>
    "Initialization error: Could not create crash reporter directory: " ++ path.text

/-- Work on a host that can fail; what it did before it failed stays done. -/
abbrev Attempt (α : Type) := ExceptT VaultError (StateM Host) α

namespace Attempt
variable {α β : Type}

theorem run_get_bind (f : Host → Attempt α) (h : Host) :
    (get >>= f).run.run h = (f h).run.run h := rfl

theorem run_modify_bind (g : Host → Host) (f : Unit → Attempt α) (h : Host) :
    (modify g >>= f).run.run h = (f ()).run.run (g h) := rfl

theorem run_lift_bind (x : StateM Host α) (f : α → Attempt β) (h : Host) :
    (liftM x >>= f : Attempt β).run.run h = (f (x.run h).1).run.run (x.run h).2 := rfl

theorem run_bind (x : Attempt α) (f : α → Attempt β) (h : Host) : (x >>= f).run.run h =
    match x.run.run h with
    | (.ok a, h') => (f a).run.run h'
    | (.error e, h') => (.error e, h') := by
  simp only [ExceptT.run_bind, StateT.run_bind]
  rcases x.run.run h with ⟨_ | _, _⟩ <;> rfl

end Attempt

namespace Directory
variable {m : Type → Type} [Monad m] [MonadStateOf Host m] [MonadLog m]

/-- The entries of a directory whose names are to be kept; none if it cannot be listed. -/
def listing (dir : Path) (keep : String → Bool) : m (List Path) := do
  match (← get).files.list dir with
  | .ok names => return (names.filter keep).map (dir / ·)
  | .error _ =>
    record .trace ("FileStore: Directory not listable: " ++ dir.text)
    return []

def removeEntry (p : Path) : m Bool := do
  match (← get).files.remove p with
  | .ok files =>
    modify fun h => { h with files }
    return true
  | .error .missing => return false
  | .error e =>
    record .trace ("FileStore: Could not remove " ++ p.text ++ ": " ++ e.message)
    return false

structure Removal where
  removed : Bool
  /-- On how many paths removal was tried. -/
  tried : Nat
  deriving DecidableEq

/-- What is below a path, if it names a directory itself. -/
def below (p : Path) : m (List Path) := do
  match (← get).files.linkStatus p with
  | .ok .directory => listing p fun _ => true
  | _ => return []

/-- Removes the entry and, first, all that is below it. Each path is longer than the one above it, and
`room` bounds how much longer the system lets them get. -/
def removeWithin : (room : Nat) → Path → m Removal
  | 0, p => return ⟨← removeEntry p, 1⟩
  | room + 1, p => do
    let children ← below p
    let tried ← children.foldlM (fun n child => return n + (← removeWithin room child).tried) 1
    return ⟨← removeEntry p, tried⟩

/-- Removes a file, a link itself, or a directory with all below it, as far as it can. The answer tells
of the path's own entry. -/
def removeTree (p : Path) : m Removal := removeWithin (pathMax + 1 - p.byteSize) p

def make (p : Path) : ExceptT VaultError m Path := do
  let (made, files) := (← get).files.makeDirs p
  modify fun h => { h with files }
  let failed (reason : String) : ExceptT VaultError m Path := do
    (record .error ("FileStore: Could not create directory: " ++ p.text ++ reason) : m Unit)
    throw (.unpreparedDirectory p)
  match made, files.status p with
  | .ok (), .ok .directory => return p
  | .ok (), .ok _ => failed ""
  | .ok (), .error e => failed (": " ++ e.message)
  | .error e, _ => failed (": " ++ e.message)

/-- Removes what stands where a directory is wanted. -/
def clearWay (p : Path) : m Unit := do
  record .debug ("FileStore: Unexpected non-directory file: " ++ p.text ++
    "; deleting file and creating new directory.")
  match (← get).files.remove p with
  | .ok files => modify fun h => { h with files }
  | .error _ => return ()

/-- Sees to it that the path leads to a directory, and returns the path. -/
def prepare (p : Path) : ExceptT VaultError m Path := do
  match (← get).files.status p with
  | .ok .directory => return p
  | .ok _ =>
    (clearWay p : m Unit)
    make p
  | .error _ => make p

end Directory
end CrashVault
