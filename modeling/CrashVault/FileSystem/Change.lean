import CrashVault.FileSystem

/-! The changes a file system allows: making directories and links, writing files, removing entries.
A refused change leaves the file system as it is; only the two changes that go over many entries can
stop half-way, and they return what they have reached. -/

namespace CrashVault
namespace FileSystem

/-- The file system after a change to its tree. No change puts one directory in the place of another, so
the working directory is still there exactly if its place holds a directory. -/
def withTree (fs : FileSystem) (t : FileTree) : FileSystem where
  tree := t
  cwd := .settle t fs.cwd.place fs.cwd.lost
  order := fs.order
  stands := WorkingDir.get?_settle t _ _

theorem cwd_withTree {fs : FileSystem} {t : FileTree} (h : t.get? fs.cwd.place = some .directory) :
    (fs.withTree t).cwd = fs.cwd :=
  WorkingDir.settle_of_directory h _

def add (fs : FileSystem) (d : Loc) (n : String) (x : Node) : FileSystem := fs.withTree (fs.tree.add d n x)

def prune (fs : FileSystem) (l : Loc) : FileSystem := fs.withTree (fs.tree.prune l)

def makeDir (fs : FileSystem) (p : Path) : Except SystemError FileSystem :=
  match fs.entry p with
  | .ok (.vacant d n) => .ok (fs.add d n .directory)
  | .ok _ => .error .alreadyExists
  | .error e => .error e

/-- Makes a link where the path names nothing; a closing slash asks for a directory and is refused. -/
def makeLink (fs : FileSystem) (p target : Path) : Except SystemError FileSystem :=
  if target.text = "" then .error .missing
  else if pathMax < target.byteSize then .error .nameTooLong
  else match fs.entry p with
    | .ok (.vacant d n) => if p.endsInSlash then .error .missing else .ok (fs.add d n (.link target))
    | .ok _ => .error .alreadyExists
    | .error e => .error e

/-- Writes the whole text of the file that the path leads to, which is made if it is not there. -/
def write (fs : FileSystem) (p : Path) (text : String) : Except SystemError FileSystem :=
  match fs.find true p with
  | .ok (.vacant d n) => .ok (fs.add d n (.file text))
  | .ok (.node l) => match fs.tree.get? l with
    | some (.file _) => .ok (fs.withTree (fs.tree.setText l text))
    | _ => .error .isDirectory
  | .ok .removed => .error .isDirectory
  | .error e => .error e

/-- Removes the entry that the path names: a file, a link itself, or an empty directory. A dot or two
and the root are refused by name. -/
def remove (fs : FileSystem) (p : Path) : Except SystemError FileSystem :=
  match fs.entry p with
  | .error e => .error e
  | .ok spot =>
    match p.names.getLast? with
    | none => .error .busy
    | some n =>
      if n = "." then .error .invalid
      else if n = ".." then .error .notEmpty
      else match spot with
        | .vacant _ _ | .removed => .error .missing
        | .node l => match fs.tree.get? l with
          | none => .error .missing
          | some .directory => if fs.tree.children l = [] then .ok (fs.prune l) else .error .notEmpty
          | some _ => if p.endsInSlash then .error .notDirectory else .ok (fs.prune l)

def makeDirsMax : Nat := 1000

/-- The directories to make for `p`, which names nothing yet: `p` itself and all above it up to one
that is there, the outermost first. `up` bounds the names of `p` still to be dropped. -/
def missingDirs (fs : FileSystem) (up : Nat) (p : Path) (below : List Path) :
    Except SystemError (List Path) :=
  match up with
  | 0 => .ok below
  | up + 1 =>
    let dirs := if p.fileName = "." ∨ p.fileName = ".." then below else p :: below
    if makeDirsMax < dirs.length then .error .nameTooLong
    else if p.parent.text = "" then .ok dirs
    else match fs.status p.parent with
      | .ok .directory => .ok dirs
      | .ok _ => .error .notDirectory
      | .error e => if e.saysAbsent then fs.missingDirs up p.parent dirs else .ok dirs

/-- Makes the directories one after the other; one that is there already will do. -/
def makeEach (fs : FileSystem) : List Path → Except SystemError Unit × FileSystem
  | [] => (.ok (), fs)
  | p :: ps => match fs.makeDir p with
    | .ok fs' => fs'.makeEach ps
    | .error .alreadyExists =>
      if fs.isDirectory p then fs.makeEach ps else (.error .alreadyExists, fs)
    | .error e => (.error e, fs)

/-- Sees to it that the path leads to a directory, making it and those above it where they are missing. -/
def makeDirs (fs : FileSystem) (p : Path) : Except SystemError Unit × FileSystem :=
  if p.text = "" then (.error .invalid, fs)
  else match fs.status p with
    | .ok .directory => (.ok (), fs)
    | .ok _ => (.error .notDirectory, fs)
    | .error e =>
      if e.saysAbsent then
        match fs.missingDirs p.names.length (if p.endsInSlash then p.parent else p) [] with
        | .ok dirs => fs.makeEach dirs
        | .error e => (.error e, fs)
      else (.error e, fs)

/-- Removes what the path names with all below it, whatever the length of the paths there. -/
def removeAll (fs : FileSystem) (p : Path) : Except SystemError Unit × FileSystem :=
  let finish (fs : FileSystem) : Except SystemError Unit × FileSystem :=
    match fs.remove p with
    | .ok fs' => (.ok (), fs')
    | .error .missing => (.ok (), fs)
    | .error e => (.error e, fs)
  match fs.find false p with
  | .ok (.node l) => finish (fs.withTree (fs.tree.clear l))
  | .ok .removed => finish fs
  | .ok (.vacant _ _) | .error .missing => (.ok (), fs)
  | .error .nameTooLong => (.error .nameTooLong, fs)
  | .error _ => finish fs

theorem makeDir_ok {fs fs' : FileSystem} {p : Path} (h : fs.makeDir p = .ok fs') :
    ∃ d n, fs.entry p = .ok (.vacant d n) ∧ fs.tree.CanAdd d n ∧ fs' = fs.add d n .directory := by
  unfold makeDir at h
  split at h
  · rename_i d n he
    cases h
    exact ⟨d, n, he, entry_reached he, rfl⟩
  · cases h
  · cases h

/-- What is removed is one entry with nothing below it, a directory if the path has a slash at its end. -/
theorem remove_ok {fs fs' : FileSystem} {p : Path} (h : fs.remove p = .ok fs') :
    ∃ n d x, fs.entry p = .ok (.node (n :: d)) ∧ fs.tree.get? (n :: d) = some x ∧
      (p.endsInSlash = true → x = .directory) ∧ fs.tree.children (n :: d) = [] ∧
      fs' = fs.prune (n :: d) := by
  unfold remove at h
  split at h
  · cases h
  · rename_i spot he
    split at h
    · cases h
    · rename_i n hn
      split at h
      · cases h
      · split at h
        · cases h
        · split at h
          · cases h
          · cases h
          · obtain ⟨d, rfl⟩ := entry_node hn ‹_› ‹_› he
            split at h
            · cases h
            · rename_i hd
              split at h
              · cases h
                exact ⟨n, d, _, he, hd, fun _ => rfl, ‹_›, rfl⟩
              · cases h
            · rename_i x hnd hx
              split at h
              · cases h
              · rename_i hslash
                cases h
                have hc := FileTree.children_of_ne_directory hx hnd
                exact ⟨n, d, x, he, hx, fun hs => absurd hs hslash, hc, rfl⟩

end FileSystem
end CrashVault
