import CrashVault.FileTree

/-! The working directory: a directory of the tree, or one that has been removed from it. A removed
directory stays where it was, so the place kept is the innermost directory above it that is still there
(`get?_settle`). -/

namespace CrashVault

structure WorkingDir where
  place : Loc
  /-- How many directories have been removed below `place`, the working directory being the innermost. -/
  lost : Nat
  deriving DecidableEq

namespace WorkingDir

def root : WorkingDir := ⟨[], 0⟩

/-- Where one who stood `lost` levels below a place stands in the tree `t`: what is not there any more
is lost. -/
def settle (t : FileTree) : (place : Loc) → (lost : Nat) → WorkingDir
  | [], lost => ⟨[], lost⟩
  | n :: d, lost =>
    if t.get? (n :: d) = some .directory then ⟨n :: d, lost⟩ else settle t d (lost + 1)

theorem get?_settle (t : FileTree) (place : Loc) (lost : Nat) :
    t.get? (settle t place lost).place = some .directory := by
  induction place generalizing lost with
  | nil => exact FileTree.get?_root t
  | cons n d ih =>
    unfold settle
    split
    · assumption
    · exact ih _

theorem settle_of_directory {t : FileTree} {place : Loc} (h : t.get? place = some .directory)
    (lost : Nat) : settle t place lost = ⟨place, lost⟩ := by
  cases place with
  | nil => rfl
  | cons n d => rw [settle, if_pos h]

end WorkingDir
end CrashVault
