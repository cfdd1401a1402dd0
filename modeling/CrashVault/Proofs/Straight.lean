import CrashVault.Proofs.Frame

/-! Paths that go straight down: no name of theirs is `..` and no link is on their way. Such a path leads
to the place that its names spell out, as long as a directory is there (`Spells.lead`), whatever becomes of
the rest of the tree (`Spells.settle`). -/

namespace CrashVault

/-- The place that steps spell out from `cur`, a dot standing for nothing. -/
def spell (steps : List String) (cur : Loc) : Loc := (steps.filter (· ≠ ".")).reverse ++ cur

theorem spell_nil (cur : Loc) : spell [] cur = cur := rfl

theorem spell_dot (rest : List String) (cur : Loc) : spell ("." :: rest) cur = spell rest cur := by
  simp [spell]

theorem spell_cons {s : String} (hs : s ≠ ".") (rest : List String) (cur : Loc) :
    spell (s :: rest) cur = spell rest (s :: cur) := by
  simp [spell, hs]

theorem suffix_spell (steps : List String) (cur : Loc) : cur <:+ spell steps cur := List.suffix_append _ _

namespace FileTree

theorem get?_of_spell {t : FileTree} {steps : List String} {cur : Loc}
    (h : t.get? (spell steps cur) = some .directory) : t.get? cur = some .directory := by
  by_cases he : cur = spell steps cur
  · rw [he, h]
  · exact get?_of_isSuffix h (suffix_spell steps cur) he

theorem walkWith_spell {t : FileTree} {f : Bool} {jump : Loc → List String → Except SystemError Spot}
    {steps rest : List String} {cur : Loc} (hup : ".." ∉ steps)
    (h : t.get? (spell steps cur) = some .directory) :
    t.walkWith f jump cur (steps ++ rest) = t.walkWith f jump (spell steps cur) rest := by
  induction steps generalizing cur with
  | nil => rfl
  | cons s steps ih =>
    have hs : ".." ≠ s := List.ne_of_not_mem_cons hup
    have hsteps : ".." ∉ steps := List.not_mem_of_not_mem_cons hup
    rw [List.cons_append, walkWith_cons, get?_of_spell h]
    by_cases hdot : s = "."
    · subst hdot
      rw [spell_dot] at h ⊢
      exact ih hsteps h
    · rw [spell_cons hdot] at h ⊢
      have hdir := get?_of_spell h
      have hlen := (isEntryName_of_get? hdir).2
      simp only [hdot, Ne.symm hs, if_false, Nat.not_lt.2 hlen, hdir]
      exact ih hsteps h

theorem walk_spell {t : FileTree} {f : Bool} {b : Nat} {steps rest : List String} {cur : Loc}
    (hup : ".." ∉ steps) (h : t.get? (spell steps cur) = some .directory) :
    t.walk f b cur (steps ++ rest) = t.walk f b (spell steps cur) rest := by
  cases b <;> exact walkWith_spell hup h

theorem spell_of_walkWith {t : FileTree} {jump : Loc → List String → Except SystemError Spot}
    {steps : List String} {cur l : Loc} (hup : ".." ∉ steps)
    (hlink : ∀ ns, ns <+: steps → ∀ target, t.get? (spell ns cur) ≠ some (.link target))
    (h : t.walkWith true jump cur steps = .ok (.node l)) : l = spell steps cur := by
  induction steps generalizing cur with
  | nil =>
    rw [walkWith_nil] at h
    cases h
    rfl
  | cons s rest ih =>
    have hs : ".." ≠ s := List.ne_of_not_mem_cons hup
    have hrest : ".." ∉ rest := List.not_mem_of_not_mem_cons hup
    have hnext : ∀ ns, ns <+: rest → s :: ns <+: s :: rest := fun ns hns =>
      (List.prefix_cons_inj s).2 hns
    have hskip : s = "." → ∀ ns, spell (s :: ns) cur = spell ns cur := by
      rintro rfl ns
      exact spell_dot ns cur
    obtain ⟨-, hstride⟩ := walkWith_cons_ok.1 h
    cases hstride with
    | dot hdot h =>
      rw [hskip hdot]
      refine ih hrest (fun ns hns target => ?_) h
      rw [← hskip hdot]
      exact hlink _ (hnext ns hns) target
    | up hup => exact absurd hup (Ne.symm hs)
    | jump hdown hx =>
      have hnot := hlink [s] (hnext [] List.nil_prefix)
      rw [spell_cons hdown.1, spell_nil] at hnot
      exact absurd hx (hnot _)
    | stop _ _ hfollow => exact absurd (.inl rfl) hfollow
    | down hdown _ _ h =>
      rw [spell_cons hdown.1]
      refine ih hrest (fun ns hns target => ?_) h
      rw [← spell_cons hdown.1]
      exact hlink _ (hnext ns hns) target

theorem spell_of_walk {t : FileTree} {b : Nat} {steps : List String} {cur l : Loc} (hup : ".." ∉ steps)
    (hlink : ∀ ns, ns <+: steps → ∀ target, t.get? (spell ns cur) ≠ some (.link target))
    (h : t.walk true b cur steps = .ok (.node l)) : l = spell steps cur := by
  cases b <;> exact spell_of_walkWith hup hlink h

theorem lost_eq_zero {t : FileTree} {f : Bool} {place l : Loc} {lost : Nat} {steps : List String}
    (hup : ".." ∉ steps) (h : t.walkOut f place lost steps = .ok (.node l)) : lost = 0 := by
  induction steps with
  | nil =>
    cases lost with
    | zero => rfl
    | succ lost => cases h
  | cons s rest ih =>
    have hs : ".." ≠ s := List.ne_of_not_mem_cons hup
    have hrest : ".." ∉ rest := List.not_mem_of_not_mem_cons hup
    cases lost with
    | zero => rfl
    | succ lost =>
      rcases walkOut_cons_ok.1 h with ⟨-, h⟩ | ⟨hup, -⟩
      · exact ih hrest h
      · exact absurd hup (Ne.symm hs)

end FileTree

namespace FileSystem

/-- The path goes straight down: no name of it is `..` and none of its beginnings names a link. -/
def Plain (fs : FileSystem) (p : Path) : Prop :=
  ".." ∉ p.names ∧ ∀ ns, ns <+: p.names → ∀ target,
    fs.tree.get? (spell ns (fs.startOf p).place) ≠ some (.link target)

/-- The names of the path spell out the place `d`. -/
structure Spells (fs : FileSystem) (p : Path) (d : Loc) : Prop where
  straight : ".." ∉ p.names
  lost : (fs.startOf p).lost = 0
  place : d = spell p.names (fs.startOf p).place

theorem Plain.spells {fs : FileSystem} {p : Path} {d : Loc} (h : fs.Plain p)
    (hd : fs.lead p = .ok (.node d)) : fs.Spells p d := by
  have hlost := FileTree.lost_eq_zero h.1 hd
  refine ⟨h.1, hlost, ?_⟩
  rw [lead, hlost, FileTree.walkOut] at hd
  exact FileTree.spell_of_walk h.1 h.2 hd

theorem Spells.lead {fs : FileSystem} {p : Path} {d : Loc} (h : fs.Spells p d)
    (hd : fs.tree.get? d = some .directory) : fs.lead p = .ok (.node d) := by
  rw [h.place] at hd ⊢
  rw [FileSystem.lead, h.lost, FileTree.walkOut, ← List.append_nil p.names, FileTree.walk_spell h.straight hd,
    FileTree.walk_nil, List.append_nil]

theorem Spells.join {fs : FileSystem} {p : Path} {d : Loc} (h : fs.Spells p d) {n : String} (hn : IsName n) :
    fs.Spells (p / n) (n :: d) := by
  have hstart := startOf_join (p := p) hn fs
  refine ⟨?_, hstart ▸ h.lost, ?_⟩
  · rw [Path.names_join hn, List.mem_append, List.mem_singleton]
    rintro (hmem | rfl)
    · exact h.straight hmem
    · exact hn.2.2.1 rfl
  · rw [hstart, Path.names_join hn, h.place]
    simp [spell, hn.2.1]

theorem Spells.lead_up {fs : FileSystem} {p : Path} {d : Loc} (h : fs.Spells p d) (hp : p.text ≠ "")
    (hd : fs.tree.get? d = some .directory) : fs.lead (p / "..") = .ok (.node d.tail) := by
  have hstep : IsStep ".." := ⟨by decide, by decide⟩
  have hstart : fs.startOf (p / "..") = fs.startOf p := by
    rw [startOf, startOf, Path.isAbsolute_join hstep hp]
  rw [FileSystem.lead, hstart, h.lost, FileTree.walkOut, Path.names_join_step hstep]
  have hspell := h.place ▸ hd
  rw [FileTree.walk_spell h.straight hspell, FileTree.walk_up hspell, FileTree.walk_nil, h.place]

/-- A relative path is looked up from a place above the one it spells out. -/
theorem Spells.suffix {fs : FileSystem} {p : Path} {d : Loc} (h : fs.Spells p d) :
    (fs.startOf p).place <:+ d := by
  rw [h.place]
  exact suffix_spell _ _

theorem Spells.settle {fs fs' : FileSystem} {p : Path} {d : Loc} (h : fs.Spells p d)
    (hcwd : fs'.cwd = .settle fs'.tree fs.cwd.place fs.cwd.lost)
    (hd : fs'.tree.get? d = some .directory) : fs'.Spells p d := by
  have hstart : fs'.startOf p = fs.startOf p := by
    have hs := h.suffix
    unfold startOf at hs ⊢
    split
    · rfl
    · rename_i habs
      rw [if_neg habs] at hs
      have hplace : fs'.tree.get? fs.cwd.place = some .directory := by
        by_cases he : fs.cwd.place = d
        · rw [he, hd]
        · exact FileTree.get?_of_isSuffix hd hs he
      rw [hcwd, WorkingDir.settle_of_directory hplace]
  exact ⟨h.straight, hstart ▸ h.lost, hstart ▸ h.place⟩

theorem startOf_root (fs : FileSystem) : fs.startOf ⟨"/"⟩ = .root := if_pos (by decide)

theorem names_root : (⟨"/"⟩ : Path).names = [] := by decide

theorem spells_root (fs : FileSystem) : fs.Spells ⟨"/"⟩ [] := by
  refine ⟨by simp [names_root], ?_, ?_⟩
  · rw [startOf_root]
    rfl
  · rw [startOf_root, names_root]
    rfl

theorem plain_root (fs : FileSystem) : fs.Plain ⟨"/"⟩ := by
  refine ⟨by simp [names_root], fun ns hns target hlink => ?_⟩
  rw [names_root, List.prefix_nil] at hns
  rw [hns, startOf_root, spell_nil] at hlink
  cases (FileTree.get?_root fs.tree).symm.trans hlink

theorem Grows.settle {fs fs' : FileSystem} (h : fs.Grows fs') :
    fs'.cwd = .settle fs'.tree fs.cwd.place fs.cwd.lost := by
  rw [h.cwd, WorkingDir.settle_of_directory (h.tree _ _ fs.stands)]

end FileSystem
end CrashVault
