import CrashVault.FileSystem.Change
import CrashVault.Proofs.Lead

/-! What changes may do to a file system: removals shrink it, and those that stay below one place clear
that place; additions grow it. Each relation is kept along a run of changes, and tells what has become of
a lookup (`Shrinks.locate`, `Grows.locate`). -/

namespace CrashVault
namespace FileSystem

/-- Nodes have been removed, and nothing else has changed. -/
structure Shrinks (fs fs' : FileSystem) : Prop where
  tree : fs'.tree.Within fs.tree
  cwd : fs'.cwd = .settle fs'.tree fs.cwd.place fs.cwd.lost
  order : fs'.order = fs.order

theorem settle_self (fs : FileSystem) : WorkingDir.settle fs.tree fs.cwd.place fs.cwd.lost = fs.cwd :=
  WorkingDir.settle_of_directory fs.stands _

theorem Shrinks.refl (fs : FileSystem) : fs.Shrinks fs := ⟨.refl _, fs.settle_self.symm, rfl⟩

theorem Shrinks.trans {a b c : FileSystem} (h1 : a.Shrinks b) (h2 : b.Shrinks c) : a.Shrinks c where
  tree := h2.tree.trans h1.tree
  cwd := by rw [h2.cwd, h1.cwd, FileTree.settle_settle h2.tree]
  order := h2.order.trans h1.order

theorem Shrinks.between {a b c : FileSystem} (hb : a.Shrinks b) (hc : a.Shrinks c)
    (htree : c.tree.Within b.tree) : b.Shrinks c where
  tree := htree
  cwd := by rw [hc.cwd, hb.cwd, FileTree.settle_settle htree]
  order := hc.order.trans hb.order.symm

theorem shrinks_withTree {fs : FileSystem} {t : FileTree} (h : t.Within fs.tree) :
    fs.Shrinks (fs.withTree t) := ⟨h, rfl, rfl⟩

theorem shrinks_prune (fs : FileSystem) (n : String) (d : Loc) : fs.Shrinks (fs.prune (n :: d)) :=
  shrinks_withTree (FileTree.prune_within _ (by simp))

theorem Shrinks.cwd_eq {fs fs' : FileSystem} (h : fs.Shrinks fs')
    (hd : fs'.tree.get? fs.cwd.place = some .directory) : fs'.cwd = fs.cwd := by
  rw [h.cwd, WorkingDir.settle_of_directory hd]

theorem Shrinks.walkOut {fs fs' : FileSystem} (h : fs.Shrinks fs') {f' f : Bool} {l : Loc}
    (hf : f' = f ∨ f = true ∧ ∀ target, fs'.tree.get? l ≠ some (.link target)) {p : Path}
    {steps : List String}
    (hl : fs'.tree.walkOut f' (fs'.startOf p).place (fs'.startOf p).lost steps = .ok (.node l)) :
    fs.tree.walkOut f (fs.startOf p).place (fs.startOf p).lost steps = .ok (.node l) := by
  unfold startOf at hl ⊢
  split at hl
  · rw [if_pos ‹_›]
    exact FileTree.walkOut_within h.tree hf hl
  · rw [if_neg ‹_›]
    rw [h.cwd] at hl
    exact FileTree.walkOut_settle h.tree hf fs.stands hl

/-- A node that a lookup finds after removals, it has found there before. -/
theorem Shrinks.locate {fs fs' : FileSystem} (h : fs.Shrinks fs') {f : Bool} {p : Path}
    {steps : List String} {l : Loc} (hl : fs'.locate f p steps = .ok (.node l)) :
    fs.locate f p steps = .ok (.node l) := by
  obtain ⟨hp, hlen⟩ := locate_ok hl
  rw [locate_of_fits hp hlen] at hl ⊢
  exact h.walkOut (.inl rfl) hl

theorem Shrinks.lead {fs fs' : FileSystem} (h : fs.Shrinks fs') {p : Path} {l : Loc}
    (hl : fs'.lead p = .ok (.node l)) : fs.lead p = .ok (.node l) :=
  h.walkOut (.inl rfl) hl

theorem not_suffix_self (n : String) (d : Loc) : ¬ n :: d <:+ d := fun h => by
  have := h.length_le
  simp only [List.length_cons] at this
  omega

/-- Nodes have been removed, all of them at or below one place. -/
structure Clears (place : Loc) (fs fs' : FileSystem) : Prop extends Shrinks fs fs' where
  kept : ∀ m, ¬ place <:+ m → fs'.tree.get? m = fs.tree.get? m

theorem Clears.refl (place : Loc) (fs : FileSystem) : Clears place fs fs := ⟨.refl fs, fun _ _ => rfl⟩

theorem Clears.trans {place : Loc} {a b c : FileSystem} (h1 : Clears place a b) (h2 : Clears place b c) :
    Clears place a c :=
  ⟨h1.toShrinks.trans h2.toShrinks, fun m hm => (h2.kept m hm).trans (h1.kept m hm)⟩

theorem Clears.up {place outer : Loc} {fs fs' : FileSystem} (h : Clears place fs fs')
    (hs : outer <:+ place) : Clears outer fs fs' :=
  ⟨h.toShrinks, fun m hm => h.kept m fun hp => hm (hs.trans hp)⟩

theorem clears_prune (fs : FileSystem) (n : String) (d : Loc) :
    Clears (n :: d) fs (fs.prune (n :: d)) := by
  refine ⟨shrinks_prune fs n d, fun m hm => ?_⟩
  rw [prune, withTree, FileTree.get?_prune _ (by simp), if_neg hm]

/-- Nodes have been added, and nothing else has changed. -/
structure Grows (fs fs' : FileSystem) : Prop where
  tree : fs.tree.Within fs'.tree
  cwd : fs'.cwd = fs.cwd
  order : fs'.order = fs.order

theorem Grows.refl (fs : FileSystem) : fs.Grows fs := ⟨.refl _, rfl, rfl⟩

theorem Grows.trans {a b c : FileSystem} (h1 : a.Grows b) (h2 : b.Grows c) : a.Grows c :=
  ⟨h1.tree.trans h2.tree, h2.cwd.trans h1.cwd, h2.order.trans h1.order⟩

theorem grows_add {fs : FileSystem} {d : Loc} {n : String} (h : fs.tree.CanAdd d n) (x : Node) :
    fs.Grows (fs.add d n x) :=
  ⟨FileTree.within_add h x, cwd_withTree (FileTree.within_add h x _ _ fs.stands), rfl⟩

theorem Grows.locate {fs fs' : FileSystem} (h : fs.Grows fs') {f : Bool} {p : Path}
    {steps : List String} {l : Loc} (hl : fs.locate f p steps = .ok (.node l)) :
    fs'.locate f p steps = .ok (.node l) := by
  obtain ⟨hp, hlen⟩ := locate_ok hl
  rw [locate_of_fits hp hlen] at hl ⊢
  rw [startOf, h.cwd]
  exact FileTree.walkOut_within h.tree (.inl rfl) hl

theorem find_of_remove {fs fs' : FileSystem} {p : Path} (h : fs.remove p = .ok fs') :
    ∃ n d, fs.find false p = .ok (.node (n :: d)) ∧ fs.tree.children (n :: d) = [] ∧
      fs' = fs.prune (n :: d) := by
  obtain ⟨n, d, x, he, hx, hdir, hc, rfl⟩ := remove_ok h
  refine ⟨n, d, ?_, hc, rfl⟩
  obtain ⟨hp, hlen⟩ := locate_ok he
  rw [find, Path.steps]
  split
  · -- with a slash at the end of the path nothing but a directory is removed
    rename_i hslash
    obtain rfl := hdir hslash
    have htrue := locate_directory he hx
    rw [locate_of_fits hp hlen] at htrue ⊢
    rw [FileTree.walkOut_snoc (.inl rfl), htrue]
    exact FileTree.enter_dot_of_directory hx
  · exact he

theorem names_join_getLast? {p : Path} {n : String} (hn : IsName n) :
    (p / n).names.getLast? = some n := by
  simp [Path.names_join hn]

theorem remove_join {fs : FileSystem} {p : Path} {n : String} (hn : IsName n) : fs.remove (p / n) =
    match fs.entry (p / n) with
    | .error e => .error e
    | .ok (.vacant _ _) | .ok .removed => .error .missing
    | .ok (.node l) => match fs.tree.get? l with
      | none => .error .missing
      | some .directory => if fs.tree.children l = [] then .ok (fs.prune l) else .error .notEmpty
      | some _ => .ok (fs.prune l) := by
  unfold remove
  rcases fs.entry (p / n) with e | spot
  · rfl
  · simp only [names_join_getLast? hn, hn.2.1, hn.2.2.1, if_false, Path.endsInSlash_join hn]
    cases spot <;> rfl

theorem write_cases {fs fs' : FileSystem} {p : Path} {text : String} (h : fs.write p text = .ok fs') :
    (∃ d n, fs.find true p = .ok (.vacant d n) ∧ fs.tree.CanAdd d n ∧ fs' = fs.add d n (.file text)) ∨
      ∃ l old, fs.find true p = .ok (.node l) ∧ fs.tree.get? l = some (.file old) ∧
        fs' = fs.withTree (fs.tree.setText l text) := by
  unfold write at h
  split at h
  · rename_i d n hf
    cases h
    exact .inl ⟨d, n, hf, find_reached hf, rfl⟩
  · rename_i l hf
    split at h
    · rename_i old hold
      cases h
      exact .inr ⟨l, old, hf, hold, rfl⟩
    · cases h
  · cases h
  · cases h

end FileSystem
end CrashVault
