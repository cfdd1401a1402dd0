import CrashVault.Proofs.Frame

/-! A directory put where nothing stands, or in the place of a dead end. Every lookup that ended in a
directory still ends there (`Installs.keepsDirectories`), and one that ended at another node still ends at
a node (`Installs.status_ok`): at the same one, or at the new directory. -/

namespace CrashVault
namespace FileTree

/-- The second tree has a directory called `n` in the directory at `d`, where the first has nothing or a
dead end, and is otherwise the first. -/
structure Installs (n : String) (d : Loc) (t t' : FileTree) : Prop where
  free : t.get? (n :: d) = none ∨ t.DeadEnd n d
  get? : ∀ m, t'.get? m = if m = n :: d then some .directory else t.get? m

theorem Installs.get?_self {n : String} {d : Loc} {t t' : FileTree} (h : Installs n d t t') :
    t'.get? (n :: d) = some .directory := by
  rw [h.get?, if_pos rfl]

theorem Installs.get?_of_ne {n : String} {d m : Loc} {t t' : FileTree} (h : Installs n d t t')
    (hm : m ≠ n :: d) : t'.get? m = t.get? m := by
  rw [h.get?, if_neg hm]

theorem Installs.get?_directory {n : String} {d m : Loc} {t t' : FileTree} (h : Installs n d t t')
    (hm : t.get? m = some .directory) : t'.get? m = some .directory := by
  rw [h.get?]
  split
  · rfl
  · exact hm

theorem Installs.ne_directory {n : String} {d : Loc} {t t' : FileTree} (h : Installs n d t t') :
    t.get? (n :: d) ≠ some .directory := by
  intro hdir
  rcases h.free with hnone | hdead
  · rw [hdir] at hnone
    cases hnone
  · exact hdead.ne_of_directory hdir rfl

theorem Installs.get?_below {n : String} {d : Loc} {t t' : FileTree} (h : Installs n d t t') (k : String) :
    t'.get? (k :: n :: d) = none := by
  rw [h.get?_of_ne (by simp)]
  cases hx : t.get? (k :: n :: d) with
  | none => rfl
  | some x => exact absurd (get?_parent hx) h.ne_directory

/-- A lookup that ended at `m` has ended there again; or `m` was no directory, and it has ended at the
new one. -/
def EndsAgain (t : FileTree) (n : String) (d m : Loc) (r : Except SystemError Spot) : Prop :=
  r = .ok (.node m) ∨ t.get? m ≠ some .directory ∧ r = .ok (.node (n :: d))

theorem walkWith_installs {n : String} {d m : Loc} {t t' : FileTree} (hi : Installs n d t t')
    {jump jump' : Loc → List String → Except SystemError Spot}
    (hj : ∀ cur steps, jump cur steps = .ok (.node m) → t.EndsAgain n d m (jump' cur steps))
    (hdead : ∀ target rest, t.get? (n :: d) = some (.link target) →
      jump (linkStart target d) (target.steps ++ rest) = .ok (.node m) →
        rest = [] ∧ t.get? m ≠ some .directory)
    {cur : Loc} {steps : List String} (h : t.walkWith true jump cur steps = .ok (.node m)) :
    t.EndsAgain n d m (t'.walkWith true jump' cur steps) := by
  induction steps generalizing cur with
  | nil =>
    rw [walkWith_nil] at h ⊢
    exact .inl h
  | cons s rest ih =>
    obtain ⟨hdir, hstride⟩ := walkWith_cons_ok.1 h
    have hdir' := hi.get?_directory hdir
    have hnext : ∀ {r : Except SystemError Spot}, t.EndsAgain n d m r →
        (∀ l, r = .ok (.node l) → Stride t' true jump' cur s rest (.node l)) →
        t.EndsAgain n d m (t'.walkWith true jump' cur (s :: rest)) := fun hr hs =>
      hr.imp (fun h => walkWith_cons_ok.2 ⟨hdir', hs _ h⟩)
        (And.imp_right fun h => walkWith_cons_ok.2 ⟨hdir', hs _ h⟩)
    cases hstride with
    | dot hs h => exact hnext (ih h) fun _ => .dot hs
    | up hs h => exact hnext (ih h) fun _ => .up hs
    | jump hs hx _ h =>
      by_cases he : s :: cur = n :: d
      · -- the way through the old link ended there, and now ends at the directory
        obtain ⟨rfl, rfl⟩ := List.cons.inj he
        obtain ⟨rfl, hm⟩ := hdead _ _ hx h
        exact .inr ⟨hm, walkWith_cons_ok.2 ⟨hdir', .down hs hi.get?_self (by simp) (walkWith_nil ..)⟩⟩
      · exact hnext (hj _ _ h) fun _ => .jump hs ((hi.get?_of_ne he).trans hx) (.inl rfl)
    | stop _ _ hfollow => exact absurd (.inl rfl) hfollow
    | down hs hx hlink h =>
      by_cases he : s :: cur = n :: d
      · -- what stood there was a file, so the lookup ended at it
        rw [he] at h hx
        cases rest with
        | nil =>
          rw [walkWith_nil] at h
          cases h
          refine .inl (walkWith_cons_ok.2 ⟨hdir', ?_⟩)
          rw [← he]
          exact .down hs (he ▸ hi.get?_self) (by simp) (walkWith_nil ..)
        | cons s' rest => exact absurd (walkWith_cons_ok.1 h).1 hi.ne_directory
      · exact hnext (ih h) fun _ => .down hs ((hi.get?_of_ne he).trans hx) hlink

theorem walk_installs {n : String} {d m : Loc} {t t' : FileTree} (hi : Installs n d t t') {b : Nat}
    {cur : Loc} {steps : List String} (h : t.walk true b cur steps = .ok (.node m)) :
    t.EndsAgain n d m (t'.walk true b cur steps) := by
  induction b generalizing cur steps with
  | zero => exact walkWith_installs hi (fun _ _ => by simp) (fun _ _ _ => by simp) h
  | succ b ih =>
    refine walkWith_installs hi (fun _ _ => ih) (fun target rest hl hw => ?_) h
    rcases hi.free with hnone | ⟨text, hf⟩ | ⟨target', hl', hno⟩
    · rw [hl] at hnone
      cases hnone
    · rw [hl] at hf
      cases hf
    · rw [hl] at hl'
      cases hl'
      cases rest with
      | nil => exact ⟨rfl, hno b m (by simpa using hw)⟩
      | cons r rest =>
        obtain ⟨c, hc, hcdir, -⟩ := walk_append (by simp) hw
        exact absurd hcdir (hno b c hc)

theorem walkOut_installs {n : String} {d m : Loc} {t t' : FileTree} (hi : Installs n d t t') {place : Loc}
    {lost : Nat} {steps : List String} (h : t.walkOut true place lost steps = .ok (.node m)) :
    t.EndsAgain n d m (t'.walkOut true place lost steps) := by
  induction steps generalizing lost with
  | nil =>
    cases lost with
    | zero => exact walk_installs hi h
    | succ lost => cases h
  | cons s rest ih =>
    cases lost with
    | zero => exact walk_installs hi h
    | succ lost =>
      rw [walkOut] at h ⊢
      split at h
      · rw [if_pos ‹_›]
        exact ih h
      · rw [if_neg ‹_›]
        split at h
        · rw [if_pos ‹_›]
          exact ih h
        · cases h

end FileTree

namespace FileSystem

/-- No directory has gone, and every lookup that ended in one still ends there. -/
structure KeepsDirectories (fs fs' : FileSystem) : Prop where
  dir : ∀ {m}, fs.tree.get? m = some .directory → fs'.tree.get? m = some .directory
  walk : ∀ {b cur steps m}, fs.tree.get? m = some .directory →
    fs.tree.walk true b cur steps = .ok (.node m) → fs'.tree.walk true b cur steps = .ok (.node m)
  cwd : fs'.cwd = fs.cwd

theorem KeepsDirectories.refl (fs : FileSystem) : fs.KeepsDirectories fs :=
  ⟨fun h => h, fun _ h => h, rfl⟩

theorem KeepsDirectories.trans {a b c : FileSystem} (h1 : a.KeepsDirectories b)
    (h2 : b.KeepsDirectories c) : a.KeepsDirectories c :=
  ⟨fun h => h2.dir (h1.dir h), fun h hw => h2.walk (h1.dir h) (h1.walk h hw), h2.cwd.trans h1.cwd⟩

theorem Grows.keepsDirectories {fs fs' : FileSystem} (h : fs.Grows fs') : fs.KeepsDirectories fs' :=
  ⟨h.tree _ _, fun _ => FileTree.walk_within h.tree (.inl rfl) (Nat.le_refl _), h.cwd⟩

theorem KeepsDirectories.lead {fs fs' : FileSystem} (h : fs.KeepsDirectories fs') {p : Path} {m : Loc}
    (hm : fs.tree.get? m = some .directory) (hl : fs.lead p = .ok (.node m)) :
    fs'.lead p = .ok (.node m) := by
  rw [FileSystem.lead, startOf, h.cwd]
  exact FileTree.walkOut_of_walk (by simp) (fun _ _ => h.walk hm) hl

theorem KeepsDirectories.find {fs fs' : FileSystem} (h : fs.KeepsDirectories fs') {p : Path} {m : Loc}
    (hm : fs.tree.get? m = some .directory) (hl : fs.find true p = .ok (.node m)) :
    fs'.find true p = .ok (.node m) := by
  obtain ⟨hp, hlen⟩ := locate_ok hl
  exact find_of_lead hp hlen (h.lead hm (lead_of_find hl)) (h.dir hm)

theorem KeepsDirectories.status {fs fs' : FileSystem} (h : fs.KeepsDirectories fs') {p : Path} {n : String}
    (hn : IsName n) (hs : fs.status (p / n) = .ok .directory) : fs'.status (p / n) = .ok .directory := by
  obtain ⟨m, hl, hm⟩ := find_of_node hn hs
  exact node_of_find (h.find hm hl) (h.dir hm)

theorem KeepsDirectories.deadEnd {fs fs' : FileSystem} (h : fs.KeepsDirectories fs') {n : String} {d : Loc}
    (hsame : fs'.tree.get? (n :: d) = fs.tree.get? (n :: d)) (hd : fs'.tree.DeadEnd n d) :
    fs.tree.DeadEnd n d := by
  rcases hd with ⟨text, hx⟩ | ⟨target, hx, hno⟩
  · exact .inl ⟨text, hsame ▸ hx⟩
  · refine .inr ⟨target, hsame ▸ hx, fun b m hw hm => ?_⟩
    exact hno b m (h.walk hm hw) (h.dir hm)

/-- A directory has been put under the name `n` in the directory at `d`, where nothing stood or a dead
end. -/
structure Installs (n : String) (d : Loc) (fs fs' : FileSystem) : Prop where
  tree : FileTree.Installs n d fs.tree fs'.tree
  cwd : fs'.cwd = fs.cwd

theorem Installs.keepsDirectories {n : String} {d : Loc} {fs fs' : FileSystem} (h : Installs n d fs fs') :
    fs.KeepsDirectories fs' := by
  refine ⟨h.tree.get?_directory, fun hm hw => ?_, h.cwd⟩
  rcases FileTree.walk_installs h.tree hw with hw | ⟨hno, -⟩
  · exact hw
  · exact absurd hm hno

theorem Installs.status_ok {n k : String} {d : Loc} {fs fs' : FileSystem} (h : Installs n d fs fs')
    {p : Path} {x : Node} (hk : IsName k) (hs : fs.status (p / k) = .ok x) : ∃ y, fs'.status (p / k) = .ok y := by
  obtain ⟨m, hl, hm⟩ := find_of_node hk hs
  obtain ⟨hp, hlen⟩ := locate_ok hl
  have hsome : ∃ y, fs'.tree.get? m = some y := by
    rw [h.tree.get?]
    split
    · exact ⟨_, rfl⟩
    · exact ⟨x, hm⟩
  have hends := FileTree.walkOut_installs h.tree ((locate_of_fits hp hlen _ _).symm.trans hl)
  have hstart : fs'.startOf (p / k) = fs.startOf (p / k) := by rw [startOf, startOf, h.cwd]
  rw [← hstart, ← locate_of_fits hp hlen] at hends
  rcases hends with hl' | ⟨-, hl'⟩
  · obtain ⟨y, hy⟩ := hsome
    exact ⟨y, node_of_find hl' hy⟩
  · exact ⟨_, node_of_find hl' h.tree.get?_self⟩

/-- Nothing that is a directory is below a dead end, so whoever stands in one stays there. -/
theorem cwd_prune_deadEnd {fs : FileSystem} {n : String} {d : Loc} (hdead : fs.tree.DeadEnd n d) :
    (fs.prune (n :: d)).cwd = fs.cwd := by
  apply (shrinks_prune fs n d).cwd_eq
  rw [← fs.stands]
  exact hdead.get?_prune_of_ne (hdead.ne_of_directory fs.stands)

theorem installs_replace {fs : FileSystem} {d : Loc} {n : String} (hdead : fs.tree.DeadEnd n d)
    (hc : (fs.prune (n :: d)).tree.CanAdd d n) :
    Installs n d fs ((fs.prune (n :: d)).add d n .directory) := by
  refine ⟨⟨.inr hdead, fun m => ?_⟩, (grows_add hc _).cwd.trans (cwd_prune_deadEnd hdead)⟩
  rw [add, withTree, FileTree.get?_add hc]
  split
  · rfl
  · exact hdead.get?_prune_of_ne ‹_›

theorem installs_add {fs : FileSystem} {d : Loc} {n : String} (hc : fs.tree.CanAdd d n) :
    Installs n d fs (fs.add d n .directory) :=
  ⟨⟨.inl hc.2.2, FileTree.get?_add hc .directory⟩, (grows_add hc _).cwd⟩

end FileSystem
end CrashVault
