import CrashVault.Directory
import CrashVault.Proofs.Install

/-! What preparing a directory may change. Where the path is missing, directories are made at missing
beginnings of it, and that is all, also when the work stops half-way (`makeDirs_fills`). Where something
else than a directory is in the way, that one entry is replaced by an empty directory
(`prepare_installs`). Once the path in front of the name leads to a directory, that is all a preparation
can come to, but for failing (`prepare_outcome`). -/

namespace CrashVault
namespace FileSystem

theorem find_true_of_entry {fs : FileSystem} {p : Path} {m : Loc} (h : fs.entry p = .ok (.node m))
    (hm : fs.tree.get? m = some .directory) : fs.find true p = .ok (.node m) := by
  have htrue := locate_directory h hm
  obtain ⟨hp, hlen⟩ := locate_ok h
  refine find_of_lead hp hlen ?_ hm
  rwa [locate_of_fits hp hlen] at htrue

theorem locate_add {fs : FileSystem} {f : Bool} {p : Path} {steps : List String} {d : Loc} {n : String}
    (h : fs.locate f p steps = .ok (.vacant d n)) (hc : fs.tree.CanAdd d n) {x : Node}
    (hx : ∀ target, x ≠ .link target) :
    (fs.add d n x).locate f p steps = .ok (.node (n :: d)) := by
  obtain ⟨hp, hlen⟩ := locate_ok h
  rw [locate_of_fits hp hlen] at h ⊢
  rw [startOf, (grows_add hc x).cwd]
  exact FileTree.walkOut_of_walk (by simp) (fun _ _ => FileTree.walk_add hc hx) h

theorem get?_add {fs : FileSystem} {d : Loc} {n : String} (hc : fs.tree.CanAdd d n) (x : Node) (l : Loc) :
    (fs.add d n x).tree.get? l = if l = n :: d then some x else fs.tree.get? l :=
  FileTree.get?_add hc x l

/-- A beginning of the path that leads nowhere. -/
def MissingOn (fs : FileSystem) (p q : Path) : Prop :=
  q.Begins p ∧ ∃ e, fs.status q = .error e ∧ e.saysAbsent = true

theorem missingDirs_missing {fs : FileSystem} {up : Nat} {p top : Path} {below dirs : List Path}
    (h : fs.missingDirs up p below = .ok dirs) (hp : fs.MissingOn top p)
    (hbelow : ∀ q ∈ below, fs.MissingOn top q) : ∀ q ∈ dirs, fs.MissingOn top q := by
  induction up generalizing p below with
  | zero =>
    cases h
    exact hbelow
  | succ up ih =>
    have hdirs : ∀ q ∈ (if p.fileName = "." ∨ p.fileName = ".." then below else p :: below),
        fs.MissingOn top q := by
      intro q hq
      split at hq
      · exact hbelow q hq
      · rcases List.mem_cons.1 hq with rfl | hq
        · exact hp
        · exact hbelow q hq
    rw [missingDirs] at h
    generalize (if p.fileName = "." ∨ p.fileName = ".." then below else p :: below) = ds at h hdirs
    split at h
    · cases h
    · split at h
      · cases h
        exact hdirs
      · split at h
        · cases h
          exact hdirs
        · cases h
        · rename_i e he
          split at h
          · exact ih h ⟨p.begins_parent.trans hp.1, e, he, ‹_›⟩ hdirs
          · cases h
            exact hdirs

/-- Directories have been added, each where one of the paths leads now. -/
structure Fills (paths : Path → Prop) (fs fs' : FileSystem) : Prop extends Grows fs fs' where
  added : ∀ m, fs'.tree.get? m = fs.tree.get? m ∨
    fs.tree.get? m = none ∧ fs'.tree.get? m = some .directory ∧
      ∃ q, paths q ∧ fs'.find true q = .ok (.node m)

theorem Fills.refl (paths : Path → Prop) (fs : FileSystem) : Fills paths fs fs :=
  ⟨.refl fs, fun _ => .inl rfl⟩

theorem Fills.mono {paths paths' : Path → Prop} {fs fs' : FileSystem} (h : Fills paths fs fs')
    (hp : ∀ q, paths q → paths' q) : Fills paths' fs fs' := by
  refine ⟨h.toGrows, fun m => (h.added m).imp id ?_⟩
  rintro ⟨hm, hm', q, hq, hl⟩
  exact ⟨hm, hm', q, hp q hq, hl⟩

theorem Fills.trans {paths : Path → Prop} {a b c : FileSystem} (h1 : Fills paths a b)
    (h2 : Fills paths b c) : Fills paths a c := by
  refine ⟨h1.toGrows.trans h2.toGrows, fun m => ?_⟩
  rcases h1.added m with hb | ⟨ha, hb, q, hq, hl⟩
  · rw [← hb]
    exact h2.added m
  · refine .inr ⟨ha, h2.tree _ _ hb, q, hq, ?_⟩
    exact h2.locate hl

theorem fills_makeDir {fs fs' : FileSystem} {p : Path} (h : fs.makeDir p = .ok fs') :
    Fills (· = p) fs fs' := by
  obtain ⟨d, n, he, hc, rfl⟩ := makeDir_ok h
  refine ⟨grows_add hc _, fun m => ?_⟩
  rw [get?_add hc]
  split
  · rename_i hm
    have hnew : (fs.add d n .directory).tree.get? (n :: d) = some .directory := by
      rw [get?_add hc, if_pos rfl]
    refine .inr ⟨hm ▸ hc.2.2, rfl, p, rfl, ?_⟩
    rw [hm]
    exact find_true_of_entry (locate_add he hc (by simp)) hnew
  · exact .inl rfl

theorem makeEach_fills (fs : FileSystem) (ps : List Path) : Fills (· ∈ ps) fs (fs.makeEach ps).2 := by
  induction ps generalizing fs with
  | nil => exact .refl _ fs
  | cons p ps ih =>
    have htail : ∀ fs, Fills (· ∈ p :: ps) fs (fs.makeEach ps).2 := fun fs =>
      (ih fs).mono fun q => List.mem_cons_of_mem p
    rw [makeEach]
    split
    · rename_i fs' hm
      exact ((fills_makeDir hm).mono fun q hq => hq ▸ List.mem_cons_self).trans (htail fs')
    · split
      · exact htail fs
      · exact .refl _ fs
    · exact .refl _ fs

theorem makeDirs_fills (fs : FileSystem) {p : Path} (hp : p.endsInSlash = false) :
    Fills (fs.MissingOn p) fs (fs.makeDirs p).2 := by
  unfold makeDirs
  split
  · exact .refl _ fs
  · split
    · exact .refl _ fs
    · exact .refl _ fs
    · rename_i e he
      split
      · rename_i habsent
        rw [hp]
        split
        · rename_i dirs hdirs
          apply (makeEach_fills fs dirs).mono
          intro q hq
          exact missingDirs_missing hdirs ⟨.refl p, e, he, habsent⟩ (by simp) q hq
        · exact .refl _ fs
      · exact .refl _ fs

theorem byteSize_parent_join {p : Path} {n : String} : (p / n).parent.byteSize ≤ (p / n).byteSize := by
  obtain ⟨rest, hrest⟩ := (p / n).begins_parent.1
  have : (p / n).text = (p / n).parent.text ++ String.ofList rest := by
    rw [← String.toList_inj, String.toList_append, String.toList_ofList, hrest]
  rw [Path.byteSize, Path.byteSize, this, String.utf8ByteSize_append]
  omega

theorem status_parent_join {fs : FileSystem} {p : Path} {n : String} {d : Loc} (hn : IsName n)
    (hlen : (p / n).byteSize ≤ pathMax) (hlead : fs.lead p = .ok (.node d))
    (hd : fs.tree.get? d = some .directory) :
    (p / n).parent.text = "" ∨ fs.status (p / n).parent = .ok .directory := by
  by_cases he : (p / n).parent.text = ""
  · exact .inl he
  · have hsize := byteSize_parent_join (p := p) (n := n)
    have := find_of_lead he (by omega) ((lead_parent_join hn).trans hlead) hd
    exact .inr (node_of_find this hd)

/-- The path leads to a name that the directory at `d` does not hold. -/
structure Vacant (fs : FileSystem) (p : Path) (n : String) (d : Loc) : Prop where
  fits : (p / n).byteSize ≤ pathMax
  lead : fs.lead p = .ok (.node d)
  canAdd : fs.tree.CanAdd d n

theorem Vacant.isName {fs : FileSystem} {p : Path} {n : String} {d : Loc} (h : fs.Vacant p n d) :
    IsName n := h.canAdd.2.1.1

theorem Vacant.entry {fs : FileSystem} {p : Path} {n : String} {d : Loc} (h : fs.Vacant p n d) :
    fs.entry (p / n) = .ok (.vacant d n) := by
  rw [entry_join_eq h.isName h.fits, h.lead]
  exact FileTree.enter_of_none h.canAdd.2.1 h.canAdd.1 h.canAdd.2.2

theorem Vacant.find {fs : FileSystem} {p : Path} {n : String} {d : Loc} (h : fs.Vacant p n d)
    (follow : Bool) : fs.find follow (p / n) = .ok (.vacant d n) := by
  have he := h.entry
  rw [← find_false_join h.isName, FileSystem.find, locate_of_fits (Path.text_join_ne h.isName) h.fits] at he
  rw [FileSystem.find, locate_of_fits (Path.text_join_ne h.isName) h.fits]
  refine FileTree.walkOut_of_walk (by simp) (fun _ _ => FileTree.walk_vacant ?_) he
  cases follow
  · exact .inl rfl
  · exact .inr rfl

theorem Vacant.status {fs : FileSystem} {p : Path} {n : String} {d : Loc} (h : fs.Vacant p n d) :
    fs.status (p / n) = .error .missing := by
  rw [FileSystem.status, node, h.find]

theorem missingDirs_join {fs : FileSystem} {p : Path} {n : String} {d : Loc} {below : List Path} (hn : IsName n)
    (hfits : (p / n).byteSize ≤ pathMax) (hlead : fs.lead p = .ok (.node d))
    (hd : fs.tree.get? d = some .directory) (hmax : below.length < makeDirsMax) :
    fs.missingDirs (p / n).names.length (p / n) below = .ok (p / n :: below) := by
  obtain ⟨-, h1, h2, -⟩ := id hn
  rw [Path.names_join hn, List.length_append, List.length_singleton, missingDirs, Path.fileName_join hn]
  simp only [h1, h2, or_self, if_false, List.length_cons, Nat.not_lt.2 hmax]
  rcases status_parent_join hn hfits hlead hd with hp | hp
  · simp [hp]
  · simp [hp]

theorem Vacant.makeDir {fs : FileSystem} {p : Path} {n : String} {d : Loc} (h : fs.Vacant p n d) :
    fs.makeDir (p / n) = .ok (fs.add d n .directory) := by
  simp only [FileSystem.makeDir, h.entry]

theorem Vacant.makeDirs {fs : FileSystem} {p : Path} {n : String} {d : Loc} (h : fs.Vacant p n d) :
    fs.makeDirs (p / n) = (.ok (), fs.add d n .directory) := by
  have hdirs : fs.missingDirs (p / n).names.length (p / n) [] = .ok [p / n] :=
    missingDirs_join h.isName h.fits h.lead h.canAdd.1 (by decide)
  rw [FileSystem.makeDirs, if_neg (Path.text_join_ne h.isName), h.status]
  simp only [SystemError.saysAbsent, if_true, Path.endsInSlash_join h.isName, Bool.false_eq_true, if_false,
    hdirs, makeEach, h.makeDir]

theorem Vacant.status_add {fs : FileSystem} {p : Path} {n : String} {d : Loc} (h : fs.Vacant p n d) :
    (fs.add d n .directory).status (p / n) = .ok .directory := by
  have hnew : (fs.add d n .directory).tree.get? (n :: d) = some .directory := by
    rw [get?_add h.canAdd, if_pos rfl]
  exact node_of_find (find_true_of_entry (locate_add h.entry h.canAdd (by simp)) hnew) hnew

theorem add_of_not_canAdd {fs : FileSystem} {d : Loc} {n : String} (h : ¬ fs.tree.CanAdd d n) (x : Node) :
    fs.add d n x = fs := by
  have ht : fs.tree.add d n x = fs.tree := dif_neg h
  rw [add, ht]
  cases fs with
  | mk tree cwd order stands =>
    rw [withTree]
    congr 1
    exact WorkingDir.settle_of_directory stands _

/-- The way to a directory is free: its name is vacant in the directory at `d`, or it is there already. -/
structure Ready (fs : FileSystem) (p : Path) (n : String) (d : Loc) : Prop where
  fits : (p / n).byteSize ≤ pathMax
  lead : fs.lead p = .ok (.node d)
  dir : fs.tree.get? d = some .directory
  named : IsEntryName n
  free : ∀ x, fs.tree.get? (n :: d) = some x → x = .directory

theorem Ready.vacant {fs : FileSystem} {p : Path} {n : String} {d : Loc} (h : fs.Ready p n d)
    (hnone : fs.tree.get? (n :: d) = none) : fs.Vacant p n d := ⟨h.fits, h.lead, h.dir, h.named, hnone⟩

theorem Ready.present {fs : FileSystem} {p : Path} {n : String} {d : Loc} {x : Node} (h : fs.Ready p n d)
    (hx : fs.tree.get? (n :: d) = some x) :
    fs.tree.get? (n :: d) = some .directory ∧ fs.add d n .directory = fs := by
  refine ⟨h.free x hx ▸ hx, add_of_not_canAdd (fun hc => ?_) _⟩
  rw [hc.2.2] at hx
  cases hx

theorem Ready.get?_add {fs : FileSystem} {p : Path} {n : String} {d : Loc} (h : fs.Ready p n d) (m : Loc) :
    (fs.add d n .directory).tree.get? m = if m = n :: d then some .directory else fs.tree.get? m := by
  cases hx : fs.tree.get? (n :: d) with
  | none => exact FileSystem.get?_add (h.vacant hx).canAdd _ m
  | some x =>
    obtain ⟨hdir, hadd⟩ := h.present hx
    rw [hadd]
    split
    · rename_i hm
      rw [hm, hdir]
    · rfl

theorem Ready.grows {fs : FileSystem} {p : Path} {n : String} {d : Loc} (h : fs.Ready p n d) :
    fs.Grows (fs.add d n .directory) := by
  cases hx : fs.tree.get? (n :: d) with
  | none => exact grows_add (h.vacant hx).canAdd _
  | some x =>
    rw [(h.present hx).2]
    exact .refl fs

theorem Grows.lead {fs fs' : FileSystem} (h : fs.Grows fs') {p : Path} {l : Loc}
    (hl : fs.lead p = .ok (.node l)) : fs'.lead p = .ok (.node l) := by
  rw [FileSystem.lead, startOf, h.cwd]
  exact FileTree.walkOut_within h.tree (.inl rfl) hl

theorem Ready.beside {fs : FileSystem} {p : Path} {n k : String} {d : Loc} (h : fs.Ready p n d)
    (hk : fs.Ready p k d) : (fs.add d n .directory).Ready p k d where
  fits := hk.fits
  lead := h.grows.lead hk.lead
  dir := h.grows.tree _ _ hk.dir
  named := hk.named
  free x hx := by
    rw [h.get?_add] at hx
    split at hx
    · exact (Option.some.inj hx).symm
    · exact hk.free x hx

theorem Ready.below {fs : FileSystem} {p : Path} {n k : String} {d : Loc} (h : fs.Ready p n d)
    (hk : IsEntryName k) (hfits : (p / n / k).byteSize ≤ pathMax)
    (hfree : ∀ x, fs.tree.get? (k :: n :: d) = some x → x = .directory) :
    (fs.add d n .directory).Ready (p / n) k (n :: d) := by
  have hdir : (fs.add d n .directory).tree.get? (n :: d) = some .directory := by
    rw [h.get?_add, if_pos rfl]
  refine ⟨hfits, lead_join (h.grows.lead h.lead) hdir, hdir, hk, fun x hx => hfree x ?_⟩
  rwa [h.get?_add, if_neg (by simp)] at hx

/-- What leads to something else than a directory is a dead end, and stands in the way of nothing but
itself: once it is taken away its name is vacant. -/
theorem vacant_of_status {fs : FileSystem} {p : Path} {n : String} {x : Node} (hn : IsName n)
    (hs : fs.status (p / n) = .ok x) (hx : x ≠ .directory) :
    ∃ d, fs.entry (p / n) = .ok (.node (n :: d)) ∧ fs.tree.DeadEnd n d ∧
      fs.remove (p / n) = .ok (fs.prune (n :: d)) ∧ (fs.prune (n :: d)).Vacant p n d := by
  obtain ⟨m, hm, hmx⟩ := find_of_node hn hs
  obtain ⟨d, hlead, hd, b, hw⟩ := find_join hn hm
  have hdead := FileTree.deadEnd_of_walk hn.2.1 hn.2.2.1 hw (by simpa [hmx] using hx)
  obtain ⟨y, hy, hydir⟩ : ∃ y, fs.tree.get? (n :: d) = some y ∧ y ≠ .directory := by
    rcases hdead with ⟨text, h⟩ | ⟨target, h, -⟩
    · exact ⟨_, h, by simp⟩
    · exact ⟨_, h, by simp⟩
  have hfits := (locate_ok hm).2
  have hentry := entry_of_get? hfits hlead hy
  have hd' : (fs.prune (n :: d)).tree.get? d = some .directory := by
    rw [← hd]
    exact hdead.get?_prune_of_ne (hdead.ne_of_directory hd)
  refine ⟨d, hentry, hdead, ?_, hfits, ?_, hd', FileTree.isEntryName_of_get? hy, ?_⟩
  · rw [remove_join hn, hentry]
    simp only [hy]
  · rw [lead, startOf, cwd_prune_deadEnd hdead]
    exact FileTree.walkOut_prune_deadEnd hdead hd hlead
  · show (fs.tree.prune (n :: d)).get? (n :: d) = none
    rw [FileTree.get?_prune _ (by simp), if_pos (List.suffix_refl _)]

/-- An entry stands at the path, and the path leads nowhere: a link to nothing, or one in a loop. -/
def Blocked (fs : FileSystem) (p : Path) : Prop :=
  (∃ l, fs.entry p = .ok (.node l)) ∧ ∃ e, fs.status p = .error e

theorem write_join {fs : FileSystem} {p : Path} {n : String} {d : Loc} (hfits : (p / n).byteSize ≤ pathMax)
    (hlead : fs.lead p = .ok (.node d)) (hd : fs.tree.get? d = some .directory) (hn : IsEntryName n)
    (hfile : ∀ x, fs.tree.get? (n :: d) = some x → ∃ old, x = .file old) (text : String) :
    ∃ fs', fs.write (p / n) text = .ok fs' ∧
      ∀ m, fs'.tree.get? m = if m = n :: d then some (.file text) else fs.tree.get? m := by
  cases hx : fs.tree.get? (n :: d) with
  | none =>
    have hv : fs.Vacant p n d := ⟨hfits, hlead, hd, hn, hx⟩
    exact ⟨_, by rw [write, hv.find], get?_add hv.canAdd _⟩
  | some x =>
    obtain ⟨old, rfl⟩ := hfile x hx
    have hfind := find_of_get? hfits hlead hx (by simp) true
    have hwrite : fs.write (p / n) text = .ok (fs.withTree (fs.tree.setText (n :: d) text)) := by
      simp only [write, hfind, hx]
    exact ⟨_, hwrite, FileTree.get?_setText hx text⟩

end FileSystem

namespace Directory

theorem files_clearWay (p : Path) (h : Host) : ((clearWay p).run h).2.files =
    match h.files.remove p with
    | .ok files => files
    | .error _ => h.files := by
  simp only [clearWay, record, StateT.run_bind, StateT.run_get, StateT.run_modify, pure_bind]
  rw [Host.files_note]
  cases h.files.remove p with
  | ok files => rfl
  | error e => exact Host.files_note ..

/-- Making a directory: the files as they are then, and whether the path leads to a directory there. -/
theorem run_make (p : Path) (h : Host) : ((make p).run.run h).2.files = (h.files.makeDirs p).2 ∧
    ((h.files.makeDirs p).1 = .ok () ∧ (h.files.makeDirs p).2.status p = .ok .directory ∧
        ((make p).run.run h).1 = .ok p ∨
      ((h.files.makeDirs p).1 = .ok () → (h.files.makeDirs p).2.status p ≠ .ok .directory) ∧
        ((make p).run.run h).1 = .error (.unpreparedDirectory p)) := by
  rw [make, Attempt.run_get_bind]
  rcases h.files.makeDirs p with ⟨made, files⟩
  dsimp only
  rw [Attempt.run_modify_bind]
  rcases hs : files.status p with e | x
  · cases made with
    | ok u => exact ⟨Host.files_note .., .inr ⟨fun _ => by simp, rfl⟩⟩
    | error e => exact ⟨Host.files_note .., .inr ⟨fun h => (by cases h), rfl⟩⟩
  · cases made with
    | ok u =>
      cases x with
      | directory => exact ⟨rfl, .inl ⟨rfl, rfl, rfl⟩⟩
      | file text => exact ⟨Host.files_note .., .inr ⟨fun _ => by simp, rfl⟩⟩
      | link target => exact ⟨Host.files_note .., .inr ⟨fun _ => by simp, rfl⟩⟩
    | error e => exact ⟨Host.files_note .., .inr ⟨fun h => (by cases h), rfl⟩⟩

theorem run_prepare (p : Path) (h : Host) : (prepare p).run.run h =
    match h.files.status p with
    | .ok .directory => (.ok p, h)
    | .ok _ => (make p).run.run ((clearWay p).run h).2
    | .error _ => (make p).run.run h := by
  rw [prepare, Attempt.run_get_bind]
  rcases h.files.status p with e | (_ | _ | _) <;> rfl

theorem prepare_of_directory {p : Path} {h : Host} (hs : h.files.status p = .ok .directory) :
    (prepare p).run.run h = (.ok p, h) := by
  rw [run_prepare, hs]

theorem make_vacant {p : Path} {n : String} {d : Loc} {h : Host} (hv : h.files.Vacant p n d) :
    ((make (p / n)).run.run h).1 = .ok (p / n) ∧
      ((make (p / n)).run.run h).2.files = h.files.add d n .directory := by
  obtain ⟨hfiles, hmade⟩ := run_make (p / n) h
  rw [hv.makeDirs] at hfiles hmade
  rcases hmade with ⟨-, -, hok⟩ | ⟨hno, -⟩
  · exact ⟨hok, hfiles⟩
  · exact absurd hv.status_add (hno rfl)

theorem prepare_vacant {p : Path} {n : String} {d : Loc} {h : Host} (hv : h.files.Vacant p n d) :
    ((prepare (p / n)).run.run h).1 = .ok (p / n) ∧
      ((prepare (p / n)).run.run h).2.files = h.files.add d n .directory := by
  rw [run_prepare, hv.status]
  exact make_vacant hv

/-- Where the way is free, preparing is adding the directory. -/
theorem prepare_ready {p : Path} {n : String} {d : Loc} {h : Host} (hr : h.files.Ready p n d) :
    ((prepare (p / n)).run.run h).1 = .ok (p / n) ∧
      ((prepare (p / n)).run.run h).2.files = h.files.add d n .directory := by
  cases hx : h.files.tree.get? (n :: d) with
  | none => exact prepare_vacant (hr.vacant hx)
  | some x =>
    obtain ⟨hdir, hadd⟩ := hr.present hx
    have hs : h.files.status (p / n) = .ok .directory :=
      FileSystem.node_of_find (FileSystem.find_of_get? hr.fits hr.lead hdir (by simp) true) hdir
    rw [prepare_of_directory hs, hadd]
    exact ⟨rfl, rfl⟩

theorem prepare_replaces {p : Path} {n : String} {x : Node} {h : Host} (hn : IsName n)
    (hs : h.files.status (p / n) = .ok x) (hx : x ≠ .directory) :
    ∃ d h', h.files.entry (p / n) = .ok (.node (n :: d)) ∧ h.files.tree.DeadEnd n d ∧
      (h.files.prune (n :: d)).Vacant p n d ∧ (prepare (p / n)).run.run h = (.ok (p / n), h') ∧
      h'.files = (h.files.prune (n :: d)).add d n .directory := by
  obtain ⟨d, he, hdead, hr, hv⟩ := FileSystem.vacant_of_status hn hs hx
  have hrun : (prepare (p / n)).run.run h = (make (p / n)).run.run ((clearWay (p / n)).run h).2 := by
    rw [run_prepare, hs]
    cases x with
    | directory => exact absurd rfl hx
    | file text => rfl
    | link target => rfl
  have hclear : ((clearWay (p / n)).run h).2.files = h.files.prune (n :: d) := by
    rw [files_clearWay, hr]
  obtain ⟨hok, hfiles⟩ := make_vacant (hclear ▸ hv)
  rw [← hrun] at hok hfiles
  exact ⟨d, _, he, hdead, hv, Prod.ext hok rfl, hfiles.trans (hclear ▸ rfl)⟩

theorem prepare_installs {p : Path} {n : String} {x : Node} {h : Host} (hn : IsName n)
    (hs : h.files.status (p / n) = .ok x) (hx : x ≠ .directory) :
    ∃ d h', h.files.entry (p / n) = .ok (.node (n :: d)) ∧
      (prepare (p / n)).run.run h = (.ok (p / n), h') ∧ FileSystem.Installs n d h.files h'.files := by
  obtain ⟨d, h', he, hdead, hv, hrun, hfiles⟩ := prepare_replaces hn hs hx
  exact ⟨d, h', he, hrun, hfiles ▸ FileSystem.installs_replace hdead hv.canAdd⟩

theorem prepare_refused {p : Path} {h : Host} {e e' : SystemError} (hs : h.files.status p = .error e)
    (hmade : h.files.makeDirs p = (.error e', h.files)) :
    ∃ h', (prepare p).run.run h = (.error (.unpreparedDirectory p), h') ∧ h'.files = h.files := by
  obtain ⟨hfiles, hresult⟩ := run_make p h
  have hrun : (prepare p).run.run h = (make p).run.run h := by rw [run_prepare, hs]
  rw [hmade, ← hrun] at hfiles hresult
  rcases hresult with ⟨hok, -⟩ | ⟨-, herr⟩
  · cases hok
  · exact ⟨_, Prod.ext herr rfl, hfiles⟩

theorem prepare_made {p : Path} {h : Host} {e : SystemError} {fs : FileSystem} (hs : h.files.status p = .error e)
    (hmade : h.files.makeDirs p = (.ok (), fs)) (hdir : fs.status p = .ok .directory) :
    ∃ h', (prepare p).run.run h = (.ok p, h') ∧ h'.files = fs := by
  obtain ⟨hfiles, hresult⟩ := run_make p h
  have hrun : (prepare p).run.run h = (make p).run.run h := by rw [run_prepare, hs]
  rw [hmade, ← hrun] at hfiles hresult
  rcases hresult with ⟨-, -, hok⟩ | ⟨hno, -⟩
  · exact ⟨_, Prod.ext hok rfl, hfiles⟩
  · exact absurd hdir (hno rfl)

theorem prepare_long {p : Path} {n : String} {h : Host} (hn : IsName n) (hlong : pathMax < (p / n).byteSize) :
    ∃ h', (prepare (p / n)).run.run h = (.error (.unpreparedDirectory (p / n)), h') ∧
      h'.files = h.files := by
  have htext := Path.text_join_ne (p := p) hn
  have hs : h.files.status (p / n) = .error .nameTooLong := by
    rw [FileSystem.status, FileSystem.node, FileSystem.find, FileSystem.locate, if_neg htext, if_pos hlong]
  have hmade : h.files.makeDirs (p / n) = (.error .nameTooLong, h.files) := by
    rw [FileSystem.makeDirs, if_neg htext, hs]
    rfl
  exact prepare_refused hs hmade

/-- A link that leads nowhere is not replaced, and no directory is made in its place. -/
theorem prepare_blocked {p : Path} {n : String} {h : Host} (hn : IsName n)
    (hb : h.files.Blocked (p / n)) :
    ∃ h', (prepare (p / n)).run.run h = (.error (.unpreparedDirectory (p / n)), h') ∧
      h'.files = h.files := by
  obtain ⟨⟨l, he⟩, e, hs⟩ := hb
  obtain ⟨d, hlead, rfl⟩ := FileSystem.lead_of_entry hn he
  obtain ⟨x, hx⟩ := FileSystem.entry_reached he
  have hmake : h.files.makeDir (p / n) = .error .alreadyExists := by simp [FileSystem.makeDir, he]
  have hdirs : h.files.missingDirs (p / n).names.length (p / n) [] = .ok [p / n] :=
    FileSystem.missingDirs_join hn (FileSystem.locate_ok he).2 hlead (FileTree.get?_parent hx) (by decide)
  have hmade : ∃ e', h.files.makeDirs (p / n) = (.error e', h.files) := by
    rw [FileSystem.makeDirs, if_neg (Path.text_join_ne hn), hs]
    dsimp only
    split
    · refine ⟨.alreadyExists, ?_⟩
      simp [Path.endsInSlash_join hn, FileSystem.makeEach, hmake, FileSystem.isDirectory, hs, hdirs]
    · exact ⟨e, rfl⟩
  obtain ⟨e', hmade⟩ := hmade
  exact prepare_refused hs hmade

/-- What preparing a directory called `n` in the directory at `d` comes to: one is led to already, one is
put there, or the preparation fails and changes no file. -/
inductive Outcome (p : Path) (n : String) (d : Loc) (h : Host) : Except VaultError Path × Host → Prop
  | stands (hs : h.files.status (p / n) = .ok .directory) : Outcome p n d h (.ok (p / n), h)
  | installed {h' : Host} (hfits : (p / n).byteSize ≤ pathMax)
    (hi : FileSystem.Installs n d h.files h'.files) : Outcome p n d h (.ok (p / n), h')
  | refused {h' : Host} (hfiles : h'.files = h.files)
    (hwhy : pathMax < (p / n).byteSize ∨ h.files.Blocked (p / n)) :
    Outcome p n d h (.error (.unpreparedDirectory (p / n)), h')

theorem prepare_outcome {p : Path} {n : String} {d : Loc} {h : Host} (hn : IsEntryName n)
    (hlead : h.files.lead p = .ok (.node d)) (hd : h.files.tree.get? d = some .directory) :
    Outcome p n d h ((prepare (p / n)).run.run h) := by
  by_cases hfits : (p / n).byteSize ≤ pathMax
  · cases hs : h.files.status (p / n) with
    | ok x =>
      by_cases hx : x = .directory
      · rw [prepare_of_directory (hx ▸ hs)]
        exact .stands (hx ▸ hs)
      · obtain ⟨d', h', he, hrun, hi⟩ := prepare_installs hn.1 hs hx
        obtain ⟨d'', hlead', hm⟩ := FileSystem.lead_of_entry hn.1 he
        rw [hlead] at hlead'
        cases hlead'
        cases hm
        rw [hrun]
        exact .installed hfits hi
    | error e =>
      cases hx : h.files.tree.get? (n :: d) with
      | none =>
        have hv : h.files.Vacant p n d := ⟨hfits, hlead, hd, hn, hx⟩
        obtain ⟨hok, hfiles⟩ := prepare_vacant hv
        have hrun : (prepare (p / n)).run.run h = (.ok (p / n), ((prepare (p / n)).run.run h).2) :=
          Prod.ext hok rfl
        rw [hrun]
        exact .installed hfits (hfiles ▸ FileSystem.installs_add hv.canAdd)
      | some x =>
        have hb : h.files.Blocked (p / n) := ⟨⟨_, FileSystem.entry_of_get? hfits hlead hx⟩, e, hs⟩
        obtain ⟨h', hrun, hfiles⟩ := prepare_blocked hn.1 hb
        rw [hrun]
        exact .refused hfiles (.inr hb)
  · obtain ⟨h', hrun, hfiles⟩ := prepare_long (h := h) hn.1 (Nat.not_le.1 hfits)
    rw [hrun]
    exact .refused hfiles (.inl (Nat.not_le.1 hfits))

theorem prepare_fills {p : Path} {e : SystemError} {h : Host} (hp : p.endsInSlash = false)
    (hs : h.files.status p = .error e) :
    FileSystem.Fills (h.files.MissingOn p) h.files ((prepare p).run.run h).2.files := by
  rw [run_prepare, hs]
  dsimp only
  rw [(run_make p h).1]
  exact FileSystem.makeDirs_fills h.files hp

/-- A preparation spoils no lookup that ended in a directory. -/
theorem prepare_keepsDirectories {p : Path} {n : String} {h h' : Host} {r : Except VaultError Path}
    (hn : IsName n) (hrun : (prepare (p / n)).run.run h = (r, h')) :
    h.files.KeepsDirectories h'.files := by
  cases hs : h.files.status (p / n) with
  | error e =>
    have hfills := prepare_fills (Path.endsInSlash_join hn) hs
    rw [hrun] at hfills
    exact hfills.toGrows.keepsDirectories
  | ok x =>
    by_cases hx : x = .directory
    · rw [prepare_of_directory (hx ▸ hs)] at hrun
      cases hrun
      exact .refl _
    · obtain ⟨d, h'', -, hrun', hi⟩ := prepare_installs hn hs hx
      rw [hrun'] at hrun
      cases hrun
      exact hi.keepsDirectories

theorem prepare_ok {p r : Path} {h h' : Host} (hr : (prepare p).run.run h = (.ok r, h')) :
    r = p ∧ h'.files.status p = .ok .directory := by
  have hmake : ∀ h₀ : Host, (make p).run.run h₀ = (.ok r, h') → r = p ∧ h'.files.status p = .ok .directory := by
    intro h₀ hr
    obtain ⟨hfiles, ⟨-, hs, hok⟩ | ⟨-, herr⟩⟩ := run_make p h₀
    · rw [hr] at hfiles hok
      cases hok
      exact ⟨rfl, hfiles ▸ hs⟩
    · rw [hr] at herr
      cases herr
  rw [run_prepare] at hr
  split at hr
  · cases hr
    exact ⟨rfl, ‹_›⟩
  · exact hmake _ hr
  · exact hmake _ hr

end Directory
end CrashVault
