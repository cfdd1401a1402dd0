import CrashVault.Proofs.Healing

/-! What opening a vault changes, under any base and in any file system, also where it fails half-way:
directories are made at missing beginnings of the three paths, and an entry of one of them that led to no
directory becomes a new one (`prepareAll_pathsMade`). A vault that has been opened is opened again without
any change (`openAt_preserves`). -/

namespace CrashVault
namespace FileSystem

/-- A directory has been added where a beginning of one of the paths, missing before, leads now. -/
structure AddedAt (paths : List Path) (fs fs' : FileSystem) (m : Loc) : Prop where
  before : fs.tree.get? m = none
  after : fs'.tree.get? m = some .directory
  path : ∃ p ∈ paths, ∃ q, fs.MissingOn p q ∧ fs'.find true q = .ok (.node m)

/-- A file, or a link that led to no directory, has become a new directory, at the entry of one of the
paths. If the path named no entry before, it was missing. Nothing is in the new directory but what other
paths lead to. -/
structure ReplacedAt (paths : List Path) (fs fs' : FileSystem) (m : Loc) : Prop where
  before : ∃ n d, m = n :: d ∧ fs.tree.DeadEnd n d
  after : fs'.tree.get? m = some .directory
  path : ∃ p ∈ paths, fs'.find true p = .ok (.node m) ∧
    (fs.entry p = .ok (.node m) ∨ fs.MissingOn p p)
  holds : ∀ k ∈ fs'.tree.children m, ∃ p ∈ paths, fs'.find true p = .ok (.node (k :: m))

/-- Nothing has changed but where a directory has been made for one of the paths. -/
def PathsMade (paths : List Path) (fs fs' : FileSystem) : Prop :=
  ∀ m, fs'.tree.get? m = fs.tree.get? m ∨ AddedAt paths fs fs' m ∨ ReplacedAt paths fs fs' m

theorem PathsMade.deadEnd {paths : List Path} {fs fs' : FileSystem} (h : PathsMade paths fs fs')
    {n : String} {d : Loc} {x : Node} (hkeeps : fs.KeepsDirectories fs') (hx : fs.tree.get? (n :: d) = some x)
    (hfree : fs'.tree.get? (n :: d) = none ∨ fs'.tree.DeadEnd n d) : fs.tree.DeadEnd n d := by
  rcases h (n :: d) with hsame | hadded | hreplaced
  · rcases hfree with hnone | hdead
    · rw [hsame, hx] at hnone
      cases hnone
    · exact hkeeps.deadEnd hsame hdead
  · rw [hadded.before] at hx
    cases hx
  · obtain ⟨n', d', hm, hdead⟩ := hreplaced.before
    cases hm
    exact hdead

theorem ReplacedAt.child {paths : List Path} {fs fs' : FileSystem} {m : Loc} (h : ReplacedAt paths fs fs' m)
    (hmade : PathsMade paths fs fs') {k : String} {x : Node} (hx : fs'.tree.get? (k :: m) = some x) :
    fs'.tree.get? (k :: m) = some .directory := by
  obtain ⟨n, d, rfl, hdead⟩ := h.before
  have hnone : fs.tree.get? (k :: n :: d) = none := by
    cases hy : fs.tree.get? (k :: n :: d) with
    | none => rfl
    | some y => exact absurd rfl (hdead.ne_of_directory (FileTree.get?_parent hy))
  rcases hmade (k :: n :: d) with hsame | hadded | hreplaced
  · rw [hsame, hnone] at hx
    cases hx
  · exact hadded.after
  · exact hreplaced.after

/-- A directory is put for one more of the paths, in a directory that its path leads to now. -/
theorem PathsMade.install {paths : List Path} {fs₀ fs₁ fs₂ : FileSystem} {p : Path} {k : String} {r : Loc}
    (h : PathsMade paths fs₀ fs₁) (hkeeps : fs₀.KeepsDirectories fs₁) (hp : p / k ∈ paths)
    (hk : IsEntryName k) (hlead : fs₁.lead p = .ok (.node r)) (hdir : fs₁.tree.get? r = some .directory)
    (hfits : (p / k).byteSize ≤ pathMax) (hi : Installs k r fs₁ fs₂)
    (hformer : fs₀.MissingOn (p / k) (p / k) ∨
      fs₀.lead p = .ok (.node r) ∧ fs₀.tree.get? r = some .directory) : PathsMade paths fs₀ fs₂ := by
  have hlater := hi.keepsDirectories
  have hself := hi.tree.get?_self
  have hfind : fs₂.find true (p / k) = .ok (.node (k :: r)) :=
    find_of_get? hfits (hlater.lead hdir hlead) hself (by simp) true
  intro m
  by_cases hm : m = k :: r
  · subst hm
    cases hx : fs₀.tree.get? (k :: r) with
    | none =>
      refine .inr (.inl ⟨hx, hself, p / k, hp, p / k, ?_, hfind⟩)
      rcases hformer with hmissing | ⟨hlead₀, hdir₀⟩
      · exact hmissing
      · have hv : fs₀.Vacant p k r := ⟨hfits, hlead₀, hdir₀, hk, hx⟩
        exact ⟨.refl _, _, hv.status, rfl⟩
    | some x =>
      refine .inr (.inr ⟨⟨k, r, rfl, h.deadEnd hkeeps hx hi.tree.free⟩, hself, ⟨p / k, hp, hfind, ?_⟩, ?_⟩)
      · rcases hformer with hmissing | ⟨hlead₀, -⟩
        · exact .inr hmissing
        · exact .inl (entry_of_get? hfits hlead₀ hx)
      · rw [FileTree.children_eq_nil.2 hi.tree.get?_below]
        simp
  · rw [hi.tree.get?_of_ne hm]
    rcases h m with hsame | hadded | hreplaced
    · exact .inl hsame
    · obtain ⟨q, hq, q', hmissing, hfind'⟩ := hadded.path
      exact .inr (.inl ⟨hadded.before, (hi.tree.get?_of_ne hm).trans hadded.after, q, hq, q', hmissing,
        hlater.find hadded.after hfind'⟩)
    · obtain ⟨q, hq, hfind', hentry⟩ := hreplaced.path
      refine .inr (.inr ⟨hreplaced.before, (hi.tree.get?_of_ne hm).trans hreplaced.after,
        ⟨q, hq, hlater.find hreplaced.after hfind', hentry⟩, fun j hj => ?_⟩)
      obtain ⟨y, hy⟩ := FileTree.mem_children.1 hj
      by_cases hjm : j :: m = k :: r
      · exact ⟨p / k, hp, hjm ▸ hfind⟩
      · rw [hi.tree.get?_of_ne hjm] at hy
        obtain ⟨q', hq', hfind''⟩ := hreplaced.holds j (FileTree.mem_children.2 ⟨y, hy⟩)
        exact ⟨q', hq', hlater.find (hreplaced.child h hy) hfind''⟩

theorem missing_below {fs : FileSystem} {p : Path} {n k : String} (hn : IsName n) (hk : IsName k)
    (hfits : (p / n / k).byteSize ≤ pathMax) (hs : fs.status (p / n) ≠ .ok .directory)
    (habsent : ∀ e, fs.status (p / n) = .error e → e.saysAbsent = true) :
    fs.MissingOn (p / n / k) (p / n / k) := by
  have htext : (p / n).text ≠ "" := Path.text_join_ne hn
  have hsize := Path.byteSize_join hk htext
  have hlead : fs.lead (p / n) = fs.find true (p / n) := by
    rw [lead, find, locate_of_fits htext (by omega), steps_join hn, Path.names_join hn]
  have herror : ∃ e, fs.entry (p / n / k) = .error e ∧ e.saysAbsent = true := by
    rw [entry_join_eq hk hfits, hlead]
    rw [status, node] at hs habsent
    cases hf : fs.find true (p / n) with
    | error e =>
      rw [hf] at habsent
      exact ⟨e, rfl, habsent e rfl⟩
    | ok spot =>
      rw [hf] at hs
      cases spot with
      | vacant d m => exact ⟨.missing, rfl, rfl⟩
      | removed => exact absurd rfl hs
      | node l =>
        dsimp only at hs
        simp only [bind, Except.bind, FileTree.enter, FileTree.walkWith_cons]
        cases hx : fs.tree.get? l with
        | none => exact ⟨.missing, rfl, rfl⟩
        | some x =>
          cases x with
          | directory =>
            rw [hx] at hs
            exact absurd rfl hs
          | file text => exact ⟨.notDirectory, rfl, rfl⟩
          | link target => exact ⟨.notDirectory, rfl, rfl⟩
  obtain ⟨e, he, habsent⟩ := herror
  refine ⟨.refl _, e, ?_, habsent⟩
  rw [← find_false_join hk] at he
  rw [status, node, find_error he]

end FileSystem

namespace Directory

open FileSystem

theorem saysAbsent_of_prepare {p : Path} {r : Path} {h h' : Host} {e : SystemError} (hp : p.text ≠ "")
    (hs : h.files.status p = .error e) (hrun : (prepare p).run.run h = (.ok r, h')) :
    e.saysAbsent = true := by
  cases habsent : e.saysAbsent with
  | true => rfl
  | false =>
    have hmade : h.files.makeDirs p = (.error e, h.files) := by
      rw [makeDirs, if_neg hp, hs]
      simp only [habsent, Bool.false_eq_true, if_false]
    obtain ⟨h'', herr, -⟩ := prepare_refused hs hmade
    rw [hrun] at herr
    cases herr

theorem prepare_pathsMade {paths : List Path} {p : Path} {n : String} {h h' : Host}
    {res : Except VaultError Path} (hn : IsName n) (hp : p / n ∈ paths)
    (hrun : (prepare (p / n)).run.run h = (res, h')) : PathsMade paths h.files h'.files := by
  cases hs : h.files.status (p / n) with
  | error e =>
    have hfills := prepare_fills (Path.endsInSlash_join hn) hs
    rw [hrun] at hfills
    intro m
    refine (hfills.added m).imp id fun ⟨hbefore, hafter, q, hq⟩ => .inl ⟨hbefore, hafter, p / n, hp, q, hq⟩
  | ok x =>
    by_cases hx : x = .directory
    · rw [prepare_of_directory (hx ▸ hs)] at hrun
      cases hrun
      exact fun _ => .inl rfl
    · obtain ⟨d, h'', he, hrun', hi⟩ := prepare_installs hn hs hx
      rw [hrun'] at hrun
      cases hrun
      obtain ⟨d', hlead, hm⟩ := lead_of_entry hn he
      cases hm
      obtain ⟨y, hy⟩ := entry_reached he
      have hdir := FileTree.get?_parent hy
      exact PathsMade.install (fun _ => .inl rfl) (.refl _) hp (FileTree.isEntryName_of_get? hy) hlead hdir
        (locate_ok he).2 hi (.inr ⟨hlead, hdir⟩)

end Directory

namespace Vault

open FileSystem

theorem former_entry {base : Path} {r : Loc} {k : String} {h h₁ : Host} {q : Path} (hk : IsName k)
    (hroot : (Directory.prepare (under base).root).run.run h = (.ok q, h₁)) (hrooted : Rooted base r h₁.files)
    (hfits : ((under base).root / k).byteSize ≤ pathMax) :
    h.files.MissingOn ((under base).root / k) ((under base).root / k) ∨
      h.files.lead (under base).root = .ok (.node r) ∧ h.files.tree.get? r = some .directory := by
  by_cases hs : h.files.status (under base).root = .ok .directory
  · rw [Directory.prepare_of_directory hs] at hroot
    cases hroot
    exact .inr ⟨hrooted.lead, hrooted.dir⟩
  · have htext : (under base).root.text ≠ "" := Path.text_join_ne isEntryName_rootName.1
    exact .inl (missing_below isEntryName_rootName.1 hk hfits hs fun e he =>
      Directory.saysAbsent_of_prepare htext he hroot)

theorem PathsMade.prepare {base : Path} {paths : List Path} {r : Loc} {k : String} {h g g' : Host}
    {res : Except VaultError Path} (hmade : PathsMade paths h.files g.files)
    (hkeeps : h.files.KeepsDirectories g.files) (hk : IsEntryName k) (hp : (under base).root / k ∈ paths)
    (hrooted : Rooted base r g.files)
    (hformer : ((under base).root / k).byteSize ≤ pathMax →
      h.files.MissingOn ((under base).root / k) ((under base).root / k) ∨
        h.files.lead (under base).root = .ok (.node r) ∧ h.files.tree.get? r = some .directory)
    (hrun : (Directory.prepare ((under base).root / k)).run.run g = (res, g')) :
    PathsMade paths h.files g'.files := by
  have hout := Directory.prepare_outcome hk hrooted.lead hrooted.dir
  rw [hrun] at hout
  cases hout with
  | stands => exact hmade
  | installed hfits hi => exact hmade.install hkeeps hp hk hrooted.lead hrooted.dir hfits hi (hformer hfits)
  | refused hfiles => exact hfiles ▸ hmade

theorem prepareAll_pathsMade (base : Path) (h : Host) :
    PathsMade (under base).paths h.files ((under base).prepareAll.run.run h).2.files := by
  rw [run_prepareAll]
  rcases hroot : (Directory.prepare (under base).root : Attempt Path).run.run h with ⟨res₁, h₁⟩
  have hmade₁ : PathsMade (under base).paths h.files h₁.files :=
    Directory.prepare_pathsMade (p := base) isEntryName_rootName.1 (root_mem _) hroot
  cases res₁ with
  | error e => exact hmade₁
  | ok q =>
    have hkeeps₁ := Directory.prepare_keepsDirectories (p := base) isEntryName_rootName.1 hroot
    obtain ⟨r, hrooted₁⟩ := rooted_of_status (Directory.prepare_ok hroot).2
    dsimp only
    rcases hsessions : (Directory.prepare (under base).sessions : Attempt Path).run.run h₁ with ⟨res₂, h₂⟩
    have hmade₂ := PathsMade.prepare hmade₁ hkeeps₁ isEntryName_sessionsName (sessions_mem _) hrooted₁
      (former_entry isEntryName_sessionsName.1 hroot hrooted₁) hsessions
    cases res₂ with
    | error e => exact hmade₂
    | ok q₂ =>
      have hkeeps₂ := Directory.prepare_keepsDirectories (p := (under base).root) isEntryName_sessionsName.1
        hsessions
      dsimp only
      rcases hreports : (Directory.prepare (under base).reports : Attempt Path).run.run h₂ with ⟨res₃, h₃⟩
      have hmade₃ := PathsMade.prepare hmade₂ (hkeeps₁.trans hkeeps₂) isEntryName_reportsName
        (reports_mem _) (hrooted₁.keeps hkeeps₂)
        (former_entry isEntryName_reportsName.1 hroot hrooted₁) hreports
      cases res₃ with
      | error e => exact hmade₃
      | ok q₃ => exact hmade₃

theorem files_openAt (base : Path) (h : Host) :
    ((openAt base).run.run h).2.files = ((under base).prepareAll.run.run h).2.files := by
  rw [run_openAt]
  split <;> simp [*]

theorem openAt_preserves (base : Path) (h : Host) :
    let r := (openAt base).run.run h
    PathsMade (under base).paths h.files r.2.files ∧
      ∀ v, r.1 = .ok v → v = under base ∧ (∀ p ∈ v.paths, r.2.files.status p = .ok .directory) ∧
        ∃ h', (openAt base).run.run r.2 = (.ok v, h') ∧ h'.files = r.2.files := by
  refine ⟨files_openAt base h ▸ prepareAll_pathsMade base h, fun v hv => ?_⟩
  have hrun : (openAt base).run.run h = (.ok v, ((openAt base).run.run h).2) := Prod.ext hv rfl
  obtain ⟨rfl, -⟩ := openAt_ok hrun
  exact ⟨rfl, openAt_status hrun, openAt_of_status (openAt_status hrun)⟩

end Vault
end CrashVault
