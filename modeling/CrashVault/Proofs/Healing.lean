import CrashVault.Proofs.Opened

/-! Opening a vault where something occupies the paths of its directories. Under a base that leads to a
directory opening succeeds whatever stands there, but for a link that leads nowhere: that one is taken for
a free name at first, and then it bars the way (`openAt_heals_iff`). -/

namespace CrashVault
namespace Directory

/-- Where no link that leads nowhere is in the way, there is a directory already or one is put there. -/
theorem prepare_unblocked {p : Path} {n : String} {d : Loc} {h : Host} (hn : IsEntryName n)
    (hlead : h.files.lead p = .ok (.node d)) (hd : h.files.tree.get? d = some .directory)
    (hfits : (p / n).byteSize ≤ pathMax) (hfree : ¬ h.files.Blocked (p / n)) :
    ∃ h', (prepare (p / n)).run.run h = (.ok (p / n), h') ∧
      (h' = h ∨ FileSystem.Installs n d h.files h'.files) := by
  have hout := prepare_outcome hn hlead hd
  generalize (prepare (p / n)).run.run h = r at hout ⊢
  cases hout with
  | stands hs => exact ⟨h, rfl, .inl rfl⟩
  | installed _ hi => exact ⟨_, rfl, .inr hi⟩
  | refused _ hwhy =>
    rcases hwhy with hlong | hb
    · omega
    · exact absurd hb hfree

end Directory

namespace Vault

/-- Opening succeeds, and then the three paths lead to directories. -/
def Heals (base : Path) (h : Host) : Prop :=
  ∃ h', (openAt base).run.run h = (.ok (under base), h') ∧
    ∀ p ∈ (under base).paths, h'.files.status p = .ok .directory

/-- The host once the root and the directory of the sessions have been prepared. -/
def beforeReports (base : Path) (h : Host) : Host :=
  ((Directory.prepare (under base).sessions).run.run
    ((Directory.prepare (under base).root).run.run h).2).2

/-- The path of the root leads to the directory at `r`. -/
structure Rooted (base : Path) (r : Loc) (fs : FileSystem) : Prop where
  lead : fs.lead (under base).root = .ok (.node r)
  dir : fs.tree.get? r = some .directory

theorem Rooted.keeps {base : Path} {r : Loc} {fs fs' : FileSystem} (h : Rooted base r fs)
    (hk : fs.KeepsDirectories fs') : Rooted base r fs' :=
  ⟨hk.lead h.dir h.lead, hk.dir h.dir⟩

theorem rooted_of_status {base : Path} {fs : FileSystem} (h : fs.status (under base).root = .ok .directory) :
    ∃ r, Rooted base r fs := by
  obtain ⟨r, hr, hdir⟩ := FileSystem.find_of_node isEntryName_rootName.1 h
  exact ⟨r, FileSystem.lead_of_find hr, hdir⟩

theorem Rooted.entry {base : Path} {r l : Loc} {fs : FileSystem} (h : Rooted base r fs) {k : String}
    (hk : IsName k) (he : fs.entry ((under base).root / k) = .ok (.node l)) :
    l = k :: r ∧ ∃ x, fs.tree.get? (k :: r) = some x := by
  obtain ⟨r', hr', rfl⟩ := FileSystem.lead_of_entry hk he
  rw [h.lead] at hr'
  cases hr'
  exact ⟨rfl, FileSystem.entry_reached he⟩

theorem root_of_blocked {base : Path} {fs : FileSystem} {k : String} (hk : IsName k)
    (hb : fs.Blocked ((under base).root / k)) : fs.status (under base).root = .ok .directory := by
  obtain ⟨⟨l, he⟩, -⟩ := hb
  obtain ⟨r, hr, rfl⟩ := FileSystem.dir_of_entry hk (Path.text_join_ne isEntryName_rootName.1) he
  obtain ⟨x, hx⟩ := FileSystem.entry_reached he
  exact FileSystem.node_of_find hr (FileTree.get?_parent hx)

theorem prepare_root_unblocked {base : Path} {d : Loc} {h : Host} (hlead : h.files.lead base = .ok (.node d))
    (hd : h.files.tree.get? d = some .directory) (hfits : (under base).root.byteSize ≤ pathMax)
    (hfree : ¬ h.files.Blocked (under base).root) :
    ∃ h₁ r, (Directory.prepare (under base).root).run.run h = (.ok (under base).root, h₁) ∧
      Rooted base r h₁.files ∧ (h₁ = h ∨ ∀ k, h₁.files.tree.get? (k :: r) = none) := by
  obtain ⟨h₁, hrun, hcase⟩ := Directory.prepare_unblocked (p := base) isEntryName_rootName hlead hd hfits hfree
  rcases hcase with rfl | hi
  · obtain ⟨r, hr⟩ := rooted_of_status (Directory.prepare_ok hrun).2
    exact ⟨h₁, r, hrun, hr, .inl rfl⟩
  · have hdir := hi.tree.get?_self
    exact ⟨h₁, rootName :: d, hrun, ⟨FileSystem.lead_join (hi.keepsDirectories.lead hd hlead) hdir, hdir⟩,
      .inr hi.tree.get?_below⟩

/-- The root and the directory of the sessions are prepared, and the root is where it was. -/
theorem sessions_prepared {base : Path} {d : Loc} {h : Host} (hlead : h.files.lead base = .ok (.node d))
    (hd : h.files.tree.get? d = some .directory) (hs : (under base).sessions.byteSize ≤ pathMax)
    (hroot : ¬ h.files.Blocked (under base).root) (hsessions : ¬ h.files.Blocked (under base).sessions) :
    ∃ h₁ r, (Directory.prepare (under base).root).run.run h = (.ok (under base).root, h₁) ∧
      (Directory.prepare (under base).sessions).run.run h₁ = (.ok (under base).sessions, beforeReports base h) ∧
      Rooted base r h₁.files ∧ Rooted base r (beforeReports base h).files ∧
      (h₁ = h ∨ ∀ k, h₁.files.tree.get? (k :: r) = none) ∧
      (beforeReports base h = h₁ ∨
        FileSystem.Installs sessionsName r h₁.files (beforeReports base h).files) := by
  obtain ⟨h₁, r, hrun₁, hrooted, hcase⟩ := prepare_root_unblocked hlead hd (rootFits hs) hroot
  have hsessions₁ : ¬ h₁.files.Blocked (under base).sessions := by
    intro hb
    rcases hcase with rfl | hnone
    · exact hsessions hb
    · obtain ⟨⟨l, he⟩, -⟩ := hb
      obtain ⟨-, x, hx⟩ := hrooted.entry isEntryName_sessionsName.1 he
      rw [hnone] at hx
      cases hx
  obtain ⟨h₂, hrun₂, hcase₂⟩ := Directory.prepare_unblocked (p := (under base).root) isEntryName_sessionsName
    hrooted.lead hrooted.dir hs hsessions₁
  have hkeeps := Directory.prepare_keepsDirectories (p := (under base).root) isEntryName_sessionsName.1 hrun₂
  have hbefore : beforeReports base h = h₂ := by
    rw [beforeReports, hrun₁]
    exact congrArg Prod.snd hrun₂
  rw [hbefore]
  exact ⟨h₁, r, hrun₁, hrun₂, hrooted, hrooted.keeps hkeeps, hcase, hcase₂⟩

theorem heals_of_unblocked {base : Path} {d : Loc} {h : Host} (hlead : h.files.lead base = .ok (.node d))
    (hd : h.files.tree.get? d = some .directory) (hs : (under base).sessions.byteSize ≤ pathMax)
    (hr : (under base).reports.byteSize ≤ pathMax) (hroot : ¬ h.files.Blocked (under base).root)
    (hsessions : ¬ h.files.Blocked (under base).sessions)
    (hreports : ¬ (beforeReports base h).files.Blocked (under base).reports) : Heals base h := by
  obtain ⟨h₁, r, hrun₁, hrun₂, -, hrooted, -, -⟩ := sessions_prepared hlead hd hs hroot hsessions
  obtain ⟨h₃, hrun₃, -⟩ := Directory.prepare_unblocked (p := (under base).root) isEntryName_reportsName
    hrooted.lead hrooted.dir hr hreports
  have hrun := openAt_of_prepareAll (prepareAll_of_prepare hrun₁ hrun₂ hrun₃)
  exact ⟨_, hrun, openAt_status hrun⟩

theorem reports_unblocked {base : Path} {d : Loc} {h : Host} (hlead : h.files.lead base = .ok (.node d))
    (hd : h.files.tree.get? d = some .directory) (hs : (under base).sessions.byteSize ≤ pathMax)
    (hfree : ∀ p ∈ (under base).paths, ¬ h.files.Blocked p) :
    ¬ (beforeReports base h).files.Blocked (under base).reports := by
  have hreports := hfree _ (reports_mem _)
  obtain ⟨h₁, r, -, -, hrooted₁, hrooted, hcase, hcase₂⟩ := sessions_prepared hlead hd hs
    (hfree _ (root_mem _)) (hfree _ (sessions_mem _))
  rintro ⟨⟨l, he⟩, e, hstatus⟩
  obtain ⟨-, x, hx⟩ := hrooted.entry isEntryName_reportsName.1 he
  -- what bars the way has been there before
  have hx₁ : h₁.files.tree.get? (reportsName :: r) = some x := by
    rcases hcase₂ with hsame | hi
    · rw [← hsame, hx]
    · have hne : reportsName :: r ≠ sessionsName :: r := by simp [reportsName, sessionsName]
      rw [← hi.tree.get?_of_ne hne, hx]
  rcases hcase with rfl | hnone
  · have he₁ := FileSystem.entry_of_get? (FileSystem.locate_ok he).2 hrooted₁.lead hx₁
    cases hbefore : h₁.files.status (under base).reports with
    | error e => exact hreports ⟨⟨_, he₁⟩, e, hbefore⟩
    | ok y =>
      have hok : ∃ y, (beforeReports base h₁).files.status (under base).reports = .ok y := by
        rcases hcase₂ with hsame | hi
        · rw [hsame]
          exact ⟨y, hbefore⟩
        · exact hi.status_ok isEntryName_reportsName.1 hbefore
      obtain ⟨y, hy⟩ := hok
      rw [hstatus] at hy
      cases hy
  · rw [hnone] at hx₁
    cases hx₁

theorem openAt_heals_iff {base : Path} {d : Loc} {h : Host} (hlead : h.files.lead base = .ok (.node d))
    (hd : h.files.tree.get? d = some .directory) (hs : (under base).sessions.byteSize ≤ pathMax)
    (hr : (under base).reports.byteSize ≤ pathMax) :
    ((∀ p ∈ (under base).paths, ¬ h.files.Blocked p) → Heals base h) ∧
    (Heals base h ↔ ¬ h.files.Blocked (under base).root ∧ ¬ h.files.Blocked (under base).sessions ∧
      ¬ (beforeReports base h).files.Blocked (under base).reports) := by
  refine ⟨fun hfree => ?_, ?_, fun ⟨hroot, hsessions, hreports⟩ => ?_⟩
  · exact heals_of_unblocked hlead hd hs hr (hfree _ (root_mem _)) (hfree _ (sessions_mem _))
      (reports_unblocked hlead hd hs hfree)
  · rintro ⟨h', hrun, -⟩
    obtain ⟨-, h₃, hprepared, -⟩ := openAt_ok hrun
    obtain ⟨h₁, h₂, hrun₁, hrun₂, hrun₃⟩ := prepareAll_cases hprepared
    have hnot : ∀ {p : Path} {k : String} {g g' : Host} {q : Path}, IsName k →
        (Directory.prepare (p / k)).run.run g = (.ok q, g') → ¬ g.files.Blocked (p / k) := by
      intro p k g g' q hk hok hb
      obtain ⟨g'', herr, -⟩ := Directory.prepare_blocked hk hb
      rw [hok] at herr
      cases herr
    refine ⟨hnot isEntryName_rootName.1 hrun₁, fun hb => ?_, ?_⟩
    · have hstands := root_of_blocked isEntryName_sessionsName.1 hb
      rw [Directory.prepare_of_directory hstands] at hrun₁
      cases hrun₁
      exact hnot (p := (under base).root) isEntryName_sessionsName.1 hrun₂ hb
    · have hbefore : beforeReports base h = h₂ := by
        rw [beforeReports, hrun₁]
        exact congrArg Prod.snd hrun₂
      rw [hbefore]
      exact hnot (p := (under base).root) isEntryName_reportsName.1 hrun₃
  · exact heals_of_unblocked hlead hd hs hr hroot hsessions hreports

def atRoot (x : Node) : Host := ⟨FileSystem.empty.add [] rootName x, {}, []⟩

theorem atRoot_fits (x : Node) : (atRoot x).files.lead ⟨"/"⟩ = .ok (.node []) ∧
    (atRoot x).files.tree.get? [] = some .directory ∧ (under ⟨"/"⟩).sessions.byteSize ≤ pathMax ∧
    (under ⟨"/"⟩).reports.byteSize ≤ pathMax :=
  ⟨(FileSystem.spells_root _).lead (FileTree.get?_root _), FileTree.get?_root _, by decide, by decide⟩

theorem heals_file_at_root : (∀ p ∈ (under ⟨"/"⟩).paths, ¬ (atRoot (.file "text")).files.Blocked p) ∧
    Heals ⟨"/"⟩ (atRoot (.file "text")) := by
  obtain ⟨hlead, hd, hs, hr⟩ := atRoot_fits (.file "text")
  have hroot : (atRoot (.file "text")).files.status (under ⟨"/"⟩).root = .ok (.file "text") := by rfl
  have hfree : ∀ p ∈ (under ⟨"/"⟩).paths, ¬ (atRoot (.file "text")).files.Blocked p := by
    have hbelow : ∀ {k}, IsName k → ¬ (atRoot (.file "text")).files.Blocked ((under ⟨"/"⟩).root / k) := by
      intro k hk hb
      have := root_of_blocked hk hb
      rw [hroot] at this
      cases this
    intro p hp
    rcases mem_paths.1 hp with rfl | rfl | rfl
    · rintro ⟨-, e, he⟩
      rw [hroot] at he
      cases he
    · exact hbelow isEntryName_sessionsName.1
    · exact hbelow isEntryName_reportsName.1
  exact ⟨hfree, (openAt_heals_iff hlead hd hs hr).1 hfree⟩

theorem openAt_of_blocked {base : Path} {h : Host} (hb : h.files.Blocked (under base).root) :
    ((openAt base).run.run h).1 = .error (.unpreparedDirectory (under base).root) ∧
      ((openAt base).run.run h).2.files = h.files ∧ ¬ Heals base h := by
  obtain ⟨h', hrun, hfiles⟩ := Directory.prepare_blocked (p := base) isEntryName_rootName.1 hb
  have hopen : (openAt base).run.run h = (.error (.unpreparedDirectory (under base).root), h') := by
    rw [run_openAt, run_prepareAll, show (under base).root = base / rootName from rfl, hrun]
  rw [hopen]
  refine ⟨rfl, hfiles, ?_⟩
  rintro ⟨h'', hok, -⟩
  rw [hopen] at hok
  cases hok

theorem status_base (x : Node) : (atRoot x).files.status ⟨"/"⟩ = .ok .directory := by
  obtain ⟨hlead, hd, -⟩ := atRoot_fits x
  exact FileSystem.node_of_find (FileSystem.find_of_lead (by decide) (by decide) hlead hd) hd

/-- A link to nothing and a link to itself bar the way. -/
theorem openAt_barred :
    ((atRoot (.link ⟨"nowhere"⟩)).files.status ⟨"/"⟩ = .ok .directory ∧
      ((openAt ⟨"/"⟩).run.run (atRoot (.link ⟨"nowhere"⟩))).1 =
        .error (.unpreparedDirectory (under ⟨"/"⟩).root) ∧
      ¬ Heals ⟨"/"⟩ (atRoot (.link ⟨"nowhere"⟩))) ∧
    (atRoot (.link ⟨rootName⟩)).files.status ⟨"/"⟩ = .ok .directory ∧
      ((openAt ⟨"/"⟩).run.run (atRoot (.link ⟨rootName⟩))).1 =
        .error (.unpreparedDirectory (under ⟨"/"⟩).root) ∧
      ¬ Heals ⟨"/"⟩ (atRoot (.link ⟨rootName⟩)) := by
  have hnowhere : (atRoot (.link ⟨"nowhere"⟩)).files.Blocked (under ⟨"/"⟩).root :=
    ⟨⟨[rootName], by rfl⟩, .missing, by rfl⟩
  have hloop : (atRoot (.link ⟨rootName⟩)).files.Blocked (under ⟨"/"⟩).root :=
    ⟨⟨[rootName], by rfl⟩, .tooManyLinks, by rfl⟩
  obtain ⟨herr, -, hno⟩ := openAt_of_blocked hnowhere
  obtain ⟨herr', -, hno'⟩ := openAt_of_blocked hloop
  exact ⟨⟨status_base _, herr, hno⟩, status_base _, herr', hno'⟩

end Vault
end CrashVault
