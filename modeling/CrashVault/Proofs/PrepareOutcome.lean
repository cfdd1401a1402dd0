import CrashVault.Proofs.Prepare

/-! What preparing a directory comes to where the parent of its path leads to one, by what stands at the
path itself. It is refused at a link that leads nowhere, and there alone, and then nothing has changed; whatever
else leads to no directory has given way to an empty one (`prepare_exact`). -/

namespace CrashVault
namespace FileSystem

theorem blocked_iff {fs : FileSystem} {p : Path} {n : String} {d : Loc} (hn : IsName n)
    (hfits : (p / n).byteSize ≤ pathMax) (hlead : fs.lead p = .ok (.node d)) : fs.Blocked (p / n) ↔
      (∃ target, fs.tree.get? (n :: d) = some (.link target)) ∧ ∃ e, fs.status (p / n) = .error e := by
  constructor
  · rintro ⟨⟨l, he⟩, e, hs⟩
    obtain ⟨d', hlead', rfl⟩ := lead_of_entry hn he
    rw [hlead] at hlead'
    cases hlead'
    obtain ⟨x, hx⟩ := entry_reached he
    have hleads : (∀ target, x ≠ .link target) → fs.status (p / n) = .ok x := fun hlink =>
      node_of_find (find_of_get? hfits hlead hx hlink true) hx
    refine ⟨?_, e, hs⟩
    cases x with
    | link target => exact ⟨target, hx⟩
    | directory => simp [hs] at hleads
    | file text => simp [hs] at hleads
  · rintro ⟨⟨target, hlink⟩, e, hs⟩
    exact ⟨⟨_, entry_of_get? hfits hlead hlink⟩, e, hs⟩

end FileSystem

namespace Directory

open FileSystem

theorem prepare_unbarred {p : Path} {n : String} {d : Loc} {h : Host} (hn : IsEntryName n)
    (hfits : (p / n).byteSize ≤ pathMax) (hlead : h.files.lead p = .ok (.node d))
    (hdir : h.files.tree.get? d = some .directory) (hs : h.files.status (p / n) ≠ .ok .directory)
    (hfree : ¬ h.files.Blocked (p / n)) :
    ∃ h', (prepare (p / n)).run.run h = (.ok (p / n), h') ∧ Installs n d h.files h'.files := by
  have houtcome := prepare_outcome hn hlead hdir
  generalize (prepare (p / n)).run.run h = r at houtcome
  cases houtcome with
  | stands hstands => exact absurd hstands hs
  | installed _ hi => exact ⟨_, rfl, hi⟩
  | refused _ hwhy =>
    rcases hwhy with hlong | hblocked
    · omega
    · exact absurd hblocked hfree

/-- The path is one that the system takes, its file name is fit for an entry, and its parent leads to a
directory that is there still; the parent of a single name is where relative paths start. -/
theorem prepare_exact {p : Path} {d : Loc} {h : Host} (hname : IsEntryName p.fileName)
    (hfits : p.byteSize ≤ pathMax) (hparent : h.files.lead p.parent = .ok (.node d))
    (hdir : h.files.tree.get? d = some .directory) :
    let r := (prepare p).run.run h
    ((∃ e, r.1 = .error e) ↔
      (∃ target, h.files.tree.get? (p.fileName :: d) = some (.link target)) ∧
        ∃ e, h.files.status p = .error e) ∧
    (∀ e, r.1 = .error e → e = .unpreparedDirectory p ∧ r.2.files = h.files) ∧
    (∀ q, r.1 = .ok q → q = p) ∧
    (h.files.status p = .ok .directory → r.2.files = h.files) ∧
    ((∃ q, r.1 = .ok q) → h.files.status p ≠ .ok .directory →
      (∀ m, r.2.files.tree.get? m =
        if m = p.fileName :: d then some .directory else h.files.tree.get? m) ∧
      r.2.files.tree.children (p.fileName :: d) = []) := by
  obtain ⟨q, hq⟩ := Path.exists_join hname.1
  generalize p.fileName = n at hname hq ⊢
  subst hq
  rw [lead_parent_join hname.1] at hparent
  rw [← blocked_iff hname.1 hfits hparent]
  by_cases hs : h.files.status (q / n) = .ok .directory
  · have hfree : ¬ h.files.Blocked (q / n) := by
      rintro ⟨-, e, he⟩
      rw [hs] at he
      cases he
    simp [prepare_of_directory hs, hs, hfree]
  · by_cases hblocked : h.files.Blocked (q / n)
    · obtain ⟨h', hrun, hfiles⟩ := prepare_blocked hname.1 hblocked
      simp [hrun, hfiles, hblocked, hs]
    · obtain ⟨h', hrun, hi⟩ := prepare_unbarred hname hfits hparent hdir hs hblocked
      have hempty : h'.files.tree.children (n :: d) = [] := FileTree.children_eq_nil.2 hi.tree.get?_below
      simp [hrun, hblocked, hs, hempty, hi.tree.get?]

def linked : Host :=
  ⟨(FileSystem.empty.add [] "f" (.file "text")).add [] "l" (.link ⟨"f"⟩), {}, []⟩

/-- The link makes way for a directory, and the file is not touched. -/
theorem prepare_exact_linked : IsEntryName (⟨"/l"⟩ : Path).fileName ∧ (⟨"/l"⟩ : Path).byteSize ≤ pathMax ∧
    linked.files.lead (⟨"/l"⟩ : Path).parent = .ok (.node []) ∧
    linked.files.tree.get? [] = some .directory ∧
    linked.files.tree.get? ["l"] = some (.link ⟨"f"⟩) ∧
    let r := (prepare ⟨"/l"⟩).run.run linked
    r.1 = .ok ⟨"/l"⟩ ∧ r.2.files.tree.get? ["l"] = some .directory ∧
      r.2.files.tree.get? ["f"] = some (.file "text") := by
  have hfile : (⟨"/l"⟩ : Path).fileName = "l" := by decide
  have hname : IsEntryName (⟨"/l"⟩ : Path).fileName := by decide
  have hfits : (⟨"/l"⟩ : Path).byteSize ≤ pathMax := by decide
  have hparent : linked.files.lead (⟨"/l"⟩ : Path).parent = .ok (.node []) := by rfl
  have hstatus : linked.files.status ⟨"/l"⟩ = .ok (.file "text") := by rfl
  obtain ⟨hrefused, -, hpath, -, hmade⟩ := prepare_exact hname hfits hparent (FileTree.get?_root _)
  rw [hfile] at hmade
  refine ⟨hname, hfits, hparent, FileTree.get?_root _, rfl, ?_⟩
  rcases hr : ((prepare ⟨"/l"⟩).run.run linked).1 with e | q
  · obtain ⟨-, e', he'⟩ := hrefused.1 ⟨e, hr⟩
    rw [hstatus] at he'
    cases he'
  · have htree := (hmade ⟨q, hr⟩ (by simp [hstatus])).1
    obtain rfl := hpath q hr
    refine ⟨rfl, ?_, ?_⟩
    · rw [htree, if_pos rfl]
    · rw [htree, if_neg (by decide)]
      rfl

end Directory
end CrashVault
