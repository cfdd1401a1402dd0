import CrashVault.Proofs.Layout

/-! What deleting a report may take away. The id is joined to the path of the reports as it is: one that
is a name keeps the deletion to the directory of the reports, and any other does so only as far as the
path happens to lead there (`deleteReport_reportsOnly`). Two dots and a name reach whatever holds nothing
beside the reports (`deleteReport_up`). -/

namespace CrashVault
namespace Vault

/-- What a vault keeps elsewhere than among its reports: its three directories, the common files in the
root, and the sessions with all below them. -/
def Keeps (v : Vault) (fs : FileSystem) (m : Loc) : Prop :=
  (∃ p ∈ [v.root, v.sessions, v.reports], fs.find true p = .ok (.node m)) ∨
    (∃ n d, m = n :: d ∧ fs.find true v.root = .ok (.node d)) ∨
    ∃ d, fs.find true v.sessions = .ok (.node d) ∧ d <:+ m

/-- Nothing has changed but that one entry of the directory of the reports may be gone, and nothing that
the vault keeps elsewhere. -/
def ReportsOnly (v : Vault) (fs fs' : FileSystem) : Prop :=
  (∀ m, fs'.tree.get? m = fs.tree.get? m) ∨
    ∃ n d, fs.find true v.reports = .ok (.node d) ∧ ¬ v.Keeps fs (n :: d) ∧
      ∀ m, fs'.tree.get? m = if m = n :: d then none else fs.tree.get? m

theorem Standing.not_keeps {base : Path} {fs : FileSystem} (h : (under base).Standing fs) {n : String}
    {d : Loc} (hd : fs.find true (under base).reports = .ok (.node d)) :
    ¬ (under base).Keeps fs (n :: d) := by
  obtain ⟨l, -, ⟨hroot, -⟩, ⟨hsessions, -⟩, hreports, -⟩ := h.places
  rw [hreports] at hd
  cases hd
  rintro (⟨p, hp, hm⟩ | ⟨k, d', hm, hd'⟩ | ⟨d', hd', hs⟩)
  · -- each of the three is less deep
    have hdeep : ∀ {r : Loc}, fs.find true p = .ok (.node r) → r.length ≤ l.length + 2 := by
      intro r hr
      simp only [List.mem_cons, List.not_mem_nil, or_false] at hp
      rcases hp with rfl | rfl | rfl
      · rw [hroot] at hr
        cases hr
        simp
      · rw [hsessions] at hr
        cases hr
        simp
      · rw [hreports] at hr
        cases hr
        simp
    have := hdeep hm
    simp only [List.length_cons] at this
    omega
  · rw [hroot] at hd'
    cases hd'
    have := congrArg List.length hm
    simp at this
  · rw [hsessions] at hd'
    cases hd'
    obtain ⟨r, hr⟩ := hs
    exact absurd (FileTree.head_eq_of_append_cons (s := [n]) hr) (by decide)

/-- Taking an entry away keeps to the reports exactly if it is one of theirs and kept nowhere else. -/
theorem reportsOnly_prune {v : Vault} {fs : FileSystem} {n : String} {d : Loc} {x : Node}
    (hx : fs.tree.get? (n :: d) = some x) (hc : fs.tree.children (n :: d) = []) :
    v.ReportsOnly fs (fs.prune (n :: d)) ↔
      fs.find true v.reports = .ok (.node d) ∧ ¬ v.Keeps fs (n :: d) := by
  have hgone := FileTree.get?_prune_of_children (t := fs.tree) (List.cons_ne_nil n d) hc
  constructor
  · rintro (hsame | ⟨n', d', hd', hkeeps, hm⟩)
    · have hhere := (hgone (n :: d)).symm.trans (hsame (n :: d))
      rw [if_pos rfl, hx] at hhere
      cases hhere
    · -- what is gone is the entry that the path names
      have hhere := (hgone (n :: d)).symm.trans (hm (n :: d))
      rw [if_pos rfl] at hhere
      split at hhere
      · rename_i heq
        cases heq
        exact ⟨hd', hkeeps⟩
      · rw [hx] at hhere
        cases hhere
  · rintro ⟨hd, hkeeps⟩
    exact .inr ⟨n, d, hd, hkeeps, hgone⟩

theorem deleteReport_reportsOnly {v : Vault} (hv : v.Opened) (h : Host) (id : String) :
    (IsName id → v.Standing h.files →
      v.ReportsOnly h.files ((v.deleteReport id).run h).2.files) ∧
    (v.ReportsOnly h.files ((v.deleteReport id).run h).2.files ↔
      ((v.deleteReport id).run h).1 = false ∨
        ∃ n d, h.files.find true v.reports = .ok (.node d) ∧
          h.files.entry (v.reportFile .untagged id) = .ok (.node (n :: d)) ∧
          ¬ v.Keeps h.files (n :: d)) := by
  obtain ⟨base, rfl⟩ := hv.eq_under
  rcases deleteReport_cases (under base) id h with ⟨fs, x, -, hr, hanswer, hfiles⟩ | ⟨-, hanswer, hfiles⟩
  · obtain ⟨n, d, y, he, hy, -, hc, rfl⟩ := FileSystem.remove_ok hr
    have hiff : (under base).ReportsOnly h.files (h.files.prune (n :: d)) ↔ _ := reportsOnly_prune hy hc
    rw [hfiles, hanswer, he]
    refine ⟨fun hid hs => ?_, ?_⟩
    · rw [reportFile_untagged] at he
      obtain ⟨d', hd', hm⟩ := FileSystem.dir_of_entry hid (Path.text_join_ne isEntryName_reportsName.1) he
      cases hm
      exact hiff.2 ⟨hd', hs.not_keeps hd'⟩
    · rw [hiff]
      constructor
      · rintro ⟨hd, hkeeps⟩
        exact .inr ⟨n, d, hd, rfl, hkeeps⟩
      · rintro (hfalse | ⟨n', d', hd', heq, hkeeps⟩)
        · cases hfalse
        · cases heq
          exact ⟨hd', hkeeps⟩
  · rw [hfiles, hanswer]
    exact ⟨fun _ _ => .inl fun _ => rfl, fun _ => .inl rfl, fun _ => .inl fun _ => rfl⟩

def filed : Host := ⟨(layOut .empty []).add [reportsName, rootName] "r" (.file "crash"), {}, []⟩

theorem reportsOnly_of_name : (under ⟨"/"⟩).Opened ∧ IsName "r" ∧ (under ⟨"/"⟩).Standing filed.files ∧
    (((under ⟨"/"⟩).deleteReport "r").run filed).1 = true ∧
    (under ⟨"/"⟩).ReportsOnly filed.files (((under ⟨"/"⟩).deleteReport "r").run filed).2.files := by
  have hname : IsName "r" := by decide
  have hstanding : (under ⟨"/"⟩).Standing filed.files :=
    @standing_of_lead ⟨"/"⟩ [] _ rfl (by decide) (by decide) rfl rfl rfl
  exact ⟨opened_empty, hname, hstanding, rfl, (deleteReport_reportsOnly opened_empty filed "r").1 hname hstanding⟩

theorem deleteReport_up {base : Path} {d : Loc} {h : Host} (hl : Layout base d h.files) {n : String}
    {x : Node} (hx : h.files.tree.get? (n :: rootName :: d) = some x) (hlink : ∀ target, x ≠ .link target)
    (hc : h.files.tree.children (n :: rootName :: d) = [])
    (hfits : ((under base).reports / ("../" ++ n)).byteSize ≤ pathMax) :
    (((under base).deleteReport ("../" ++ n)).run h).1 = true ∧
      (((under base).deleteReport ("../" ++ n)).run h).2.files = h.files.prune (n :: rootName :: d) := by
  have hn := (FileTree.isEntryName_of_get? hx).1
  have htext : (under base).reports.text ≠ "" := Path.text_join_ne isEntryName_reportsName.1
  have hjoin : (under base).reportFile .untagged ("../" ++ n) = (under base).reports / ".." / n := by
    rw [reportFile_untagged, Path.join_up htext hn]
  rw [Path.join_up htext hn] at hfits
  have hspells := (hl.spells.join isEntryName_rootName.1).join isEntryName_reportsName.1
  have hup : h.files.lead ((under base).reports / "..") = .ok (.node (rootName :: d)) :=
    hspells.lead_up htext hl.reports
  exact deleteReport_removes hjoin hfits hup hx hlink hc

/-- In a new vault, two dots and the name of the sessions take their directory away. -/
theorem deleteReport_strays : (under ⟨"/"⟩).Opened ∧ (under ⟨"/"⟩).Standing (layOut .empty []) ∧
    (((under ⟨"/"⟩).deleteReport ("../" ++ sessionsName)).run ⟨layOut .empty [], {}, []⟩).1 = true ∧
    (((under ⟨"/"⟩).deleteReport ("../" ++ sessionsName)).run ⟨layOut .empty [], {}, []⟩).2.files.tree.get?
      [sessionsName, rootName] = none ∧
    ¬ (under ⟨"/"⟩).ReportsOnly (layOut .empty [])
      (((under ⟨"/"⟩).deleteReport ("../" ++ sessionsName)).run ⟨layOut .empty [], {}, []⟩).2.files := by
  have hl := free_empty.layout (FileSystem.spells_root _)
  have hempty : (layOut .empty []).tree.children [sessionsName, rootName] = [] := by
    rw [FileTree.children_eq_nil]
    intro k
    rw [free_empty.get?_layOut, if_neg (by simp)]
    exact FileTree.get?_empty (by simp)
  obtain ⟨hanswer, hfiles⟩ := deleteReport_up (h := ⟨layOut .empty [], {}, []⟩) hl hl.sessions (by simp)
    hempty (by decide)
  have hgone : ((layOut .empty []).prune [sessionsName, rootName]).tree.get? [sessionsName, rootName] = none := by
    show ((layOut .empty []).tree.prune _).get? _ = none
    rw [FileTree.get?_prune _ (by simp), if_pos (List.suffix_refl _)]
  refine ⟨opened_empty, hl.standing, hanswer, hfiles ▸ hgone, ?_⟩
  rw [hfiles]
  rintro (hsame | ⟨n, d, hd, -, hm⟩)
  · rw [hsame, hl.sessions] at hgone
    cases hgone
  · -- the entry that is gone is not among the reports
    obtain ⟨l, -, -, -, hreports, hdir⟩ := hl.standing.places
    have hne : [sessionsName, rootName] ≠ n :: d := by
      rintro heq
      rw [hreports] at hd
      cases hd
      have := congrArg List.length heq
      simp at this
    have := hm [sessionsName, rootName]
    rw [hgone, if_neg hne, hl.sessions] at this
    cases this

end Vault
end CrashVault
