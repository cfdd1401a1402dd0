import CrashVault.Proofs.Layout

/-! The names of reports. The three kinds share one directory, where a report is called by its session's
id with the extension of its kind. So two sessions share a report exactly if the id of one is that of the
other with an extension (`reportFile_eq_iff`); but for such ids, deleting a report leaves those of every
other session as they are (`reports_apart`). -/

namespace CrashVault

namespace Vault

theorem ReportKind.untagged_of_append_eq {kind kind' : ReportKind} (hne : kind ≠ kind') {id id' : String}
    (h : id ++ kind.extension = id' ++ kind'.extension) : kind = .untagged ∨ kind' = .untagged := by
  have hlast : (id ++ kind.extension).toList.getLast? = (id' ++ kind'.extension).toList.getLast? := by rw [h]
  rw [String.toList_append, String.toList_append] at hlast
  cases kind <;> cases kind' <;> simp [ReportKind.extension] at hne hlast ⊢

/-- A name is made of an id and an extension in one way only, but for an id that has an extension. -/
theorem ReportKind.append_eq_iff {kind kind' : ReportKind} {id id' : String} :
    id ++ kind.extension = id' ++ kind'.extension ↔ kind = kind' ∧ id = id' ∨
      kind = .untagged ∧ id = id' ++ kind'.extension ∨ kind' = .untagged ∧ id' = id ++ kind.extension := by
  constructor
  · intro h
    by_cases hkind : kind = kind'
    · rw [hkind, String.append_left_inj] at h
      exact .inl ⟨hkind, h⟩
    · right
      apply (ReportKind.untagged_of_append_eq hkind h).imp
      · rintro rfl
        exact ⟨rfl, by rwa [ReportKind.extension, String.append_empty] at h⟩
      · rintro rfl
        exact ⟨rfl, by rw [h, ReportKind.extension, String.append_empty]⟩
  · rintro (⟨rfl, rfl⟩ | ⟨rfl, rfl⟩ | ⟨rfl, rfl⟩)
    · rfl
    · rw [ReportKind.extension, String.append_empty]
    · rw [ReportKind.extension, String.append_empty]

theorem reportFile_eq_iff {v : Vault} {kind kind' : ReportKind} {id id' : String} (hid : IsName id)
    (hid' : IsName id') : v.reportFile kind id = v.reportFile kind' id' ↔
      id ++ kind.extension = id' ++ kind'.extension :=
  Path.join_inj (isName_append_extension hid kind) (isName_append_extension hid' kind')

/-- An entry that a path named is as it was, with all below it, and the path names no new one. -/
structure LeavesEntry (p : Path) (fs fs' : FileSystem) : Prop where
  kept : ∀ m, fs.entry p = .ok (.node m) → ∀ r, fs'.tree.get? (r ++ m) = fs.tree.get? (r ++ m)
  noNew : ∀ m, fs'.entry p = .ok (.node m) → fs.entry p = .ok (.node m)

theorem LeavesEntry.refl (p : Path) (fs : FileSystem) : LeavesEntry p fs fs := ⟨fun _ _ _ => rfl, fun _ h => h⟩

theorem leavesEntry_prune {p : Path} {n k : String} {m : Loc} {fs : FileSystem} (hn : IsName n)
    (hk : IsName k) (hne : k ≠ n) (hm : fs.entry (p / n) = .ok (.node m)) :
    LeavesEntry (p / k) fs (fs.prune m) := by
  obtain ⟨d, hlead, rfl⟩ := FileSystem.lead_of_entry hn hm
  have hclears := FileSystem.clears_prune fs n d
  refine ⟨fun l hl r => ?_, fun l hl => hclears.toShrinks.locate hl⟩
  obtain ⟨d', hlead', rfl⟩ := FileSystem.lead_of_entry hk hl
  rw [hlead] at hlead'
  cases hlead'
  apply hclears.kept
  rintro ⟨s, hs⟩
  exact hne (FileTree.head_eq_of_append_cons hs.symm)

theorem deleteReport_leavesEntry {v : Vault} {id n : String} (hid : IsName id) (hn : IsName n) (hne : n ≠ id)
    (h : Host) : LeavesEntry (v.reports / n) h.files ((v.deleteReport id).run h).2.files := by
  rcases deleteReport_cases v id h with ⟨fs, -, -, hr, -, hfiles⟩ | ⟨-, -, hfiles⟩
  · obtain ⟨k, d, -, he, -, -, -, rfl⟩ := FileSystem.remove_ok hr
    rw [reportFile_untagged] at he
    rw [hfiles]
    exact leavesEntry_prune hid hn hne he
  · rw [hfiles]
    exact .refl _ _

theorem reports_apart {v : Vault} {id id' : String} (hid : IsName id) (hid' : IsName id') (hne : id ≠ id') :
    (∀ kind kind', v.reportFile kind id = v.reportFile kind' id' ↔
      kind = .untagged ∧ id = id' ++ kind'.extension ∨ kind' = .untagged ∧ id' = id ++ kind.extension) ∧
    ((∀ kind : ReportKind, id ≠ id' ++ kind.extension) → ∀ (h : Host) (kind : ReportKind),
      LeavesEntry (v.reportFile kind id') h.files ((v.deleteReport id).run h).2.files) := by
  constructor
  · intro kind kind'
    rw [reportFile_eq_iff hid hid', ReportKind.append_eq_iff]
    simp [hne]
  · intro hfree h kind
    exact deleteReport_leavesEntry hid (isName_append_extension hid' kind) (Ne.symm (hfree kind)) h

def reporting : Host := ⟨(layOut .empty []).add [reportsName, rootName] "a.priority" (.file "crash"), {}, []⟩

def reportingTwice : Host :=
  ⟨reporting.files.add [reportsName, rootName] "a.native" (.file "dump"), {}, []⟩

/-- Ids that end in different extensions have no report in common: one goes, the other stays. -/
theorem reports_apart_tagged : IsName "a.native" ∧ IsName "a.priority" ∧ "a.native" ≠ "a.priority" ∧
    (∀ kind : ReportKind, "a.native" ≠ "a.priority" ++ kind.extension) ∧
    (under ⟨"/"⟩).reportFile .priority "a.native" ≠ (under ⟨"/"⟩).reportFile .native "a.priority" ∧
    (((under ⟨"/"⟩).deleteReport "a.native").run reportingTwice).1 = true ∧
    reportingTwice.files.tree.get? ["a.priority", reportsName, rootName] = some (.file "crash") ∧
    LeavesEntry ((under ⟨"/"⟩).reportFile .untagged "a.priority") reportingTwice.files
      (((under ⟨"/"⟩).deleteReport "a.native").run reportingTwice).2.files := by
  have hname : IsName "a.native" := by decide
  have hname' : IsName "a.priority" := by decide
  have hne : "a.native" ≠ "a.priority" := by decide
  have hfree : ∀ kind : ReportKind, "a.native" ≠ "a.priority" ++ kind.extension := by
    rintro (_ | _ | _) <;> decide
  obtain ⟨hiff, hleaves⟩ := reports_apart (v := under ⟨"/"⟩) hname hname' hne
  refine ⟨hname, hname', hne, hfree, ?_, rfl, rfl, hleaves hfree reportingTwice .untagged⟩
  rw [ne_eq, hiff]
  decide

/-- The priority report of one session is the untagged report of the session with the extension to its id,
and is deleted as that. -/
theorem reports_shared : IsName "a" ∧ IsName "a.priority" ∧ "a.priority" ≠ "a" ∧ (under ⟨"/"⟩).Opened ∧
    (under ⟨"/"⟩).reportFile .untagged "a.priority" = (under ⟨"/"⟩).reportFile .priority "a" ∧
    reporting.files.entry ((under ⟨"/"⟩).reportFile .priority "a") =
      .ok (.node ["a.priority", reportsName, rootName]) ∧
    reporting.files.tree.get? ["a.priority", reportsName, rootName] = some (.file "crash") ∧
    (((under ⟨"/"⟩).deleteReport "a.priority").run reporting).1 = true ∧
    (((under ⟨"/"⟩).deleteReport "a.priority").run reporting).2.files.tree.get?
      ["a.priority", reportsName, rootName] = none := by
  have hl := free_empty.layout (FileSystem.spells_root _)
  have hcan : (layOut .empty []).tree.CanAdd [reportsName, rootName] "a.priority" := by
    refine ⟨hl.reports, by decide, ?_⟩
    rw [free_empty.get?_layOut, if_neg (by decide)]
    exact FileTree.get?_empty (by simp)
  have hlead := (FileSystem.grows_add hcan (.file "crash")).lead hl.lead_reports
  have hfile : reporting.files.tree.get? ["a.priority", reportsName, rootName] = some (.file "crash") := by
    show (FileTree.add _ _ _ _).get? _ = _
    rw [FileTree.get?_add hcan, if_pos rfl]
  have hfits : ((under ⟨"/"⟩).reports / "a.priority").byteSize ≤ pathMax := by decide
  obtain ⟨hanswer, hfiles⟩ := deleteReport_removes (h := reporting) (reportFile_untagged _ _) hfits hlead hfile
    (by simp) (FileTree.children_of_ne_directory hfile (by simp))
  refine ⟨by decide, by decide, by decide, opened_empty, by decide,
    FileSystem.entry_of_get? hfits hlead hfile, hfile, hanswer, ?_⟩
  rw [hfiles]
  show (reporting.files.tree.prune _).get? _ = none
  rw [FileTree.get?_prune _ (by simp), if_pos (List.suffix_refl _)]

end Vault
end CrashVault
