import CrashVault.Proofs.ListedSessions
import CrashVault.Proofs.Listing
import CrashVault.Proofs.ReportNames

/-! Deleting a report, entry by entry. Whatever the id, the answer tells whether the one entry that the
report's path names has gone, and the tagged reports of the session stay (`deleteReport_removesEntry`). A
listed report that is no directory can be deleted if it leads to something, and goes from the listing alone
as long as the way to the reports does not go through it (`deleteReport_listed`). -/

namespace CrashVault

def Path.tag (p : Path) (ext : String) : Path := ⟨p.text ++ ext⟩

theorem Path.join_tag (p : Path) (s : String) {ext : String} (hext : ext.toList.head? ≠ some '/') :
    p / (s ++ ext) = (p / s).tag ext := by
  have hhead : (s ++ ext).toList.head? = some '/' ↔ s.toList.head? = some '/' := by
    cases hs : s.toList with
    | nil => simpa [hs] using hext
    | cons c cs => simp [hs]
  simp only [tag, join_def, join, hhead]
  split
  · rfl
  · split
    · exact congrArg Path.mk String.append_assoc.symm
    · exact congrArg Path.mk String.append_assoc.symm

theorem Path.tag_of_endsInSlash {p : Path} {ext : String} (hslash : p.endsInSlash = true)
    (hext : ext.toList.head? ≠ some '/') : p.tag ext = p / ext := by
  have htext : p.text ≠ "" := by
    intro hnil
    simp [endsInSlash, hnil] at hslash
  simp only [tag, join_def, join, hext, htext, hslash, or_self, if_false, if_true]

namespace FileSystem

theorem remove_last {fs fs' : FileSystem} {p : Path} (h : fs.remove p = .ok fs') :
    ∃ n, p.names.getLast? = some n ∧ IsName n := by
  unfold remove at h
  split at h
  · cases h
  · split at h
    · cases h
    · rename_i n hn
      split at h
      · cases h
      · split at h
        · cases h
        · have hstep := Path.isStep_of_mem_names (List.mem_of_getLast? hn)
          exact ⟨n, hn, hstep.1, ‹_›, ‹_›, hstep.2⟩

open Vault (LeavesEntry leavesEntry_prune)

theorem leavesEntry_tag {fs fs' : FileSystem} {p : Path} {ext : String} (hlong : 2 < ext.length)
    (hplain : '/' ∉ ext.toList) (h : fs.remove p = .ok fs') : LeavesEntry (p.tag ext) fs fs' := by
  have hne : ∀ s : String, s.length ≤ 2 → ext ≠ s := by
    rintro s hs rfl
    omega
  have hext : IsName ext := ⟨hne _ (by decide), hne _ (by decide), hne _ (by decide), hplain⟩
  obtain ⟨m, d, x, he, hx, hdir, hc, rfl⟩ := remove_ok h
  cases hslash : p.endsInSlash with
  | true =>
    -- the path names an empty directory, and the longer one would name an entry in it
    rw [Path.tag_of_endsInSlash hslash (Path.head?_ne_slash hext)]
    refine ⟨fun l hl => ?_, fun l hl => (shrinks_prune fs m d).locate hl⟩
    obtain rfl := hdir hslash
    obtain ⟨d', hlead, rfl⟩ := lead_of_entry hext hl
    have hthere := locate_directory he hx
    rw [locate_of_fits (locate_ok he).1 (locate_ok he).2] at hthere
    rw [lead, hthere] at hlead
    cases hlead
    obtain ⟨y, hy⟩ := entry_reached hl
    rw [FileTree.children_eq_nil.1 hc ext] at hy
    cases hy
  | false =>
    obtain ⟨n, hlast, hn⟩ := remove_last h
    obtain ⟨q, rfl⟩ := Path.exists_join_last hslash hlast
    rw [← Path.join_tag _ _ (Path.head?_ne_slash hext)]
    refine leavesEntry_prune hn (isName_append hn (.inr hlong) hplain) ?_ he
    intro heq
    have hlength := congrArg String.length heq
    rw [String.length_append] at hlength
    omega

end FileSystem

namespace Vault

open FileSystem

/-- The entry that the path names is gone, which held nothing: a file, a link itself, or an empty directory.
Nothing else has changed. -/
def RemovesEntry (p : Path) (fs fs' : FileSystem) : Prop :=
  ∃ m x, fs.entry p = .ok (.node m) ∧ fs.tree.get? m = some x ∧ fs.tree.children m = [] ∧
    ∀ l, fs'.tree.get? l = if l = m then none else fs.tree.get? l

theorem removesEntry_remove {fs fs' : FileSystem} {p : Path} (h : fs.remove p = .ok fs') :
    RemovesEntry p fs fs' := by
  obtain ⟨n, d, x, he, hx, -, hc, rfl⟩ := remove_ok h
  exact ⟨n :: d, x, he, hx, hc, FileTree.get?_prune_of_children (List.cons_ne_nil n d) hc⟩

theorem RemovesEntry.changed {p : Path} {fs fs' : FileSystem} (h : RemovesEntry p fs fs') :
    ¬ ∀ m, fs'.tree.get? m = fs.tree.get? m := by
  intro hsame
  obtain ⟨m, x, -, hx, -, hget⟩ := h
  rw [← hsame m, hget, if_pos rfl] at hx
  cases hx

theorem reportFile_tag (v : Vault) (kind : ReportKind) (id : String) :
    v.reportFile kind id = (v.reportFile .untagged id).tag kind.extension := by
  rw [reportFile_untagged, reportFile, Path.join_tag]
  cases kind <;> decide

/-- Deleting a report answers whether it has removed the entry that the report's path names, or nothing;
what the paths of the session's tagged reports named is there as before. -/
theorem deleteReport_removesEntry (v : Vault) (id : String) (h : Host) :
    let r := (v.deleteReport id).run h
    (r.1 = true ↔ RemovesEntry (v.reportFile .untagged id) h.files r.2.files) ∧
      (r.1 = false ↔ ∀ m, r.2.files.tree.get? m = h.files.tree.get? m) ∧
      LeavesEntry (v.reportFile .priority id) h.files r.2.files ∧
      LeavesEntry (v.reportFile .native id) h.files r.2.files := by
  rw [reportFile_tag v .priority, reportFile_tag v .native]
  rcases deleteReport_cases v id h with ⟨fs, -, -, hr, hanswer, hfiles⟩ | ⟨-, hanswer, hfiles⟩
  · have hremoves := removesEntry_remove hr
    dsimp only
    rw [hanswer, hfiles]
    exact ⟨⟨fun _ => hremoves, fun _ => rfl⟩, ⟨nofun, fun hsame => absurd hsame hremoves.changed⟩,
      leavesEntry_tag (by decide) (by decide) hr, leavesEntry_tag (by decide) (by decide) hr⟩
  · dsimp only
    rw [hanswer, hfiles]
    exact ⟨⟨nofun, fun hremoves => absurd (fun _ => rfl) hremoves.changed⟩, ⟨fun _ _ => rfl, fun _ => rfl⟩,
      .refl _ _, .refl _ _⟩

/-! Listed reports. -/

theorem linkStatus_of_get? {fs : FileSystem} {p : Path} {n : String} {d : Loc} {x : Node}
    (hfits : (p / n).byteSize ≤ pathMax) (hfind : fs.find true p = .ok (.node d))
    (hx : fs.tree.get? (n :: d) = some x) : fs.linkStatus (p / n) = .ok x := by
  have hn := (FileTree.isEntryName_of_get? hx).1
  exact node_of_find ((find_false_join hn).trans (entry_of_get? hfits (lead_of_find hfind) hx)) hx

theorem deleteReport_of_leaf {v : Vault} {n : String} {d : Loc} {h : Host} {x y : Node}
    (hd : h.files.find true v.reports = .ok (.node d)) (hx : h.files.tree.get? (n :: d) = some x)
    (hleaf : x ≠ .directory) (hfits : (v.reports / n).byteSize ≤ pathMax)
    (hleads : h.files.status (v.reports / n) = .ok y) : ((v.deleteReport n).run h).1 = true ∧
      ((v.deleteReport n).run h).2.files = h.files.prune (n :: d) := by
  have hremove : h.files.remove (v.reports / n) = .ok (h.files.prune (n :: d)) := by
    rw [remove_join (FileTree.isEntryName_of_get? hx).1, entry_of_get? hfits (lead_of_find hd) hx]
    simp only [hx]
  rw [← reportFile_untagged] at hremove hleads
  exact deleteReport_of_remove hleads hremove

section
variable {v : Vault} {n : String} {d : Loc} {h h' : Host} {x : Node}

/-- A listing loses a report that is gone alone, if the way to the reports does not go through it. -/
theorem listReports_of_avoids (hd : h.files.find true v.reports = .ok (.node d))
    (hx : h.files.tree.get? (n :: d) = some x) (hfiles : h'.files = h.files.prune (n :: d))
    (havoids : h.files.Avoids v.reports n d) :
    (v.listReports.run h).1.Perm ((v.reports / n) :: (v.listReports.run h').1) ∧
      v.reports / n ∉ (v.listReports.run h').1 := by
  have hclears := clears_prune h.files n d
  rw [← hfiles] at hclears
  have hgone : h'.files.tree.get? (n :: d) = none := by
    rw [hfiles, prune, withTree, FileTree.get?_prune _ (by simp), if_pos (List.suffix_refl _)]
  have hdir' : h'.files.tree.get? d = some .directory :=
    (hclears.kept d (not_suffix_self n d)).trans havoids.dir
  have hd' : h'.files.find true v.reports = .ok (.node d) :=
    find_of_lead (locate_ok hd).1 (locate_ok hd).2 (hfiles ▸ havoids.lead) hdir'
  constructor
  · rw [run_listReports_of_find hd havoids.dir, run_listReports_of_find hd' hdir', ← List.map_cons]
    have hlost := FileTree.children_perm_cons hx hgone fun k hk => hclears.kept _ fun hs => hk ?_
    · exact ((h.files.order.perm d _).trans
        (hlost.trans ((h'.files.order.perm d _).symm.cons n))).map _
    · obtain ⟨s, hs⟩ := hs
      exact (FileTree.head_eq_of_append_cons (s := []) hs).symm
  · intro hmem
    obtain ⟨d'', k, y, hfind, hy, -, heq⟩ := Directory.mem_listing.1 hmem
    rw [hd'] at hfind
    cases hfind
    have hname := (FileTree.isEntryName_of_get? hx).1
    rw [(Path.join_inj hname (FileTree.isEntryName_of_get? hy).1).1 heq, hy] at hgone
    cases hgone

theorem listReports_of_not_avoids (hd : h.files.find true v.reports = .ok (.node d))
    (hx : h.files.tree.get? (n :: d) = some x) (hfiles : h'.files = h.files.prune (n :: d))
    (hthrough : ¬ h.files.Avoids v.reports n d) : (v.listReports.run h').1 = [] := by
  refine Directory.listing_of_absent (fun d' hd' => hthrough ⟨FileTree.get?_parent hx, ?_⟩) _
  rw [hfiles] at hd'
  have hlead := lead_of_find hd'
  have hbefore := (shrinks_prune h.files n d).lead hlead
  rw [lead_of_find hd] at hbefore
  cases hbefore
  exact hlead

theorem avoids_of_status (hd : h.files.find true v.reports = .ok (.node d)) (hn : IsName n)
    (hs : h.files.status (v.reports / n) = .ok x) (hne : x ≠ .directory) : h.files.Avoids v.reports n d := by
  obtain ⟨d', he, hdead, -, hvacant⟩ := vacant_of_status hn hs hne
  obtain ⟨d'', hlead, heq⟩ := lead_of_entry hn he
  cases heq
  rw [lead_of_find hd] at hlead
  cases hlead
  obtain ⟨y, hy⟩ := entry_reached he
  exact ⟨FileTree.get?_parent hy, hvacant.lead⟩

end

/-- A listed report that is a file, or a link that leads to something, is deleted under its file name, with
nothing else. The listing loses it alone, unless the way to the reports goes through it, as it may if it leads
to a directory; then nothing is listed any more. -/
theorem deleteReport_listed {v : Vault} {h : Host} {p : Path} (hp : p ∈ (v.listReports.run h).1)
    (hfits : p.byteSize ≤ pathMax) (hleaf : h.files.linkStatus p ≠ .ok .directory)
    (hleads : ∀ target, h.files.linkStatus p = .ok (.link target) → ∃ x, h.files.status p = .ok x) :
    let r := (v.deleteReport p.fileName).run h
    r.1 = true ∧ ∃ d, h.files.find true v.reports = .ok (.node d) ∧
      (∀ m, r.2.files.tree.get? m = if m = p.fileName :: d then none else h.files.tree.get? m) ∧
      (h.files.Avoids v.reports p.fileName d →
        (v.listReports.run h).1.Perm (p :: (v.listReports.run r.2).1) ∧ p ∉ (v.listReports.run r.2).1) ∧
      (¬ h.files.Avoids v.reports p.fileName d → (v.listReports.run r.2).1 = []) ∧
      (h.files.status p ≠ .ok .directory → h.files.Avoids v.reports p.fileName d) := by
  obtain ⟨d, n, x, hd, hx, -, rfl⟩ := Directory.mem_listing.1 hp
  have hn := (FileTree.isEntryName_of_get? hx).1
  rw [Path.fileName_join hn]
  rw [linkStatus_of_get? hfits hd hx] at hleaf hleads
  have hleaf : x ≠ .directory := fun heq => hleaf (heq ▸ rfl)
  obtain ⟨y, hy⟩ : ∃ y, h.files.status (v.reports / n) = .ok y := by
    cases x with
    | directory => exact absurd rfl hleaf
    | file text => exact ⟨_, node_of_find (find_of_get? hfits (lead_of_find hd) hx (by simp) true) hx⟩
    | link target => exact hleads target rfl
  obtain ⟨hanswer, hfiles⟩ := deleteReport_of_leaf hd hx hleaf hfits hy
  refine ⟨hanswer, d, hd, fun m => ?_, listReports_of_avoids hd hx hfiles,
    listReports_of_not_avoids hd hx hfiles, fun hne => ?_⟩
  · rw [hfiles]
    exact FileTree.get?_prune_of_children (List.cons_ne_nil n d) (FileTree.children_of_ne_directory hx hleaf) m
  · rw [hy] at hne
    exact avoids_of_status hd hn hy fun heq => hne (heq ▸ rfl)

/-- A vault under `/` with two reports: a file, and a link that leads back to `/`. -/
def ringed : Host :=
  ⟨((layOut .empty []).add [reportsName, rootName] "a" (.file "crash")).add [reportsName, rootName] "back"
    (.link ⟨"/"⟩), {}, []⟩

def ring : Path := (under ⟨"/"⟩).reports / "back"

theorem find_reports_ringed :
    ringed.files.find true (under ⟨"/"⟩).reports = .ok (.node [reportsName, rootName]) := by rfl

theorem lead_ring : ringed.files.lead ring = .ok (.node []) := lead_of_toOption (by decide +kernel)

theorem byteSize_ring_le : ring.byteSize ≤ 75 := by decide

theorem ring_fits : ring.byteSize ≤ pathMax := Nat.le_trans byteSize_ring_le (by decide)

theorem fileName_ring : ring.fileName = "back" := Path.fileName_join (by decide)

theorem status_ring : ringed.files.status ring = .ok .directory :=
  node_of_find (find_of_lead (by decide) ring_fits lead_ring (FileTree.get?_root _)) (FileTree.get?_root _)

theorem avoids_ringed : ringed.files.Avoids (under ⟨"/"⟩).reports "back" [reportsName, rootName] :=
  ⟨rfl, lead_of_toOption (by decide +kernel)⟩

theorem deleteReport_listed_ringed : ring ∈ ((under ⟨"/"⟩).listReports.run ringed).1 ∧
    let r := ((under ⟨"/"⟩).deleteReport ring.fileName).run ringed
    r.1 = true ∧ ((under ⟨"/"⟩).listReports.run ringed).1.Perm
      (ring :: ((under ⟨"/"⟩).listReports.run r.2).1) := by
  have hlisted : ring ∈ ((under ⟨"/"⟩).listReports.run ringed).1 :=
    Directory.mem_listing.2 ⟨_, "back", .link ⟨"/"⟩, find_reports_ringed, rfl, rfl, rfl⟩
  have hlink : ringed.files.linkStatus ring = .ok (.link ⟨"/"⟩) :=
    linkStatus_of_get? ring_fits find_reports_ringed rfl
  obtain ⟨hanswer, d, hd, -, havoids, -⟩ :=
    deleteReport_listed hlisted ring_fits (by simp [hlink]) fun _ _ => ⟨_, status_ring⟩
  rw [find_reports_ringed] at hd
  cases hd
  exact ⟨hlisted, hanswer, (havoids avoids_ringed).1⟩

def severed : Host :=
  ⟨(layOut .empty []).add [reportsName, rootName] "back" (.link ⟨"nowhere"⟩), {}, []⟩

theorem find_reports_severed :
    severed.files.find true (under ⟨"/"⟩).reports = .ok (.node [reportsName, rootName]) := by rfl

theorem status_severed : severed.files.status ring = .error .missing := by
  have hlead : severed.files.lead ring = .ok (.vacant [reportsName, rootName] "nowhere") :=
    lead_of_toOption (by decide +kernel)
  have hfind : severed.files.find true ring = .ok (.vacant [reportsName, rootName] "nowhere") :=
    (find_true_join (by decide) ring_fits).trans hlead
  simp only [status, node, hfind]

theorem deleteReport_severed : (((under ⟨"/"⟩).deleteReport "back").run severed).1 = false := by
  have hpath : (under ⟨"/"⟩).reportFile .untagged "back" = ring := reportFile_untagged _ _
  rcases deleteReport_cases (under ⟨"/"⟩) "back" severed with ⟨_, x, hs, -⟩ | ⟨-, hanswer, -⟩
  · rw [hpath, status_severed] at hs
    cases hs
  · exact hanswer

theorem standing_ringed : (under ring).Standing ringed.files := by
  have hring := byteSize_ring_le
  obtain ⟨hsessions, hreports⟩ := Shell.byteSize_under_le ring
  have hmax : pathMax = 4095 := rfl
  exact standing_of_lead lead_ring (by omega) (by omega) rfl rfl rfl

theorem find_reports_through_ring :
    ringed.files.find true (under ring).reports = .ok (.node [reportsName, rootName]) := by
  obtain ⟨d, hlead, -, -, hfind, -⟩ := standing_ringed.places
  rw [lead_ring] at hlead
  cases hlead
  exact hfind

theorem listed_through_ring {n : String} {x : Node}
    (hx : ringed.files.tree.get? [n, reportsName, rootName] = some x) :
    (under ring).reports / n ∈ ((under ring).listReports.run ringed).1 :=
  Directory.mem_listing.2 ⟨_, n, x, find_reports_through_ring, hx, rfl, rfl⟩

theorem fits_through_ring : ((under ring).reports / "back").byteSize ≤ pathMax := by
  have hring := byteSize_ring_le
  have hreports := (Shell.byteSize_under_le ring).2
  have hback := Path.byteSize_join_le (under ring).reports "back"
  have hname : "back".utf8ByteSize = 4 := by decide
  have hmax : pathMax = 4095 := rfl
  omega

theorem not_avoids_through_ring : ¬ ringed.files.Avoids (under ring).reports "back" [reportsName, rootName] := by
  intro havoids
  obtain ⟨d, hroot, -⟩ := lead_of_join isEntryName_reportsName.1 havoids.lead
  obtain ⟨d', hring, -⟩ := lead_of_join isEntryName_rootName.1 hroot
  have hvacant : (ringed.files.prune ["back", reportsName, rootName]).lead ring =
      .ok (.vacant [reportsName, rootName] "back") := lead_of_toOption (by decide +kernel)
  rw [hring] at hvacant
  cases hvacant

theorem deleteReport_through_ring : let r := ((under ring).deleteReport "back").run ringed
    r.1 = true ∧ ((under ring).listReports.run r.2).1 = [] := by
  have hback : ringed.files.tree.get? ["back", reportsName, rootName] = some (.link ⟨"/"⟩) := rfl
  have hlead : ringed.files.lead ((under ring).reports / "back") = .ok (.node []) :=
    lead_of_toOption (by decide +kernel)
  have hstatus : ringed.files.status ((under ring).reports / "back") = .ok .directory :=
    node_of_find (find_of_lead (Path.text_join_ne (by decide)) fits_through_ring hlead
      (FileTree.get?_root _)) (FileTree.get?_root _)
  obtain ⟨hanswer, hfiles⟩ :=
    deleteReport_of_leaf find_reports_through_ring hback (by simp) fits_through_ring hstatus
  exact ⟨hanswer, listReports_of_not_avoids find_reports_through_ring hback hfiles not_avoids_through_ring⟩

/-- A listed link that leads nowhere is not deleted. And one that the base itself leads through takes the
other reports out of the listing. -/
theorem listed_not_deleted :
    (ring ∈ ((under ⟨"/"⟩).listReports.run severed).1 ∧ ring.byteSize ≤ pathMax ∧
      severed.files.linkStatus ring = .ok (.link ⟨"nowhere"⟩) ∧
      (((under ⟨"/"⟩).deleteReport ring.fileName).run severed).1 = false) ∧
    ((∃ h, (openAt ring).run.run ringed = (.ok (under ring), h) ∧ h.files = ringed.files) ∧
      (under ring).reports / "back" ∈ ((under ring).listReports.run ringed).1 ∧
      (under ring).reports / "a" ∈ ((under ring).listReports.run ringed).1 ∧
      ((under ring).reports / "back").byteSize ≤ pathMax ∧
      ringed.files.linkStatus ((under ring).reports / "back") = .ok (.link ⟨"/"⟩) ∧
      let r := ((under ring).deleteReport ((under ring).reports / "back").fileName).run ringed
      r.1 = true ∧ ((under ring).listReports.run r.2).1 = []) := by
  have hname : ((under ring).reports / "back").fileName = "back" := Path.fileName_join (by decide)
  rw [fileName_ring, hname]
  exact ⟨⟨Directory.mem_listing.2 ⟨_, "back", .link ⟨"nowhere"⟩, find_reports_severed, rfl, rfl, rfl⟩,
      ring_fits, linkStatus_of_get? ring_fits find_reports_severed rfl, deleteReport_severed⟩,
    openAt_of_status standing_ringed.status, listed_through_ring rfl,
    listed_through_ring (x := .file "crash") rfl, fits_through_ring,
    linkStatus_of_get? fits_through_ring find_reports_through_ring rfl, deleteReport_through_ring⟩

end Vault
end CrashVault
