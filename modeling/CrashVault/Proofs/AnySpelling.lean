import CrashVault.Proofs.Based
import CrashVault.Proofs.Usage
import Mathlib.Data.List.Forall2

/-! Two bases that lead to one directory. It does not matter under which of them vaults are opened and called:
step by step the files are the same, and the answers are but for the base that paths begin with
(`useAll_alike`). -/

namespace CrashVault
namespace FileSystem

/-- The lookup of the path is not refused for a length or for too many links. -/
def Takes (fs : FileSystem) (p : Path) : Prop :=
  fs.find true p ≠ .error .nameTooLong ∧ fs.find true p ≠ .error .tooManyLinks

variable {fs : FileSystem} {p p' : Path} {n : String} {d : Loc}

theorem Takes.fits (hn : IsName n) (h : fs.Takes (p / n)) : (p / n).byteSize ≤ pathMax := by
  refine Nat.le_of_not_lt fun hlong => h.1 ?_
  rw [find, locate, if_neg (Path.text_join_ne hn), if_pos hlong]

theorem Takes.isEntryName (hn : IsName n) (hp : fs.lead p = .ok (.node d))
    (hd : fs.tree.get? d = some .directory) (h : fs.Takes (p / n)) : IsEntryName n := by
  refine ⟨hn, Nat.le_of_not_lt fun hlong => h.1 ?_⟩
  obtain ⟨b, hwalk⟩ := lead_join_walk hn hp
  rw [find_true_join hn (h.fits hn), hwalk]
  cases b <;> simp [FileTree.walk, FileTree.walkWith_cons, hd, hn.2.1, hn.2.2.1, hlong]

theorem find_alongside (hn : IsName n) (hp : fs.lead p = .ok (.node d)) (hp' : fs.lead p' = .ok (.node d))
    (h : fs.Takes (p / n)) (h' : fs.Takes (p' / n)) : fs.find true (p' / n) = fs.find true (p / n) := by
  have hlinks := h.2
  have hlinks' := h'.2
  rw [find_true_join hn (h.fits hn)] at hlinks ⊢
  rw [find_true_join hn (h'.fits hn)] at hlinks' ⊢
  exact lead_join_congr hn hp hp' hlinks hlinks'

theorem remove_dots (fs : FileSystem) (p : Path) (hn : n = "." ∨ n = "..") :
    ∃ e, fs.remove (p / n) = .error e := by
  have hlast : (p / n).names.getLast? = some n := by
    rcases hn with rfl | rfl
    · rw [Path.names_join_step ⟨by decide, by decide⟩, List.getLast?_concat]
    · rw [Path.names_join_step ⟨by decide, by decide⟩, List.getLast?_concat]
  rw [remove]
  cases fs.entry (p / n) with
  | error e => exact ⟨e, rfl⟩
  | ok spot =>
    rcases hn with rfl | rfl
    · exact ⟨.invalid, by simp [hlast]⟩
    · exact ⟨.notEmpty, by simp [hlast]⟩

end FileSystem

namespace Vault

/-- The paths that the call looks up under a base are ones that the system takes: those under an id, and
those of all that is to be removed. -/
def Call.WithinLimits (base : Path) (d : Loc) (fs : FileSystem) : Call → Prop
  | .sessionFile id _ _ | .listSession id _ => IsName id → fs.Takes ((under base).sessionDir id)
  | .deleteReport id => IsName id → fs.Takes ((under base).reportFile .untagged id)
  | .deleteSession id => ∀ r x, fs.tree.get? (r ++ id :: sessionsName :: rootName :: d) = some x →
      (((under base).sessionDir id).extend r).byteSize ≤ pathMax
  | .cleanupLegacy => ∀ r x, fs.tree.get? (r ++ legacyName :: d) = some x →
      ((under base).legacyDir.extend r).byteSize ≤ pathMax
  | .deleteAll => WithinReach base d fs
  | _ => True

/-- The call is not given a text to be written, and a report is deleted by an id of one component. -/
def Call.Regular : Call → Prop
  | .commonFile _ text? | .sessionFile _ _ text? | .reportFile _ _ text? => text? = none
  | .write _ _ => False
  | .deleteReport id => IsStep id
  | _ => True

inductive Answer.Alike (base base' : Path) : Answer → Answer → Prop
  | path (below : List String) : Alike base base' (.path (base.extend below) none) (.path (base'.extend below) none)
  | paths (below names : List String) : Alike base base' (.paths (names.map (base.extend below / ·)))
      (.paths (names.map (base'.extend below / ·)))
  | ids (ids : List String) : Alike base base' (.ids ids) (.ids ids)
  | flag (value : Bool) : Alike base base' (.flag value) (.flag value)
  | done : Alike base base' .done .done
  | invalid (id : String) : Alike base base' (.failed (.invalidSessionId id)) (.failed (.invalidSessionId id))
  | unprepared (below : List String) : Alike base base' (.failed (.unpreparedDirectory (base.extend below)))
      (.failed (.unpreparedDirectory (base'.extend below)))

/-- The vaults under the two bases are one, in the directory at `d`. -/
structure Shared (base base' : Path) (d : Loc) (fs : FileSystem) : Prop where
  left : Based base d fs
  right : Based base' d fs
  furnished : Furnished d fs

/-- Two calls have answered alike and left the same files, with the vaults still one. -/
structure Alongside (base base' : Path) (d : Loc) (r r' : Answer × Host) : Prop where
  alike : Answer.Alike base base' r.1 r'.1
  files : r'.2.files = r.2.files
  shared : Shared base base' d r.2.files

section
variable {base base' : Path} {d : Loc} {fs fs' : FileSystem} {h h' : Host} {n k : String}

theorem Shared.clears_below (hs : Shared base base' d fs)
    (hc : FileSystem.Clears (n :: k :: rootName :: d) fs fs') : Shared base base' d fs' :=
  ⟨hs.left.clears (inside_append d [n, k]) hc, hs.right.clears (inside_append d [n, k]) hc,
    hs.furnished.of_kept (keepsLayout_of_clears_below hc)⟩

theorem Shared.mends_below (hs : Shared base base' d fs)
    (hm : FileSystem.Mends (n :: k :: rootName :: d) fs fs') : Shared base base' d fs' :=
  ⟨hs.left.mends (inside_append d [n, k]) hm, hs.right.mends (inside_append d [n, k]) hm,
    hs.furnished.mends hm⟩

theorem alongside_commonFile (hfiles : h'.files = h.files) (hs : Shared base base' d h.files) (name : String) :
    Alongside base base' d (((under base).perform (.commonFile name none)).run h)
      (((under base').perform (.commonFile name none)).run h') := by
  have hroot : h.files.status (under base).root = .ok .directory :=
    FileSystem.node_of_find (hs.left.find_root hs.furnished) hs.furnished.root
  have hroot' : h'.files.status (under base').root = .ok .directory := by
    rw [hfiles]
    exact FileSystem.node_of_find (hs.right.find_root hs.furnished) hs.furnished.root
  rw [run_perform, run_perform]
  dsimp only
  rw [run_commonFile, run_commonFile, Directory.prepare_of_directory hroot, Directory.prepare_of_directory hroot']
  exact ⟨.path [name, rootName], hfiles, hs⟩

theorem alongside_sessionFile (hfiles : h'.files = h.files) (hs : Shared base base' d h.files)
    {id : String} (name : String) (htakes : IsName id → h.files.Takes ((under base).sessionDir id))
    (htakes' : IsName id → h.files.Takes ((under base').sessionDir id)) :
    Alongside base base' d (((under base).perform (.sessionFile id name none)).run h)
      (((under base').perform (.sessionFile id name none)).run h') := by
  rw [run_perform, run_perform]
  dsimp only
  by_cases hid : IsName id
  · have hlead := hs.furnished.lead_sessions hs.left.lead_base
    have hlead' := hs.furnished.lead_sessions hs.right.lead_base
    have hfits := (htakes hid).fits hid
    have hfits' := (htakes' hid).fits hid
    have hfind := FileSystem.find_alongside hid hlead hlead' (htakes hid) (htakes' hid)
    obtain ⟨g, g', hg, hmends, hrun⟩ := Directory.prepare_alongside hfiles
      ((htakes hid).isEntryName hid hlead hs.furnished.sessions) hs.furnished.sessions hlead hlead' hfits hfits'
      (FileSystem.status_congr hfind)
    rw [sessionFile_of_name hid, sessionFile_of_name hid, run_prepare_join, run_prepare_join]
    rcases hrun with ⟨hok, hok'⟩ | ⟨herr, herr'⟩
    · rw [sessionDir, sessionDir, hok, hok']
      exact ⟨.path [name, id, sessionsName, rootName], hg, hs.mends_below hmends⟩
    · rw [sessionDir, sessionDir, herr, herr']
      exact ⟨.unprepared [id, sessionsName, rootName], hg, hs.mends_below hmends⟩
  · rw [run_sessionFile_of_not_name hid, run_sessionFile_of_not_name hid]
    refine ⟨.invalid id, ?_, ?_⟩
    · exact (Host.files_note ..).trans (hfiles.trans (Host.files_note ..).symm)
    · exact (Host.files_note h _).symm ▸ hs

theorem alongside_mk {a a' : Answer} {g g' : Host} (ha : Answer.Alike base base' a a')
    (hfiles : g'.files = g.files) (hs : Shared base base' d g.files) :
    Alongside base base' d (a, g) (a', g') := ⟨ha, hfiles, hs⟩

theorem alongside_of_files (hfiles : h'.files = h.files) (hs : Shared base base' d h.files) {g g' : Host}
    (hg : g.files = h.files) (hg' : g'.files = h'.files) {a a' : Answer}
    (ha : Answer.Alike base base' a a') : Alongside base base' d (a, g) (a', g') :=
  alongside_mk ha (hg'.trans (hfiles.trans hg.symm)) (hg ▸ hs)

theorem alongside_listing (hfiles : h'.files = h.files) (hs : Shared base base' d h.files)
    (below : List String)
    (hfind : h.files.find true (base'.extend below) = h.files.find true (base.extend below))
    (keep : String → Bool) : Alongside base base' d
      (.paths ((Directory.listing (base.extend below) keep).run h).1,
        ((Directory.listing (base.extend below) keep).run h).2)
      (.paths ((Directory.listing (base'.extend below) keep).run h').1,
        ((Directory.listing (base'.extend below) keep).run h').2) := by
  obtain ⟨names, -, hnames, hnames'⟩ := Directory.listing_alongside hfiles hfind keep
  rw [hnames, hnames']
  exact alongside_of_files hfiles hs (files_listing ..) (files_listing ..) (.paths below names)

theorem alongside_listSession (hfiles : h'.files = h.files) (hs : Shared base base' d h.files)
    {id : String} (keep : String → Bool) (htakes : IsName id → h.files.Takes ((under base).sessionDir id))
    (htakes' : IsName id → h.files.Takes ((under base').sessionDir id)) :
    Alongside base base' d (((under base).perform (.listSession id keep)).run h)
      (((under base').perform (.listSession id keep)).run h') := by
  rw [run_perform, run_perform]
  dsimp only
  by_cases hid : IsName id
  · rw [listSession_of_name hid, listSession_of_name hid]
    exact alongside_listing hfiles hs [id, sessionsName, rootName]
      (FileSystem.find_alongside hid (hs.furnished.lead_sessions hs.left.lead_base)
        (hs.furnished.lead_sessions hs.right.lead_base) (htakes hid) (htakes' hid)) keep
  · rw [run_listSession_of_not_name hid, run_listSession_of_not_name hid]
    exact alongside_of_files hfiles hs (Host.files_note ..) (Host.files_note ..) (.paths [] [])

theorem alongside_openSessions (hfiles : h'.files = h.files) (hs : Shared base base' d h.files) :
    Alongside base base' d (((under base).perform .openSessions).run h)
      (((under base').perform .openSessions).run h') := by
  have hfind := (hs.right.find_sessions hs.furnished).trans (hs.left.find_sessions hs.furnished).symm
  obtain ⟨names, hentries, hnames, hnames'⟩ := Directory.listing_alongside hfiles hfind fun _ => true
  have hids : ∀ p : Path, (names.map (p / ·)).map Path.fileName = names := by
    intro p
    rw [List.map_map]
    exact (List.map_congr_left fun n hn => Path.fileName_join (hentries n hn)).trans (List.map_id names)
  have hopen : ∀ (v : Vault) (g : Host), (v.openSessions.run g).1 =
      ((Directory.listing v.sessions fun _ => true).run g).1.map Path.fileName := fun _ _ => rfl
  rw [run_perform, run_perform]
  dsimp only
  rw [hopen, hopen, hnames, hnames', hids, hids]
  exact alongside_of_files hfiles hs (files_openSessions ..) (files_openSessions ..) (.ids names)

theorem alongside_deleteSession (hfiles : h'.files = h.files) (hs : Shared base base' d h.files) {id : String}
    (hfits : Call.WithinLimits base d h.files (.deleteSession id))
    (hfits' : Call.WithinLimits base' d h.files (.deleteSession id)) :
    Alongside base base' d (((under base).perform (.deleteSession id)).run h)
      (((under base').perform (.deleteSession id)).run h') := by
  rw [run_perform, run_perform]
  dsimp only
  by_cases hid : IsName id
  · rw [run_deleteSession_of_name hid, run_deleteSession_of_name hid]
    have hnote := Host.files_note h ⟨.trace, "FileStore: Deleting files of session: " ++ id⟩
    have hnote' := Host.files_note h' ⟨.trace, "FileStore: Deleting files of session: " ++ id⟩
    rw [← hnote, ← hnote'] at hfiles
    rw [← hnote] at hs hfits hfits'
    have ha := hs.left.anchored_session hs.furnished hid
    have ha' := hs.right.anchored_session hs.furnished hid
    obtain ⟨hremoved, hleft⟩ := Directory.removeTree_alongside _ rfl hfiles ha ha' ⟨ha.held, hfits⟩
      ⟨ha'.held, hfits'⟩
    refine ⟨?_, hleft, hs.clears_below (Directory.clears_of_anchored ha)⟩
    dsimp only [sessionDir]
    rw [hremoved]
    exact .flag _
  · rw [run_deleteSession_of_not_name hid, run_deleteSession_of_not_name hid]
    exact alongside_of_files hfiles hs (Host.files_note ..) (Host.files_note ..) (.flag false)

theorem deleteReport_congr {v v' : Vault} {id : String} (hfiles : h'.files = h.files)
    (hstatus : h.files.status (v'.reportFile .untagged id) = h.files.status (v.reportFile .untagged id))
    (hremove : h.files.remove (v'.reportFile .untagged id) = h.files.remove (v.reportFile .untagged id)) :
    ((v'.deleteReport id).run h').1 = ((v.deleteReport id).run h).1 ∧
      ((v'.deleteReport id).run h').2.files = ((v.deleteReport id).run h).2.files := by
  have hcases' := deleteReport_cases v' id h'
  rw [hfiles, hstatus, hremove] at hcases'
  rcases deleteReport_cases v id h with ⟨fs, x, hs, hr, hanswer, hleft⟩ | ⟨hno, hanswer, hleft⟩
  · rw [hs, hr] at hcases'
    rcases hcases' with ⟨fs', -, -, hsame, hanswer', hleft'⟩ | ⟨⟨e, he⟩ | ⟨e, he⟩, -⟩
    · cases hsame
      exact ⟨hanswer'.trans hanswer.symm, hleft'.trans hleft.symm⟩
    · cases he
    · cases he
  · rcases hcases' with ⟨fs', x, hs, hr, -⟩ | ⟨-, hanswer', hleft'⟩
    · rw [hs, hr] at hno
      rcases hno with ⟨e, he⟩ | ⟨e, he⟩ <;> cases he
    · exact ⟨hanswer'.trans hanswer.symm, hleft'.trans hleft.symm⟩

theorem deleteReport_clears {v : Vault} {id : String} {r : Loc} (hid : IsName id)
    (hlead : h.files.lead v.reports = .ok (.node r)) :
    FileSystem.Clears (id :: r) h.files ((v.deleteReport id).run h).2.files := by
  have hcases := deleteReport_cases v id h
  rw [reportFile_untagged] at hcases
  rcases hcases with ⟨fs, -, -, hr, -, hleft⟩ | ⟨-, -, hleft⟩
  · obtain ⟨n, m, y, he, -, -, -, rfl⟩ := FileSystem.remove_ok hr
    obtain ⟨l, hl, hm⟩ := FileSystem.lead_of_entry hid he
    rw [hlead] at hl
    cases hl
    cases hm
    rw [hleft]
    exact FileSystem.clears_prune h.files id r
  · rw [hleft]
    exact .refl _ _

theorem alongside_deleteReport_of_name (hfiles : h'.files = h.files) (hs : Shared base base' d h.files)
    {id : String} (hid : IsName id) (htakes : h.files.Takes ((under base).reportFile .untagged id))
    (htakes' : h.files.Takes ((under base').reportFile .untagged id)) :
    Alongside base base' d (((under base).perform (.deleteReport id)).run h)
      (((under base').perform (.deleteReport id)).run h') := by
  have hlead := hs.furnished.lead_reports hs.left.lead_base
  have hlead' := hs.furnished.lead_reports hs.right.lead_base
  rw [reportFile_untagged] at htakes htakes'
  have hstatus := FileSystem.status_congr (FileSystem.find_alongside hid hlead hlead' htakes htakes')
  have hremove : h.files.remove ((under base').reports / id) = h.files.remove ((under base).reports / id) := by
    apply FileSystem.remove_congr hid
    rw [FileSystem.entry_join_eq hid (htakes.fits hid), FileSystem.entry_join_eq hid (htakes'.fits hid), hlead,
      hlead']
  rw [← reportFile_untagged, ← reportFile_untagged] at hstatus hremove
  obtain ⟨hanswer, hleft⟩ := deleteReport_congr hfiles hstatus hremove
  rw [run_perform, run_perform]
  dsimp only
  rw [hanswer]
  exact alongside_mk (.flag _) hleft (hs.clears_below (deleteReport_clears hid hlead))

theorem deleteReport_dots (v : Vault) {id : String} (h : Host) (hid : id = "." ∨ id = "..") :
    ((v.deleteReport id).run h).1 = false ∧ ((v.deleteReport id).run h).2.files = h.files := by
  rcases deleteReport_cases v id h with ⟨fs, -, -, hr, -⟩ | ⟨-, hrun⟩
  · obtain ⟨e, he⟩ := FileSystem.remove_dots h.files v.reports hid
    rw [reportFile_untagged, he] at hr
    cases hr
  · exact hrun

theorem alongside_deleteReport (hfiles : h'.files = h.files) (hs : Shared base base' d h.files) {id : String}
    (hid : IsStep id) (htakes : IsName id → h.files.Takes ((under base).reportFile .untagged id))
    (htakes' : IsName id → h.files.Takes ((under base').reportFile .untagged id)) :
    Alongside base base' d (((under base).perform (.deleteReport id)).run h)
      (((under base').perform (.deleteReport id)).run h') := by
  by_cases hname : IsName id
  · exact alongside_deleteReport_of_name hfiles hs hname (htakes hname) (htakes' hname)
  · have hdots : id = "." ∨ id = ".." := by
      by_contra hno
      rw [not_or] at hno
      exact hname ⟨hid.1, hno.1, hno.2, hid.2⟩
    obtain ⟨hanswer, hleft⟩ := deleteReport_dots (under base) h hdots
    obtain ⟨hanswer', hleft'⟩ := deleteReport_dots (under base') h' hdots
    rw [run_perform, run_perform]
    dsimp only
    rw [hanswer, hanswer']
    exact alongside_of_files hfiles hs hleft hleft' (.flag false)

theorem alongside_cleanupLegacy (hfiles : h'.files = h.files) (hs : Shared base base' d h.files)
    (hfits : Call.WithinLimits base d h.files .cleanupLegacy)
    (hfits' : Call.WithinLimits base' d h.files .cleanupLegacy) :
    Alongside base base' d (((under base).perform .cleanupLegacy).run h)
      (((under base').perform .cleanupLegacy).run h') := by
  have ha := hs.left.anchored_legacy
  have ha' := hs.right.anchored_legacy
  obtain ⟨hremoved, hleft⟩ := Directory.removeTree_alongside ((under base).root.parent / legacyName) rfl hfiles
    ha ha' ⟨ha.held, hfits⟩ ⟨ha'.held, hfits'⟩
  have hclears := Directory.clears_of_anchored ha
  have hanswer : (((under base').cleanupLegacy).run h').1 = (((under base).cleanupLegacy).run h).1 := by
    rw [run_cleanupLegacy, run_cleanupLegacy, legacyDir, legacyDir]
    exact hremoved
  rw [← legacyDir, ← legacyDir, ← files_cleanupLegacy, ← files_cleanupLegacy] at hleft
  rw [← legacyDir, ← files_cleanupLegacy] at hclears
  have hinside : Inside d (legacyName :: d) := .inr (List.suffix_refl _)
  have hshared : Shared base base' d (((under base).cleanupLegacy).run h).2.files :=
    ⟨hs.left.clears hinside hclears, hs.right.clears hinside hclears, hs.furnished.clears_legacy hclears⟩
  rw [run_perform, run_perform]
  dsimp only
  rw [hanswer]
  exact alongside_mk (.flag _) hleft hshared

theorem emptied_alongside (hfiles : h'.files = h.files) (hs : Shared base base' d h.files)
    (hreach : WithinReach base d h.files) (hreach' : WithinReach base' d h.files) :
    ((under base').emptied h').files = ((under base).emptied h).files ∧
      FileSystem.Clears (rootName :: d) h.files ((under base).emptied h).files := by
  have hnote := Host.files_note h ⟨.info, "FileStore: Deleting all files under: " ++ (under base).root.text⟩
  have hnote' := Host.files_note h' ⟨.info, "FileStore: Deleting all files under: " ++ (under base').root.text⟩
  have ha := hs.left.anchored
  have ha' := hs.right.anchored
  rw [← hnote] at ha ha' hreach hreach'
  have hclears := Directory.clears_of_anchored ha
  rw [hnote] at hclears
  exact ⟨(Directory.removeTree_alongside (under base).root rfl (hnote'.trans (hfiles.trans hnote.symm))
    ha ha' ⟨ha.held, hreach⟩ ⟨ha'.held, hreach'⟩).2, hclears⟩

theorem alongside_deleteAll (hfiles : h'.files = h.files) (hs : Shared base base' d h.files)
    (hreach : WithinReach base d h.files) (hreach' : WithinReach base' d h.files) :
    Alongside base base' d (((under base).perform .deleteAll).run h)
      (((under base').perform .deleteAll).run h') := by
  obtain ⟨hsame, hclears⟩ := emptied_alongside hfiles hs hreach hreach'
  have hleft := hs.left.clears (inside_append d []) hclears
  have hright := hs.right.clears (inside_append d []) hclears
  have hreal := hs.furnished.real.clears hclears
  obtain ⟨g, hrun, hg, hfurnished, hbased⟩ := prepareAll_real hleft hreal
  obtain ⟨g', hrun', hg', -, -⟩ := prepareAll_real (hsame.symm ▸ hright) (hsame.symm ▸ hreal)
  rw [run_perform, run_perform]
  dsimp only
  rw [run_deleteAll, run_deleteAll, hrun, hrun']
  refine alongside_mk .done ?_ ⟨hbased hleft, hbased hright, hfurnished⟩
  rw [hg, hg', hsame]

/-- Every regular call goes alike under the two bases. -/
theorem perform_alongside (hfiles : h'.files = h.files) (hs : Shared base base' d h.files) {call : Call}
    (hcall : call.Regular) (hlimits : call.WithinLimits base d h.files)
    (hlimits' : call.WithinLimits base' d h.files) :
    Alongside base base' d (((under base).perform call).run h) (((under base').perform call).run h') := by
  cases call with
  | commonFile name text? =>
    obtain rfl : text? = none := hcall
    exact alongside_commonFile hfiles hs name
  | sessionFile id name text? =>
    obtain rfl : text? = none := hcall
    exact alongside_sessionFile hfiles hs name hlimits hlimits'
  | reportFile kind id text? =>
    obtain rfl : text? = none := hcall
    exact alongside_of_files hfiles hs rfl rfl (.path [id ++ kind.extension, reportsName, rootName])
  | write path text => exact hcall.elim
  | listCommon keep =>
    rw [run_perform, run_perform]
    exact alongside_listing hfiles hs [rootName]
      ((hs.right.find_root hs.furnished).trans (hs.left.find_root hs.furnished).symm) keep
  | listSession id keep => exact alongside_listSession hfiles hs keep hlimits hlimits'
  | openSessions => exact alongside_openSessions hfiles hs
  | listReports =>
    rw [run_perform, run_perform]
    exact alongside_listing hfiles hs [reportsName, rootName]
      ((hs.right.find_reports hs.furnished).trans (hs.left.find_reports hs.furnished).symm) _
  | deleteSession id => exact alongside_deleteSession hfiles hs hlimits hlimits'
  | deleteReport id => exact alongside_deleteReport hfiles hs hcall hlimits hlimits'
  | cleanupLegacy => exact alongside_cleanupLegacy hfiles hs hlimits hlimits'
  | deleteAll => exact alongside_deleteAll hfiles hs hlimits hlimits'

end

def Act.use (base : Path) : Act → Use
  | .reopen => .opening base
  | .on k call => .calling k call

def Act.Regular : Act → Prop
  | .reopen => True
  | .on _ call => call.Regular

def Act.WithinLimits (base : Path) (d : Loc) (fs : FileSystem) : Act → Prop
  | .reopen => True
  | .on _ call => call.WithinLimits base d fs

end Vault

open Vault

/-- Each step of the run is within the limits when its turn comes. -/
def RunWithinLimits (base : Path) (d : Loc) (vaults : List Vault) (h : Host) : List Act → Prop
  | [] => True
  | act :: acts => act.WithinLimits base d h.files ∧
      RunWithinLimits base d (((act.use base).perform vaults).run h).1.2
        (((act.use base).perform vaults).run h).2 acts

inductive Result.Alike (base base' : Path) : Result → Result → Prop
  | opened : Alike base base' (.opened (.ok (under base))) (.opened (.ok (under base')))
  | answered {answer answer' : Answer} (alike : Answer.Alike base base' answer answer') :
      Alike base base' (.answered answer) (.answered answer')
  | nothing : Alike base base' .nothing .nothing

theorem Use.run_opening_ok {base : Path} {v : Vault} {h g : Host} (hopen : (openAt base).run.run h = (.ok v, g))
    (vaults : List Vault) :
    ((Use.opening base).perform vaults).run h = ((.opened (.ok v), vaults ++ [v]), g) := by
  simp only [perform, StateT.run_bind, hopen]
  rfl

theorem Use.run_calling {vaults : List Vault} {k : Nat} {v : Vault} (hv : vaults[k]? = some v) (call : Call)
    (h : Host) : ((Use.calling k call).perform vaults).run h =
      ((.answered ((v.perform call).run h).1, vaults), ((v.perform call).run h).2) := by
  simp only [perform, hv]
  rfl

theorem Use.run_calling_none {vaults : List Vault} {k : Nat} (hv : vaults[k]? = none) (call : Call) (h : Host) :
    ((Use.calling k call).perform vaults).run h = ((.nothing, vaults), h) := by
  simp only [perform, hv]
  rfl

theorem run_useAll_cons (vaults : List Vault) (use : Use) (uses : List Use) (h : Host) :
    ((useAll vaults (use :: uses)).run h).1 =
      (((use.perform vaults).run h).1.1, ((use.perform vaults).run h).2.files) ::
        ((useAll ((use.perform vaults).run h).1.2 uses).run ((use.perform vaults).run h).2).1 := rfl

/-- The directory at `d` when so many vaults have been opened in it under either base. -/
structure Paired (base base' : Path) (d : Loc) (opened : Nat) (fs : FileSystem) : Prop where
  left : Based base d fs
  right : Based base' d fs
  real : Real d fs
  furnished : 0 < opened → Furnished d fs

section
variable {base base' : Path} {d : Loc} {h h' : Host} {k : Nat}

/-- Two runs have taken one step each: it came to the same but for the base and left the same files. -/
structure Stepped (base base' : Path) (d : Loc) (r r' : (Result × List Vault) × Host) : Prop where
  alike : Result.Alike base base' r.1.1 r'.1.1
  files : r'.2.files = r.2.files
  vaults : ∃ k, r.1.2 = List.replicate k (under base) ∧ r'.1.2 = List.replicate k (under base') ∧
    Paired base base' d k r.2.files

theorem stepped_reopen (hfiles : h'.files = h.files) (hp : Paired base base' d k h.files) :
    Stepped base base' d (((Act.use base .reopen).perform (List.replicate k (under base))).run h)
      (((Act.use base' .reopen).perform (List.replicate k (under base'))).run h') := by
  obtain ⟨g, hrun, hg, hfurnished, hbased⟩ := prepareAll_real hp.left hp.real
  obtain ⟨g', hrun', hg', -, -⟩ := prepareAll_real (hfiles ▸ hp.right) (hfiles ▸ hp.real)
  have hnote := Host.files_note g ⟨.debug, "FileStore: Initialized at: " ++ (under base).root.text⟩
  have hnote' := Host.files_note g' ⟨.debug, "FileStore: Initialized at: " ++ (under base').root.text⟩
  dsimp only [Act.use]
  rw [Use.run_opening_ok (openAt_of_prepareAll hrun), Use.run_opening_ok (openAt_of_prepareAll hrun')]
  refine ⟨.opened, ?_, k + 1, List.replicate_succ'.symm, List.replicate_succ'.symm, ?_⟩
  · rw [hnote, hnote', hg, hg', hfiles]
  · rw [hnote]
    exact ⟨hbased hp.left, hbased hp.right, hfurnished.real, fun _ => hfurnished⟩

theorem stepped_on (hfiles : h'.files = h.files) (hp : Paired base base' d k h.files) (j : Nat) {call : Call}
    (hcall : call.Regular) (hlimits : call.WithinLimits base d h.files)
    (hlimits' : call.WithinLimits base' d h.files) :
    Stepped base base' d (((Act.use base (.on j call)).perform (List.replicate k (under base))).run h)
      (((Act.use base' (.on j call)).perform (List.replicate k (under base'))).run h') := by
  dsimp only [Act.use]
  by_cases hj : j < k
  · have hnth : ∀ v : Vault, (List.replicate k v)[j]? = some v := fun v => by
      rw [List.getElem?_replicate, if_pos hj]
    obtain ⟨halike, hleft, hshared⟩ := perform_alongside hfiles
      ⟨hp.left, hp.right, hp.furnished (Nat.zero_lt_of_lt hj)⟩ hcall hlimits hlimits'
    rw [Use.run_calling (hnth _), Use.run_calling (hnth _)]
    exact ⟨.answered halike, hleft, k, rfl, rfl, hshared.left, hshared.right, hshared.furnished.real,
      fun _ => hshared.furnished⟩
  · have hnth : ∀ v : Vault, (List.replicate k v)[j]? = none := fun v => by
      rw [List.getElem?_replicate, if_neg hj]
    rw [Use.run_calling_none (hnth _), Use.run_calling_none (hnth _)]
    exact ⟨.nothing, hfiles, k, rfl, rfl, hp⟩

theorem stepped (hfiles : h'.files = h.files) (hp : Paired base base' d k h.files) {act : Act}
    (hact : act.Regular) (hlimits : act.WithinLimits base d h.files)
    (hlimits' : act.WithinLimits base' d h.files) :
    Stepped base base' d (((act.use base).perform (List.replicate k (under base))).run h)
      (((act.use base').perform (List.replicate k (under base'))).run h') := by
  cases act with
  | reopen => exact stepped_reopen hfiles hp
  | on j call => exact stepped_on hfiles hp j hact hlimits hlimits'

theorem useAll_alike_from (hfiles : h'.files = h.files) (hp : Paired base base' d k h.files) {acts : List Act}
    (hacts : ∀ act ∈ acts, act.Regular)
    (hlimits : RunWithinLimits base d (List.replicate k (under base)) h acts)
    (hlimits' : RunWithinLimits base' d (List.replicate k (under base')) h' acts) :
    List.Forall₂ (fun r r' => Result.Alike base base' r.1 r'.1 ∧ r'.2 = r.2)
      ((useAll (List.replicate k (under base)) (acts.map (Act.use base))).run h).1
      ((useAll (List.replicate k (under base')) (acts.map (Act.use base'))).run h').1 := by
  induction acts generalizing k h h' with
  | nil => exact .nil
  | cons act acts ih =>
    obtain ⟨hnow, hlater⟩ := hlimits
    obtain ⟨hnow', hlater'⟩ := hlimits'
    obtain ⟨halike, hleft, j, hvaults, hvaults', hpaired⟩ :=
      stepped hfiles hp (hacts act List.mem_cons_self) hnow (hfiles ▸ hnow')
    rw [List.map_cons, List.map_cons, run_useAll_cons, run_useAll_cons]
    refine .cons ⟨halike, hleft⟩ ?_
    rw [hvaults] at hlater ⊢
    rw [hvaults'] at hlater' ⊢
    exact ih hleft hpaired (fun a ha => hacts a (List.mem_cons_of_mem _ ha)) hlater hlater'

end

/-- The directory a base leads to is all that matters about it, whatever steps are taken. -/
theorem useAll_alike {base base' : Path} {d : Loc} {h h' : Host} {acts : List Act} (hfiles : h'.files = h.files)
    (hbase : Based base d h.files) (hbase' : Based base' d h.files) (hreal : Real d h.files)
    (hacts : ∀ act ∈ acts, act.Regular) (hlimits : RunWithinLimits base d [] h acts)
    (hlimits' : RunWithinLimits base' d [] h' acts) :
    List.Forall₂ (fun r r' => Result.Alike base base' r.1 r'.1 ∧ r'.2 = r.2)
      ((useAll [] (acts.map (Act.use base))).run h).1 ((useAll [] (acts.map (Act.use base'))).run h').1 :=
  useAll_alike_from hfiles ⟨hbase, hbase', hreal, fun hk => absurd hk (Nat.lt_irrefl 0)⟩ hacts
    hlimits hlimits'

def looped : Host := ⟨FileSystem.empty.add [] "loop" (.link ⟨"/"⟩), {}, []⟩

def visits : List Act :=
  [.reopen, .on 0 .deleteAll, .on 0 (.commonFile "c" none), .reopen, .on 1 (.sessionFile ".." "x" none),
    .on 0 .openSessions]

theorem real_looped : Real [] looped.files := by
  have hnone : ∀ m ∈ [[rootName], [sessionsName, rootName], [reportsName, rootName]],
      looped.files.tree.get? m = none := by decide +kernel
  intro m hm target hlink
  rw [hnone m hm] at hlink
  cases hlink

theorem toList_furnishAll_looped : (furnishAll looped.files []).tree.toList =
    [([], .directory), ([rootName], .directory), ([reportsName, rootName], .directory),
      ([sessionsName, rootName], .directory), (["loop"], .link ⟨"/"⟩)] := by rfl

section
variable {base : Path} (hbase : base = ⟨"/"⟩ ∨ base = ⟨"/loop/."⟩)
include hbase

theorem based_looped : Based base [] looped.files := by
  rcases hbase with rfl | rfl
  · exact ⟨rfl, rfl, by decide, by decide⟩
  · exact ⟨rfl, FileSystem.lead_of_toOption (by decide +kernel), by decide, by decide⟩

theorem withinReach_looped : WithinReach base [] (furnishAll looped.files []) := by
  intro r x hx
  refine FileTree.reach_of_toList ?_ hx
  rw [toList_furnishAll_looped]
  rcases hbase with rfl | rfl
  · decide +kernel
  · decide +kernel

theorem runWithinLimits_looped : RunWithinLimits base [] [] looped visits := by
  obtain ⟨g, hrun, hg, -, -⟩ := prepareAll_real (based_looped hbase) real_looped
  have hreach : WithinReach base [] (((Act.use base .reopen).perform []).run looped).2.files := by
    rw [Act.use, Use.run_opening_ok (openAt_of_prepareAll hrun)]
    dsimp only
    rw [Host.files_note, hg]
    exact withinReach_looped hbase
  exact ⟨trivial, hreach, trivial, trivial, fun hname => absurd hname (by decide), trivial, trivial⟩

end

theorem useAll_alike_looped : (∀ act ∈ visits, act.Regular) ∧
    Based ⟨"/"⟩ [] looped.files ∧ Based ⟨"/loop/."⟩ [] looped.files ∧ Real [] looped.files ∧
    RunWithinLimits ⟨"/"⟩ [] [] looped visits ∧ RunWithinLimits ⟨"/loop/."⟩ [] [] looped visits ∧
    List.Forall₂ (fun r r' => Result.Alike ⟨"/"⟩ ⟨"/loop/."⟩ r.1 r'.1 ∧ r'.2 = r.2)
      ((useAll [] (visits.map (Act.use ⟨"/"⟩))).run looped).1
      ((useAll [] (visits.map (Act.use ⟨"/loop/."⟩))).run looped).1 := by
  have hregular : ∀ act ∈ visits, act.Regular := by
    simp [visits, Act.Regular, Call.Regular]
  have hbase := based_looped (.inl rfl)
  have hbase' := based_looped (.inr rfl)
  have hlimits := runWithinLimits_looped (.inl rfl)
  have hlimits' := runWithinLimits_looped (.inr rfl)
  exact ⟨hregular, hbase, hbase', real_looped, hlimits, hlimits',
    useAll_alike rfl hbase hbase' real_looped hregular hlimits hlimits'⟩

end CrashVault
