import CrashVault.Proofs.Shows

/-! Each call of a vault does what the contents say, as long as its names fit: the answer is one that the
contents allow, the tree shows the contents as the call leaves them, and nothing outside the root has
changed, but for what cleaning up takes from the older layout (`follows`). -/

namespace CrashVault
namespace Vault

/-- There was an older layout, and there is none now. -/
def Swept (d : Loc) (fs fs' : FileSystem) : Prop :=
  (∃ x, fs.tree.get? (legacyName :: d) = some x) ∧ fs'.tree.get? (legacyName :: d) = none

/-- Outside the root a call changes nothing, but that cleaning up takes away from the older layout. -/
def LeavesOutside (d : Loc) (call : Call) (fs fs' : FileSystem) : Prop :=
  ∀ m, ¬ rootName :: d <:+ m → fs'.tree.get? m = fs.tree.get? m ∨
    call = .cleanupLegacy ∧ legacyName :: d <:+ m ∧ fs'.tree.get? m = none

/-- A call does what the contents say: in its answer, in the tree below the root, and outside. -/
structure Follows (base : Path) (d : Loc) (c : Contents) (call : Call) (h : Host) : Prop where
  allowed : c.Allows (under base) (Swept d h.files (((under base).perform call).run h).2.files) call
    (((under base).perform call).run h).1
  shows : Shows base d (c.step call) (((under base).perform call).run h).2.files
  outside : LeavesOutside d call h.files (((under base).perform call).run h).2.files

theorem Follows.of_run {base : Path} {d : Loc} {c : Contents} {call : Call} {h h' : Host} {a : Answer}
    (hrun : ((under base).perform call).run h = (a, h'))
    (hallowed : c.Allows (under base) (Swept d h.files h'.files) call a)
    (hshows : Shows base d (c.step call) h'.files) (hout : LeavesOutside d call h.files h'.files) :
    Follows base d c call h := by
  constructor
  · rwa [hrun]
  · rwa [hrun]
  · rwa [hrun]

theorem KeepsOutside.leaves {d : Loc} {fs fs' : FileSystem} (h : KeepsOutside d fs fs') (call : Call) :
    LeavesOutside d call fs fs' := fun m hm => .inl (h m hm)

theorem nodeAt_sessions (c : Contents) : c.nodeAt [sessionsName] = some .directory := by
  simp [Contents.nodeAt]

theorem nodeAt_reports (c : Contents) : c.nodeAt [reportsName] = some .directory := by
  simp [Contents.nodeAt]

theorem follows_commonFile {base : Path} {d : Loc} {c : Contents} {h : Host} (hs : Shows base d c h.files)
    {name : String} {text? : Option String} (hfits : Call.Fits (under base) (.commonFile name text?)) :
    Follows base d c (.commonFile name text?) h := by
  obtain ⟨hname, h1, h2, hlen⟩ := hfits
  have hroot : h.files.status (under base).root = .ok .directory :=
    FileSystem.node_of_find (hs.find (r := []) rfl) hs.root
  have hrun : ((under base).perform (.commonFile name text?)).run h =
      (answer (.ok ((under base).root.extend [] / name)) text? : StateM Host _).run h := by
    rw [run_perform]
    dsimp only
    rw [run_commonFile, Directory.prepare_of_directory hroot]
    rfl
  have hfile : ∀ x, c.nodeAt [name] = some x → ∃ old, x = .file old := by
    intro x hx
    simp only [Contents.nodeAt, h1, h2, or_self, if_false, Option.map_eq_some_iff] at hx
    obtain ⟨old, -, rfl⟩ := hx
    exact ⟨old, rfl⟩
  have hnone : text? = none → c.step (.commonFile name text?) = c := by
    rintro rfl
    rfl
  have hsome : ∀ text, text? = some text → ∀ r, (c.step (.commonFile name text?)).nodeAt r =
      if r = [name] then some (.file text) else c.nodeAt r := by
    rintro text rfl
    exact Contents.nodeAt_setCommon h1 h2 (some text)
  obtain ⟨ha, hshows, hout⟩ := hs.answer text? (r := []) rfl hname hfile hlen hnone hsome
  rw [← hrun] at ha hshows hout
  exact ⟨ha, hshows, hout.leaves _⟩

theorem follows_reportFile {base : Path} {d : Loc} {c : Contents} {h : Host} (hs : Shows base d c h.files)
    {kind : ReportKind} {id : String} {text? : Option String}
    (hfits : Call.Fits (under base) (.reportFile kind id text?)) :
    Follows base d c (.reportFile kind id text?) h := by
  obtain ⟨hid, hsize, hlen⟩ := hfits
  have hrun : ((under base).perform (.reportFile kind id text?)).run h =
      (answer (.ok ((under base).root.extend [reportsName] / (id ++ kind.extension))) text? : StateM Host _).run h := rfl
  have hfile : ∀ x, c.nodeAt [id ++ kind.extension, reportsName] = some x → ∃ old, x = .file old := by
    intro x hx
    simp only [Contents.nodeAt, Contents.reportsName_ne, if_false, if_true, Option.map_eq_some_iff] at hx
    obtain ⟨old, -, rfl⟩ := hx
    exact ⟨old, rfl⟩
  have hnone : text? = none → c.step (.reportFile kind id text?) = c := by
    rintro rfl
    rfl
  have hsome : ∀ text, text? = some text → ∀ r, (c.step (.reportFile kind id text?)).nodeAt r =
      if r = [id ++ kind.extension, reportsName] then some (.file text) else c.nodeAt r := by
    rintro text rfl
    exact c.nodeAt_setReport (id ++ kind.extension) (some text)
  obtain ⟨ha, hshows, hout⟩ := hs.answer text? (nodeAt_reports c) ⟨isName_append_extension hid kind, hsize⟩
    hfile hlen hnone hsome
  rw [← hrun] at ha hshows hout
  exact ⟨ha, hshows, hout.leaves _⟩

theorem Shows.openSession {base : Path} {d : Loc} {c : Contents} {h : Host} (hs : Shows base d c h.files)
    {id : String} (hid : IsEntryName id) (hfits : ((under base).sessionDir id).byteSize ≤ pathMax) :
    ((Directory.prepare ((under base).sessionDir id)).run.run h).1 = .ok ((under base).sessionDir id) ∧
      Shows base d (c.openSession id)
        ((Directory.prepare ((under base).sessionDir id)).run.run h).2.files ∧
      KeepsOutside d h.files ((Directory.prepare ((under base).sessionDir id)).run.run h).2.files := by
  have hready : h.files.Ready (under base).sessions id (sessionsName :: rootName :: d) := by
    refine ⟨hfits, hs.lead_sessions, hs.sessions, hid, fun x hx => ?_⟩
    rw [show id :: sessionsName :: rootName :: d = [id, sessionsName] ++ rootName :: d from rfl, hs.image] at hx
    simp only [Contents.nodeAt, if_true, Option.map_eq_some_iff] at hx
    obtain ⟨-, -, rfl⟩ := hx
    rfl
  have hl := hs.toLayout.prepare (p := (under base).sessions) hid.1
  obtain ⟨hok, hfiles⟩ := Directory.prepare_ready hready
  rw [hfiles] at hl
  rw [sessionDir, hfiles]
  exact ⟨hok, hs.update hl [id, sessionsName] hready.get?_add (c.nodeAt_openSession id) fun _ _ => hfits⟩

theorem follows_sessionFile {base : Path} {d : Loc} {c : Contents} {h : Host} (hs : Shows base d c h.files)
    {id name : String} {text? : Option String}
    (hfits : Call.Fits (under base) (.sessionFile id name text?)) :
    Follows base d c (.sessionFile id name text?) h := by
  obtain ⟨hid, hname, hlen⟩ := hfits
  have hdirlen := Path.byteSize_join (p := (under base).sessionDir id) hname.1 (Path.text_join_ne hid.1)
  obtain ⟨hok, hopen, hkept⟩ := hs.openSession hid (by omega)
  have hrun : ((under base).perform (.sessionFile id name text?)).run h =
      (answer (.ok ((under base).root.extend [id, sessionsName] / name)) text? : StateM Host _).run
        ((Directory.prepare ((under base).sessionDir id)).run.run h).2 := by
    rw [run_perform]
    dsimp only
    rw [sessionFile_of_name hid.1, run_prepare_join]
    rcases hp : (Directory.prepare ((under base).sessionDir id) : Attempt Path).run.run h with ⟨r, h'⟩
    rw [hp] at hok
    subst hok
    rfl
  have hdir : (c.openSession id).nodeAt [id, sessionsName] = some .directory := by
    rw [Contents.nodeAt_openSession, if_pos rfl]
  have hfile : ∀ x, (c.openSession id).nodeAt [name, id, sessionsName] = some x → ∃ old, x = .file old := by
    intro x hx
    simp only [Contents.nodeAt, if_true, Option.map_eq_some_iff] at hx
    obtain ⟨old, -, rfl⟩ := hx
    exact ⟨old, rfl⟩
  have hnone : text? = none → c.step (.sessionFile id name text?) = c.openSession id := by
    rintro rfl
    rfl
  have hsome : ∀ text, text? = some text → ∀ r, (c.step (.sessionFile id name text?)).nodeAt r =
      if r = [name, id, sessionsName] then some (.file text) else (c.openSession id).nodeAt r := by
    rintro text rfl
    exact Contents.nodeAt_setFile (Function.update_self ..) name text
  obtain ⟨ha, hshows, hout⟩ := hopen.answer text? hdir hname hfile hlen hnone hsome
  rw [← hrun] at ha hshows hout
  exact ⟨ha, hshows, (hkept.trans hout).leaves _⟩

theorem exists_file {text? : Option String} :
    (∃ x, text?.map Node.file = some x) ↔ ∃ text, text? = some text := by
  cases text? <;> simp

/-! The names held in each kind of directory. -/

theorem held_common {c : Contents} {n : String} : (∃ x, c.nodeAt [n] = some x) ↔
    n = sessionsName ∨ n = reportsName ∨ ∃ text, c.common n = some text := by
  rw [Contents.nodeAt]
  split
  · rename_i hn
    rcases hn with hn | hn <;> simp [hn]
  · rename_i hn
    rw [exists_file]
    simp [not_or.1 hn]

theorem held_session {c : Contents} {id n : String} : (∃ x, c.nodeAt [n, id, sessionsName] = some x) ↔
    ∃ files text, c.sessions id = some files ∧ files n = some text := by
  rw [Contents.nodeAt, if_pos rfl, exists_file]
  cases c.sessions id <;> simp

theorem held_sessions {c : Contents} {id : String} : (∃ x, c.nodeAt [id, sessionsName] = some x) ↔
    ∃ files, c.sessions id = some files := by
  simp [Contents.nodeAt]

theorem held_reports {c : Contents} {n : String} : (∃ x, c.nodeAt [n, reportsName] = some x) ↔
    ∃ text, c.reports n = some text := by
  rw [Contents.nodeAt, if_neg Contents.reportsName_ne, if_pos rfl, exists_file]

theorem follows_listCommon {base : Path} {d : Loc} {c : Contents} {h : Host} (hs : Shows base d c h.files)
    (keep : String → Bool) : Follows base d c (.listCommon keep) h := by
  obtain ⟨names, hrun, hnodup, -, hmem⟩ := hs.lists (r := []) rfl keep
  have hperform : ((under base).perform (.listCommon keep)).run h =
      (.paths (names.map ((under base).root / ·)), h) := by
    rw [run_perform]
    dsimp only
    rw [show ((under base).listCommon keep : StateM Host _).run h = _ from hrun]
    rfl
  refine .of_run hperform ⟨names, rfl, hnodup, fun n => ?_⟩ hs ((KeepsOutside.refl d _).leaves _)
  rw [hmem, held_common]

theorem Shows.list_absent {base : Path} {d : Loc} {c : Contents} {fs : FileSystem} (hs : Shows base d c fs)
    {id : String} (hid : IsEntryName id) (hfits : ((under base).sessionDir id).byteSize ≤ pathMax)
    (hnone : c.sessions id = none) : fs.list ((under base).sessionDir id) = .error .missing := by
  have hvacant : fs.Vacant (under base).sessions id (sessionsName :: rootName :: d) := by
    refine ⟨hfits, hs.lead_sessions, hs.sessions, hid, ?_⟩
    rw [show id :: sessionsName :: rootName :: d = [id, sessionsName] ++ rootName :: d from rfl, hs.image]
    simp [Contents.nodeAt, hnone]
  rw [FileSystem.list, sessionDir, hvacant.find]

theorem follows_listSession {base : Path} {d : Loc} {c : Contents} {h : Host} (hs : Shows base d c h.files)
    {id : String} {keep : String → Bool} (hfits : Call.Fits (under base) (.listSession id keep)) :
    Follows base d c (.listSession id keep) h := by
  obtain ⟨hid, hlen⟩ := hfits
  have hfiles : (((under base).perform (.listSession id keep)).run h).2.files = h.files := by
    rw [run_perform]
    exact files_listSession (under base) id keep h
  refine ⟨?_, hfiles.symm ▸ hs, hfiles.symm ▸ (KeepsOutside.refl d _).leaves _⟩
  rw [run_perform]
  dsimp only
  rw [listSession_of_name hid.1]
  cases hc : c.sessions id with
  | none =>
    refine ⟨[], ?_, List.nodup_nil, fun n => by simp [hc]⟩
    rw [Directory.run_listing, hs.list_absent hid hlen hc]
    rfl
  | some files =>
    have hdir : c.nodeAt [id, sessionsName] = some .directory := by simp [Contents.nodeAt, hc]
    obtain ⟨names, hrun, hnodup, -, hmem⟩ := hs.lists hdir keep
    refine ⟨names, ?_, hnodup, fun n => by rw [hmem, held_session]⟩
    rw [show (Directory.listing ((under base).sessionDir id) keep : StateM Host _).run h = _ from hrun]
    rfl

theorem follows_openSessions {base : Path} {d : Loc} {c : Contents} {h : Host}
    (hs : Shows base d c h.files) : Follows base d c .openSessions h := by
  obtain ⟨names, hrun, hnodup, hnames, hmem⟩ := hs.lists (nodeAt_sessions c) fun _ => true
  have hlisted : names.map (Path.fileName ∘ ((under base).sessions / ·)) = names := by
    conv => rhs; rw [← List.map_id names]
    exact List.map_congr_left fun n hn => Path.fileName_join (hnames n hn)
  have hperform : ((under base).perform .openSessions).run h = (.ids names, h) := by
    rw [run_perform]
    show (Answer.ids (((Directory.listing (under base).sessions fun _ => true).run h).1.map Path.fileName),
      ((Directory.listing (under base).sessions fun _ => true).run h).2) = _
    rw [show (Directory.listing (under base).sessions fun _ => true : StateM Host _).run h = _ from hrun]
    dsimp only
    rw [List.map_map]
    exact congrArg (fun ns => (Answer.ids ns, h)) hlisted
  refine .of_run hperform ⟨names, rfl, hnodup, fun n => ?_⟩ hs ((KeepsOutside.refl d _).leaves _)
  rw [hmem, held_sessions]
  simp

theorem follows_listReports {base : Path} {d : Loc} {c : Contents} {h : Host}
    (hs : Shows base d c h.files) : Follows base d c .listReports h := by
  obtain ⟨names, hrun, hnodup, -, hmem⟩ := hs.lists (nodeAt_reports c) fun _ => true
  have hperform : ((under base).perform .listReports).run h =
      (.paths (names.map ((under base).reports / ·)), h) := by
    rw [run_perform]
    dsimp only
    rw [show ((under base).listReports : StateM Host _).run h = _ from hrun]
    rfl
  refine .of_run hperform ⟨names, rfl, hnodup, fun n => ?_⟩ hs ((KeepsOutside.refl d _).leaves _)
  rw [hmem, held_reports]

theorem follows_deleteSession {base : Path} {d : Loc} {c : Contents} {h : Host}
    (hs : Shows base d c h.files) {id : String} (hfits : Call.Fits (under base) (.deleteSession id)) :
    Follows base d c (.deleteSession id) h := by
  obtain ⟨hid, -⟩ := hfits
  have ha : h.files.Anchored (under base).sessions id (sessionsName :: rootName :: d) :=
    ⟨hid.1, hs.sessions, fun fs' hc => (hs.toLayout.of_clears_below hc).lead_sessions⟩
  obtain ⟨hremoved, -, hgone⟩ := deleteSession_whole ha (hs.not_outOfReach [id, sessionsName])
  have himage : h.files.tree.get? (id :: sessionsName :: rootName :: d) = c.nodeAt [id, sessionsName] :=
    hs.image [id, sessionsName]
  refine .of_run (run_perform _ _ _) ?_ ?_ ?_
  · show Answer.flag _ = Answer.flag _
    congr 1
    rw [Bool.eq_iff_iff, Option.isSome_iff_exists, ← held_sessions, ← himage]
    exact hremoved
  · refine ⟨hs.toLayout.deleteSession id, fun r => ?_, fun r x hx => ?_⟩
    · have hsuffix : id :: sessionsName :: rootName :: d <:+ r ++ rootName :: d ↔ [id, sessionsName] <:+ r := by
        show [id, sessionsName] ++ rootName :: d <:+ _ ↔ _
        exact List.suffix_append_self_iff
      rw [hgone, hs.image]
      simp only [hsuffix]
      exact (c.nodeAt_dropSession id r).symm
    · rw [show (c.step (.deleteSession id)).nodeAt r = _ from c.nodeAt_dropSession id r] at hx
      split at hx
      · cases hx
      · exact hs.short r x hx
  · refine KeepsOutside.leaves (fun m hm => ?_) _
    rw [hgone, if_neg]
    intro hsuf
    exact hm (((List.suffix_cons _ _).trans (List.suffix_cons _ _)).trans hsuf)

theorem follows_deleteReport {base : Path} {d : Loc} {c : Contents} {h : Host}
    (hs : Shows base d c h.files) {id : String} (hfits : Call.Fits (under base) (.deleteReport id)) :
    Follows base d c (.deleteReport id) h := by
  obtain ⟨hid, hlen⟩ := hfits
  have hl := hs.toLayout.deleteReport hid.1
  have himage : h.files.tree.get? (id :: reportsName :: rootName :: d) = (c.reports id).map .file := by
    rw [show id :: reportsName :: rootName :: d = [id, reportsName] ++ rootName :: d from rfl, hs.image,
      Contents.nodeAt, if_neg Contents.reportsName_ne, if_pos rfl]
  have hstep : ∀ r, (c.step (.deleteReport id)).nodeAt r = if r = [id, reportsName] then none else c.nodeAt r :=
    c.nodeAt_setReport id none
  rw [reportFile_untagged] at hlen
  have hperform : ((under base).perform (.deleteReport id)).run h =
      (.flag (((under base).deleteReport id).run h).1, (((under base).deleteReport id).run h).2) :=
    run_perform ..
  have hend : ∀ b, (((under base).deleteReport id).run h).1 = b → b = (c.reports id).isSome →
      (∀ m, (((under base).deleteReport id).run h).2.files.tree.get? m =
        if m = id :: reportsName :: rootName :: d then none else h.files.tree.get? m) →
      Follows base d c (.deleteReport id) h := by
    intro b hanswer hb htree
    obtain ⟨hshows, hout⟩ := hs.update hl [id, reportsName] htree hstep (by simp)
    exact .of_run hperform (congrArg Answer.flag (hanswer.trans hb)) hshows (hout.leaves _)
  cases hc : c.reports id with
  | none =>
    rw [hc] at himage
    have hvacant : h.files.Vacant (under base).reports id (reportsName :: rootName :: d) :=
      ⟨hlen, hs.lead_reports, hs.reports, hid, himage⟩
    obtain ⟨hanswer, hfiles⟩ := deleteReport_vacant hvacant
    apply hend false hanswer (by simp [hc])
    intro m
    rw [hfiles]
    split
    · rename_i hm
      rw [hm, himage]
      rfl
    · rfl
  | some text =>
    rw [hc] at himage
    have hchildren := FileTree.children_of_ne_directory himage (by simp)
    obtain ⟨hanswer, hfiles⟩ := deleteReport_removes (reportFile_untagged _ id) hlen hs.lead_reports himage
      (by simp) hchildren
    apply hend true hanswer (by simp [hc])
    intro m
    rw [hfiles]
    exact FileTree.get?_prune_of_children (by simp) hchildren m

theorem follows_cleanupLegacy {base : Path} {d : Loc} {c : Contents} {h : Host}
    (hs : Shows base d c h.files) : Follows base d c .cleanupLegacy h := by
  have hl := hs.toLayout.cleanupLegacy
  have hc := clears_cleanupLegacy hs.lead_base
  have ha : h.files.Anchored (under base).root.parent legacyName d := by
    refine ⟨isEntryName_legacyName.1, hs.base, fun fs' hc' => lead_legacy ?_⟩
    exact (hs.toLayout.of_clears hc' (legacy_apart d []) fun k => legacy_apart d [k]).lead_base
  have hreaped := Directory.removeTree_reaps ((under base).root.parent / legacyName) rfl ha
  have hreaps : FileSystem.Reaps ((under base).root.parent / legacyName) (legacyName :: d) h.files
      (((under base).cleanupLegacy).run h).2.files := by
    rw [files_cleanupLegacy, legacyDir]
    exact hreaped.reaps
  have hremoved : (((under base).cleanupLegacy).run h).1 = true ↔
      (∃ x, h.files.tree.get? (legacyName :: d) = some x) ∧
        ¬ h.files.OutOfReach ((under base).root.parent / legacyName) (legacyName :: d) [] := by
    rw [run_cleanupLegacy, legacyDir]
    exact hreaped.removed
  have hperform : ((under base).perform .cleanupLegacy).run h =
      (.flag (((under base).cleanupLegacy).run h).1, (((under base).cleanupLegacy).run h).2) := run_perform ..
  have hswept : (((under base).cleanupLegacy).run h).1 = true ↔
      Swept d h.files (((under base).cleanupLegacy).run h).2.files := by
    rw [hremoved, Swept]
    apply and_congr_right
    rintro ⟨x, hx⟩
    constructor
    · intro hreach
      exact hreaps.gone [] hreach
    · intro hgone hout
      have hkept := hreaps.kept [] hout
      rw [List.nil_append, hgone, hx] at hkept
      cases hkept
  refine .of_run hperform ⟨_, rfl, hswept⟩ ?_ ?_
  · exact ⟨hl, fun r => (hc.kept _ (legacy_apart d r)).trans (hs.image r), hs.short⟩
  · intro m _
    by_cases hm : legacyName :: d <:+ m
    · cases hx : (((under base).cleanupLegacy).run h).2.files.tree.get? m with
      | none => exact .inr ⟨rfl, hm, rfl⟩
      | some x => exact .inl (hc.tree _ _ hx).symm
    · exact .inl (hc.kept m hm)

theorem Free.shows_empty {base : Path} {d : Loc} {fs : FileSystem} (h : Free base d fs)
    (hspells : fs.Spells base d)
    (hnone : ∀ r, r ≠ [] → fs.tree.get? (r ++ rootName :: d) = none) :
    Shows base d .empty (layOut fs d) := by
  have hl := h.layout hspells
  refine ⟨hl, fun r => ?_, fun r x hx => ?_⟩
  · rw [h.get?_below, Contents.nodeAt_empty]
    split
    · rfl
    · rename_i hr
      exact hnone r fun he => hr (.inl he)
  · rw [Contents.nodeAt_empty] at hx
    split at hx
    · rename_i hr
      rcases hr with rfl | rfl | rfl
      · exact hl.rootFits
      · exact hl.sessionsFit
      · exact hl.reportsFit
    · cases hx

theorem follows_deleteAll {base : Path} {d : Loc} {c : Contents} {h : Host}
    (hs : Shows base d c h.files) : Follows base d c .deleteAll h := by
  obtain ⟨hc, hreaps, hfree, h', hrun, hfiles⟩ :=
    deleteAll_anchored hs.toLayout.anchored hs.sessionsFit hs.reportsFit
  have hshows := hfree.shows_empty (hs.spells.settle hc.cwd hfree.dir) fun r _ =>
    hreaps.gone r (hs.not_outOfReach [] r)
  have hperform : ((under base).perform .deleteAll).run h = (.done, h') := by
    rw [run_perform]
    dsimp only
    rw [hrun]
  have houtside : KeepsOutside d h.files h'.files := fun m hm => by
    rw [hfiles, hfree.get?_outside hm, hc.kept m hm]
  refine .of_run hperform rfl ?_ (houtside.leaves _)
  rw [hfiles]
  exact hshows

theorem follows {base : Path} {d : Loc} {c : Contents} {h : Host} (hs : Shows base d c h.files)
    {call : Call} (hfits : call.Fits (under base)) : Follows base d c call h := by
  cases call with
  | commonFile name text? => exact follows_commonFile hs hfits
  | sessionFile id name text? => exact follows_sessionFile hs hfits
  | reportFile kind id text? => exact follows_reportFile hs hfits
  | write path text => exact hfits.elim
  | listCommon keep => exact follows_listCommon hs keep
  | listSession id keep => exact follows_listSession hs hfits
  | openSessions => exact follows_openSessions hs
  | listReports => exact follows_listReports hs
  | deleteSession id => exact follows_deleteSession hs hfits
  | deleteReport id => exact follows_deleteReport hs hfits
  | cleanupLegacy => exact follows_cleanupLegacy hs
  | deleteAll => exact follows_deleteAll hs

end Vault
end CrashVault
