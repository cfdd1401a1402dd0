import CrashVault.Proofs.Healing
import CrashVault.Proofs.Refinement

/-! Deleting everything in a vault. Under a base that is reached past the root it returns whatever stands
in the place of the root, and leaves the empty layout and all that is outside (`deleteAll_recovers`). What
it cannot reach stays, though, and it returns all the same: the vault is wiped only if every path below the
root is one that the system takes (`deleteAll_wiped_iff`). -/

namespace CrashVault

theorem FileTree.only_two_iff {t : FileTree} {place : Loc} {a b : String} :
    (∀ r x, t.get? (r ++ place) = some x → r = [] ∨ r = [a] ∨ r = [b]) ↔
      (∀ k ∈ t.children place, k = a ∨ k = b) ∧ t.children (a :: place) = [] ∧
        t.children (b :: place) = [] := by
  constructor
  · intro hall
    have hnil : ∀ k, t.children (k :: place) = [] := by
      intro k
      rw [children_eq_nil]
      intro j
      cases hx : t.get? (j :: k :: place) with
      | none => rfl
      | some x => simpa using hall [j, k] x hx
    refine ⟨fun k hk => ?_, hnil a, hnil b⟩
    obtain ⟨x, hx⟩ := mem_children.1 hk
    simpa using hall [k] x hx
  · rintro ⟨hentries, ha, hb⟩ r x hx
    -- what is at the place is named from the outside in: the entry first, then what is below it
    rcases List.eq_nil_or_concat r with rfl | ⟨s, k, rfl⟩
    · exact .inl rfl
    · rw [List.concat_eq_append, List.append_assoc, List.singleton_append] at hx
      have hk := hentries k (mem_children.2 (get?_of_append hx))
      rcases List.eq_nil_or_concat s with rfl | ⟨s, j, rfl⟩
      · simpa using hk
      · rw [List.concat_eq_append, List.append_assoc, List.singleton_append] at hx
        have hj := mem_children.2 (get?_of_append hx)
        rcases hk with rfl | rfl
        · simp [ha] at hj
        · simp [hb] at hj

namespace Vault

/-- The root holds the directories of sessions and reports and nothing else, and they hold nothing. -/
structure Wiped (v : Vault) (fs : FileSystem) : Prop where
  root : ∃ names, fs.list v.root = .ok names ∧ names.Perm [sessionsName, reportsName]
  sessions : fs.list v.sessions = .ok []
  reports : fs.list v.reports = .ok []

theorem wiped_iff {base : Path} {d : Loc} {fs : FileSystem} (h : (under base).Standing fs)
    (hbase : fs.lead base = .ok (.node d)) : (under base).Wiped fs ↔
      ∀ r x, fs.tree.get? (r ++ rootName :: d) = some x → r = [] ∨ r = [sessionsName] ∨ r = [reportsName] := by
  obtain ⟨d', hbase', ⟨hroot, hdir⟩, ⟨hsessions, hdir₁⟩, hreports, hdir₂⟩ := h.places
  rw [hbase] at hbase'
  cases hbase'
  obtain ⟨names, hlist, hperm⟩ := FileSystem.list_of_find hroot hdir
  obtain ⟨names₁, hlist₁, hperm₁⟩ := FileSystem.list_of_find hsessions hdir₁
  obtain ⟨names₂, hlist₂, hperm₂⟩ := FileSystem.list_of_find hreports hdir₂
  rw [FileTree.only_two_iff]
  constructor
  · rintro ⟨⟨ks, hks, hlayout⟩, hnil₁, hnil₂⟩
    rw [hlist] at hks
    cases hks
    rw [hlist₁] at hnil₁
    cases hnil₁
    rw [hlist₂] at hnil₂
    cases hnil₂
    refine ⟨fun k hk => ?_, hperm₁.nil_eq.symm, hperm₂.nil_eq.symm⟩
    simpa using (hperm.symm.trans hlayout).mem_iff.1 hk
  · rintro ⟨hentries, hnil₁, hnil₂⟩
    rw [hnil₁, List.perm_nil] at hperm₁
    rw [hnil₂, List.perm_nil] at hperm₂
    refine ⟨⟨names, hlist, hperm.trans ?_⟩, hperm₁ ▸ hlist₁, hperm₂ ▸ hlist₂⟩
    refine (List.perm_ext_iff_of_nodup (FileTree.nodup_children _ _) (by decide)).2 fun k => ⟨fun hk => ?_, ?_⟩
    · simpa using hentries k hk
    · simp only [List.mem_cons, List.not_mem_nil, or_false]
      rintro (rfl | rfl)
      · exact FileTree.mem_children.2 ⟨_, hdir₁⟩
      · exact FileTree.mem_children.2 ⟨_, hdir₂⟩

theorem Free.standing {base : Path} {d : Loc} {fs : FileSystem} (h : Free base d fs) :
    (under base).Standing (layOut fs d) := by
  refine standing_of_lead (h.grows.lead h.lead) h.sessionsFit h.reportsFit ?_ ?_ ?_
  all_goals
    rw [h.get?_layOut]
    simp

/-- Every path of a node below the root is one that the system takes. -/
def WithinReach (base : Path) (d : Loc) (fs : FileSystem) : Prop :=
  ∀ r x, fs.tree.get? (r ++ rootName :: d) = some x → ((under base).root.extend r).byteSize ≤ pathMax

theorem withinReach_iff {base : Path} {d : Loc} {fs : FileSystem} :
    WithinReach base d fs ↔ ∀ r, ¬ fs.OutOfReach (under base).root (rootName :: d) r :=
  FileSystem.forall_not_outOfReach.symm

/-- What is left once the root is removed and laid out is the empty layout, if all was in reach. -/
theorem wiped_layOut_iff {base : Path} {d : Loc} {fs fs' : FileSystem} (hfree : Free base d fs')
    (hreaps : FileSystem.Reaps (under base).root (rootName :: d) fs fs') :
    (under base).Wiped (layOut fs' d) ↔ WithinReach base d fs := by
  rw [wiped_iff hfree.standing (hfree.grows.lead hfree.lead)]
  constructor
  · intro hall r x hx
    by_cases hlong : pathMax < ((under base).root.extend r).byteSize
    · -- the node is left, so it would be of the layout, whose paths are short
      have hkept := (hreaps.kept r ⟨[], x, hx, hlong⟩).trans hx
      rcases hall r x (hfree.grows.tree _ _ hkept) with rfl | rfl | rfl
      · exact hfree.fits
      · exact hfree.sessionsFit
      · exact hfree.reportsFit
    · omega
  · intro hreach r x hx
    rw [hfree.get?_below] at hx
    split at hx
    · assumption
    · rw [hreaps.gone r (withinReach_iff.1 hreach r)] at hx
      cases hx

theorem Shows.wiped {base : Path} {d : Loc} {fs : FileSystem} (h : Shows base d .empty fs) :
    (under base).Wiped fs := by
  refine (wiped_iff h.standing h.lead_base).2 fun r x hx => ?_
  rw [h.image, Contents.nodeAt_empty] at hx
  split at hx
  · assumption
  · cases hx

theorem files_emptied_of_absent {base : Path} {h : Host}
    (hnone : ∀ d, h.files.lead base = .ok (.node d) → h.files.tree.get? d ≠ some .directory) :
    ((under base).emptied h).files = h.files ∧ ∀ x, h.files.status (under base).root ≠ .ok x := by
  constructor
  · rw [emptied, (Directory.removeTree_of_absent fun l hl => ?_).2, Host.files_note]
    rw [Host.files_note] at hl
    replace hl := (FileSystem.find_false_join (p := base) isEntryName_rootName.1).symm.trans hl
    obtain ⟨d, hd, rfl⟩ := FileSystem.lead_of_entry isEntryName_rootName.1 hl
    obtain ⟨x, hx⟩ := FileSystem.entry_reached hl
    exact hnone d hd (FileTree.get?_parent hx)
  · intro x hx
    obtain ⟨l, hl, -⟩ := FileSystem.find_of_node isEntryName_rootName.1 hx
    obtain ⟨d, hd, hdir, -⟩ := FileSystem.find_join isEntryName_rootName.1 hl
    exact hnone d hd hdir

theorem wiped_of_anchored {base : Path} {d : Loc} {h h' : Host} (ha : h.files.Anchored base rootName d)
    (hrun : (under base).deleteAll.run.run h = (.ok (), h')) :
    (under base).Wiped h'.files ↔ WithinReach base d h.files := by
  have hlaid := prepareAll_status ((run_deleteAll _ _).symm.trans hrun)
  obtain ⟨-, hreaps, hfree, h'', hrun', hfiles⟩ :=
    deleteAll_anchored ha (hlaid _ (sessions_mem _)).2 (hlaid _ (reports_mem _)).2
  rw [hrun] at hrun'
  cases hrun'
  rw [hfiles]
  exact wiped_layOut_iff hfree hreaps

theorem wiped_of_absent {base : Path} {h h' : Host} (hplain : h.files.Plain base)
    (hnone : ∀ d, h.files.lead base = .ok (.node d) → h.files.tree.get? d ≠ some .directory)
    (hrun : (under base).deleteAll.run.run h = (.ok (), h')) : (under base).Wiped h'.files := by
  obtain ⟨hfiles, hnew⟩ := files_emptied_of_absent hnone
  rw [← hfiles] at hplain hnew
  obtain ⟨d, hshows, -⟩ := prepareAll_shows hplain hnew ((run_deleteAll _ _).symm.trans hrun)
  exact hshows.wiped

theorem anchored_of_lead {base : Path} {d : Loc} {fs : FileSystem}
    (hbase : fs.Plain base ∨ ∃ e, fs.Avoids base rootName e) (hlead : fs.lead base = .ok (.node d))
    (hd : fs.tree.get? d = some .directory) : fs.Anchored base rootName d := by
  rcases hbase with hplain | ⟨e, he⟩
  · exact (hplain.spells hlead).anchored hd isEntryName_rootName.1
  · have hlead' := (FileSystem.shrinks_prune fs rootName e).lead he.lead
    rw [hlead] at hlead'
    cases hlead'
    exact he.anchored isEntryName_rootName.1

theorem avoids_root (fs : FileSystem) (n : String) : fs.Avoids ⟨"/"⟩ n [] :=
  ⟨FileTree.get?_root _, (FileSystem.spells_root _).lead (FileTree.get?_root _)⟩

theorem get?_atRoot (x : Node) : (atRoot x).files.tree.get? [rootName] = some x := by
  have hc : FileSystem.empty.tree.CanAdd [] rootName := by decide
  exact (FileSystem.get?_add hc x [rootName]).trans (if_pos rfl)

theorem atRoot_withinReach {x : Node} (hx : x ≠ .directory) : WithinReach ⟨"/"⟩ [] (atRoot x).files := by
  intro r y hy
  by_cases hr : r = []
  · subst hr
    exact rootFits (atRoot_fits x).2.2.1
  · rw [FileTree.get?_below_leaf (get?_atRoot x) hx ⟨r, rfl⟩ (by simpa using hr)] at hy
    cases hy

/-- However a deletion went that returns, the three directories are there again. Under a base that is
reached past the root, or goes straight down, the vault is wiped if all that was in it is in reach. -/
theorem deleteAll_wiped_iff {base : Path} {h h' : Host}
    (hrun : (under base).deleteAll.run.run h = (.ok (), h')) :
    (∀ p ∈ (under base).paths, h'.files.status p = .ok .directory) ∧
      (h.files.Plain base ∨ (∃ d, h.files.Avoids base rootName d) →
        ((under base).Wiped h'.files ↔
          ∀ d, h.files.lead base = .ok (.node d) → WithinReach base d h.files)) := by
  refine ⟨fun p hp => (prepareAll_status ((run_deleteAll _ _).symm.trans hrun) p hp).1, fun hbase => ?_⟩
  by_cases hdir : ∃ d, h.files.lead base = .ok (.node d) ∧ h.files.tree.get? d = some .directory
  · obtain ⟨d, hlead, hd⟩ := hdir
    rw [wiped_of_anchored (anchored_of_lead hbase hlead hd) hrun]
    constructor
    · intro hreach e he
      rw [hlead] at he
      cases he
      exact hreach
    · exact fun hall => hall d hlead
  · have hnone : ∀ d, h.files.lead base = .ok (.node d) → h.files.tree.get? d ≠ some .directory :=
      fun d hlead hd => hdir ⟨d, hlead, hd⟩
    have hwiped : (under base).Wiped h'.files := by
      rcases hbase with hplain | ⟨e, he⟩
      · exact wiped_of_absent hplain hnone hrun
      · exact absurd he.dir (hnone e ((FileSystem.shrinks_prune h.files rootName e).lead he.lead))
    -- no path goes on from a base that is no directory
    refine ⟨fun _ d hlead r x hx => ?_, fun _ => hwiped⟩
    obtain ⟨y, hy⟩ := FileTree.get?_of_append hx
    exact absurd (FileTree.get?_parent hy) (hnone d hlead)

def storing (text : String) : Host := ⟨(atRoot .directory).files.add [rootName] "crash" (.file text), {}, []⟩

theorem toList_storing (text : String) : (storing text).files.tree.toList =
    [([], .directory), ([rootName], .directory), (["crash", rootName], .file text)] := by rfl

theorem storing_withinReach (text : String) : WithinReach ⟨"/"⟩ [] (storing text).files := by
  intro r x hx
  have hmem := FileTree.mem_toList.2 hx
  rw [toList_storing] at hmem
  simp only [List.mem_cons, List.not_mem_nil, or_false, Prod.mk.injEq, List.append_eq_nil_iff, reduceCtorEq,
    and_false, false_and, false_or] at hmem
  rcases hmem with ⟨hr, -⟩ | ⟨hr, -⟩
  · obtain rfl : r = [] := by simpa using hr
    decide
  · obtain rfl : r = ["crash"] := List.append_cancel_right hr
    decide

theorem storing_wiped : ∃ h', (under ⟨"/"⟩).deleteAll.run.run (storing "text") = (.ok (), h') ∧
    (under ⟨"/"⟩).Wiped h'.files := by
  have hbase := avoids_root (storing "text").files rootName
  obtain ⟨-, -, -, h', hrun, -⟩ := deleteAll_anchored (hbase.anchored isEntryName_rootName.1)
    (atRoot_fits .directory).2.2.1 (atRoot_fits .directory).2.2.2
  refine ⟨h', hrun, ((deleteAll_wiped_iff hrun).2 (.inr ⟨[], hbase⟩)).2 fun d hd => ?_⟩
  have hroot := (FileSystem.spells_root (storing "text").files).lead (FileTree.get?_root _)
  rw [hroot] at hd
  cases hd
  exact storing_withinReach "text"

/-- So many directories one in the other are put in the directory at `d`. -/
def nest (fs : FileSystem) (d : Loc) : Nat → FileSystem
  | 0 => fs
  | k + 1 => (nest fs d k).add (List.replicate k "n" ++ d) "n" .directory

theorem get?_nest {fs : FileSystem} {d : Loc} (hd : fs.tree.get? d = some .directory)
    (hnone : fs.tree.get? ("n" :: d) = none) (k : Nat) :
    (nest fs d k).tree.get? (List.replicate k "n" ++ d) = some .directory ∧
      (nest fs d k).tree.get? ("n" :: (List.replicate k "n" ++ d)) = none := by
  induction k with
  | zero => exact ⟨hd, hnone⟩
  | succ k ih =>
    have hc : (nest fs d k).tree.CanAdd (List.replicate k "n" ++ d) "n" := ⟨ih.1, by decide, ih.2⟩
    rw [nest, FileSystem.get?_add hc, FileSystem.get?_add hc, List.replicate_succ, List.cons_append, if_pos rfl,
      if_neg (by simp)]
    exact ⟨rfl, FileTree.get?_append_of_none ih.2 ["n"]⟩

theorem within_nest {fs : FileSystem} {d : Loc} (hd : fs.tree.get? d = some .directory)
    (hnone : fs.tree.get? ("n" :: d) = none) (k : Nat) : fs.tree.Within (nest fs d k).tree := by
  induction k with
  | zero => exact .refl _
  | succ k ih =>
    obtain ⟨hdeepest, hfree⟩ := get?_nest hd hnone k
    exact ih.trans (FileTree.within_add ⟨hdeepest, by decide, hfree⟩ .directory)

/-- A host whose root holds directories one in the other, more of them than a path may have bytes. -/
def deepHost : Host := ⟨nest (atRoot .directory).files [rootName] pathMax, {}, []⟩

theorem deep_not_withinReach : ¬ WithinReach ⟨"/"⟩ [] deepHost.files := by
  intro hreach
  have hnone : (atRoot .directory).files.tree.get? ["n", rootName] = none := by rfl
  have hdeep := (get?_nest (get?_atRoot .directory) hnone pathMax).1
  have hshort := hreach _ _ hdeep
  have hlong := (Path.byteSize_extend (Path.text_join_ne (p := ⟨"/"⟩) isEntryName_rootName.1)
    (FileTree.isName_of_get? hdeep)).2
  have hroot : 0 < (under ⟨"/"⟩).root.byteSize := by decide
  rw [List.length_replicate] at hlong
  change (under ⟨"/"⟩).root.byteSize + pathMax ≤ ((under ⟨"/"⟩).root.extend _).byteSize at hlong
  omega

/-- Directories nested too deep are left, and deleting everything returns as if nothing were. -/
theorem deleteAll_leaves_deep : (under ⟨"/"⟩).Opened ∧
    ∃ h', (under ⟨"/"⟩).deleteAll.run.run deepHost = (.ok (), h') ∧ ¬ (under ⟨"/"⟩).Wiped h'.files := by
  have ha := (avoids_root deepHost.files rootName).anchored isEntryName_rootName.1
  obtain ⟨-, -, -, h', hrun, -⟩ := deleteAll_anchored ha (atRoot_fits .directory).2.2.1
    (atRoot_fits .directory).2.2.2
  exact ⟨opened_empty, h', hrun, fun hwiped => deep_not_withinReach ((wiped_of_anchored ha hrun).1 hwiped)⟩

theorem deleteAll_recovers {base : Path} {d : Loc} {h : Host} (hbase : h.files.Avoids base rootName d)
    (hreach : WithinReach base d h.files) (hs : (under base).sessions.byteSize ≤ pathMax)
    (hr : (under base).reports.byteSize ≤ pathMax) :
    ∃ h', (under base).deleteAll.run.run h = (.ok (), h') ∧ (under base).Standing h'.files ∧
      (under base).Wiped h'.files ∧ ∀ m, h'.files.tree.get? m =
        if m = rootName :: d ∨ m = sessionsName :: rootName :: d ∨ m = reportsName :: rootName :: d then
          some .directory
        else if rootName :: d <:+ m then none
        else h.files.tree.get? m := by
  obtain ⟨hclears, hreaps, hfree, h', hrun, hfiles⟩ :=
    deleteAll_anchored (hbase.anchored isEntryName_rootName.1) hs hr
  refine ⟨h', hrun, ?_⟩
  rw [hfiles]
  refine ⟨hfree.standing, (wiped_layOut_iff hfree hreaps).2 hreach, fun m => ?_⟩
  rw [hfree.get?_layOut]
  split
  · rfl
  · split
    · rename_i hm
      obtain ⟨r, rfl⟩ := hm
      exact hreaps.gone r (withinReach_iff.1 hreach r)
    · exact hclears.kept m ‹_›

/-- A link to itself in the place of the root, which bars the opening, is wiped away. -/
theorem recovers_from_loop : ∃ h', (under ⟨"/"⟩).deleteAll.run.run (atRoot (.link ⟨rootName⟩)) = (.ok (), h') ∧
    (under ⟨"/"⟩).Standing h'.files ∧ (under ⟨"/"⟩).Wiped h'.files := by
  obtain ⟨-, -, hs, hr⟩ := atRoot_fits (.link ⟨rootName⟩)
  obtain ⟨h', hrun, hstanding, hwiped, -⟩ := deleteAll_recovers
    (avoids_root (atRoot (.link ⟨rootName⟩)).files rootName) (atRoot_withinReach (by simp)) hs hr
  exact ⟨h', hrun, hstanding, hwiped⟩

end Vault
end CrashVault
