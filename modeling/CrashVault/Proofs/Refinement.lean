import CrashVault.Proofs.Follows

/-! A vault refines the three maps of its contents. Opened where there is no root yet, under a base that
is reached without `..` and links, it stays true to them through every run of calls, by however many vaults
under that base (`stores_refine_contents`). Opening makes nothing but the layout and what is missing of
the base (`openAt_shows`). -/

namespace CrashVault

theorem spell_append (a b : List String) (cur : Loc) : spell (a ++ b) cur = spell b (spell a cur) := by
  simp [spell]

namespace FileSystem

theorem startOf_of_begins {p q : Path} (h : q.Begins p) (hq : q.text ≠ "") (fs : FileSystem) :
    fs.startOf q = fs.startOf p := by
  obtain ⟨rest, hrest⟩ := h.1
  have habs : q.isAbsolute = p.isAbsolute := by
    cases hc : q.text.toList with
    | nil => exact absurd (by simpa using hc) hq
    | cons a cs =>
      rw [hc] at hrest
      rw [Path.isAbsolute, Path.isAbsolute, hc, ← hrest]
      rfl
  rw [startOf, startOf, habs]

theorem place_of_begins {fs : FileSystem} {base q : Path} {n : String} {d m : Loc} (hplain : fs.Plain base)
    (hbase : fs.lead base = .ok (.node d)) (hdir : fs.tree.get? (n :: d) = some .directory)
    (hbegins : q.Begins (base / n)) (hq : fs.find true q = .ok (.node m)) : m <:+ n :: d := by
  have hn := (FileTree.isEntryName_of_get? hdir).1
  have hstart := startOf_of_begins hbegins (locate_ok hq).1 fs
  have hlead := lead_of_find hq
  have hnames := hbegins.2
  rw [lead, hstart] at hlead
  rw [Path.names_join hn, List.prefix_concat_iff] at hnames
  rcases hnames with hnames | hnames
  · rw [hnames, ← Path.names_join hn] at hlead
    have hroot : fs.lead (base / n) = .ok (.node m) := hlead
    rw [lead_join hbase hdir] at hroot
    cases hroot
    exact List.suffix_refl _
  · -- the names go straight down, and their place is on the way to that of the base
    have hspells := hplain.spells hbase
    rw [startOf_join hn, hspells.lost, FileTree.walkOut] at hlead
    obtain ⟨rest, hrest⟩ := hnames
    have hm := FileTree.spell_of_walk (fun hup => hplain.1 (hrest ▸ List.mem_append_left _ hup))
      (fun ns hns => hplain.2 ns (hns.trans ⟨rest, hrest⟩)) hlead
    have hd := hspells.place
    rw [← hrest, spell_append, ← hm] at hd
    rw [hd]
    exact (suffix_spell rest m).trans (List.suffix_cons n _)

theorem Fills.plain {paths : Path → Prop} {fs fs' : FileSystem} (h : Fills paths fs fs') {p : Path}
    (hp : fs.Plain p) : fs'.Plain p := by
  refine ⟨hp.1, fun ns hns target hlink => ?_⟩
  rw [startOf, h.cwd] at hlink
  rcases h.added (spell ns (fs.startOf p).place) with hm | ⟨-, hm, -⟩
  · exact hp.2 ns hns target (hm ▸ hlink)
  · cases hm.symm.trans hlink

end FileSystem

namespace Directory

theorem absent_of_prepare {p : Path} {n : String} {d : Loc} {h₀ h : Host} {e : SystemError}
    (hspells : h.files.Spells p d) (hgrows : FileSystem.Grows h₀.files h.files)
    (hfits : (p / n).byteSize ≤ pathMax) (hs : h₀.files.status (p / n) = .error e)
    (hrun : (prepare (p / n)).run.run h₀ = (.ok (p / n), h)) : h₀.files.tree.get? (n :: d) = none := by
  have hstart : h₀.files.startOf p = h.files.startOf p := by
    rw [FileSystem.startOf, FileSystem.startOf, hgrows.cwd]
  have hspells₀ : h₀.files.Spells p d := ⟨hspells.straight, hstart ▸ hspells.lost, hstart ▸ hspells.place⟩
  cases hx : h₀.files.tree.get? (n :: d) with
  | none => rfl
  | some x =>
    have hn := (FileTree.isEntryName_of_get? hx).1
    have he := FileSystem.entry_of_get? hfits (hspells₀.lead (FileTree.get?_parent hx)) hx
    obtain ⟨h', hfails, -⟩ := prepare_blocked hn ⟨⟨_, he⟩, e, hs⟩
    rw [hrun] at hfails
    cases hfails

/-- Preparing a directory that is missing under a plain path makes it at the place spelled out. -/
theorem prepare_new {p : Path} {n : String} {h₀ h : Host} {e : SystemError} (hn : IsName n)
    (hplain : h₀.files.Plain p) (hs : h₀.files.status (p / n) = .error e)
    (hrun : (prepare (p / n)).run.run h₀ = (.ok (p / n), h)) :
    ∃ d, h.files.Spells p d ∧ h.files.lead p = .ok (.node d) ∧ (p / n).byteSize ≤ pathMax ∧
      h.files.tree.get? (n :: d) = some .directory ∧ h₀.files.tree.get? (n :: d) = none ∧
      ∀ m, h.files.tree.get? m = h₀.files.tree.get? m ∨
        h.files.tree.get? m = some .directory ∧ m <:+ n :: d := by
  have hfills := prepare_fills (Path.endsInSlash_join hn) hs
  rw [hrun] at hfills
  obtain ⟨l, hl, hdir⟩ := FileSystem.find_of_node hn (prepare_ok hrun).2
  have hfits := (FileSystem.locate_ok hl).2
  obtain ⟨d, hlead, -, b, hw⟩ := FileSystem.find_join hn hl
  have hplain' := hfills.plain hplain
  have hspells := hplain'.spells hlead
  have hnone := absent_of_prepare hspells hfills.toGrows hfits hs hrun
  have hplace : l = n :: d := by
    rcases FileTree.walk_last hn.2.1 hn.2.2.1 hw with ⟨hl, -⟩ | ⟨target, b', hlink, -⟩
    · exact hl
    · rcases hfills.added (n :: d) with hm | ⟨-, hm, -⟩
      · rw [hm, hnone] at hlink
        cases hlink
      · cases hm.symm.trans hlink
  subst hplace
  refine ⟨d, hspells, hlead, hfits, hdir, hnone, fun m => (hfills.added m).imp id ?_⟩
  rintro ⟨-, hm, q, ⟨hbegins, -⟩, hq⟩
  exact ⟨hm, FileSystem.place_of_begins hplain' hlead hdir hbegins hq⟩

end Directory

namespace Vault

theorem prepare_root {base : Path} {h₀ h : Host} (hplain : h₀.files.Plain base)
    (hnew : ∀ x, h₀.files.status (under base).root ≠ .ok x)
    (hroot : (Directory.prepare (under base).root).run.run h₀ = (.ok (under base).root, h)) :
    ∃ d, h.files.Spells base d ∧ h.files.Ready base rootName d ∧
      h.files.status (under base).root = .ok .directory ∧
      (∀ r, r ≠ [] → h.files.tree.get? (r ++ rootName :: d) = none) ∧
      ∀ m, ¬ rootName :: d <:+ m →
        h.files.tree.get? m = if m <:+ d then some .directory else h₀.files.tree.get? m := by
  cases hs : h₀.files.status (base / rootName) with
  | ok x => exact absurd hs (hnew x)
  | error e =>
    obtain ⟨d, hspells, hlead, hfits, hdir, hnone, hmade⟩ :=
      Directory.prepare_new isEntryName_rootName.1 hplain hs hroot
    have hbase := FileTree.get?_parent hdir
    have hready : h.files.Ready base rootName d := by
      refine ⟨hfits, hlead, hbase, isEntryName_rootName, fun x hx => ?_⟩
      exact Option.some.inj (hx.symm.trans hdir)
    refine ⟨d, hspells, hready, (Directory.prepare_ok hroot).2, fun r hr => ?_, fun m hm => ?_⟩
    · rcases hmade (r ++ rootName :: d) with hsame | ⟨-, hsuf⟩
      · rw [hsame]
        exact FileTree.get?_append_of_none hnone r
      · have hlen := hsuf.length_le
        have := List.length_pos_iff.2 hr
        rw [List.length_append] at hlen
        omega
    · split
      · rename_i hsuf
        by_cases he : m = d
        · rw [he, hbase]
        · exact FileTree.get?_of_isSuffix hbase hsuf he
      · rename_i hsuf
        rcases hmade m with hsame | ⟨-, hup⟩
        · exact hsame
        · rcases List.suffix_cons_iff.1 hup with he | hup
          · exact absurd (he ▸ List.suffix_refl _) hm
          · exact absurd hup hsuf

/-- Where the root is missing, preparing everything makes an empty vault. -/
theorem prepareAll_shows {base : Path} {h₀ h : Host} (hplain : h₀.files.Plain base)
    (hnew : ∀ x, h₀.files.status (base / rootName) ≠ .ok x)
    (hrun : (under base).prepareAll.run.run h₀ = (.ok (), h)) :
    ∃ d, Shows base d .empty h.files ∧ ∀ m, ¬ rootName :: d <:+ m →
      h.files.tree.get? m = if m <:+ d then some .directory else h₀.files.tree.get? m := by
  have hfits := prepareAll_status hrun
  obtain ⟨g₁, g₂, hroot, hsessions, hreports⟩ := prepareAll_cases hrun
  obtain ⟨d, hspells, hready, hstatus, hbelow, houtside⟩ := prepare_root hplain hnew hroot
  have habsent : ∀ r, r ≠ [] → ∀ x, g₁.files.tree.get? (r ++ rootName :: d) = some x → x = .directory := by
    intro r hr x hx
    rw [hbelow r hr] at hx
    cases hx
  have hfree : Free base d g₁.files :=
    ⟨hready, (hfits _ (sessions_mem _)).2, (hfits _ (reports_mem _)).2,
      habsent [sessionsName] (by simp), habsent [reportsName] (by simp)⟩
  -- the root is prepared already, so preparing everything from there does the same
  obtain ⟨h', hrun', hlaid⟩ := prepareAll_free hfree
  rw [prepareAll_of_prepare (Directory.prepare_of_directory hstatus) hsessions hreports] at hrun'
  cases hrun'
  rw [hlaid]
  exact ⟨d, hfree.shows_empty hspells hbelow, fun m hm => (hfree.get?_outside hm).trans (houtside m hm)⟩

theorem openAt_shows {base : Path} {h₀ h : Host} {v : Vault} (hplain : h₀.files.Plain base)
    (hnew : ∀ x, h₀.files.status (base / rootName) ≠ .ok x)
    (hopen : (openAt base).run.run h₀ = (.ok v, h)) :
    v = under base ∧ ∃ d, Shows base d .empty h.files ∧ ∀ m, ¬ rootName :: d <:+ m →
      h.files.tree.get? m = if m <:+ d then some .directory else h₀.files.tree.get? m := by
  obtain ⟨hv, g, hrun, hfiles⟩ := openAt_ok hopen
  rw [hfiles]
  exact ⟨hv, prepareAll_shows hplain hnew hrun⟩

theorem reopen_shows {base : Path} {d : Loc} {c : Contents} {h : Host} (hs : Shows base d c h.files) :
    ∃ h', (openAt base).run.run h = (.ok (under base), h') ∧ Shows base d c h'.files ∧
      KeepsOutside d h.files h'.files := by
  obtain ⟨h', hrun, hfiles⟩ := openAt_of_status hs.standing.status
  exact ⟨h', hrun, hfiles ▸ hs, hfiles ▸ .refl d _⟩

/-- All the vaults in use are the one under the base, and the tree shows the contents. -/
structure StoresShow (base : Path) (d : Loc) (c : Contents) (s : Stores) : Prop where
  first : s.first = under base
  more : ∀ v ∈ s.more, v = under base
  shows : Shows base d c s.host.files

theorem StoresShow.vault {base : Path} {d : Loc} {c : Contents} {s : Stores} (h : StoresShow base d c s)
    (k : Nat) : s.vault k = under base := by
  rw [Stores.vault, List.getD_eq_getElem?_getD]
  cases hk : (s.first :: s.more)[k]? with
  | none => exact h.first
  | some v =>
    rcases List.mem_cons.1 (List.mem_of_getElem? hk) with hv | hv
    · exact hv.trans h.first
    · exact h.more v hv

/-- Outside the root a run changes nothing, but that cleaning up takes away from the older layout. -/
def RunLeavesOutside (d : Loc) (acts : List Act) (fs fs' : FileSystem) : Prop :=
  ∀ m, ¬ rootName :: d <:+ m → fs'.tree.get? m = fs.tree.get? m ∨
    (∃ k, .on k .cleanupLegacy ∈ acts) ∧ legacyName :: d <:+ m ∧ fs'.tree.get? m = none

theorem RunLeavesOutside.append {d : Loc} {as bs : List Act} {a b c : FileSystem}
    (h1 : RunLeavesOutside d as a b) (h2 : RunLeavesOutside d bs b c) : RunLeavesOutside d (as ++ bs) a c := by
  intro m hm
  rcases h2 m hm with hsame | ⟨⟨k, hk⟩, hsuf, hnone⟩
  · rw [hsame]
    refine (h1 m hm).imp id ?_
    rintro ⟨⟨k, hk⟩, hrest⟩
    exact ⟨⟨k, List.mem_append_left _ hk⟩, hrest⟩
  · exact .inr ⟨⟨k, List.mem_append_right _ hk⟩, hsuf, hnone⟩

theorem act_follows {base : Path} {d : Loc} {c : Contents} {s : Stores} (h : StoresShow base d c s)
    {act : Act} (hfits : act.Fits (under base)) :
    c.AllowsAct (under base) (Swept d s.host.files (act.perform base s).2.host.files) act
        (act.perform base s).1 ∧
      StoresShow base d (c.stepAct act) (act.perform base s).2 ∧
      RunLeavesOutside d [act] s.host.files (act.perform base s).2.host.files := by
  cases act with
  | reopen =>
    obtain ⟨h', hrun, hshows, hkept⟩ := reopen_shows h.shows
    rw [Act.perform, hrun]
    dsimp only
    refine ⟨rfl, ⟨h.first, fun v hv => ?_, hshows⟩, fun m hm => .inl (hkept m hm)⟩
    rcases List.mem_append.1 hv with hv | hv
    · exact h.more v hv
    · exact List.mem_singleton.1 hv
  | on k call =>
    obtain ⟨hallowed, hshows, hout⟩ := follows h.shows hfits
    rw [Act.perform, h.vault k]
    dsimp only
    refine ⟨hallowed, ⟨h.first, h.more, hshows⟩, fun m hm => (hout m hm).imp id ?_⟩
    rintro ⟨rfl, hrest⟩
    exact ⟨⟨k, List.mem_singleton_self _⟩, hrest⟩

theorem run_follows {base : Path} {d : Loc} (acts : List Act) (hfits : ∀ act ∈ acts, act.Fits (under base)) :
    ∀ {c : Contents} {s : Stores}, StoresShow base d c s →
      StoresShow base d (acts.foldl Contents.stepAct c) (s.after base acts) ∧
        RunLeavesOutside d acts s.host.files (s.after base acts).host.files := by
  induction acts with
  | nil => exact fun h => ⟨h, fun _ _ => .inl rfl⟩
  | cons act acts ih =>
    intro c s h
    obtain ⟨-, hstep, hout⟩ := act_follows h (hfits act List.mem_cons_self)
    obtain ⟨hrun, hrest⟩ := ih (fun a ha => hfits a (List.mem_cons_of_mem _ ha)) hstep
    exact ⟨hrun, hout.append hrest⟩

theorem stores_refine_contents {base : Path} {h₀ h : Host} {v : Vault} (hplain : h₀.files.Plain base)
    (hnew : ∀ x, h₀.files.status (base / rootName) ≠ .ok x)
    (hopen : (openAt base).run.run h₀ = (.ok v, h)) :
    ∃ d, h.files.lead base = .ok (.node d) ∧
      (∀ m, ¬ rootName :: d <:+ m →
        h.files.tree.get? m = if m <:+ d then some .directory else h₀.files.tree.get? m) ∧
      ∀ acts : List Act, (∀ act ∈ acts, act.Fits v) →
        let s := Stores.after base ⟨v, [], h⟩ acts
        s.host.files.find true v.root = .ok (.node (rootName :: d)) ∧
        (∀ r, s.host.files.tree.get? (r ++ rootName :: d) = (Contents.after acts).nodeAt r) ∧
        RunLeavesOutside d acts h.files s.host.files ∧
        ∀ act : Act, act.Fits v → (Contents.after acts).AllowsAct v
          (Swept d s.host.files (act.perform base s).2.host.files) act (act.perform base s).1 := by
  obtain ⟨rfl, d, hshows, houtside⟩ := openAt_shows hplain hnew hopen
  refine ⟨d, hshows.lead_base, houtside, fun acts hfits => ?_⟩
  have hstart : StoresShow base d .empty ⟨under base, [], h⟩ := ⟨rfl, by simp, hshows⟩
  obtain ⟨hrun, hleaves⟩ := run_follows acts hfits hstart
  change StoresShow base d (Contents.after acts) _ at hrun
  refine ⟨hrun.shows.find (r := []) rfl, ?_, hleaves, fun act hact => ?_⟩
  · exact hrun.shows.image
  · exact (act_follows hrun hact).1

theorem stores_refine_contents_root : ∃ h, (openAt ⟨"/"⟩).run.run ⟨.empty, {}, []⟩ = (.ok (under ⟨"/"⟩), h) ∧
    let s := Stores.after ⟨"/"⟩ ⟨under ⟨"/"⟩, [], h⟩ [.reopen, .on 1 (.commonFile "user" (some "text"))]
    s.host.files.tree.get? ["user", rootName] = some (.file "text") := by
  obtain ⟨h, hrun, -⟩ := openAt_free (h := ⟨.empty, {}, []⟩) free_empty
  have hnew : ∀ x, FileSystem.empty.status ((⟨"/"⟩ : Path) / rootName) ≠ .ok x := by
    intro x hx
    rw [(free_empty.toReady.vacant (FileTree.get?_empty (by simp))).status] at hx
    cases hx
  obtain ⟨d, hlead, -, hacts⟩ := stores_refine_contents (FileSystem.plain_root _) hnew hrun
  have hd : h.files.lead ⟨"/"⟩ = .ok (.node []) := (FileSystem.spells_root _).lead (FileTree.get?_root _)
  rw [hd] at hlead
  cases hlead
  have hfits : ∀ act ∈ [Act.reopen, .on 1 (.commonFile "user" (some "text"))],
      act.Fits (under ⟨"/"⟩) := by
    intro act hact
    simp only [List.mem_cons, List.not_mem_nil, or_false] at hact
    rcases hact with rfl | rfl
    · exact trivial
    · exact ⟨by decide, by decide, by decide, by decide⟩
  refine ⟨h, hrun, ((hacts _ hfits).2.1 ["user"]).trans ?_⟩
  have h1 : "user" ≠ sessionsName := by decide
  have h2 : "user" ≠ reportsName := by decide
  exact (Contents.nodeAt_setCommon h1 h2 (some "text") ["user"]).trans (if_pos rfl)

end Vault
end CrashVault
