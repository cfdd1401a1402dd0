import CrashVault.Proofs.Prepare
import CrashVault.Proofs.Survivors

/-! The same work asked for by two paths that mean the same. On equal files, listing, removing and preparing
go alike step by step: what they answer differs in the path only, and the files they leave are equal again
(`listing_alongside`, `removeTree_alongside`, `prepare_alongside`). The paths are looked up anew for every
step, so each step keeps what makes them mean the same. -/

namespace CrashVault
namespace FileSystem

/-- The path leads to the place as long as a directory is there, whatever is removed from that, and every
path of what is there or below is one that the system takes. -/
structure Reaches (fs : FileSystem) (p : Path) (l : Loc) : Prop where
  held : fs.Held p l
  fits : ∀ r x, fs.tree.get? (r ++ l) = some x → (p.extend r).byteSize ≤ pathMax

theorem Reaches.clears {fs fs' : FileSystem} {p : Path} {l : Loc} (h : fs.Reaches p l)
    (hc : Clears l fs fs') : fs'.Reaches p l :=
  ⟨h.held.clears hc, fun r x hx => h.fits r x (hc.tree _ _ hx)⟩

theorem Reaches.child {fs : FileSystem} {p : Path} {k : String} {l : Loc} (h : fs.Reaches p l)
    (ha : fs.Anchored p k l) : fs.Reaches (p / k) (k :: l) := by
  refine ⟨ha.held, fun r x hx => ?_⟩
  have hfits := h.fits (r ++ [k]) x (by simpa using hx)
  rwa [Path.extend_append] at hfits

theorem list_congr {fs : FileSystem} {p p' : Path} (h : fs.find true p' = fs.find true p) :
    fs.list p' = fs.list p := by
  rw [list, list, h]

theorem status_congr {fs : FileSystem} {p p' : Path} (h : fs.find true p' = fs.find true p) :
    fs.status p' = fs.status p := by
  rw [status, status, node, node, h]

theorem remove_congr {fs : FileSystem} {p p' : Path} {n : String} (hn : IsName n)
    (h : fs.entry (p' / n) = fs.entry (p / n)) : fs.remove (p' / n) = fs.remove (p / n) := by
  rw [remove_join hn, remove_join hn, h]

/-- At one place, and there alone, a directory may be where something else or nothing was. -/
structure Mends (l : Loc) (fs fs' : FileSystem) : Prop where
  steps : ∃ mid, Clears l fs mid ∧ mid.Grows fs'
  node : ∀ m, fs'.tree.get? m = fs.tree.get? m ∨ m = l ∧ fs'.tree.get? m = some .directory

theorem Mends.refl (l : Loc) (fs : FileSystem) : Mends l fs fs :=
  ⟨⟨fs, .refl l fs, .refl fs⟩, fun _ => .inl rfl⟩

theorem Mends.directory {fs fs' : FileSystem} {l m : Loc} (h : Mends l fs fs')
    (hm : fs.tree.get? m = some .directory) : fs'.tree.get? m = some .directory := by
  rcases h.node m with hsame | ⟨-, hdir⟩
  · rw [hsame, hm]
  · exact hdir

theorem mends_add {fs : FileSystem} {d : Loc} {n : String} (h : fs.tree.CanAdd d n) :
    Mends (n :: d) fs (fs.add d n .directory) := by
  refine ⟨⟨fs, .refl _ fs, grows_add h _⟩, fun m => ?_⟩
  rw [get?_add h]
  split
  · exact .inr ⟨‹_›, rfl⟩
  · exact .inl rfl

theorem mends_replace {fs : FileSystem} {d : Loc} {n : String} (hdead : fs.tree.DeadEnd n d)
    (h : (fs.prune (n :: d)).tree.CanAdd d n) :
    Mends (n :: d) fs ((fs.prune (n :: d)).add d n .directory) := by
  refine ⟨⟨_, clears_prune fs n d, grows_add h _⟩, fun m => ?_⟩
  rw [get?_add h]
  split
  · exact .inr ⟨‹_›, rfl⟩
  · exact .inl (hdead.get?_prune_of_ne ‹_›)

/-- The file system with a directory called `n` in the directory at `d`, in the place of what may be there. -/
def furnish (fs : FileSystem) (d : Loc) (n : String) : FileSystem :=
  match fs.tree.get? (n :: d) with
  | none => fs.add d n .directory
  | some .directory => fs
  | some _ => (fs.prune (n :: d)).add d n .directory

end FileSystem

namespace Directory

open FileSystem

variable {h h' : Host}

theorem listing_alongside {p p' : Path} (hfiles : h'.files = h.files)
    (hfind : h.files.find true p' = h.files.find true p) (keep : String → Bool) :
    ∃ names : List String, (∀ n ∈ names, IsName n) ∧ ((listing p keep).run h).1 = names.map (p / ·) ∧
      ((listing p' keep).run h').1 = names.map (p' / ·) := by
  have hlist := list_congr hfind
  rw [run_listing, run_listing, hfiles, hlist]
  cases hnames : h.files.list p with
  | ok names =>
    refine ⟨names.filter keep, fun n hn => ?_, rfl, rfl⟩
    exact (isEntryName_of_list hnames (List.mem_filter.1 hn).1).1
  | error e => exact ⟨[], by simp, rfl, rfl⟩

theorem removeEntry_alongside {p p' : Path} (hfiles : h'.files = h.files)
    (hremove : h.files.remove p' = h.files.remove p) :
    ((removeEntry p').run h').1 = ((removeEntry p).run h).1 ∧
      ((removeEntry p').run h').2.files = ((removeEntry p).run h).2.files := by
  rw [run_removeEntry, run_removeEntry, hfiles, hremove]
  rcases h.files.remove p with e | files
  · cases e <;> simp [hfiles]
  · exact ⟨rfl, rfl⟩

theorem sweep_alongside {p p' : Path} {l : Loc} {names : List String} (hnames : ∀ k ∈ names, IsName k)
    (hchild : ∀ k ∈ names, ∀ h h' : Host, h'.files = h.files → h.files.Anchored p k l →
      h.files.Anchored p' k l → h.files.Reaches (p / k) (k :: l) → h.files.Reaches (p' / k) (k :: l) →
        ((removeTree (p' / k)).run h').2.files = ((removeTree (p / k)).run h).2.files)
    (hfiles : h'.files = h.files) (hdir : names ≠ [] → h.files.tree.get? l = some .directory)
    (hp : h.files.Reaches p l) (hp' : h.files.Reaches p' l) :
    (sweep (names.map (p' / ·)) h').files = (sweep (names.map (p / ·)) h).files ∧
      Clears l h.files (sweep (names.map (p / ·)) h).files := by
  induction names generalizing h h' with
  | nil => exact ⟨hfiles, .refl l _⟩
  | cons k names ih =>
    have hl := hdir (by simp)
    have hk := hnames k List.mem_cons_self
    have ha := hp.held.anchored hl hk
    have ha' := hp'.held.anchored hl hk
    have hsame := hchild k List.mem_cons_self h h' hfiles ha ha' (hp.child ha) (hp'.child ha')
    have hclears := clears_of_anchored ha
    have hup := hclears.up (List.suffix_cons k l)
    obtain ⟨hrest, hall⟩ := ih (fun j hj => hnames j (List.mem_cons_of_mem _ hj))
      (fun j hj => hchild j (List.mem_cons_of_mem _ hj)) hsame
      (fun _ => (hclears.kept l (not_suffix_self k l)).trans hl) (hp.clears hup) (hp'.clears hup)
    exact ⟨hrest, hup.trans hall⟩

theorem removeTree_alongside_of_entry {q q' : Path} {n : String} {d : Loc} {x : Node}
    (hx : h.files.tree.get? (n :: d) = some x) (hfiles : h'.files = h.files)
    (ha : h.files.Anchored q n d) (ha' : h.files.Anchored q' n d)
    (hr : h.files.Reaches (q / n) (n :: d)) (hr' : h.files.Reaches (q' / n) (n :: d))
    (hbelow : ∀ k, IsName k → ∀ g g' : Host, g'.files = g.files → g.files.Anchored (q / n) k (n :: d) →
      g.files.Anchored (q' / n) k (n :: d) → g.files.Reaches (q / n / k) (k :: n :: d) →
      g.files.Reaches (q' / n / k) (k :: n :: d) →
        ((removeTree (q' / n / k)).run g').2.files = ((removeTree (q / n / k)).run g).2.files) :
    ((removeTree (q' / n)).run h').1.removed = ((removeTree (q / n)).run h).1.removed ∧
      ((removeTree (q' / n)).run h').2.files = ((removeTree (q / n)).run h).2.files := by
  have hlen : (q / n).byteSize ≤ pathMax := hr.fits [] x hx
  have hlen' : (q' / n).byteSize ≤ pathMax := hr'.fits [] x hx
  have hfalse : ∀ {p : Path}, h.files.Anchored p n d → (p / n).byteSize ≤ pathMax →
      h.files.find false (p / n) = .ok (.node (n :: d)) := by
    intro p hp hfits
    rw [find_false_join hp.isName, hp.entry hfits, FileTree.enter_of_get? hx]
  have hlisted := run_below_of_find (hfalse ha hlen) hx
  have hlisted' := run_below_of_find (h := h') (hfiles ▸ hfalse ha' hlen') (hfiles ▸ hx)
  rw [hfiles] at hlisted'
  have hin : ∀ k ∈ h.files.order.arrange (n :: d) (h.files.tree.children (n :: d)),
      ∃ y, h.files.tree.get? (k :: n :: d) = some y := fun k hk =>
    FileTree.mem_children.1 ((h.files.order.perm _ _).subset hk)
  generalize h.files.order.arrange (n :: d) (h.files.tree.children (n :: d)) = names
    at hlisted hlisted' hin
  have hnames : ∀ k ∈ names, IsName k := by
    intro k hk
    obtain ⟨y, hy⟩ := hin k hk
    exact (FileTree.isEntryName_of_get? hy).1
  have hdir : names ≠ [] → h.files.tree.get? (n :: d) = some .directory := by
    intro hne
    obtain ⟨k, hk⟩ := List.exists_mem_of_ne_nil names hne
    obtain ⟨y, hy⟩ := hin k hk
    exact FileTree.get?_parent hy
  obtain ⟨hswept, hclears⟩ := sweep_alongside hnames (fun k hk => hbelow k (hnames k hk)) hfiles hdir hr hr'
  obtain ⟨hremoved, hleft⟩ := run_removeTree (q / n) h
  obtain ⟨hremoved', hleft'⟩ := run_removeTree (q' / n) h'
  rw [hlisted] at hremoved hleft
  rw [hlisted'] at hremoved' hleft'
  rw [hremoved, hleft, hremoved', hleft']
  -- the entry itself is still found by both paths
  apply removeEntry_alongside hswept
  apply remove_congr ha.isName
  rw [(ha.clears hclears).entry hlen, (ha'.clears hclears).entry hlen']

/-- Removing an entry by two paths takes the same away, in the same order. -/
theorem removeTree_alongside (p : Path) : ∀ {q q' : Path} {n : String} {d : Loc} {h h' : Host}, p = q / n →
    h'.files = h.files → h.files.Anchored q n d → h.files.Anchored q' n d →
    h.files.Reaches (q / n) (n :: d) → h.files.Reaches (q' / n) (n :: d) →
    ((removeTree (q' / n)).run h').1.removed = ((removeTree (q / n)).run h).1.removed ∧
      ((removeTree (q' / n)).run h').2.files = ((removeTree (q / n)).run h).2.files := by
  induction p using path_induction with
  | step p ih =>
    rintro q q' n d h h' rfl hfiles ha ha' hr hr'
    cases hx : h.files.tree.get? (n :: d) with
    | none =>
      obtain ⟨hno, hsame⟩ := removeTree_of_none ha hx
      obtain ⟨hno', hsame'⟩ := removeTree_of_none (hfiles ▸ ha') (hfiles ▸ hx)
      rw [hno, hsame, hno', hsame']
      exact ⟨rfl, hfiles⟩
    | some x =>
      refine removeTree_alongside_of_entry hx hfiles ha ha' hr hr' fun k hk g g' hg hak hak' hrk hrk' => ?_
      have hlonger : (q / n).byteSize < (q / n / k).byteSize :=
        Path.byteSize_join hk (Path.text_join_ne (p := q) ha.isName)
      exact (ih _ (hr.fits [] x hx) hlonger rfl hg hak hak' hrk hrk').2

theorem prepare_real {q : Path} {n : String} {d : Loc} (hn : IsEntryName n)
    (hfits : (q / n).byteSize ≤ pathMax) (hlead : h.files.lead q = .ok (.node d))
    (hd : h.files.tree.get? d = some .directory)
    (hlink : ∀ target, h.files.tree.get? (n :: d) ≠ some (.link target)) :
    ∃ g, (prepare (q / n)).run.run h = (.ok (q / n), g) ∧ g.files = h.files.furnish d n ∧
      g.files.tree.get? (n :: d) = some .directory ∧ Mends (n :: d) h.files g.files := by
  cases hx : h.files.tree.get? (n :: d) with
  | none =>
    have hv : h.files.Vacant q n d := ⟨hfits, hlead, hd, hn, hx⟩
    obtain ⟨hok, hg⟩ := prepare_vacant hv
    refine ⟨_, Prod.ext hok rfl, ?_, ?_, ?_⟩
    · rw [hg, furnish, hx]
    · rw [hg, get?_add hv.canAdd, if_pos rfl]
    · rw [hg]
      exact mends_add hv.canAdd
  | some x =>
    have hreal : ∀ target, x ≠ .link target := fun target ht => hlink target (ht ▸ hx)
    have hs : h.files.status (q / n) = .ok x := node_of_find (find_of_get? hfits hlead hx hreal true) hx
    by_cases hdir : x = .directory
    · subst hdir
      exact ⟨h, prepare_of_directory hs, by rw [furnish, hx], hx, .refl _ _⟩
    · obtain ⟨e, g, he, hdead, hv, hrun, hg⟩ := prepare_replaces hn.1 hs hdir
      rw [entry_of_get? hfits hlead hx] at he
      cases he
      refine ⟨g, hrun, ?_, ?_, ?_⟩
      · rw [hg, furnish, hx]
        cases x with
        | directory => exact absurd rfl hdir
        | file text => rfl
        | link target => rfl
      · rw [hg, get?_add hv.canAdd, if_pos rfl]
      · rw [hg]
        exact mends_replace hdead hv.canAdd

theorem prepare_alongside_of_status {q q' : Path} {n : String} {d : Loc} {x : Node} (hfiles : h'.files = h.files)
    (hn : IsName n) (hlead : h.files.lead q = .ok (.node d)) (hlead' : h.files.lead q' = .ok (.node d))
    (hs : h.files.status (q / n) = .ok x) (hs' : h.files.status (q' / n) = .ok x) :
    ∃ g g', g'.files = g.files ∧ Mends (n :: d) h.files g.files ∧
      (prepare (q / n)).run.run h = (.ok (q / n), g) ∧ (prepare (q' / n)).run.run h' = (.ok (q' / n), g') := by
  by_cases hx : x = .directory
  · subst hx
    exact ⟨h, h', hfiles, .refl _ _, prepare_of_directory hs, prepare_of_directory (hfiles ▸ hs')⟩
  · have hplace : ∀ {p : Path} {e : Loc}, h.files.lead p = .ok (.node d) →
        h.files.entry (p / n) = .ok (.node (n :: e)) → e = d := by
      intro p e hp he
      obtain ⟨l, hl, hm⟩ := lead_of_entry hn he
      rw [hp] at hl
      cases hl
      exact (List.cons.inj hm).2
    obtain ⟨e, g, he, hdead, hv, hrun, hg⟩ := prepare_replaces hn hs hx
    obtain ⟨e', g', he', -, -, hrun', hg'⟩ := prepare_replaces (h := h') hn (hfiles ▸ hs') hx
    rw [hfiles] at he' hg'
    obtain rfl := hplace hlead he
    obtain rfl := hplace hlead' he'
    refine ⟨g, g', hg'.trans hg.symm, ?_, hrun, hrun'⟩
    rw [hg]
    exact mends_replace hdead hv.canAdd

/-- A directory is prepared under two paths that lead to the same: for both it is there then, or for both it
could not be made. -/
theorem prepare_alongside {q q' : Path} {n : String} {d : Loc} (hfiles : h'.files = h.files)
    (hn : IsEntryName n) (hd : h.files.tree.get? d = some .directory) (hlead : h.files.lead q = .ok (.node d))
    (hlead' : h.files.lead q' = .ok (.node d)) (hfits : (q / n).byteSize ≤ pathMax)
    (hfits' : (q' / n).byteSize ≤ pathMax)
    (hstatus : h.files.status (q' / n) = h.files.status (q / n)) :
    ∃ g g', g'.files = g.files ∧ Mends (n :: d) h.files g.files ∧
      ((prepare (q / n)).run.run h = (.ok (q / n), g) ∧ (prepare (q' / n)).run.run h' = (.ok (q' / n), g') ∨
        (prepare (q / n)).run.run h = (.error (.unpreparedDirectory (q / n)), g) ∧
          (prepare (q' / n)).run.run h' = (.error (.unpreparedDirectory (q' / n)), g')) := by
  cases hs : h.files.status (q / n) with
  | ok x =>
    obtain ⟨g, g', hg, hmends, hrun⟩ :=
      prepare_alongside_of_status hfiles hn.1 hlead hlead' hs (hstatus.trans hs)
    exact ⟨g, g', hg, hmends, .inl hrun⟩
  | error e =>
    cases hx : h.files.tree.get? (n :: d) with
    | none =>
      have hv : h.files.Vacant q n d := ⟨hfits, hlead, hd, hn, hx⟩
      have hv' : h'.files.Vacant q' n d := hfiles ▸ ⟨hfits', hlead', hd, hn, hx⟩
      obtain ⟨hok, hg⟩ := prepare_vacant hv
      obtain ⟨hok', hg'⟩ := prepare_vacant hv'
      refine ⟨_, _, ?_, ?_, .inl ⟨Prod.ext hok rfl, Prod.ext hok' rfl⟩⟩
      · rw [hg, hg', hfiles]
      · rw [hg]
        exact mends_add hv.canAdd
    | some x =>
      -- the entry is a link that leads nowhere, and it stays
      have hb : h.files.Blocked (q / n) := ⟨⟨_, entry_of_get? hfits hlead hx⟩, e, hs⟩
      have hb' : h'.files.Blocked (q' / n) :=
        hfiles ▸ ⟨⟨_, entry_of_get? hfits' hlead' hx⟩, e, hstatus.trans hs⟩
      obtain ⟨g, hrun, hg⟩ := prepare_blocked hn.1 hb
      obtain ⟨g', hrun', hg'⟩ := prepare_blocked hn.1 hb'
      refine ⟨g, g', hg'.trans (hfiles.trans hg.symm), ?_, .inr ⟨hrun, hrun'⟩⟩
      rw [hg]
      exact .refl _ _

end Directory
end CrashVault
