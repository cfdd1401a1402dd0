import CrashVault.Proofs.Reopening
import Mathlib.Data.List.Induction

/-! Access to a vault whose directories have been spoiled since it was opened. Preparing a directory makes
those above it that are missing, and replaces a file in its own place, but not one that stands in the place
of a directory above it (`prepare_extend`). So the paths of common files are always given out, and those of
session files unless a file stands at the root or in the place of the sessions (`access_heals`). -/

namespace CrashVault
namespace Path

/-- The paths that lead down from a path by the names of a place below it, the outermost first. -/
def chain (p : Path) : Loc → List Path
  | [] => []
  | n :: r => p.chain r ++ [p.extend (n :: r)]

theorem length_chain (p : Path) (r : Loc) : (p.chain r).length = r.length := by
  induction r with
  | nil => rfl
  | cons n r ih => rw [chain, List.length_append, ih, List.length_singleton, List.length_cons]

theorem parent_join_join {p : Path} {n k : String} (hn : IsName n) (hk : IsName k) :
    (p / n / k).parent = p / n := by
  obtain ⟨r, hr, -, -⟩ := reverse_join (p := p) hn
  obtain ⟨c, cs, hc⟩ := List.exists_cons_of_ne_nil (l := n.toList.reverse) (by simpa using hn.1)
  have hslash : c ≠ '/' := by simpa using ne_slash_of_mem_reverse hn c (by simp [hc])
  have htrim : (p / n).text.toList.reverse.dropWhile (· = '/') = (p / n).text.toList.reverse := by
    rw [hr, hc, List.cons_append, List.dropWhile_cons_of_neg (by simpa using hslash)]
  have hne : (p / n).text.toList.reverse ≠ [] := by
    rw [hr, hc]
    simp
  rw [parent_join hk, htrim, if_neg fun h => hne h.1, List.reverse_reverse, String.ofList_toList]

theorem byteSize_le_join {p : Path} {n : String} (hn : IsName n) : p.byteSize ≤ (p / n).byteSize := by
  by_cases hp : p.text = ""
  · rw [byteSize, hp]
    exact Nat.zero_le _
  · exact Nat.le_of_lt (byteSize_join hn hp)

theorem byteSize_le_extend (p : Path) {r : Loc} (hr : ∀ k ∈ r, IsName k) :
    p.byteSize ≤ (p.extend r).byteSize := by
  induction r with
  | nil => exact Nat.le_refl _
  | cons k r ih =>
    exact Nat.le_trans (ih fun j hj => hr j (List.mem_cons_of_mem _ hj))
      (byteSize_le_join (hr k List.mem_cons_self))

theorem exists_extend (p : Path) {n : String} (hn : IsName n) {r : Loc} (hr : ∀ k ∈ r, IsName k) :
    ∃ (q : Path) (k : String), IsName k ∧ (p / n).extend r = q / k := by
  cases r with
  | nil => exact ⟨p, n, hn, rfl⟩
  | cons k r => exact ⟨(p / n).extend r, k, hr k List.mem_cons_self, rfl⟩

theorem names_extend (p : Path) {r : Loc} (hr : ∀ k ∈ r, IsName k) :
    (p.extend r).names.length = p.names.length + r.length := by
  induction r with
  | nil => rfl
  | cons k r ih =>
    rw [extend_cons, names_join (hr k List.mem_cons_self), List.length_append,
      ih fun j hj => hr j (List.mem_cons_of_mem _ hj)]
    rfl

end Path

namespace FileSystem

/-- The path leads nowhere, for a reason that says so. -/
def Absent (fs : FileSystem) (p : Path) : Prop := ∃ e, fs.status p = .error e ∧ e.saysAbsent = true

theorem absent_below {fs : FileSystem} {p : Path} {n k : String} (hn : IsName n) (hk : IsName k)
    (hfits : (p / n / k).byteSize ≤ pathMax)
    (h : fs.Absent (p / n) ∨ ∃ text, fs.status (p / n) = .ok (.file text)) : fs.Absent (p / n / k) := by
  refine (missing_below hn hk hfits (fun hdir => ?_) fun e he => ?_).2
  · rcases h with ⟨e, he, -⟩ | ⟨text, hs⟩
    · rw [hdir] at he
      cases he
    · rw [hdir] at hs
      cases hs
  · rcases h with ⟨e', he', habsent⟩ | ⟨text, hs⟩
    · rw [he] at he'
      cases he'
      exact habsent
    · rw [he] at hs
      cases hs

theorem absent_extend {fs : FileSystem} {p : Path} {n : String} (hn : IsName n) (h : fs.Absent (p / n))
    {r : Loc} (hr : ∀ k ∈ r, IsName k) (hfits : ((p / n).extend r).byteSize ≤ pathMax) :
    fs.Absent ((p / n).extend r) := by
  induction r with
  | nil => exact h
  | cons k r ih =>
    have hk := hr k List.mem_cons_self
    have hr' : ∀ j ∈ r, IsName j := fun j hj => hr j (List.mem_cons_of_mem _ hj)
    rw [Path.extend_cons] at hfits ⊢
    have habove := ih hr' (Nat.le_trans (Path.byteSize_le_join hk) hfits)
    obtain ⟨q, j, hj, hq⟩ := Path.exists_extend p hn hr'
    rw [hq] at habove hfits ⊢
    exact absent_below hj hk hfits (.inl habove)

/-- The missing directories below a missing one are made after those that it needs. -/
theorem missingDirs_extend {fs : FileSystem} {p : Path} {n : String} (hn : IsName n) (h : fs.Absent (p / n))
    {r : Loc} (hr : ∀ k ∈ r, IsName k) (hfits : ((p / n).extend r).byteSize ≤ pathMax) {below : List Path}
    (hmax : below.length + r.length ≤ makeDirsMax) (up : Nat) :
    fs.missingDirs (up + r.length) ((p / n).extend r) below =
      fs.missingDirs up (p / n) ((p / n).chain r ++ below) := by
  induction r generalizing below with
  | nil => rfl
  | cons k r ih =>
    have hk := hr k List.mem_cons_self
    have hr' : ∀ j ∈ r, IsName j := fun j hj => hr j (List.mem_cons_of_mem _ hj)
    rw [List.length_cons] at hmax
    rw [Path.extend_cons] at hfits
    have hfits' := Nat.le_trans (Path.byteSize_le_join hk) hfits
    obtain ⟨e, he, habsent⟩ := absent_extend hn h hr' hfits'
    obtain ⟨q, j, hj, hq⟩ := Path.exists_extend p hn hr'
    have hparent : ((p / n).extend (k :: r)).parent = (p / n).extend r := by
      rw [Path.extend_cons, hq, Path.parent_join_join hj hk]
    have htext : ((p / n).extend r).text ≠ "" := hq ▸ Path.text_join_ne hj
    have hname : ((p / n).extend (k :: r)).fileName = k := Path.fileName_join hk
    rw [List.length_cons, ← Nat.add_assoc, missingDirs, hparent, hname, he]
    simp only [hk.2.1, hk.2.2.1, or_self, if_false, List.length_cons, htext, habsent, if_true]
    rw [if_neg (by omega), ih hr' hfits' (by rw [List.length_cons]; omega), Path.chain, List.append_assoc]
    rfl

structure Bare (fs : FileSystem) (p : Path) (d : Loc) : Prop where
  lead : fs.lead p = .ok (.node d)
  dir : fs.tree.get? d = some .directory
  empty : ∀ n, fs.tree.get? (n :: d) = none

theorem Vacant.bare {fs : FileSystem} {p : Path} {n : String} {d : Loc} (h : fs.Vacant p n d) :
    (fs.add d n .directory).Bare (p / n) (n :: d) := by
  have hnew : (fs.add d n .directory).tree.get? (n :: d) = some .directory := by
    rw [get?_add h.canAdd, if_pos rfl]
  refine ⟨lead_join ((grows_add h.canAdd _).lead h.lead) hnew, hnew, fun k => ?_⟩
  rw [get?_add h.canAdd, if_neg (by simp)]
  exact FileTree.get?_append_of_none h.canAdd.2.2 [k]

theorem Bare.status {fs : FileSystem} {p : Path} {d : Loc} (h : fs.Bare p d) (hp : p.text ≠ "")
    (hfits : p.byteSize ≤ pathMax) : fs.status p = .ok .directory :=
  node_of_find (find_of_lead hp hfits h.lead h.dir) h.dir

theorem Bare.vacant {fs : FileSystem} {p : Path} {n : String} {d : Loc} (h : fs.Bare p d)
    (hn : IsEntryName n) (hfits : (p / n).byteSize ≤ pathMax) : fs.Vacant p n d :=
  ⟨hfits, h.lead, h.dir, hn, h.empty n⟩

/-- In an empty directory the directories that lead down are made one in the other. -/
theorem Bare.makeEach_chain {fs : FileSystem} {p : Path} {d : Loc} (h : fs.Bare p d) {r : Loc}
    (hr : ∀ k ∈ r, IsEntryName k) (hfits : (p.extend r).byteSize ≤ pathMax) (rest : List Path) :
    ∃ fs' : FileSystem, fs.makeEach (p.chain r ++ rest) = fs'.makeEach rest ∧
      fs'.Bare (p.extend r) (r ++ d) := by
  induction r generalizing rest with
  | nil => exact ⟨fs, rfl, h⟩
  | cons k r ih =>
    have hk := hr k List.mem_cons_self
    have hfits' := Nat.le_trans (Path.byteSize_le_join hk.1) hfits
    obtain ⟨fs', hmade, hbare⟩ := ih (fun j hj => hr j (List.mem_cons_of_mem _ hj)) hfits'
      (p.extend (k :: r) :: rest)
    have hvacant := hbare.vacant hk hfits
    refine ⟨fs'.add (r ++ d) k .directory, ?_, hvacant.bare⟩
    rw [Path.chain, List.append_assoc, List.singleton_append, hmade, makeEach, Path.extend_cons,
      hvacant.makeDir]

theorem makeDirs_of_absent {fs : FileSystem} {p : Path} {n : String} (hn : IsName n) (h : fs.Absent (p / n)) :
    fs.makeDirs (p / n) = match fs.missingDirs (p / n).names.length (p / n) [] with
      | .ok dirs => fs.makeEach dirs
      | .error e => (.error e, fs) := by
  obtain ⟨e, he, habsent⟩ := h
  rw [makeDirs, if_neg (Path.text_join_ne hn), he]
  dsimp only
  rw [if_pos habsent, Path.endsInSlash_join hn]
  rfl

theorem makeDirs_extend {fs : FileSystem} {p : Path} {n : String} (hn : IsName n) (h : fs.Absent (p / n))
    {r : Loc} (hr : ∀ k ∈ r, IsName k) (hfits : ((p / n).extend r).byteSize ≤ pathMax) (hmax : r.length ≤ makeDirsMax) :
    fs.makeDirs ((p / n).extend r) =
      match fs.missingDirs (p / n).names.length (p / n) ((p / n).chain r) with
      | .ok dirs => fs.makeEach dirs
      | .error e => (.error e, fs) := by
  have habsent := absent_extend hn h hr hfits
  have hclimb : fs.missingDirs ((p / n).names.length + r.length) ((p / n).extend r) [] =
      fs.missingDirs (p / n).names.length (p / n) ((p / n).chain r ++ []) :=
    missingDirs_extend hn h hr hfits (by simpa using hmax) _
  obtain ⟨q, k, hk, hq⟩ := Path.exists_extend p hn hr
  rw [← Path.names_extend _ hr, List.append_nil] at hclimb
  rw [hq] at habsent hclimb ⊢
  rw [makeDirs_of_absent hk habsent, hclimb]

theorem Vacant.makeDirs_extend {fs : FileSystem} {p : Path} {n : String} {d : Loc} (h : fs.Vacant p n d)
    {r : Loc} (hr : ∀ k ∈ r, IsEntryName k) (hfits : ((p / n).extend r).byteSize ≤ pathMax)
    (hmax : r.length < makeDirsMax) :
    ∃ fs' : FileSystem, fs.makeDirs ((p / n).extend r) = (.ok (), fs') ∧
      fs'.Bare ((p / n).extend r) (r ++ n :: d) := by
  have hdirs := missingDirs_join h.isName h.fits h.lead h.canAdd.1 (Path.length_chain (p / n) r ▸ hmax)
  obtain ⟨fs', hmade, hbare⟩ := h.bare.makeEach_chain hr hfits []
  rw [List.append_nil] at hmade
  refine ⟨fs', ?_, hbare⟩
  rw [FileSystem.makeDirs_extend h.isName ⟨_, h.status, rfl⟩ (fun k hk => (hr k hk).1) hfits
    (Nat.le_of_lt hmax), hdirs]
  dsimp only
  rw [makeEach, h.makeDir]
  exact hmade

theorem makeDirs_below_file {fs : FileSystem} {p : Path} {n : String} {text : String} (hn : IsName n)
    (h : fs.status (p / n) = .ok (.file text)) {r : Loc} (hne : r ≠ []) (hr : ∀ k ∈ r, IsName k)
    (hfits : ((p / n).extend r).byteSize ≤ pathMax) (hmax : r.length ≤ makeDirsMax) :
    (∃ e, fs.status ((p / n).extend r) = .error e) ∧
      fs.makeDirs ((p / n).extend r) = (.error .notDirectory, fs) := by
  obtain rfl | ⟨r, k, rfl⟩ := List.eq_nil_or_concat r
  · exact absurd rfl hne
  · rw [List.concat_eq_append] at hr hfits hmax ⊢
    have hk := hr k (by simp)
    have hr' : ∀ j ∈ r, IsName j := fun j hj => hr j (by simp [hj])
    have hextend : (p / n).extend (r ++ [k]) = (p / n / k).extend r := Path.extend_append _ r [k]
    rw [List.length_append, List.length_singleton] at hmax
    rw [hextend] at hfits ⊢
    -- the search for what is missing ends at the file, with the entry below it still to be made
    have hmissing := absent_below hn hk (Nat.le_trans (Path.byteSize_le_extend _ hr') hfits) (.inr ⟨text, h⟩)
    obtain ⟨e, he, -⟩ := absent_extend hk hmissing hr' hfits
    refine ⟨⟨e, he⟩, ?_⟩
    rw [makeDirs_extend hk hmissing hr' hfits (Nat.le_of_succ_le hmax), Path.names_join hk,
      List.length_append, List.length_singleton, missingDirs, Path.parent_join_join hn hk,
      Path.fileName_join hk, h]
    simp only [hk.2.1, hk.2.2.1, or_self, if_false, List.length_cons, Path.length_chain, Path.text_join_ne hn,
      Nat.not_lt.2 hmax]

/-- A file stands at the place, or at one above it below the directory at `d`. -/
def Barred (fs : FileSystem) (d r : Loc) : Prop :=
  ∃ s text, s ≠ [] ∧ s <:+ r ∧ fs.tree.get? (s ++ d) = some (.file text)

theorem not_barred_nil (fs : FileSystem) (d : Loc) : ¬ fs.Barred d [] := by
  rintro ⟨s, text, hne, hs, -⟩
  exact hne (List.suffix_nil.1 hs)

theorem barred_snoc {fs : FileSystem} {d r : Loc} {k : String} : fs.Barred d (r ++ [k]) ↔
    (∃ text, fs.tree.get? (k :: d) = some (.file text)) ∨ fs.Barred (k :: d) r := by
  constructor
  · rintro ⟨s, text, hne, hs, hx⟩
    obtain rfl | ⟨s', rfl, hs'⟩ := List.suffix_concat_iff.1 hs
    · exact absurd rfl hne
    · rw [List.append_assoc, List.singleton_append] at hx
      by_cases hnil : s' = []
      · subst hnil
        exact .inl ⟨text, hx⟩
      · exact .inr ⟨s', text, hnil, hs', hx⟩
  · rintro (⟨text, hx⟩ | ⟨s, text, hne, hs, hx⟩)
    · exact ⟨[k], text, by simp, List.suffix_append r [k], hx⟩
    · refine ⟨s ++ [k], text, by simp, ?_, by simpa using hx⟩
      exact List.suffix_concat_iff.2 (.inr ⟨s, rfl, hs⟩)

theorem barred_pair {fs : FileSystem} {d : Loc} {n k : String} : fs.Barred d [n, k] ↔
    (∃ text, fs.tree.get? (k :: d) = some (.file text)) ∨ ∃ text, fs.tree.get? (n :: k :: d) = some (.file text) := by
  have houter : fs.Barred d ([n] ++ [k]) ↔ _ := barred_snoc
  have hinner : fs.Barred (k :: d) ([] ++ [n]) ↔ _ := barred_snoc
  rw [List.nil_append] at hinner
  rw [← List.singleton_append, houter, hinner, or_iff_left (not_barred_nil fs _)]

end FileSystem

namespace Directory

open FileSystem

/-- Where no link is in the way, preparing a directory below another comes to whether a file stands between
the two: if none does it is done, and otherwise nothing is. -/
theorem prepare_extend {h : Host} {n : String} (r : Loc) (hn : IsEntryName n) (hr : ∀ k ∈ r, IsEntryName k)
    (hmax : r.length < makeDirsMax) {p : Path} {d : Loc} (hlead : h.files.lead p = .ok (.node d))
    (hd : h.files.tree.get? d = some .directory) (hfits : (p.extend (n :: r)).byteSize ≤ pathMax)
    (hlinks : ∀ s target, s ≠ [] → s <:+ n :: r → h.files.tree.get? (s ++ d) ≠ some (.link target)) :
    (¬ h.files.Barred d r →
      ∃ h', (prepare (p.extend (n :: r))).run.run h = (.ok (p.extend (n :: r)), h')) ∧
    (h.files.Barred d r →
      ∃ h', (prepare (p.extend (n :: r))).run.run h = (.error (.unpreparedDirectory (p.extend (n :: r))), h') ∧
        h'.files = h.files) := by
  -- the names are taken from the outermost on, so that each directory that is there is stepped into
  induction r using List.reverseRecOn generalizing p d with
  | nil =>
    refine ⟨fun _ => ?_, fun hbarred => absurd hbarred (not_barred_nil _ _)⟩
    by_cases hfree : ∀ x, h.files.tree.get? (n :: d) = some x → x = .directory
    · exact ⟨_, Prod.ext (prepare_ready ⟨hfits, hlead, hd, hn, hfree⟩).1 rfl⟩
    · simp only [Classical.not_forall] at hfree
      obtain ⟨x, hx, hne⟩ := hfree
      have hnolink : ∀ target, x ≠ .link target := fun target heq =>
        hlinks [n] target (by simp) (List.suffix_refl _) (heq ▸ hx)
      have hs : h.files.status (p / n) = .ok x := node_of_find (find_of_get? hfits hlead hx hnolink true) hx
      obtain ⟨-, h', -, -, -, hrun, -⟩ := prepare_replaces hn.1 hs hne
      exact ⟨h', hrun⟩
  | append_singleton r k ih =>
    have hk := hr k (by simp)
    have hr' : ∀ j ∈ r, IsEntryName j := fun j hj => hr j (by simp [hj])
    have hbelow : ∀ j ∈ n :: r, IsEntryName j := fun j hj => by
      rcases List.mem_cons.1 hj with rfl | hj
      · exact hn
      · exact hr' j hj
    have hextend : p.extend (n :: (r ++ [k])) = (p / k).extend (n :: r) := Path.extend_append p (n :: r) [k]
    rw [List.length_append, List.length_singleton] at hmax
    rw [hextend] at hfits ⊢
    have hnames : ∀ j ∈ n :: r, IsName j := fun j hj => (hbelow j hj).1
    have hfits' := Nat.le_trans (Path.byteSize_le_extend _ hnames) hfits
    rw [barred_snoc]
    have hinner : ∀ s target, s ≠ [] → s <:+ n :: r → h.files.tree.get? (s ++ k :: d) ≠ some (.link target) := by
      intro s target hs hsuffix
      have houter := hlinks (s ++ [k]) target (by simp) (List.suffix_concat_iff.2 (.inr ⟨s, rfl, hsuffix⟩))
      simpa using houter
    cases hx : h.files.tree.get? (k :: d) with
    | none =>
      -- from here on everything is missing, and is made in one go
      have hv : h.files.Vacant p k d := ⟨hfits', hlead, hd, hk, hx⟩
      obtain ⟨fs, hmade, hbare⟩ := hv.makeDirs_extend hbelow hfits hmax
      obtain ⟨e, he, -⟩ := absent_extend hk.1 ⟨_, hv.status, rfl⟩ hnames hfits
      refine ⟨fun _ => ?_, ?_⟩
      · obtain ⟨h', hrun, -⟩ := prepare_made he hmade (hbare.status (Path.text_join_ne hn.1) hfits)
        exact ⟨h', hrun⟩
      · rintro (⟨text, htext⟩ | ⟨s, text, -, -, htext⟩)
        · cases htext
        · rw [FileTree.get?_append_of_none hx] at htext
          cases htext
    | some x =>
      cases x with
      | directory =>
        have hrest := ih hr' (Nat.lt_of_succ_lt hmax) (lead_join hlead hx) hx hfits hinner
        simpa using hrest
      | file text =>
        have hs : h.files.status (p / k) = .ok (.file text) :=
          node_of_find (find_of_get? hfits' hlead hx (by simp) true) hx
        obtain ⟨⟨e, he⟩, hmade⟩ := makeDirs_below_file hk.1 hs (by simp) hnames hfits (Nat.le_of_lt hmax)
        exact ⟨fun hfree => absurd (.inl ⟨text, rfl⟩) hfree, fun _ => prepare_refused he hmade⟩
      | link target => exact absurd hx (hlinks [k] target (by simp) (List.suffix_append (n :: r) [k]))

end Directory
namespace Vault

open FileSystem

/-- The base leads to the directory at `d`, and no link stands there in the place of the root, of the
sessions or of the session. -/
structure Unlinked (base : Path) (id : String) (d : Loc) (fs : FileSystem) : Prop where
  lead : fs.lead base = .ok (.node d)
  dir : fs.tree.get? d = some .directory
  links : ∀ m ∈ [rootName :: d, sessionsName :: rootName :: d, id :: sessionsName :: rootName :: d],
    ∀ target, fs.tree.get? m ≠ some (.link target)

section
variable {base : Path} {id : String} {d : Loc} {h : Host}

theorem Unlinked.suffix (hu : Unlinked base id d h.files) {s : Loc} (hne : s ≠ [])
    (hs : s <:+ [id, sessionsName, rootName]) (target : Path) :
    h.files.tree.get? (s ++ d) ≠ some (.link target) := by
  simp only [List.suffix_cons_iff, List.suffix_nil] at hs
  rcases hs with rfl | rfl | rfl | rfl
  · exact hu.links _ (by simp) target
  · exact hu.links _ (by simp) target
  · exact hu.links _ (by simp) target
  · exact absurd rfl hne

theorem commonFile_unlinked (hu : Unlinked base id d h.files) (hfits : (under base).root.byteSize ≤ pathMax)
    (name : String) : ∃ h', ((under base).commonFile name).run.run h = (.ok ((under base).root / name), h') ∧
      h'.files.status (under base).root = .ok .directory := by
  obtain ⟨hfree, -⟩ := Directory.prepare_extend [] isEntryName_rootName (by simp) (by decide) hu.lead hu.dir
    hfits fun s target hne hs => hu.suffix hne (hs.trans (List.suffix_append [id, sessionsName] _)) target
  obtain ⟨h', hrun⟩ := hfree (not_barred_nil _ _)
  have hrun : (Directory.prepare (under base).root).run.run h = (.ok (under base).root, h') := hrun
  exact ⟨h', by rw [run_commonFile, hrun], (Directory.prepare_ok hrun).2⟩

theorem prepare_sessionDir (hu : Unlinked base id d h.files) (hid : IsEntryName id)
    (hfits : ((under base).sessionDir id).byteSize ≤ pathMax) :
    (¬ h.files.Barred d [sessionsName, rootName] → ∃ h',
      (Directory.prepare ((under base).sessionDir id)).run.run h = (.ok ((under base).sessionDir id), h')) ∧
    (h.files.Barred d [sessionsName, rootName] → ∃ h',
      (Directory.prepare ((under base).sessionDir id)).run.run h =
        (.error (.unpreparedDirectory ((under base).sessionDir id)), h') ∧ h'.files = h.files) := by
  have hnames : ∀ k ∈ [sessionsName, rootName], IsEntryName k := by
    simp [isEntryName_sessionsName, isEntryName_rootName]
  exact Directory.prepare_extend [sessionsName, rootName] hid hnames (by decide) hu.lead hu.dir hfits
    fun s target hne hs => hu.suffix hne hs target

theorem sessionFile_free (hu : Unlinked base id d h.files) (hid : IsEntryName id)
    (hfits : ((under base).sessionDir id).byteSize ≤ pathMax)
    (hfree : ¬ h.files.Barred d [sessionsName, rootName]) (name : String) :
    ∃ h', ((under base).sessionFile id name).run.run h = (.ok ((under base).sessionDir id / name), h') ∧
      h'.files.status ((under base).sessionDir id) = .ok .directory := by
  obtain ⟨h', hrun⟩ := (prepare_sessionDir hu hid hfits).1 hfree
  exact ⟨h', by rw [sessionFile_of_name hid.1, run_prepare_join, hrun], (Directory.prepare_ok hrun).2⟩

theorem sessionFile_barred (hu : Unlinked base id d h.files) (hid : IsEntryName id)
    (hfits : ((under base).sessionDir id).byteSize ≤ pathMax)
    (hbarred : h.files.Barred d [sessionsName, rootName]) (name : String) :
    ∃ h', ((under base).sessionFile id name).run.run h =
        (.error (.unpreparedDirectory ((under base).sessionDir id)), h') ∧ h'.files = h.files := by
  obtain ⟨h', hrun, hfiles⟩ := (prepare_sessionDir hu hid hfits).2 hbarred
  exact ⟨h', by rw [sessionFile_of_name hid.1, run_prepare_join, hrun], hfiles⟩

end

/-- Under a base that leads to a directory, and where no link has come in the way, a vault opened once gives
out the path of every common file, in a root that is a directory then; and the path of every session file, in
a session that is a directory then, unless a file has come in the place of the root or of the sessions. Then
nothing is repaired. -/
theorem access_heals {base : Path} {v : Vault} {h₀ h₁ h : Host} {d : Loc} {id : String}
    (hopen : (openAt base).run.run h₀ = (.ok v, h₁)) (hu : Unlinked base id d h.files) (hid : IsEntryName id)
    (hfits : (v.sessionDir id).byteSize ≤ pathMax) (name : String) :
    (∃ h', (v.commonFile name).run.run h = (.ok (v.root / name), h') ∧
      h'.files.status v.root = .ok .directory) ∧
    ((∀ m ∈ [rootName :: d, sessionsName :: rootName :: d], ∀ text, h.files.tree.get? m ≠ some (.file text)) →
      ∃ h', (v.sessionFile id name).run.run h = (.ok (v.sessionDir id / name), h') ∧
        h'.files.status (v.sessionDir id) = .ok .directory) ∧
    ((∃ m ∈ [rootName :: d, sessionsName :: rootName :: d], ∃ text, h.files.tree.get? m = some (.file text)) →
      ∃ h', (v.sessionFile id name).run.run h = (.error (.unpreparedDirectory (v.sessionDir id)), h') ∧
        h'.files = h.files) := by
  obtain ⟨rfl, -⟩ := openAt_ok hopen
  have hroot : (under base).root.byteSize ≤ pathMax :=
    rootFits (Nat.le_trans (Path.byteSize_le_join hid.1) hfits)
  have hiff : h.files.Barred d [sessionsName, rootName] ↔
      ∃ m ∈ [rootName :: d, sessionsName :: rootName :: d], ∃ text, h.files.tree.get? m = some (.file text) := by
    rw [barred_pair]
    simp
  refine ⟨commonFile_unlinked hu hroot name, fun hfree => ?_, fun hfile => ?_⟩
  · refine sessionFile_free hu hid hfits (fun hbarred => ?_) name
    obtain ⟨m, hm, text, hx⟩ := hiff.1 hbarred
    exact hfree m hm text hx
  · exact sessionFile_barred hu hid hfits (hiff.2 hfile) name

theorem unlinked_root {h : Host} (hlinks : ∀ e ∈ h.files.tree.toList, (e.2 matches .link _) = false)
    (id : String) : Unlinked ⟨"/"⟩ id [] h.files := by
  refine ⟨(spells_root _).lead (FileTree.get?_root _), FileTree.get?_root _, fun m _ target hx => ?_⟩
  cases hlinks _ (FileTree.mem_toList.2 hx)

/-- Where everything is gone since the vault was opened, all three directories are made. -/
theorem access_heals_empty : ∃ h₁ h',
    (openAt ⟨"/"⟩).run.run ⟨.empty, {}, []⟩ = (.ok (under ⟨"/"⟩), h₁) ∧
    ((under ⟨"/"⟩).sessionFile "s" "f").run.run ⟨.empty, {}, []⟩ =
      (.ok ((under ⟨"/"⟩).sessionDir "s" / "f"), h') ∧
    h'.files.status ((under ⟨"/"⟩).sessionDir "s") = .ok .directory := by
  obtain ⟨h₁, hopen, -⟩ := openAt_free (h := ⟨.empty, {}, []⟩) free_empty
  have hnone : ∀ m ∈ [[rootName], [sessionsName, rootName]], ∀ text,
      FileSystem.empty.tree.get? m ≠ some (.file text) := by
    intro m hm text hx
    have hne : m ≠ [] := by
      rintro rfl
      simp at hm
    rw [show FileSystem.empty.tree = .empty from rfl, FileTree.get?_empty hne] at hx
    cases hx
  obtain ⟨-, hfree, -⟩ := access_heals (h := ⟨.empty, {}, []⟩) hopen (unlinked_root (by decide) "s") (by decide)
    (by decide) "f"
  obtain ⟨h', hrun, hstatus⟩ := hfree hnone
  exact ⟨h₁, h', hopen, hrun, hstatus⟩

def atSessions (x : Node) : Host :=
  ⟨(FileSystem.empty.add [] rootName .directory).add [rootName] sessionsName x, {}, []⟩

/-- A file that has come in the place of the root, or of the sessions, stays there and keeps the paths of
session files from being given out. -/
theorem access_barred : (under ⟨"/"⟩).Opened ∧
    ∀ h, h = atRoot (.file "text") ∨ h = atSessions (.file "text") → Unlinked ⟨"/"⟩ "s" [] h.files ∧
      ∃ h', ((under ⟨"/"⟩).sessionFile "s" "f").run.run h =
        (.error (.unpreparedDirectory ((under ⟨"/"⟩).sessionDir "s")), h') ∧ h'.files = h.files := by
  refine ⟨opened_empty, fun h hh => ?_⟩
  have hlinks : ∀ e ∈ h.files.tree.toList, (e.2 matches .link _) = false := by
    rcases hh with rfl | rfl
    · decide
    · decide
  have hbarred : h.files.Barred [] [sessionsName, rootName] := by
    rw [barred_pair]
    rcases hh with rfl | rfl
    · exact .inl ⟨"text", rfl⟩
    · exact .inr ⟨"text", rfl⟩
  have hu := unlinked_root hlinks "s"
  exact ⟨hu, sessionFile_barred hu (by decide) (by decide) hbarred "f"⟩

end Vault
end CrashVault
