import CrashVault.Proofs.Opened
import CrashVault.Proofs.Survivors

/-! What the calls about a session may change, in any file system. They keep to one entry of the directory
that the path of the sessions leads to, apart from directories made on the way there; an id that is no
name reaches nothing (`session_calls_confined`). -/

namespace CrashVault

/-- Nothing has changed but that what the directory at `p` held under one name may be gone. -/
structure EntryGone (p : Path) (n : String) (fs fs' : FileSystem) : Prop where
  gone : ∀ m, fs'.tree.get? m = fs.tree.get? m ∨
    fs'.tree.get? m = none ∧ ∃ d, fs.find true p = .ok (.node d) ∧ n :: d <:+ m

/-- Nothing has changed but that directories have been added where missing beginnings of the path lead
now, or that the entry of the path, which led to no directory, has become an empty one. -/
structure DirMade (p : Path) (fs fs' : FileSystem) : Prop where
  changed : ∀ m, fs'.tree.get? m = fs.tree.get? m ∨
    (fs.tree.get? m = none ∧ fs'.tree.get? m = some .directory ∧
      ∃ q, fs.MissingOn p q ∧ fs'.find true q = .ok (.node m)) ∨
    (fs.entry p = .ok (.node m) ∧ (∃ x, fs.status p = .ok x ∧ x ≠ .directory) ∧
      fs'.tree.get? m = some .directory ∧ fs'.tree.children m = [])

namespace Directory

theorem removeTree_entryGone {p : Path} {n : String} {h : Host} (hn : IsName n) (hp : p.text ≠ "") :
    EntryGone p n h.files ((removeTree (p / n)).run h).2.files := by
  constructor
  intro m
  by_cases hd : ∃ d, h.files.find true p = .ok (.node d)
  · obtain ⟨d, hd⟩ := hd
    have hc := removeTree_join hn (FileSystem.lead_of_find hd)
    by_cases hs : n :: d <:+ m
    · cases hx : ((removeTree (p / n)).run h).2.files.tree.get? m with
      | none => exact .inr ⟨rfl, d, hd, hs⟩
      | some x => exact .inl (hc.tree _ _ hx).symm
    · exact .inl (hc.kept m hs)
  · have hnone : ∀ l, h.files.find false (p / n) ≠ .ok (.node l) := by
      intro l hl
      rw [FileSystem.find_false_join hn] at hl
      obtain ⟨d, hf, -⟩ := FileSystem.dir_of_entry hn hp hl
      exact hd ⟨d, hf⟩
    rw [(removeTree_of_absent hnone).2]
    exact .inl rfl

theorem prepare_dirMade {p : Path} {n : String} (hn : IsName n) (h : Host) :
    DirMade (p / n) h.files ((prepare (p / n)).run.run h).2.files := by
  cases hs : h.files.status (p / n) with
  | error e =>
    constructor
    intro m
    exact ((prepare_fills (Path.endsInSlash_join hn) hs).added m).imp id .inl
  | ok x =>
    by_cases hx : x = .directory
    · rw [prepare_of_directory (hx ▸ hs)]
      exact ⟨fun _ => .inl rfl⟩
    · obtain ⟨d, h', he, hrun, hi⟩ := prepare_installs hn hs hx
      rw [hrun]
      constructor
      intro m
      by_cases hm : m = n :: d
      · subst hm
        exact .inr (.inr ⟨he, ⟨x, hs, hx⟩, hi.tree.get?_self,
          FileTree.children_eq_nil.2 hi.tree.get?_below⟩)
      · exact .inl (hi.tree.get?_of_ne hm)

end Directory

namespace Vault

theorem deleteSession_link {v : Vault} {id : String} (hid : IsName id) {h : Host}
    {d : Loc} {target : Path} (hd : h.files.find true v.sessions = .ok (.node d))
    (hlink : h.files.tree.get? (id :: d) = some (.link target))
    (hfits : (v.sessionDir id).byteSize ≤ pathMax) :
    ((v.deleteSession id).run h).1 = true ∧ ∀ m, ((v.deleteSession id).run h).2.files.tree.get? m =
      if m = id :: d then none else h.files.tree.get? m := by
  have hc := FileTree.children_of_ne_directory hlink (by simp)
  have he : h.files.entry (v.sessionDir id) = .ok (.node (id :: d)) :=
    FileSystem.entry_of_get? hfits (FileSystem.lead_of_find hd) hlink
  rw [run_deleteSession_of_name hid]
  obtain ⟨hremoved, hfiles⟩ := Directory.removeTree_of_leaf (p := v.sessions)
    (h := h.note ⟨.trace, "FileStore: Deleting files of session: " ++ id⟩) hid
    (by rw [Host.files_note]; exact he) (by rw [Host.files_note]; exact hc)
  refine ⟨hremoved, fun m => ?_⟩
  show ((Directory.removeTree (v.sessions / id)).run _).2.files.tree.get? m = _
  rw [hfiles, Host.files_note]
  exact FileTree.get?_prune_of_children (by simp) hc m

theorem session_calls_confined {v : Vault} (hv : v.Opened) (h : Host) (id name : String)
    (keep : String → Bool) :
    (id = "" ∨ id = "." ∨ id = ".." ∨ '/' ∈ id.toList →
      ((v.sessionFile id name).run.run h).1 = .error (.invalidSessionId id) ∧
      ((v.sessionFile id name).run.run h).2.files = h.files ∧
      ((v.listSession id keep).run h).1 = [] ∧
      ((v.listSession id keep).run h).2.files = h.files ∧
      ((v.deleteSession id).run h).1 = false ∧
      ((v.deleteSession id).run h).2.files = h.files) ∧
    (¬ (id = "" ∨ id = "." ∨ id = ".." ∨ '/' ∈ id.toList) →
      ((v.listSession id keep).run h).2.files = h.files ∧
      EntryGone v.sessions id h.files ((v.deleteSession id).run h).2.files ∧
      (∀ d target, h.files.find true v.sessions = .ok (.node d) →
        h.files.tree.get? (id :: d) = some (.link target) → (v.sessionDir id).byteSize ≤ pathMax →
        ((v.deleteSession id).run h).1 = true ∧ ∀ m, ((v.deleteSession id).run h).2.files.tree.get? m =
          if m = id :: d then none else h.files.tree.get? m) ∧
      DirMade (v.sessionDir id) h.files ((v.sessionFile id name).run.run h).2.files) := by
  constructor
  · intro hbad
    have hid : ¬ IsName id := by
      rintro ⟨h1, h2, h3, h4⟩
      rcases hbad with h | h | h | h
      · exact h1 h
      · exact h2 h
      · exact h3 h
      · exact h4 h
    rw [run_sessionFile_of_not_name hid, run_listSession_of_not_name hid,
      run_deleteSession_of_not_name hid]
    simp
  · intro hgood
    simp only [not_or] at hgood
    have hid : IsName id := hgood
    refine ⟨?_, ?_, fun d target hd hl hfits => deleteSession_link hid hd hl hfits, ?_⟩
    · rw [listSession_of_name hid, files_listing]
    · rw [run_deleteSession_of_name hid]
      have := Directory.removeTree_entryGone (p := v.sessions)
        (h := h.note ⟨.trace, "FileStore: Deleting files of session: " ++ id⟩) hid hv.sessions_ne
      rw [Host.files_note] at this
      exact this
    · rw [files_sessionFile hid]
      exact Directory.prepare_dirMade hid h

def straying : Host := ⟨(layOut .empty []).add [sessionsName, rootName] "x" (.link ⟨".."⟩), {}, []⟩

/-- The link is removed, not what it leads to; and only by its own id. -/
theorem session_calls_confined_link : (under ⟨"/"⟩).Opened ∧
    straying.files.tree.get? ["x", sessionsName, rootName] = some (.link ⟨".."⟩) ∧
    (((under ⟨"/"⟩).deleteSession "../x").run straying).1 = false ∧
    (((under ⟨"/"⟩).deleteSession "../x").run straying).2.files = straying.files ∧
    (((under ⟨"/"⟩).deleteSession "x").run straying).1 = true ∧
    EntryGone (under ⟨"/"⟩).sessions "x" straying.files (((under ⟨"/"⟩).deleteSession "x").run straying).2.files ∧
    (((under ⟨"/"⟩).deleteSession "x").run straying).2.files.tree.get? ["x", sessionsName, rootName] = none := by
  have hfind : straying.files.find true (under ⟨"/"⟩).sessions = .ok (.node [sessionsName, rootName]) := by rfl
  have hlink : straying.files.tree.get? ["x", sessionsName, rootName] = some (.link ⟨".."⟩) := by rfl
  obtain ⟨-, -, -, -, hrefused, hleft⟩ :=
    (session_calls_confined opened_empty straying "../x" "f" fun _ => true).1 (by decide)
  obtain ⟨-, hgone, hremoves, -⟩ := (session_calls_confined opened_empty straying "x" "f" fun _ => true).2 (by decide)
  obtain ⟨hanswer, htree⟩ := hremoves _ _ hfind hlink (by decide)
  exact ⟨opened_empty, hlink, hrefused, hleft, hanswer, hgone, (htree _).trans (if_pos rfl)⟩

end Vault
end CrashVault
