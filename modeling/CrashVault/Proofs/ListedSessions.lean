import CrashVault.Proofs.Conversation
import CrashVault.Proofs.Layout
import CrashVault.Proofs.Listing

/-! Asking the shell to remove a session that it lists. One that is named by a single word is removed whole,
and said to be, as long as the way to the sessions does not go through what is in it; then the shell says
that it could not. Of a name of several words the shell hears only the first (`run_removes_listed`). -/

namespace CrashVault

theorem lines_of_not_mem {cs : List Char} (hcs : '\n' ∉ cs) (hne : cs ≠ []) : lines cs = [cs] := by
  have hlast : (cut '\n' cs).getLast? ≠ some [] := by simpa [cut_of_not_mem hcs] using hne
  rw [lines, if_neg hlast, cut_of_not_mem hcs]

theorem not_blank_of_mem_firstWord {cs : List Char} {c : Char} (hc : c ∈ (firstWord cs).1) :
    isBlank c = false := by
  have hall := List.all_eq_true.1 (List.all_takeWhile (p := (!isBlank ·)) (l := cs.dropWhile isBlank)) c hc
  simpa using hall

theorem firstWord_of_blank {c : Char} (hc : isBlank c = true) (cs : List Char) :
    firstWord (c :: cs) = firstWord cs := by
  rw [firstWord, List.dropWhile_cons_of_pos hc]
  rfl

theorem firstWord_append {w rest : List Char} (hw : ∀ c ∈ w, isBlank c = false) (hne : w ≠ [])
    (hrest : ∀ c, rest.head? = some c → isBlank c = true) : firstWord (w ++ rest) = (w, rest) := by
  have hend : rest.takeWhile (!isBlank ·) = [] ∧ rest.dropWhile (!isBlank ·) = rest := by
    cases rest with
    | nil => exact ⟨rfl, rfl⟩
    | cons c rest => simp [hrest c rfl]
  have hstart : (w ++ rest).dropWhile isBlank = w ++ rest := by
    obtain ⟨c, cs, rfl⟩ := List.exists_cons_of_ne_nil hne
    exact List.dropWhile_cons_of_neg (by simp [hw c List.mem_cons_self])
  have hword : ∀ c ∈ w, (!isBlank c) = true := fun c hc => by simp [hw c hc]
  rw [firstWord, hstart, List.takeWhile_append_of_pos hword, List.dropWhile_append_of_pos hword, hend.1, hend.2,
    List.append_nil]

theorem firstWord_self {w : List Char} (hw : ∀ c ∈ w, isBlank c = false) : (firstWord w).1 = w := by
  by_cases hne : w = []
  · rw [hne]
    rfl
  · have happend : firstWord (w ++ []) = (w, []) := firstWord_append hw hne (by simp)
    rw [List.append_nil] at happend
    rw [happend]

namespace Vault

theorem mem_openSessions {v : Vault} {h : Host} {id : String} : id ∈ (v.openSessions.run h).1 ↔
    ∃ d, h.files.find true v.sessions = .ok (.node d) ∧ ∃ x, h.files.tree.get? (id :: d) = some x := by
  have hids : (v.openSessions.run h).1 =
      ((Directory.listing v.sessions fun _ => true).run h).1.map Path.fileName := rfl
  rw [hids, List.mem_map]
  constructor
  · rintro ⟨p, hp, rfl⟩
    obtain ⟨d, n, x, hd, hx, -, rfl⟩ := Directory.mem_listing.1 hp
    rw [Path.fileName_join (FileTree.isEntryName_of_get? hx).1]
    exact ⟨d, hd, x, hx⟩
  · rintro ⟨d, hd, x, hx⟩
    exact ⟨v.sessions / id, Directory.mem_listing.2 ⟨d, id, x, hd, hx, rfl, rfl⟩,
      Path.fileName_join (FileTree.isEntryName_of_get? hx).1⟩

end Vault

namespace Shell

open Vault (under sessionsName rootName reportsName layOut)

theorem ofLine_removal (id : String) : Request.ofLine ("rm-session " ++ id).toList =
    .command "rm-session" (String.ofList (firstWord id.toList).1) := by
  have hsplit : ("rm-session " ++ id).toList = "rm-session".toList ++ ' ' :: id.toList := by
    rw [String.toList_append]
    rfl
  have hfirst : firstWord ("rm-session".toList ++ ' ' :: id.toList) = ("rm-session".toList, ' ' :: id.toList) :=
    firstWord_append (by simp [isBlank]) (by decide) fun c hc => by
      cases hc
      decide
  have hargument : firstWord (' ' :: id.toList) = firstWord id.toList := firstWord_of_blank (by decide) _
  rw [hsplit, Request.ofLine, hfirst]
  dsimp only
  rw [if_neg (by decide), if_neg (by decide), hargument]
  rfl

theorem lines_removal {id : String} (hid : '\n' ∉ id.toList) :
    lines ("rm-session " ++ id).toList = [("rm-session " ++ id).toList] := by
  apply lines_of_not_mem
  · rw [String.toList_append, List.mem_append, not_or]
    exact ⟨by decide, hid⟩
  · simp

/-- What a line asks for is all that counts. -/
theorem converse_congr (v : Vault) {line line' : List Char} (hline : Request.ofLine line = Request.ofLine line')
    (rest : List (List Char)) : converse v (line :: rest) = converse v (line' :: rest) := by
  rw [converse, converse, hline]

theorem run_removal_word (v : Vault) {id : String} (hid : '\n' ∉ id.toList) :
    run v ("rm-session " ++ id) = run v ("rm-session " ++ String.ofList (firstWord id.toList).1) := by
  have hword : '\n' ∉ (String.ofList (firstWord id.toList).1).toList := by
    rw [String.toList_ofList]
    intro hmem
    have hblank := not_blank_of_mem_firstWord hmem
    revert hblank
    decide
  have hsame : Request.ofLine ("rm-session " ++ id).toList =
      Request.ofLine ("rm-session " ++ String.ofList (firstWord id.toList).1).toList := by
    rw [ofLine_removal, ofLine_removal, String.toList_ofList,
      firstWord_self fun c => not_blank_of_mem_firstWord]
  rw [run, run, lines_removal hid, lines_removal hword, converse_congr v hsame]

theorem run_of_reply {v : Vault} {script text : String} {line : List Char} {h h' : Host}
    (hline : lines script.toList = [line]) (hreply : Reply v line (greeted v h) text h') :
    (run v script).run h = (⟨[prompt, text ++ prompt], none⟩, h'.note ended) := by
  apply run_of_converse
  rw [hline]
  exact (Replies.cons hreply (.nil h')).run_converse

/-- The host as the shell has it when it carries out the removal of a session on its first line. -/
def asked (v : Vault) (id : String) (h : Host) : Host := (greeted v h).note (processing "rm-session" id)

theorem files_asked (v : Vault) (id : String) (h : Host) : (asked v id h).files = h.files := by
  rw [asked, Host.files_note, files_greeted]

theorem run_removal (v : Vault) {id : String} (hid : IsName id) (hword : ∀ c ∈ id.toList, isBlank c = false)
    (h : Host) : (run v ("rm-session " ++ id)).run h =
      (⟨[prompt, (if ((v.deleteSession id).run (asked v id h)).1 then "Deleted session " ++ id ++ "\n"
          else "Could not delete session " ++ id ++ "\n") ++ prompt], none⟩,
        ((v.deleteSession id).run (asked v id h)).2.note ended) := by
  have hnewline : '\n' ∉ id.toList := fun hmem => by
    have hblank := hword _ hmem
    revert hblank
    decide
  have hline : Request.ofLine ("rm-session " ++ id).toList = .command "rm-session" id := by
    rw [ofLine_removal, firstWord_self hword, String.ofList_toList]
  refine run_of_reply (lines_removal hnewline) (.command hline ?_)
  have hcommand : Command.ofWords "rm-session" id = .removeSession id := by
    rw [Command.ofWords, if_neg hid.1]
  rw [hcommand]
  rfl

/-- Whether a session is removed, and what is left: it goes whole, unless the way to it goes through what is
in it. -/
theorem deleteSession_present {v : Vault} {id : String} {d : Loc} {h : Host} {x : Node}
    (hd : h.files.find true v.sessions = .ok (.node d)) (hx : h.files.tree.get? (id :: d) = some x)
    (hreach : ∀ r y, h.files.tree.get? (r ++ id :: d) = some y →
      ((v.sessionDir id).extend r).byteSize ≤ pathMax) :
    (((v.deleteSession id).run h).1 = true ↔ (h.files.clear (id :: d)).lead v.sessions = .ok (.node d)) ∧
      (((v.deleteSession id).run h).1 = true → ∀ m, ((v.deleteSession id).run h).2.files.tree.get? m =
        if id :: d <:+ m then none else h.files.tree.get? m) := by
  have hid := (FileTree.isEntryName_of_get? hx).1
  have hfits : (v.sessions / id).byteSize ≤ pathMax := hreach [] x hx
  have hlead := FileSystem.lead_of_find hd
  rw [Vault.run_deleteSession_of_name hid]
  rw [← Host.files_note h ⟨.trace, "FileStore: Deleting files of session: " ++ id⟩] at hlead hx hreach ⊢
  generalize h.note ⟨.trace, "FileStore: Deleting files of session: " ++ id⟩ = g at hlead hx hreach ⊢
  have hiff : ((Directory.removeTree (v.sessions / id)).run g).1.removed = true ↔
      (g.files.clear (id :: d)).lead v.sessions = .ok (.node d) := by
    constructor
    · exact Directory.lead_clear_of_removed hid (FileSystem.entry_of_get? hfits hlead hx)
    · intro hclear
      exact (Directory.reaped_of_clear hfits hx hclear).removed.2
        ⟨⟨x, hx⟩, FileSystem.forall_not_outOfReach.2 hreach []⟩
  refine ⟨hiff, fun hremoved m => ?_⟩
  have hreaps := (Directory.reaped_of_clear hfits hx (hiff.1 hremoved)).reaps
  split
  · rename_i hm
    obtain ⟨r, rfl⟩ := hm
    exact hreaps.gone r (FileSystem.forall_not_outOfReach.2 hreach r)
  · rename_i hm
    exact (Directory.removeTree_join hid hlead).kept m hm

/-- A listed session whose name holds no blank goes on request, with all below it, and the rest stays, if
its paths are ones that the system takes and the way to the sessions does not go through what is in it. If
it does, the shell says that it could not. Of any name on one line only the first word is heard. -/
theorem run_removes_listed {v : Vault} {h : Host} {id : String} (hid : id ∈ (v.openSessions.run h).1) :
    (∃ d, h.files.find true v.sessions = .ok (.node d) ∧ (∃ x, h.files.tree.get? (id :: d) = some x) ∧
      ((∀ c ∈ id.toList, isBlank c = false) →
        (∀ r y, h.files.tree.get? (r ++ id :: d) = some y →
          ((v.sessionDir id).extend r).byteSize ≤ pathMax) →
        let r := (run v ("rm-session " ++ id)).run h
        ((h.files.clear (id :: d)).lead v.sessions = .ok (.node d) →
          r.1 = ⟨[prompt, "Deleted session " ++ id ++ "\n" ++ prompt], none⟩ ∧
            ∀ m, r.2.files.tree.get? m = if id :: d <:+ m then none else h.files.tree.get? m) ∧
        ((h.files.clear (id :: d)).lead v.sessions ≠ .ok (.node d) →
          r.1 = ⟨[prompt, "Could not delete session " ++ id ++ "\n" ++ prompt], none⟩))) ∧
    ('\n' ∉ id.toList →
      run v ("rm-session " ++ id) = run v ("rm-session " ++ String.ofList (firstWord id.toList).1)) := by
  obtain ⟨d, hd, x, hx⟩ := Vault.mem_openSessions.1 hid
  refine ⟨⟨d, hd, ⟨x, hx⟩, fun hword hreach => ?_⟩, run_removal_word v⟩
  have hfiles := files_asked v id h
  rw [← hfiles] at hd hx hreach ⊢
  obtain ⟨hiff, hgone⟩ := deleteSession_present hd hx hreach
  rw [run_removal v (FileTree.isEntryName_of_get? hx).1 hword]
  dsimp only
  rw [Host.files_note]
  refine ⟨fun hclear => ?_, fun hclear => ?_⟩
  · rw [if_pos (hiff.2 hclear)]
    exact ⟨rfl, hgone (hiff.2 hclear)⟩
  · rw [if_neg fun hremoved => hclear (hiff.1 hremoved)]

/-- A host with two open sessions under `/`, the name of the one being the first word of the other's. -/
def twins : Host :=
  ⟨((layOut .empty []).add [sessionsName, rootName] "a" .directory).add [sessionsName, rootName] "a b"
    .directory, {}, []⟩

theorem toList_twins : twins.files.tree.toList =
    [([], .directory), ([rootName], .directory), ([reportsName, rootName], .directory),
      ([sessionsName, rootName], .directory), (["a b", sessionsName, rootName], .directory),
      (["a", sessionsName, rootName], .directory)] := by rfl

theorem find_sessions_twins :
    twins.files.find true (under ⟨"/"⟩).sessions = .ok (.node [sessionsName, rootName]) := by rfl

theorem clear_twins : (twins.files.clear ["a", sessionsName, rootName]).lead (under ⟨"/"⟩).sessions =
    .ok (.node [sessionsName, rootName]) := by rfl

theorem listed_twins {id : String} (hid : id = "a" ∨ id = "a b") :
    id ∈ ((under ⟨"/"⟩).openSessions.run twins).1 := by
  refine Vault.mem_openSessions.2 ⟨_, find_sessions_twins, .directory, ?_⟩
  rcases hid with rfl | rfl <;> rfl

theorem reach_twins {r : Loc} {y : Node} (hy : twins.files.tree.get? (r ++ ["a", sessionsName, rootName]) = some y) :
    (((under ⟨"/"⟩).sessionDir "a").extend r).byteSize ≤ pathMax := by
  refine FileTree.reach_of_toList ?_ hy
  rw [toList_twins]
  decide +kernel

theorem run_removes_listed_twins : "a" ∈ ((under ⟨"/"⟩).openSessions.run twins).1 ∧
    let r := (run (under ⟨"/"⟩) ("rm-session " ++ "a")).run twins
    r.1 = ⟨[prompt, "Deleted session " ++ "a" ++ "\n" ++ prompt], none⟩ ∧
      ∀ m, r.2.files.tree.get? m =
        if ["a", sessionsName, rootName] <:+ m then none else twins.files.tree.get? m := by
  have hlisted := listed_twins (.inl rfl)
  refine ⟨hlisted, ?_⟩
  obtain ⟨d, hd, -, hrun⟩ := (run_removes_listed hlisted).1
  rw [find_sessions_twins] at hd
  cases hd
  exact (hrun (by simp [isBlank]) fun r y => reach_twins).1 clear_twins

/-- A host with one open session under `/`, in which a link leads back to `/`. -/
def coiled : Host :=
  ⟨((layOut .empty []).add [sessionsName, rootName] "s" .directory).add ["s", sessionsName, rootName] "back"
    (.link ⟨"/"⟩), {}, []⟩

def coil : Path := (under ⟨"/"⟩).sessions / "s" / "back"

theorem toList_coiled : coiled.files.tree.toList =
    [([], .directory), ([rootName], .directory), ([reportsName, rootName], .directory),
      ([sessionsName, rootName], .directory), (["s", sessionsName, rootName], .directory),
      (["back", "s", sessionsName, rootName], .link ⟨"/"⟩)] := by rfl

theorem lead_coil : coiled.files.lead coil = .ok (.node []) :=
  FileSystem.lead_of_toOption (by decide +kernel)

theorem byteSize_under_le (base : Path) : (under base).sessions.byteSize ≤ base.byteSize + 60 ∧
    (under base).reports.byteSize ≤ base.byteSize + 60 := by
  have hroot := Path.byteSize_join_le base rootName
  have hsessions := Path.byteSize_join_le (base / rootName) sessionsName
  have hreports := Path.byteSize_join_le (base / rootName) reportsName
  have hnames : rootName.utf8ByteSize = 41 ∧ sessionsName.utf8ByteSize = 13 ∧
      reportsName.utf8ByteSize = 16 := by decide
  simp only [under]
  omega

theorem byteSize_coil_le : coil.byteSize ≤ 70 := by
  have hsession := Path.byteSize_join_le (under ⟨"/"⟩).sessions "s"
  have hback := Path.byteSize_join_le ((under ⟨"/"⟩).sessions / "s") "back"
  have hnames : (⟨"/"⟩ : Path).byteSize = 1 ∧ "s".utf8ByteSize = 1 ∧ "back".utf8ByteSize = 4 := by decide
  have := (byteSize_under_le ⟨"/"⟩).1
  simp only [coil]
  omega

theorem standing_coiled : (under coil).Standing coiled.files := by
  have hcoil := byteSize_coil_le
  obtain ⟨hsessions, hreports⟩ := byteSize_under_le coil
  have hmax : pathMax = 4095 := rfl
  exact Vault.standing_of_lead lead_coil (by omega) (by omega) rfl rfl rfl

theorem find_sessions_coiled :
    coiled.files.find true (under coil).sessions = .ok (.node [sessionsName, rootName]) := by
  obtain ⟨d, hlead, -, ⟨hfind, -⟩, -⟩ := standing_coiled.places
  rw [lead_coil] at hlead
  cases hlead
  exact hfind

theorem clear_coiled {l : Loc} :
    (coiled.files.clear ["s", sessionsName, rootName]).lead (under coil).sessions ≠ .ok (.node l) := by
  intro hlead
  obtain ⟨d, hroot, -⟩ := FileSystem.lead_of_join Vault.isEntryName_sessionsName.1 hlead
  obtain ⟨d', hcoil, -⟩ := FileSystem.lead_of_join Vault.isEntryName_rootName.1 hroot
  have hvacant : (coiled.files.clear ["s", sessionsName, rootName]).lead coil =
      .ok (.vacant ["s", sessionsName, rootName] "back") := FileSystem.lead_of_toOption (by decide +kernel)
  rw [hcoil] at hvacant
  cases hvacant

theorem below_coiled {r : Loc} {y : Node}
    (hy : coiled.files.tree.get? (r ++ ["s", sessionsName, rootName]) = some y) : r = [] ∨ r = ["back"] := by
  have hmem := FileTree.mem_toList.2 hy
  rw [toList_coiled] at hmem
  have hplaces : r ++ ["s", sessionsName, rootName] ∈ [[], [rootName], [reportsName, rootName],
      [sessionsName, rootName], [] ++ ["s", sessionsName, rootName], ["back"] ++ ["s", sessionsName, rootName]] :=
    List.mem_map_of_mem (f := Prod.fst) hmem
  simp only [List.mem_cons, List.not_mem_nil, or_false, List.append_left_inj] at hplaces
  have hshort : ∀ m : Loc, m.length < 3 → r ++ ["s", sessionsName, rootName] ≠ m := by
    rintro m hm rfl
    simp only [List.length_append, List.length_cons] at hm
    omega
  rcases hplaces with h | h | h | h | h
  · exact absurd h (hshort _ (by decide))
  · exact absurd h (hshort _ (by decide))
  · exact absurd h (hshort _ (by decide))
  · exact absurd h (hshort _ (by decide))
  · exact h

theorem byteSize_below_le {p : Path} (hp : p.byteSize ≤ 130) {r : Loc} (hr : r = [] ∨ r = ["back"]) :
    ((p / "s").extend r).byteSize ≤ pathMax := by
  have hsession := Path.byteSize_join_le p "s"
  have hback := Path.byteSize_join_le (p / "s") "back"
  have hnames : "s".utf8ByteSize = 1 ∧ "back".utf8ByteSize = 4 := by decide
  have hmax : pathMax = 4095 := rfl
  rcases hr with rfl | rfl
  · rw [Path.extend, List.foldr_nil]
    omega
  · rw [Path.extend, List.foldr_cons, List.foldr_nil]
    omega

theorem reach_coiled {r : Loc} {y : Node}
    (hy : coiled.files.tree.get? (r ++ ["s", sessionsName, rootName]) = some y) :
    (((under coil).sessionDir "s").extend r).byteSize ≤ pathMax :=
  byteSize_below_le (Nat.le_trans (byteSize_under_le coil).1 (Nat.add_le_add_right byteSize_coil_le 60))
    (below_coiled hy)

/-- Asked to remove a session named by two words, the shell removes the one named by the first. And one that
the base itself leads through is not removed. -/
theorem listed_not_removed :
    ("a" ∈ ((under ⟨"/"⟩).openSessions.run twins).1 ∧ "a b" ∈ ((under ⟨"/"⟩).openSessions.run twins).1 ∧
      let r := (run (under ⟨"/"⟩) ("rm-session " ++ "a b")).run twins
      r.1 = ⟨[prompt, "Deleted session a\n" ++ prompt], none⟩ ∧
        ∀ m, r.2.files.tree.get? m =
          if ["a", sessionsName, rootName] <:+ m then none else twins.files.tree.get? m) ∧
    "s" ∈ ((under coil).openSessions.run coiled).1 ∧
      (∃ h, (Vault.openAt coil).run.run coiled = (.ok (under coil), h) ∧ h.files = coiled.files) ∧
      (∀ r y, coiled.files.tree.get? (r ++ ["s", sessionsName, rootName]) = some y →
        (((under coil).sessionDir "s").extend r).byteSize ≤ pathMax) ∧
      ((run (under coil) ("rm-session " ++ "s")).run coiled).1 =
        ⟨[prompt, "Could not delete session s\n" ++ prompt], none⟩ := by
  refine ⟨⟨listed_twins (.inl rfl), listed_twins (.inr rfl), ?_⟩, ?_, Vault.openAt_of_status standing_coiled.status,
    fun r y => reach_coiled, ?_⟩
  · have hfiles := files_asked (under ⟨"/"⟩) "a" twins
    have hword : String.ofList (firstWord "a b".toList).1 = "a" := by decide
    have hthere : (asked (under ⟨"/"⟩) "a" twins).files.tree.get? ("a" :: [sessionsName, rootName]) =
        some .directory := hfiles ▸ rfl
    obtain ⟨hiff, hgone⟩ := deleteSession_present (hfiles ▸ find_sessions_twins) hthere fun r y =>
      hfiles ▸ reach_twins
    have hremoved := hiff.2 (hfiles ▸ clear_twins)
    rw [run_removal_word _ (by decide), hword, run_removal _ (by decide) (by simp [isBlank]), if_pos hremoved]
    dsimp only
    rw [Host.files_note, ← hfiles]
    exact ⟨rfl, hgone hremoved⟩
  · exact Vault.mem_openSessions.2 ⟨_, find_sessions_coiled, .directory, rfl⟩
  · have hfiles := files_asked (under coil) "s" coiled
    have hthere : (asked (under coil) "s" coiled).files.tree.get? ("s" :: [sessionsName, rootName]) =
        some .directory := hfiles ▸ rfl
    have hiff := (deleteSession_present (hfiles ▸ find_sessions_coiled) hthere fun r y =>
      hfiles ▸ reach_coiled).1
    have hremoved := mt hiff.1 (hfiles ▸ clear_coiled)
    rw [run_removal _ (by decide) (by simp [isBlank]), if_neg hremoved]
    rfl

end Shell
end CrashVault
