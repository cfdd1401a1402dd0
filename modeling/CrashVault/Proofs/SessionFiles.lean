import CrashVault.Proofs.Layout

/-! The files of different sessions. A file name is joined to the path of its session as it is, so it can
lead out of there: one that starts with a slash stands alone, and one with two dots can climb out of the
session's directory and go on from there. Every other name keeps to the directory of its session, and so
no two sessions share a file by it; the rest they share (`sessionFiles_disjoint`). What decides is the
course of a name, which needs no look at the tree as long as no link is on the way (`walk_course`). -/

namespace CrashVault

namespace Path

theorem join_relative {p : Path} {name : String} (hp : p.text ≠ "") (hname : (⟨name⟩ : Path).isAbsolute = false) :
    p / name = if p.endsInSlash then ⟨p.text ++ name⟩ else ⟨p.text ++ "/" ++ name⟩ := by
  have hhead : name.toList.head? ≠ some '/' := by simpa [isAbsolute] using hname
  rw [join_def, join, if_neg (by simp [hhead, hp])]

theorem names_join_relative {p : Path} {name : String} (hp : p.text ≠ "")
    (hname : (⟨name⟩ : Path).isAbsolute = false) : (p / name).names = p.names ++ (⟨name⟩ : Path).names := by
  rw [join_relative hp hname]
  split
  · rename_i hslash
    obtain ⟨a, ha⟩ := List.getLast?_eq_some_iff.1 (by simpa [endsInSlash] using hslash)
    simp only [names_eq, String.toList_append, ha]
    rw [List.append_assoc, List.singleton_append, namesIn_append, namesIn_snoc]
  · simp only [names_eq, String.toList_append, List.append_assoc]
    exact namesIn_append _ _

theorem isAbsolute_join_relative {p : Path} {name : String} (hp : p.text ≠ "")
    (hname : (⟨name⟩ : Path).isAbsolute = false) : (p / name).isAbsolute = p.isAbsolute := by
  have hne : p.text.toList ≠ [] := by simpa using hp
  rw [join_relative hp hname]
  split <;> simp [isAbsolute, List.head?_append, List.head?_eq_some_head hne]

/-- The dot that a lookup adds behind a joined name: the name may be empty, and leave a slash at the end. -/
def closingDot (name : String) : List String := if name = "" ∨ (⟨name⟩ : Path).endsInSlash then ["."] else []

theorem endsInSlash_join_relative {p : Path} {name : String} (hp : p.text ≠ "")
    (hname : (⟨name⟩ : Path).isAbsolute = false) :
    (p / name).endsInSlash = true ↔ name = "" ∨ (⟨name⟩ : Path).endsInSlash = true := by
  rw [join_relative hp hname]
  rcases List.eq_nil_or_concat name.toList with hnil | ⟨cs, c, hcs⟩
  · have hempty : name = "" := by simpa using hnil
    split <;> simp_all [endsInSlash]
  · rw [List.concat_eq_append] at hcs
    have hempty : name ≠ "" := by
      rintro rfl
      simp at hcs
    split <;> simp [endsInSlash, hcs, hempty, List.getLast?_append, List.getLast?_cons]

theorem steps_join_relative {p : Path} {name : String} (hp : p.text ≠ "")
    (hname : (⟨name⟩ : Path).isAbsolute = false) :
    (p / name).steps = p.names ++ ((⟨name⟩ : Path).names ++ closingDot name) := by
  simp only [steps, closingDot, names_join_relative hp hname, endsInSlash_join_relative hp hname]
  split
  · rw [List.append_assoc]
  · rw [List.append_nil]

end Path

/-- Where steps end below the place they start from, or what is left of them once they have led out. -/
inductive Course
  | within (below : Loc)
  | out (rest : List String)
  deriving DecidableEq

/-- The course of steps from a place below the one they must not leave, each name leading down. -/
def course : (below : Loc) → List String → Course
  | r, [] => .within r
  | r, s :: rest =>
    if s = "." then course r rest
    else if s = ".." then
      match r with
      | [] => .out rest
      | _ :: r => course r rest
    else course (s :: r) rest

theorem course_closingDot (steps : List String) (name : String) (r : Loc) :
    course r (steps ++ Path.closingDot name) = match course r steps with
      | .within r' => .within r'
      | .out rest => .out (rest ++ Path.closingDot name) := by
  fun_induction course r steps with
  | case1 r =>
    unfold Path.closingDot
    split <;> simp [course]
  | case2 r rest ih => simpa [course] using ih
  | case3 rest => simp [course]
  | case4 rest _ _ r ih => simpa [course] using ih
  | case5 r s rest h1 h2 ih => simpa [course, h1, h2] using ih

def KeepsInside (name : String) : Prop :=
  (⟨name⟩ : Path).isAbsolute = false ∧ ∃ r, course [] (⟨name⟩ : Path).names = .within r

def Spot.place? : Spot → Option Loc
  | node l => some l
  | vacant d n => some (n :: d)
  | removed => none

namespace FileTree

def LinkFree (t : FileTree) (place : Loc) : Prop :=
  ∀ m, place <:+ m → ∀ target, t.get? m ≠ some (.link target)

theorem LinkFree.child {t : FileTree} {place r : Loc} {s : String} (h : t.LinkFree place) (target : Path) :
    t.get? (s :: (r ++ place)) ≠ some (.link target) := h _ ⟨s :: r, rfl⟩ target

/-- Below a directory without links, a lookup ends where the course of its steps says, or goes on from the
directory above with the steps that are left once they have led out. -/
theorem walkWith_course {t : FileTree} {f : Bool} {jump : Loc → List String → Except SystemError Spot}
    {n : String} {d r : Loc} (hfree : t.LinkFree (n :: d)) {steps : List String} {spot : Spot}
    (h : t.walkWith f jump (r ++ n :: d) steps = .ok spot) :
    match course r steps with
    | .within r' => spot.place? = some (r' ++ n :: d)
    | .out rest => t.walkWith f jump d rest = .ok spot := by
  induction steps generalizing r with
  | nil =>
    rw [walkWith_nil] at h
    cases h
    rfl
  | cons s steps ih =>
    obtain ⟨-, hstride⟩ := walkWith_cons_ok.1 h
    unfold course
    cases hstride with
    | dot hs h =>
      rw [if_pos hs]
      exact ih h
    | up hs h =>
      rw [if_neg (by simp [hs]), if_pos hs]
      cases r with
      | nil => exact h
      | cons k r => exact ih h
    | miss hs hx hrest =>
      rw [if_neg hs.1, if_neg hs.2.1, hrest]
      rfl
    | jump _ hx => exact absurd hx (hfree.child _)
    | stop _ hx => exact absurd hx (hfree.child _)
    | down hs _ _ h =>
      rw [if_neg hs.1, if_neg hs.2.1]
      exact ih (r := s :: r) h

theorem walk_course {t : FileTree} {f : Bool} {b : Nat} {n : String} {d : Loc} (hfree : t.LinkFree (n :: d))
    {steps : List String} {spot : Spot} (h : t.walk f b (n :: d) steps = .ok spot) :
    match course [] steps with
    | .within r => spot.place? = some (r ++ n :: d)
    | .out rest => t.walk f b d rest = .ok spot := by
  cases b <;> exact walkWith_course (r := []) hfree h

end FileTree

namespace FileSystem

/-- The path leads to the file at that place, or to the place where writing to the path would make one. -/
def Targets (fs : FileSystem) (p : Path) (m : Loc) : Prop :=
  ∃ spot, fs.find true p = .ok spot ∧ spot.place? = some m

theorem Targets.unique {fs : FileSystem} {p : Path} {m m' : Loc} (h : fs.Targets p m) (h' : fs.Targets p m') :
    m = m' := by
  obtain ⟨spot, hspot, hm⟩ := h
  obtain ⟨spot', hspot', hm'⟩ := h'
  rw [hspot] at hspot'
  cases hspot'
  exact Option.some.inj (hm.symm.trans hm')

theorem write_targets {fs fs' : FileSystem} {p : Path} {text : String} (h : fs.write p text = .ok fs') :
    ∃ m, fs.Targets p m ∧ ∀ l, fs'.tree.get? l = if l = m then some (.file text) else fs.tree.get? l := by
  rcases write_cases h with ⟨d, n, hf, hc, rfl⟩ | ⟨l, old, hf, hold, rfl⟩
  · exact ⟨n :: d, ⟨_, hf, rfl⟩, FileTree.get?_add hc _⟩
  · exact ⟨l, ⟨_, hf, rfl⟩, FileTree.get?_setText hold text⟩

end FileSystem

namespace Vault

/-- The session has a real directory among the sessions, which are in the directory at `d`, and no link
is in it. -/
structure RealSession (v : Vault) (id : String) (d : Loc) (fs : FileSystem) : Prop where
  lead : fs.lead v.sessions = .ok (.node d)
  dir : fs.tree.get? (id :: d) = some .directory
  linkFree : fs.tree.LinkFree (id :: d)

theorem RealSession.isEntryName {v : Vault} {id : String} {d : Loc} {fs : FileSystem}
    (h : v.RealSession id d fs) : IsEntryName id := FileTree.isEntryName_of_get? h.dir

theorem RealSession.walk {v : Vault} {id name : String} {d : Loc} {fs : FileSystem}
    (h : v.RealSession id d fs) (hname : (⟨name⟩ : Path).isAbsolute = false) {spot : Spot}
    (hfind : fs.find true (v.sessionDir id / name) = .ok spot) :
    ∃ b, fs.tree.walk true b (id :: d) ((⟨name⟩ : Path).names ++ Path.closingDot name) = .ok spot := by
  have hid := h.isEntryName.1
  have htext : (v.sessions / id).text ≠ "" := Path.text_join_ne hid
  have hstart : fs.startOf (v.sessions / id / name) = fs.startOf v.sessions := by
    rw [FileSystem.startOf, Path.isAbsolute_join_relative htext hname]
    exact FileSystem.startOf_join hid fs
  obtain ⟨hp, hlen⟩ := FileSystem.locate_ok hfind
  rw [FileSystem.find, FileSystem.locate_of_fits hp hlen, sessionDir, hstart,
    Path.steps_join_relative htext hname, Path.names_join hid, List.append_assoc, List.singleton_append] at hfind
  obtain ⟨d', hlead, -, b, hwalk⟩ := FileTree.walkOut_append hid.2.1 hid.2.2.1 hfind
  have hd : d' = d := by
    have := hlead.symm.trans h.lead
    cases this
    rfl
  subst hd
  have hdown : spell [id] d' = id :: d' := by rw [spell_cons hid.2.1, spell_nil]
  refine ⟨b, ?_⟩
  rw [← hdown, ← FileTree.walk_spell (by simpa using Ne.symm hid.2.2.1) (by rw [hdown]; exact h.dir)]
  exact hwalk

/-- A name that keeps inside leads to the same place below the directory of each session. -/
theorem RealSession.targets_within {v : Vault} {id name : String} {d r m : Loc} {fs : FileSystem}
    (h : v.RealSession id d fs) (hname : (⟨name⟩ : Path).isAbsolute = false)
    (hc : course [] (⟨name⟩ : Path).names = .within r) (hm : fs.Targets (v.sessionDir id / name) m) :
    m = r ++ id :: d := by
  obtain ⟨spot, hfind, hplace⟩ := hm
  obtain ⟨b, hwalk⟩ := h.walk hname hfind
  have hwithin := FileTree.walk_course h.linkFree hwalk
  rw [course_closingDot, hc] at hwithin
  exact Option.some.inj (hplace.symm.trans hwithin)

/-- A name that climbs out of the session leads to the same place from every session. -/
theorem RealSession.targets_out {v : Vault} {id id' name : String} {d m m' : Loc} {rest : List String}
    {fs : FileSystem} (h : v.RealSession id d fs) (h' : v.RealSession id' d fs)
    (hname : (⟨name⟩ : Path).isAbsolute = false) (hc : course [] (⟨name⟩ : Path).names = .out rest)
    (hm : fs.Targets (v.sessionDir id / name) m) (hm' : fs.Targets (v.sessionDir id' / name) m') : m = m' := by
  obtain ⟨spot, hfind, hplace⟩ := hm
  obtain ⟨spot', hfind', hplace'⟩ := hm'
  obtain ⟨b, hwalk⟩ := h.walk hname hfind
  obtain ⟨b', hwalk'⟩ := h'.walk hname hfind'
  have hout := FileTree.walk_course h.linkFree hwalk
  have hout' := FileTree.walk_course h'.linkFree hwalk'
  rw [course_closingDot, hc] at hout hout'
  rw [FileTree.walk_budget hout hout', hplace'] at hplace
  exact (Option.some.inj hplace).symm

theorem sessionFile_ok {v : Vault} {id name : String} {h h₁ : Host} {p : Path}
    (hrun : (v.sessionFile id name).run.run h = (.ok p, h₁)) : IsName id ∧ p = v.sessionDir id / name := by
  by_cases hid : IsName id
  · refine ⟨hid, ?_⟩
    rw [sessionFile_of_name hid, run_prepare_join] at hrun
    split at hrun
    · rename_i r h' hprepare
      rw [(Directory.prepare_ok hprepare).1] at hrun
      cases hrun
      rfl
    · cases hrun
  · rw [run_sessionFile_of_not_name hid] at hrun
    cases hrun

theorem RealSession.run_sessionFile {v : Vault} {id : String} {d : Loc} {h : Host}
    (hs : v.RealSession id d h.files) (hfits : (v.sessionDir id).byteSize ≤ pathMax) (name : String) :
    (v.sessionFile id name).run.run h = (.ok (v.sessionDir id / name), h) := by
  have hstatus : h.files.status (v.sessionDir id) = .ok .directory :=
    FileSystem.node_of_find (FileSystem.find_of_get? hfits hs.lead hs.dir (by simp) true) hs.dir
  rw [sessionFile_of_name hs.isEntryName.1, run_prepare_join, Directory.prepare_of_directory hstatus]

theorem sessionPaths_ne_iff {v : Vault} {id id' name : String} (hid : IsName id) (hid' : IsName id')
    (hne : id ≠ id') : v.sessionDir id / name ≠ v.sessionDir id' / name ↔
      (⟨name⟩ : Path).isAbsolute = false := by
  constructor
  · intro h
    rw [Bool.eq_false_iff]
    intro hname
    have hhead : name.toList.head? = some '/' := by simpa [Path.isAbsolute] using hname
    apply h
    rw [Path.join_def, Path.join_def, Path.join, Path.join, if_pos (.inl hhead), if_pos (.inl hhead)]
  · intro hname h
    have hnames : (v.sessions / id / name).names = (v.sessions / id' / name).names := congrArg Path.names h
    rw [Path.names_join_relative (Path.text_join_ne hid) hname,
      Path.names_join_relative (Path.text_join_ne hid') hname, List.append_left_inj,
      Path.names_join_inj hid hid'] at hnames
    exact hne hnames

theorem sessionFiles_disjoint {v : Vault} {id id' name : String} (hne : id ≠ id') {h h₁ g g₁ : Host}
    {p p' : Path} (hp : (v.sessionFile id name).run.run h = (.ok p, h₁))
    (hp' : (v.sessionFile id' name).run.run g = (.ok p', g₁)) :
    (p ≠ p' ↔ (⟨name⟩ : Path).isAbsolute = false) ∧
    ∀ (fs : FileSystem) (d : Loc), v.RealSession id d fs → v.RealSession id' d fs →
      (KeepsInside name → (∀ m, fs.Targets p m → ¬ fs.Targets p' m) ∧
        ∀ text fs', fs.write p text = .ok fs' →
          ∀ m, fs.Targets p' m → fs'.tree.get? m = fs.tree.get? m) ∧
      (¬ KeepsInside name → ∀ m m', fs.Targets p m → fs.Targets p' m' → m = m') := by
  obtain ⟨hid, rfl⟩ := sessionFile_ok hp
  obtain ⟨hid', rfl⟩ := sessionFile_ok hp'
  have hpaths : v.sessionDir id / name ≠ v.sessionDir id' / name ↔ (⟨name⟩ : Path).isAbsolute = false :=
    sessionPaths_ne_iff hid hid' hne
  refine ⟨hpaths, fun fs d hs hs' => ⟨?_, ?_⟩⟩
  · rintro ⟨hname, r, hc⟩
    have hapart : ∀ m, fs.Targets (v.sessionDir id / name) m → ¬ fs.Targets (v.sessionDir id' / name) m := by
      intro m hm hm'
      have := (hs.targets_within hname hc hm).symm.trans (hs'.targets_within hname hc hm')
      exact hne (FileTree.head_eq_of_append_cons this)
    refine ⟨hapart, fun text fs' hw m hm' => ?_⟩
    obtain ⟨l, hl, hget⟩ := FileSystem.write_targets hw
    rw [hget, if_neg]
    rintro rfl
    exact hapart _ hl hm'
  · intro hout m m' hm hm'
    by_cases hname : (⟨name⟩ : Path).isAbsolute = false
    · cases hc : course [] (⟨name⟩ : Path).names with
      | within r => exact absurd ⟨hname, r, hc⟩ hout
      | out rest => exact hs.targets_out hs' hname hc hm hm'
    · -- a name that stands alone is one path for both
      rw [Decidable.not_not.1 (mt hpaths.1 hname)] at hm
      exact hm.unique hm'

def twoSessions : Host :=
  ⟨((layOut .empty []).add [sessionsName, rootName] "a" .directory).add [sessionsName, rootName] "b" .directory,
    {}, []⟩

theorem toList_twoSessions : twoSessions.files.tree.toList =
    [([], .directory), ([rootName], .directory), ([reportsName, rootName], .directory),
      ([sessionsName, rootName], .directory), (["b", sessionsName, rootName], .directory),
      (["a", sessionsName, rootName], .directory)] := by rfl

theorem realSession_twoSessions {id : String} (hid : id = "a" ∨ id = "b") :
    (under ⟨"/"⟩).RealSession id [sessionsName, rootName] twoSessions.files := by
  refine ⟨by rfl, ?_, fun m _ target hm => ?_⟩
  · rcases hid with rfl | rfl <;> rfl
  · have hmem := FileTree.mem_toList.2 hm
    rw [toList_twoSessions] at hmem
    simp at hmem

theorem run_sessionFile_twoSessions {id : String} (hid : id = "a" ∨ id = "b") (name : String) :
    ((under ⟨"/"⟩).sessionFile id name).run.run twoSessions =
      (.ok ((under ⟨"/"⟩).sessionDir id / name), twoSessions) := by
  apply (realSession_twoSessions hid).run_sessionFile
  rcases hid with rfl | rfl <;> decide

/-- Two sessions do not share the file of one name, written with a dot in front. -/
theorem sessionFiles_disjoint_dot : "a" ≠ "b" ∧
    ((under ⟨"/"⟩).sessionFile "a" "./x").run.run twoSessions =
      (.ok ((under ⟨"/"⟩).sessionDir "a" / "./x"), twoSessions) ∧
    ((under ⟨"/"⟩).sessionFile "b" "./x").run.run twoSessions =
      (.ok ((under ⟨"/"⟩).sessionDir "b" / "./x"), twoSessions) ∧
    (under ⟨"/"⟩).RealSession "a" [sessionsName, rootName] twoSessions.files ∧
    (under ⟨"/"⟩).RealSession "b" [sessionsName, rootName] twoSessions.files ∧ KeepsInside "./x" ∧
    twoSessions.files.Targets ((under ⟨"/"⟩).sessionDir "a" / "./x") ["x", "a", sessionsName, rootName] ∧
    ¬ twoSessions.files.Targets ((under ⟨"/"⟩).sessionDir "b" / "./x") ["x", "a", sessionsName, rootName] := by
  have hne : "a" ≠ "b" := by decide
  have hreal := realSession_twoSessions (.inl rfl)
  have hreal' := realSession_twoSessions (.inr rfl)
  have hrun := run_sessionFile_twoSessions (.inl rfl) "./x"
  have hrun' := run_sessionFile_twoSessions (.inr rfl) "./x"
  have hinside : KeepsInside "./x" := ⟨by decide, ["x"], by decide⟩
  have htarget : twoSessions.files.Targets ((under ⟨"/"⟩).sessionDir "a" / "./x")
      ["x", "a", sessionsName, rootName] := ⟨.vacant ["a", sessionsName, rootName] "x", by rfl, rfl⟩
  exact ⟨hne, hrun, hrun', hreal, hreal', hinside, htarget,
    (((sessionFiles_disjoint hne hrun hrun').2 _ _ hreal hreal').1 hinside).1 _ htarget⟩

theorem find_up_twoSessions {id : String} (hid : id = "a" ∨ id = "b") :
    twoSessions.files.find true ((under ⟨"/"⟩).sessionDir id / "../x") =
      .ok (.vacant [sessionsName, rootName] "x") := by
  rcases hid with rfl | rfl <;> rfl

/-- Two sessions share the path of a name that starts with a slash, and the file of one that climbs out:
written for one, it is there for the other. -/
theorem sessionFiles_meet :
    (under ⟨"/"⟩).RealSession "a" [sessionsName, rootName] twoSessions.files ∧
    (under ⟨"/"⟩).RealSession "b" [sessionsName, rootName] twoSessions.files ∧
    ((under ⟨"/"⟩).sessionFile "a" "/x").run.run twoSessions = (.ok ⟨"/x"⟩, twoSessions) ∧
    ((under ⟨"/"⟩).sessionFile "b" "/x").run.run twoSessions = (.ok ⟨"/x"⟩, twoSessions) ∧
    ((under ⟨"/"⟩).sessionFile "a" "../x").run.run twoSessions =
      (.ok ((under ⟨"/"⟩).sessionDir "a" / "../x"), twoSessions) ∧
    ((under ⟨"/"⟩).sessionFile "b" "../x").run.run twoSessions =
      (.ok ((under ⟨"/"⟩).sessionDir "b" / "../x"), twoSessions) ∧
    twoSessions.files.Targets ((under ⟨"/"⟩).sessionDir "b" / "../x") ["x", sessionsName, rootName] ∧
    twoSessions.files.tree.get? ["x", sessionsName, rootName] = none ∧
    ∃ fs, twoSessions.files.write ((under ⟨"/"⟩).sessionDir "a" / "../x") "text" = .ok fs ∧
      fs.tree.get? ["x", sessionsName, rootName] = some (.file "text") := by
  have hfind := find_up_twoSessions (.inl rfl)
  have hcan : twoSessions.files.tree.CanAdd [sessionsName, rootName] "x" := FileSystem.find_reached hfind
  refine ⟨realSession_twoSessions (.inl rfl), realSession_twoSessions (.inr rfl),
    run_sessionFile_twoSessions (.inl rfl) "/x", run_sessionFile_twoSessions (.inr rfl) "/x",
    run_sessionFile_twoSessions (.inl rfl) "../x", run_sessionFile_twoSessions (.inr rfl) "../x",
    ⟨_, find_up_twoSessions (.inr rfl), rfl⟩, hcan.2.2,
    twoSessions.files.add [sessionsName, rootName] "x" (.file "text"), ?_, ?_⟩
  · rw [FileSystem.write, hfind]
  · rw [FileSystem.get?_add hcan, if_pos rfl]

end Vault
end CrashVault
