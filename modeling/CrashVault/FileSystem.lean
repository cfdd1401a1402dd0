import CrashVault.FileSystem.WorkingDir
import CrashVault.FileTree.Walk

/-! A file system: a tree, the working directory that relative paths start from, and the order in
which directories list their entries. Every question about a path is asked here; none changes anything. -/

namespace CrashVault

/-- An order in which each directory lists its entries, every one of them once. -/
structure ListingOrder where
  arrange : Loc → List String → List String
  perm : ∀ d ns, (arrange d ns).Perm ns

def ListingOrder.byName : ListingOrder where
  arrange _ ns := ns.mergeSort (· ≤ ·)
  perm _ ns := List.mergeSort_perm ns _

instance : Inhabited ListingOrder := ⟨.byName⟩

structure FileSystem where
  tree : FileTree
  cwd : WorkingDir
  order : ListingOrder
  stands : tree.get? cwd.place = some .directory

def FileSystem.empty : FileSystem := ⟨.empty, .root, .byName, FileTree.get?_root _⟩

instance : Inhabited FileSystem := ⟨.empty⟩

/-- The longest path text the system takes, in bytes. -/
def pathMax : Nat := 4095

namespace FileSystem

def startOf (fs : FileSystem) (p : Path) : WorkingDir := if p.isAbsolute then .root else fs.cwd

/-- Where the steps of a path lead. Its text is read to the end, as the system does if it holds no NUL
(`NulFree`). -/
def locate (fs : FileSystem) (follow : Bool) (p : Path) (steps : List String) :
    Except SystemError Spot :=
  if p.text = "" then .error .missing
  else if pathMax < p.byteSize then .error .nameTooLong
  else fs.tree.walkOut follow (fs.startOf p).place (fs.startOf p).lost steps

def find (fs : FileSystem) (follow : Bool) (p : Path) : Except SystemError Spot :=
  fs.locate follow p p.steps

/-- The entry of a directory that the path names, a link being an entry of its own. -/
def entry (fs : FileSystem) (p : Path) : Except SystemError Spot := fs.locate false p p.names

def node (fs : FileSystem) (follow : Bool) (p : Path) : Except SystemError Node :=
  match fs.find follow p with
  | .ok (.node l) => match fs.tree.get? l with
    | some x => .ok x
    | none => .error .missing
  | .ok .removed => .ok .directory
  | .ok (.vacant _ _) => .error .missing
  | .error e => .error e

/-- The node a path leads to, through a last link. -/
def status (fs : FileSystem) (p : Path) : Except SystemError Node := fs.node true p

/-- The node a path leads to, a last link standing for itself. -/
def linkStatus (fs : FileSystem) (p : Path) : Except SystemError Node := fs.node false p

def isDirectory (fs : FileSystem) (p : Path) : Bool := fs.status p matches .ok .directory

def list (fs : FileSystem) (p : Path) : Except SystemError (List String) :=
  match fs.find true p with
  | .ok (.node l) => match fs.tree.get? l with
    | some .directory => .ok (fs.order.arrange l (fs.tree.children l))
    | some _ => .error .notDirectory
    | none => .error .missing
  | .ok .removed => .ok []
  | .ok (.vacant _ _) => .error .missing
  | .error e => .error e

/-- Everything below the working directory, placed from there. One that has been removed holds nothing,
whatever stands at its place now. -/
def contents (fs : FileSystem) : List (Loc × Node) :=
  if fs.cwd.lost = 0 then
    fs.tree.toList.filterMap fun (l, x) =>
      if fs.cwd.place <:+ l ∧ l ≠ fs.cwd.place then
        some (l.take (l.length - fs.cwd.place.length), x)
      else none
  else []

/-- The absolute form of a path: joined to the working directory, which must be there, otherwise as it
is. The empty path has none. -/
def absolute (fs : FileSystem) (p : Path) : Except SystemError Path :=
  if p.text = "" then .error .invalid
  else if p.isAbsolute then .ok p
  else if fs.cwd.lost = 0 then .ok ((fs.cwd.place.reverse.foldl (· / ·) (⟨"/"⟩ : Path)) / p.text)
  else .error .missing

def enterDir (fs : FileSystem) (p : Path) : Except SystemError FileSystem :=
  match fs.find true p with
  | .ok (.node l) =>
    if h : fs.tree.get? l = some .directory then .ok { fs with cwd := ⟨l, 0⟩, stands := h }
    else .error .notDirectory
  | .ok .removed => .ok fs
  | .ok (.vacant _ _) => .error .missing
  | .error e => .error e

theorem get?_startOf (fs : FileSystem) (p : Path) :
    fs.tree.get? (fs.startOf p).place = some .directory := by
  unfold startOf
  split
  · exact FileTree.get?_root _
  · exact fs.stands

theorem locate_reached {fs : FileSystem} {follow : Bool} {p : Path} {steps : List String} {spot : Spot}
    (hs : ∀ s ∈ steps, IsStep s) (h : fs.locate follow p steps = .ok spot) : fs.tree.Reached spot := by
  unfold locate at h
  split at h
  · cases h
  · split at h
    · cases h
    · exact FileTree.walkOut_reached (fs.get?_startOf p) hs h

theorem entry_reached {fs : FileSystem} {p : Path} {spot : Spot} (h : fs.entry p = .ok spot) :
    fs.tree.Reached spot :=
  locate_reached (fun _ => Path.isStep_of_mem_names) h

theorem find_reached {fs : FileSystem} {follow : Bool} {p : Path} {spot : Spot}
    (h : fs.find follow p = .ok spot) : fs.tree.Reached spot :=
  locate_reached (fun _ => Path.isStep_of_mem_steps) h

theorem mem_contents {fs : FileSystem} {r : Loc} {x : Node} :
    (r, x) ∈ fs.contents ↔ fs.cwd.lost = 0 ∧ r ≠ [] ∧ fs.tree.get? (r ++ fs.cwd.place) = some x := by
  unfold contents
  split
  · rename_i hlost
    simp only [List.mem_filterMap, Prod.exists, FileTree.mem_toList, hlost, true_and]
    constructor
    · rintro ⟨l, y, hl, h⟩
      split at h
      · rename_i hs
        obtain ⟨⟨s, rfl⟩, hne⟩ := hs
        obtain ⟨rfl, rfl⟩ := Prod.mk.inj (Option.some.inj h)
        simp only [List.length_append, Nat.add_sub_cancel, List.take_left]
        exact ⟨fun he => hne (by simp [he]), hl⟩
      · cases h
    · rintro ⟨hr, hx⟩
      refine ⟨r ++ fs.cwd.place, x, hx, ?_⟩
      rw [if_pos ⟨List.suffix_append r _, by simpa using hr⟩]
      simp
  · rename_i hlost
    simp [hlost]

theorem list_of_find {fs : FileSystem} {p : Path} {l : Loc} (hp : fs.find true p = .ok (.node l))
    (hl : fs.tree.get? l = some .directory) :
    ∃ names : List String, fs.list p = .ok names ∧ names.Perm (fs.tree.children l) :=
  ⟨_, by simp only [list, hp, hl], fs.order.perm l _⟩

theorem find_of_mem_list {fs : FileSystem} {p : Path} {names : List String} (h : fs.list p = .ok names)
    {n : String} (hn : n ∈ names) : ∃ l, fs.find true p = .ok (.node l) ∧
      fs.tree.get? l = some .directory ∧ n ∈ fs.tree.children l := by
  unfold list at h
  split at h
  · rename_i l hl
    split at h
    · cases h
      exact ⟨l, hl, ‹_›, (fs.order.perm _ _).subset hn⟩
    · cases h
    · cases h
  · cases h
    cases hn
  · cases h
  · cases h

theorem isEntryName_of_list {fs : FileSystem} {p : Path} {names : List String}
    (h : fs.list p = .ok names) {n : String} (hn : n ∈ names) : IsEntryName n := by
  obtain ⟨l, -, -, hmem⟩ := find_of_mem_list h hn
  obtain ⟨x, hx⟩ := FileTree.mem_children.1 hmem
  exact FileTree.isEntryName_of_get? hx

theorem locate_ok {fs : FileSystem} {follow : Bool} {p : Path} {steps : List String} {spot : Spot}
    (h : fs.locate follow p steps = .ok spot) : p.text ≠ "" ∧ p.byteSize ≤ pathMax := by
  unfold locate at h
  split at h
  · cases h
  · split at h
    · cases h
    · exact ⟨‹_›, by omega⟩

theorem linkStatus_ok {fs : FileSystem} {p : Path} {x : Node} (h : fs.linkStatus p = .ok x) :
    p.text ≠ "" ∧ p.byteSize ≤ pathMax := by
  unfold linkStatus node find at h
  split at h
  · exact locate_ok ‹_›
  · exact locate_ok ‹_›
  · cases h
  · cases h

theorem entry_node {fs : FileSystem} {p : Path} {n : String} {l : Loc}
    (hn : p.names.getLast? = some n) (h1 : n ≠ ".") (h2 : n ≠ "..") (h : fs.entry p = .ok (.node l)) :
    ∃ d, l = n :: d := by
  obtain ⟨init, hi⟩ := List.getLast?_eq_some_iff.1 hn
  unfold entry locate at h
  split at h
  · cases h
  · split at h
    · cases h
    · rw [hi, FileTree.walkOut_snoc (.inr ⟨h2, rfl⟩)] at h
      cases hw : fs.tree.walkOut true (fs.startOf p).place (fs.startOf p).lost init with
      | error e => simp [hw, bind, Except.bind] at h
      | ok spot =>
        simp only [hw, bind, Except.bind] at h
        obtain ⟨d, -, rfl, -⟩ := FileTree.enter_node h1 h2 h
        exact ⟨d, rfl⟩

end FileSystem
end CrashVault
