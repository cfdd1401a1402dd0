import CrashVault.Text

/-! Path texts, kept as given: joining adds at most one slash and nothing is normalised. The names of
a path are its non-empty pieces between slashes; joining a name to a path adds exactly that name. -/

namespace CrashVault

/-- A name that stands for one entry of a directory. -/
def IsName (s : String) : Prop := s ≠ "" ∧ s ≠ "." ∧ s ≠ ".." ∧ '/' ∉ s.toList

instance (s : String) : Decidable (IsName s) := inferInstanceAs (Decidable (_ ∧ _ ∧ _ ∧ _))

theorem isName_append {a b : String} (ha : IsName a) (hb : b = "" ∨ 2 < b.length) (hslash : '/' ∉ b.toList) :
    IsName (a ++ b) := by
  rcases hb with rfl | hb
  · rwa [String.append_empty]
  · have hlong : ∀ s : String, s.length ≤ 2 → a ++ b ≠ s := by
      rintro s hs rfl
      rw [String.length_append] at hs
      omega
    refine ⟨hlong "" (by decide), hlong "." (by decide), hlong ".." (by decide), ?_⟩
    rw [String.toList_append, List.mem_append, not_or]
    exact ⟨ha.2.2.2, hslash⟩

/-- What a lookup can be asked to step through: a name, or a dot or two. -/
def IsStep (s : String) : Prop := s ≠ "" ∧ '/' ∉ s.toList

/-- A text that the system takes in whole: it reads no further than to a NUL. -/
def NulFree (s : String) : Prop := '\x00' ∉ s.toList

instance (s : String) : Decidable (NulFree s) := inferInstanceAs (Decidable (_ ∉ _))

structure Path where
  text : String
  deriving DecidableEq, Inhabited

namespace Path

def isAbsolute (p : Path) : Bool := p.text.toList.head? = some '/'

def endsInSlash (p : Path) : Bool := p.text.toList.getLast? = some '/'

def byteSize (p : Path) : Nat := p.text.utf8ByteSize

/-- The non-empty pieces between slashes. -/
def names (p : Path) : List String := ((cut '/' p.text.toList).filter (· ≠ [])).map String.ofList

/-- What a lookup walks through: a closing slash asks for the directory itself. -/
def steps (p : Path) : List String := if p.endsInSlash then p.names ++ ["."] else p.names

/-- A name that starts with a slash stands alone, and so does a name joined to the empty path. -/
def join (p : Path) (name : String) : Path :=
  if name.toList.head? = some '/' ∨ p.text = "" then ⟨name⟩
  else if p.endsInSlash then ⟨p.text ++ name⟩
  else ⟨p.text ++ "/" ++ name⟩

instance : HDiv Path String Path := ⟨join⟩

/-- What follows the last slash. -/
def fileName (p : Path) : String :=
  String.ofList (p.text.toList.reverse.takeWhile (· ≠ '/')).reverse

/-- The text up to the end of the name before the last one, or what stands before the last slash; a
path without names is its own parent, and the first slash of an absolute path is never cut off. -/
def parent (p : Path) : Path :=
  if p.names = [] then p
  else
    let rest := (p.text.toList.reverse.dropWhile (· ≠ '/')).dropWhile (· = '/')
    if rest = [] ∧ p.isAbsolute then ⟨"/"⟩ else ⟨String.ofList rest.reverse⟩

theorem join_def (p : Path) (name : String) : p / name = p.join name := rfl

theorem nulFree_join {p : Path} {n : String} (hp : NulFree p.text) (hn : NulFree n) : NulFree (p / n).text := by
  rw [join_def, join]
  split
  · exact hn
  · split <;> simp_all [NulFree]

theorem nulFree_parent {p : Path} (hp : NulFree p.text) : NulFree p.parent.text := by
  unfold parent
  split
  · exact hp
  · dsimp only
    split
    · decide
    · intro hnul
      rw [String.toList_ofList, List.mem_reverse] at hnul
      have hrest := (List.dropWhile_sublist _).subset ((List.dropWhile_sublist _).subset hnul)
      exact hp (List.mem_reverse.1 hrest)

theorem isStep_of_mem_names {p : Path} {s : String} (h : s ∈ p.names) : IsStep s := by
  obtain ⟨w, hw, rfl⟩ := List.mem_map.1 h
  obtain ⟨hw, hne⟩ := List.mem_filter.1 hw
  exact ⟨by simpa using hne, by simpa using not_mem_of_mem_cut hw⟩

theorem isStep_of_mem_steps {p : Path} {s : String} (h : s ∈ p.steps) : IsStep s := by
  unfold steps at h
  split at h
  · rcases List.mem_append.1 h with h | h
    · exact isStep_of_mem_names h
    · rw [List.mem_singleton.1 h]
      exact ⟨by decide, by decide⟩
  · exact isStep_of_mem_names h

theorem names_join_step {p : Path} {n : String} (h : IsStep n) : (p / n).names = p.names ++ [n] := by
  obtain ⟨h1, h4⟩ := h
  have hn : n.toList ≠ [] := by simpa using h1
  have hs : n.toList.head? ≠ some '/' := fun e => h4 (List.mem_of_head? e)
  have single : ((cut '/' n.toList).filter (· ≠ [])).map String.ofList = [n] := by
    simp [cut_of_not_mem h4, hn]
  simp only [join_def, join, hs, false_or]
  split
  · rename_i he
    simp [names, he, cut]
    simpa using single
  · split
    · rename_i he
      obtain ⟨a, ha⟩ := List.getLast?_eq_some_iff.1 (by simpa [endsInSlash] using he)
      simp only [names, String.toList_append, ha, List.append_assoc, List.singleton_append,
        cut_append, List.filter_append, List.map_append, single]
      simp [cut]
    · simp only [names, String.toList_append, List.append_assoc]
      rw [show "/".toList = ['/'] from rfl, List.singleton_append, cut_append,
        List.filter_append, List.map_append, single]

theorem names_join {p : Path} {n : String} (h : IsName n) : (p / n).names = p.names ++ [n] :=
  names_join_step ⟨h.1, h.2.2.2⟩

theorem names_join_inj {p : Path} {n m : String} (hn : IsName n) (hm : IsName m) :
    (p / n).names = (p / m).names ↔ n = m := by
  rw [names_join hn, names_join hm, List.append_right_inj, List.singleton_inj]

theorem join_inj {p : Path} {n m : String} (hn : IsName n) (hm : IsName m) : p / n = p / m ↔ n = m :=
  ⟨fun h => (names_join_inj hn hm).1 (congrArg names h), congrArg (p / ·)⟩

theorem byteSize_join {p : Path} {n : String} (h : IsName n) (hp : p.text ≠ "") :
    p.byteSize < (p / n).byteSize := by
  obtain ⟨h1, -, -, h4⟩ := h
  have hs : n.toList.head? ≠ some '/' := fun e => h4 (List.mem_of_head? e)
  have hz : 0 < n.utf8ByteSize := by
    rcases Nat.eq_zero_or_pos n.utf8ByteSize with h0 | h0
    · exact absurd (String.utf8ByteSize_eq_zero_iff.1 h0) h1
    · exact h0
  simp only [join_def, join, hs, false_or, hp, if_false]
  split <;> simp only [byteSize, String.utf8ByteSize_append] <;> omega

theorem byteSize_join_le (p : Path) (n : String) : (p / n).byteSize ≤ p.byteSize + n.utf8ByteSize + 1 := by
  have hslash : "/".utf8ByteSize = 1 := rfl
  simp only [join_def, join]
  split
  · simp only [byteSize]
    omega
  · split
    · simp only [byteSize, String.utf8ByteSize_append]
      omega
    · simp only [byteSize, String.utf8ByteSize_append]
      omega

theorem isAbsolute_join {p : Path} {n : String} (h : IsStep n) (hp : p.text ≠ "") :
    (p / n).isAbsolute = p.isAbsolute := by
  obtain ⟨-, h4⟩ := h
  have hs : n.toList.head? ≠ some '/' := fun e => h4 (List.mem_of_head? e)
  have hne : p.text.toList ≠ [] := by simpa using hp
  simp only [join_def, join, hs, false_or, hp, if_false, isAbsolute]
  split <;> simp [List.head?_append, List.head?_eq_some_head hne]

end Path
end CrashVault
