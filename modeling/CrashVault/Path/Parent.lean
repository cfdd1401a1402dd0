import CrashVault.Path

/-! The parent of a path text. A path begins with its parent, cut off behind a name (`begins_parent`);
the parent of a joined path has the names of the path joined to (`names_parent_join`). -/

namespace CrashVault
namespace Path

/-- The path starts with the text of `q`, cut off behind a name. -/
def Begins (q p : Path) : Prop := q.text.toList <+: p.text.toList ∧ q.names <+: p.names

theorem Begins.refl (p : Path) : p.Begins p := ⟨List.prefix_refl _, List.prefix_refl _⟩

theorem Begins.trans {a b c : Path} (h1 : a.Begins b) (h2 : b.Begins c) : a.Begins c :=
  ⟨h1.1.trans h2.1, h1.2.trans h2.2⟩

def namesIn (cs : List Char) : List String := ((cut '/' cs).filter (· ≠ [])).map String.ofList

theorem names_eq (p : Path) : p.names = namesIn p.text.toList := rfl

theorem namesIn_append (a b : List Char) : namesIn (a ++ '/' :: b) = namesIn a ++ namesIn b := by
  simp only [namesIn, cut_append, List.filter_append, List.map_append]

theorem namesIn_nil : namesIn [] = [] := by simp [namesIn, cut]

theorem namesIn_snoc (a : List Char) : namesIn (a ++ ['/']) = namesIn a := by
  rw [namesIn_append, namesIn_nil, List.append_nil]

theorem namesIn_trim (r : List Char) : namesIn (r.dropWhile (· = '/')).reverse = namesIn r.reverse := by
  induction r with
  | nil => rfl
  | cons c r ih =>
    by_cases hc : c = '/'
    · rw [List.dropWhile_cons_of_pos (by simpa using hc), ih, List.reverse_cons, hc, namesIn_snoc]
    · rw [List.dropWhile_cons_of_neg (by simpa using hc)]

theorem eq_slash_of_dropWhile {cs r : List Char} {c : Char} (h : cs.dropWhile (· ≠ '/') = c :: r) :
    c = '/' := by
  have := List.head?_dropWhile_not (· ≠ '/') cs
  rw [h] at this
  simpa using this

theorem namesIn_dropWhile (cs : List Char) :
    namesIn (cs.reverse.dropWhile (· ≠ '/')).reverse <+: namesIn cs := by
  have hcs : cs = (cs.reverse.dropWhile (· ≠ '/')).reverse ++ (cs.reverse.takeWhile (· ≠ '/')).reverse := by
    rw [← List.reverse_append, List.takeWhile_append_dropWhile, List.reverse_reverse]
  cases hd : cs.reverse.dropWhile (· ≠ '/') with
  | nil => simp [namesIn_nil]
  | cons c r =>
    have hc := eq_slash_of_dropWhile hd
    rw [hd, hc, List.reverse_cons, List.append_assoc, List.singleton_append] at hcs
    rw [hc, List.reverse_cons, namesIn_snoc, hcs, namesIn_append]
    exact List.prefix_append _ _

theorem begins_parent (p : Path) : p.parent.Begins p := by
  unfold parent
  split
  · exact .refl p
  · dsimp only
    split
    · rename_i habs
      obtain ⟨cs, hcs⟩ := List.head?_eq_some_iff.1 (by simpa [isAbsolute] using habs.2)
      exact ⟨⟨cs, hcs.symm⟩, by simp [names, cut]⟩
    · refine ⟨?_, ?_⟩
      · rw [String.toList_ofList, ← List.reverse_suffix, List.reverse_reverse]
        exact (List.dropWhile_suffix _).trans (List.dropWhile_suffix _)
      · rw [names_eq, names_eq, String.toList_ofList, namesIn_trim]
        exact namesIn_dropWhile _

theorem head?_ne_slash {n : String} (h : IsName n) : n.toList.head? ≠ some '/' :=
  fun e => h.2.2.2 (List.mem_of_head? e)

theorem text_join_ne {p : Path} {n : String} (h : IsName n) : (p / n).text ≠ "" := by
  have hn := h.1
  simp only [join_def, join, head?_ne_slash h, false_or]
  split
  · exact hn
  · split <;> simp [hn]

/-- The text of a joined path, read from its end: the name, then nothing or a slash, and what is in
front of the slashes there is the path joined to. -/
theorem reverse_join {p : Path} {n : String} (h : IsName n) :
    ∃ r, (p / n).text.toList.reverse = n.toList.reverse ++ r ∧ (∀ c, r.head? = some c → c = '/') ∧
      r.dropWhile (· = '/') = p.text.toList.reverse.dropWhile (· = '/') := by
  simp only [join_def, join, head?_ne_slash h, false_or]
  by_cases he : p.text = ""
  · exact ⟨[], by simp [he], by simp, by simp [he]⟩
  · by_cases hs : p.endsInSlash
    · refine ⟨p.text.toList.reverse, by simp [he, hs], fun c hc => ?_, rfl⟩
      have : p.text.toList.getLast? = some '/' := by simpa [endsInSlash] using hs
      rw [List.head?_reverse, this] at hc
      exact (Option.some.inj hc).symm
    · exact ⟨'/' :: p.text.toList.reverse, by simp [he, hs], by simp, by simp⟩

theorem ne_slash_of_mem_reverse {n : String} (h : IsName n) :
    ∀ c ∈ n.toList.reverse, decide (c ≠ '/') = true := by
  intro c hc
  have : c ∈ n.toList := by simpa using hc
  simpa using fun e : c = '/' => h.2.2.2 (e ▸ this)

theorem endsInSlash_join {p : Path} {n : String} (h : IsName n) : (p / n).endsInSlash = false := by
  obtain ⟨r, hr, -, -⟩ := reverse_join (p := p) h
  obtain ⟨c, cs, hc⟩ := List.exists_cons_of_ne_nil (l := n.toList.reverse) (by simpa using h.1)
  have hlast : (p / n).text.toList.getLast? = some c := by
    rw [← List.head?_reverse, hr, hc]
    rfl
  have := ne_slash_of_mem_reverse h c (by simp [hc])
  simpa [endsInSlash, hlast] using this

theorem takeWhile_of_head {r : List Char} (h : ∀ c, r.head? = some c → c = '/') :
    r.takeWhile (· ≠ '/') = [] ∧ r.dropWhile (· ≠ '/') = r := by
  cases r with
  | nil => exact ⟨rfl, rfl⟩
  | cons c r => simp [h c rfl]

theorem fileName_join {p : Path} {n : String} (h : IsName n) : (p / n).fileName = n := by
  obtain ⟨r, hr, hhead, -⟩ := reverse_join (p := p) h
  rw [fileName, hr, List.takeWhile_append_of_pos (ne_slash_of_mem_reverse h), (takeWhile_of_head hhead).1]
  simp

/-- A path is its file name joined to what stands in front of that, the last slash included. -/
theorem exists_join_step {p : Path} (h : IsStep p.fileName) : ∃ q : Path, p = q / p.fileName := by
  have htext : p.text =
      String.ofList (p.text.toList.reverse.dropWhile (· ≠ '/')).reverse ++ p.fileName := by
    rw [← String.toList_inj, String.toList_append, String.toList_ofList, fileName, String.toList_ofList,
      ← List.reverse_append, List.takeWhile_append_dropWhile, List.reverse_reverse]
  have hhead : p.fileName.toList.head? ≠ some '/' := fun e => h.2 (List.mem_of_head? e)
  refine ⟨⟨String.ofList (p.text.toList.reverse.dropWhile (· ≠ '/')).reverse⟩, ?_⟩
  simp only [join_def, join, hhead, false_or]
  cases hd : p.text.toList.reverse.dropWhile (· ≠ '/') with
  | nil =>
    rw [hd] at htext
    rw [if_pos (by simp)]
    exact congrArg Path.mk (htext.trans String.empty_append)
  | cons c cs =>
    rw [hd] at htext
    rw [if_neg (by simp), if_pos (by simp [endsInSlash, eq_slash_of_dropWhile hd]), ← htext]

theorem exists_join {p : Path} (h : IsName p.fileName) : ∃ q : Path, p = q / p.fileName :=
  exists_join_step ⟨h.1, h.2.2.2⟩

theorem exists_join_last {p : Path} {n : String} (hslash : p.endsInSlash = false)
    (hlast : p.names.getLast? = some n) : ∃ q : Path, p = q / n := by
  have htext : p.text.toList ≠ [] := by
    intro hnil
    rw [names_eq, hnil, namesIn_nil] at hlast
    cases hlast
  obtain ⟨c, cs, hcs⟩ := List.exists_cons_of_ne_nil (l := p.text.toList.reverse) (by simpa using htext)
  have hc : c ≠ '/' := by
    rintro rfl
    rw [endsInSlash, ← List.head?_reverse, hcs] at hslash
    simp at hslash
  have hstep : IsStep p.fileName := by
    refine ⟨?_, ?_⟩
    · simp [fileName, hcs, hc]
    · rw [fileName, String.toList_ofList, List.mem_reverse]
      intro hmem
      have hall := List.all_eq_true.1 (List.all_takeWhile (p := fun c => decide (c ≠ '/'))
        (l := p.text.toList.reverse)) '/' hmem
      simp at hall
  obtain ⟨q, hq⟩ := exists_join_step hstep
  rw [hq, names_join_step hstep, List.getLast?_concat, Option.some.injEq] at hlast
  exact ⟨q, hlast ▸ hq⟩

theorem isAbsolute_join' {p : Path} {n : String} (h : IsName n) : (p / n).isAbsolute = p.isAbsolute := by
  by_cases hp : p.text = ""
  · have : n.toList.head? ≠ some '/' := head?_ne_slash h
    simp [join_def, join, hp, isAbsolute, this]
  · exact isAbsolute_join ⟨h.1, h.2.2.2⟩ hp

/-- The parent of a joined path: the path joined to, without the slashes at its end; the first slash of
an absolute path stays. -/
theorem parent_join {p : Path} {n : String} (h : IsName n) : (p / n).parent =
    if p.text.toList.reverse.dropWhile (· = '/') = [] ∧ p.isAbsolute then ⟨"/"⟩
    else ⟨String.ofList (p.text.toList.reverse.dropWhile (· = '/')).reverse⟩ := by
  obtain ⟨r, hr, hhead, hdrop⟩ := reverse_join (p := p) h
  have hnames : (p / n).names ≠ [] := by simp [names_join h]
  rw [parent, if_neg hnames, hr, List.dropWhile_append_of_pos (ne_slash_of_mem_reverse h),
    (takeWhile_of_head hhead).2, hdrop, isAbsolute_join' h]

theorem names_parent_join {p : Path} {n : String} (h : IsName n) : (p / n).parent.names = p.names := by
  have htrim := namesIn_trim p.text.toList.reverse
  rw [List.reverse_reverse] at htrim
  rw [parent_join h, names_eq p, ← htrim]
  split
  · rename_i hc
    rw [hc.1]
    simp [names, cut, namesIn_nil]
  · rw [names_eq, String.toList_ofList]

/-- The text of a path without the slashes at its end, then those slashes. -/
theorem trim_append (p : Path) : ∃ slashes, (∀ c ∈ slashes, c = '/') ∧
    p.text.toList = (p.text.toList.reverse.dropWhile (· = '/')).reverse ++ slashes := by
  refine ⟨(p.text.toList.reverse.takeWhile (· = '/')).reverse, fun c hc => ?_, ?_⟩
  · have := List.all_takeWhile (p := fun c => decide (c = '/')) (l := p.text.toList.reverse)
    exact of_decide_eq_true (List.all_eq_true.1 this c (List.mem_reverse.1 hc))
  · rw [← List.reverse_append, List.takeWhile_append_dropWhile, List.reverse_reverse]

theorem isAbsolute_parent_join {p : Path} {n : String} (h : IsName n) :
    (p / n).parent.isAbsolute = p.isAbsolute := by
  obtain ⟨slashes, -, htext⟩ := trim_append p
  rw [parent_join h]
  split
  · rename_i hc
    rw [hc.2]
    rfl
  · rename_i hc
    cases ht : (p.text.toList.reverse.dropWhile (· = '/')).reverse with
    | nil =>
      have : p.isAbsolute = false := by simpa [List.reverse_eq_nil_iff.1 ht] using hc
      rw [this]
      rfl
    | cons c cs =>
      rw [ht] at htext
      simp [isAbsolute, htext]

theorem join_up {p : Path} (hp : p.text ≠ "") {n : String} (hn : IsName n) :
    p / ("../" ++ n) = p / ".." / n := by
  have hslash : ("../" ++ n).toList.head? ≠ some '/' := by simp
  have hdots : "..".toList.head? ≠ some '/' := by decide
  have hjoin : ∀ s : String, s ++ ".." ++ "/" = s ++ "../" := fun s => String.append_assoc
  simp only [join_def, join, hslash, hdots, head?_ne_slash hn, hp, or_self, false_or, if_false]
  split
  · rw [if_neg (by simp), if_neg (by simp [endsInSlash]), ← String.append_assoc]
    simp only [hjoin]
  · rw [if_neg (by simp), if_neg (by simp [endsInSlash]), ← String.append_assoc]
    simp only [hjoin]

end Path
end CrashVault
