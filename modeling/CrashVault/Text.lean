/-! Cutting a text at a character. Texts that meet at the character are cut apart there
(`cut_append`), and no piece holds it (`not_mem_of_mem_cut`). -/

namespace CrashVault

/-- The pieces of a text between the places where `sep` stands; one more than there are such places. -/
def cut (sep : Char) : List Char → List (List Char)
  | [] => [[]]
  | c :: cs =>
    if c = sep then [] :: cut sep cs
    else match cut sep cs with
      | [] => [[c]]
      | w :: ws => (c :: w) :: ws

theorem cut_ne_nil (sep : Char) (cs : List Char) : cut sep cs ≠ [] := by
  cases cs with
  | nil => simp [cut]
  | cons c cs =>
    unfold cut
    split
    · simp
    · split <;> simp

theorem cut_append (sep : Char) (a b : List Char) : cut sep (a ++ sep :: b) = cut sep a ++ cut sep b := by
  induction a with
  | nil => simp [cut]
  | cons c a ih =>
    by_cases h : c = sep
    · simp [cut, h, ih]
    · simp only [List.cons_append, cut, h, if_false, ih]
      cases hp : cut sep a with
      | nil => exact absurd hp (cut_ne_nil sep a)
      | cons w ws => simp

theorem cut_of_not_mem {sep : Char} {cs : List Char} (h : sep ∉ cs) : cut sep cs = [cs] := by
  induction cs with
  | nil => rfl
  | cons c cs ih =>
    rw [List.mem_cons, not_or] at h
    simp [cut, ih h.2, Ne.symm h.1]

theorem not_mem_of_mem_cut {sep : Char} {cs w : List Char} (hw : w ∈ cut sep cs) : sep ∉ w := by
  induction cs generalizing w with
  | nil =>
    rw [cut, List.mem_singleton] at hw
    simp [hw]
  | cons c cs ih =>
    unfold cut at hw
    split at hw
    · rcases List.mem_cons.1 hw with rfl | hw
      · simp
      · exact ih hw
    · rename_i hc
      split at hw
      · rw [List.mem_singleton] at hw
        simpa [hw] using fun h => hc h.symm
      · rename_i v ws hv
        rcases List.mem_cons.1 hw with rfl | hw
        · rw [List.mem_cons, not_or]
          exact ⟨fun h => hc h.symm, ih (by rw [hv]; exact List.mem_cons_self)⟩
        · exact ih (by rw [hv]; exact List.mem_cons_of_mem _ hw)

theorem mem_of_mem_cut {sep c : Char} {cs w : List Char} (hw : w ∈ cut sep cs) (hc : c ∈ w) : c ∈ cs := by
  induction cs generalizing w with
  | nil =>
    rw [cut, List.mem_singleton] at hw
    exact absurd (hw ▸ hc) List.not_mem_nil
  | cons d cs ih =>
    unfold cut at hw
    split at hw
    · rcases List.mem_cons.1 hw with rfl | hw
      · exact absurd hc List.not_mem_nil
      · exact List.mem_cons_of_mem _ (ih hw hc)
    · split at hw
      · rw [List.mem_singleton] at hw
        subst hw
        exact List.mem_cons.2 (.inl (List.mem_singleton.1 hc))
      · rename_i v ws hv
        rcases List.mem_cons.1 hw with rfl | hw
        · rcases List.mem_cons.1 hc with rfl | hc
          · exact List.mem_cons_self
          · exact List.mem_cons_of_mem _ (ih (hv ▸ List.mem_cons_self) hc)
        · exact List.mem_cons_of_mem _ (ih (hv ▸ List.mem_cons_of_mem _ hw) hc)

/-- The lines of a text: each ends at a newline, which the last one may lack. -/
def lines (cs : List Char) : List (List Char) :=
  if (cut '\n' cs).getLast? = some [] then (cut '\n' cs).dropLast else cut '\n' cs

theorem lines_nil : lines [] = [] := rfl

theorem lines_append (a b : List Char) : lines (a ++ '\n' :: b) = cut '\n' a ++ lines b := by
  have hb := cut_ne_nil '\n' b
  obtain ⟨w, hw⟩ : ∃ w, (cut '\n' b).getLast? = some w := ⟨_, List.getLast?_eq_some_getLast hb⟩
  unfold lines
  rw [cut_append, List.getLast?_append, hw, Option.some_or]
  split
  · rw [List.dropLast_append_of_ne_nil hb]
  · rfl

theorem lines_snoc (a : List Char) : lines (a ++ ['\n']) = cut '\n' a := by
  rw [lines_append, lines_nil, List.append_nil]

theorem mem_of_mem_lines {c : Char} {cs line : List Char} (hline : line ∈ lines cs) (hc : c ∈ line) : c ∈ cs := by
  unfold lines at hline
  split at hline
  · exact mem_of_mem_cut ((List.dropLast_subset _) hline) hc
  · exact mem_of_mem_cut hline hc

/-- Space, tab, newline, vertical tab, form feed and carriage return. -/
def isBlank (c : Char) : Bool := c = ' ' || (9 ≤ c.toNat && c.toNat ≤ 13)

/-- The first word of a text, and what stands behind it. -/
def firstWord (cs : List Char) : List Char × List Char :=
  let rest := cs.dropWhile isBlank
  (rest.takeWhile (!isBlank ·), rest.dropWhile (!isBlank ·))

theorem firstWord_sublist (cs : List Char) : (firstWord cs).1.Sublist cs ∧ (firstWord cs).2.Sublist cs :=
  ⟨(List.takeWhile_sublist _).trans (List.dropWhile_sublist _),
    (List.dropWhile_sublist _).trans (List.dropWhile_sublist _)⟩

end CrashVault
