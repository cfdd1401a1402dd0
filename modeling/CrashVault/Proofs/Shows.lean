import CrashVault.Proofs.Layout
import CrashVault.Proofs.Survivors
import CrashVault.Vault.Contents

/-! The tree below the root shows the contents of a vault: at each place stands the node that the contents
have there. Whatever is done to a directory of the vault can then be read off the contents: writing a file
there (`Shows.answer`), listing it (`Shows.lists`), and removing it, which leaves nothing
(`Shows.not_outOfReach`). -/

namespace CrashVault
namespace Vault

/-- The layout stands, and below the root the tree is the image of the contents, within reach. -/
structure Shows (base : Path) (d : Loc) (c : Contents) (fs : FileSystem) : Prop extends Layout base d fs where
  image : ∀ r, fs.tree.get? (r ++ rootName :: d) = c.nodeAt r
  short : ∀ r x, c.nodeAt r = some x → ((under base).root.extend r).byteSize ≤ pathMax

def KeepsOutside (d : Loc) (fs fs' : FileSystem) : Prop :=
  ∀ m, ¬ rootName :: d <:+ m → fs'.tree.get? m = fs.tree.get? m

theorem KeepsOutside.refl (d : Loc) (fs : FileSystem) : KeepsOutside d fs fs := fun _ _ => rfl

theorem KeepsOutside.trans {d : Loc} {a b c : FileSystem} (h1 : KeepsOutside d a b)
    (h2 : KeepsOutside d b c) : KeepsOutside d a c := fun m hm => (h2 m hm).trans (h1 m hm)

theorem ne_of_outside {d m : Loc} (hm : ¬ rootName :: d <:+ m) (r : Loc) : m ≠ r ++ rootName :: d := by
  rintro rfl
  exact hm (List.suffix_append r _)

theorem Layout.lead_extend {base : Path} {d : Loc} {fs : FileSystem} (h : Layout base d fs) {r : Loc}
    (hr : fs.tree.get? (r ++ rootName :: d) = some .directory) :
    fs.lead ((under base).root.extend r) = .ok (.node (r ++ rootName :: d)) := by
  induction r with
  | nil => exact h.lead_root
  | cons n r ih => exact FileSystem.lead_join (ih (FileTree.get?_parent hr)) hr

theorem Shows.lead {base : Path} {d : Loc} {c : Contents} {fs : FileSystem} (h : Shows base d c fs)
    {r : Loc} (hr : c.nodeAt r = some .directory) :
    fs.lead ((under base).root.extend r) = .ok (.node (r ++ rootName :: d)) := by
  apply h.lead_extend
  rw [h.image, hr]

theorem text_extend {base : Path} {d : Loc} {c : Contents} {fs : FileSystem} (h : Shows base d c fs)
    {r : Loc} {x : Node} (hr : c.nodeAt r = some x) : ((under base).root.extend r).text ≠ "" := by
  rw [← h.image] at hr
  exact (Path.byteSize_extend (Path.text_join_ne isEntryName_rootName.1) (FileTree.isName_of_get? hr)).1

theorem Shows.find {base : Path} {d : Loc} {c : Contents} {fs : FileSystem} (h : Shows base d c fs)
    {r : Loc} (hr : c.nodeAt r = some .directory) :
    fs.find true ((under base).root.extend r) = .ok (.node (r ++ rootName :: d)) := by
  refine FileSystem.find_of_lead (text_extend h hr) (h.short r _ hr) (h.lead hr) ?_
  rw [h.image, hr]

/-- One node changed in the tree and in the image. -/
theorem Shows.update {base : Path} {d : Loc} {c c' : Contents} {fs fs' : FileSystem}
    (h : Shows base d c fs) (hl : Layout base d fs') (r₀ : Loc) {y : Option Node}
    (htree : ∀ m, fs'.tree.get? m = if m = r₀ ++ rootName :: d then y else fs.tree.get? m)
    (hc : ∀ r, c'.nodeAt r = if r = r₀ then y else c.nodeAt r)
    (hsize : ∀ x, y = some x → ((under base).root.extend r₀).byteSize ≤ pathMax) :
    Shows base d c' fs' ∧ KeepsOutside d fs fs' := by
  refine ⟨⟨hl, fun r => ?_, fun r x hx => ?_⟩, fun m hm => ?_⟩
  · simp only [htree, hc, List.append_left_inj, h.image]
  · rw [hc] at hx
    split at hx
    · rename_i hr
      exact hr ▸ hsize x hx
    · exact h.short r x hx
  · rw [htree, if_neg (ne_of_outside hm r₀)]

theorem Shows.put {base : Path} {d : Loc} {c c' : Contents} {h : Host} (hs : Shows base d c h.files)
    {r : Loc} {n text : String} (hdir : c.nodeAt r = some .directory) (hn : IsEntryName n)
    (hfile : ∀ x, c.nodeAt (n :: r) = some x → ∃ old, x = .file old)
    (hfits : ((under base).root.extend (n :: r)).byteSize ≤ pathMax)
    (hc : ∀ r', c'.nodeAt r' = if r' = n :: r then some (.file text) else c.nodeAt r') :
    ((Vault.put ((under base).root.extend r / n) text : StateM Host _).run h).1 = true ∧
      Shows base d c' ((Vault.put ((under base).root.extend r / n) text : StateM Host _).run h).2.files ∧
      KeepsOutside d h.files ((Vault.put ((under base).root.extend r / n) text : StateM Host _).run h).2.files := by
  have hl := hs.toLayout.put ((under base).root.extend r / n) text
  obtain ⟨fs, hwrite, htree⟩ := FileSystem.write_join (p := (under base).root.extend r) (n := n) hfits
    (hs.lead hdir) (by rw [hs.image, hdir]) hn (fun x hx => hfile x (by rw [← hs.image]; exact hx)) text
  rw [run_put, hwrite] at hl ⊢
  exact ⟨rfl, hs.update hl (n :: r) htree hc fun _ _ => hfits⟩

theorem Shows.answer {base : Path} {d : Loc} {c c' : Contents} {h : Host} (hs : Shows base d c h.files)
    (text? : Option String) {r : Loc} {n : String} (hdir : c.nodeAt r = some .directory)
    (hn : IsEntryName n) (hfile : ∀ x, c.nodeAt (n :: r) = some x → ∃ old, x = .file old)
    (hfits : ((under base).root.extend (n :: r)).byteSize ≤ pathMax)
    (hnone : text? = none → c' = c)
    (hc : ∀ text, text? = some text →
      ∀ r', c'.nodeAt r' = if r' = n :: r then some (.file text) else c.nodeAt r') :
    ((Vault.answer (.ok ((under base).root.extend r / n)) text? : StateM Host _).run h).1 =
        .path ((under base).root.extend r / n) (text?.map fun _ => true) ∧
      Shows base d c' ((Vault.answer (.ok ((under base).root.extend r / n)) text? : StateM Host _).run h).2.files ∧
      KeepsOutside d h.files ((Vault.answer (.ok ((under base).root.extend r / n)) text? : StateM Host _).run h).2.files := by
  cases text? with
  | none => exact ⟨rfl, hnone rfl ▸ hs, .refl d _⟩
  | some text =>
    obtain ⟨hput, hshows⟩ := hs.put hdir hn hfile hfits (hc text rfl)
    refine ⟨?_, hshows⟩
    show Answer.path _ (some ((Vault.put _ text : StateM Host _).run h).1) = _
    rw [hput]
    rfl

theorem Shows.lists {base : Path} {d : Loc} {c : Contents} {h : Host} (hs : Shows base d c h.files)
    {r : Loc} (hdir : c.nodeAt r = some .directory) (keep : String → Bool) :
    ∃ names : List String, (Directory.listing ((under base).root.extend r) keep).run h =
        (names.map ((under base).root.extend r / ·), h) ∧
      names.Nodup ∧ (∀ n ∈ names, IsName n) ∧
      ∀ n, n ∈ names ↔ keep n = true ∧ ∃ x, c.nodeAt (n :: r) = some x := by
  have hget : h.files.tree.get? (r ++ rootName :: d) = some .directory := by rw [hs.image, hdir]
  obtain ⟨all, hlist, hperm⟩ := FileSystem.list_of_find (hs.find hdir) hget
  have hmem : ∀ n, n ∈ all.filter keep ↔ keep n = true ∧ ∃ x, c.nodeAt (n :: r) = some x := by
    intro n
    rw [List.mem_filter, hperm.mem_iff, FileTree.mem_children, and_comm]
    rw [show n :: (r ++ rootName :: d) = (n :: r) ++ rootName :: d from rfl, hs.image]
  refine ⟨all.filter keep, ?_, ?_, fun n hn => ?_, hmem⟩
  · rw [Directory.run_listing, hlist]
  · exact (hperm.nodup_iff.2 (FileTree.nodup_children _ _)).filter _
  · obtain ⟨-, x, hx⟩ := (hmem n).1 hn
    rw [← hs.image] at hx
    exact (FileTree.isEntryName_of_get? hx).1

/-- Everything in the vault can be reached, so nothing is left of what is removed. -/
theorem Shows.not_outOfReach {base : Path} {d : Loc} {c : Contents} {fs : FileSystem}
    (h : Shows base d c fs) (r₀ r : Loc) :
    ¬ fs.OutOfReach ((under base).root.extend r₀) (r₀ ++ rootName :: d) r := by
  rintro ⟨s, x, hx, hlong⟩
  rw [← Path.extend_append] at hlong
  rw [← List.append_assoc, h.image] at hx
  have := h.short _ x hx
  omega

end Vault
end CrashVault
