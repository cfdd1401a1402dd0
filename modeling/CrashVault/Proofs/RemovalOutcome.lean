import CrashVault.Proofs.Wipe

/-! What a removal comes to, by a path of any text. It takes nothing but what the path leads to and what is
below that; if it answers yes, all of that is gone and all else is there (`removeTree_exact`). If the way to
an entry does not go through the entry, it is known what is left: the nodes whose path text is too long for
the system, and those above them (`removeTree_leaves`). -/

namespace CrashVault

def Host.reordered (h : Host) (order : ListingOrder) : Host := { h with files := { h.files with order } }

namespace FileSystem

theorem Avoids.of_parent {fs : FileSystem} {p : Path} {n : String} {d : Loc} (hn : IsName n)
    (h : fs.Avoids (p / n).parent n d) : fs.Avoids p n d :=
  ⟨h.dir, (lead_parent_join hn).symm.trans h.lead⟩

theorem Reaps.gone_iff {p : Path} {place : Loc} {fs fs' : FileSystem} (h : Reaps p place fs fs') :
    (∀ r, fs'.tree.get? (r ++ place) = none) ↔ ¬ fs.OutOfReach p place [] := by
  constructor
  · intro hall hout
    obtain ⟨y, hy⟩ := (h.left_iff []).2 hout
    rw [hall []] at hy
    cases hy
  · intro hout r
    exact h.gone r fun hr => hout hr.top

end FileSystem

namespace Directory

open FileSystem
open Vault (nest get?_nest within_nest avoids_root)

theorem get?_of_removed {p : Path} {l : Loc} {h : Host} (hl : h.files.find false p = .ok (.node l))
    (hremoved : ((removeTree p).run h).1.removed = true) (m : Loc) :
    ((removeTree p).run h).2.files.tree.get? m = if l <:+ m then none else h.files.tree.get? m := by
  obtain ⟨fs, hclears, -, -, hne, hfiles⟩ := removed_prunes hl hremoved
  rw [hfiles, prune, withTree, FileTree.get?_prune _ hne]
  split
  · rfl
  · exact hclears.kept m ‹_›

theorem get?_of_link {p : Path} {l : Loc} {h : Host} {target : Path}
    (hl : h.files.find false p = .ok (.node l)) (hlink : h.files.tree.get? l = some (.link target)) {m : Loc}
    (hm : m ≠ l) : ((removeTree p).run h).2.files.tree.get? m = h.files.tree.get? m := by
  have hclears := (removeTree_clears p h).1 l hl
  by_cases hs : l <:+ m
  · have hnone := FileTree.get?_below_leaf hlink (by simp) hs hm
    rw [hnone, hclears.tree.get?_none hnone]
  · exact hclears.kept m hs

/-- Whatever the text of the path and wherever it leads: no node is added, and none goes but the one that
the path leads to, a last link standing for itself, and those below. The answer is yes only if they are all
gone, and where the path leads to no node nothing happens. -/
theorem removeTree_exact (p : Path) (h : Host) :
    let r := (removeTree p).run h
    (∀ m x, r.2.files.tree.get? m = some x → h.files.tree.get? m = some x) ∧
    (∀ l, h.files.find false p = .ok (.node l) →
      (∀ m, ¬ l <:+ m → r.2.files.tree.get? m = h.files.tree.get? m) ∧
      (∀ target, h.files.tree.get? l = some (.link target) →
        ∀ m, m ≠ l → r.2.files.tree.get? m = h.files.tree.get? m) ∧
      (r.1.removed = true → ∀ m, r.2.files.tree.get? m = if l <:+ m then none else h.files.tree.get? m)) ∧
    ((∀ l, h.files.find false p ≠ .ok (.node l)) → r.1.removed = false ∧ r.2.files = h.files) := by
  intro r
  obtain ⟨hwithin, hnone⟩ := removeTree_clears p h
  refine ⟨fun m x hx => ?_, fun l hl => ⟨(hwithin l hl).kept, fun target hlink m => get?_of_link hl hlink,
    get?_of_removed hl⟩, removeTree_of_absent⟩
  by_cases hl : ∃ l, h.files.find false p = .ok (.node l)
  · obtain ⟨l, hl⟩ := hl
    exact (hwithin l hl).tree m x hx
  · rwa [← hnone fun l h => hl ⟨l, h⟩]

/-- An entry is removed by a path with its name at the end, whose parent leads to its directory on a way that
does not go through the entry. In whatever order directories list what they hold, a node at or below the entry
is left exactly if its path text, or that of a node below it, is too long for the system; the answer is yes
exactly if nothing is left. -/
theorem removeTree_leaves {p : Path} {d : Loc} {h : Host} (hname : IsName p.fileName)
    (hway : h.files.Avoids p.parent p.fileName d)
    (hentry : ∃ x, h.files.tree.get? (p.fileName :: d) = some x) (order : ListingOrder) :
    let r := (removeTree p).run (h.reordered order)
    (∀ m, (∃ x, r.2.files.tree.get? (m ++ p.fileName :: d) = some x) ↔
      ∃ s x, h.files.tree.get? (s ++ m ++ p.fileName :: d) = some x ∧
        pathMax < (p.extend (s ++ m)).byteSize) ∧
    (r.1.removed = true ↔ ∀ m, r.2.files.tree.get? (m ++ p.fileName :: d) = none) := by
  -- the order bears on no lookup
  have hway' : (h.reordered order).files.Avoids p.parent p.fileName d := ⟨hway.dir, hway.lead⟩
  obtain ⟨q, hq⟩ := Path.exists_join hname
  generalize p.fileName = n at hname hway' hentry hq ⊢
  subst hq
  obtain ⟨hreaps, hremoved⟩ := removeTree_reaps (q / n) rfl ((hway'.of_parent hname).anchored hname)
  refine ⟨hreaps.left_iff, ?_⟩
  rw [hremoved, hreaps.gone_iff]
  exact ⟨And.right, fun hout => ⟨hentry, hout⟩⟩

/-- A host with a directory that holds a file, and directories one in the other, more of them than a path may
have bytes. -/
def burrow : Host :=
  ⟨nest ((FileSystem.empty.add [] "d" .directory).add ["d"] "f" (.file "text")) ["d"] pathMax, {}, []⟩

theorem get?_burrow_deep : burrow.files.tree.get? (List.replicate pathMax "n" ++ ["d"]) = some .directory :=
  (get?_nest (by rfl) (by rfl) pathMax).1

theorem get?_burrow_file : burrow.files.tree.get? ["f", "d"] = some (.file "text") :=
  within_nest (by rfl) (by rfl) pathMax _ _ (by rfl)

theorem burrow_deep : ∃ s x, burrow.files.tree.get? (s ++ [] ++ ["d"]) = some x ∧
    pathMax < ((⟨"/d"⟩ : Path).extend (s ++ [])).byteSize := by
  have hlong := (Path.byteSize_extend (p := ⟨"/d"⟩) (by decide) (FileTree.isName_of_get? get?_burrow_deep)).2
  have hsize : (⟨"/d"⟩ : Path).byteSize = 2 := by decide
  rw [List.length_replicate, hsize] at hlong
  refine ⟨_, _, by rw [List.append_nil]; exact get?_burrow_deep, ?_⟩
  rw [List.append_nil]
  omega

theorem burrow_file : ¬ ∃ s x, burrow.files.tree.get? (s ++ ["f"] ++ ["d"]) = some x ∧
    pathMax < ((⟨"/d"⟩ : Path).extend (s ++ ["f"])).byteSize := by
  rintro ⟨s, x, hx, hlong⟩
  by_cases hs : s = []
  · subst hs
    revert hlong
    decide
  · rw [FileTree.get?_below_leaf get?_burrow_file (by simp) ⟨s, by simp⟩ (by simpa using hs)] at hx
    cases hx

/-- The file goes; the directory stays, and the answer is no. -/
theorem removeTree_leaves_burrow : IsName (⟨"/d"⟩ : Path).fileName ∧
    burrow.files.Avoids (⟨"/d"⟩ : Path).parent (⟨"/d"⟩ : Path).fileName [] ∧
    (∃ x, burrow.files.tree.get? [(⟨"/d"⟩ : Path).fileName] = some x) ∧
    let r := (removeTree ⟨"/d"⟩).run (burrow.reordered .byName)
    r.1.removed = false ∧ (∃ x, r.2.files.tree.get? ["d"] = some x) ∧ r.2.files.tree.get? ["f", "d"] = none := by
  have hfile : (⟨"/d"⟩ : Path).fileName = "d" := by decide
  have hparent : (⟨"/d"⟩ : Path).parent = ⟨"/"⟩ := by decide
  have hname : IsName (⟨"/d"⟩ : Path).fileName := by decide
  have hway : burrow.files.Avoids (⟨"/d"⟩ : Path).parent (⟨"/d"⟩ : Path).fileName [] := by
    rw [hparent]
    exact avoids_root _ _
  have hentry : ∃ x, burrow.files.tree.get? [(⟨"/d"⟩ : Path).fileName] = some x := by
    rw [hfile]
    exact ⟨_, FileTree.get?_parent get?_burrow_file⟩
  obtain ⟨hleft, hremoved⟩ := removeTree_leaves hname hway hentry .byName
  rw [hfile] at hleft hremoved
  have hdirectory := (hleft []).2 burrow_deep
  refine ⟨hname, hway, hentry, ?_, hdirectory, ?_⟩
  · rw [← Bool.not_eq_true, hremoved]
    intro hall
    obtain ⟨x, hx⟩ := hdirectory
    rw [hall []] at hx
    cases hx
  · rw [← Option.not_isSome_iff_eq_none, Option.isSome_iff_exists]
    exact mt (hleft ["f"]).1 burrow_file

end Directory
end CrashVault
