import CrashVault.Directory.Removal
import CrashVault.Proofs.Frame

/-! Removing a tree changes nothing but what its path leads to, a last link standing for itself, and what
is below that (`removeTree_clears`). Each removal below looks its path up anew, in a tree that the ones
before have shrunk; a lookup that still finds a node finds it where it was. -/

namespace CrashVault
namespace Directory

/-- A path is settled once all longer ones are; none is asked for behind a path that is too long. -/
theorem path_induction {motive : Path → Prop}
    (step : ∀ p : Path, (∀ child : Path, p.byteSize ≤ pathMax → p.byteSize < child.byteSize →
      motive child) → motive p) (p : Path) : motive p := by
  generalize hk : pathMax + 1 - p.byteSize = k
  induction k using Nat.strongRecOn generalizing p with
  | ind k ih => exact step p fun child hp hc => ih _ (by omega) child rfl

theorem run_removeEntry (p : Path) (h : Host) : (removeEntry p).run h =
    match h.files.remove p with
    | .ok files => (true, { h with files })
    | .error .missing => (false, h)
    | .error e => (false, h.note ⟨.trace, "FileStore: Could not remove " ++ p.text ++ ": " ++ e.message⟩) := by
  simp only [removeEntry, StateT.run_bind, StateT.run_get, pure_bind]
  rcases h.files.remove p with e | files
  · cases e <;> rfl
  · rfl

theorem removeEntry_cases (p : Path) (h : Host) :
    (∃ fs, h.files.remove p = .ok fs ∧ ((removeEntry p).run h).1 = true ∧
      ((removeEntry p).run h).2.files = fs) ∨
    (∃ e, h.files.remove p = .error e) ∧ ((removeEntry p).run h).1 = false ∧
      ((removeEntry p).run h).2.files = h.files := by
  rw [run_removeEntry]
  cases hr : h.files.remove p with
  | ok fs => exact .inl ⟨fs, rfl, rfl, rfl⟩
  | error e =>
    refine .inr ⟨⟨e, rfl⟩, ?_⟩
    cases e <;> simp

theorem shrinks_removeEntry (p : Path) (h : Host) : h.files.Shrinks ((removeEntry p).run h).2.files := by
  rcases removeEntry_cases p h with ⟨fs, hr, -, hfs⟩ | ⟨-, -, hfs⟩
  · obtain ⟨n, d, -, -, rfl⟩ := FileSystem.find_of_remove hr
    rw [hfs]
    exact FileSystem.shrinks_prune _ n d
  · rw [hfs]
    exact .refl _

theorem files_below (p : Path) (h : Host) : ((below p).run h).2.files = h.files := by
  rw [run_below]
  split
  · rw [run_listing]
    split
    · rfl
    · simp
  · rfl

/-- The removals of some paths, one after the other. -/
def sweep (paths : List Path) (h : Host) : Host :=
  paths.foldl (fun h p => ((removeTree p).run h).2) h

theorem run_foldlM_tried (paths : List Path) (k : Nat) (h : Host) :
    ((paths.foldlM (fun n p => return n + (← removeTree p).tried) k : StateM Host Nat).run h).2 =
      sweep paths h := by
  induction paths generalizing k h with
  | nil => rfl
  | cons p paths ih => exact ih _ _

theorem run_removeTree (p : Path) (h : Host) :
    ((removeTree p).run h).1.removed =
        ((removeEntry p).run (sweep ((below p).run h).1 ((below p).run h).2)).1 ∧
      ((removeTree p).run h).2 =
        ((removeEntry p).run (sweep ((below p).run h).1 ((below p).run h).2)).2 := by
  rw [removeTree_eq]
  simp only [StateT.run_bind]
  rw [← run_foldlM_tried _ 1]
  exact ⟨rfl, rfl⟩

theorem tried_removeTree (p : Path) (h : Host) : ((removeTree p).run h).1.tried =
    ((((below p).run h).1.foldlM (fun n child => return n + (← removeTree child).tried) 1 : StateM Host Nat).run
      ((below p).run h).2).1 := by
  rw [removeTree_eq]
  rfl

theorem mem_below {p child : Path} {h : Host} (hc : child ∈ ((below p).run h).1) :
    ∃ n l, child = p / n ∧ IsEntryName n ∧ h.files.find false p = .ok (.node l) ∧
      h.files.find true p = .ok (.node l) ∧ h.files.tree.get? l = some .directory ∧
      n ∈ h.files.tree.children l := by
  rw [run_below] at hc
  split at hc
  · rename_i hstatus
    rw [run_listing] at hc
    split at hc
    · rename_i names hlist
      obtain ⟨n, hn, rfl⟩ := List.mem_map.1 hc
      have hmem := (List.mem_filter.1 hn).1
      obtain ⟨l, htrue, hdir, hchild⟩ := FileSystem.find_of_mem_list hlist hmem
      -- the path itself names the directory that is listed
      have hfalse := FileSystem.find_false_of_linkStatus hstatus htrue
      exact ⟨n, l, rfl, FileSystem.isEntryName_of_list hlist hmem, hfalse, htrue, hdir, hchild⟩
    · cases hc
  · cases hc

theorem below_of_absent {p : Path} {h : Host} (hnone : ∀ l, h.files.find false p ≠ .ok (.node l)) :
    ((below p).run h).1 = [] := by
  refine List.eq_nil_iff_forall_not_mem.2 fun c hm => ?_
  obtain ⟨n, l, -, -, hfalse, -⟩ := mem_below hm
  exact hnone l hfalse

/-- Nothing changes but what the path leads to, a last link standing for itself, and what is below. -/
def StaysWithin (p : Path) (h h' : Host) : Prop :=
  (∀ l, h.files.find false p = .ok (.node l) → FileSystem.Clears l h.files h'.files) ∧
    ((∀ l, h.files.find false p ≠ .ok (.node l)) → h'.files = h.files)

theorem StaysWithin.cases {p : Path} {h h' : Host} (hs : StaysWithin p h h') :
    (∃ l, h.files.find false p = .ok (.node l) ∧ FileSystem.Clears l h.files h'.files) ∨ h'.files = h.files := by
  by_cases hl : ∃ l, h.files.find false p = .ok (.node l)
  · obtain ⟨l, hl⟩ := hl
    exact .inl ⟨l, hl, hs.1 l hl⟩
  · exact .inr (hs.2 fun l h => hl ⟨l, h⟩)

theorem sweep_clears {p : Path} {l : Loc} {first : FileSystem} (hp : first.lead p = .ok (.node l))
    {children : List Path}
    (hchild : ∀ c ∈ children, (∃ n, c = p / n ∧ IsEntryName n) ∧
      ∀ h, StaysWithin c h ((removeTree c).run h).2)
    {h : Host} (hc : FileSystem.Clears l first h.files) :
    FileSystem.Clears l first (sweep children h).files := by
  induction children generalizing h with
  | nil => exact hc
  | cons c children ih =>
    refine ih (fun c hm => hchild c (List.mem_cons_of_mem _ hm)) (hc.trans ?_)
    obtain ⟨⟨n, rfl, hn⟩, hstays⟩ := hchild c List.mem_cons_self
    rcases (hstays h).cases with ⟨m, hm, hclears⟩ | hsame
    · -- what the child's path leads to now, it has led to before: an entry of the directory
      obtain rfl := FileSystem.entry_eq_of_find hn.1 hp (hc.locate hm)
      exact hclears.up (List.suffix_cons n l)
    · rw [hsame]
      exact .refl l _

theorem removeEntry_staysWithin {p : Path} {h hs : Host} {l : Loc}
    (hl : h.files.find false p = .ok (.node l)) (hc : FileSystem.Clears l h.files hs.files) :
    FileSystem.Clears l h.files ((removeEntry p).run hs).2.files := by
  rcases removeEntry_cases p hs with ⟨fs, hr, -, hfs⟩ | ⟨-, -, hfs⟩
  · obtain ⟨n, d, hfind, -, rfl⟩ := FileSystem.find_of_remove hr
    have := hc.locate hfind
    rw [FileSystem.find] at hl
    rw [hl] at this
    cases this
    rw [hfs]
    exact hc.trans (FileSystem.clears_prune _ n d)
  · rw [hfs]
    exact hc

theorem removeTree_of_absent {p : Path} {h : Host} (hnone : ∀ l, h.files.find false p ≠ .ok (.node l)) :
    ((removeTree p).run h).1.removed = false ∧ ((removeTree p).run h).2.files = h.files := by
  have hfiles := files_below p h
  obtain ⟨h1, h2⟩ := run_removeTree p h
  rw [h1, h2, below_of_absent hnone]
  rcases removeEntry_cases p ((below p).run h).2 with ⟨fs, hr, -⟩ | ⟨-, hfalse, hfs⟩
  · obtain ⟨n, d, hfind, -⟩ := FileSystem.find_of_remove hr
    rw [hfiles] at hfind
    exact absurd hfind (hnone _)
  · exact ⟨hfalse, hfs.trans hfiles⟩

/-- The removals of what is below a path keep to that, if each keeps to its own. -/
theorem swept_clears {p : Path} {h : Host} {l : Loc} (hl : h.files.find false p = .ok (.node l))
    (hstays : ∀ child : Path, p.byteSize ≤ pathMax → p.byteSize < child.byteSize →
      ∀ h, StaysWithin child h ((removeTree child).run h).2) :
    FileSystem.Clears l h.files (sweep ((below p).run h).1 ((below p).run h).2).files := by
  have hfiles := files_below p h
  by_cases hlead : h.files.lead p = .ok (.node l)
  · refine sweep_clears hlead (fun c hm => ?_) (hfiles ▸ .refl l _)
    obtain ⟨n, l', rfl, hn, -⟩ := mem_below hm
    have hsize := byteSize_of_mem_below hm
    exact ⟨⟨n, rfl, hn⟩, fun h => hstays _ hsize.1 hsize.2 h⟩
  · -- nothing is below a path that leads on from here
    have : ((below p).run h).1 = [] := by
      refine List.eq_nil_iff_forall_not_mem.2 fun c hm => hlead ?_
      obtain ⟨n, l', -, -, hfalse, htrue, -⟩ := mem_below hm
      rw [hl] at hfalse
      cases hfalse
      exact FileSystem.lead_of_find htrue
    rw [this]
    exact hfiles ▸ .refl l _

theorem removeTree_clears (p : Path) (h : Host) : StaysWithin p h ((removeTree p).run h).2 := by
  induction p using path_induction generalizing h with
  | step p ih =>
    refine ⟨fun l hl => ?_, fun hnone => (removeTree_of_absent hnone).2⟩
    rw [(run_removeTree p h).2]
    exact removeEntry_staysWithin hl (swept_clears hl ih)

theorem shrinks_removeTree (p : Path) (h : Host) : h.files.Shrinks ((removeTree p).run h).2.files := by
  rcases (removeTree_clears p h).cases with ⟨l, -, hclears⟩ | hsame
  · exact hclears.toShrinks
  · rw [hsame]
    exact .refl _

/-- Where the answer is yes, all that was below has gone before, and the path has led to the entry still. -/
theorem removed_prunes {p : Path} {l : Loc} {h : Host} (hl : h.files.find false p = .ok (.node l))
    (hremoved : ((removeTree p).run h).1.removed = true) :
    ∃ fs, FileSystem.Clears l h.files fs ∧ fs.find false p = .ok (.node l) ∧ fs.tree.children l = [] ∧
      l ≠ [] ∧ ((removeTree p).run h).2.files = fs.prune l := by
  have hclears := swept_clears hl fun child _ _ h => removeTree_clears child h
  obtain ⟨hanswer, hleft⟩ := run_removeTree p h
  rw [hanswer] at hremoved
  rw [hleft]
  generalize sweep ((below p).run h).1 ((below p).run h).2 = g at hclears hremoved
  rcases removeEntry_cases p g with ⟨fs, hr, -, hfs⟩ | ⟨-, hfalse, -⟩
  · obtain ⟨n, d, hfind, hc, rfl⟩ := FileSystem.find_of_remove hr
    have hsame := hclears.locate hfind
    rw [FileSystem.find] at hl
    rw [hl] at hsame
    cases hsame
    exact ⟨g.files, hclears, hfind, hc, by simp, hfs⟩
  · rw [hremoved] at hfalse
    cases hfalse

theorem removeTree_join {p : Path} {n : String} {l : Loc} {h : Host} (hn : IsName n)
    (hl : h.files.lead p = .ok (.node l)) :
    FileSystem.Clears (n :: l) h.files ((removeTree (p / n)).run h).2.files := by
  rcases (removeTree_clears (p / n) h).cases with ⟨m, hm, hclears⟩ | hsame
  · obtain rfl := FileSystem.entry_eq_of_find hn hl hm
    exact hclears
  · rw [hsame]
    exact .refl _ _

end Directory
end CrashVault
