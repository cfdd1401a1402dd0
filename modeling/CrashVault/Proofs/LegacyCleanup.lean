import CrashVault.Proofs.Opened
import CrashVault.Proofs.RemovalOutcome

/-! What the answer of a removal tells of the tree. It is yes only if a node has gone; it is no, though, also
where the path's own entry has stayed and nodes below it have gone. The cleaning up of the older layout passes
that answer on, so it tells whether anything was removed exactly if all of it can be, or nothing of it
(`cleanupLegacy_tells_iff`). -/

namespace CrashVault

/-- Some node of the first tree is not in the second. -/
def FileTree.Loses (t t' : FileTree) : Prop := ∃ m x, t.get? m = some x ∧ t'.get? m = none

theorem FileTree.Loses.mono {t₀ t t' t₁ : FileTree} (h : t.Loses t') (h₀ : t.Within t₀) (h₁ : t₁.Within t') :
    t₀.Loses t₁ := by
  obtain ⟨m, x, hx, hnone⟩ := h
  exact ⟨m, x, h₀ m x hx, h₁.get?_none hnone⟩

theorem FileTree.Within.of_not_loses {t t' : FileTree} (h : t'.Within t) (hkept : ¬ t.Loses t') :
    t.Within t' := by
  intro m x hx
  cases hx' : t'.get? m with
  | none => exact absurd ⟨m, x, hx, hx'⟩ hkept
  | some y => rw [← h m y hx', hx]

namespace FileSystem

/-- The whole of what is at the entry and below it can be removed by the path, or nothing of it can. -/
def AllOrNothing (fs : FileSystem) (p : Path) (n : String) (d : Loc) : Prop :=
  (∀ r x, fs.tree.get? (r ++ n :: d) = some x → fs.OutOfReach (p / n) (n :: d) r) ∨
    (∀ r, ¬ fs.OutOfReach (p / n) (n :: d) r) ∧ (fs.clear (n :: d)).lead p = .ok (.node d)

theorem OutOfReach.of_within {fs fs' : FileSystem} {p : Path} {l r : Loc} (h : fs'.OutOfReach p l r)
    (hw : fs'.tree.Within fs.tree) : fs.OutOfReach p l r := by
  obtain ⟨s, x, hx, hlong⟩ := h
  exact ⟨s, x, hw _ _ hx, hlong⟩

theorem exists_entry_in_reach {fs : FileSystem} {p : Path} {l s : Loc} {x : Node} (hc : fs.tree.children l ≠ [])
    (hx : fs.tree.get? (s ++ l) = some x) (hin : ¬ fs.OutOfReach p l s) :
    ∃ s k y, fs.tree.get? (s ++ k :: l) = some y ∧ ¬ fs.OutOfReach (p / k) (k :: l) s := by
  rcases List.eq_nil_or_concat s with rfl | ⟨s, k, rfl⟩
  · obtain ⟨k, hk⟩ := List.exists_mem_of_ne_nil _ hc
    obtain ⟨y, hy⟩ := FileTree.mem_children.1 hk
    refine ⟨[], k, y, hy, fun hout => hin ?_⟩
    exact (outOfReach_child.1 hout).top
  · rw [List.concat_eq_append] at hx hin
    exact ⟨s, k, x, by simpa using hx, fun hout => hin (outOfReach_child.1 hout)⟩

theorem fits_of_in_reach {fs : FileSystem} {p : Path} {l s : Loc} {x : Node} (hp : p.text ≠ "")
    (hx : fs.tree.get? (s ++ l) = some x) (hin : ¬ fs.OutOfReach p l s) : p.byteSize ≤ pathMax := by
  have hsize := (Path.byteSize_extend hp (FileTree.isName_of_get? hx)).2
  refine Nat.not_lt.1 fun hlong => hin ⟨[], x, hx, ?_⟩
  rw [List.nil_append]
  omega

end FileSystem

namespace Directory

open FileSystem

theorem sweep_invariant {motive : Host → Prop} {paths : List Path}
    (step : ∀ p ∈ paths, ∀ g, motive g → motive ((removeTree p).run g).2) {h : Host} (h₀ : motive h) :
    motive (sweep paths h) := by
  induction paths generalizing h with
  | nil => exact h₀
  | cons p paths ih =>
    exact ih (fun q hq => step q (List.mem_cons_of_mem _ hq)) (step p List.mem_cons_self h h₀)

theorem shrinks_sweep (paths : List Path) (h : Host) : h.files.Shrinks (sweep paths h).files :=
  sweep_invariant (motive := fun g => h.files.Shrinks g.files)
    (fun p _ g hg => hg.trans (shrinks_removeTree p g)) (.refl _)

theorem loses_of_removed {p : Path} {h : Host} (hremoved : ((removeTree p).run h).1.removed = true) :
    h.files.tree.Loses ((removeTree p).run h).2.files.tree := by
  by_cases hl : ∃ l, h.files.find false p = .ok (.node l)
  · obtain ⟨l, hl⟩ := hl
    obtain ⟨x, hx⟩ := find_reached hl
    exact ⟨l, x, hx, by rw [get?_of_removed hl hremoved, if_pos (List.suffix_refl l)]⟩
  · rw [(removeTree_of_absent fun l h => hl ⟨l, h⟩).1] at hremoved
    cases hremoved

theorem removeEntry_of_occupied {p : Path} {k : String} {l s : Loc} {x : Node} {h g : Host}
    (hl : h.files.find false p = .ok (.node l)) (hg : h.files.Shrinks g.files)
    (hx : g.files.tree.get? (s ++ k :: l) = some x) : ((removeEntry p).run g).2.files = g.files := by
  rcases removeEntry_cases p g with ⟨fs, hr, -, -⟩ | ⟨-, -, hfs⟩
  · obtain ⟨n, d, hfind, hc, -⟩ := find_of_remove hr
    have hsame := hg.locate hfind
    rw [← FileSystem.find, hl] at hsame
    cases hsame
    obtain ⟨y, hy⟩ := FileTree.get?_of_append hx
    rw [FileTree.get?_eq_none_of_children hc (List.suffix_cons k _) (by simp)] at hy
    cases hy
  · exact hfs

/-- A node whose path is too long is not removed, on whatever way the path above it leads there. -/
theorem removeTree_keeps_long (p : Path) : ∀ {l s : Loc} {x : Node} {h : Host},
    h.files.find false p = .ok (.node l) → h.files.tree.get? (s ++ l) = some x →
    pathMax < (p.extend s).byteSize → ((removeTree p).run h).2.files.tree.get? (s ++ l) = some x := by
  induction p using path_induction with
  | step p ih =>
    intro l s x h hl hx hlong
    have hfits := (locate_ok hl).2
    obtain ⟨s, k, rfl⟩ : ∃ s' k, s = s' ++ [k] := by
      rcases List.eq_nil_or_concat s with rfl | ⟨s, k, rfl⟩
      · exact absurd hlong (Nat.not_lt.2 hfits)
      · exact ⟨s, k, List.concat_eq_append⟩
    rw [Path.extend_append] at hlong
    rw [List.append_assoc, List.singleton_append] at hx ⊢
    -- no removal below takes the node away, so none of what is above it can go
    have hswept : h.files.Shrinks (sweep ((below p).run h).1 ((below p).run h).2).files ∧
        (sweep ((below p).run h).1 ((below p).run h).2).files.tree.get? (s ++ k :: l) = some x := by
      refine sweep_invariant (motive := fun g => h.files.Shrinks g.files ∧ g.files.tree.get? (s ++ k :: l) = some x)
        (fun c hc g hg => ⟨hg.1.trans (shrinks_removeTree c g), ?_⟩) ?_
      · obtain ⟨j, l', rfl, hj, hfalse, htrue, -⟩ := mem_below hc
        rw [hl] at hfalse
        cases hfalse
        rcases (removeTree_clears (p / j) g).cases with ⟨m, hm, hclears⟩ | hsame
        · obtain rfl := entry_eq_of_find hj.1 (lead_of_find htrue) (hg.1.locate hm)
          by_cases hjk : j = k
          · subst hjk
            exact ih _ hfits (byteSize_of_mem_below hc).2 hm hg.2 hlong
          · rw [hclears.kept, hg.2]
            rintro ⟨r, hr⟩
            exact hjk (FileTree.head_eq_of_append_cons hr)
        · rw [hsame]
          exact hg.2
      · rw [files_below]
        exact ⟨.refl _, hx⟩
    rw [(run_removeTree p h).2, removeEntry_of_occupied hl hswept.1 hswept.2]
    exact hswept.2

theorem removeTree_keeps {p : Path} {l r : Loc} {h : Host} (hl : h.files.find false p = .ok (.node l))
    (hout : h.files.OutOfReach p l r) : ∃ x, ((removeTree p).run h).2.files.tree.get? (r ++ l) = some x := by
  obtain ⟨s, x, hx, hlong⟩ := hout
  have hkept := removeTree_keeps_long p hl hx hlong
  rw [List.append_assoc] at hkept
  exact FileTree.get?_of_append hkept

theorem sweep_loses {paths : List Path} {p : Path} {h : Host} (hp : p ∈ paths)
    (hloses : ∀ g : Host, g.files.Shrinks h.files → g.files.tree.Within h.files.tree →
      g.files.tree.Loses ((removeTree p).run g).2.files.tree) :
    h.files.tree.Loses (sweep paths h).files.tree := by
  obtain ⟨before, after, rfl⟩ := List.append_of_mem hp
  have hsplit : sweep (before ++ p :: after) h = sweep after ((removeTree p).run (sweep before h)).2 := by
    rw [sweep, List.foldl_append]
    rfl
  rw [hsplit]
  have hbefore := shrinks_sweep before h
  have hafter := shrinks_sweep after ((removeTree p).run (sweep before h)).2
  have hone := shrinks_removeTree p (sweep before h)
  by_cases hlost : h.files.tree.Loses (sweep before h).files.tree
  · exact hlost.mono (.refl _) (hafter.tree.trans hone.tree)
  · -- nothing has gone yet, so the lookups still find what they found at first
    have hall := hbefore.tree.of_not_loses hlost
    exact (hloses _ (hbefore.between (.refl _) hall) hbefore.tree).mono hbefore.tree hafter.tree

/-- Where something at an entry or below it is in reach, something goes. -/
theorem removeTree_loses (p : Path) : ∀ {q : Path} {n : String} {d s : Loc} {x : Node} {h : Host}, p = q / n →
    h.files.find false p = .ok (.node (n :: d)) → h.files.tree.get? (s ++ n :: d) = some x →
    ¬ h.files.OutOfReach p (n :: d) s → h.files.tree.Loses ((removeTree p).run h).2.files.tree := by
  induction p using path_induction with
  | step p ih =>
    rintro q n d s x h rfl hl hx hin
    obtain ⟨y, hy⟩ := find_reached hl
    have hn := (FileTree.isEntryName_of_get? hy).1
    have he := (find_false_join hn).symm.trans hl
    have hfits := (locate_ok hl).2
    by_cases hc : h.files.tree.children (n :: d) = []
    · refine ⟨n :: d, y, hy, ?_⟩
      rw [(removeTree_of_leaf hn he hc).2, prune, withTree, FileTree.get?_prune _ (by simp),
        if_pos (List.suffix_refl _)]
    · obtain ⟨s, k, z, hz, hin⟩ := exists_entry_in_reach hc hx hin
      obtain ⟨w, hw⟩ := FileTree.get?_of_append hz
      have hk := (FileTree.isEntryName_of_get? hw).1
      have hlead := lead_of_find (locate_directory hl (FileTree.get?_parent hw))
      have hchild := (find_false_join hk).trans
        (entry_of_get? (fits_of_in_reach (Path.text_join_ne hk) hz hin) hlead hw)
      have hmem : q / n / k ∈ ((below (q / n)).run h).1 := by
        rw [run_below_of_find hl hy]
        exact List.mem_map_of_mem ((h.files.order.perm _ _).mem_iff.2 (FileTree.mem_children.2 ⟨w, hw⟩))
      rw [(run_removeTree (q / n) h).2]
      have hfiles := files_below (q / n) h
      have hswept := sweep_loses hmem fun g hg hwithin => by
        rw [hfiles] at hg hwithin
        exact ih _ hfits (Path.byteSize_join hk (Path.text_join_ne hn)) rfl (hg.locate hchild)
          (hg.tree _ _ hz) fun hout => hin (hout.of_within hwithin)
      rw [hfiles] at hswept
      exact hswept.mono (.refl _) (shrinks_removeEntry _ _).tree

theorem removeTree_loses_iff {p : Path} {n : String} {d : Loc} {h : Host}
    (hl : h.files.find false (p / n) = .ok (.node (n :: d))) :
    h.files.tree.Loses ((removeTree (p / n)).run h).2.files.tree ↔
      ∃ r x, h.files.tree.get? (r ++ n :: d) = some x ∧ ¬ h.files.OutOfReach (p / n) (n :: d) r := by
  constructor
  · rintro ⟨m, x, hx, hnone⟩
    by_cases hm : n :: d <:+ m
    · obtain ⟨r, rfl⟩ := hm
      refine ⟨r, x, hx, fun hout => ?_⟩
      obtain ⟨y, hy⟩ := removeTree_keeps hl hout
      rw [hnone] at hy
      cases hy
    · rw [((removeTree_clears _ h).1 _ hl).kept m hm, hx] at hnone
      cases hnone
  · rintro ⟨r, x, hx, hin⟩
    exact removeTree_loses _ rfl hl hx hin

theorem removed_iff {p : Path} {n : String} {d : Loc} {h : Host}
    (hl : h.files.find false (p / n) = .ok (.node (n :: d))) :
    ((removeTree (p / n)).run h).1.removed = true ↔
      (∀ r, ¬ h.files.OutOfReach (p / n) (n :: d) r) ∧ (h.files.clear (n :: d)).lead p = .ok (.node d) := by
  obtain ⟨x, hx⟩ := find_reached hl
  have hn := (FileTree.isEntryName_of_get? hx).1
  have hfits := (locate_ok hl).2
  constructor
  · intro hremoved
    have hlead := lead_clear_of_removed hn ((find_false_join hn).symm.trans hl) hremoved
    have hin := ((reaped_of_clear hfits hx hlead).removed.1 hremoved).2
    exact ⟨fun r hout => hin hout.top, hlead⟩
  · rintro ⟨hin, hlead⟩
    exact (reaped_of_clear hfits hx hlead).removed.2 ⟨⟨x, hx⟩, hin []⟩

theorem removed_iff_loses {p : Path} {n : String} {d : Loc} {h : Host}
    (hl : h.files.find false (p / n) = .ok (.node (n :: d))) :
    (((removeTree (p / n)).run h).1.removed = true ↔
      h.files.tree.Loses ((removeTree (p / n)).run h).2.files.tree) ↔ h.files.AllOrNothing p n d := by
  obtain ⟨x, hx⟩ := find_reached hl
  constructor
  · intro htells
    by_cases hlost : h.files.tree.Loses ((removeTree (p / n)).run h).2.files.tree
    · exact .inr ((removed_iff hl).1 (htells.2 hlost))
    · refine .inl fun r y hy => Classical.byContradiction fun hin => hlost ?_
      exact (removeTree_loses_iff hl).2 ⟨r, y, hy, hin⟩
  · rw [removed_iff hl, removeTree_loses_iff hl]
    rintro (hnone | hall)
    · exact ⟨fun hall => absurd (hnone [] x hx) (hall.1 []), fun ⟨r, y, hy, hin⟩ => absurd (hnone r y hy) hin⟩
    · exact ⟨fun _ => ⟨[], x, hx, hall.1 []⟩, fun _ => hall⟩

end Directory

namespace Vault

open FileSystem Directory

/-- However the vault's paths are spelt: a yes is right, and a removal that takes no node changes nothing. A no
is right, too, exactly where all that is left of the older layout can be removed, or nothing of it. -/
theorem cleanupLegacy_tells_iff (v : Vault) (h : Host) :
    let r := v.cleanupLegacy.run h
    (r.1 = true → h.files.tree.Loses r.2.files.tree) ∧
    (¬ h.files.tree.Loses r.2.files.tree → ∀ m, r.2.files.tree.get? m = h.files.tree.get? m) ∧
    ((r.1 = true ↔ h.files.tree.Loses r.2.files.tree) ↔
      ∀ d, h.files.find false v.legacyDir = .ok (.node (legacyName :: d)) →
        h.files.AllOrNothing v.root.parent legacyName d) := by
  dsimp only
  rw [run_cleanupLegacy, files_cleanupLegacy]
  have hshrinks := (shrinks_removeTree v.legacyDir h).tree
  refine ⟨loses_of_removed, fun hkept m => ?_, ?_⟩
  · cases hx : h.files.tree.get? m with
    | none => exact hshrinks.get?_none hx
    | some x => exact hshrinks.of_not_loses hkept m x hx
  · by_cases hl : ∃ l, h.files.find false v.legacyDir = .ok (.node l)
    · obtain ⟨l, hl⟩ := hl
      obtain ⟨d, -, rfl⟩ := lead_of_entry isEntryName_legacyName.1
        ((find_false_join isEntryName_legacyName.1).symm.trans hl)
      rw [legacyDir] at hl ⊢
      rw [removed_iff_loses hl]
      constructor
      · intro hall d' hl'
        rw [hl] at hl'
        cases hl'
        exact hall
      · exact fun hall => hall d hl
    · obtain ⟨hremoved, hsame⟩ := removeTree_of_absent fun l h => hl ⟨l, h⟩
      rw [hremoved, hsame]
      refine ⟨fun _ d hl' => absurd ⟨_, hl'⟩ hl, fun _ => ⟨fun hno => absurd hno Bool.false_ne_true, ?_⟩⟩
      rintro ⟨m, x, hx, hnone⟩
      rw [hx] at hnone
      cases hnone

/-- A base whose text leads through a directory in that of the older layout. -/
def roundabout : Path := ⟨"/" ++ legacyName ++ "/x/../.."⟩

def outdated : Host :=
  ⟨(FileSystem.empty.add [] legacyName .directory).add [legacyName] "x" .directory, {}, []⟩

theorem lead_roundabout : outdated.files.lead roundabout = .ok (.node []) := lead_of_toOption (by decide +kernel)

theorem free_outdated : Free roundabout [] outdated.files where
  fits := by decide +kernel
  lead := lead_roundabout
  dir := rfl
  named := isEntryName_rootName
  free x hx := by cases hx
  sessionsFit := by decide +kernel
  reportsFit := by decide +kernel
  sessions x hx := by cases hx
  reports x hx := by cases hx

theorem legacyDir_roundabout : (under roundabout).legacyDir = roundabout / legacyName := by decide +kernel

theorem roundabout_inReach (r : Loc) :
    ¬ (layOut outdated.files []).OutOfReach (roundabout / legacyName) [legacyName] r := by
  have hplaces : ∀ e ∈ (layOut outdated.files []).tree.toList,
      ((roundabout / legacyName).extend (e.1.take (e.1.length - [legacyName].length))).byteSize ≤ pathMax := by
    decide +kernel
  exact forall_not_outOfReach.2 (fun r x hx => FileTree.reach_of_toList hplaces hx) r

theorem roundabout_cut : ((layOut outdated.files []).clear [legacyName]).lead roundabout ≠ .ok (.node []) := by
  intro hlead
  have hnone : (((layOut outdated.files []).clear [legacyName]).lead roundabout).toOption = none := by
    decide +kernel
  rw [hlead] at hnone
  cases hnone

/-- On a vault just opened, the inner directory goes and the outer one stays: the answer is no. -/
theorem cleanupLegacy_untold : ∃ h, (openAt roundabout).run.run outdated = (.ok (under roundabout), h) ∧
    let r := (under roundabout).cleanupLegacy.run h
    r.1 = false ∧ h.files.tree.Loses r.2.files.tree := by
  obtain ⟨h, hrun, hfiles⟩ := openAt_free (h := outdated) free_outdated
  have hlead := free_outdated.grows.lead lead_roundabout
  have hfits : (roundabout / legacyName).byteSize ≤ pathMax := by decide +kernel
  have hold : (layOut outdated.files []).tree.get? [legacyName] = some .directory := rfl
  have hfound := find_of_get? hfits hlead hold (by simp) false
  rw [← hfiles] at hfound hold
  refine ⟨h, hrun, ?_⟩
  dsimp only
  rw [run_cleanupLegacy, files_cleanupLegacy, legacyDir_roundabout]
  constructor
  · rw [← Bool.not_eq_true]
    intro hremoved
    have hclear := ((removed_iff hfound).1 hremoved).2
    rw [hfiles] at hclear
    exact roundabout_cut hclear
  · exact (removeTree_loses_iff hfound).2 ⟨[], _, hold, hfiles ▸ roundabout_inReach []⟩

end Vault
end CrashVault
