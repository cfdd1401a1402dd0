import CrashVault.Proofs.Alongside
import CrashVault.Proofs.Wipe

/-! A base that leads to a directory without going through the vault there. What a vault under it does, it
does at or below the root, or to the older layout beside it, so the base leads to the directory all along
(`Based.clears`, `Based.mends`), and the directories of the vault are where they belong once they have been
prepared (`prepareAll_real`). -/

namespace CrashVault
namespace Vault

open FileSystem (Clears Grows Mends)

/-- The place is that of the vault in the directory at `d` or of the older layout beside it, or below. -/
def Inside (d m : Loc) : Prop := rootName :: d <:+ m ∨ legacyName :: d <:+ m

instance (d m : Loc) : Decidable (Inside d m) := inferInstanceAs (Decidable (_ ∨ _))

theorem Inside.below {d l m : Loc} (h : Inside d l) (hm : l <:+ m) : Inside d m :=
  h.imp (·.trans hm) (·.trans hm)

theorem not_inside_self (d : Loc) : ¬ Inside d d := fun h =>
  h.elim (FileSystem.not_suffix_self _ d) (FileSystem.not_suffix_self _ d)

/-- The file system without the vault in the directory at `d` and without the older layout beside it. -/
def bare (fs : FileSystem) (d : Loc) : FileSystem := (fs.prune (rootName :: d)).prune (legacyName :: d)

theorem get?_bare (fs : FileSystem) (d m : Loc) :
    (bare fs d).tree.get? m = if Inside d m then none else fs.tree.get? m := by
  show ((fs.tree.prune (rootName :: d)).prune (legacyName :: d)).get? m = _
  rw [FileTree.get?_prune _ (by simp), FileTree.get?_prune _ (by simp)]
  by_cases hroot : rootName :: d <:+ m
  · simp [Inside, hroot]
  · simp [Inside, hroot]

theorem shrinks_bare (fs : FileSystem) (d : Loc) : fs.Shrinks (bare fs d) :=
  (FileSystem.shrinks_prune fs rootName d).trans (FileSystem.shrinks_prune _ legacyName d)

theorem bare_shrinks {fs fs' : FileSystem} {d : Loc} (h : fs'.Shrinks (bare fs d)) :
    (bare fs' d).Shrinks (bare fs d) := by
  refine (shrinks_bare fs' d).between h fun m x hx => ?_
  have hx' := h.tree m x hx
  rw [get?_bare] at hx ⊢
  split at hx
  · cases hx
  · rw [if_neg ‹_›, hx']

/-- The base leads to the directory at `d`, and not through the vault there or through the older layout, and
the paths of the vault are ones that the system takes. -/
structure Based (base : Path) (d : Loc) (fs : FileSystem) : Prop where
  dir : fs.tree.get? d = some .directory
  lead : (bare fs d).lead base = .ok (.node d)
  sessionsFit : (under base).sessions.byteSize ≤ pathMax
  reportsFit : (under base).reports.byteSize ≤ pathMax

/-- None of the three directories is a link. -/
def Real (d : Loc) (fs : FileSystem) : Prop :=
  ∀ m ∈ [rootName :: d, sessionsName :: rootName :: d, reportsName :: rootName :: d], ∀ target,
    fs.tree.get? m ≠ some (.link target)

theorem Furnished.real {d : Loc} {fs : FileSystem} (h : Furnished d fs) : Real d fs := by
  intro m hm target hlink
  simp only [List.mem_cons, List.not_mem_nil, or_false] at hm
  rcases hm with rfl | rfl | rfl
  · rw [h.root] at hlink
    cases hlink
  · rw [h.sessions] at hlink
    cases hlink
  · rw [h.reports] at hlink
    cases hlink

section
variable {base : Path} {d l : Loc} {fs fs' : FileSystem}

theorem Real.clears (h : Real d fs) (hc : Clears l fs fs') : Real d fs' := fun m hm target hlink =>
  h m hm target (hc.tree m _ hlink)

theorem Real.mends (h : Real d fs) (hm : Mends l fs fs') : Real d fs' := by
  intro m hmem target hlink
  rcases hm.node m with hsame | ⟨-, hdir⟩
  · exact h m hmem target (hsame ▸ hlink)
  · rw [hdir] at hlink
    cases hlink

theorem Furnished.clears_legacy (h : Furnished d fs) (hc : Clears (legacyName :: d) fs fs') :
    Furnished d fs' :=
  h.of_kept (keepsLayout_of_clears hc (legacy_apart d []) fun k => legacy_apart d [k])

theorem Furnished.mends (h : Furnished d fs) (hm : Mends l fs fs') : Furnished d fs' :=
  h.of_kept fun _ _ hdir => hm.directory hdir

theorem Based.lead_base (h : Based base d fs) : fs.lead base = .ok (.node d) := (shrinks_bare fs d).lead h.lead

theorem Based.rootFits (h : Based base d fs) : (under base).root.byteSize ≤ pathMax :=
  Vault.rootFits h.sessionsFit

/-- The base does not lose its way as long as everything outside the vault and the older layout stays. -/
theorem Based.of_shrinks (h : Based base d fs) (hs : fs'.Shrinks (bare fs d)) : Based base d fs' := by
  refine ⟨hs.tree d _ ?_, (bare_shrinks hs).lead h.lead, h.sessionsFit, h.reportsFit⟩
  rw [get?_bare, if_neg (not_inside_self d), h.dir]

theorem Based.clears (h : Based base d fs) (hl : Inside d l) (hc : Clears l fs fs') : Based base d fs' := by
  refine h.of_shrinks (hc.toShrinks.between (shrinks_bare fs d) fun m x hx => ?_)
  rw [get?_bare] at hx
  split at hx
  · cases hx
  · rename_i hm
    rw [hc.kept m fun hs => hm (hl.below hs), hx]

theorem Based.mends (h : Based base d fs) (hl : Inside d l) (hm : Mends l fs fs') : Based base d fs' := by
  obtain ⟨mid, hc, hg⟩ := hm.steps
  have hbare := shrinks_bare mid d
  refine (h.clears hl hc).of_shrinks ⟨hbare.tree.trans hg.tree, ?_, hbare.order.trans hg.order.symm⟩
  rw [hbare.cwd, hg.cwd]

theorem inside_append (d r : Loc) : Inside d (r ++ rootName :: d) := .inl (List.suffix_append r _)

theorem Based.anchored (h : Based base d fs) : fs.Anchored base rootName d :=
  ⟨isEntryName_rootName.1, h.dir, fun _ hc => (h.clears (inside_append d []) hc).lead_base⟩

theorem Based.anchored_legacy (h : Based base d fs) : fs.Anchored (under base).root.parent legacyName d :=
  ⟨isEntryName_legacyName.1, h.dir, fun _ hc =>
    lead_legacy (h.clears (.inr (List.suffix_refl _)) hc).lead_base⟩

theorem Based.anchored_session (h : Based base d fs) (hf : Furnished d fs) {id : String} (hid : IsName id) :
    fs.Anchored (under base).sessions id (sessionsName :: rootName :: d) :=
  ⟨hid, hf.sessions, fun _ hc => (hf.of_kept (keepsLayout_of_clears_below hc)).lead_sessions
    (h.clears (inside_append d [id, sessionsName]) hc).lead_base⟩

theorem Based.find_root (hb : Based base d fs) (hf : Furnished d fs) :
    fs.find true (under base).root = .ok (.node (rootName :: d)) :=
  FileSystem.find_of_get? hb.rootFits hb.lead_base hf.root (by simp) true

theorem Based.find_sessions (hb : Based base d fs) (hf : Furnished d fs) :
    fs.find true (under base).sessions = .ok (.node (sessionsName :: rootName :: d)) :=
  FileSystem.find_of_get? hb.sessionsFit (hf.lead_root hb.lead_base) hf.sessions (by simp) true

theorem Based.find_reports (hb : Based base d fs) (hf : Furnished d fs) :
    fs.find true (under base).reports = .ok (.node (reportsName :: rootName :: d)) :=
  FileSystem.find_of_get? hb.reportsFit (hf.lead_root hb.lead_base) hf.reports (by simp) true

end

/-- The three directories in the directory at `d`, each in the place of what may be there. -/
def furnishAll (fs : FileSystem) (d : Loc) : FileSystem :=
  ((fs.furnish d rootName).furnish (rootName :: d) sessionsName).furnish (rootName :: d) reportsName

/-- Where none of the three is a link, preparing them puts them there, and no base loses its way. -/
theorem prepareAll_real {base : Path} {d : Loc} {h : Host} (hb : Based base d h.files) (hr : Real d h.files) :
    ∃ g, (under base).prepareAll.run.run h = (.ok (), g) ∧ g.files = furnishAll h.files d ∧
      Furnished d g.files ∧ ∀ {base'}, Based base' d h.files → Based base' d g.files := by
  obtain ⟨g₁, hrun₁, hfiles₁, hroot₁, hmends₁⟩ := Directory.prepare_real (q := base) isEntryName_rootName
    hb.rootFits hb.lead_base hb.dir (hr _ (by simp))
  have hb₁ : ∀ {base'}, Based base' d h.files → Based base' d g₁.files := fun hb' =>
    hb'.mends (inside_append d []) hmends₁
  have hr₁ := hr.mends hmends₁
  have hlead₁ := FileSystem.lead_join (hb₁ hb).lead_base hroot₁
  obtain ⟨g₂, hrun₂, hfiles₂, hsessions₂, hmends₂⟩ := Directory.prepare_real (q := (under base).root)
    isEntryName_sessionsName hb.sessionsFit hlead₁ hroot₁ (hr₁ _ (by simp))
  have hb₂ : ∀ {base'}, Based base' d h.files → Based base' d g₂.files := fun hb' =>
    (hb₁ hb').mends (inside_append d [sessionsName]) hmends₂
  have hr₂ := hr₁.mends hmends₂
  have hroot₂ := hmends₂.directory hroot₁
  have hlead₂ := FileSystem.lead_join (hb₂ hb).lead_base hroot₂
  obtain ⟨g₃, hrun₃, hfiles₃, hreports₃, hmends₃⟩ := Directory.prepare_real (q := (under base).root)
    isEntryName_reportsName hb.reportsFit hlead₂ hroot₂ (hr₂ _ (by simp))
  refine ⟨g₃, prepareAll_of_prepare hrun₁ hrun₂ hrun₃, ?_,
    ⟨hmends₃.directory hroot₂, hmends₃.directory hsessions₂, hreports₃⟩,
    fun hb' => (hb₂ hb').mends (inside_append d [reportsName]) hmends₃⟩
  rw [hfiles₃, hfiles₂, hfiles₁, furnishAll]

end Vault
end CrashVault
