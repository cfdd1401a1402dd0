import CrashVault.Directory.Removal
import CrashVault.Proofs.Frame
import CrashVault.Vault

/-! Listings of a directory that a path leads to. They hold the names of its entries, each once, in the order
of the directory (`run_listing_of_find`); once one entry is gone, and no other, the listing has lost that
name alone (`children_perm_cons`). -/

namespace CrashVault

/-- An entry that has gone alone is all that the names in its directory have lost. -/
theorem FileTree.children_perm_cons {t t' : FileTree} {n : String} {d : Loc} {x : Node}
    (hx : t.get? (n :: d) = some x) (hgone : t'.get? (n :: d) = none)
    (hkept : ∀ k, k ≠ n → t'.get? (k :: d) = t.get? (k :: d)) : (t.children d).Perm (n :: t'.children d) := by
  have hnot : n ∉ t'.children d := by
    rw [mem_children, hgone]
    simp
  refine (List.perm_ext_iff_of_nodup (nodup_children t d) (List.nodup_cons.2 ⟨hnot, nodup_children t' d⟩)).2
    fun k => ?_
  by_cases hk : k = n
  · rw [hk]
    exact ⟨fun _ => List.mem_cons_self, fun _ => mem_children.2 ⟨x, hx⟩⟩
  · rw [List.mem_cons, mem_children, mem_children, hkept k hk]
    simp [hk]

theorem Directory.run_listing_of_find {p : Path} {d : Loc} {h : Host}
    (hfind : h.files.find true p = .ok (.node d)) (hdir : h.files.tree.get? d = some .directory)
    (keep : String → Bool) : (Directory.listing p keep).run h =
      (((h.files.order.arrange d (h.files.tree.children d)).filter keep).map (p / ·), h) := by
  have hlist : h.files.list p = .ok (h.files.order.arrange d (h.files.tree.children d)) := by
    simp only [FileSystem.list, hfind, hdir]
  rw [Directory.run_listing, hlist]

/-- Listed are the entries of the directory that the path leads to whose names are to be kept. -/
theorem Directory.mem_listing {p q : Path} {keep : String → Bool} {h : Host} :
    q ∈ ((Directory.listing p keep).run h).1 ↔ ∃ d n x, h.files.find true p = .ok (.node d) ∧
      h.files.tree.get? (n :: d) = some x ∧ keep n = true ∧ q = p / n := by
  constructor
  · rw [Directory.run_listing]
    intro hq
    split at hq
    · rename_i names hlist
      obtain ⟨n, hn, rfl⟩ := List.mem_map.1 hq
      obtain ⟨hn, hkeep⟩ := List.mem_filter.1 hn
      obtain ⟨d, hfind, -, hchild⟩ := FileSystem.find_of_mem_list hlist hn
      obtain ⟨x, hx⟩ := FileTree.mem_children.1 hchild
      exact ⟨d, n, x, hfind, hx, hkeep, rfl⟩
    · cases hq
  · rintro ⟨d, n, x, hfind, hx, hkeep, rfl⟩
    rw [Directory.run_listing_of_find hfind (FileTree.get?_parent hx)]
    refine List.mem_map_of_mem (List.mem_filter.2 ⟨?_, hkeep⟩)
    exact (h.files.order.perm d _).mem_iff.2 (FileTree.mem_children.2 ⟨x, hx⟩)

theorem Directory.listing_of_absent {p : Path} {h : Host}
    (hnone : ∀ d, h.files.find true p ≠ .ok (.node d)) (keep : String → Bool) :
    ((Directory.listing p keep).run h).1 = [] := by
  refine List.eq_nil_iff_forall_not_mem.2 fun q hq => ?_
  obtain ⟨d, -, -, hfind, -⟩ := Directory.mem_listing.1 hq
  exact hnone d hfind

namespace Vault

section
variable {v : Vault} {d : Loc} {h : Host}

theorem run_listReports_of_find (hfind : h.files.find true v.reports = .ok (.node d))
    (hdir : h.files.tree.get? d = some .directory) : (v.listReports.run h).1 =
      (h.files.order.arrange d (h.files.tree.children d)).map (v.reports / ·) := by
  rw [listReports, Directory.run_listing_of_find hfind hdir, List.filter_eq_self.2 (by simp)]

theorem run_openSessions_of_find (hfind : h.files.find true v.sessions = .ok (.node d))
    (hdir : h.files.tree.get? d = some .directory) : (v.openSessions.run h).1 =
      h.files.order.arrange d (h.files.tree.children d) := by
  have hids : (v.openSessions.run h).1 =
      ((Directory.listing v.sessions fun _ => true).run h).1.map Path.fileName := rfl
  rw [hids, Directory.run_listing_of_find hfind hdir, List.filter_eq_self.2 (by simp), List.map_map]
  conv => rhs; rw [← List.map_id (h.files.order.arrange _ _)]
  refine List.map_congr_left fun n hn => ?_
  obtain ⟨x, hx⟩ := FileTree.mem_children.1 ((h.files.order.perm d _).subset hn)
  exact Path.fileName_join (FileTree.isEntryName_of_get? hx).1

end

end Vault
end CrashVault
