import CrashVault.Directory

/-! Removing a tree, seen without its bound: it removes what is below a path, and then the path's own
entry (`removeTree_eq`). The bound is never met, since what is below a path has a longer one and a path
that is too long has nothing below it. -/

namespace CrashVault
namespace Directory

theorem run_below (p : Path) (h : Host) : (below p).run h =
    match h.files.linkStatus p with
    | .ok .directory => (listing p fun _ => true).run h
    | _ => ([], h) := by
  simp only [below, StateT.run_bind, StateT.run_get, pure_bind]
  rcases h.files.linkStatus p with e | (_ | _ | _) <;> rfl

theorem run_listing (dir : Path) (keep : String → Bool) (h : Host) : (listing dir keep).run h =
    match h.files.list dir with
    | .ok names => ((names.filter keep).map (dir / ·), h)
    | .error _ => ([], h.note ⟨.trace, "FileStore: Directory not listable: " ++ dir.text⟩) := by
  simp only [listing, StateT.run_bind, StateT.run_get, pure_bind]
  cases h.files.list dir <;> rfl

/-- What is below a path has a longer path, and what is too long has nothing below it. -/
theorem byteSize_of_mem_below {p child : Path} {h : Host} (hc : child ∈ ((below p).run h).1) :
    p.byteSize ≤ pathMax ∧ p.byteSize < child.byteSize := by
  rw [run_below] at hc
  split at hc
  · rename_i hs
    obtain ⟨hp, hlen⟩ := FileSystem.linkStatus_ok hs
    rw [run_listing] at hc
    split at hc
    · rename_i names hl
      obtain ⟨n, hn, rfl⟩ := List.mem_map.1 hc
      have := FileSystem.isEntryName_of_list hl (List.mem_filter.1 hn).1
      exact ⟨hlen, Path.byteSize_join this.1 hp⟩
    · simp at hc
  · simp at hc

theorem below_of_long {p : Path} (hp : pathMax < p.byteSize) : below p = pure [] := by
  funext h
  refine (run_below p h).trans ?_
  cases hs : h.files.linkStatus p with
  | error e => rfl
  | ok x => exact absurd (FileSystem.linkStatus_ok hs).2 (by omega)

theorem bind_congr_run {σ α β : Type} {x : StateM σ α} {f g : α → StateM σ β}
    (h : ∀ s, f (x.run s).1 = g (x.run s).1) : x >>= f = x >>= g := by
  funext s
  exact congrFun (h s) (x.run s).2

theorem foldlM_congr {σ α β : Type} {f g : β → α → StateM σ β} {as : List α}
    (h : ∀ b, ∀ a ∈ as, f b a = g b a) (b : β) : as.foldlM f b = as.foldlM g b := by
  induction as generalizing b with
  | nil => rfl
  | cons a as ih =>
    rw [List.foldlM_cons, List.foldlM_cons, h b a List.mem_cons_self]
    exact congrArg (g b a >>= ·) (funext fun c => ih (fun b a ha => h b a (List.mem_cons_of_mem _ ha)) c)

theorem removeWithin_eq {room : Nat} {p : Path} (hroom : pathMax + 1 - p.byteSize ≤ room) :
    removeWithin room p = removeTree p := by
  induction room using Nat.strongRecOn generalizing p with
  | ind room ih =>
    unfold removeTree
    cases hk : pathMax + 1 - p.byteSize with
    | zero =>
      cases room with
      | zero => rfl
      | succ room =>
        rw [removeWithin.eq_2, below_of_long (by omega)]
        rfl
    | succ k =>
      obtain ⟨room, rfl⟩ : ∃ r, room = r + 1 := ⟨room - 1, by omega⟩
      rw [removeWithin, removeWithin]
      apply bind_congr_run
      intro h
      have hc : ∀ (n : Nat), ∀ child ∈ ((below p).run h).1,
          (do return n + (← removeWithin room child).tried : StateM Host Nat) =
            (do return n + (← removeWithin k child).tried) := by
        intro n child hchild
        have := byteSize_of_mem_below hchild
        rw [ih room (by omega) (by omega), ih k (by omega) (by omega)]
      rw [foldlM_congr hc]

/-- Removing a tree removes first what is below it, then the entry itself. -/
theorem removeTree_eq (p : Path) : removeTree p = (do
    let children ← below p
    let tried ← children.foldlM (fun n child => return n + (← removeTree child).tried) 1
    return ⟨← removeEntry p, tried⟩) := by
  rw [← removeWithin_eq (Nat.le_succ (pathMax + 1 - p.byteSize)), removeWithin]
  apply bind_congr_run
  intro h
  have hc : ∀ (n : Nat), ∀ child ∈ ((below p).run h).1,
      (do return n + (← removeWithin (pathMax + 1 - p.byteSize) child).tried : StateM Host Nat) =
        (do return n + (← removeTree child).tried) := by
    intro n child hchild
    have := byteSize_of_mem_below hchild
    rw [removeWithin_eq (by omega)]
  rw [foldlM_congr hc]

end Directory
end CrashVault
