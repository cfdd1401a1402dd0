import CrashVault.Proofs.ListedSessions
import CrashVault.Proofs.Listing
import CrashVault.Vault.Call

/-! Deleting every open session. If the way to the sessions does not go through what is in them, each
deletion takes its own session and leaves the way and the other sessions as they are (`deleteSession_drops`).
So deleting the listed sessions one after the other, in whatever order, empties their directory and changes
nothing else (`drain_openSessions`). -/

namespace CrashVault
namespace FileSystem

theorem held_of_clear {fs : FileSystem} {p : Path} {l : Loc} (hlead : (fs.clear l).lead p = .ok (.node l))
    (hdir : fs.tree.get? l = some .directory) : fs.Held p l :=
  fun _ hc hdir' => (hc.clear (hdir'.trans hdir.symm)).lead hlead

/-- The named entries of the directory at `d` have been removed with all below them, and nothing else. -/
structure Drops (d : Loc) (names : List String) (fs fs' : FileSystem) : Prop extends Shrinks fs fs' where
  gone : ∀ n ∈ names, ∀ r, fs'.tree.get? (r ++ n :: d) = none
  stays : ∀ m, (∀ n ∈ names, ¬ n :: d <:+ m) → fs'.tree.get? m = fs.tree.get? m

theorem Drops.nil (d : Loc) (fs : FileSystem) : Drops d [] fs fs := ⟨.refl fs, by simp, fun _ _ => rfl⟩

theorem Drops.append {d : Loc} {names names' : List String} {a b c : FileSystem} (h1 : Drops d names a b)
    (h2 : Drops d names' b c) : Drops d (names ++ names') a c where
  toShrinks := h1.toShrinks.trans h2.toShrinks
  gone n hn r := by
    rcases List.mem_append.1 hn with hn | hn
    · exact h2.tree.get?_none (h1.gone n hn r)
    · exact h2.gone n hn r
  stays m hm := by
    rw [h2.stays m fun n hn => hm n (List.mem_append_right _ hn),
      h1.stays m fun n hn => hm n (List.mem_append_left _ hn)]

theorem Drops.clears {d : Loc} {names : List String} {fs fs' : FileSystem} (h : Drops d names fs fs') :
    Clears d fs fs' where
  toShrinks := h.toShrinks
  kept m hm := h.stays m fun n _ hn => hm ((List.suffix_cons n d).trans hn)

theorem Drops.get?_self {d : Loc} {names : List String} {fs fs' : FileSystem} (h : Drops d names fs fs') :
    fs'.tree.get? d = fs.tree.get? d := h.stays d fun n _ => not_suffix_self n d

theorem Drops.get?_other {d : Loc} {names : List String} {fs fs' : FileSystem} (h : Drops d names fs fs')
    {k : String} (hk : k ∉ names) : fs'.tree.get? (k :: d) = fs.tree.get? (k :: d) := by
  refine h.stays _ fun n hn hs => hk ?_
  obtain ⟨s, hs⟩ := hs
  exact (FileTree.head_eq_of_append_cons (s := []) hs) ▸ hn

theorem Drops.get?_all {d : Loc} {names : List String} {fs fs' : FileSystem} (h : Drops d names fs fs')
    (hall : ∀ n, n ∈ fs.tree.children d → n ∈ names) (m : Loc) :
    fs'.tree.get? m = if d <:+ m ∧ m ≠ d then none else fs.tree.get? m := by
  split
  · rename_i hm
    obtain ⟨⟨r, rfl⟩, hne⟩ := hm
    rcases List.eq_nil_or_concat r with rfl | ⟨r, k, rfl⟩
    · exact absurd rfl hne
    · rw [List.concat_eq_append, List.append_assoc, List.singleton_append]
      cases hx : fs'.tree.get? (r ++ k :: d) with
      | none => rfl
      | some x =>
        obtain ⟨y, hy⟩ := FileTree.get?_of_append hx
        have hk := hall k (FileTree.mem_children.2 ⟨y, h.tree _ _ hy⟩)
        rw [h.gone k hk r] at hx
        cases hx
  · rename_i hm
    by_cases hs : d <:+ m
    · obtain rfl : m = d := by simpa [hs] using hm
      exact h.get?_self
    · exact h.clears.kept m hs

end FileSystem

namespace Vault

open FileSystem

/-- The path of the sessions leads to the directory at `d`, whatever is removed from there, and no path text
below is too long. -/
structure Drainable (v : Vault) (d : Loc) (fs : FileSystem) : Prop where
  named : v.sessions.text ≠ ""
  dir : fs.tree.get? d = some .directory
  held : fs.Held v.sessions d
  reach : ∀ r x, fs.tree.get? (r ++ d) = some x → (v.sessions.extend r).byteSize ≤ pathMax

theorem Drainable.drops {v : Vault} {d : Loc} {names : List String} {fs fs' : FileSystem}
    (h : Drainable v d fs) (hdrops : Drops d names fs fs') : Drainable v d fs' where
  named := h.named
  dir := hdrops.get?_self.trans h.dir
  held := h.held.clears hdrops.clears
  reach r x hx := h.reach r x (hdrops.tree _ _ hx)

theorem Drainable.find {v : Vault} {d : Loc} {fs : FileSystem} (h : Drainable v d fs) :
    fs.find true v.sessions = .ok (.node d) :=
  find_of_lead h.named (h.reach [] _ h.dir) (h.held fs (.refl _ _) h.dir) h.dir

theorem Drainable.openSessions {v : Vault} {d : Loc} {h : Host} (hd : Drainable v d h.files) :
    (v.openSessions.run h).1.Perm (h.files.tree.children d) := by
  rw [run_openSessions_of_find hd.find hd.dir]
  exact h.files.order.perm _ _

theorem deleteSession_drops {v : Vault} {d : Loc} {id : String} {h : Host} {x : Node}
    (hd : Drainable v d h.files) (hx : h.files.tree.get? (id :: d) = some x) :
    ((v.deleteSession id).run h).1 = true ∧ Drops d [id] h.files ((v.deleteSession id).run h).2.files := by
  have ha := hd.held.anchored hd.dir (FileTree.isEntryName_of_get? hx).1
  have hreach := forall_not_outOfReach.2 fun r y (hy : h.files.tree.get? (r ++ id :: d) = some y) => by
    have hfits := hd.reach (r ++ [id]) y (by simpa using hy)
    rwa [Path.extend_append] at hfits
  obtain ⟨hremoved, hclears, hget⟩ := deleteSession_whole ha hreach
  refine ⟨hremoved.2 ⟨x, hx⟩, hclears.toShrinks, fun n hn r => ?_, fun m hm => ?_⟩
  · rw [List.mem_singleton.1 hn, hget, if_pos (List.suffix_append r _)]
  · rw [hget, if_neg (hm id List.mem_cons_self)]

def drain (v : Vault) (ids : List String) : StateM Host (List Answer) :=
  v.runCalls (ids.map .deleteSession)

theorem run_drain_cons (v : Vault) (id : String) (ids : List String) (h : Host) :
    (v.drain (id :: ids)).run h =
      (.flag ((v.deleteSession id).run h).1 :: ((v.drain ids).run ((v.deleteSession id).run h).2).1,
        ((v.drain ids).run ((v.deleteSession id).run h).2).2) := rfl

theorem run_drain_snoc (v : Vault) (ids : List String) (id : String) (h : Host) :
    ((v.drain (ids ++ [id])).run h).2 = ((v.deleteSession id).run ((v.drain ids).run h).2).2 := by
  rw [drain, List.map_append, run_runCalls_append]
  rfl

/-- Deleting open sessions, no one twice, takes just these. -/
theorem drain_drops {v : Vault} {d : Loc} {ids : List String} (hnodup : ids.Nodup) {h : Host}
    (hd : Drainable v d h.files) (hthere : ∀ id ∈ ids, ∃ x, h.files.tree.get? (id :: d) = some x) :
    ((v.drain ids).run h).1 = ids.map (fun _ => .flag true) ∧
      Drops d ids h.files ((v.drain ids).run h).2.files := by
  induction ids generalizing h with
  | nil => exact ⟨rfl, .nil d _⟩
  | cons id ids ih =>
    obtain ⟨hid, hnodup⟩ := List.nodup_cons.1 hnodup
    obtain ⟨x, hx⟩ := hthere id List.mem_cons_self
    obtain ⟨hanswer, hfirst⟩ := deleteSession_drops hd hx
    have hrest : ∀ k ∈ ids, ∃ x, ((v.deleteSession id).run h).2.files.tree.get? (k :: d) = some x := by
      intro k hk
      have hne : k ∉ [id] := fun hmem => hid (List.mem_singleton.1 hmem ▸ hk)
      rw [hfirst.get?_other hne]
      exact hthere k (List.mem_cons_of_mem _ hk)
    obtain ⟨hanswers, hdrops⟩ := ih hnodup (hd.drops hfirst) hrest
    rw [run_drain_cons, hanswer, hanswers]
    exact ⟨rfl, hfirst.append hdrops⟩

theorem Drainable.listSession_of_none {v : Vault} {d : Loc} {id : String} {h : Host}
    (hd : Drainable v d h.files) (hid : IsEntryName id) (hx : h.files.tree.get? (id :: d) = none)
    (keep : String → Bool) : ((v.listSession id keep).run h).1 = [] := by
  rw [Vault.listSession_of_name hid.1]
  refine Directory.listing_of_absent (fun l hl => ?_) keep
  have hvacant : h.files.Vacant v.sessions id d :=
    ⟨(locate_ok hl).2, lead_of_find hd.find, hd.dir, hid, hx⟩
  rw [sessionDir, hvacant.find] at hl
  cases hl

/-- One deletion of a run takes its own session from the listing, and no other. -/
theorem openSessions_deleteSession {v : Vault} {d : Loc} {id : String} {h : Host} {x : Node}
    (hd : Drainable v d h.files) (hx : h.files.tree.get? (id :: d) = some x) :
    let after := ((v.deleteSession id).run h).2
    (v.openSessions.run h).1.Perm (id :: (v.openSessions.run after).1) ∧
      id ∉ (v.openSessions.run after).1 := by
  obtain ⟨-, hdrops⟩ := deleteSession_drops hd hx
  have hgone : ((v.deleteSession id).run h).2.files.tree.get? (id :: d) = none :=
    hdrops.gone id List.mem_cons_self []
  have hbefore := hd.openSessions
  have hafter := (hd.drops hdrops).openSessions
  have hlost := FileTree.children_perm_cons hx hgone fun k hk =>
    hdrops.get?_other fun hmem => hk (List.mem_singleton.1 hmem)
  refine ⟨hbefore.trans (hlost.trans (hafter.symm.cons id)), fun hmem => ?_⟩
  obtain ⟨y, hy⟩ := FileTree.mem_children.1 (hafter.mem_iff.1 hmem)
  rw [hgone] at hy
  cases hy

/-- Open sessions can be drained: where the path of the sessions leads to a directory without what is in it,
and no path text below is too long, deleting the listed sessions in any order succeeds each time, takes each
from the listing with all its files, and in the end has emptied the directory and changed nothing else. -/
theorem drain_openSessions {v : Vault} {d : Loc} {h : Host} (hdir : h.files.tree.get? d = some .directory)
    (hway : (h.files.clear d).find true v.sessions = .ok (.node d))
    (hreach : ∀ r x, h.files.tree.get? (r ++ d) = some x → (v.sessions.extend r).byteSize ≤ pathMax)
    {ids : List String} (hids : ids.Perm (v.openSessions.run h).1) :
    (∀ id ∈ ids, IsName id) ∧
    ((v.drain ids).run h).1 = ids.map (fun _ => .flag true) ∧
    (∀ done id rest, ids = done ++ id :: rest →
      let before := ((v.drain done).run h).2
      let after := ((v.drain (done ++ [id])).run h).2
      (v.deleteSession id).run before = (true, after) ∧
        (v.openSessions.run before).1.Perm (id :: (v.openSessions.run after).1) ∧
        id ∉ (v.openSessions.run after).1) ∧
    (∀ done, done <+: ids → ∀ id ∈ done, ∀ keep,
      ((v.listSession id keep).run ((v.drain done).run h).2).1 = []) ∧
    (v.openSessions.run ((v.drain ids).run h).2).1 = [] ∧
    ∀ m, ((v.drain ids).run h).2.files.tree.get? m =
      if d <:+ m ∧ m ≠ d then none else h.files.tree.get? m := by
  have hd : Drainable v d h.files :=
    ⟨(locate_ok hway).1, hdir, held_of_clear (lead_of_find hway) hdir, hreach⟩
  have hchildren := hids.trans hd.openSessions
  have hnodup := hchildren.nodup_iff.2 (FileTree.nodup_children _ _)
  have hthere : ∀ id ∈ ids, ∃ x, h.files.tree.get? (id :: d) = some x := fun id hid =>
    FileTree.mem_children.1 (hchildren.mem_iff.1 hid)
  -- what a part of the run has done
  have hpart : ∀ done, done <+: ids → Drops d done h.files ((v.drain done).run h).2.files := fun done hdone =>
    (drain_drops (hdone.sublist.nodup hnodup) hd fun id hid => hthere id (hdone.subset hid)).2
  obtain ⟨hanswers, hdrops⟩ := drain_drops hnodup hd hthere
  refine ⟨fun id hid => ?_, hanswers, ?_, fun done hdone id hid keep => ?_, ?_, ?_⟩
  · obtain ⟨x, hx⟩ := hthere id hid
    exact (FileTree.isEntryName_of_get? hx).1
  · rintro done id rest rfl
    have hbefore := hpart done (List.prefix_append _ _)
    have hid : id ∉ done := fun hmem =>
      (List.nodup_append.1 hnodup).2.2 id hmem id List.mem_cons_self rfl
    obtain ⟨x, hx⟩ := hthere id (by simp)
    rw [← hbefore.get?_other hid] at hx
    have hdone := hd.drops hbefore
    dsimp only
    rw [run_drain_snoc]
    exact ⟨Prod.ext (deleteSession_drops hdone hx).1 rfl, openSessions_deleteSession hdone hx⟩
  · obtain ⟨x, hx⟩ := hthere id (hdone.subset hid)
    have hpast := hpart done hdone
    exact (hd.drops hpast).listSession_of_none (FileTree.isEntryName_of_get? hx) (hpast.gone id hid []) keep
  · have hempty : (((v.drain ids).run h).2.files.tree.children d) = [] := by
      refine FileTree.children_eq_nil.2 fun k => ?_
      rw [hdrops.get?_all fun n hn => hchildren.mem_iff.2 hn, if_pos]
      exact ⟨List.suffix_cons k d, List.cons_ne_self k d⟩
    have hlisted := (hd.drops hdrops).openSessions
    rw [hempty] at hlisted
    exact List.perm_nil.1 hlisted
  · exact hdrops.get?_all fun n hn => hchildren.mem_iff.2 hn

/-- A host with a vault under `/` in which a file in a directory, a plain file and two links stand for
sessions, one link leading back to `/` and one nowhere. -/
def assorted : Host :=
  ⟨(((((layOut .empty []).add [sessionsName, rootName] "s" .directory).add ["s", sessionsName, rootName] "f"
    (.file "crash")).add [sessionsName, rootName] "f" (.file "crash")).add [sessionsName, rootName] "back"
    (.link ⟨"/"⟩)).add [sessionsName, rootName] "lost" (.link ⟨"nowhere"⟩), {}, []⟩

theorem toList_assorted : assorted.files.tree.toList =
    [([], .directory), ([rootName], .directory), ([reportsName, rootName], .directory),
      ([sessionsName, rootName], .directory), (["lost", sessionsName, rootName], .link ⟨"nowhere"⟩),
      (["back", sessionsName, rootName], .link ⟨"/"⟩), (["f", sessionsName, rootName], .file "crash"),
      (["s", sessionsName, rootName], .directory), (["f", "s", sessionsName, rootName], .file "crash")] := by
  rfl

theorem find_sessions_assorted : (assorted.files.clear [sessionsName, rootName]).find true (under ⟨"/"⟩).sessions =
    .ok (.node [sessionsName, rootName]) := by rfl

theorem reach_assorted {r : Loc} {x : Node} (hx : assorted.files.tree.get? (r ++ [sessionsName, rootName]) = some x) :
    ((under ⟨"/"⟩).sessions.extend r).byteSize ≤ pathMax := by
  refine FileTree.reach_of_toList ?_ hx
  rw [toList_assorted]
  decide +kernel

theorem length_openSessions_assorted : ((under ⟨"/"⟩).openSessions.run assorted).1.length = 4 := by
  rw [run_openSessions_of_find (d := [sessionsName, rootName]) rfl rfl, (assorted.files.order.perm _ _).length_eq]
  rfl

/-- The four are deleted in the order opposite to the one they are listed in. -/
theorem drain_assorted :
    let ids := ((under ⟨"/"⟩).openSessions.run assorted).1.reverse
    let after := (((under ⟨"/"⟩).drain ids).run assorted).2
    ids.length = 4 ∧ (((under ⟨"/"⟩).drain ids).run assorted).1 = ids.map (fun _ => .flag true) ∧
      ((under ⟨"/"⟩).openSessions.run after).1 = [] ∧
      ∀ m, after.files.tree.get? m =
        if [sessionsName, rootName] <:+ m ∧ m ≠ [sessionsName, rootName] then none
        else assorted.files.tree.get? m := by
  obtain ⟨-, hanswers, -, -, hempty, hleft⟩ :=
    drain_openSessions rfl find_sessions_assorted (fun r x => reach_assorted) (List.reverse_perm _)
  exact ⟨by rw [List.length_reverse, length_openSessions_assorted], hanswers, hempty, hleft⟩

end Vault
end CrashVault
