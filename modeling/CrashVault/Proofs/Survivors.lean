import CrashVault.Proofs.Listing
import CrashVault.Proofs.RemoveTree

/-! What a removal leaves behind, when the way to the path's parent does not go through what is removed:
exactly the nodes whose own path text, or that of a node below them, is too long for the system
(`removeTree_reaps`). The order in which directories list their entries does not matter. -/

namespace CrashVault

/-- The path with more names joined to it, those of a place below it. -/
def Path.extend (p : Path) (below : Loc) : Path := below.foldr (fun n q => q / n) p

theorem Path.extend_cons (p : Path) (n : String) (r : Loc) : p.extend (n :: r) = p.extend r / n := rfl

theorem Path.extend_append (p : Path) (s r : Loc) : p.extend (s ++ r) = (p.extend r).extend s :=
  List.foldr_append

theorem Path.byteSize_extend {p : Path} (hp : p.text ≠ "") {r : Loc} (hr : ∀ n ∈ r, IsName n) :
    (p.extend r).text ≠ "" ∧ p.byteSize + r.length ≤ (p.extend r).byteSize := by
  induction r with
  | nil => exact ⟨hp, Nat.le_refl _⟩
  | cons n r ih =>
    obtain ⟨htext, hsize⟩ := ih fun m hm => hr m (List.mem_cons_of_mem _ hm)
    have hn := hr n List.mem_cons_self
    have := Path.byteSize_join hn htext
    exact ⟨Path.text_join_ne hn, by rw [extend_cons, List.length_cons]; omega⟩

theorem FileTree.isName_of_get? {t : FileTree} {r d : Loc} {x : Node} (h : t.get? (r ++ d) = some x) :
    ∀ n ∈ r, IsName n := by
  induction r generalizing x with
  | nil => simp
  | cons n r ih =>
    intro m hm
    rcases List.mem_cons.1 hm with rfl | hm
    · exact (isEntryName_of_get? h).1
    · exact ih (get?_parent h) m hm

theorem FileTree.reach_of_toList {t : FileTree} {p : Path} {d : Loc}
    (hplaces : ∀ e ∈ t.toList, (p.extend (e.1.take (e.1.length - d.length))).byteSize ≤ pathMax) {r : Loc}
    {x : Node} (hx : t.get? (r ++ d) = some x) : (p.extend r).byteSize ≤ pathMax := by
  have hr := hplaces (r ++ d, x) (mem_toList.2 hx)
  simpa using hr

namespace FileSystem

/-- At `r` above the place, or below it, is a node whose path text is too long. -/
def OutOfReach (fs : FileSystem) (p : Path) (place r : Loc) : Prop :=
  ∃ s x, fs.tree.get? (s ++ r ++ place) = some x ∧ pathMax < (p.extend (s ++ r)).byteSize

theorem OutOfReach.up {fs : FileSystem} {p : Path} {place s r : Loc}
    (h : fs.OutOfReach p place (s ++ r)) : fs.OutOfReach p place r := by
  obtain ⟨s', x, hx, hlen⟩ := h
  exact ⟨s' ++ s, x, by simpa using hx, by simpa using hlen⟩

theorem OutOfReach.top {fs : FileSystem} {p : Path} {place r : Loc} (h : fs.OutOfReach p place r) :
    fs.OutOfReach p place [] := OutOfReach.up (s := r) (by rwa [List.append_nil])

theorem forall_not_outOfReach {fs : FileSystem} {p : Path} {place : Loc} :
    (∀ r, ¬ fs.OutOfReach p place r) ↔
      ∀ r x, fs.tree.get? (r ++ place) = some x → (p.extend r).byteSize ≤ pathMax := by
  constructor
  · intro h r x hx
    by_cases hlong : pathMax < (p.extend r).byteSize
    · exact absurd ⟨[], x, hx, hlong⟩ (h r)
    · omega
  · rintro h r ⟨s, x, hx, hlong⟩
    have := h (s ++ r) x hx
    omega

theorem outOfReach_child {fs : FileSystem} {p : Path} {k : String} {place r : Loc} :
    fs.OutOfReach (p / k) (k :: place) r ↔ fs.OutOfReach p place (r ++ [k]) := by
  simp only [OutOfReach, ← List.append_assoc, Path.extend_append _ _ [k]]
  simp [Path.extend]

/-- Of what is at the place and below only that is left which is out of reach. -/
structure Reaps (p : Path) (place : Loc) (fs fs' : FileSystem) : Prop where
  kept : ∀ r, fs.OutOfReach p place r → fs'.tree.get? (r ++ place) = fs.tree.get? (r ++ place)
  gone : ∀ r, ¬ fs.OutOfReach p place r → fs'.tree.get? (r ++ place) = none

theorem Reaps.congr {p : Path} {place : Loc} {fs₀ fs fs' fs'₀ : FileSystem}
    (h₀ : ∀ r, fs.tree.get? (r ++ place) = fs₀.tree.get? (r ++ place))
    (h₁ : ∀ r, fs'.tree.get? (r ++ place) = fs'₀.tree.get? (r ++ place))
    (h : Reaps p place fs fs') : Reaps p place fs₀ fs'₀ := by
  have hiff : ∀ r, fs.OutOfReach p place r ↔ fs₀.OutOfReach p place r := by
    intro r
    simp only [OutOfReach, List.append_assoc]
    exact exists_congr fun s => by rw [← List.append_assoc, h₀]
  refine ⟨fun r hr => ?_, fun r hr => ?_⟩
  · rw [← h₁, ← h₀]
    exact h.kept r ((hiff r).2 hr)
  · rw [← h₁]
    exact h.gone r fun hc => hr ((hiff r).1 hc)

theorem Reaps.left_iff {p : Path} {place : Loc} {fs fs' : FileSystem} (h : Reaps p place fs fs') (r : Loc) :
    (∃ y, fs'.tree.get? (r ++ place) = some y) ↔ fs.OutOfReach p place r := by
  constructor
  · rintro ⟨y, hy⟩
    by_cases hr : fs.OutOfReach p place r
    · exact hr
    · rw [h.gone r hr] at hy
      cases hy
  · intro hr
    obtain ⟨s, y, hy, -⟩ := id hr
    rw [List.append_assoc] at hy
    rw [h.kept r hr]
    exact FileTree.get?_of_append hy

theorem Reaps.directory {p : Path} {place r : Loc} {fs fs' : FileSystem} {x : Node}
    (h : Reaps p place fs fs') (hfits : (p.extend r).byteSize ≤ pathMax)
    (hx : fs'.tree.get? (r ++ place) = some x) : x = .directory := by
  have hout := (h.left_iff r).1 ⟨x, hx⟩
  rw [h.kept r hout] at hx
  obtain ⟨s, y, hy, hlong⟩ := hout
  have hs : s ≠ [] := by
    rintro rfl
    rw [List.nil_append] at hlong
    omega
  rw [List.append_assoc] at hy
  have hdir := FileTree.get?_of_isSuffix hy (List.suffix_append s _) (by simpa using hs)
  rw [hx] at hdir
  exact Option.some.inj hdir

theorem outOfReach_iff_entry {fs : FileSystem} {p : Path} {place : Loc} (hfits : p.byteSize ≤ pathMax) :
    fs.OutOfReach p place [] ↔ ∃ k, fs.OutOfReach p place [k] := by
  constructor
  · rintro ⟨s, y, hy, hlen⟩
    rcases List.eq_nil_or_concat s with rfl | ⟨s, k, rfl⟩
    · simp only [List.nil_append, Path.extend, List.foldr_nil] at hlen
      omega
    · exact ⟨k, s, y, by simpa using hy, by simpa using hlen⟩
  · rintro ⟨k, hk⟩
    exact hk.top

theorem reaps_of_entries {p : Path} {place : Loc} {fs fs' : FileSystem} (hout : fs.OutOfReach p place [])
    (hplace : fs'.tree.get? place = fs.tree.get? place)
    (hentries : ∀ k, Reaps (p / k) (k :: place) fs fs') : Reaps p place fs fs' := by
  constructor
  · intro r hr
    rcases List.eq_nil_or_concat r with rfl | ⟨r, j, rfl⟩
    · exact hplace
    · have hkept := (hentries j).kept r (outOfReach_child.2 (by simpa using hr))
      simpa using hkept
  · intro r hr
    rcases List.eq_nil_or_concat r with rfl | ⟨r, j, rfl⟩
    · exact absurd hout hr
    · have hgone := (hentries j).gone r fun hc => hr (by simpa using outOfReach_child.1 hc)
      simpa using hgone

/-- The path leads to the directory at `d`, whatever is removed from its entry `n`. -/
structure Anchored (fs : FileSystem) (p : Path) (n : String) (d : Loc) : Prop where
  isName : IsName n
  dir : fs.tree.get? d = some .directory
  lead : ∀ fs', Clears (n :: d) fs fs' → fs'.lead p = .ok (.node d)

/-- The path leads to the directory at `d` without its entry `n` and what is below that. -/
structure Avoids (fs : FileSystem) (p : Path) (n : String) (d : Loc) : Prop where
  dir : fs.tree.get? d = some .directory
  lead : (fs.prune (n :: d)).lead p = .ok (.node d)

theorem Clears.prune {fs fs' : FileSystem} {n : String} {d : Loc} (h : Clears (n :: d) fs fs') :
    fs'.Shrinks (fs.prune (n :: d)) := by
  have htree : (fs.prune (n :: d)).tree.Within fs'.tree := by
    intro m x hx
    rw [FileSystem.prune, withTree, FileTree.get?_prune _ (by simp)] at hx
    split at hx
    · cases hx
    · rw [h.kept m ‹_›, hx]
  exact h.toShrinks.between (shrinks_prune fs n d) htree

theorem Avoids.anchored {fs : FileSystem} {p : Path} {n : String} {d : Loc} (h : fs.Avoids p n d)
    (hn : IsName n) : fs.Anchored p n d where
  isName := hn
  dir := h.dir
  lead _ hc := hc.prune.lead h.lead

/-- The file system without what is below a place. -/
def clear (fs : FileSystem) (l : Loc) : FileSystem := fs.withTree (fs.tree.clear l)

theorem shrinks_clear (fs : FileSystem) (l : Loc) : fs.Shrinks (fs.clear l) := by
  apply shrinks_withTree
  intro m x hx
  rw [FileTree.get?_clear] at hx
  split at hx
  · cases hx
  · exact hx

theorem Clears.clear {fs fs' : FileSystem} {l : Loc} (h : Clears l fs fs')
    (hl : fs'.tree.get? l = fs.tree.get? l) : fs'.Shrinks (fs.clear l) := by
  have htree : (fs.clear l).tree.Within fs'.tree := by
    intro m x hx
    rw [FileSystem.clear, withTree, FileTree.get?_clear] at hx
    split at hx
    · cases hx
    · rename_i hm
      by_cases hs : l <:+ m
      · obtain rfl : m = l := by simpa [hs] using hm
        rw [hl, hx]
      · rw [h.kept m hs, hx]
  exact h.toShrinks.between (shrinks_clear fs l) htree

theorem Clears.of_clear {fs fs' : FileSystem} {l : Loc} (h : Clears l fs fs')
    (hc : fs'.tree.children l = []) : (fs.clear l).Shrinks fs' := by
  have htree : fs'.tree.Within (fs.clear l).tree := by
    intro m x hx
    rw [FileSystem.clear, withTree, FileTree.get?_clear, if_neg, h.tree _ _ hx]
    rintro ⟨hs, hne⟩
    rw [FileTree.get?_eq_none_of_children hc hs hne] at hx
    cases hx
  exact (shrinks_clear fs l).between h.toShrinks htree

theorem Anchored.clears {fs fs' : FileSystem} {p : Path} {n : String} {d : Loc} (h : fs.Anchored p n d)
    (hc : Clears (n :: d) fs fs') : fs'.Anchored p n d where
  isName := h.isName
  dir := by rw [hc.kept d (not_suffix_self n d), h.dir]
  lead fs'' hc' := h.lead fs'' (hc.trans hc')

/-- The path leads to the place as long as a directory is there, whatever is removed from that. -/
def Held (fs : FileSystem) (p : Path) (l : Loc) : Prop :=
  ∀ fs', Clears l fs fs' → fs'.tree.get? l = some .directory → fs'.lead p = .ok (.node l)

theorem Held.clears {fs fs' : FileSystem} {p : Path} {l : Loc} (h : fs.Held p l) (hc : Clears l fs fs') :
    fs'.Held p l := fun fs'' hc' => h fs'' (hc.trans hc')

theorem Held.anchored {fs : FileSystem} {p : Path} {k : String} {l : Loc} (h : fs.Held p l)
    (hl : fs.tree.get? l = some .directory) (hk : IsName k) : fs.Anchored p k l where
  isName := hk
  dir := hl
  lead fs' hc := by
    refine h fs' (hc.up (List.suffix_cons k l)) ?_
    rw [hc.kept _ (not_suffix_self k _), hl]

theorem Anchored.held {fs : FileSystem} {p : Path} {n : String} {d : Loc} (h : fs.Anchored p n d) :
    fs.Held (p / n) (n :: d) := fun fs' hc hdir => lead_join (h.lead fs' hc) hdir

theorem Anchored.entry {fs : FileSystem} {p : Path} {n : String} {d : Loc} (h : fs.Anchored p n d)
    (hlen : (p / n).byteSize ≤ pathMax) : fs.entry (p / n) = fs.tree.enter n (.node d) := by
  rw [entry_join_eq h.isName hlen, h.lead fs (.refl _ _)]
  rfl

theorem removeEntry_join {p : Path} {n : String} {l : Loc} {h : Host} (hn : IsName n)
    (he : h.files.entry (p / n) = .ok (.node l)) :
    (h.files.tree.children l = [] →
      ((Directory.removeEntry (p / n)).run h).1 = true ∧
        ((Directory.removeEntry (p / n)).run h).2.files = h.files.prune l) ∧
    (h.files.tree.children l ≠ [] →
      ((Directory.removeEntry (p / n)).run h).1 = false ∧
        ((Directory.removeEntry (p / n)).run h).2.files = h.files) := by
  obtain ⟨x, hx⟩ := entry_reached he
  have hr : h.files.remove (p / n) = _ := remove_join hn
  simp only [he, hx] at hr
  constructor
  · intro hc
    have : h.files.remove (p / n) = .ok (h.files.prune l) := by
      rw [hr]
      cases x <;> simp [hc]
    rw [Directory.run_removeEntry, this]
    exact ⟨rfl, rfl⟩
  · intro hc
    -- only a directory holds anything
    obtain ⟨k, ks, hk⟩ := List.exists_cons_of_ne_nil hc
    obtain ⟨y, hy⟩ := FileTree.mem_children.1 (hk ▸ List.mem_cons_self : k ∈ h.files.tree.children l)
    rw [FileTree.get?_parent hy] at hx
    cases hx
    have : h.files.remove (p / n) = .error .notEmpty := by simpa [hc] using hr
    rw [Directory.run_removeEntry, this]
    exact ⟨rfl, Host.files_note ..⟩

end FileSystem

namespace Directory

open FileSystem

theorem clears_of_anchored {p : Path} {n : String} {d : Loc} {h : Host} (ha : h.files.Anchored p n d) :
    Clears (n :: d) h.files ((removeTree (p / n)).run h).2.files :=
  removeTree_join ha.isName (ha.lead _ (.refl _ _))

theorem sweep_reaps {q : Path} {l : Loc} {names : List String} (hnd : names.Nodup)
    (hreap : ∀ k ∈ names, ∀ h : Host, h.files.Anchored q k l →
      Reaps (q / k) (k :: l) h.files ((removeTree (q / k)).run h).2.files)
    {h : Host} (hq : h.files.Held q l) (hin : ∀ k ∈ names, ∃ x, h.files.tree.get? (k :: l) = some x) :
    Clears l h.files (sweep (names.map (q / ·)) h).files ∧
      (∀ k ∈ names, Reaps (q / k) (k :: l) h.files (sweep (names.map (q / ·)) h).files) ∧
      ∀ m, (∀ k ∈ names, ¬ k :: l <:+ m) →
        (sweep (names.map (q / ·)) h).files.tree.get? m = h.files.tree.get? m := by
  induction names generalizing h with
  | nil => exact ⟨.refl _ _, by simp, fun _ _ => rfl⟩
  | cons k names ih =>
    obtain ⟨hk, hnd⟩ := List.nodup_cons.1 hnd
    obtain ⟨x, hx⟩ := hin k List.mem_cons_self
    have hchild := hq.anchored (FileTree.get?_parent hx) (FileTree.isEntryName_of_get? hx).1
    have hclears := clears_of_anchored hchild
    have hfirst := hreap k List.mem_cons_self h hchild
    generalize hg : ((removeTree (q / k)).run h).2 = g at hclears hfirst
    have hsweep : sweep ((k :: names).map (q / ·)) h = sweep (names.map (q / ·)) g := by
      rw [← hg]
      rfl
    rw [hsweep]
    have hapart : ∀ {i j : String} {r : Loc}, i ≠ j → ¬ i :: l <:+ r ++ j :: l := by
      rintro i j r hij ⟨s, hs⟩
      exact hij (FileTree.head_eq_of_append_cons hs)
    have hother : ∀ j ∈ names, ∀ r, g.files.tree.get? (r ++ j :: l) = h.files.tree.get? (r ++ j :: l) := by
      intro j hj r
      exact hclears.kept _ (hapart fun hij : k = j => hk (hij ▸ hj))
    have hup := hclears.up (List.suffix_cons k _)
    obtain ⟨hall, hreaps, hkept⟩ := ih hnd (fun j hj => hreap j (List.mem_cons_of_mem _ hj))
      (hq.clears hup) fun j hj => by
        have := hother j hj []
        simp only [List.nil_append] at this
        rw [this]
        exact hin j (List.mem_cons_of_mem _ hj)
    refine ⟨hup.trans hall, fun j hj => ?_, fun m hm => ?_⟩
    · rcases List.mem_cons.1 hj with rfl | hj
      · -- the later removals leave alone what is at the first entry
        apply hfirst.congr (fun _ => rfl)
        intro r
        exact (hkept _ fun i hi => hapart fun hij : i = j => hk (hij ▸ hi)).symm
      · exact (hreaps j hj).congr (hother j hj) fun _ => rfl
    · rw [hkept m fun j hj => hm j (List.mem_cons_of_mem _ hj)]
      exact hclears.kept m (hm k List.mem_cons_self)

theorem run_below_of_find {p : Path} {l : Loc} {h : Host} {x : Node}
    (hfalse : h.files.find false p = .ok (.node l)) (hx : h.files.tree.get? l = some x) :
    (below p).run h = ((h.files.order.arrange l (h.files.tree.children l)).map (p / ·), h) := by
  have hs : h.files.linkStatus p = .ok x := node_of_find hfalse hx
  by_cases hd : x = .directory
  · subst hd
    have htrue : h.files.find true p = .ok (.node l) := locate_directory hfalse hx
    rw [run_below, hs]
    dsimp only
    rw [run_listing_of_find htrue hx, List.filter_eq_self.2 (by simp)]
  · have hnone : h.files.order.arrange l (h.files.tree.children l) = [] := by
      rw [FileTree.children_of_ne_directory hx hd]
      exact List.perm_nil.1 (h.files.order.perm l [])
    rw [hnone, run_below, hs]
    cases x with
    | directory => exact absurd rfl hd
    | file text => rfl
    | link target => rfl

theorem removeTree_of_leaf {p : Path} {n : String} {l : Loc} {h : Host} (hn : IsName n)
    (he : h.files.entry (p / n) = .ok (.node l)) (hc : h.files.tree.children l = []) :
    ((removeTree (p / n)).run h).1.removed = true ∧
      ((removeTree (p / n)).run h).2.files = h.files.prune l := by
  obtain ⟨x, hx⟩ := entry_reached he
  have hnames := h.files.order.perm l (h.files.tree.children l)
  have hbelow := run_below_of_find ((find_false_join hn).trans he) hx
  rw [hc, List.perm_nil] at hnames
  rw [hc, hnames] at hbelow
  obtain ⟨h1, h2⟩ := run_removeTree (p / n) h
  rw [h1, h2, hbelow]
  exact (removeEntry_join hn he).1 hc

/-- What a removal answers and leaves behind. -/
structure Reaped (p : Path) (place : Loc) (h : Host) : Prop where
  reaps : Reaps p place h.files ((removeTree p).run h).2.files
  removed : ((removeTree p).run h).1.removed = true ↔
    (∃ x, h.files.tree.get? place = some x) ∧ ¬ h.files.OutOfReach p place []

theorem removeTree_of_none {p : Path} {n : String} {d : Loc} {h : Host} (ha : h.files.Anchored p n d)
    (hx : h.files.tree.get? (n :: d) = none) : ((removeTree (p / n)).run h).1.removed = false ∧
      ((removeTree (p / n)).run h).2.files = h.files := by
  refine removeTree_of_absent fun l hl => ?_
  rw [find_false_join ha.isName, ha.entry (locate_ok hl).2] at hl
  obtain ⟨d', hd, rfl, x, hx'⟩ := FileTree.enter_node ha.isName.2.1 ha.isName.2.2.1 hl
  cases hd
  rw [hx] at hx'
  cases hx'

theorem reaped_of_absent {p : Path} {n : String} {d : Loc} {h : Host} (ha : h.files.Anchored p n d)
    (hx : h.files.tree.get? (n :: d) = none) : Reaped (p / n) (n :: d) h := by
  have hbelow := FileTree.get?_append_of_none hx
  obtain ⟨hremoved, hfiles⟩ := removeTree_of_none ha hx
  refine ⟨⟨fun r _ => by rw [hfiles], fun r _ => by rw [hfiles, hbelow]⟩, ?_⟩
  rw [hremoved, hx]
  simp

theorem reaped_of_long {p : Path} {n : String} {d : Loc} {h : Host} (ha : h.files.Anchored p n d)
    (hlong : pathMax < (p / n).byteSize) : Reaped (p / n) (n :: d) h := by
  have hout : ∀ r x, h.files.tree.get? (r ++ n :: d) = some x → h.files.OutOfReach (p / n) (n :: d) r := by
    intro r x hx
    have := (Path.byteSize_extend (Path.text_join_ne (p := p) ha.isName) (FileTree.isName_of_get? hx)).2
    exact ⟨[], x, by simpa using hx, by simp only [List.nil_append]; omega⟩
  obtain ⟨hremoved, hfiles⟩ := removeTree_of_absent (p := p / n) (h := h) fun l hl => by
    have := (locate_ok hl).2
    omega
  refine ⟨⟨fun r _ => by rw [hfiles], fun r hr => ?_⟩, ?_⟩
  · rw [hfiles]
    cases hx : h.files.tree.get? (r ++ n :: d) with
    | none => rfl
    | some x => exact absurd (hout r x hx) hr
  · rw [hremoved]
    simp only [Bool.false_eq_true, false_iff]
    rintro ⟨⟨x, hx⟩, hnot⟩
    exact hnot (hout [] x hx)

theorem reaped_of_swept {p : Path} {n : String} {d : Loc} {h g : Host} {x : Node} (hn : IsName n)
    (hx : h.files.tree.get? (n :: d) = some x)
    (hplace : g.files.tree.get? (n :: d) = some x) (he : g.files.entry (p / n) = .ok (.node (n :: d)))
    (hbelow : ∀ k, Reaps (p / n / k) (k :: n :: d) h.files g.files)
    (hrun : ((removeTree (p / n)).run h).1.removed = ((removeEntry (p / n)).run g).1 ∧
      ((removeTree (p / n)).run h).2 = ((removeEntry (p / n)).run g).2) : Reaped (p / n) (n :: d) h := by
  have hfits := (locate_ok he).2
  obtain ⟨hempty, hfull⟩ := removeEntry_join hn he
  rw [← hrun.1, ← hrun.2] at hempty hfull
  have hleft : ∀ k, k ∈ g.files.tree.children (n :: d) ↔ h.files.OutOfReach (p / n) (n :: d) [k] := by
    intro k
    rw [FileTree.mem_children]
    exact ((hbelow k).left_iff []).trans outOfReach_child
  by_cases hout : h.files.OutOfReach (p / n) (n :: d) []
  · obtain ⟨k, hk⟩ := (outOfReach_iff_entry hfits).1 hout
    obtain ⟨hremoved, hfiles⟩ := hfull (List.ne_nil_of_mem ((hleft k).2 hk))
    constructor
    · rw [hfiles]
      exact reaps_of_entries hout (hplace.trans hx.symm) hbelow
    · rw [hremoved]
      simp [hout]
  · have hnil : g.files.tree.children (n :: d) = [] := by
      refine List.eq_nil_iff_forall_not_mem.2 fun k hk => hout ?_
      exact (outOfReach_iff_entry hfits).2 ⟨k, (hleft k).1 hk⟩
    obtain ⟨hremoved, hfiles⟩ := hempty hnil
    refine ⟨⟨fun r hr => absurd hr.top hout, fun r _ => ?_⟩, ?_⟩
    · rw [hfiles, prune, withTree, FileTree.get?_prune _ (by simp), if_pos (List.suffix_append r _)]
    · rw [hremoved, hx]
      simp [hout]

/-- A removal comes to what its removals below come to, if the entry is found whatever is gone from it. -/
theorem reaped_of_entry {p : Path} {n : String} {d : Loc} {h : Host} {x : Node} (hn : IsName n)
    (hx : h.files.tree.get? (n :: d) = some x) (hheld : h.files.Held (p / n) (n :: d))
    (hentry : ∀ fs', Clears (n :: d) h.files fs' → fs'.tree.get? (n :: d) = some x →
      fs'.entry (p / n) = .ok (.node (n :: d)))
    (hbelow : ∀ k (g : Host), g.files.Anchored (p / n) k (n :: d) → Reaped (p / n / k) (k :: n :: d) g) :
    Reaped (p / n) (n :: d) h := by
  have hfalse : h.files.find false (p / n) = .ok (.node (n :: d)) := by
    rw [find_false_join hn, hentry _ (.refl _ _) hx]
  have hnames := run_below_of_find hfalse hx
  have hperm := h.files.order.perm (n :: d) (h.files.tree.children (n :: d))
  generalize h.files.order.arrange (n :: d) (h.files.tree.children (n :: d)) = names at hnames hperm
  have hin : ∀ k, k ∈ names ↔ ∃ y, h.files.tree.get? (k :: n :: d) = some y := by
    intro k
    rw [hperm.mem_iff, FileTree.mem_children]
  obtain ⟨hclears, hreaps, hkept⟩ := sweep_reaps (h := h) (hperm.nodup_iff.2 (FileTree.nodup_children _ _))
    (fun k _ g hg => (hbelow k g hg).reaps) hheld fun k hk => (hin k).1 hk
  have hplace := (hkept (n :: d) fun k _ => not_suffix_self k _).trans hx
  have hrun := run_removeTree (p / n) h
  rw [hnames] at hrun
  refine reaped_of_swept hn hx hplace (hentry _ hclears hplace) (fun k => ?_) hrun
  by_cases hk : k ∈ names
  · exact hreaps k hk
  · -- nothing was under that name, and nothing is
    have hnone : h.files.tree.get? (k :: n :: d) = none := by
      rw [← Option.not_isSome_iff_eq_none, Option.isSome_iff_exists]
      exact fun hy => hk ((hin k).2 hy)
    have hbefore := FileTree.get?_append_of_none hnone
    have hafter := FileTree.get?_append_of_none (hclears.tree.get?_none hnone)
    exact ⟨fun r _ => by rw [hbefore, hafter], fun r _ => hafter r⟩

theorem removeTree_reaps (p : Path) : ∀ {q : Path} {n : String} {d : Loc} {h : Host}, p = q / n →
    h.files.Anchored q n d → Reaped p (n :: d) h := by
  induction p using path_induction with
  | step p ih =>
    rintro q n d h rfl ha
    by_cases hlong : pathMax < (q / n).byteSize
    · exact reaped_of_long ha hlong
    · have hfits : (q / n).byteSize ≤ pathMax := by omega
      cases hx : h.files.tree.get? (n :: d) with
      | none => exact reaped_of_absent ha hx
      | some x =>
        refine reaped_of_entry ha.isName hx ha.held (fun fs' hc hx' => ?_) fun k g hg => ?_
        · rw [(ha.clears hc).entry hfits, FileTree.enter_of_get? hx']
        · exact ih _ hfits (Path.byteSize_join hg.isName (Path.text_join_ne (p := q) ha.isName)) rfl hg

/-- A removal does the same where the way to the entry goes through it, but not through what is below. -/
theorem reaped_of_clear {p : Path} {n : String} {d : Loc} {h : Host} {x : Node}
    (hfits : (p / n).byteSize ≤ pathMax) (hx : h.files.tree.get? (n :: d) = some x)
    (hlead : (h.files.clear (n :: d)).lead p = .ok (.node d)) : Reaped (p / n) (n :: d) h := by
  have hkept : ∀ fs', Clears (n :: d) h.files fs' → fs'.tree.get? (n :: d) = some x →
      fs'.lead p = .ok (.node d) := fun fs' hc hx' => (hc.clear (hx'.trans hx.symm)).lead hlead
  refine reaped_of_entry (FileTree.isEntryName_of_get? hx).1 hx (fun fs' hc hdir => ?_)
    (fun fs' hc hx' => entry_of_get? hfits (hkept fs' hc hx') hx') fun k g hg => removeTree_reaps _ rfl hg
  have hsame := hc.tree _ _ hdir
  rw [hx] at hsame
  exact lead_join (hkept fs' hc (hdir.trans hsame.symm)) hdir

theorem lead_clear_of_removed {p : Path} {n : String} {d : Loc} {h : Host} (hn : IsName n)
    (he : h.files.entry (p / n) = .ok (.node (n :: d)))
    (hremoved : ((removeTree (p / n)).run h).1.removed = true) :
    (h.files.clear (n :: d)).lead p = .ok (.node d) := by
  obtain ⟨fs, hclears, hfind, hc, -, -⟩ := removed_prunes ((find_false_join hn).trans he) hremoved
  rw [find_false_join hn] at hfind
  obtain ⟨d', hlead, hm⟩ := lead_of_entry hn hfind
  cases hm
  exact (hclears.of_clear hc).lead hlead

/-- Where everything can be reached, all of it goes. -/
theorem removeTree_whole {p : Path} {n : String} {d : Loc} {h : Host} (ha : h.files.Anchored p n d)
    (hreach : ∀ r, ¬ h.files.OutOfReach (p / n) (n :: d) r) :
    (((removeTree (p / n)).run h).1.removed = true ↔ ∃ x, h.files.tree.get? (n :: d) = some x) ∧
      ∀ m, ((removeTree (p / n)).run h).2.files.tree.get? m =
        if n :: d <:+ m then none else h.files.tree.get? m := by
  obtain ⟨⟨-, hgone⟩, hremoved⟩ := removeTree_reaps (p / n) rfl ha
  refine ⟨hremoved.trans ⟨fun hx => hx.1, fun hx => ⟨hx, hreach []⟩⟩, fun m => ?_⟩
  split
  · rename_i hm
    obtain ⟨r, rfl⟩ := hm
    exact hgone r (hreach r)
  · rename_i hm
    exact (clears_of_anchored ha).kept m hm

end Directory
end CrashVault
