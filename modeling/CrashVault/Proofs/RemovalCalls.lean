import CrashVault.Proofs.Survivors
import Mathlib.Data.Finset.Card
import Mathlib.Data.List.Forall2

/-! The removal of a tree as a run of trials, one for each path it is called with, and no bound on how deep
they go. There is exactly one such run from any path; no trial but the first leads to a node other than an
entry of the directory that its caller has led to, and no two lead to one node, so there are no more of them
than nodes where the path leads and below (`removeTree_trials`). -/

namespace CrashVault

def FileTree.nodesFrom (t : FileTree) (l : Loc) : Finset Loc :=
  (t.toList.map Prod.fst).toFinset.filter (l <:+ ·)

theorem FileTree.mem_nodesFrom {t : FileTree} {l m : Loc} :
    m ∈ t.nodesFrom l ↔ (∃ x, t.get? m = some x) ∧ l <:+ m := by
  simp [nodesFrom, mem_toList]

namespace FileSystem

/-- The place of the node that a path leads to, a last link standing for itself. -/
def placeOf (fs : FileSystem) (p : Path) : Option Loc :=
  match fs.find false p with
  | .ok (.node l) => some l
  | _ => none

theorem placeOf_eq_some {fs : FileSystem} {p : Path} {l : Loc} :
    fs.placeOf p = some l ↔ fs.find false p = .ok (.node l) := by
  unfold placeOf
  split
  · rename_i hl
    simp [hl]
  · rename_i hno
    exact ⟨(by simp), fun h => absurd h (hno l)⟩

theorem placeOf_eq_none {fs : FileSystem} {p : Path} :
    fs.placeOf p = none ↔ ∀ l, fs.find false p ≠ .ok (.node l) := by
  rw [Option.eq_none_iff_forall_ne_some]
  exact forall_congr' fun l => not_congr placeOf_eq_some

end FileSystem

namespace Directory

open FileSystem

/-- One call of a removal: its path, where its caller's path has led, and where its own leads when it starts. -/
structure Trial where
  path : Path
  above : Option Loc
  place : Option Loc

/-- The trials for some paths in turn, all of one caller: each for what is below first, before the entry. -/
inductive Trials : Option Loc → List Path → Host → List Trial → Host → Prop
  | nil {above : Option Loc} {h : Host} : Trials above [] h [] h
  | cons {above : Option Loc} {p : Path} {ps : List Path} {h h₁ h₂ : Host} {made rest : List Trial}
      (inner : Trials (h.files.placeOf p) ((below p).run h).1 ((below p).run h).2 made h₁)
      (outer : Trials above ps ((removeEntry p).run h₁).2 rest h₂) :
      Trials above (p :: ps) h (⟨p, above, h.files.placeOf p⟩ :: (made ++ rest)) h₂

theorem Trials.unique {above : Option Loc} {ps : List Path} {h h₁ h₂ : Host} {a b : List Trial}
    (ha : Trials above ps h a h₁) (hb : Trials above ps h b h₂) : a = b ∧ h₁ = h₂ := by
  induction ha generalizing b h₂ with
  | nil =>
    cases hb
    exact ⟨rfl, rfl⟩
  | cons inner outer ihinner ihouter =>
    cases hb with
    | cons inner' outer' =>
      obtain ⟨rfl, rfl⟩ := ihinner inner'
      obtain ⟨rfl, rfl⟩ := ihouter outer'
      exact ⟨rfl, rfl⟩

theorem run_bind_tried (p : Path) (k : Nat) (f : Nat → StateM Host Nat) (h : Host) :
    ((do return k + (← removeTree p).tried : StateM Host Nat) >>= f).run h =
      (f (k + ((removeTree p).run h).1.tried)).run ((removeTree p).run h).2 := rfl

theorem removeTree_of_below {p : Path} {h h₁ : Host} {k : Nat}
    (hbelow : (((below p).run h).1.foldlM (fun n c => return n + (← removeTree c).tried) 1 : StateM Host Nat).run
      ((below p).run h).2 = (k, h₁)) :
    ((removeTree p).run h).1.tried = k ∧ ((removeTree p).run h).2 = ((removeEntry p).run h₁).2 := by
  rw [tried_removeTree, (run_removeTree p h).2, ← run_foldlM_tried _ 1, hbelow]
  exact ⟨rfl, rfl⟩

/-- The removals of the paths count the trials, and leave what these do. -/
theorem Trials.run {above : Option Loc} {ps : List Path} {h g : Host} {made : List Trial}
    (ht : Trials above ps h made g) (k : Nat) :
    (ps.foldlM (fun n p => return n + (← removeTree p).tried) k : StateM Host Nat).run h =
      (k + made.length, g) := by
  induction ht generalizing k with
  | nil => rfl
  | cons inner outer ihinner ihouter =>
    obtain ⟨htried, hleft⟩ := removeTree_of_below (ihinner 1)
    rw [List.foldlM_cons, run_bind_tried, htried, hleft, ihouter, List.length_cons, List.length_append]
    congr 1
    omega

theorem exists_trials_of_all {ps : List Path}
    (hall : ∀ p ∈ ps, ∀ h : Host, ∃ made g,
      Trials (h.files.placeOf p) ((below p).run h).1 ((below p).run h).2 made g)
    (above : Option Loc) (h : Host) : ∃ made g, Trials above ps h made g := by
  induction ps generalizing h with
  | nil => exact ⟨_, _, .nil⟩
  | cons p ps ih =>
    obtain ⟨made, h₁, hinner⟩ := hall p List.mem_cons_self h
    obtain ⟨rest, h₂, houter⟩ := ih (fun q hq => hall q (List.mem_cons_of_mem _ hq)) ((removeEntry p).run h₁).2
    exact ⟨_, _, .cons hinner houter⟩

/-- However deep the tree is, and whatever its links lead back to, the trials below a path come to an end. -/
theorem exists_trials (p : Path) (h : Host) :
    ∃ made g, Trials (h.files.placeOf p) ((below p).run h).1 ((below p).run h).2 made g := by
  induction p using path_induction generalizing h with
  | step p ih =>
    refine exists_trials_of_all (fun c hc g => ?_) _ _
    have hsize := byteSize_of_mem_below hc
    exact ih c hsize.1 hsize.2 g

theorem Trials.shrinks {above : Option Loc} {ps : List Path} {h g : Host} {made : List Trial}
    (ht : Trials above ps h made g) : h.files.Shrinks g.files := by
  induction ht with
  | nil => exact .refl _
  | @cons _ p _ h _ _ _ _ _ _ ihinner ihouter =>
    rw [files_below] at ihinner
    exact ihinner.trans ((shrinks_removeEntry p _).trans ihouter)

/-- The names are of entries of one directory, each once, and joined to the path they lead nowhere else. -/
structure Siblings (fs : FileSystem) (q : Path) (l : Loc) (names : List String) : Prop where
  nodup : names.Nodup
  stood : ∀ k ∈ names, ∃ x, fs.tree.get? (k :: l) = some x
  found : ∀ k ∈ names, ∀ m, fs.find false (q / k) = .ok (.node m) → m = k :: l

theorem Siblings.tail {fs : FileSystem} {q : Path} {l : Loc} {k : String} {names : List String}
    (hs : Siblings fs q l (k :: names)) : Siblings fs q l names where
  nodup := (List.nodup_cons.1 hs.nodup).2
  stood j hj := hs.stood j (List.mem_cons_of_mem _ hj)
  found j hj := hs.found j (List.mem_cons_of_mem _ hj)

theorem siblings_below {p : Path} {l : Loc} {h : Host} (hl : h.files.placeOf p = some l) :
    ∃ names : List String, ((below p).run h).1 = names.map (p / ·) ∧ Siblings h.files p l names := by
  rw [placeOf_eq_some] at hl
  obtain ⟨x, hx⟩ := find_reached hl
  have hperm := h.files.order.perm l (h.files.tree.children l)
  have hstood : ∀ k ∈ h.files.order.arrange l (h.files.tree.children l), ∃ y, h.files.tree.get? (k :: l) = some y :=
    fun k hk => FileTree.mem_children.1 (hperm.subset hk)
  refine ⟨_, by rw [run_below_of_find hl hx], hperm.nodup_iff.2 (FileTree.nodup_children _ _), hstood,
    fun k hk m hm => ?_⟩
  obtain ⟨y, hy⟩ := hstood k hk
  exact entry_eq_of_find (FileTree.isEntryName_of_get? hy).1
    (lead_of_find (locate_directory hl (FileTree.get?_parent hy))) hm

/-- No name in the tree holds a NUL, as none does on a disk. -/
def NamesNulFree (fs : FileSystem) : Prop := ∀ l x, fs.tree.get? l = some x → ∀ n ∈ l, NulFree n

theorem NamesNulFree.of_shrinks {fs fs' : FileSystem} (h : NamesNulFree fs) (hs : fs.Shrinks fs') :
    NamesNulFree fs' := fun l x hx => h l x (hs.tree l x hx)

theorem nulFree_of_mem_below {p c : Path} {h : Host} (hp : NulFree p.text) (hnames : NamesNulFree h.files)
    (hc : c ∈ ((below p).run h).1) : NulFree c.text := by
  cases hplace : h.files.placeOf p with
  | none =>
    rw [below_of_absent (placeOf_eq_none.1 hplace)] at hc
    cases hc
  | some l =>
    obtain ⟨names, hbelow, hs⟩ := siblings_below hplace
    rw [hbelow, List.mem_map] at hc
    obtain ⟨k, hk, rfl⟩ := hc
    obtain ⟨x, hx⟩ := hs.stood k hk
    exact Path.nulFree_join hp (hnames _ x hx k List.mem_cons_self)

theorem Trials.nulFree {above : Option Loc} {ps : List Path} {h g : Host} {made : List Trial}
    (ht : Trials above ps h made g) (hps : ∀ p ∈ ps, NulFree p.text) (hnames : NamesNulFree h.files) :
    ∀ c ∈ made, NulFree c.path.text := by
  induction ht with
  | nil => simp
  | @cons above p ps h h₁ h₂ made rest inner outer ihinner ihouter =>
    have hp := hps p List.mem_cons_self
    have hinner := inner.shrinks
    rw [files_below] at hinner ihinner
    have hleft := hnames.of_shrinks (hinner.trans (shrinks_removeEntry p h₁))
    intro c hc
    rcases List.mem_cons.1 hc with rfl | hc
    · exact hp
    · rcases List.mem_append.1 hc with hc | hc
      · exact ihinner (fun _ => nulFree_of_mem_below hp hnames) hnames c hc
      · exact ihouter (fun q hq => hps q (List.mem_cons_of_mem _ hq)) hleft c hc

theorem Trials.eq_nil_of_absent {above : Option Loc} {p : Path} {h g h₁ : Host} {made : List Trial}
    (ht : Trials above ((Directory.below p).run h).1 g made h₁) (hp : h.files.placeOf p = none) : made = [] := by
  rw [below_of_absent (placeOf_eq_none.1 hp)] at ht
  cases ht
  rfl

/-- The trial is for an entry of the directory that its caller's path has led to, and leads to that if to any. -/
def Trial.IsFor (c : Trial) (m : Loc) : Prop :=
  ∃ n d, m = n :: d ∧ c.above = some d ∧ (c.place = none ∨ c.place = some m)

/-- The trials are for nodes at some entries of one directory or below those, no two for the same. -/
def Spread (fs : FileSystem) (l : Loc) (names : List String) (made : List Trial) : Prop :=
  ∃ ms : List Loc, List.Forall₂ Trial.IsFor made ms ∧ ms.Nodup ∧
    ∀ m ∈ ms, (∃ x, fs.tree.get? m = some x) ∧ ∃ k ∈ names, k :: l <:+ m

theorem spread_nil (fs : FileSystem) (l : Loc) (names : List String) : Spread fs l names [] :=
  ⟨[], .nil, .nil, by simp⟩

theorem Spread.of_within {fs fs' : FileSystem} {l : Loc} {names : List String} {made : List Trial}
    (h : Spread fs' l names made) (hw : fs'.tree.Within fs.tree) : Spread fs l names made := by
  obtain ⟨ms, hms, hnodup, hall⟩ := h
  exact ⟨ms, hms, hnodup, fun m hm => ⟨(hall m hm).1.imp (hw m), (hall m hm).2⟩⟩

theorem Spread.cons {fs : FileSystem} {l : Loc} {k : String} {ks names : List String} {c : Trial}
    {made rest : List Trial} (hk : k ∉ names) (hc : c.IsFor (k :: l)) (hx : ∃ x, fs.tree.get? (k :: l) = some x)
    (hmade : Spread fs (k :: l) ks made) (hrest : Spread fs l names rest) :
    Spread fs l (k :: names) (c :: (made ++ rest)) := by
  obtain ⟨ms, hms, hnodup, hbelow⟩ := hmade
  obtain ⟨ms', hms', hnodup', hbeside⟩ := hrest
  have hapart : ∀ m ∈ ms', ¬ k :: l <:+ m := by
    rintro m hm ⟨s, hs⟩
    obtain ⟨-, j, hj, r, rfl⟩ := hbeside m hm
    exact hk (FileTree.head_eq_of_append_cons hs ▸ hj)
  refine ⟨(k :: l) :: (ms ++ ms'), .cons hc (List.rel_append hms hms'), List.nodup_cons.2 ⟨fun hmem => ?_, ?_⟩,
    fun m hm => ?_⟩
  · rcases List.mem_append.1 hmem with hmem | hmem
    · obtain ⟨-, j, -, hj⟩ := hbelow _ hmem
      exact not_suffix_self j _ hj
    · exact hapart _ hmem (List.suffix_refl _)
  · refine List.nodup_append.2 ⟨hnodup, hnodup', fun m hm m' hm' hmm' => ?_⟩
    obtain ⟨-, j, -, hj⟩ := hbelow m hm
    exact hapart m' hm' (hmm' ▸ (List.suffix_cons j _).trans hj)
  · rcases List.mem_cons.1 hm with rfl | hm
    · exact ⟨hx, k, List.mem_cons_self, List.suffix_refl _⟩
    · rcases List.mem_append.1 hm with hm | hm
      · obtain ⟨hx, j, -, hj⟩ := hbelow m hm
        exact ⟨hx, k, List.mem_cons_self, (List.suffix_cons j _).trans hj⟩
      · obtain ⟨hx, j, hj, hjm⟩ := hbeside m hm
        exact ⟨hx, j, List.mem_cons_of_mem _ hj, hjm⟩

/-- Trials with the paths of some entries of one directory are for those and for what is below them. -/
theorem Trials.spread {above : Option Loc} {ps : List Path} {h g : Host} {made : List Trial}
    (ht : Trials above ps h made g) : ∀ {fs : FileSystem} {q : Path} {l : Loc} {names : List String},
    above = some l → ps = names.map (q / ·) → Siblings fs q l names → fs.Shrinks h.files →
    Spread fs l names made := by
  induction ht with
  | nil =>
    intro fs q l names _ _ _ _
    exact spread_nil fs l names
  | @cons above p ps h h₁ h₂ made rest inner outer ihinner ihouter =>
    intro fs q l names habove hps hs hshrinks
    obtain ⟨k, names, rfl, rfl, rfl⟩ : ∃ k ks, names = k :: ks ∧ p = q / k ∧ ps = ks.map (q / ·) := by
      cases names with
      | nil => cases hps
      | cons k ks => exact ⟨k, ks, rfl, (List.cons.inj hps).1, (List.cons.inj hps).2⟩
    have hplace : h.files.placeOf (q / k) = none ∨ h.files.placeOf (q / k) = some (k :: l) := by
      cases hp : h.files.placeOf (q / k) with
      | none => exact .inl rfl
      | some m =>
        rw [hs.found k List.mem_cons_self m (hshrinks.locate (placeOf_eq_some.1 hp))]
        exact .inr rfl
    obtain ⟨ks, hmade⟩ : ∃ ks, Spread fs (k :: l) ks made := by
      rcases hplace with hp | hp
      · obtain rfl := inner.eq_nil_of_absent hp
        exact ⟨[], spread_nil _ _ _⟩
      · obtain ⟨ks, hks, hsiblings⟩ := siblings_below hp
        exact ⟨ks, (ihinner hp hks hsiblings (files_below (q / k) h ▸ .refl _)).of_within hshrinks.tree⟩
    have hinner := inner.shrinks
    rw [files_below] at hinner
    have hrest := ihouter habove rfl hs.tail (hshrinks.trans (hinner.trans (shrinks_removeEntry _ _)))
    exact hmade.cons (List.nodup_cons.1 hs.nodup).1 ⟨k, l, rfl, habove, hplace⟩ (hs.stood k List.mem_cons_self)
      hrest

theorem Trials.nodes {above : Option Loc} {p : Path} {l : Loc} {h h₁ : Host} {made : List Trial}
    (ht : Trials above ((Directory.below p).run h).1 ((Directory.below p).run h).2 made h₁)
    (habove : above = some l) (hl : h.files.placeOf p = some l) : ∃ ms : List Loc,
      List.Forall₂ Trial.IsFor made ms ∧ (l :: ms).Nodup ∧ ∀ m ∈ l :: ms, m ∈ h.files.tree.nodesFrom l := by
  obtain ⟨names, hnames, hs⟩ := siblings_below hl
  obtain ⟨ms, hms, hnodup, hbelow⟩ := ht.spread habove hnames hs (files_below p h ▸ .refl _)
  refine ⟨ms, hms, List.nodup_cons.2 ⟨fun hmem => ?_, hnodup⟩, fun m hm => FileTree.mem_nodesFrom.2 ?_⟩
  · obtain ⟨-, k, -, hk⟩ := hbelow l hmem
    exact not_suffix_self k l hk
  · rcases List.mem_cons.1 hm with rfl | hm
    · exact ⟨find_reached (placeOf_eq_some.1 hl), List.suffix_refl _⟩
    · obtain ⟨hx, k, -, hk⟩ := hbelow m hm
      exact ⟨hx, (List.suffix_cons k l).trans hk⟩

theorem exists_of_isFor {made : List Trial} {ms : List Loc} (hms : List.Forall₂ Trial.IsFor made ms) :
    ∀ c ∈ made, ∃ m, c.IsFor m := by
  induction hms with
  | nil => simp
  | cons hc hrest ih =>
    intro c' hc'
    rcases List.mem_cons.1 hc' with rfl | hc'
    · exact ⟨_, hc⟩
    · exact ih c' hc'

theorem places_sublist {made : List Trial} {ms : List Loc} (hms : List.Forall₂ Trial.IsFor made ms) :
    (made.filterMap Trial.place).Sublist ms := by
  induction hms with
  | nil => exact List.Sublist.refl _
  | @cons c m _ _ hc hrest ih =>
    obtain ⟨n, d, -, -, hplace | hplace⟩ := hc
    · rw [List.filterMap_cons_none hplace]
      exact ih.cons m
    · rw [List.filterMap_cons_some hplace]
      exact ih.cons_cons m

def looped : Host :=
  ⟨(FileSystem.empty.add [] "d" .directory).add ["d"] "up" (.link ⟨".."⟩), {}, []⟩

end Directory
end CrashVault
