import CrashVault.Tree

/-! The tree of a file system, whose root is a directory and whose names are fit for entries, and its
changes: adding an entry to a directory, replacing the text of a file, pruning a node with all below it.
Each change is described by what `get?` finds at every place afterwards; one that would not leave a file
tree does nothing. -/

namespace CrashVault

/-- The greatest length of a name, in bytes. -/
def nameMax : Nat := 255

def IsEntryName (n : String) : Prop := IsName n ∧ n.utf8ByteSize ≤ nameMax

instance (n : String) : Decidable (IsEntryName n) := inferInstanceAs (Decidable (_ ∧ _))

namespace Tree

/-- No directory lists a name twice, or one that is not fit for an entry. -/
inductive Sound : Tree → Prop
  | file (text : String) : Sound (.file text)
  | link (target : Path) : Sound (.link target)
  | directory {es : List (String × Tree)} (unique : (es.map Prod.fst).Nodup)
      (named : ∀ e ∈ es, IsEntryName e.1) (below : ∀ e ∈ es, Sound e.2) : Sound (.directory es)

theorem sound_ofNode (x : Node) : (ofNode x).Sound := by
  cases x with
  | directory => exact .directory (by simp) (by simp) (by simp)
  | file text => exact .file text
  | link target => exact .link target

theorem mem_of_lookup {es : List (String × Tree)} {n : String} {x : Tree} (h : es.lookup n = some x) :
    (n, x) ∈ es := by
  induction es with
  | nil => simp at h
  | cons e es ih =>
    obtain ⟨k, y⟩ := e
    by_cases hk : n = k
    · subst hk
      simp only [List.lookup_cons, beq_self_eq_true, Option.some.injEq] at h
      simp [h]
    · rw [List.lookup_cons, beq_eq_false_iff_ne.2 hk] at h
      exact List.mem_cons_of_mem _ (ih h)

theorem lookup_eq_none {es : List (String × Tree)} {n : String} :
    es.lookup n = none ↔ n ∉ es.map Prod.fst := by
  induction es with
  | nil => simp
  | cons e es ih =>
    obtain ⟨k, y⟩ := e
    by_cases hk : n = k
    · simp [hk]
    · rw [List.lookup_cons, beq_eq_false_iff_ne.2 hk]
      simp [ih, hk]

theorem lookup_of_mem {es : List (String × Tree)} (h : (es.map Prod.fst).Nodup) {n : String} {x : Tree}
    (hm : (n, x) ∈ es) : es.lookup n = some x := by
  induction es with
  | nil => simp at hm
  | cons e es ih =>
    obtain ⟨k, y⟩ := e
    rw [List.map_cons, List.nodup_cons] at h
    rcases List.mem_cons.1 hm with he | he
    · obtain ⟨rfl, rfl⟩ := Prod.mk.inj he
      simp
    · have hk : n ≠ k := by
        rintro rfl
        exact h.1 (List.mem_map.2 ⟨_, he, rfl⟩)
      rw [List.lookup_cons, beq_eq_false_iff_ne.2 hk]
      exact ih h.2 he

theorem Sound.child? {t : Tree} (h : t.Sound) {n : String} {x : Tree} (hx : t.child? n = some x) :
    IsEntryName n ∧ x.Sound := by
  cases h with
  | file => simp [Tree.child?, entries] at hx
  | link => simp [Tree.child?, entries] at hx
  | directory _ named below => exact ⟨named _ (mem_of_lookup hx), below _ (mem_of_lookup hx)⟩

theorem Sound.at? {t : Tree} (h : t.Sound) {l : Loc} {x : Tree} (hx : t.at? l = some x) : x.Sound := by
  induction l generalizing x with
  | nil =>
    cases hx
    exact h
  | cons n d ih =>
    obtain ⟨y, hy, hx⟩ := Option.bind_eq_some_iff.1 hx
    exact ((ih hy).child? hx).2

theorem Sound.mapChild {t : Tree} (h : t.Sound) {n : String} {f : Tree → Tree}
    (hf : ∀ x, t.child? n = some x → (f x).Sound) : (t.mapChild n f).Sound := by
  cases h with
  | file text => exact .file text
  | link target => exact .link target
  | @directory es unique named below =>
    have hfst : (es.map fun e => if e.1 = n then (e.1, f e.2) else e).map Prod.fst = es.map Prod.fst := by
      rw [List.map_map]
      refine List.map_congr_left fun e _ => ?_
      simp only [Function.comp_apply]
      split <;> rfl
    refine .directory (by rw [hfst]; exact unique) (fun e he => ?_) fun e he => ?_
    all_goals
      obtain ⟨e', he', rfl⟩ := List.mem_map.1 he
      split
    · exact named e' he'
    · exact named e' he'
    · rename_i hn
      exact hf _ (lookup_of_mem unique (hn ▸ he'))
    · exact below e' he'

theorem Sound.update {t : Tree} (h : t.Sound) {d : Loc} {f : Tree → Tree}
    (hf : ∀ x, t.at? d = some x → x.Sound → (f x).Sound) : (t.update d f).Sound := by
  induction d generalizing f with
  | nil => exact hf t rfl h
  | cons n d ih =>
    refine ih fun x hx hs => hs.mapChild fun y hy => hf y ?_ (hs.child? hy).2
    simp [Tree.at?, hx, hy]

theorem node_update {t : Tree} (h : t.node = .directory) {d : Loc} {f : Tree → Tree}
    (hf : ∀ x : Tree, x.node = .directory → (f x).node = .directory) :
    (t.update d f).node = .directory := by
  induction d generalizing f with
  | nil => exact hf t h
  | cons n d ih => exact ih fun x hx => (node_mapEntries _ x).trans hx

theorem mem_places {t : Tree} (ht : t.Sound) {l m : Loc} {x : Node} :
    (m, x) ∈ t.places l ↔ ∃ r y, m = r ++ l ∧ t.at? r = some y ∧ y.node = x := by
  induction t using induct generalizing l with
  | file text =>
    constructor
    · intro h
      simp only [places, List.mem_singleton, Prod.mk.injEq] at h
      exact ⟨[], .file text, h.1, rfl, h.2.symm⟩
    · rintro ⟨r, y, rfl, hy, rfl⟩
      rcases List.eq_nil_or_concat r with rfl | ⟨r, k, rfl⟩
      · cases hy
        simp [places, node]
      · rw [List.concat_eq_append, at?_snoc] at hy
        simp [child?, entries] at hy
  | link target =>
    constructor
    · intro h
      simp only [places, List.mem_singleton, Prod.mk.injEq] at h
      exact ⟨[], .link target, h.1, rfl, h.2.symm⟩
    · rintro ⟨r, y, rfl, hy, rfl⟩
      rcases List.eq_nil_or_concat r with rfl | ⟨r, k, rfl⟩
      · cases hy
        simp [places, node]
      · rw [List.concat_eq_append, at?_snoc] at hy
        simp [child?, entries] at hy
  | directory es ih =>
    cases ht with
    | directory unique named below =>
      rw [places, List.mem_cons, mem_placesIn]
      constructor
      · rintro (h | ⟨n, t, hm, h⟩)
        · obtain ⟨rfl, rfl⟩ := Prod.mk.inj h
          exact ⟨[], .directory es, rfl, rfl, rfl⟩
        · obtain ⟨r, y, rfl, hy, rfl⟩ := (ih (n, t) hm (below _ hm)).1 h
          refine ⟨r ++ [n], y, by simp, ?_, rfl⟩
          rw [at?_snoc, child?_directory, lookup_of_mem unique hm, Option.bind_some, hy]
      · rintro ⟨r, y, rfl, hy, rfl⟩
        rcases List.eq_nil_or_concat r with rfl | ⟨r, k, rfl⟩
        · cases hy
          exact .inl rfl
        · rw [List.concat_eq_append, at?_snoc, child?_directory] at hy
          obtain ⟨z, hz, hy⟩ := Option.bind_eq_some_iff.1 hy
          have hm := mem_of_lookup hz
          exact .inr ⟨k, z, hm, (ih (k, z) hm (below _ hm)).2 ⟨r, y, by simp, hy, rfl⟩⟩

end Tree

structure FileTree where
  root : Tree
  sound : root.Sound
  node_root : root.node = .directory

namespace FileTree

def empty : FileTree := ⟨.directory [], .directory (by simp) (by simp) (by simp), rfl⟩

instance : Inhabited FileTree := ⟨empty⟩

def get? (t : FileTree) (l : Loc) : Option Node := (t.root.at? l).map Tree.node

def children (t : FileTree) (d : Loc) : List String :=
  match t.root.at? d with
  | some x => x.entries.map Prod.fst
  | none => []

/-- Every place with its node, the root among them. -/
def toList (t : FileTree) : List (Loc × Node) := t.root.places []

@[simp] theorem get?_root (t : FileTree) : t.get? [] = some .directory := by
  simp [get?, Tree.at?, t.node_root]

theorem get?_cons_eq_some {t : FileTree} {n : String} {d : Loc} {x : Node} :
    t.get? (n :: d) = some x ↔ ∃ y z, t.root.at? d = some y ∧ y.child? n = some z ∧ z.node = x := by
  simp only [get?, Tree.at?, Option.map_eq_some_iff, Option.bind_eq_some_iff]
  constructor
  · rintro ⟨z, ⟨y, hy, hz⟩, hx⟩
    exact ⟨y, z, hy, hz, hx⟩
  · rintro ⟨y, z, hy, hz, hx⟩
    exact ⟨z, ⟨y, hy, hz⟩, hx⟩

theorem isEntryName_of_get? {t : FileTree} {n : String} {d : Loc} {x : Node}
    (h : t.get? (n :: d) = some x) : IsEntryName n := by
  obtain ⟨y, z, hy, hz, -⟩ := get?_cons_eq_some.1 h
  exact ((t.sound.at? hy).child? hz).1

theorem get?_parent {t : FileTree} {n : String} {d : Loc} {x : Node} (h : t.get? (n :: d) = some x) :
    t.get? d = some .directory := by
  obtain ⟨y, z, hy, hz, -⟩ := get?_cons_eq_some.1 h
  cases y with
  | directory es => simp [get?, hy, Tree.node]
  | file text => simp [Tree.child?, Tree.entries] at hz
  | link target => simp [Tree.child?, Tree.entries] at hz

theorem get?_of_isSuffix {t : FileTree} {l m : Loc} {x : Node} (h : t.get? m = some x) (hs : l <:+ m)
    (hne : l ≠ m) : t.get? l = some .directory := by
  induction m generalizing x with
  | nil => exact absurd (List.suffix_nil.1 hs) hne
  | cons n d ih =>
    rcases List.suffix_cons_iff.1 hs with rfl | hs'
    · exact absurd rfl hne
    · by_cases hd : l = d
      · exact hd ▸ get?_parent h
      · exact ih (get?_parent h) hs' hd

theorem get?_of_append {t : FileTree} {r l : Loc} {x : Node} (h : t.get? (r ++ l) = some x) :
    ∃ y, t.get? l = some y := by
  by_cases he : l = r ++ l
  · exact ⟨x, he ▸ h⟩
  · exact ⟨_, get?_of_isSuffix h (List.suffix_append r l) he⟩

theorem get?_append_of_none {t : FileTree} {l : Loc} (h : t.get? l = none) (r : Loc) :
    t.get? (r ++ l) = none := by
  cases hx : t.get? (r ++ l) with
  | none => rfl
  | some x =>
    obtain ⟨y, hy⟩ := get?_of_append hx
    rw [h] at hy
    cases hy

theorem mem_children {t : FileTree} {n : String} {d : Loc} :
    n ∈ t.children d ↔ ∃ x, t.get? (n :: d) = some x := by
  unfold children
  cases hy : t.root.at? d with
  | none => simp [get?, Tree.at?, hy]
  | some y =>
    cases hz : y.entries.lookup n with
    | none => simpa [get?, Tree.at?, hy, Tree.child?, hz] using Tree.lookup_eq_none.1 hz
    | some z =>
      have : n ∈ y.entries.map Prod.fst := List.mem_map.2 ⟨_, Tree.mem_of_lookup hz, rfl⟩
      simp [get?, Tree.at?, hy, Tree.child?, hz, this]

theorem children_eq_nil {t : FileTree} {d : Loc} : t.children d = [] ↔ ∀ k, t.get? (k :: d) = none := by
  simp only [List.eq_nil_iff_forall_not_mem, mem_children, ← Option.isSome_iff_exists,
    Bool.not_eq_true, Option.isSome_eq_false_iff, Option.isNone_iff_eq_none]

theorem children_of_ne_directory {t : FileTree} {l : Loc} {x : Node} (hx : t.get? l = some x)
    (hd : x ≠ .directory) : t.children l = [] := by
  refine List.eq_nil_iff_forall_not_mem.2 fun k hk => hd ?_
  obtain ⟨y, hy⟩ := mem_children.1 hk
  exact Option.some.inj (hx.symm.trans (get?_parent hy))

theorem nodup_children (t : FileTree) (d : Loc) : (t.children d).Nodup := by
  unfold children
  cases hy : t.root.at? d with
  | none => simp
  | some y =>
    cases t.sound.at? hy with
    | file => simp [Tree.entries]
    | link => simp [Tree.entries]
    | directory unique => exact unique

theorem mem_toList {t : FileTree} {l : Loc} {x : Node} :
    (l, x) ∈ t.toList ↔ t.get? l = some x := by
  rw [toList, Tree.mem_places t.sound, get?, Option.map_eq_some_iff]
  simp

/-- A directory takes a new entry under a name it does not hold yet. -/
def CanAdd (t : FileTree) (d : Loc) (n : String) : Prop :=
  t.get? d = some .directory ∧ IsEntryName n ∧ t.get? (n :: d) = none

instance (t : FileTree) (d : Loc) (n : String) : Decidable (t.CanAdd d n) :=
  inferInstanceAs (Decidable (_ ∧ _ ∧ _))

def add (t : FileTree) (d : Loc) (n : String) (x : Node) : FileTree :=
  if h : t.CanAdd d n then
    { root := t.root.update d (Tree.mapEntries ((n, .ofNode x) :: ·))
      sound := by
        refine t.sound.update fun y hy hs => ?_
        have hn : y.child? n = none := by simpa [get?, Tree.at?, hy] using h.2.2
        cases hs with
        | file text => exact .file text
        | link target => exact .link target
        | directory unique named below =>
          refine .directory ?_ ?_ ?_
          · rw [List.map_cons, List.nodup_cons]
            exact ⟨Tree.lookup_eq_none.1 hn, unique⟩
          · simpa using ⟨h.2.1, fun a b => named (a, b)⟩
          · simpa using ⟨Tree.sound_ofNode x, fun a b => below (a, b)⟩
      node_root := Tree.node_update t.node_root fun y hy => (Tree.node_mapEntries _ y).trans hy }
  else t

theorem head_eq_of_append_cons {r s d : Loc} {k n : String} (h : r ++ k :: d = s ++ n :: d) : k = n :=
  (List.cons.inj (List.append_inj' h rfl).2).1

theorem get?_add {t : FileTree} {d : Loc} {n : String} (h : t.CanAdd d n) (x : Node) (l : Loc) :
    (t.add d n x).get? l = if l = n :: d then some x else t.get? l := by
  rw [add, dif_pos h]
  obtain ⟨hd, -, hn⟩ := h
  obtain ⟨y, hy, hyd⟩ := Option.map_eq_some_iff.1 hd
  obtain ⟨es, rfl⟩ : ∃ es, y = .directory es := by
    cases y with
    | directory es => exact ⟨es, rfl⟩
    | file _ => cases hyd
    | link _ => cases hyd
  by_cases hs : d <:+ l
  · obtain ⟨r, rfl⟩ := hs
    simp only [get?, Tree.at?_update_below, hy, Option.map_some, Option.bind_some]
    rw [Tree.at?_append, hy, Option.bind_some]
    rcases List.eq_nil_or_concat r with rfl | ⟨r, k, rfl⟩
    · simp [Tree.at?, Tree.mapEntries, Tree.node]
    · rw [List.concat_eq_append, Tree.at?_snoc, Tree.at?_snoc]
      have hes : es.lookup n = none := by simpa [get?, Tree.at?, hy, Tree.child?, Tree.entries] using hn
      by_cases hk : k = n
      · subst hk
        have hc : ((Tree.directory es).mapEntries ((k, .ofNode x) :: ·)).child? k = some (.ofNode x) := by
          simp [Tree.child?, Tree.entries, Tree.mapEntries]
        rw [hc, Option.bind_some]
        rcases List.eq_nil_or_concat r with rfl | ⟨r, j, rfl⟩
        · simp [Tree.at?, Tree.node_ofNode]
        · have hl : r ++ [j] ++ [k] ++ d ≠ k :: d := fun he => by
            have := congrArg List.length he
            simp at this
            omega
          rw [List.concat_eq_append, Tree.at?_snoc, Tree.child?_ofNode, Tree.child?_directory, hes, if_neg hl]
          rfl
      · have hc : ((Tree.directory es).mapEntries ((n, .ofNode x) :: ·)).child? k =
            (Tree.directory es).child? k := by
          simp [Tree.child?, Tree.entries, Tree.mapEntries, List.lookup_cons, beq_eq_false_iff_ne.2 hk]
        have hl : r ++ [k] ++ d ≠ n :: d := by
          intro he
          rw [List.append_assoc, List.singleton_append] at he
          exact hk (head_eq_of_append_cons (s := []) he)
        rw [hc, if_neg hl]
  · have hl : l ≠ n :: d := by
      rintro rfl
      exact hs (List.suffix_cons n d)
    rw [if_neg hl]
    exact Tree.node_at?_update_of_not_suffix hs _ _

/-- The text of a file replaced. -/
def retext (text : String) : Tree → Tree
  | .file _ => .file text
  | t => t

theorem sound_retext {t : Tree} (h : t.Sound) (text : String) : (retext text t).Sound := by
  cases h with
  | file _ => exact .file text
  | link target => exact .link target
  | directory unique named below => exact .directory unique named below

def setText (t : FileTree) (l : Loc) (text : String) : FileTree where
  root := t.root.update l (retext text)
  sound := t.sound.update fun _ _ hs => sound_retext hs text
  node_root := Tree.node_update t.node_root fun x hx => by
    cases x with
    | directory _ => rfl
    | file _ => cases hx
    | link _ => cases hx

theorem get?_setText {t : FileTree} {l : Loc} {old : String} (h : t.get? l = some (.file old))
    (text : String) (m : Loc) :
    (t.setText l text).get? m = if m = l then some (.file text) else t.get? m := by
  obtain ⟨y, hy, hyf⟩ := Option.map_eq_some_iff.1 h
  obtain rfl : y = .file old := by
    cases y with
    | directory _ => cases hyf
    | file _ =>
      cases hyf
      rfl
    | link _ => cases hyf
  by_cases hs : l <:+ m
  · obtain ⟨r, rfl⟩ := hs
    simp only [get?, setText, Tree.at?_update_below, hy, Option.map_some, Option.bind_some]
    rw [Tree.at?_append, hy, Option.bind_some]
    rcases List.eq_nil_or_concat r with rfl | ⟨r, k, rfl⟩
    · simp [Tree.at?, retext, Tree.node]
    · have : r ++ [k] ++ l ≠ l := fun he => by
        have := congrArg List.length he
        simp at this
        omega
      rw [List.concat_eq_append, Tree.at?_snoc, Tree.at?_snoc, if_neg this]
      rfl
  · have : m ≠ l := by
      rintro rfl
      exact hs (List.suffix_refl m)
    rw [if_neg this]
    exact Tree.node_at?_update_of_not_suffix hs _ _

theorem sound_filter {t : Tree} (h : t.Sound) (keep : String × Tree → Bool) :
    (t.mapEntries (List.filter keep)).Sound := by
  cases h with
  | file text => exact .file text
  | link target => exact .link target
  | directory unique named below =>
    exact .directory ((List.filter_sublist.map _).nodup unique)
      (fun e he => named e (List.mem_filter.1 he).1) fun e he => below e (List.mem_filter.1 he).1

/-- Takes away the entries of the directory at `d` that are not to be kept, with all below them. -/
def keepEntries (t : FileTree) (d : Loc) (keep : String → Bool) : FileTree where
  root := t.root.update d (Tree.mapEntries (List.filter fun e => keep e.1))
  sound := t.sound.update fun _ _ hs => sound_filter hs _
  node_root := Tree.node_update t.node_root fun x hx => (Tree.node_mapEntries _ x).trans hx

def clear (t : FileTree) (d : Loc) : FileTree := t.keepEntries d fun _ => false

/-- Takes away the node at `l` and all below it; of the root only what is below it. -/
def prune (t : FileTree) : Loc → FileTree
  | [] => t.clear []
  | n :: d => t.keepEntries d fun k => k ≠ n

theorem lookup_filter (keep : String → Bool) (es : List (String × Tree)) (n : String) :
    (es.filter fun e => keep e.1).lookup n = if keep n then es.lookup n else none := by
  induction es with
  | nil => simp
  | cons e es ih =>
    obtain ⟨k, x⟩ := e
    by_cases hk : n = k
    · subst hk
      by_cases hkeep : keep n
      · simp [hkeep]
      · simp [hkeep, ih]
    · by_cases hkeep : keep k
      · simp [hkeep, List.lookup_cons, beq_eq_false_iff_ne.2 hk, ih]
      · simp [hkeep, List.lookup_cons, beq_eq_false_iff_ne.2 hk, ih]

/-- What is kept of a directory is what is at or below the entries that are. -/
theorem get?_keepEntries_below (t : FileTree) (d : Loc) (keep : String → Bool) (k : String) (r : Loc) :
    (t.keepEntries d keep).get? (r ++ k :: d) = if keep k then t.get? (r ++ k :: d) else none := by
  have hsplit : r ++ k :: d = (r ++ [k]) ++ d := by simp
  rw [hsplit]
  simp only [get?, keepEntries, Tree.at?_update_below]
  rw [Tree.at?_append]
  cases hy : t.root.at? d with
  | none => simp
  | some y =>
    have hc : (y.mapEntries (List.filter fun e => keep e.1)).child? k =
        if keep k then y.child? k else none := by
      cases y with
      | directory es => simpa [Tree.mapEntries, Tree.child?_directory] using lookup_filter keep es k
      | file _ => simp [Tree.child?, Tree.entries, Tree.mapEntries]
      | link _ => simp [Tree.child?, Tree.entries, Tree.mapEntries]
    simp only [Option.map_some, Option.bind_some]
    rw [Tree.at?_snoc, Tree.at?_snoc, hc]
    split <;> rfl

theorem get?_keepEntries_apart (t : FileTree) {d m : Loc} (keep : String → Bool)
    (hm : m = d ∨ ¬ d <:+ m) : (t.keepEntries d keep).get? m = t.get? m := by
  rcases hm with rfl | hm
  · simp only [get?, keepEntries, Tree.at?_update_self]
    cases t.root.at? m with
    | none => rfl
    | some y => simp [Tree.node_mapEntries]
  · exact Tree.node_at?_update_of_not_suffix hm _ _

theorem get?_prune (t : FileTree) {l : Loc} (hl : l ≠ []) (m : Loc) :
    (t.prune l).get? m = if l <:+ m then none else t.get? m := by
  obtain ⟨n, d, rfl⟩ := List.exists_cons_of_ne_nil hl
  by_cases hs : d <:+ m
  · obtain ⟨r, rfl⟩ := hs
    rcases List.eq_nil_or_concat r with rfl | ⟨r, k, rfl⟩
    · have : ¬ n :: d <:+ [] ++ d := fun h => by
        have := h.length_le
        simp only [List.length_cons, List.nil_append] at this
        omega
      rw [if_neg this]
      exact get?_keepEntries_apart t _ (.inl rfl)
    · rw [List.concat_eq_append, List.append_assoc, List.singleton_append, prune, get?_keepEntries_below]
      by_cases hk : k = n
      · subst hk
        simp [List.suffix_append]
      · have : ¬ n :: d <:+ r ++ k :: d := by
          rintro ⟨s, hs⟩
          exact hk (head_eq_of_append_cons hs.symm)
        simp [this, hk]
  · rw [if_neg fun h => hs ((List.suffix_cons n d).trans h)]
    exact get?_keepEntries_apart t _ (.inr hs)

theorem append_cons_ne_self (r : Loc) (k : String) (l : Loc) : r ++ k :: l ≠ l := fun he => by
  have := congrArg List.length he
  simp only [List.length_append, List.length_cons] at this
  omega

theorem get?_clear (t : FileTree) (l m : Loc) :
    (t.clear l).get? m = if l <:+ m ∧ m ≠ l then none else t.get? m := by
  by_cases hs : l <:+ m
  · obtain ⟨r, rfl⟩ := hs
    rcases List.eq_nil_or_concat r with rfl | ⟨r, k, rfl⟩
    · rw [List.nil_append, if_neg fun h => h.2 rfl]
      exact get?_keepEntries_apart t _ (.inl rfl)
    · rw [List.concat_eq_append, List.append_assoc, List.singleton_append,
        if_pos ⟨(List.suffix_cons k l).trans (List.suffix_append r _), append_cons_ne_self r k l⟩]
      exact get?_keepEntries_below t l (fun _ => false) k r
  · rw [if_neg fun h => hs h.1]
    exact get?_keepEntries_apart t _ (.inr hs)

theorem get?_eq_none_of_children {t : FileTree} {l m : Loc} (hc : t.children l = []) (hs : l <:+ m)
    (hne : m ≠ l) : t.get? m = none := by
  obtain ⟨r, rfl⟩ := hs
  rcases List.eq_nil_or_concat r with rfl | ⟨r, k, rfl⟩
  · exact absurd rfl hne
  · cases hx : t.get? (r.concat k ++ l) with
    | none => rfl
    | some x =>
      have hk : k ∈ t.children l :=
        mem_children.2 (get?_of_append (r := r) (by simpa using hx))
      rw [hc] at hk
      cases hk

theorem get?_below_leaf {t : FileTree} {l m : Loc} {x : Node} (hx : t.get? l = some x) (hd : x ≠ .directory)
    (hs : l <:+ m) (hne : m ≠ l) : t.get? m = none :=
  get?_eq_none_of_children (children_of_ne_directory hx hd) hs hne

theorem get?_empty {m : Loc} (hm : m ≠ []) : empty.get? m = none :=
  get?_eq_none_of_children rfl (List.nil_suffix) hm

theorem get?_prune_of_children {t : FileTree} {l : Loc} (hl : l ≠ []) (hc : t.children l = [])
    (m : Loc) : (t.prune l).get? m = if m = l then none else t.get? m := by
  rw [get?_prune t hl]
  by_cases hm : m = l
  · rw [if_pos (hm ▸ List.suffix_refl l), if_pos hm]
  · rw [if_neg hm]
    split
    · exact (get?_eq_none_of_children hc ‹_› hm).symm
    · rfl

end FileTree
end CrashVault
