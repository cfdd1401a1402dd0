import CrashVault.Path

/-! Trees of directories, files and links. A node is found from the root by the names that lead to it,
and changed in place; a change at a place is seen there and below it, and nowhere else
(`at?_update_self`, `node_at?_update_of_not_suffix`). -/

namespace CrashVault

/-- A place in a tree: the names from the innermost out to the root, which is `[]`. So the places at or
below `l` are those that end in `l`. -/
abbrev Loc := List String

/-- What stands at one place. -/
inductive Node
  | directory
  | file (text : String)
  | link (target : Path)
  deriving DecidableEq, Inhabited

/-- A node with all that is below it. -/
inductive Tree
  | directory (entries : List (String × Tree))
  | file (text : String)
  | link (target : Path)

namespace Tree

def node : Tree → Node
  | directory _ => .directory
  | file text => .file text
  | link target => .link target

def ofNode : Node → Tree
  | .directory => directory []
  | .file text => file text
  | .link target => link target

def entries : Tree → List (String × Tree)
  | directory es => es
  | _ => []

def child? (t : Tree) (n : String) : Option Tree := t.entries.lookup n

def at? (t : Tree) : Loc → Option Tree
  | [] => some t
  | n :: d => (t.at? d).bind (·.child? n)

/-- Changes the entries of a directory. -/
def mapEntries (f : List (String × Tree) → List (String × Tree)) : Tree → Tree
  | directory es => directory (f es)
  | t => t

def mapChild (n : String) (f : Tree → Tree) : Tree → Tree :=
  mapEntries (List.map fun e => if e.1 = n then (e.1, f e.2) else e)

def update : Loc → (Tree → Tree) → Tree → Tree
  | [], f => f
  | n :: d, f => update d (mapChild n f)

mutual

/-- All places of a tree that stands at `l`, with their nodes. -/
def places : Tree → Loc → List (Loc × Node)
  | directory es, l => (l, .directory) :: placesIn es l
  | file text, l => [(l, .file text)]
  | link target, l => [(l, .link target)]

def placesIn : List (String × Tree) → Loc → List (Loc × Node)
  | [], _ => []
  | (n, t) :: es, l => places t (n :: l) ++ placesIn es l

end

/-- A directory is settled once what it holds is. -/
theorem induct {motive : Tree → Prop} (file : ∀ text, motive (.file text))
    (link : ∀ target, motive (.link target))
    (directory : ∀ es : List (String × Tree), (∀ e ∈ es, motive e.2) → motive (.directory es)) :
    ∀ t, motive t
  | .file text => file text
  | .link target => link target
  | .directory es => directory es fun e he =>
    have : sizeOf e.2 < 1 + sizeOf es := by
      have h1 := List.sizeOf_lt_of_mem he
      obtain ⟨n, t⟩ := e
      simp at h1 ⊢
      omega
    induct file link directory e.2

theorem mem_placesIn {es : List (String × Tree)} {l : Loc} {e : Loc × Node} :
    e ∈ placesIn es l ↔ ∃ n t, (n, t) ∈ es ∧ e ∈ t.places (n :: l) := by
  induction es with
  | nil => simp [placesIn]
  | cons c es ih =>
    obtain ⟨k, x⟩ := c
    rw [placesIn, List.mem_append, ih]
    constructor
    · rintro (h | ⟨n, t, hm, h⟩)
      · exact ⟨k, x, List.mem_cons_self, h⟩
      · exact ⟨n, t, List.mem_cons_of_mem _ hm, h⟩
    · rintro ⟨n, t, hm, h⟩
      rcases List.mem_cons.1 hm with he | hm
      · obtain ⟨rfl, rfl⟩ := Prod.mk.inj he
        exact .inl h
      · exact .inr ⟨n, t, hm, h⟩

theorem node_ofNode (x : Node) : (ofNode x).node = x := by
  cases x <;> rfl

theorem child?_ofNode (x : Node) (n : String) : (ofNode x).child? n = none := by
  cases x <;> rfl

theorem child?_directory (es : List (String × Tree)) (n : String) :
    (directory es).child? n = es.lookup n := rfl

theorem at?_append (t : Tree) (r d : Loc) : t.at? (r ++ d) = (t.at? d).bind (·.at? r) := by
  induction r with
  | nil => simp [at?]
  | cons n r ih =>
    rw [List.cons_append, at?, ih, Option.bind_assoc]
    rfl

theorem at?_snoc (t : Tree) (r : Loc) (n : String) : t.at? (r ++ [n]) = (t.child? n).bind (·.at? r) := by
  rw [at?_append]
  rfl

theorem lookup_map_of_ne {n m : String} (h : m ≠ n) (f : Tree → Tree) (es : List (String × Tree)) :
    (es.map fun e => if e.1 = n then (e.1, f e.2) else e).lookup m = es.lookup m := by
  induction es with
  | nil => rfl
  | cons e es ih =>
    obtain ⟨k, x⟩ := e
    by_cases hk : k = n
    · subst hk
      simp [List.lookup_cons, beq_eq_false_iff_ne.2 h, ih]
    · simp [List.lookup_cons, hk, ih]

theorem lookup_map_self (n : String) (f : Tree → Tree) (es : List (String × Tree)) :
    (es.map fun e => if e.1 = n then (e.1, f e.2) else e).lookup n = (es.lookup n).map f := by
  induction es with
  | nil => rfl
  | cons e es ih =>
    obtain ⟨k, x⟩ := e
    by_cases hk : k = n
    · simp [hk]
    · simp [List.lookup_cons, hk, beq_eq_false_iff_ne.2 (Ne.symm hk), ih]

theorem node_mapEntries (f : List (String × Tree) → List (String × Tree)) (t : Tree) :
    (t.mapEntries f).node = t.node := by
  cases t <;> rfl

theorem child?_mapChild_self (n : String) (f : Tree → Tree) (t : Tree) :
    (t.mapChild n f).child? n = (t.child? n).map f := by
  cases t with
  | directory es => exact lookup_map_self n f es
  | file _ => rfl
  | link _ => rfl

theorem child?_mapChild_of_ne {n m : String} (h : m ≠ n) (f : Tree → Tree) (t : Tree) :
    (t.mapChild n f).child? m = t.child? m := by
  cases t with
  | directory es => exact lookup_map_of_ne h f es
  | file _ => rfl
  | link _ => rfl

theorem at?_update_self (d : Loc) (f : Tree → Tree) (t : Tree) :
    (t.update d f).at? d = (t.at? d).map f := by
  induction d generalizing f with
  | nil => rfl
  | cons n d ih =>
    rw [update, at?, ih, at?]
    cases t.at? d with
    | none => rfl
    | some x => exact child?_mapChild_self n f x

theorem at?_update_below (r d : Loc) (f : Tree → Tree) (t : Tree) :
    (t.update d f).at? (r ++ d) = ((t.at? d).map f).bind (·.at? r) := by
  rw [at?_append, at?_update_self]

theorem node_at?_update_of_not_suffix {d m : Loc} (h : ¬ d <:+ m) (f : Tree → Tree) (t : Tree) :
    ((t.update d f).at? m).map node = (t.at? m).map node := by
  induction d generalizing f with
  | nil => exact absurd List.nil_suffix h
  | cons n d ih =>
    by_cases hd : d <:+ m
    · obtain ⟨r, rfl⟩ := hd
      rw [update, at?_update_below, at?_append]
      cases t.at? d with
      | none => rfl
      | some x =>
        simp only [Option.map_some, Option.bind_some]
        rcases List.eq_nil_or_concat r with rfl | ⟨r, k, rfl⟩
        · simp [at?, mapChild, node_mapEntries]
        · have hk : k ≠ n := by
            rintro rfl
            exact h ⟨r, by simp⟩
          rw [List.concat_eq_append, at?_snoc, at?_snoc, child?_mapChild_of_ne hk]
    · exact ih hd _

end Tree
end CrashVault
