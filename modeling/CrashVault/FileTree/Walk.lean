import CrashVault.FileTree
import CrashVault.SystemError

/-! Looking a path up in a tree, step by step from a place or from a directory removed below it. Links on
the way are always followed, the last one only when asked; each jump through a link spends one from a
budget, so every lookup ends. What one step can do is said once (`walkWith_cons_ok`). A lookup ends at a
node that is there, at a name its directory can take or in a removed directory (`walkOut_reached`), and
goes one step after the other (`walkOut_snoc`). -/

namespace CrashVault

/-- Where a lookup ends: at a node, at a name that a directory does not hold, or in a directory that has
been removed from the tree. -/
inductive Spot
  | node (loc : Loc)
  | vacant (dir : Loc) (name : String)
  | removed
  deriving DecidableEq

/-- How many links one lookup may go through. -/
def linkMax : Nat := 40

namespace FileTree

/-- Where the steps of a link in the directory at `cur` start. -/
def linkStart (target : Path) (cur : Loc) : Loc := if target.isAbsolute then [] else cur

/-- Walks the steps from `cur`, where `here` stands, leaving each link that is to be followed to `jump`. -/
def walkFrom (t : FileTree) (follow : Bool) (jump : Loc → List String → Except SystemError Spot) :
    (here : Option Tree) → Loc → List String → Except SystemError Spot
  | _, cur, [] => .ok (.node cur)
  | none, _, _ :: _ => .error .missing
  | some (.file _), _, _ :: _ | some (.link _), _, _ :: _ => .error .notDirectory
  | some (.directory es), cur, s :: rest =>
    if s = "." then walkFrom t follow jump (some (.directory es)) cur rest
    else if s = ".." then walkFrom t follow jump (t.root.at? cur.tail) cur.tail rest
    else if nameMax < s.utf8ByteSize then .error .nameTooLong
    else match es.lookup s with
      | none => if rest = [] then .ok (.vacant cur s) else .error .missing
      | some (.link target) =>
        if follow ∨ rest ≠ [] then jump (linkStart target cur) (target.steps ++ rest)
        else .ok (.node (s :: cur))
      | some x => walkFrom t follow jump (some x) (s :: cur) rest

def walkWith (t : FileTree) (follow : Bool) (jump : Loc → List String → Except SystemError Spot)
    (cur : Loc) (steps : List String) : Except SystemError Spot :=
  t.walkFrom follow jump (t.root.at? cur) cur steps

theorem walkWith_nil (t : FileTree) (follow : Bool) (jump : Loc → List String → Except SystemError Spot)
    (cur : Loc) : t.walkWith follow jump cur [] = .ok (.node cur) := by
  simp [walkWith, walkFrom]

theorem walkWith_cons (t : FileTree) (follow : Bool) (jump : Loc → List String → Except SystemError Spot)
    (cur : Loc) (s : String) (rest : List String) : t.walkWith follow jump cur (s :: rest) =
    match t.get? cur with
    | none => .error .missing
    | some (.file _) | some (.link _) => .error .notDirectory
    | some .directory =>
      if s = "." then t.walkWith follow jump cur rest
      else if s = ".." then t.walkWith follow jump cur.tail rest
      else if nameMax < s.utf8ByteSize then .error .nameTooLong
      else match t.get? (s :: cur) with
        | none => if rest = [] then .ok (.vacant cur s) else .error .missing
        | some (.link target) =>
          if follow ∨ rest ≠ [] then jump (linkStart target cur) (target.steps ++ rest)
          else .ok (.node (s :: cur))
        | some _ => t.walkWith follow jump (s :: cur) rest := by
  have hs : t.root.at? (s :: cur) = (t.root.at? cur).bind (·.child? s) := rfl
  simp only [walkWith, get?, hs]
  cases t.root.at? cur with
  | none => rfl
  | some x =>
    cases x with
    | file _ => rfl
    | link _ => rfl
    | directory es =>
      rw [walkFrom]
      simp only [Option.map_some, Option.bind_some, Tree.node, Tree.child?_directory]
      rcases es.lookup s with _ | (_ | _ | _) <;> rfl

/-- A step that goes down, to an entry of that name. -/
def GoesDown (s : String) : Prop := s ≠ "." ∧ s ≠ ".." ∧ s.utf8ByteSize ≤ nameMax

theorem goesDown_of_isEntryName {n : String} (h : IsEntryName n) : GoesDown n := ⟨h.1.2.1, h.1.2.2.1, h.2⟩

/-- How a lookup that ends at a spot takes its first step from a directory: it stays, goes up, ends at a
name that is not there, jumps through a link or ends at it, or goes down. -/
inductive Stride (t : FileTree) (follow : Bool) (jump : Loc → List String → Except SystemError Spot)
    (cur : Loc) (s : String) (rest : List String) : Spot → Prop
  | dot {spot : Spot} (hs : s = ".") (h : t.walkWith follow jump cur rest = .ok spot) :
    Stride t follow jump cur s rest spot
  | up {spot : Spot} (hs : s = "..") (h : t.walkWith follow jump cur.tail rest = .ok spot) :
    Stride t follow jump cur s rest spot
  | miss (hs : GoesDown s) (hx : t.get? (s :: cur) = none) (hrest : rest = []) :
    Stride t follow jump cur s rest (.vacant cur s)
  | jump {spot : Spot} {target : Path} (hs : GoesDown s) (hx : t.get? (s :: cur) = some (.link target))
    (hfollow : follow ∨ rest ≠ []) (h : jump (linkStart target cur) (target.steps ++ rest) = .ok spot) :
    Stride t follow jump cur s rest spot
  | stop {target : Path} (hs : GoesDown s) (hx : t.get? (s :: cur) = some (.link target))
    (hfollow : ¬ (follow ∨ rest ≠ [])) : Stride t follow jump cur s rest (.node (s :: cur))
  | down {spot : Spot} {x : Node} (hs : GoesDown s) (hx : t.get? (s :: cur) = some x)
    (hlink : ∀ target, x ≠ .link target) (h : t.walkWith follow jump (s :: cur) rest = .ok spot) :
    Stride t follow jump cur s rest spot

theorem walkWith_cons_ok {t : FileTree} {follow : Bool} {jump : Loc → List String → Except SystemError Spot}
    {cur : Loc} {s : String} {rest : List String} {spot : Spot} :
    t.walkWith follow jump cur (s :: rest) = .ok spot ↔
      t.get? cur = some .directory ∧ t.Stride follow jump cur s rest spot := by
  rw [walkWith_cons]
  constructor
  · intro h
    split at h
    · cases h
    · cases h
    · cases h
    · rename_i hdir
      refine ⟨hdir, ?_⟩
      split at h
      · exact .dot ‹_› h
      · rename_i hdot
        split at h
        · exact .up ‹_› h
        · rename_i hup
          split at h
          · cases h
          · rename_i hlen
            have hs : GoesDown s := ⟨hdot, hup, Nat.not_lt.1 hlen⟩
            split at h
            · rename_i hx
              split at h
              · cases h
                exact .miss hs hx ‹_›
              · cases h
            · rename_i target hx
              split at h
              · exact .jump hs hx ‹_› h
              · cases h
                exact .stop hs hx ‹_›
            · rename_i x hlink hx
              exact .down hs hx hlink h
  · rintro ⟨hdir, hstride⟩
    rw [hdir]
    dsimp only
    cases hstride with
    | dot hs h => rw [if_pos hs, h]
    | up hs h => rw [if_neg (by simp [hs]), if_pos hs, h]
    | miss hs hx hrest =>
      rw [if_neg hs.1, if_neg hs.2.1, if_neg (Nat.not_lt.2 hs.2.2), hx]
      exact if_pos hrest
    | jump hs hx hfollow h =>
      rw [if_neg hs.1, if_neg hs.2.1, if_neg (Nat.not_lt.2 hs.2.2), hx]
      exact (if_pos hfollow).trans h
    | stop hs hx hfollow =>
      rw [if_neg hs.1, if_neg hs.2.1, if_neg (Nat.not_lt.2 hs.2.2), hx]
      exact if_neg hfollow
    | @down _ x hs hx hlink h =>
      rw [if_neg hs.1, if_neg hs.2.1, if_neg (Nat.not_lt.2 hs.2.2), hx]
      cases x with
      | link target => exact absurd rfl (hlink target)
      | _ => exact h

/-- Walks the steps from `cur` through at most `budget` links. -/
def walk (t : FileTree) (follow : Bool) : (budget : Nat) → Loc → List String → Except SystemError Spot
  | 0 => walkWith t follow fun _ _ => .error .tooManyLinks
  | budget + 1 => walkWith t follow (walk t follow budget)

/-- What the end of a lookup promises. -/
def Reached (t : FileTree) : Spot → Prop
  | .node l => ∃ x, t.get? l = some x
  | .vacant d n => t.CanAdd d n
  | .removed => True

theorem walkWith_reached {t : FileTree} {follow : Bool}
    {jump : Loc → List String → Except SystemError Spot}
    (hj : ∀ cur steps spot, (steps = [] → ∃ x, t.get? cur = some x) → (∀ s ∈ steps, IsStep s) →
      jump cur steps = .ok spot → t.Reached spot)
    {cur : Loc} {steps : List String} {spot : Spot} (hc : steps = [] → ∃ x, t.get? cur = some x)
    (hs : ∀ s ∈ steps, IsStep s) (h : walkWith t follow jump cur steps = .ok spot) :
    t.Reached spot := by
  induction steps generalizing cur with
  | nil =>
    rw [walkWith_nil] at h
    cases h
    exact hc rfl
  | cons s rest ih =>
    have hrest : ∀ s ∈ rest, IsStep s := fun x hx => hs x (List.mem_cons_of_mem _ hx)
    have hs0 := hs s List.mem_cons_self
    obtain ⟨hdir, hstride⟩ := walkWith_cons_ok.1 h
    cases hstride with
    | dot _ h => exact ih (fun _ => ⟨_, hdir⟩) hrest h
    | up _ h =>
      refine ih (fun _ => ?_) hrest h
      cases cur with
      | nil => exact ⟨_, get?_root t⟩
      | cons n d => exact ⟨_, get?_parent hdir⟩
    | miss hs hx =>
      obtain ⟨hdot, hup, hlen⟩ := hs
      exact ⟨hdir, ⟨⟨hs0.1, hdot, hup, hs0.2⟩, hlen⟩, hx⟩
    | jump _ _ _ h =>
      refine hj _ _ _ (fun _ => ?_) ?_ h
      · unfold linkStart
        split
        · exact ⟨_, get?_root t⟩
        · exact ⟨_, hdir⟩
      · intro x hx
        rcases List.mem_append.1 hx with hx | hx
        · exact Path.isStep_of_mem_steps hx
        · exact hrest x hx
    | stop _ hx => exact ⟨_, hx⟩
    | down _ hx _ h => exact ih (fun _ => ⟨_, hx⟩) hrest h

theorem walk_reached {t : FileTree} {follow : Bool} {budget : Nat} {cur : Loc} {steps : List String}
    {spot : Spot} (hc : steps = [] → ∃ x, t.get? cur = some x) (hs : ∀ s ∈ steps, IsStep s)
    (h : t.walk follow budget cur steps = .ok spot) : t.Reached spot := by
  induction budget generalizing cur steps spot with
  | zero => exact walkWith_reached (by simp) hc hs h
  | succ k ih => exact walkWith_reached (fun _ _ _ hc hs h => ih hc hs h) hc hs h

/-- Walks the steps from a directory that has been removed with others above it, `lost` in all, from the
directory at `place`. It holds nothing, but it still leads up. -/
def walkOut (t : FileTree) (follow : Bool) (place : Loc) :
    (lost : Nat) → List String → Except SystemError Spot
  | 0, steps => t.walk follow linkMax place steps
  | _ + 1, [] => .ok .removed
  | lost + 1, s :: rest =>
    if s = "." then walkOut t follow place (lost + 1) rest
    else if s = ".." then walkOut t follow place lost rest
    else .error .missing

/-- In a removed directory one can but stay or go up. -/
theorem walkOut_cons_ok {t : FileTree} {follow : Bool} {place : Loc} {lost : Nat} {s : String}
    {rest : List String} {spot : Spot} : t.walkOut follow place (lost + 1) (s :: rest) = .ok spot ↔
      s = "." ∧ t.walkOut follow place (lost + 1) rest = .ok spot ∨
        s = ".." ∧ t.walkOut follow place lost rest = .ok spot := by
  rw [walkOut]
  split
  · rename_i hs
    simp [hs]
  · rename_i hs
    split
    · rename_i hs'
      simp [hs']
    · rename_i hs'
      simp [hs, hs']

theorem walkOut_reached {t : FileTree} {follow : Bool} {place : Loc} {lost : Nat} {steps : List String}
    {spot : Spot} (hp : t.get? place = some .directory) (hs : ∀ s ∈ steps, IsStep s)
    (h : t.walkOut follow place lost steps = .ok spot) : t.Reached spot := by
  fun_induction walkOut t follow place lost steps with
  | case1 steps => exact walk_reached (fun _ => ⟨_, hp⟩) hs h
  | case2 =>
    cases h
    trivial
  | case3 lost rest ih => exact ih (fun s hm => hs s (List.mem_cons_of_mem _ hm)) h
  | case4 lost rest _ ih => exact ih (fun s hm => hs s (List.mem_cons_of_mem _ hm)) h
  | case5 => cases h

/-- One more step, not up, from where a lookup has come to, a link there standing for itself. -/
def enter (t : FileTree) (s : String) : Spot → Except SystemError Spot
  | .vacant _ _ => .error .missing
  | .removed => if s = "." then .ok .removed else .error .missing
  | .node l => t.walkWith false (fun _ _ => .error .tooManyLinks) l [s]

theorem walkWith_single (t : FileTree) (n : String)
    (jump jump' : Loc → List String → Except SystemError Spot) (cur : Loc) :
    t.walkWith false jump cur [n] = t.walkWith false jump' cur [n] := by
  simp only [walkWith_cons, walkWith_nil]
  simp

theorem walkWith_snoc {t : FileTree} {follow : Bool}
    {jump jump' : Loc → List String → Except SystemError Spot} {n : String}
    (hn : n = "." ∨ n ≠ ".." ∧ follow = false)
    (hj : ∀ cur steps, jump cur (steps ++ [n]) = jump' cur steps >>= t.enter n) (cur : Loc)
    (steps : List String) :
    t.walkWith follow jump cur (steps ++ [n]) = t.walkWith true jump' cur steps >>= t.enter n := by
  induction steps generalizing cur with
  | nil =>
    rcases hn with rfl | ⟨-, rfl⟩
    · simp only [List.nil_append, walkWith_cons, walkWith_nil, if_true, bind, Except.bind, enter]
    · exact walkWith_single t n jump _ cur
  | cons s rest ih =>
    rw [List.cons_append, walkWith_cons, walkWith_cons]
    split
    · rfl
    · rfl
    · rfl
    · split
      · exact ih cur
      · split
        · exact ih cur.tail
        · split
          · rfl
          · split
            · rw [if_neg (by simp)]
              split <;> rfl
            · rw [if_pos (by simp), if_pos (by simp), ← List.append_assoc]
              exact hj _ _
            · exact ih _

theorem walk_snoc {t : FileTree} {follow : Bool} {n : String} (hn : n = "." ∨ n ≠ ".." ∧ follow = false)
    (budget : Nat) (cur : Loc) (steps : List String) :
    t.walk follow budget cur (steps ++ [n]) = t.walk true budget cur steps >>= t.enter n := by
  induction budget generalizing cur steps with
  | zero => exact walkWith_snoc hn (fun _ _ => rfl) cur steps
  | succ k ih => exact walkWith_snoc hn ih cur steps

theorem walkOut_snoc {t : FileTree} {follow : Bool} {n : String}
    (hn : n = "." ∨ n ≠ ".." ∧ follow = false) (place : Loc) (lost : Nat) (steps : List String) :
    t.walkOut follow place lost (steps ++ [n]) = t.walkOut true place lost steps >>= t.enter n := by
  induction steps generalizing lost with
  | nil =>
    cases lost with
    | zero => exact walk_snoc hn linkMax place []
    | succ lost =>
      rcases hn with rfl | ⟨hn, -⟩
      · rfl
      · simp [walkOut, hn, bind, Except.bind, enter]
  | cons s rest ih =>
    cases lost with
    | zero => exact walk_snoc hn linkMax place (s :: rest)
    | succ lost =>
      rw [List.cons_append, walkOut, walkOut]
      split
      · exact ih (lost + 1)
      · split
        · exact ih lost
        · rfl

theorem enter_node {t : FileTree} {n : String} {spot : Spot} {l : Loc} (h1 : n ≠ ".") (h2 : n ≠ "..")
    (h : t.enter n spot = .ok (.node l)) :
    ∃ d, spot = .node d ∧ l = n :: d ∧ ∃ x, t.get? l = some x := by
  cases spot with
  | vacant d m => cases h
  | removed =>
    rw [enter, if_neg h1] at h
    cases h
  | node d =>
    obtain ⟨-, hstride⟩ := walkWith_cons_ok.1 h
    cases hstride with
    | dot hs => exact absurd hs h1
    | up hs => exact absurd hs h2
    | jump _ _ hfollow => simp at hfollow
    | stop _ hx => exact ⟨d, rfl, rfl, _, hx⟩
    | down _ hx _ h =>
      rw [walkWith_nil] at h
      cases h
      exact ⟨d, rfl, rfl, _, hx⟩

end FileTree
end CrashVault
