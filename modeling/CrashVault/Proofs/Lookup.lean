import CrashVault.FileSystem.WorkingDir
import CrashVault.FileTree.Walk

/-! Lookups that end at a node, compared between two trees. A node found in a tree is found at the same
place in every larger tree, so removals can make a lookup fail and never lead it elsewhere
(`walkOut_settle`). A lookup that ends in a directory does not go through a dead end, and survives its
removal (`walkOut_prune_deadEnd`). -/

namespace CrashVault
namespace FileTree

/-- Every node of the first tree is in the second, at the same place. -/
def Within (t' t : FileTree) : Prop := ∀ l x, t'.get? l = some x → t.get? l = some x

theorem Within.refl (t : FileTree) : t.Within t := fun _ _ h => h

theorem Within.trans {a b c : FileTree} (h1 : a.Within b) (h2 : b.Within c) : a.Within c :=
  fun l x h => h2 l x (h1 l x h)

theorem Within.get?_none {t' t : FileTree} (h : t'.Within t) {l : Loc} (hl : t.get? l = none) :
    t'.get? l = none := by
  cases hx : t'.get? l with
  | none => rfl
  | some x =>
    rw [h l x hx] at hl
    cases hl

theorem prune_within (t : FileTree) {l : Loc} (hl : l ≠ []) : (t.prune l).Within t := by
  intro m x h
  rw [get?_prune t hl] at h
  split at h
  · cases h
  · exact h

theorem within_add {t : FileTree} {d : Loc} {n : String} (h : t.CanAdd d n) (x : Node) :
    t.Within (t.add d n x) := by
  intro m y hm
  rw [get?_add h, if_neg]
  · exact hm
  · rintro rfl
    rw [h.2.2] at hm
    cases hm

theorem walkWith_within {t' t : FileTree} (hw : t'.Within t) {f' f : Bool} {l : Loc}
    (hf : f' = f ∨ f = true ∧ ∀ target, t'.get? l ≠ some (.link target))
    {jump' jump : Loc → List String → Except SystemError Spot}
    (hj : ∀ cur steps, jump' cur steps = .ok (.node l) → jump cur steps = .ok (.node l))
    {cur : Loc} {steps : List String} (h : t'.walkWith f' jump' cur steps = .ok (.node l)) :
    t.walkWith f jump cur steps = .ok (.node l) := by
  induction steps generalizing cur with
  | nil =>
    rw [walkWith_nil] at h ⊢
    exact h
  | cons s rest ih =>
    obtain ⟨hdir, hstride⟩ := walkWith_cons_ok.1 h
    refine walkWith_cons_ok.2 ⟨hw _ _ hdir, ?_⟩
    cases hstride with
    | dot hs h => exact .dot hs (ih h)
    | up hs h => exact .up hs (ih h)
    | jump hs hx hfollow h =>
      -- a link followed in the first tree is followed in the second
      refine .jump hs (hw _ _ hx) ?_ (hj _ _ h)
      rcases hf with rfl | ⟨rfl, -⟩
      · exact hfollow
      · exact .inl rfl
    | stop hs hx hfollow =>
      rcases hf with rfl | ⟨-, hnot⟩
      · exact .stop hs (hw _ _ hx) hfollow
      · exact absurd hx (hnot _)
    | down hs hx hlink h => exact .down hs (hw _ _ hx) hlink (ih h)

theorem walk_within {t' t : FileTree} (hw : t'.Within t) {f' f : Bool} {l : Loc}
    (hf : f' = f ∨ f = true ∧ ∀ target, t'.get? l ≠ some (.link target)) {b' b : Nat} (hb : b' ≤ b)
    {cur : Loc} {steps : List String} (h : t'.walk f' b' cur steps = .ok (.node l)) :
    t.walk f b cur steps = .ok (.node l) := by
  induction b' generalizing b cur steps with
  | zero =>
    cases b with
    | zero => exact walkWith_within hw hf (fun _ _ => by simp) h
    | succ b => exact walkWith_within hw hf (fun _ _ => by simp) h
  | succ k ih =>
    obtain ⟨b, rfl⟩ : ∃ c, b = c + 1 := ⟨b - 1, by omega⟩
    exact walkWith_within hw hf (fun _ _ => ih (by omega)) h

theorem walkWith_congr {t : FileTree} {f : Bool} {e : SystemError}
    {jump jump' : Loc → List String → Except SystemError Spot}
    (hj : ∀ cur steps, jump cur steps ≠ .error e → jump' cur steps = jump cur steps) {cur : Loc}
    {steps : List String} (h : t.walkWith f jump cur steps ≠ .error e) :
    t.walkWith f jump' cur steps = t.walkWith f jump cur steps := by
  induction steps generalizing cur with
  | nil => rw [walkWith_nil, walkWith_nil]
  | cons s rest ih =>
    rw [walkWith_cons] at h ⊢
    rw [walkWith_cons]
    cases hcur : t.get? cur with
    | none => rfl
    | some here =>
      cases here with
      | file text => rfl
      | link target => rfl
      | directory =>
        rw [hcur] at h
        dsimp only at h ⊢
        by_cases hdot : s = "."
        · rw [if_pos hdot] at h
          rw [if_pos hdot, if_pos hdot, ih h]
        · rw [if_neg hdot] at h
          rw [if_neg hdot, if_neg hdot]
          by_cases hup : s = ".."
          · rw [if_pos hup] at h
            rw [if_pos hup, if_pos hup, ih h]
          · rw [if_neg hup] at h
            rw [if_neg hup, if_neg hup]
            by_cases hlong : nameMax < s.utf8ByteSize
            · rw [if_pos hlong, if_pos hlong]
            · rw [if_neg hlong] at h
              rw [if_neg hlong, if_neg hlong]
              cases hx : t.get? (s :: cur) with
              | none => rfl
              | some x =>
                rw [hx] at h
                cases x with
                | directory => exact ih h
                | file text => exact ih h
                | link target =>
                  dsimp only at h ⊢
                  by_cases hfollow : f = true ∨ rest ≠ []
                  · rw [if_pos hfollow] at h
                    rw [if_pos hfollow, if_pos hfollow, hj _ _ h]
                  · rw [if_neg hfollow, if_neg hfollow]

theorem walk_of_le {t : FileTree} {f : Bool} {b b' : Nat} (hb : b ≤ b') {cur : Loc} {steps : List String}
    (h : t.walk f b cur steps ≠ .error .tooManyLinks) : t.walk f b' cur steps = t.walk f b cur steps := by
  induction b generalizing b' cur steps with
  | zero => cases b' <;> exact walkWith_congr (fun _ _ h => absurd rfl h) h
  | succ b ih =>
    obtain ⟨b', rfl⟩ : ∃ c, b' = c + 1 := ⟨b' - 1, by omega⟩
    exact walkWith_congr (fun _ _ => ih (by omega)) h

/-- What a lookup comes to does not depend on its budget, if that is enough. -/
theorem walk_congr_budget {t : FileTree} {f : Bool} {b b' : Nat} {cur : Loc} {steps : List String}
    (h : t.walk f b cur steps ≠ .error .tooManyLinks) (h' : t.walk f b' cur steps ≠ .error .tooManyLinks) :
    t.walk f b cur steps = t.walk f b' cur steps := by
  rcases Nat.le_total b b' with hb | hb
  · exact (walk_of_le hb h).symm
  · exact walk_of_le hb h'

theorem walk_budget {t : FileTree} {f : Bool} {b b' : Nat} {cur : Loc} {steps : List String}
    {spot spot' : Spot} (h : t.walk f b cur steps = .ok spot) (h' : t.walk f b' cur steps = .ok spot') :
    spot = spot' :=
  Except.ok.inj (h.symm.trans ((walk_congr_budget (by simp [h]) (by simp [h'])).trans h'))

theorem walkOut_of_walk {t' t : FileTree} {f' f : Bool} {r' r : Spot} (hr : r' ≠ .removed)
    (hw : ∀ cur steps, t'.walk f' linkMax cur steps = .ok r' → t.walk f linkMax cur steps = .ok r)
    {place : Loc} {lost : Nat} {steps : List String}
    (h : t'.walkOut f' place lost steps = .ok r') : t.walkOut f place lost steps = .ok r := by
  induction steps generalizing lost with
  | nil =>
    cases lost with
    | zero => exact hw _ _ h
    | succ lost => exact absurd (Except.ok.inj h).symm hr
  | cons s rest ih =>
    cases lost with
    | zero => exact hw _ _ h
    | succ lost =>
      rw [walkOut_cons_ok] at h ⊢
      exact h.imp (And.imp_right ih) (And.imp_right ih)

theorem walkOut_within {t' t : FileTree} (hw : t'.Within t) {f' f : Bool} {l : Loc}
    (hf : f' = f ∨ f = true ∧ ∀ target, t'.get? l ≠ some (.link target)) {place : Loc} {lost : Nat}
    {steps : List String} (h : t'.walkOut f' place lost steps = .ok (.node l)) :
    t.walkOut f place lost steps = .ok (.node l) :=
  walkOut_of_walk (by simp) (fun _ _ => walk_within hw hf (Nat.le_refl _)) h

theorem walk_nil (t : FileTree) (f : Bool) (b : Nat) (cur : Loc) : t.walk f b cur [] = .ok (.node cur) := by
  cases b <;> exact walkWith_nil t f _ cur

theorem walk_dot {t : FileTree} {cur : Loc} (h : t.get? cur = some .directory) (f : Bool) (b : Nat)
    (rest : List String) : t.walk f b cur ("." :: rest) = t.walk f b cur rest := by
  cases b <;> simp [walk, walkWith_cons, h]

theorem walk_up {t : FileTree} {cur : Loc} (h : t.get? cur = some .directory) (f : Bool) (b : Nat)
    (rest : List String) : t.walk f b cur (".." :: rest) = t.walk f b cur.tail rest := by
  cases b <;> simp [walk, walkWith_cons, h]

/-- One who stands in a removed directory sees no node that its place would not lead to. -/
theorem walkOut_lost {t : FileTree} {f : Bool} {n : String} {d l : Loc}
    (hd : t.get? (n :: d) = some .directory) {lost : Nat} {steps : List String}
    (h : t.walkOut f d (lost + 1) steps = .ok (.node l)) :
    t.walkOut f (n :: d) lost steps = .ok (.node l) := by
  induction steps generalizing lost with
  | nil => cases h
  | cons s rest ih =>
    rcases walkOut_cons_ok.1 h with ⟨hs, h⟩ | ⟨hs, h⟩
    · have hnext := ih h
      cases lost with
      | zero =>
        rw [walkOut] at hnext ⊢
        rwa [hs, walk_dot hd]
      | succ lost => exact walkOut_cons_ok.2 (.inl ⟨hs, hnext⟩)
    · cases lost with
      | zero =>
        rw [walkOut] at h ⊢
        rwa [hs, walk_up hd]
      | succ lost => exact walkOut_cons_ok.2 (.inr ⟨hs, ih h⟩)

theorem walkOut_settle {t' t : FileTree} (hw : t'.Within t) {f' f : Bool} {l : Loc}
    (hf : f' = f ∨ f = true ∧ ∀ target, t'.get? l ≠ some (.link target)) {place : Loc}
    (hp : t.get? place = some .directory) {lost : Nat} {steps : List String}
    (h : t'.walkOut f' (WorkingDir.settle t' place lost).place (WorkingDir.settle t' place lost).lost steps =
      .ok (.node l)) : t.walkOut f place lost steps = .ok (.node l) := by
  induction place generalizing lost with
  | nil => exact walkOut_within hw hf h
  | cons n d ih =>
    unfold WorkingDir.settle at h
    split at h
    · exact walkOut_within hw hf h
    · exact walkOut_lost hp (ih (get?_parent hp) h)

theorem settle_settle {t' t : FileTree} (hw : t'.Within t) (place : Loc) (lost : Nat) :
    WorkingDir.settle t' (WorkingDir.settle t place lost).place (WorkingDir.settle t place lost).lost =
      WorkingDir.settle t' place lost := by
  induction place generalizing lost with
  | nil => rfl
  | cons n d ih =>
    by_cases hn : t.get? (n :: d) = some .directory
    · rw [WorkingDir.settle_of_directory hn]
    · have hn' : t'.get? (n :: d) ≠ some .directory := fun h => hn (hw _ _ h)
      simp only [WorkingDir.settle, if_neg hn, if_neg hn']
      exact ih (lost + 1)

theorem walkWith_append {t : FileTree} {f : Bool} {spot : Spot} {rest : List String} (hr : rest ≠ [])
    {jump jump' : Loc → List String → Except SystemError Spot} {Q : Loc → Prop}
    (hq : ∀ c, t.get? c = some .directory → t.walkWith f jump c rest = .ok spot → Q c)
    (hj : ∀ cur steps, jump cur (steps ++ rest) = .ok spot → ∃ c, jump' cur steps = .ok (.node c) ∧ Q c)
    {cur : Loc} {steps : List String} (h : t.walkWith f jump cur (steps ++ rest) = .ok spot) :
    ∃ c, t.walkWith true jump' cur steps = .ok (.node c) ∧ Q c := by
  induction steps generalizing cur with
  | nil =>
    refine ⟨cur, walkWith_nil t true jump' cur, hq cur ?_ h⟩
    obtain ⟨s, rest, rfl⟩ := List.exists_cons_of_ne_nil hr
    exact (walkWith_cons_ok.1 h).1
  | cons s steps ih =>
    rw [List.cons_append] at h
    obtain ⟨hdir, hstride⟩ := walkWith_cons_ok.1 h
    have hnext : ∀ {c : Loc}, t.Stride true jump' cur s steps (.node c) →
        t.walkWith true jump' cur (s :: steps) = .ok (.node c) := fun hc => walkWith_cons_ok.2 ⟨hdir, hc⟩
    cases hstride with
    | dot hs h =>
      obtain ⟨c, hc, hQ⟩ := ih h
      exact ⟨c, hnext (.dot hs hc), hQ⟩
    | up hs h =>
      obtain ⟨c, hc, hQ⟩ := ih h
      exact ⟨c, hnext (.up hs hc), hQ⟩
    | miss _ _ hrest => exact absurd hrest (by simp [hr])
    | jump hs hx _ h =>
      rw [← List.append_assoc] at h
      obtain ⟨c, hc, hQ⟩ := hj _ _ h
      exact ⟨c, hnext (.jump hs hx (.inl rfl) hc), hQ⟩
    | stop _ _ hfollow => exact absurd (.inr (by simp [hr])) hfollow
    | down hs hx hlink h =>
      obtain ⟨c, hc, hQ⟩ := ih h
      exact ⟨c, hnext (.down hs hx hlink hc), hQ⟩

theorem walk_append {t : FileTree} {f : Bool} {b : Nat} {cur : Loc} {spot : Spot}
    {steps rest : List String} (hr : rest ≠ []) (h : t.walk f b cur (steps ++ rest) = .ok spot) :
    ∃ c, t.walk true b cur steps = .ok (.node c) ∧ t.get? c = some .directory ∧
      ∃ b', t.walk f b' c rest = .ok spot := by
  induction b generalizing cur steps with
  | zero => exact walkWith_append hr (fun c hc hl => ⟨hc, 0, hl⟩) (fun _ _ => by simp) h
  | succ b ih => exact walkWith_append hr (fun c hc hl => ⟨hc, b + 1, hl⟩) (fun _ _ => ih) h

theorem walkOut_append {t : FileTree} {f : Bool} {n : String} (h1 : n ≠ ".") (h2 : n ≠ "..") {place : Loc}
    {lost : Nat} {spot : Spot} {steps rest : List String}
    (h : t.walkOut f place lost (steps ++ n :: rest) = .ok spot) :
    ∃ d, t.walkOut true place lost steps = .ok (.node d) ∧ t.get? d = some .directory ∧
      ∃ b, t.walk f b d (n :: rest) = .ok spot := by
  induction steps generalizing lost with
  | nil =>
    cases lost with
    | zero => exact walk_append (by simp) h
    | succ lost =>
      rw [List.nil_append, walkOut, if_neg h1, if_neg h2] at h
      cases h
  | cons s steps ih =>
    cases lost with
    | zero => exact walk_append (by simp) h
    | succ lost =>
      rw [List.cons_append] at h
      rcases walkOut_cons_ok.1 h with ⟨hs, h⟩ | ⟨hs, h⟩
      · obtain ⟨d, hd, hrest⟩ := ih h
        exact ⟨d, walkOut_cons_ok.2 (.inl ⟨hs, hd⟩), hrest⟩
      · obtain ⟨d, hd, hrest⟩ := ih h
        exact ⟨d, walkOut_cons_ok.2 (.inr ⟨hs, hd⟩), hrest⟩

theorem walkWith_continue {t : FileTree} {f : Bool} {rest : List String} (hr : rest ≠ [])
    {jump jump' : Loc → List String → Except SystemError Spot} {Q : Loc → Except SystemError Spot → Prop}
    (hq : ∀ c, Q c (t.walkWith f jump c rest))
    (hj : ∀ cur steps c, jump' cur steps = .ok (.node c) → Q c (jump cur (steps ++ rest)))
    {cur c : Loc} {steps : List String} (h : t.walkWith true jump' cur steps = .ok (.node c)) :
    Q c (t.walkWith f jump cur (steps ++ rest)) := by
  induction steps generalizing cur with
  | nil =>
    rw [walkWith_nil] at h
    cases h
    exact hq c
  | cons s steps ih =>
    have hmore : steps ++ rest ≠ [] := by simp [hr]
    obtain ⟨hdir, hstride⟩ := walkWith_cons_ok.1 h
    rw [List.cons_append, walkWith_cons, hdir]
    dsimp only
    cases hstride with
    | dot hs h =>
      rw [if_pos hs]
      exact ih h
    | up hs h =>
      rw [if_neg (by simp [hs]), if_pos hs]
      exact ih h
    | jump hs hx _ h =>
      rw [if_neg hs.1, if_neg hs.2.1, if_neg (Nat.not_lt.2 hs.2.2), hx]
      dsimp only
      rw [if_pos (.inr hmore), ← List.append_assoc]
      exact hj _ _ _ h
    | stop _ _ hfollow => exact absurd (.inl rfl) hfollow
    | @down _ x hs hx hlink h =>
      rw [if_neg hs.1, if_neg hs.2.1, if_neg (Nat.not_lt.2 hs.2.2), hx]
      cases x with
      | link target => exact absurd rfl (hlink target)
      | directory => exact ih h
      | file text => exact ih h

/-- A lookup with more steps goes on from where the first ones have led, with what is left of the budget. -/
theorem walk_continue {t : FileTree} {f : Bool} {b : Nat} {cur c : Loc} {steps rest : List String}
    (hr : rest ≠ []) (h : t.walk true b cur steps = .ok (.node c)) :
    ∃ b', t.walk f b cur (steps ++ rest) = t.walk f b' c rest := by
  induction b generalizing cur c steps with
  | zero =>
    exact walkWith_continue (Q := fun c r => ∃ b', r = t.walk f b' c rest) hr (fun _ => ⟨0, rfl⟩)
      (fun _ _ _ => by simp) h
  | succ b ih =>
    exact walkWith_continue (Q := fun c r => ∃ b', r = t.walk f b' c rest) hr (fun _ => ⟨b + 1, rfl⟩)
      (fun _ _ _ => ih) h

theorem walkOut_continue {t : FileTree} {f : Bool} {place c : Loc} {lost : Nat} {steps rest : List String}
    (hr : rest ≠ []) (h : t.walkOut true place lost steps = .ok (.node c)) :
    ∃ b, t.walkOut f place lost (steps ++ rest) = t.walk f b c rest := by
  induction steps generalizing lost with
  | nil =>
    cases lost with
    | zero =>
      rw [walkOut] at h ⊢
      exact walk_continue hr h
    | succ lost => cases h
  | cons s steps ih =>
    cases lost with
    | zero =>
      rw [walkOut] at h ⊢
      exact walk_continue hr h
    | succ lost =>
      rw [List.cons_append, walkOut]
      rcases walkOut_cons_ok.1 h with ⟨hs, h⟩ | ⟨hs, h⟩
      · rw [if_pos hs]
        exact ih h
      · rw [if_neg (by simp [hs]), if_pos hs]
        exact ih h

theorem walk_last {t : FileTree} {b : Nat} {d m : Loc} {n : String} (h1 : n ≠ ".") (h2 : n ≠ "..")
    (h : t.walk true b d [n] = .ok (.node m)) :
    m = n :: d ∧ (∃ x, t.get? m = some x ∧ ∀ target, x ≠ .link target) ∨
      ∃ target b', t.get? (n :: d) = some (.link target) ∧
        t.walk true b' (linkStart target d) target.steps = .ok (.node m) := by
  have key : ∀ jump, t.walkWith true jump d [n] = .ok (.node m) →
      m = n :: d ∧ (∃ x, t.get? m = some x ∧ ∀ target, x ≠ .link target) ∨
        ∃ target, t.get? (n :: d) = some (.link target) ∧
          jump (linkStart target d) target.steps = .ok (.node m) := by
    intro jump h
    obtain ⟨-, hstride⟩ := walkWith_cons_ok.1 h
    cases hstride with
    | dot hs => exact absurd hs h1
    | up hs => exact absurd hs h2
    | jump _ hx _ h => exact .inr ⟨_, hx, by simpa using h⟩
    | stop _ _ hfollow => exact absurd (.inl rfl) hfollow
    | down _ hx hlink h =>
      rw [walkWith_nil] at h
      cases h
      exact .inl ⟨rfl, _, hx, hlink⟩
  cases b with
  | zero =>
    rcases key _ h with h | ⟨target, -, h⟩
    · exact .inl h
    · cases h
  | succ b =>
    rcases key _ h with h | ⟨target, hlink, h⟩
    · exact .inl h
    · exact .inr ⟨target, b, hlink, h⟩

/-- What is called `n` in the directory at `d` is a file, or a link that leads to no directory. -/
def DeadEnd (t : FileTree) (n : String) (d : Loc) : Prop :=
  (∃ text, t.get? (n :: d) = some (.file text)) ∨
    ∃ target, t.get? (n :: d) = some (.link target) ∧
      ∀ b m, t.walk true b (linkStart target d) target.steps = .ok (.node m) →
        t.get? m ≠ some .directory

theorem deadEnd_of_walk {t : FileTree} {b : Nat} {d m : Loc} {n : String} (h1 : n ≠ ".") (h2 : n ≠ "..")
    (h : t.walk true b d [n] = .ok (.node m)) (hm : t.get? m ≠ some .directory) : t.DeadEnd n d := by
  rcases walk_last h1 h2 h with ⟨rfl, x, hx, hnot⟩ | ⟨target, b', hlink, hw⟩
  · cases x with
    | directory => exact absurd hx hm
    | file text => exact .inl ⟨text, hx⟩
    | link target => exact absurd rfl (hnot target)
  · refine .inr ⟨target, hlink, fun b'' m' hw' => ?_⟩
    rw [← Spot.node.inj (walk_budget hw hw')]
    exact hm

theorem DeadEnd.get?_prune_of_ne {t : FileTree} {n : String} {d : Loc} (h : t.DeadEnd n d) {m : Loc}
    (hm : m ≠ n :: d) : (t.prune (n :: d)).get? m = t.get? m := by
  rw [get?_prune t (by simp)]
  split
  · rename_i hs
    cases hx : t.get? m with
    | none => rfl
    | some x =>
      have hdir := get?_of_isSuffix hx hs (Ne.symm hm)
      rcases h with ⟨text, h⟩ | ⟨target, h, -⟩
      · rw [hdir] at h
        cases h
      · rw [hdir] at h
        cases h
  · rfl

theorem DeadEnd.ne_of_directory {t : FileTree} {n : String} {d : Loc} (h : t.DeadEnd n d) {m : Loc}
    (hm : t.get? m = some .directory) : m ≠ n :: d := by
  rintro rfl
  rcases h with ⟨text, h⟩ | ⟨target, h, -⟩
  · rw [hm] at h
    cases h
  · rw [hm] at h
    cases h

theorem DeadEnd.eq_of_walkWith {t : FileTree} {n : String} {d : Loc} (h : t.DeadEnd n d) {f : Bool}
    {jump : Loc → List String → Except SystemError Spot} {rest : List String} {m : Loc}
    (hw : t.walkWith f jump (n :: d) rest = .ok (.node m)) : m = n :: d := by
  cases rest with
  | nil =>
    rw [walkWith_nil] at hw
    cases hw
    rfl
  | cons s rest => exact absurd rfl (h.ne_of_directory (walkWith_cons_ok.1 hw).1)

theorem walkWith_prune_deadEnd {t : FileTree} {n : String} {d : Loc} (hd : t.DeadEnd n d) {m : Loc}
    (hm : t.get? m = some .directory) {jump jump' : Loc → List String → Except SystemError Spot}
    (hj : ∀ cur steps, jump cur steps = .ok (.node m) → jump' cur steps = .ok (.node m))
    (hdead : ∀ target rest, t.get? (n :: d) = some (.link target) →
      jump (linkStart target d) (target.steps ++ rest) ≠ .ok (.node m))
    {cur : Loc} {steps : List String} (h : t.walkWith true jump cur steps = .ok (.node m)) :
    (t.prune (n :: d)).walkWith true jump' cur steps = .ok (.node m) := by
  induction steps generalizing cur with
  | nil =>
    rw [walkWith_nil] at h ⊢
    exact h
  | cons s rest ih =>
    obtain ⟨hdir, hstride⟩ := walkWith_cons_ok.1 h
    have hdir' := (hd.get?_prune_of_ne (hd.ne_of_directory hdir)).trans hdir
    refine walkWith_cons_ok.2 ⟨hdir', ?_⟩
    cases hstride with
    | dot hs h => exact .dot hs (ih h)
    | up hs h => exact .up hs (ih h)
    | jump hs hx _ h =>
      by_cases he : s :: cur = n :: d
      · obtain ⟨rfl, rfl⟩ := List.cons.inj he
        exact absurd h (hdead _ _ hx)
      · exact .jump hs ((hd.get?_prune_of_ne he).trans hx) (.inl rfl) (hj _ _ h)
    | stop _ _ hfollow => exact absurd (.inl rfl) hfollow
    | down hs hx hlink h =>
      by_cases he : s :: cur = n :: d
      · -- the walk is at the dead end, so it cannot have come to the directory
        rw [he] at h
        exact absurd (hd.eq_of_walkWith h) (hd.ne_of_directory hm)
      · exact .down hs ((hd.get?_prune_of_ne he).trans hx) hlink (ih h)

/-- Taking a dead end away spoils no lookup that ends in a directory. -/
theorem walk_prune_deadEnd {t : FileTree} {n : String} {d : Loc} (hd : t.DeadEnd n d) {m : Loc}
    (hm : t.get? m = some .directory) {b : Nat} {cur : Loc} {steps : List String}
    (h : t.walk true b cur steps = .ok (.node m)) :
    (t.prune (n :: d)).walk true b cur steps = .ok (.node m) := by
  induction b generalizing cur steps with
  | zero => exact walkWith_prune_deadEnd hd hm (fun _ _ => by simp) (fun _ _ _ => by simp) h
  | succ b ih =>
    refine walkWith_prune_deadEnd hd hm (fun _ _ => ih) (fun target rest hl hw => ?_) h
    rcases hd with ⟨text, hf⟩ | ⟨target', hl', hno⟩
    · rw [hl] at hf
      cases hf
    · rw [hl] at hl'
      cases hl'
      cases rest with
      | nil => exact hno b m (by simpa using hw) hm
      | cons r rest =>
        obtain ⟨c, hc, hcdir, -⟩ := walk_append (by simp) hw
        exact hno b c hc hcdir

theorem walkOut_prune_deadEnd {t : FileTree} {n : String} {d : Loc} (hd : t.DeadEnd n d) {m : Loc}
    (hm : t.get? m = some .directory) {place : Loc} {lost : Nat} {steps : List String}
    (h : t.walkOut true place lost steps = .ok (.node m)) :
    (t.prune (n :: d)).walkOut true place lost steps = .ok (.node m) :=
  walkOut_of_walk (by simp) (fun _ _ => walk_prune_deadEnd hd hm) h

/-- A lookup that ends at a vacant name goes the same way in a larger tree, up to that name. -/
theorem walkWith_vacant {t t' : FileTree} (hw : t.Within t') {f f' : Bool} (hf : f = f' ∨ f' = true)
    {n : String} {d : Loc} {r : Spot} {jump jump' : Loc → List String → Except SystemError Spot}
    (hj : ∀ cur steps, jump cur steps = .ok (.vacant d n) → jump' cur steps = .ok r)
    (hend : GoesDown n → t.get? d = some .directory → t.get? (n :: d) = none →
      t'.walkWith f' jump' d [n] = .ok r)
    {cur : Loc} {steps : List String} (h : t.walkWith f jump cur steps = .ok (.vacant d n)) :
    t'.walkWith f' jump' cur steps = .ok r := by
  induction steps generalizing cur with
  | nil =>
    rw [walkWith_nil] at h
    cases h
  | cons s rest ih =>
    obtain ⟨hdir, hstride⟩ := walkWith_cons_ok.1 h
    have hdir' := hw _ _ hdir
    cases hstride with
    | dot hs h => exact walkWith_cons_ok.2 ⟨hdir', .dot hs (ih h)⟩
    | up hs h => exact walkWith_cons_ok.2 ⟨hdir', .up hs (ih h)⟩
    | miss hs hx hrest =>
      rw [hrest]
      exact hend hs hdir hx
    | jump hs hx hfollow h =>
      refine walkWith_cons_ok.2 ⟨hdir', .jump hs (hw _ _ hx) ?_ (hj _ _ h)⟩
      rcases hf with rfl | rfl
      · exact hfollow
      · exact .inl rfl
    | down hs hx hlink h => exact walkWith_cons_ok.2 ⟨hdir', .down hs (hw _ _ hx) hlink (ih h)⟩

theorem walk_vacant {t : FileTree} {f f' : Bool} (hf : f = f' ∨ f' = true) {n : String} {d : Loc}
    {b : Nat} {cur : Loc} {steps : List String} (h : t.walk f b cur steps = .ok (.vacant d n)) :
    t.walk f' b cur steps = .ok (.vacant d n) := by
  have hend : ∀ jump, GoesDown n → t.get? d = some .directory → t.get? (n :: d) = none →
      t.walkWith f' jump d [n] = .ok (.vacant d n) := by
    intro jump hn hd hx
    exact walkWith_cons_ok.2 ⟨hd, .miss hn hx rfl⟩
  induction b generalizing cur steps with
  | zero => exact walkWith_vacant (.refl t) hf (fun _ _ => by simp) (hend _) h
  | succ b ih => exact walkWith_vacant (.refl t) hf (fun _ _ => ih) (hend _) h

theorem walk_add {t : FileTree} {n : String} {d : Loc} (hc : t.CanAdd d n) {x : Node}
    (hx : ∀ target, x ≠ .link target) {f : Bool} {b : Nat} {cur : Loc} {steps : List String}
    (h : t.walk f b cur steps = .ok (.vacant d n)) :
    (t.add d n x).walk f b cur steps = .ok (.node (n :: d)) := by
  have hnew : (t.add d n x).get? (n :: d) = some x := by rw [get?_add hc, if_pos rfl]
  have hend : ∀ jump, GoesDown n → t.get? d = some .directory → t.get? (n :: d) = none →
      (t.add d n x).walkWith f jump d [n] = .ok (.node (n :: d)) := by
    intro jump hn hd _
    exact walkWith_cons_ok.2 ⟨within_add hc x _ _ hd, .down hn hnew hx (walkWith_nil ..)⟩
  induction b generalizing cur steps with
  | zero => exact walkWith_vacant (within_add hc x) (.inl rfl) (fun _ _ => by simp) (hend _) h
  | succ b ih => exact walkWith_vacant (within_add hc x) (.inl rfl) (fun _ _ => ih) (hend _) h

end FileTree
end CrashVault
