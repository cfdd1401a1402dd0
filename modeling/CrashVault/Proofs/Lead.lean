import CrashVault.FileSystem
import CrashVault.Path.Parent
import CrashVault.Proofs.Lookup

/-! Where the names of a path lead. A lookup of a joined path goes on from there by one name, whether it
asks for the entry (`entry_join_eq`), for a directory (`lead_join`) or for what a link leads to
(`find_join`). -/

namespace CrashVault
namespace FileTree

theorem enter_of_get? {t : FileTree} {n : String} {d : Loc} {x : Node} (h : t.get? (n :: d) = some x) :
    t.enter n (.node d) = .ok (.node (n :: d)) := by
  have hn := goesDown_of_isEntryName (isEntryName_of_get? h)
  refine walkWith_cons_ok.2 ⟨get?_parent h, ?_⟩
  cases x with
  | link target => exact .stop hn h (by simp)
  | directory => exact .down hn h (by simp) (walkWith_nil ..)
  | file text => exact .down hn h (by simp) (walkWith_nil ..)

theorem enter_of_none {t : FileTree} {n : String} {d : Loc} (hn : IsEntryName n)
    (hd : t.get? d = some .directory) (h : t.get? (n :: d) = none) :
    t.enter n (.node d) = .ok (.vacant d n) :=
  walkWith_cons_ok.2 ⟨hd, .miss (goesDown_of_isEntryName hn) h rfl⟩

theorem enter_dot_of_directory {t : FileTree} {d : Loc} (hd : t.get? d = some .directory) :
    t.enter "." (.node d) = .ok (.node d) :=
  walkWith_cons_ok.2 ⟨hd, .dot rfl (walkWith_nil ..)⟩

theorem walkWith_ne_removed {t : FileTree} {f : Bool}
    {jump : Loc → List String → Except SystemError Spot} (hj : ∀ cur steps, jump cur steps ≠ .ok .removed)
    {cur : Loc} {steps : List String} : t.walkWith f jump cur steps ≠ .ok .removed := by
  induction steps generalizing cur with
  | nil => simp [walkWith_nil]
  | cons s rest ih =>
    intro h
    obtain ⟨-, hstride⟩ := walkWith_cons_ok.1 h
    cases hstride with
    | dot _ h => exact ih h
    | up _ h => exact ih h
    | jump _ _ _ h => exact hj _ _ h
    | down _ _ _ h => exact ih h

theorem walk_ne_removed {t : FileTree} {f : Bool} {b : Nat} {cur : Loc} {steps : List String} :
    t.walk f b cur steps ≠ .ok .removed := by
  induction b generalizing cur steps with
  | zero => exact walkWith_ne_removed (by simp)
  | succ b ih => exact walkWith_ne_removed fun _ _ => ih

theorem walkOut_ne_removed {t : FileTree} {f : Bool} {n : String} (h1 : n ≠ ".") (h2 : n ≠ "..")
    {place : Loc} {lost : Nat} {steps : List String} :
    t.walkOut f place lost (steps ++ [n]) ≠ .ok .removed := by
  induction steps generalizing lost with
  | nil =>
    cases lost with
    | zero => exact walk_ne_removed
    | succ lost => simp [walkOut, h1, h2]
  | cons s rest ih =>
    cases lost with
    | zero => exact walk_ne_removed
    | succ lost =>
      rw [List.cons_append, ne_eq, walkOut_cons_ok]
      rintro (⟨-, h⟩ | ⟨-, h⟩)
      · exact ih h
      · exact ih h

theorem walkOut_removed {t : FileTree} {f : Bool} {place : Loc} {lost : Nat} {steps : List String}
    (h : t.walkOut f place lost steps = .ok .removed) (f' : Bool) :
    t.walkOut f' place lost steps = .ok .removed := by
  induction steps generalizing lost with
  | nil =>
    cases lost with
    | zero => exact absurd h walk_ne_removed
    | succ lost => rfl
  | cons s rest ih =>
    cases lost with
    | zero => exact absurd h walk_ne_removed
    | succ lost =>
      rw [walkOut_cons_ok] at h ⊢
      exact h.imp (And.imp_right ih) (And.imp_right ih)

theorem walkWith_error {t : FileTree} {e : SystemError}
    {jump jump' : Loc → List String → Except SystemError Spot}
    (hj : ∀ cur steps, jump cur steps = .error e → jump' cur steps = .error e) {cur : Loc}
    {steps : List String} (h : t.walkWith false jump cur steps = .error e) :
    t.walkWith true jump' cur steps = .error e := by
  induction steps generalizing cur with
  | nil =>
    rw [walkWith_nil] at h
    cases h
  | cons s rest ih =>
    rw [walkWith_cons] at h ⊢
    split at h
    · exact h
    · exact h
    · exact h
    · split at h
      · rw [if_pos ‹_›]
        exact ih h
      · rw [if_neg ‹_›]
        split at h
        · rw [if_pos ‹_›]
          exact ih h
        · rw [if_neg ‹_›]
          split at h
          · rw [if_pos ‹_›]
            exact h
          · rw [if_neg ‹_›]
            split at h
            · exact h
            · split at h
              · rw [if_pos (.inl rfl)]
                exact hj _ _ h
              · cases h
            · exact ih h

theorem walk_error {t : FileTree} {e : SystemError} {b : Nat} {cur : Loc} {steps : List String}
    (h : t.walk false b cur steps = .error e) : t.walk true b cur steps = .error e := by
  induction b generalizing cur steps with
  | zero => exact walkWith_error (fun _ _ h => h) h
  | succ b ih => exact walkWith_error (fun _ _ => ih) h

theorem walkOut_error {t : FileTree} {e : SystemError} {place : Loc} {lost : Nat} {steps : List String}
    (h : t.walkOut false place lost steps = .error e) : t.walkOut true place lost steps = .error e := by
  induction steps generalizing lost with
  | nil =>
    cases lost with
    | zero => exact walk_error h
    | succ lost => cases h
  | cons s rest ih =>
    cases lost with
    | zero => exact walk_error h
    | succ lost =>
      rw [walkOut] at h ⊢
      split at h
      · rw [if_pos ‹_›]
        exact ih h
      · rw [if_neg ‹_›]
        split at h
        · rw [if_pos ‹_›]
          exact ih h
        · rw [if_neg ‹_›]
          exact h

end FileTree

namespace FileSystem

/-- Where the names of a path lead, its length and a slash at its end aside. -/
def lead (fs : FileSystem) (p : Path) : Except SystemError Spot :=
  fs.tree.walkOut true (fs.startOf p).place (fs.startOf p).lost p.names

theorem lead_of_toOption {fs : FileSystem} {p : Path} {spot : Spot} (h : (fs.lead p).toOption = some spot) :
    fs.lead p = .ok spot := by
  cases hlead : fs.lead p with
  | error e =>
    rw [hlead] at h
    cases h
  | ok spot' =>
    rw [hlead] at h
    cases h
    rfl

theorem startOf_join {p : Path} {n : String} (hn : IsName n) (fs : FileSystem) :
    fs.startOf (p / n) = fs.startOf p := by
  rw [startOf, startOf, Path.isAbsolute_join' hn]

theorem locate_of_fits {fs : FileSystem} {p : Path} (hp : p.text ≠ "") (hlen : p.byteSize ≤ pathMax)
    (follow : Bool) (steps : List String) : fs.locate follow p steps =
      fs.tree.walkOut follow (fs.startOf p).place (fs.startOf p).lost steps := by
  rw [locate, if_neg hp, if_neg (by omega)]

theorem steps_join {p : Path} {n : String} (hn : IsName n) : (p / n).steps = p.names ++ [n] := by
  rw [Path.steps, Path.endsInSlash_join hn, Path.names_join hn]
  rfl

/-- The last name of a joined path is looked up from where the path leads. -/
theorem entry_join_eq {fs : FileSystem} {p : Path} {n : String} (hn : IsName n)
    (hlen : (p / n).byteSize ≤ pathMax) : fs.entry (p / n) = fs.lead p >>= fs.tree.enter n := by
  rw [entry, locate_of_fits (Path.text_join_ne hn) hlen, startOf_join hn, Path.names_join hn,
    FileTree.walkOut_snoc (.inr ⟨hn.2.2.1, rfl⟩)]
  rfl

theorem lead_of_entry {fs : FileSystem} {p : Path} {n : String} {m : Loc} (hn : IsName n)
    (h : fs.entry (p / n) = .ok (.node m)) : ∃ d, fs.lead p = .ok (.node d) ∧ m = n :: d := by
  rw [entry_join_eq hn (locate_ok h).2] at h
  cases hl : fs.lead p with
  | error e => simp [hl, bind, Except.bind] at h
  | ok spot =>
    simp only [hl, bind, Except.bind] at h
    obtain ⟨d, rfl, hm, -⟩ := FileTree.enter_node hn.2.1 hn.2.2.1 h
    exact ⟨d, rfl, hm⟩

theorem entry_of_get? {fs : FileSystem} {p : Path} {n : String} {d : Loc} {x : Node}
    (hfits : (p / n).byteSize ≤ pathMax) (hlead : fs.lead p = .ok (.node d))
    (hx : fs.tree.get? (n :: d) = some x) : fs.entry (p / n) = .ok (.node (n :: d)) := by
  rw [entry_join_eq (FileTree.isEntryName_of_get? hx).1 hfits, hlead]
  exact FileTree.enter_of_get? hx

theorem find_false_join {fs : FileSystem} {p : Path} {n : String} (hn : IsName n) :
    fs.find false (p / n) = fs.entry (p / n) := by
  rw [find, entry, steps_join hn, Path.names_join hn]

theorem lead_of_join {fs : FileSystem} {p : Path} {n : String} {spot : Spot} (hn : IsName n)
    (h : fs.lead (p / n) = .ok spot) : ∃ d, fs.lead p = .ok (.node d) ∧ fs.tree.get? d = some .directory ∧
      ∃ b, fs.tree.walk true b d [n] = .ok spot := by
  rw [lead, startOf_join hn, Path.names_join hn] at h
  exact FileTree.walkOut_append hn.2.1 hn.2.2.1 h

/-- A joined path leads on from where the path leads, with what is left of the budget. -/
theorem lead_join_walk {fs : FileSystem} {p : Path} {n : String} {d : Loc} (hn : IsName n)
    (hp : fs.lead p = .ok (.node d)) : ∃ b, fs.lead (p / n) = fs.tree.walk true b d [n] := by
  rw [lead] at hp
  rw [lead, startOf_join hn, Path.names_join hn]
  exact FileTree.walkOut_continue (by simp) hp

theorem lead_join_congr {fs : FileSystem} {p p' : Path} {n : String} {d : Loc} (hn : IsName n)
    (hp : fs.lead p = .ok (.node d)) (hp' : fs.lead p' = .ok (.node d))
    (hlinks : fs.lead (p / n) ≠ .error .tooManyLinks) (hlinks' : fs.lead (p' / n) ≠ .error .tooManyLinks) :
    fs.lead (p' / n) = fs.lead (p / n) := by
  obtain ⟨b, hb⟩ := lead_join_walk hn hp
  obtain ⟨b', hb'⟩ := lead_join_walk hn hp'
  rw [hb] at hlinks ⊢
  rw [hb'] at hlinks' ⊢
  exact FileTree.walk_congr_budget hlinks' hlinks

theorem find_true_join {fs : FileSystem} {p : Path} {n : String} (hn : IsName n)
    (hlen : (p / n).byteSize ≤ pathMax) : fs.find true (p / n) = fs.lead (p / n) := by
  rw [find, locate_of_fits (Path.text_join_ne hn) hlen, steps_join hn, lead, Path.names_join hn]

theorem find_join {fs : FileSystem} {p : Path} {n : String} {m : Loc} (hn : IsName n)
    (h : fs.find true (p / n) = .ok (.node m)) :
    ∃ d, fs.lead p = .ok (.node d) ∧ fs.tree.get? d = some .directory ∧
      ∃ b, fs.tree.walk true b d [n] = .ok (.node m) := by
  rw [find_true_join hn (locate_ok h).2] at h
  exact lead_of_join hn h

theorem find_join_ne_removed {fs : FileSystem} {p : Path} {n : String} (hn : IsName n) (follow : Bool) :
    fs.find follow (p / n) ≠ .ok .removed := by
  intro h
  obtain ⟨hp, hlen⟩ := locate_ok h
  rw [find, locate_of_fits hp hlen, steps_join hn] at h
  exact FileTree.walkOut_ne_removed hn.2.1 hn.2.2.1 h

theorem lead_of_find {fs : FileSystem} {p : Path} {d : Loc} (h : fs.find true p = .ok (.node d)) :
    fs.lead p = .ok (.node d) := by
  obtain ⟨hp, hlen⟩ := locate_ok h
  rw [find, locate_of_fits hp hlen, Path.steps] at h
  split at h
  · rw [FileTree.walkOut_snoc (.inl rfl)] at h
    rw [lead]
    cases hw : fs.tree.walkOut true (fs.startOf p).place (fs.startOf p).lost p.names with
    | error e => simp [hw, bind, Except.bind] at h
    | ok spot =>
      simp only [hw, bind, Except.bind] at h
      cases spot with
      | vacant d' n => cases h
      | removed => cases h
      | node l =>
        simp only [FileTree.enter, FileTree.walkWith_cons, FileTree.walkWith_nil, if_true] at h
        split at h <;> cases h
        rfl
  · exact h

theorem find_of_lead {fs : FileSystem} {p : Path} {d : Loc} (hp : p.text ≠ "")
    (hlen : p.byteSize ≤ pathMax) (h : fs.lead p = .ok (.node d))
    (hd : fs.tree.get? d = some .directory) : fs.find true p = .ok (.node d) := by
  rw [lead] at h
  rw [find, locate_of_fits hp hlen, Path.steps]
  split
  · rw [FileTree.walkOut_snoc (.inl rfl), h]
    exact FileTree.enter_dot_of_directory hd
  · exact h

theorem lead_join {fs : FileSystem} {p : Path} {n : String} {d : Loc}
    (h : fs.lead p = .ok (.node d)) (hd : fs.tree.get? (n :: d) = some .directory) :
    fs.lead (p / n) = .ok (.node (n :: d)) := by
  have hn := (FileTree.isEntryName_of_get? hd).1
  rw [lead, startOf_join hn, Path.names_join hn]
  have hlink : ∀ target, fs.tree.get? (n :: d) ≠ some (.link target) := fun target => by simp [hd]
  apply FileTree.walkOut_within (.refl _) (.inr ⟨rfl, hlink⟩)
  rw [lead] at h
  rw [FileTree.walkOut_snoc (.inr ⟨hn.2.2.1, rfl⟩), h]
  exact FileTree.enter_of_get? hd

theorem lead_parent_join {fs : FileSystem} {p : Path} {n : String} (hn : IsName n) :
    fs.lead (p / n).parent = fs.lead p := by
  rw [lead, lead, Path.names_parent_join hn, startOf, Path.isAbsolute_parent_join hn, startOf]

theorem locate_directory {fs : FileSystem} {p : Path} {steps : List String} {l : Loc}
    (h : fs.locate false p steps = .ok (.node l)) (hl : fs.tree.get? l = some .directory) :
    fs.locate true p steps = .ok (.node l) := by
  obtain ⟨hp, hlen⟩ := locate_ok h
  rw [locate_of_fits hp hlen] at h ⊢
  exact FileTree.walkOut_within (.refl _) (.inr ⟨rfl, fun target => by simp [hl]⟩) h

theorem find_of_get? {fs : FileSystem} {p : Path} {n : String} {d : Loc} {x : Node}
    (hfits : (p / n).byteSize ≤ pathMax) (hlead : fs.lead p = .ok (.node d))
    (hx : fs.tree.get? (n :: d) = some x) (hlink : ∀ target, x ≠ .link target) (follow : Bool) :
    fs.find follow (p / n) = .ok (.node (n :: d)) := by
  have hn := (FileTree.isEntryName_of_get? hx).1
  have he : fs.find false (p / n) = .ok (.node (n :: d)) := by
    rw [find_false_join hn, entry_of_get? hfits hlead hx]
  cases follow with
  | false => exact he
  | true =>
    have hnot : ∀ target, fs.tree.get? (n :: d) ≠ some (.link target) := by
      intro target ht
      exact hlink target (Option.some.inj (hx.symm.trans ht))
    rw [find, locate_of_fits (Path.text_join_ne hn) hfits] at he ⊢
    exact FileTree.walkOut_within (.refl _) (.inr ⟨rfl, hnot⟩) he

theorem dir_of_entry {fs : FileSystem} {p : Path} {n : String} {m : Loc} (hn : IsName n) (hp : p.text ≠ "")
    (h : fs.entry (p / n) = .ok (.node m)) : ∃ d, fs.find true p = .ok (.node d) ∧ m = n :: d := by
  obtain ⟨d, hd, rfl⟩ := lead_of_entry hn h
  obtain ⟨x, hx⟩ := entry_reached h
  have hsize := Path.byteSize_join hn hp
  have hlen := (locate_ok h).2
  exact ⟨d, find_of_lead hp (by omega) hd (FileTree.get?_parent hx), rfl⟩

/-- A path with a name joined to it leads to no other entry than that of the directory the path leads to. -/
theorem entry_eq_of_find {fs : FileSystem} {p : Path} {n : String} {l m : Loc} (hn : IsName n)
    (hp : fs.lead p = .ok (.node l)) (hm : fs.find false (p / n) = .ok (.node m)) : m = n :: l := by
  rw [find_false_join hn] at hm
  obtain ⟨d, hd, rfl⟩ := lead_of_entry hn hm
  rw [hp] at hd
  cases hd
  rfl

theorem find_removed {fs : FileSystem} {p : Path} {f : Bool} (h : fs.find f p = .ok .removed)
    (f' : Bool) : fs.find f' p = .ok .removed := by
  obtain ⟨hp, hlen⟩ := locate_ok h
  rw [find, locate_of_fits hp hlen] at h ⊢
  exact FileTree.walkOut_removed h f'

theorem find_error {fs : FileSystem} {p : Path} {e : SystemError} (h : fs.find false p = .error e) :
    fs.find true p = .error e := by
  rw [find, locate] at h ⊢
  split at h
  · rw [if_pos ‹_›]
    exact h
  · rw [if_neg ‹_›]
    split at h
    · rw [if_pos ‹_›]
      exact h
    · rw [if_neg ‹_›]
      exact FileTree.walkOut_error h

theorem find_false_of_linkStatus {fs : FileSystem} {p : Path} {l : Loc}
    (h : fs.linkStatus p = .ok .directory) (htrue : fs.find true p = .ok (.node l)) :
    fs.find false p = .ok (.node l) := by
  unfold linkStatus node at h
  split at h
  · rename_i l' hfalse
    split at h
    · cases h
      have hsame := locate_directory hfalse ‹_›
      rw [find, hsame] at htrue
      cases htrue
      exact hfalse
    · cases h
  · rw [find_removed ‹_› true] at htrue
    cases htrue
  · cases h
  · cases h

theorem node_of_find {fs : FileSystem} {follow : Bool} {p : Path} {l : Loc} {x : Node}
    (h : fs.find follow p = .ok (.node l)) (hx : fs.tree.get? l = some x) : fs.node follow p = .ok x := by
  simp [node, h, hx]

theorem find_of_node {fs : FileSystem} {follow : Bool} {p : Path} {n : String} {x : Node} (hn : IsName n)
    (h : fs.node follow (p / n) = .ok x) :
    ∃ l, fs.find follow (p / n) = .ok (.node l) ∧ fs.tree.get? l = some x := by
  unfold node at h
  split at h
  · rename_i l hl
    split at h
    · cases h
      exact ⟨l, hl, ‹_›⟩
    · cases h
  · exact absurd ‹_› (find_join_ne_removed hn follow)
  · cases h
  · cases h

end FileSystem
end CrashVault
