import CrashVault.Proofs.Opened
import CrashVault.Proofs.Records
import Mathlib.Tactic.Choose

/-! Conversations with the shell. Each line that does not ask to quit gets a reply, whatever state the lines
before it have left the files in, and a prompt behind it (`Replies`); a request to quit ends the
conversation. So scripts can be cut after any line (`run_append`). -/

namespace CrashVault

theorem lines_append_of_complete {a : String} (ha : a = "" ∨ ∃ text, a = text ++ "\n") (b : String) :
    lines (a ++ b).toList = lines a.toList ++ lines b.toList := by
  rcases ha with rfl | ⟨text, rfl⟩
  · rw [String.empty_append]
    rfl
  · have hnewline : "\n".toList = ['\n'] := rfl
    rw [String.toList_append, String.toList_append, hnewline, lines_snoc, List.append_assoc,
      List.singleton_append, lines_append]

section
variable {m : Type → Type} [Monad m] [LawfulMonad m] {ε α β : Type}

/-- Work that could fail, and is sure not to. -/
def Sure (x : ExceptT ε m α) : Prop := ∃ y : m α, x = liftM y

theorem sure_pure (a : α) : Sure (pure a : ExceptT ε m α) := ⟨pure a, (liftM_pure a).symm⟩

omit [LawfulMonad m] in
theorem sure_lift (y : m α) : Sure (liftM y : ExceptT ε m α) := ⟨y, rfl⟩

theorem Sure.bind {x : ExceptT ε m α} {f : α → ExceptT ε m β} (hx : Sure x) (hf : ∀ a, Sure (f a)) :
    Sure (x >>= f) := by
  obtain ⟨y, rfl⟩ := hx
  choose g hg using hf
  exact ⟨y >>= g, by rw [liftM_bind, funext hg]⟩

end

namespace Shell

open Vault (under)

theorem sure_answer {m : Type → Type} [Monad m] [LawfulMonad m] [MonadStateOf Host m] [MonadLog m]
    (v : Vault) (c : Command) : Sure (answer v c : ExceptT VaultError m String) := by
  cases c with
  | wipe =>
    refine (sure_lift _).bind ?_
    rintro (what | e | ⟨⟩)
    · exact sure_lift _
    · exact sure_lift _
    · exact sure_pure _
  | help => exact sure_pure _
  | paths session => exact sure_pure _
  | unknown => exact sure_pure _
  | _ => exact (sure_lift _).bind fun _ => sure_pure _

def Quits (line : List Char) : Prop := (firstWord line).1 = "quit".toList

instance : DecidablePred Quits := fun line => inferInstanceAs (Decidable ((firstWord line).1 = _))

theorem ofLine_eq_quit_iff {line : List Char} : Request.ofLine line = .quit ↔ Quits line := by
  unfold Request.ofLine Quits
  generalize firstWord line = words
  obtain ⟨name, rest⟩ := words
  by_cases hname : name = []
  · simp [hname]
  · by_cases hquit : name = "quit".toList <;> simp [hname, hquit]

def processing (name argument : String) : Record :=
  ⟨.debug, "CLI: Processing command: " ++ name ++ " with argument: " ++ argument⟩

/-- What the shell says to a line that does not ask to quit, and the host that it leaves. -/
inductive Reply (v : Vault) : List Char → Host → String → Host → Prop
  | blank {line : List Char} {h : Host} (hline : Request.ofLine line = .blank) : Reply v line h "" h
  | command {line : List Char} {name argument text : String} {h h' : Host}
    (hline : Request.ofLine line = .command name argument)
    (hanswer : (answer v (.ofWords name argument)).run.run (h.note (processing name argument)) =
      (.ok text, h')) : Reply v line h text h'

inductive Replies (v : Vault) : List (List Char) → Host → List String → Host → Prop
  | nil (h : Host) : Replies v [] h [] h
  | cons {line : List Char} {rest : List (List Char)} {text : String} {texts : List String}
    {h h₁ h₂ : Host} (hline : Reply v line h text h₁) (hrest : Replies v rest h₁ texts h₂) :
    Replies v (line :: rest) h (text :: texts) h₂

theorem answer_ok (v : Vault) (c : Command) (h : Host) :
    ∃ text h', (answer v c).run.run h = (.ok text, h') := by
  obtain ⟨y, hy⟩ := sure_answer (m := StateM Host) v c
  rw [hy]
  exact ⟨_, _, rfl⟩

theorem exists_reply {line : List Char} (hline : ¬ Quits line) (v : Vault) (h : Host) :
    ∃ text h', Reply v line h text h' := by
  cases hr : Request.ofLine line with
  | quit => exact absurd (ofLine_eq_quit_iff.1 hr) hline
  | blank => exact ⟨"", h, .blank hr⟩
  | command name argument =>
    obtain ⟨text, h', ha⟩ := answer_ok v (.ofWords name argument) (h.note (processing name argument))
    exact ⟨text, h', .command hr ha⟩

theorem exists_replies {script : List (List Char)} (hs : ∀ line ∈ script, ¬ Quits line) (v : Vault)
    (h : Host) : ∃ texts h', Replies v script h texts h' := by
  induction script generalizing h with
  | nil => exact ⟨[], h, .nil h⟩
  | cons line rest ih =>
    obtain ⟨text, h₁, hline⟩ := exists_reply (hs line List.mem_cons_self) v h
    obtain ⟨texts, h₂, hrest⟩ := ih (fun l hl => hs l (List.mem_cons_of_mem _ hl)) h₁
    exact ⟨text :: texts, h₂, .cons hline hrest⟩

theorem run_converse_cons (v : Vault) (line : List Char) (rest : List (List Char)) (h : Host) :
    (converse v (line :: rest)).run h =
      match Request.ofLine line with
      | .quit => (⟨[""], none⟩, h)
      | .blank => (((converse v rest).run h).1.cons prompt, ((converse v rest).run h).2)
      | .command name argument =>
        match (answer v (.ofWords name argument)).run.run (h.note (processing name argument)) with
        | (.ok text, h') => (((converse v rest).run h').1.cons (text ++ prompt), ((converse v rest).run h').2)
        | (.error e, h') => (⟨[""], some e⟩, h') := by
  rw [converse]
  cases Request.ofLine line with
  | quit => rfl
  | blank => rfl
  | command name argument =>
    have hrecord :
      (record .debug ("CLI: Processing command: " ++ name ++ " with argument: " ++ argument)).run h =
        pure ((), h.note (processing name argument)) := rfl
    simp only [StateT.run_bind, hrecord, pure_bind]
    rcases (answer v (.ofWords name argument) : Attempt String).run.run (h.note (processing name argument)) with
      ⟨e | text, h'⟩ <;> rfl

theorem Reply.converse_cons {v : Vault} {line : List Char} {text : String} {h h' : Host}
    (hline : Reply v line h text h') (rest : List (List Char)) :
    (converse v (line :: rest)).run h =
      (((converse v rest).run h').1.cons (text ++ prompt), ((converse v rest).run h').2) := by
  rw [run_converse_cons]
  cases hline with
  | blank hline => rw [hline, String.empty_append]
  | command hline hanswer => simp only [hline, hanswer]

theorem converse_quit {v : Vault} {line : List Char} (hline : Quits line) (rest : List (List Char)) :
    converse v (line :: rest) = pure ⟨[""], none⟩ := by
  rw [converse, ofLine_eq_quit_iff.2 hline]

/-- The lines that do not ask to quit get their replies, and the rest goes on from there. -/
theorem Replies.converse_append {v : Vault} {script : List (List Char)} {texts : List String}
    {h h' : Host} (hs : Replies v script h texts h') (rest : List (List Char)) :
    (converse v (script ++ rest)).run h =
      (⟨texts.map (· ++ prompt) ++ ((converse v rest).run h').1.segments,
        ((converse v rest).run h').1.failure⟩, ((converse v rest).run h').2) := by
  induction hs with
  | nil h => rfl
  | cons hline hrest ih =>
    rw [List.cons_append, hline.converse_cons, ih]
    rfl

theorem Replies.run_converse {v : Vault} {script : List (List Char)} {texts : List String}
    {h h' : Host} (hs : Replies v script h texts h') :
    (converse v script).run h = (⟨texts.map (· ++ prompt), none⟩, h') := by
  have hend : (converse v []).run h' = (⟨[], none⟩, h') := rfl
  simpa only [hend, List.append_nil] using hs.converse_append []

theorem converse_append_of_quits {v : Vault} {script : List (List Char)}
    (hs : ∃ line ∈ script, Quits line) (rest : List (List Char)) : converse v (script ++ rest) = converse v script := by
  induction script with
  | nil => simp at hs
  | cons line script ih =>
    by_cases hline : Quits line
    · rw [List.cons_append, converse_quit hline, converse_quit hline]
    · have hrest : ∃ l ∈ script, Quits l := by simpa [hline] using hs
      rw [List.cons_append, converse, converse, ih hrest]

/-- A conversation goes through the lines up to the first that asks to quit, and ends there or at the end
of the script. -/
theorem exists_run_converse (v : Vault) (script : List (List Char)) (h : Host) :
    ∃ texts h', Replies v (script.takeWhile (¬ Quits ·)) h texts h' ∧
      (converse v script).run h =
        (⟨texts.map (· ++ prompt) ++ if ∃ line ∈ script, Quits line then [""] else [], none⟩, h') := by
  induction script generalizing h with
  | nil => exact ⟨[], h, .nil h, rfl⟩
  | cons line rest ih =>
    by_cases hline : Quits line
    · refine ⟨[], h, ?_, ?_⟩
      · rw [List.takeWhile_cons_of_neg (by simpa using hline)]
        exact .nil h
      · rw [converse_quit hline, if_pos ⟨line, List.mem_cons_self, hline⟩]
        rfl
    · obtain ⟨text, h₁, hreply⟩ := exists_reply hline v h
      obtain ⟨texts, h₂, hreplies, hrun⟩ := ih h₁
      refine ⟨text :: texts, h₂, ?_, ?_⟩
      · rw [List.takeWhile_cons_of_pos (by simpa using hline)]
        exact .cons hreply hreplies
      · rw [hreply.converse_cons, hrun]
        simp only [List.mem_cons, exists_eq_or_imp, hline, false_or]
        rfl

def greeted (v : Vault) (h : Host) : Host :=
  (h.note ⟨.info, "CLI: Initialized over " ++ v.root.text⟩).note ⟨.info, "CLI: Starting command loop"⟩

theorem files_greeted (v : Vault) (h : Host) : (greeted v h).files = h.files := by
  rw [greeted, Host.files_note, Host.files_note]

def ended : Record := ⟨.info, "CLI: Command loop ended"⟩

theorem run_of_converse {v : Vault} {script : String} {h h' : Host} {segments : List String}
    (hc : (converse v (lines script.toList)).run (greeted v h) = (⟨segments, none⟩, h')) :
    (run v script).run h = (⟨prompt :: segments, none⟩, h'.note ended) := by
  have hgreet : (run v script).run h = StateT.run (do
      let t ← converse v (lines script.toList)
      if t.failure = none then
        record .info "CLI: Command loop ended"
      return t.cons prompt) (greeted v h) := rfl
  rw [hgreet, StateT.run_bind, hc]
  rfl

theorem failure_run (v : Vault) (script : String) (h : Host) : ((run v script).run h).1.failure = none := by
  obtain ⟨texts, h', -, hrun⟩ := exists_run_converse v (lines script.toList) (greeted v h)
  rw [run_of_converse hrun]

theorem run_append (v : Vault) {a : String} (ha : a = "" ∨ ∃ text, a = text ++ "\n") (b : String) (h : Host) :
    ((∀ line ∈ lines a.toList, ¬ Quits line) → ∃ said,
      ((run v b).run ((run v a).run h).2).1 = ⟨prompt :: said, none⟩ ∧
      ((run v (a ++ b)).run h).1 = ⟨((run v a).run h).1.segments ++ said, none⟩ ∧
      ((run v (a ++ b)).run h).2.files = ((run v b).run ((run v a).run h).2).2.files) ∧
    ((∃ line ∈ lines a.toList, Quits line) → (run v (a ++ b)).run h = (run v a).run h) ∧
    ∀ before, (∀ line ∈ before, ¬ Quits line) → ∃ texts h', Replies v before (greeted v h) texts h' ∧
      ∀ script line after, lines script.toList = before ++ line :: after → Quits line →
        (run v script).run h = (⟨prompt :: (texts.map (· ++ prompt) ++ [""]), none⟩, h'.note ended) := by
  have hlines := lines_append_of_complete ha b
  refine ⟨fun hstays => ?_, fun hquits => ?_, fun before hbefore => ?_⟩
  · obtain ⟨texts, h₁, hreplies⟩ := exists_replies hstays v (greeted v h)
    have hfirst := run_of_converse hreplies.run_converse
    obtain ⟨_, h₂, -, hsecond⟩ := exists_run_converse v (lines b.toList) (greeted v (h₁.note ended))
    -- the second shell starts on the same files as the first goes on with, but on more records
    have hstart : h₁.files = (greeted v (h₁.note ended)).files := by rw [files_greeted, Host.files_note]
    obtain ⟨htranscript, hfiles⟩ := (@mirrors_converse .elsewhere v (lines b.toList)).run_eq hstart
    have hboth := hreplies.converse_append (lines b.toList)
    rw [htranscript, hsecond, ← hlines] at hboth
    rw [hfirst, run_of_converse hsecond, run_of_converse hboth]
    refine ⟨_, rfl, rfl, ?_⟩
    rw [Host.files_note, Host.files_note, hfiles, hsecond]
  · obtain ⟨_, h', -, hrun⟩ := exists_run_converse v (lines a.toList) (greeted v h)
    have hboth := hrun
    rw [← converse_append_of_quits hquits (lines b.toList), ← hlines] at hboth
    rw [run_of_converse hrun, run_of_converse hboth]
  · obtain ⟨texts, h', hreplies⟩ := exists_replies hbefore v (greeted v h)
    refine ⟨texts, h', hreplies, fun script line after hscript hline => run_of_converse ?_⟩
    rw [hscript, hreplies.converse_append, converse_quit hline]
    rfl

/-- What a wipe has made is there for the next line, in the same run and in the next; a line behind a
request to quit is not read. -/
theorem run_append_wipe : ("wipe\n" = "" ∨ ∃ text, "wipe\n" = text ++ "\n") ∧
    (∀ line ∈ lines "wipe\n".toList, ¬ Quits line) ∧ (∃ line ∈ lines "wipe\nquit\n".toList, Quits line) ∧
    (∃ said, ((run (under ⟨"/"⟩) "sessions").run
        ((run (under ⟨"/"⟩) "wipe\n").run ⟨.empty, {}, []⟩).2).1 = ⟨prompt :: said, none⟩ ∧
      ((run (under ⟨"/"⟩) ("wipe\n" ++ "sessions")).run ⟨.empty, {}, []⟩).1 =
        ⟨((run (under ⟨"/"⟩) "wipe\n").run ⟨.empty, {}, []⟩).1.segments ++ said, none⟩) ∧
    (run (under ⟨"/"⟩) ("wipe\nquit\n" ++ "sessions")).run ⟨.empty, {}, []⟩ =
      (run (under ⟨"/"⟩) "wipe\nquit\n").run ⟨.empty, {}, []⟩ ∧
    ∃ texts h', Replies (under ⟨"/"⟩) ["wipe".toList] (greeted (under ⟨"/"⟩) ⟨.empty, {}, []⟩) texts h' ∧
      (run (under ⟨"/"⟩) "wipe\nquit\n").run ⟨.empty, {}, []⟩ =
        (⟨prompt :: (texts.map (· ++ prompt) ++ [""]), none⟩, h'.note ended) := by
  have hstays : ∀ line ∈ lines "wipe\n".toList, ¬ Quits line := by decide
  have hquits : ∃ line ∈ lines "wipe\nquit\n".toList, Quits line := by decide
  have hwipe : "wipe\n" = "" ∨ ∃ text, "wipe\n" = text ++ "\n" := .inr ⟨"wipe", by decide⟩
  have hquit : "wipe\nquit\n" = "" ∨ ∃ text, "wipe\nquit\n" = text ++ "\n" :=
    .inr ⟨"wipe\nquit", by decide⟩
  obtain ⟨hgoesOn, -, hbefore⟩ := run_append (under ⟨"/"⟩) hwipe "sessions" ⟨.empty, {}, []⟩
  obtain ⟨-, hstops, -⟩ := run_append (under ⟨"/"⟩) hquit "sessions" ⟨.empty, {}, []⟩
  obtain ⟨said, hsecond, hboth, -⟩ := hgoesOn hstays
  obtain ⟨texts, h', hreplies, hrun⟩ := hbefore ["wipe".toList] (by decide)
  exact ⟨hwipe, hstays, hquits, ⟨said, hsecond, hboth⟩, hstops hquits, texts, h', hreplies,
    hrun "wipe\nquit\n" "quit".toList [] (by decide) (by decide)⟩

end Shell
end CrashVault
