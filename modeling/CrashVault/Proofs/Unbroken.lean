import CrashVault.Proofs.Conversation

/-! The shell goes on, whatever has become of the vault. As long as the sinks take its records, each line
that does not ask to quit is answered and followed by a prompt, whatever the lines before it have left of the
files, and a wipe that fails is answered with the reason (`run_unbroken`). -/

namespace CrashVault

namespace Shell

open Vault (under)

variable {lib : LogLibrary}

theorem nulFree_argument {script name argument : String} {line : List Char} (hscript : NulFree script)
    (hline : line ∈ lines script.toList) (hcommand : Request.ofLine line = .command name argument) :
    NulFree argument := by
  unfold Request.ofLine at hcommand
  have hrest := (firstWord_sublist line).2
  generalize firstWord line = words at hcommand hrest
  obtain ⟨first, rest⟩ := words
  dsimp only at hcommand hrest
  split at hcommand
  · cases hcommand
  · split at hcommand
    · cases hcommand
    · cases hcommand
      intro hnul
      rw [String.toList_ofList] at hnul
      exact hscript (mem_of_mem_lines hline (hrest.subset ((firstWord_sublist rest).1.subset hnul)))

/-- What the shell says to line after line, its records going to the library. -/
inductive Answers (lib : LogLibrary) (v : Vault) : List (List Char) → Host → List String → Host → Prop
  | nil (h : Host) : Answers lib v [] h [] h
  | blank {line : List Char} {rest : List (List Char)} {texts : List String} {h h' : Host}
    (hline : Request.ofLine line = .blank) (hrest : Answers lib v rest h texts h') :
    Answers lib v (line :: rest) h ("" :: texts) h'
  | command {line : List Char} {rest : List (List Char)} {name argument text : String} {texts : List String}
    {h h₁ h₂ h' : Host} (hline : Request.ofLine line = .command name argument)
    (hrecord : (record .debug ("CLI: Processing command: " ++ name ++ " with argument: " ++ argument) :
      Logged lib Unit).run h = (.ok (), h₁))
    (hanswer : (answer v (.ofWords name argument) : ExceptT VaultError (Logged lib) String).run.run h₁ =
      (.ok (.ok text), h₂))
    (hrest : Answers lib v rest h₂ texts h') : Answers lib v (line :: rest) h (text :: texts) h'

theorem answer_ends (v : Vault) (c : Command) {h : Host} (hsinks : lib.Takes h.logging.sinks) : ∃ text h',
    (answer v c : ExceptT VaultError (Logged lib) String).run.run h = (.ok (.ok text), h') ∧
      h'.logging = h.logging := by
  obtain ⟨a, h', hrun, hlogging⟩ := (mirrors_answer v c).ends h hsinks
  obtain ⟨y, hy⟩ := sure_answer (m := Logged lib) v c
  rw [hy, Logged.run_lift] at hrun ⊢
  generalize y.run h = said at hrun ⊢
  obtain ⟨what | text, k⟩ := said
  · cases hrun
  · cases hrun
    exact ⟨text, _, rfl, hlogging⟩

theorem converse_unbroken (v : Vault) (script : List (List Char)) {h : Host}
    (hsinks : lib.Takes h.logging.sinks) : ∃ texts h',
    Answers lib v (script.takeWhile (¬ Quits ·)) h texts h' ∧ h'.logging = h.logging ∧
      (converse v script : Logged lib Transcript).run h =
        (.ok ⟨texts.map (· ++ prompt) ++ if ∃ line ∈ script, Quits line then [""] else [], none⟩, h') := by
  induction script generalizing h with
  | nil => exact ⟨[], h, .nil h, rfl, rfl⟩
  | cons line rest ih =>
    by_cases hline : Quits line
    · refine ⟨[], h, ?_, rfl, ?_⟩
      · rw [List.takeWhile_cons_of_neg (by simpa using hline)]
        exact .nil h
      · rw [converse, ofLine_eq_quit_iff.2 hline, if_pos ⟨line, List.mem_cons_self, hline⟩]
        rfl
    · rw [List.takeWhile_cons_of_pos (by simpa using hline), converse]
      simp only [List.mem_cons, exists_eq_or_imp, hline, false_or]
      cases hrequest : Request.ofLine line with
      | quit => exact absurd (ofLine_eq_quit_iff.1 hrequest) hline
      | blank =>
        obtain ⟨texts, h', hanswers, hlogging, hrun⟩ := ih hsinks
        refine ⟨"" :: texts, h', .blank hrequest hanswers, hlogging, ?_⟩
        dsimp only
        rw [Logged.run_bind, hrun]
        rfl
      | command name argument =>
        obtain ⟨⟨⟩, h₁, hrecord, hlogging₁⟩ := (mirrors_record .debug
          ("CLI: Processing command: " ++ name ++ " with argument: " ++ argument)).ends h hsinks
        rw [← hlogging₁] at hsinks
        obtain ⟨text, h₂, hanswer, hlogging₂⟩ := answer_ends v (.ofWords name argument) hsinks
        rw [← hlogging₂] at hsinks
        obtain ⟨texts, h', hanswers, hlogging, hrun⟩ := ih hsinks
        refine ⟨text :: texts, h', .command hrequest hrecord hanswer hanswers,
          hlogging.trans (hlogging₂.trans hlogging₁), ?_⟩
        dsimp only
        rw [Logged.run_bind, hrecord]
        dsimp only
        rw [Logged.run_bind, hanswer]
        dsimp only
        rw [Logged.run_bind, hrun]
        rfl

def greet (v : Vault) : Logged lib Unit := do
  record .info ("CLI: Initialized over " ++ v.root.text)
  record .info "CLI: Starting command loop"

theorem greet_ends (v : Vault) {h : Host} (hsinks : lib.Takes h.logging.sinks) :
    ∃ g, (greet v : Logged lib Unit).run h = (.ok (), g) ∧ g.logging = h.logging := by
  obtain ⟨⟨⟩, g, hrun, hlogging⟩ := ((@mirrors_record lib .info ("CLI: Initialized over " ++ v.root.text)).bind
    fun _ => mirrors_record .info "CLI: Starting command loop").ends h hsinks
  exact ⟨g, hrun, hlogging⟩

theorem run_eq_greet (v : Vault) (script : String) : (run v script : Logged lib Transcript) = do
    greet v
    let t ← converse v (lines script.toList)
    if t.failure = none then
      record .info "CLI: Command loop ended"
    return t.cons prompt := by
  rw [run, greet, bind_assoc]

theorem run_ends (v : Vault) (script : String) {h : Host} (hsinks : lib.Takes h.logging.sinks) :
    ∃ g texts k k', (greet v : Logged lib Unit).run h = (.ok (), g) ∧
      Answers lib v ((lines script.toList).takeWhile (¬ Quits ·)) g texts k ∧
      (record .info "CLI: Command loop ended" : Logged lib Unit).run k = (.ok (), k') ∧
      (run v script : Logged lib Transcript).run h =
        (.ok ⟨prompt :: (texts.map (· ++ prompt) ++
          if ∃ line ∈ lines script.toList, Quits line then [""] else []), none⟩, k') := by
  obtain ⟨g, hgreet, hgreeted⟩ := greet_ends v hsinks
  rw [← hgreeted] at hsinks
  obtain ⟨texts, k, hanswers, hlogging, hconverse⟩ := converse_unbroken v (lines script.toList) hsinks
  rw [← hlogging] at hsinks
  obtain ⟨⟨⟩, k', hended, -⟩ := (mirrors_record .info "CLI: Command loop ended").ends k hsinks
  refine ⟨g, texts, k, k', hgreet, hanswers, hended, ?_⟩
  rw [run_eq_greet, Logged.run_bind, hgreet]
  dsimp only
  rw [Logged.run_bind, hconverse]
  dsimp only
  rw [if_pos rfl, Logged.run_bind, hended]
  rfl

theorem answer_wipe_failed (v : Vault) {g k : Host} (hsinks : lib.Takes g.logging.sinks) {e : VaultError}
    (hfails : (v.deleteAll : ExceptT VaultError (Logged lib) Unit).run.run g = (.ok (.error e), k)) :
    ∃ k', (record .error ("CLI: Error deleting files: " ++ e.message) : Logged lib Unit).run k = (.ok (), k') ∧
      (answer v .wipe : ExceptT VaultError (Logged lib) String).run.run g =
        (.ok (.ok ("Error deleting files: " ++ e.message ++ "\n")), k') := by
  obtain ⟨_, _, hrun, hlogging⟩ := v.mirrors_deleteAll.ends g hsinks
  rw [hfails] at hrun
  cases hrun
  rw [← hlogging] at hsinks
  obtain ⟨⟨⟩, k', hrecord, -⟩ := (mirrors_record .error ("CLI: Error deleting files: " ++ e.message)).ends k hsinks
  refine ⟨k', hrecord, ?_⟩
  rw [answer, Logged.run_lift_bind, Logged.run_rescue, hfails]
  dsimp only
  rw [Logged.run_lift, wipeFailed, Logged.run_bind, hrecord]
  rfl

/-- A file where the directory was under which a vault was opened. -/
def barred : Host := ⟨FileSystem.empty.add [] "f" (.file "text"), {}, []⟩

end Shell
end CrashVault
