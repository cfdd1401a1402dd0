import CrashVault.Program
import CrashVault.Proofs.LogFile
import CrashVault.Proofs.ReportEntries
import Mathlib.Logic.Relation

/-! What starting the program and looking at a vault do to the files, change by change, whatever the sinks do
with a record and whichever of them throws. Apart from what the sinks do, directories are added on the way to
the three of the vault, what stands there in the place of one is removed, and so is what the older layout
has left (`Change`). Every prefix of a run comes to such changes, in a row, so it does not matter where a run
breaks off (`TracedFrom.bind`). -/

namespace CrashVault

namespace Shell

/-- By its first two words, the line asks for something to be deleted. -/
def Deletes (line : List Char) : Prop :=
  let name := (firstWord line).1
  let argument := (firstWord (firstWord line).2).1
  (name = "rm-session".toList ∨ name = "rm-report".toList) ∧ argument ≠ [] ∨
    (name = "cleanup".toList ∨ name = "wipe".toList) ∧ argument = []

instance (line : List Char) : Decidable (Deletes line) := inferInstanceAs (Decidable (_ ∨ _))

def Command.Deletes : Command → Prop
  | .cleanup | .wipe | .removeSession _ | .removeReport _ => True
  | _ => False

theorem ofWords_deletes {name argument : String} (h : (Command.ofWords name argument).Deletes) :
    (name = "rm-session" ∨ name = "rm-report") ∧ argument ≠ "" ∨
      (name = "cleanup" ∨ name = "wipe") ∧ argument = "" := by
  unfold Command.ofWords at h
  split at h
  · rename_i hargument
    refine .inr ⟨?_, hargument⟩
    split at h
    · cases h
    · cases h
    · cases h
    · cases h
    · exact .inl rfl
    · exact .inr rfl
    · cases h
  · rename_i hargument
    refine .inl ⟨?_, hargument⟩
    split at h
    · cases h
    · cases h
    · exact .inl rfl
    · exact .inr rfl
    · cases h

theorem deletes_of_command {line : List Char} {name argument : String}
    (hline : Request.ofLine line = .command name argument)
    (h : (Command.ofWords name argument).Deletes) : Deletes line := by
  unfold Request.ofLine at hline
  unfold Deletes
  generalize firstWord line = words at hline ⊢
  obtain ⟨first, rest⟩ := words
  dsimp only at hline ⊢
  split at hline
  · cases hline
  · split at hline
    · cases hline
    · cases hline
      simpa [← String.toList_inj] using ofWords_deletes h

end Shell

open Relation (ReflTransGen)
open Vault (under RemovesEntry)

/-- What the sinks do to the files with one record. -/
def LogLibrary.Writes (lib : LogLibrary) (sinks : List Sink) (fs fs' : FileSystem) : Prop :=
  ∃ (h : Host) (r : Record), h.logging.sinks = sinks ∧ h.files = fs ∧ (lib.consume h r).2 = fs'

/-- One change of the files, by a record or in opening the vault under a base and cleaning up beside it. -/
inductive Change (lib : LogLibrary) (base : Path) (sinks : List Sink) : FileSystem → FileSystem → Prop
  | written {fs fs' : FileSystem} (h : lib.Writes sinks fs fs') : Change lib base sinks fs fs'
  /-- Directories are added, each where a beginning of a path of the vault was missing. -/
  | made {p : Path} {fs fs' : FileSystem} (hp : p ∈ (under base).paths)
      (h : FileSystem.Fills (fs.MissingOn p) fs fs') : Change lib base sinks fs fs'
  /-- The entry of a path of the vault is removed. The path has led to something else than a directory, one
  record ago at the most. -/
  | cleared {p : Path} {x : Node} {seen fs fs' : FileSystem} (hp : p ∈ (under base).paths)
      (hseen : seen.status p = .ok x) (hx : x ≠ .directory) (hsince : seen = fs ∨ lib.Writes sinks seen fs)
      (h : RemovesEntry p fs fs') : Change lib base sinks fs fs'
  /-- The entry of the older layout is removed, or one that its path leads to with names joined to it. -/
  | cleaned {below : Loc} {fs fs' : FileSystem} (hnames : ∀ n ∈ below, IsEntryName n)
      (h : RemovesEntry ((under base).legacyDir.extend below) fs fs') : Change lib base sinks fs fs'

section
variable {lib : LogLibrary} {base : Path} {h : Host} {α β : Type}

/-- Work on a host leaves the state of logging and makes such changes, one after the other; and if no sink
has thrown, its answer is as said. -/
structure TracedFrom (base : Path) (h : Host) (x : Logged lib α) (answer : α → Prop) : Prop where
  logging : (x.run h).2.logging = h.logging
  changes : ReflTransGen (Change lib base h.logging.sinks) h.files (x.run h).2.files
  answers : ∀ a, (x.run h).1 = .ok a → answer a

def Traced (base : Path) (x : Logged lib α) (answer : α → Prop) : Prop := ∀ h, TracedFrom base h x answer

variable {P : α → Prop} {Q : β → Prop} {x : Logged lib α}

theorem TracedFrom.mono {P' : α → Prop} (hx : TracedFrom base h x P) (himp : ∀ a, P a → P' a) :
    TracedFrom base h x P' := ⟨hx.logging, hx.changes, fun a ha => himp a (hx.answers a ha)⟩

theorem tracedFrom_pure {a : α} (ha : P a) : TracedFrom base h (pure a : Logged lib α) P where
  logging := rfl
  changes := .refl
  answers b hb := by
    cases hb
    exact ha

theorem TracedFrom.bind {f : α → Logged lib β} (hx : TracedFrom base h x P)
    (hf : ∀ a g, x.run h = (.ok a, g) → P a → TracedFrom base g (f a) Q) : TracedFrom base h (x >>= f) Q := by
  obtain ⟨hlogging, hchanges, hanswers⟩ := hx
  rcases hrun : x.run h with ⟨what | a, g⟩
  · have hbroken : (x >>= f).run h = (.error what, g) := by rw [Logged.run_bind, hrun]
    rw [hrun] at hlogging hchanges
    exact ⟨by rw [hbroken]; exact hlogging, by rw [hbroken]; exact hchanges, by rw [hbroken]; exact nofun⟩
  · have hthen := hf a g hrun (hanswers a (by rw [hrun]))
    have hgoes : (x >>= f).run h = (f a).run g := by rw [Logged.run_bind, hrun]
    rw [hrun] at hlogging hchanges
    have hrest := hthen.changes
    rw [hlogging] at hrest
    refine ⟨?_, ?_, ?_⟩
    · rw [hgoes]
      exact hthen.logging.trans hlogging
    · rw [hgoes]
      exact hchanges.trans hrest
    · rw [hgoes]
      exact hthen.answers

theorem TracedFrom.map (hx : TracedFrom base h x P) (f : α → β) (hf : ∀ a, P a → Q (f a)) :
    TracedFrom base h (return f (← x)) Q :=
  hx.bind fun a _ _ ha => tracedFrom_pure (hf a ha)

theorem tracedFrom_get_bind {f : Host → Logged lib β} (hf : TracedFrom base h (f h) Q) :
    TracedFrom base h (get >>= f) Q := ⟨hf.logging, hf.changes, hf.answers⟩

theorem written_of_record (severity : Severity) (text : String) (h : Host) :
    let g := ((record severity text : Logged lib Unit).run h).2
    h.files = g.files ∨ lib.Writes h.logging.sinks h.files g.files := by
  rw [Logged.run_record]
  split
  · have hwrites : lib.Writes h.logging.sinks h.files (lib.consume h ⟨severity, text⟩).2 := ⟨h, _, rfl, rfl, rfl⟩
    generalize lib.consume h ⟨severity, text⟩ = taken at hwrites
    obtain ⟨_ | ⟨⟩, files⟩ := taken
    · exact .inr hwrites
    · exact .inr hwrites
  · exact .inl rfl

theorem tracedFrom_record (severity : Severity) (text : String) :
    TracedFrom base h (record severity text : Logged lib Unit) fun _ => True where
  logging := (Logging.logging_record severity text h).1
  changes := by
    have hwritten := @written_of_record lib severity text h
    generalize ((record severity text : Logged lib Unit).run h).2 = g at hwritten
    obtain hsame | hwrites := hwritten
    · rw [hsame]
    · exact .single (.written hwrites)
  answers _ _ := trivial

theorem TracedFrom.of_run {r : Except String α} {g : Host} (hx : TracedFrom base h x P)
    (hrun : x.run h = (r, g)) : g.logging = h.logging ∧
      ReflTransGen (Change lib base h.logging.sinks) h.files g.files ∧ ∀ a, r = .ok a → P a := by
  obtain ⟨hlogging, hchanges, hanswers⟩ := hx
  rw [hrun] at hlogging hchanges hanswers
  exact ⟨hlogging, hchanges, hanswers⟩

theorem tracedFrom_setFiles {files : FileSystem} (hc : Change lib base h.logging.sinks h.files files) :
    TracedFrom base h (modify fun h => { h with files } : Logged lib Unit) fun _ => True :=
  ⟨rfl, .single hc, fun _ _ => trivial⟩

theorem traced_foldlM {f : β → α → Logged lib β} {as : List α}
    (hf : ∀ b, ∀ a ∈ as, Traced base (f b a) fun _ => True) (b : β) :
    Traced base (as.foldlM f b) fun _ => True := by
  induction as generalizing b with
  | nil => exact fun h => tracedFrom_pure trivial
  | cons a as ih =>
    intro h
    exact (hf b a List.mem_cons_self h).bind fun b' g _ _ =>
      ih (fun b a ha => hf b a (List.mem_cons_of_mem _ ha)) b' g

/-! Work that can fail goes on as a program that answers with what it came to. -/

def Returns (P : α → Prop) (r : Except VaultError α) : Prop := ∀ a, r = .ok a → P a

theorem returns_ok {a : α} (ha : P a) : Returns P (.ok a) := by
  intro b hb
  cases hb
  exact ha

theorem returns_error (e : VaultError) : Returns P (.error e) := nofun

theorem TracedFrom.lift (hx : TracedFrom base h x P) :
    TracedFrom base h (liftM x : ExceptT VaultError (Logged lib) α).run (Returns P) := by
  show TracedFrom base h (Except.ok <$> x) _
  rw [map_eq_pure_bind]
  exact hx.map Except.ok fun _ ha => returns_ok ha

theorem tracedFrom_attempt_get_bind {f : Host → ExceptT VaultError (Logged lib) β} {Q : Except VaultError β → Prop}
    (hf : TracedFrom base h (f h).run Q) : TracedFrom base h (get >>= f).run Q :=
  ⟨hf.logging, hf.changes, hf.answers⟩

theorem TracedFrom.attempt_bind {x : ExceptT VaultError (Logged lib) α} {f : α → ExceptT VaultError (Logged lib) β}
    (hx : TracedFrom base h x.run (Returns P)) (hf : ∀ a g, P a → TracedFrom base g (f a).run (Returns Q)) :
    TracedFrom base h (x >>= f).run (Returns Q) := by
  rw [ExceptT.run_bind]
  refine TracedFrom.bind hx ?_
  rintro (e | a) g - ha
  · exact tracedFrom_pure (returns_error e)
  · exact hf a g (ha a rfl)

theorem TracedFrom.lift_map (hx : TracedFrom base h x P) (f : α → β) :
    TracedFrom base h (do return f (← x) : ExceptT VaultError (Logged lib) β).run (Returns fun _ => True) :=
  hx.lift.attempt_bind fun a _ _ => tracedFrom_pure (returns_ok (a := f a) trivial)

end

namespace Directory
variable {lib : LogLibrary} {base p : Path} {h : Host}

theorem traced_listing (dir : Path) (keep : String → Bool) :
    Traced base (listing dir keep : Logged lib _) fun children =>
      ∀ child ∈ children, ∃ n, IsEntryName n ∧ child = dir / n := by
  intro h
  apply tracedFrom_get_bind
  cases hlist : h.files.list dir with
  | ok names =>
    apply tracedFrom_pure
    intro child hchild
    obtain ⟨n, hn, rfl⟩ := List.mem_map.1 hchild
    exact ⟨n, FileSystem.isEntryName_of_list hlist (List.mem_filter.1 hn).1, rfl⟩
  | error e => exact (tracedFrom_record _ _).map (fun _ => []) (by simp)

theorem traced_below (p : Path) :
    Traced base (below p : Logged lib _) fun children =>
      ∀ child ∈ children, ∃ n, IsEntryName n ∧ child = p / n := by
  intro h
  apply tracedFrom_get_bind
  rcases h.files.linkStatus p with e | (_ | _ | _)
  · exact tracedFrom_pure (by simp)
  · exact traced_listing p _ h
  · exact tracedFrom_pure (by simp)
  · exact tracedFrom_pure (by simp)

theorem traced_removeEntry {r : Loc} (hr : ∀ n ∈ r, IsEntryName n) :
    Traced base (removeEntry ((under base).legacyDir.extend r) : Logged lib _) fun _ => True := by
  intro h
  apply tracedFrom_get_bind
  rcases hremove : h.files.remove ((under base).legacyDir.extend r) with e | files
  · cases e with
    | missing => exact tracedFrom_pure trivial
    | _ => exact (tracedFrom_record _ _).map (fun _ => false) fun _ _ => trivial
  · exact (tracedFrom_setFiles (.cleaned hr (Vault.removesEntry_remove hremove))).map (fun _ => true)
      fun _ _ => trivial

theorem traced_removeWithin (room : Nat) {r : Loc} (hr : ∀ n ∈ r, IsEntryName n) :
    Traced base (removeWithin room ((under base).legacyDir.extend r) : Logged lib _) fun _ => True := by
  induction room generalizing r with
  | zero => exact fun h => (traced_removeEntry hr h).map (Removal.mk · 1) fun _ _ => trivial
  | succ room ih =>
    intro h
    refine (traced_below _ h).bind fun children g _ hchildren => ?_
    have hbelow (tried : Nat) : ∀ child ∈ children, Traced base
        (do return tried + (← removeWithin room child).tried : Logged lib Nat) fun _ => True := by
      intro child hchild h
      obtain ⟨n, hn, rfl⟩ := hchildren child hchild
      exact (@ih (n :: r) (List.forall_mem_cons.2 ⟨hn, hr⟩) h).map (tried + ·.tried) fun _ _ => trivial
    refine (traced_foldlM hbelow 1 g).bind fun tried g' _ _ => ?_
    exact (traced_removeEntry hr g').map (Removal.mk · tried) fun _ _ => trivial

theorem endsInSlash_of_mem_paths (hp : p ∈ (under base).paths) : p.endsInSlash = false := by
  rcases Vault.mem_paths.1 hp with rfl | rfl | rfl
  · exact Path.endsInSlash_join Vault.isEntryName_rootName.1
  · exact Path.endsInSlash_join Vault.isEntryName_sessionsName.1
  · exact Path.endsInSlash_join Vault.isEntryName_reportsName.1

theorem traced_make (hp : p ∈ (under base).paths) :
    Traced base (make p : ExceptT VaultError (Logged lib) _).run (Returns (· = p)) := by
  intro h
  have hmade := FileSystem.makeDirs_fills h.files (endsInSlash_of_mem_paths hp)
  apply tracedFrom_attempt_get_bind
  generalize h.files.makeDirs p = r at hmade ⊢
  obtain ⟨made, files⟩ := r
  refine (tracedFrom_setFiles (.made hp hmade)).lift.attempt_bind fun _ g _ => ?_
  have hfailed (reason : String) := (@tracedFrom_record lib base g .error
      ("FileStore: Could not create directory: " ++ p.text ++ reason)).lift.attempt_bind fun _ _ _ =>
    tracedFrom_pure (returns_error (P := (· = p)) (VaultError.unpreparedDirectory p))
  rcases made with e | ⟨⟩
  · exact hfailed _
  · rcases files.status p with e | (_ | _ | _)
    · exact hfailed _
    · exact tracedFrom_pure (returns_ok rfl)
    · exact hfailed _
    · exact hfailed _

/-- Between the look at the path and the removal a record is made, which a sink may answer to. -/
theorem tracedFrom_clearWay (hp : p ∈ (under base).paths) {x : Node} (hs : h.files.status p = .ok x)
    (hx : x ≠ .directory) : TracedFrom base h (clearWay p : Logged lib Unit) fun _ => True := by
  have hrecord := @tracedFrom_record lib base h .debug ("FileStore: Unexpected non-directory file: " ++ p.text ++
    "; deleting file and creating new directory.")
  have hsince := @written_of_record lib .debug ("FileStore: Unexpected non-directory file: " ++ p.text ++
    "; deleting file and creating new directory.") h
  refine hrecord.bind fun _ g hg _ => tracedFrom_get_bind ?_
  have hlogging := hrecord.logging
  rw [hg] at hlogging hsince
  cases hremove : g.files.remove p with
  | ok files =>
    exact tracedFrom_setFiles (.cleared hp hs hx (hlogging ▸ hsince) (Vault.removesEntry_remove hremove))
  | error e => exact tracedFrom_pure trivial

theorem traced_prepare (hp : p ∈ (under base).paths) :
    Traced base (prepare p : ExceptT VaultError (Logged lib) _).run (Returns (· = p)) := by
  intro h
  apply tracedFrom_attempt_get_bind
  cases hs : h.files.status p with
  | error e => exact traced_make hp h
  | ok x =>
    have hclear (hx : x ≠ .directory) := (@tracedFrom_clearWay lib base p h hp x hs hx).lift.attempt_bind
      fun _ g _ => @traced_make lib base p hp g
    cases x with
    | directory => exact tracedFrom_pure (returns_ok rfl)
    | file text => exact hclear (by simp)
    | link target => exact hclear (by simp)

end Directory

namespace Vault
variable {lib : LogLibrary} {base : Path}

theorem traced_openAt (base : Path) :
    Traced base (openAt base : ExceptT VaultError (Logged lib) Vault).run (Returns (· = under base)) := by
  intro h
  refine (Directory.traced_prepare (root_mem (under base)) h).attempt_bind fun root g₁ hroot => ?_
  obtain rfl := hroot
  refine (Directory.traced_prepare (sessions_mem (under base)) g₁).attempt_bind fun sessions g₂ hsessions => ?_
  obtain rfl := hsessions
  refine (Directory.traced_prepare (reports_mem (under base)) g₂).attempt_bind fun reports g₃ hreports => ?_
  obtain rfl := hreports
  exact (tracedFrom_record _ _).lift.attempt_bind fun _ _ _ => tracedFrom_pure (returns_ok rfl)

theorem traced_cleanupLegacy (base : Path) :
    Traced base ((under base).cleanupLegacy : Logged lib Bool) fun _ => True := by
  intro h
  refine (Directory.traced_removeWithin _ (List.forall_mem_nil _) h).bind ?_
  rintro ⟨removed | removed, tried⟩ g - -
  · exact tracedFrom_pure trivial
  · exact (tracedFrom_record _ _).map (fun _ => true) fun _ _ => trivial

theorem traced_listSession (v : Vault) (id : String) (keep : String → Bool) :
    Traced base (v.listSession id keep : Logged lib _) fun _ => True := by
  intro h
  unfold listSession
  split
  · exact (Directory.traced_listing _ keep h).mono fun _ _ => trivial
  · exact (tracedFrom_record _ _).map (fun _ => []) fun _ _ => trivial

end Vault

namespace Shell
variable {lib : LogLibrary} {base : Path}

theorem traced_answer (v : Vault) {c : Command} (hc : ¬ c.Deletes) :
    Traced base (answer v c : ExceptT VaultError (Logged lib) _).run fun _ => True := by
  intro h
  have hpure {text : String} : TracedFrom base h (pure text : ExceptT VaultError (Logged lib) String).run
      fun _ => True := tracedFrom_pure trivial
  have hlisting (dir : Path) (keep : String → Bool) (f : List Path → String) :=
    ((@Directory.traced_listing lib base dir keep h).lift_map f).mono fun _ _ => trivial
  cases c with
  | help => exact hpure
  | paths session => exact hpure
  | unknown => exact hpure
  | sessions =>
    have hids := (@Directory.traced_listing lib base v.sessions (fun _ => true) h).map (List.map Path.fileName)
      (Q := fun _ => True) fun _ _ => trivial
    exact (hids.lift_map _).mono fun _ _ => trivial
  | common => exact hlisting _ _ _
  | reports => exact hlisting _ _ _
  | files session => exact ((v.traced_listSession session _ h).lift_map _).mono fun _ _ => trivial
  | cleanup => exact absurd trivial hc
  | wipe => exact absurd trivial hc
  | removeSession session => exact absurd trivial hc
  | removeReport session => exact absurd trivial hc

theorem traced_converse (v : Vault) {script : List (List Char)} (hlines : ∀ line ∈ script, ¬ Deletes line) :
    Traced base (converse v script : Logged lib _) fun _ => True := by
  induction script with
  | nil => exact fun h => tracedFrom_pure trivial
  | cons line rest ih =>
    intro h
    have hrest := ih fun line hline => hlines line (List.mem_cons_of_mem _ hline)
    unfold converse
    cases hline : Request.ofLine line with
    | quit => exact tracedFrom_pure trivial
    | blank => exact (hrest h).map _ fun _ _ => trivial
    | command name argument =>
      have hc : ¬ (Command.ofWords name argument).Deletes := fun hc =>
        hlines line List.mem_cons_self (deletes_of_command hline hc)
      refine (tracedFrom_record _ _).bind fun _ g _ _ => (traced_answer v hc g).bind ?_
      rintro (e | text) g' - -
      · exact tracedFrom_pure trivial
      · exact (hrest g').map _ fun _ _ => trivial

theorem traced_run (v : Vault) {script : String} (hlines : ∀ line ∈ lines script.toList, ¬ Deletes line) :
    Traced base (run v script : Logged lib _) fun _ => True := by
  intro h
  refine (tracedFrom_record _ _).bind fun _ g₁ _ _ => (tracedFrom_record _ _).bind fun _ g₂ _ _ => ?_
  refine (traced_converse v hlines g₂).bind fun t g₃ _ _ => ?_
  by_cases ht : t.failure = none
  · simp only [ht, if_true]
    exact (tracedFrom_record _ _).map _ fun _ _ => trivial
  · simp only [ht, if_false]
    exact tracedFrom_pure trivial

end Shell
end CrashVault
