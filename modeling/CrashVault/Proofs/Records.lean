import CrashVault.LogLibrary
import CrashVault.Shell

/-! What is recorded bears on nothing that is done. As long as the sinks take the records, work comes to its
end and leaves the state of logging as it was; and as long as they write elsewhere, its answer, what becomes
of the files and the records it makes all follow from the files it starts on, whatever the library, and the
library only picks those of the records that are passed on. All this holds of making a record and of
whatever asks the host for its files alone, it is kept by `bind`, and so it holds of a whole conversation
with the shell (`mirrors_converse`). -/

namespace CrashVault

/-- Work with the library goes as the same work does on a host alone. -/
structure Mirrors {lib : LogLibrary} {α : Type} (x : Logged lib α) (y : StateM Host α) : Prop where
  ends : ∀ h, lib.Takes h.logging.sinks → ∃ a h', x.run h = (.ok a, h') ∧ h'.logging = h.logging
  alike : ∀ fs, ∃ a fs', ∃ made : List Record, ∀ logging records,
    y.run ⟨fs, logging, records⟩ =
      (a, ⟨fs', logging, records ++ made.filter (logging.passes ·.severity)⟩) ∧
    (lib.Apart logging.sinks → x.run ⟨fs, logging, records⟩ =
      (.ok a, ⟨fs', logging, records ++ made.filter (lib.passes logging ·.severity)⟩))

section
variable {lib : LogLibrary} {α β : Type} {x : Logged lib α} {y : StateM Host α}

/-- On the same files there is the same answer, and the files become the same. -/
theorem Mirrors.run_eq (hx : Mirrors x y) {h h' : Host} (hfiles : h.files = h'.files) :
    (y.run h).1 = (y.run h').1 ∧ (y.run h).2.files = (y.run h').2.files := by
  obtain ⟨fs, logging, records⟩ := h
  obtain ⟨fs', logging', records'⟩ := h'
  obtain rfl : fs = fs' := hfiles
  obtain ⟨a, fs', made, hrun⟩ := hx.alike fs
  rw [(hrun _ _).1, (hrun _ _).1]
  exact ⟨rfl, rfl⟩

/-- With sinks that write elsewhere, a library that does as documented is not to be told from the host. -/
theorem Mirrors.run_of_apart (hx : Mirrors x y) (hlib : lib.Documented) {h : Host}
    (hsinks : lib.Apart h.logging.sinks) : x.run h = (.ok (y.run h).1, (y.run h).2) := by
  obtain ⟨fs, logging, records⟩ := h
  obtain ⟨a, fs', made, hrun⟩ := hx.alike fs
  rw [(hrun logging records).1, (hrun logging records).2 hsinks, hlib.passes]

theorem Mirrors.apart (hx : Mirrors x y) {h : Host} (hsinks : lib.Apart h.logging.sinks) :
    lib.Apart (y.run h).2.logging.sinks := by
  obtain ⟨a, fs', made, hrun⟩ := hx.alike h.files
  rw [(hrun h.logging h.records).1]
  exact hsinks

theorem mirrors_pure (a : α) : Mirrors (pure a : Logged lib α) (pure a) where
  ends h _ := ⟨a, h, rfl, rfl⟩
  alike fs := ⟨a, fs, [], fun logging records => by
    rw [List.filter_nil, List.filter_nil, List.append_nil]
    exact ⟨rfl, fun _ => rfl⟩⟩

theorem Mirrors.bind {f : α → Logged lib β} {g : α → StateM Host β} (hx : Mirrors x y)
    (hf : ∀ a, Mirrors (f a) (g a)) : Mirrors (x >>= f) (y >>= g) where
  ends h hsinks := by
    obtain ⟨a, h₁, hrun₁, hlogging₁⟩ := hx.ends h hsinks
    obtain ⟨b, h₂, hrun₂, hlogging₂⟩ := (hf a).ends h₁ (hlogging₁ ▸ hsinks)
    refine ⟨b, h₂, ?_, hlogging₂.trans hlogging₁⟩
    rw [Logged.run_bind, hrun₁]
    exact hrun₂
  alike fs := by
    obtain ⟨a, fs₁, made₁, hrun₁⟩ := hx.alike fs
    obtain ⟨b, fs₂, made₂, hrun₂⟩ := (hf a).alike fs₁
    refine ⟨b, fs₂, made₁ ++ made₂, fun logging records => ⟨?_, fun hsinks => ?_⟩⟩
    · rw [List.filter_append, ← List.append_assoc]
      exact (congrArg (fun r => (g r.1).run r.2) (hrun₁ logging records).1).trans (hrun₂ logging _).1
    · rw [List.filter_append, ← List.append_assoc, Logged.run_bind, (hrun₁ logging records).2 hsinks]
      exact (hrun₂ logging _).2 hsinks

theorem Mirrors.map (hx : Mirrors x y) (f : α → β) : Mirrors (return f (← x)) (return f (← y)) :=
  hx.bind fun a => mirrors_pure (f a)

theorem mirrors_record (severity : Severity) (text : String) :
    Mirrors (record severity text : Logged lib Unit) (record severity text) where
  ends h hsinks := by
    have htaken := hsinks h ⟨severity, text⟩ rfl
    rw [Logged.run_record]
    generalize lib.consume h ⟨severity, text⟩ = taken at htaken ⊢
    obtain ⟨_ | ⟨⟩, files⟩ := taken
    · cases htaken
    · split
      · exact ⟨(), _, rfl, rfl⟩
      · exact ⟨(), _, rfl, rfl⟩
  alike fs := by
    refine ⟨(), fs, [⟨severity, text⟩], fun logging records => ⟨?_, fun hsinks => ?_⟩⟩
    · show ((), Host.note _ _) = _
      unfold Host.note
      cases hpasses : logging.passes severity <;> simp [hpasses]
    · rw [Logged.run_record, hsinks ⟨fs, logging, records⟩ ⟨severity, text⟩ rfl]
      cases hpasses : lib.passes logging severity <;> simp [hpasses]

theorem Mirrors.rescue (hx : Mirrors x y) : Mirrors (rescue x : Logged lib _) (rescue y) where
  ends h hsinks := by
    obtain ⟨a, h', hrun, hlogging⟩ := hx.ends h hsinks
    exact ⟨.ok a, h', by rw [Logged.run_rescue, hrun], hlogging⟩
  alike fs := by
    obtain ⟨a, fs', made, hrun⟩ := hx.alike fs
    refine ⟨.ok a, fs', made, fun logging records => ⟨?_, fun hsinks => ?_⟩⟩
    · exact congrArg (fun r => (Except.ok r.1, r.2)) (hrun logging records).1
    · rw [Logged.run_rescue, (hrun logging records).2 hsinks]

theorem mirrors_get_bind {f : Host → Logged lib α} {g : Host → StateM Host α}
    (hfiles : ∀ h h', h.files = h'.files → f h = f h' ∧ g h = g h') (hf : ∀ h, Mirrors (f h) (g h)) :
    Mirrors (get >>= f) (get >>= g) where
  ends h hsinks := (hf h).ends h hsinks
  alike fs := by
    obtain ⟨a, fs', made, hrun⟩ := (hf ⟨fs, default, []⟩).alike fs
    refine ⟨a, fs', made, fun logging records => ?_⟩
    obtain ⟨hf', hg'⟩ := hfiles ⟨fs, logging, records⟩ ⟨fs, default, []⟩ rfl
    show (g ⟨fs, logging, records⟩).run ⟨fs, logging, records⟩ = _ ∧
      (_ → (f ⟨fs, logging, records⟩).run ⟨fs, logging, records⟩ = _)
    rw [hf', hg']
    exact hrun logging records

theorem mirrors_setFiles (files : FileSystem) :
    Mirrors (modify fun h => { h with files } : Logged lib Unit) (modify fun h => { h with files }) where
  ends _ _ := ⟨(), _, rfl, rfl⟩
  alike _ := ⟨(), files, [], fun logging records => by
    rw [List.filter_nil, List.filter_nil, List.append_nil]
    exact ⟨rfl, fun _ => rfl⟩⟩

theorem mirrors_foldlM {f : β → α → Logged lib β} {g : β → α → StateM Host β}
    (hf : ∀ b a, Mirrors (f b a) (g b a)) (as : List α) (b : β) :
    Mirrors (as.foldlM f b) (as.foldlM g b) := by
  induction as generalizing b with
  | nil => exact mirrors_pure b
  | cons a as ih => exact (hf b a).bind ih

/-! Work that can fail goes on as a program that answers with what it came to. -/

theorem Mirrors.lift (hx : Mirrors x y) :
    Mirrors (liftM x : ExceptT VaultError (Logged lib) α).run (liftM y : Attempt α).run := by
  show Mirrors (Except.ok <$> x) (Except.ok <$> y)
  rw [map_eq_pure_bind, map_eq_pure_bind]
  exact hx.map Except.ok

theorem Mirrors.lift_map (hx : Mirrors x y) (f : α → β) :
    Mirrors (do return f (← x) : ExceptT VaultError (Logged lib) β).run (do return f (← y) : Attempt β).run := by
  rw [ExceptT.run_bind, ExceptT.run_bind]
  apply hx.lift.bind
  rintro (e | a)
  · exact mirrors_pure _
  · exact mirrors_pure _

theorem mirrors_attempt_get_bind {f : Host → ExceptT VaultError (Logged lib) α} {g : Host → Attempt α}
    (hfiles : ∀ h h', h.files = h'.files → f h = f h' ∧ g h = g h')
    (hf : ∀ h, Mirrors (f h).run (g h).run) : Mirrors (get >>= f).run (get >>= g).run := by
  show Mirrors (get >>= fun h => (f h).run) (get >>= fun h => (g h).run)
  refine mirrors_get_bind (fun h h' hh => ?_) hf
  obtain ⟨hf', hg'⟩ := hfiles h h' hh
  exact ⟨congrArg ExceptT.run hf', congrArg ExceptT.run hg'⟩

theorem Mirrors.attempt_bind {x : ExceptT VaultError (Logged lib) α} {y : Attempt α}
    {f : α → ExceptT VaultError (Logged lib) β} {g : α → Attempt β} (hx : Mirrors x.run y.run)
    (hf : ∀ a, Mirrors (f a).run (g a).run) : Mirrors (x >>= f).run (y >>= g).run := by
  rw [ExceptT.run_bind, ExceptT.run_bind]
  refine Mirrors.bind hx ?_
  rintro (e | a)
  · exact mirrors_pure (Except.error e)
  · exact hf a

end

namespace Directory
variable {lib : LogLibrary}

theorem mirrors_listing (dir : Path) (keep : String → Bool) :
    Mirrors (listing dir keep : Logged lib _) (listing dir keep) := by
  refine mirrors_get_bind (by rintro ⟨⟩ ⟨⟩ ⟨⟩; exact ⟨rfl, rfl⟩) fun h => ?_
  cases h.files.list dir with
  | ok names => exact mirrors_pure _
  | error e => exact (mirrors_record _ _).map fun _ => []

theorem mirrors_removeEntry (p : Path) : Mirrors (removeEntry p : Logged lib _) (removeEntry p) := by
  refine mirrors_get_bind (by rintro ⟨⟩ ⟨⟩ ⟨⟩; exact ⟨rfl, rfl⟩) fun h => ?_
  rcases h.files.remove p with e | files
  · cases e with
    | missing => exact mirrors_pure false
    | _ => exact (mirrors_record _ _).map fun _ => false
  · exact (mirrors_setFiles files).map fun _ => true

theorem mirrors_below (p : Path) : Mirrors (below p : Logged lib _) (below p) := by
  refine mirrors_get_bind (by rintro ⟨⟩ ⟨⟩ ⟨⟩; exact ⟨rfl, rfl⟩) fun h => ?_
  rcases h.files.linkStatus p with e | (_ | _ | _)
  · exact mirrors_pure []
  · exact mirrors_listing p _
  · exact mirrors_pure []
  · exact mirrors_pure []

theorem mirrors_removeWithin (room : Nat) (p : Path) :
    Mirrors (removeWithin room p : Logged lib _) (removeWithin room p) := by
  induction room generalizing p with
  | zero => exact (mirrors_removeEntry p).map (Removal.mk · 1)
  | succ room ih =>
    apply (mirrors_below p).bind
    intro children
    apply (mirrors_foldlM (fun n child => (ih child).map fun r => n + r.tried) children 1).bind
    intro tried
    exact (mirrors_removeEntry p).map (Removal.mk · tried)

theorem mirrors_removeTree (p : Path) : Mirrors (removeTree p : Logged lib _) (removeTree p) :=
  mirrors_removeWithin _ p

theorem mirrors_clearWay (p : Path) : Mirrors (clearWay p : Logged lib _) (clearWay p) := by
  apply (mirrors_record _ _).bind
  intro _
  refine mirrors_get_bind (by rintro ⟨⟩ ⟨⟩ ⟨⟩; exact ⟨rfl, rfl⟩) fun h => ?_
  cases h.files.remove p with
  | ok files => exact mirrors_setFiles files
  | error e => exact mirrors_pure ()

theorem mirrors_make (p : Path) :
    Mirrors (make p : ExceptT VaultError (Logged lib) _).run (make p : Attempt _).run := by
  refine mirrors_attempt_get_bind (by rintro ⟨⟩ ⟨⟩ ⟨⟩; exact ⟨rfl, rfl⟩) fun h => ?_
  generalize h.files.makeDirs p = r
  obtain ⟨made, files⟩ := r
  refine (mirrors_setFiles files).lift.attempt_bind fun _ => ?_
  have hfailed (reason : String) :=
    (@mirrors_record lib .error ("FileStore: Could not create directory: " ++ p.text ++ reason)).lift
      |>.attempt_bind fun _ => mirrors_pure (Except.error (VaultError.unpreparedDirectory p) : Except _ Path)
  rcases made with e | ⟨⟩
  · exact hfailed _
  · rcases files.status p with e | (_ | _ | _)
    · exact hfailed _
    · exact mirrors_pure _
    · exact hfailed _
    · exact hfailed _

theorem mirrors_prepare (p : Path) :
    Mirrors (prepare p : ExceptT VaultError (Logged lib) _).run (prepare p : Attempt _).run := by
  refine mirrors_attempt_get_bind (by rintro ⟨⟩ ⟨⟩ ⟨⟩; exact ⟨rfl, rfl⟩) fun h => ?_
  have hclear := (@mirrors_clearWay lib p).lift.attempt_bind fun _ => mirrors_make p
  rcases h.files.status p with e | (_ | _ | _)
  · exact mirrors_make p
  · exact mirrors_pure _
  · exact hclear
  · exact hclear

end Directory

namespace Vault
variable {lib : LogLibrary}

theorem mirrors_openAt (base : Path) :
    Mirrors (openAt base : ExceptT VaultError (Logged lib) _).run (openAt base : Attempt _).run := by
  refine (Directory.mirrors_prepare _).attempt_bind fun _ => ?_
  refine (Directory.mirrors_prepare _).attempt_bind fun _ => ?_
  refine (Directory.mirrors_prepare _).attempt_bind fun _ => ?_
  exact (mirrors_record _ _).lift.attempt_bind fun _ => mirrors_pure _

theorem mirrors_cleanupLegacy (v : Vault) : Mirrors (v.cleanupLegacy : Logged lib _) v.cleanupLegacy := by
  apply (Directory.mirrors_removeTree _).bind
  rintro ⟨removed | removed, tried⟩
  · exact mirrors_pure false
  · exact (mirrors_record _ _).map fun _ => true

theorem mirrors_deleteAll (v : Vault) :
    Mirrors (v.deleteAll : ExceptT VaultError (Logged lib) _).run (v.deleteAll : Attempt _).run := by
  refine (mirrors_record _ _).lift.attempt_bind fun _ => ?_
  refine (Directory.mirrors_removeTree _).lift.attempt_bind fun _ => ?_
  refine (Directory.mirrors_prepare _).attempt_bind fun _ => ?_
  refine (Directory.mirrors_prepare _).attempt_bind fun _ => ?_
  exact (Directory.mirrors_prepare _).attempt_bind fun _ => mirrors_pure _

theorem mirrors_listSession (v : Vault) (id : String) (keep : String → Bool) :
    Mirrors (v.listSession id keep : Logged lib _) (v.listSession id keep) := by
  unfold listSession
  split
  · exact Directory.mirrors_listing _ keep
  · exact (mirrors_record _ _).map fun _ => []

theorem mirrors_deleteSession (v : Vault) (id : String) :
    Mirrors (v.deleteSession id : Logged lib _) (v.deleteSession id) := by
  unfold deleteSession
  split
  · exact (mirrors_record _ _).bind fun _ => (Directory.mirrors_removeTree _).map (·.removed)
  · exact (mirrors_record _ _).map fun _ => false

theorem mirrors_deleteReport (v : Vault) (id : String) :
    Mirrors (v.deleteReport id : Logged lib _) (v.deleteReport id) := by
  refine mirrors_get_bind (by rintro ⟨⟩ ⟨⟩ ⟨⟩; exact ⟨rfl, rfl⟩) fun h => ?_
  cases h.files.status (v.reportFile .untagged id) with
  | error e => exact (mirrors_record _ _).map fun _ => false
  | ok x =>
    apply (mirrors_record _ _).bind
    intro _
    refine mirrors_get_bind (by rintro ⟨⟩ ⟨⟩ ⟨⟩; exact ⟨rfl, rfl⟩) fun h => ?_
    rcases h.files.remove (v.reportFile .untagged id) with e | files
    · cases e with
      | missing => exact mirrors_pure false
      | _ => exact (mirrors_record _ _).map fun _ => false
    · exact (mirrors_setFiles files).map fun _ => true

end Vault

namespace Shell
variable {lib : LogLibrary}

theorem mirrors_wipeFailed (reason : String) : Mirrors (wipeFailed reason : Logged lib _) (wipeFailed reason) :=
  (mirrors_record _ _).map fun _ => _

theorem mirrors_answer (v : Vault) (c : Command) :
    Mirrors (answer v c : ExceptT VaultError (Logged lib) _).run (answer v c : Attempt _).run := by
  cases c with
  | help => exact mirrors_pure _
  | paths session => exact mirrors_pure _
  | unknown => exact mirrors_pure _
  | sessions => exact ((Directory.mirrors_listing _ _).map _).lift_map _
  | common => exact (Directory.mirrors_listing _ _).lift_map _
  | reports => exact (Directory.mirrors_listing _ _).lift_map _
  | files session => exact (v.mirrors_listSession session _).lift_map _
  | cleanup => exact v.mirrors_cleanupLegacy.lift_map _
  | removeSession session => exact (v.mirrors_deleteSession session).lift_map _
  | removeReport session => exact (v.mirrors_deleteReport session).lift_map _
  | wipe =>
    apply v.mirrors_deleteAll.rescue.lift.attempt_bind
    rintro (what | e | ⟨⟩)
    · exact (mirrors_wipeFailed what).lift
    · exact (mirrors_wipeFailed e.message).lift
    · exact mirrors_pure _

theorem mirrors_converse (v : Vault) (script : List (List Char)) :
    Mirrors (converse v script : Logged lib _) (converse v script) := by
  induction script with
  | nil => exact mirrors_pure _
  | cons line rest ih =>
    unfold converse
    cases Request.ofLine line with
    | quit => exact mirrors_pure _
    | blank => exact ih.map _
    | command name argument =>
      refine (mirrors_record _ _).bind fun _ => (mirrors_answer v _).bind ?_
      rintro (e | text)
      · exact mirrors_pure _
      · exact ih.map _

theorem mirrors_run (v : Vault) (script : String) : Mirrors (run v script : Logged lib _) (run v script) := by
  apply (mirrors_record _ _).bind
  intro _
  apply (mirrors_record _ _).bind
  intro _
  apply (mirrors_converse v _).bind
  intro t
  by_cases ht : t.failure = none
  · simp only [ht, if_true]
    exact (mirrors_record _ _).map _
  · simp only [ht, if_false]
    exact mirrors_pure _

end Shell

end CrashVault
