import CrashVault.Host

/-! The logging library behind a program. It is a parameter: what its core does with the sinks, the threshold
and the switch, which records it passes on, and what the sinks do with one, which may change files and may
throw. What is relied on of a library is named here, and assumed where it is relied on. -/

namespace CrashVault

structure LogLibrary where
  clearSinks : Logging → Logging
  addSink : Sink → Logging → Logging
  setThreshold : Severity → Logging → Logging
  setEnabled : Bool → Logging → Logging
  /-- Whether the core passes a record of that severity on to the sinks. -/
  passes : Logging → Severity → Bool
  /-- What the sinks do with a record that is passed on: they take it or one of them throws, and either way
  this is what becomes of the files. -/
  consume : Host → Record → Except String Unit × FileSystem

namespace LogLibrary

/-- What a library documents of its core. -/
structure Documented (lib : LogLibrary) : Prop where
  clearSinks : ∀ l, lib.clearSinks l = { l with sinks := [] }
  addSink : ∀ sink l, lib.addSink sink l = { l with sinks := l.sinks ++ [sink] }
  setThreshold : ∀ least l, lib.setThreshold least l = { l with threshold := some least }
  setEnabled : ∀ on l, lib.setEnabled on l = { l with enabled := on }
  passes_iff : ∀ l severity, lib.passes l severity = true ↔
    l.enabled = true ∧ ∀ least ∈ l.threshold, least.rank ≤ severity.rank

/-- The sinks take every record, whatever they do to the files. -/
def Takes (lib : LogLibrary) (sinks : List Sink) : Prop :=
  ∀ h r, h.logging.sinks = sinks → (lib.consume h r).1 = .ok ()

/-- The sinks take every record and write elsewhere than to the files of a host: to the console, to a device
or to another system. -/
def Apart (lib : LogLibrary) (sinks : List Sink) : Prop :=
  ∀ h r, h.logging.sinks = sinks → lib.consume h r = (.ok (), h.files)

/-- A library that keeps to what is documented, whatever its sinks do with a record. -/
def standard (consume : Host → Record → Except String Unit × FileSystem) : LogLibrary where
  clearSinks l := { l with sinks := [] }
  addSink sink l := { l with sinks := l.sinks ++ [sink] }
  setThreshold least l := { l with threshold := some least }
  setEnabled on l := { l with enabled := on }
  passes := Logging.passes
  consume := consume

def elsewhere : LogLibrary := standard fun h _ => (.ok (), h.files)

theorem Apart.takes {lib : LogLibrary} {sinks : List Sink} (h : lib.Apart sinks) : lib.Takes sinks :=
  fun g r hg => by rw [h g r hg]

theorem elsewhere_apart (sinks : List Sink) : elsewhere.Apart sinks := fun _ _ _ => rfl

theorem elsewhere_takes (sinks : List Sink) : elsewhere.Takes sinks := (elsewhere_apart sinks).takes

theorem passes_iff {l : Logging} {severity : Severity} : l.passes severity = true ↔
    l.enabled = true ∧ ∀ least ∈ l.threshold, least.rank ≤ severity.rank := by
  obtain ⟨enabled, _ | least, sinks⟩ := l
  · simp [Logging.passes]
  · simp [Logging.passes]

theorem standard_documented (consume : Host → Record → Except String Unit × FileSystem) :
    (standard consume).Documented where
  clearSinks _ := rfl
  addSink _ _ := rfl
  setThreshold _ _ := rfl
  setEnabled _ _ := rfl
  passes_iff _ _ := passes_iff

theorem elsewhere_documented : elsewhere.Documented := standard_documented _

theorem Documented.passes {lib : LogLibrary} (h : lib.Documented) (l : Logging) : lib.passes l = l.passes :=
  funext fun severity => Bool.eq_iff_iff.2 ((h.passes_iff l severity).trans LogLibrary.passes_iff.symm)

end LogLibrary

/-- Work whose records go to the library. What a sink throws breaks it off; what it has done stays done. -/
def Logged (_ : LogLibrary) (α : Type) : Type := ExceptT String (StateM Host) α

namespace Logged
variable {lib : LogLibrary} {α β : Type}

instance : Monad (Logged lib) := inferInstanceAs (Monad (ExceptT String (StateM Host)))

instance : LawfulMonad (Logged lib) := inferInstanceAs (LawfulMonad (ExceptT String (StateM Host)))

instance : MonadStateOf Host (Logged lib) := inferInstanceAs (MonadStateOf Host (ExceptT String (StateM Host)))

def run (x : Logged lib α) (h : Host) : Except String α × Host := StateT.run (ExceptT.run x) h

def ofRun (f : Host → Except String α × Host) : Logged lib α := ExceptT.mk (StateT.mk f)

instance : MonadLog (Logged lib) where
  clearSinks := modify fun h => { h with logging := lib.clearSinks h.logging }
  addSink sink := modify fun h => { h with logging := lib.addSink sink h.logging }
  setThreshold least := modify fun h => { h with logging := lib.setThreshold least h.logging }
  setEnabled on := modify fun h => { h with logging := lib.setEnabled on h.logging }
  record severity text := .ofRun fun h =>
    if lib.passes h.logging severity then
      match lib.consume h ⟨severity, text⟩ with
      | (.ok (), files) => (.ok (), { h with files, records := h.records ++ [⟨severity, text⟩] })
      | (.error what, files) => (.error what, { h with files })
    else (.ok (), h)
  rescue x := .ofRun fun h => (.ok (x.run h).1, (x.run h).2)

theorem run_bind (x : Logged lib α) (f : α → Logged lib β) (h : Host) : (x >>= f).run h =
    match x.run h with
    | (.ok a, h') => (f a).run h'
    | (.error what, h') => (.error what, h') := by
  show ExceptT.bindCont f (x.run h).1 (x.run h).2 = _
  rcases x.run h with ⟨_ | _, _⟩
  · rfl
  · rfl

theorem run_record (severity : Severity) (text : String) (h : Host) :
    (record severity text : Logged lib Unit).run h =
      if lib.passes h.logging severity then
        match lib.consume h ⟨severity, text⟩ with
        | (.ok (), files) => (.ok (), { h with files, records := h.records ++ [⟨severity, text⟩] })
        | (.error what, files) => (.error what, { h with files })
      else (.ok (), h) := rfl

theorem run_rescue (x : Logged lib α) (h : Host) : (rescue x : Logged lib _).run h = (.ok (x.run h).1, (x.run h).2) :=
  rfl

theorem run_clearSinks (h : Host) : (MonadLog.clearSinks : Logged lib Unit).run h =
    (.ok (), { h with logging := lib.clearSinks h.logging }) := rfl

theorem run_addSink (sink : Sink) (h : Host) : (MonadLog.addSink sink : Logged lib Unit).run h =
    (.ok (), { h with logging := lib.addSink sink h.logging }) := rfl

theorem run_setThreshold (least : Severity) (h : Host) :
    (MonadLog.setThreshold least : Logged lib Unit).run h =
      (.ok (), { h with logging := lib.setThreshold least h.logging }) := rfl

theorem run_setEnabled (on : Bool) (h : Host) : (MonadLog.setEnabled on : Logged lib Unit).run h =
    (.ok (), { h with logging := lib.setEnabled on h.logging }) := rfl

/-! Work that can fail as well: what a sink throws is none of its own errors, and passes them by. -/

variable {ε : Type}

theorem run_get_bind (f : Host → ExceptT ε (Logged lib) β) (h : Host) :
    (get >>= f).run.run h = (f h).run.run h := rfl

theorem run_lift_bind (x : Logged lib α) (f : α → ExceptT ε (Logged lib) β) (h : Host) :
    (liftM x >>= f : ExceptT ε (Logged lib) β).run.run h =
      match x.run h with
      | (.ok a, h') => (f a).run.run h'
      | (.error what, h') => (.error what, h') := by
  have hlift : (liftM x : ExceptT ε (Logged lib) α).run = Except.ok <$> x := rfl
  rw [ExceptT.run_bind, hlift, bind_map_left, run_bind]

theorem run_lift (x : Logged lib α) (h : Host) : (liftM x : ExceptT ε (Logged lib) α).run.run h =
    match x.run h with
    | (.ok a, h') => (.ok (.ok a), h')
    | (.error what, h') => (.error what, h') := by
  have hlift : (liftM x : ExceptT ε (Logged lib) α).run = Except.ok <$> x := rfl
  rw [hlift, map_eq_pure_bind, run_bind]
  rfl

theorem run_adapt_bind {ε' : Type} (f : ε → ε') (x : ExceptT ε (Logged lib) α)
    (k : α → ExceptT ε' (Logged lib) β) (h : Host) : (ExceptT.adapt f x >>= k).run.run h =
      match x.run.run h with
      | (.ok (.ok a), h') => (k a).run.run h'
      | (.ok (.error e), h') => (.ok (.error (f e)), h')
      | (.error what, h') => (.error what, h') := by
  rw [ExceptT.run_bind, ExceptT.run_adapt, bind_map_left, run_bind]
  rcases x.run.run h with ⟨_ | _ | _, _⟩
  · rfl
  · rfl
  · rfl

end Logged
end CrashVault
